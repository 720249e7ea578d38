import Mathlib
import LoxLang.Proofs.Alike.Reading
import LoxLang.Proofs.Grammar.Script

/-!
# Proofs/Grammar/Lookahead — tokens that are not looked for

A parser stops in front of a token that it does not look for, and it makes no difference what that
token is and what comes behind it. A `Fork` is two lists of tokens with a common front part; at
cursors beside each other in them (`Cursor.Beside`) a parser that looks for no token at the fork
does the same, whether it succeeds or fails (`Script.beside`).

A fork with nothing behind its front part has another use: nothing that a parser does depends on
the faults noted before it (`Fork.notedBefore`).
-/

namespace LoxLang

/-- Two lists of tokens with a common front part. -/
structure Fork where
  /-- The common front part. -/
  shared : List Token
  left : List Token
  right : List Token
  /-- Faults that were noted before on the right only. -/
  noted : List Diagnostic
  /-- How the tokens at which faults are found correspond: inside the front part they are the
  same. -/
  places : Token → Token → Prop
  places_refl : ∀ t, places t t

namespace Fork

/-- The same fault at corresponding tokens. -/
inductive Faults (F : Fork) : Diagnostic → Diagnostic → Prop
  | parse {t t' : Token} (h : F.places t t') (fault : ParseFault) :
      Faults F (.parse t fault) (.parse t' fault)

/-- No token behind the front part is of one of the given kinds; where the end is looked for there is
nothing behind it at all. -/
structure Unseen (F : Fork) (kinds : List Kind) : Prop where
  left : Avoids kinds F.left
  right : Avoids kinds F.right
  ends : .eof ∈ kinds → F.left = [] ∧ F.right = []

end Fork

/-- Cursors at the same place in the front part of a fork. -/
structure Cursor.Beside (F : Fork) (c c' : Cursor) : Prop where
  rest : ∃ w, w <:+ F.shared ∧ c.rest = w ++ F.left ∧ c'.rest = w ++ F.right
  place : F.places (F.left.headD c.last) (F.right.headD c'.last)
  faults : ∃ ds, c'.faults = F.noted ++ ds ∧ List.Forall₂ F.Faults c.faults ds
  nextId : c.nextId = c'.nextId

/-- Parsers that do the same at cursors beside each other. -/
abbrev Parser.Beside {α : Type} (F : Fork) (p q : Parser α) : Prop :=
  Likewise F.Faults (Cursor.Beside F) Eq p q

namespace Cursor.Beside

variable {F : Fork} {c c' : Cursor}

/-- The current tokens correspond. -/
theorem current (h : c.Beside F c') : F.places c.current c'.current := by
  obtain ⟨w, -, hl, hr⟩ := h.rest
  unfold Cursor.current
  rw [hl, hr]
  cases w with
  | nil => exact h.place
  | cons t _ => exact F.places_refl t

/-- Corresponding faults are noted on both sides. -/
theorem note (h : c.Beside F c') {d d' : Diagnostic} (hd : F.Faults d d') :
    Cursor.Beside F { c with faults := c.faults ++ [d] } { c' with faults := c'.faults ++ [d'] } := by
  obtain ⟨ds, hds, hfaults⟩ := h.faults
  exact ⟨h.rest, h.place, ⟨ds ++ [d'], by simp [hds], List.rel_append hfaults (.cons hd .nil)⟩,
    h.nextId⟩

/-- The cursors move on inside the front part. -/
theorem move (h : c.Beside F c') {w : List Token} (hw : w <:+ F.shared) :
    Cursor.Beside F { c with rest := w ++ F.left } { c' with rest := w ++ F.right } :=
  ⟨⟨w, hw, rfl, rfl⟩, h.place, h.faults, h.nextId⟩

end Cursor.Beside

namespace Parser

variable {F : Fork} {kinds : List Kind}

namespace Beside

/-- Behind the front part there is no token that is looked for. -/
theorem looksAt (hF : F.Unseen kinds) {kind : Kind} (hk : kind ∈ kinds) :
    Beside F (Parser.looksAt kind) (Parser.looksAt kind) := by
  intro c c' h
  obtain ⟨w, -, hl, hr⟩ := h.rest
  rw [looksAt_eq, looksAt_eq, hl, hr]
  refine .ok ?_ h
  cases w with
  | nil =>
    have hleft : ¬ ∃ t ∈ F.left.head?, t.kind = kind := fun ⟨t, ht, h⟩ => hF.left t ht (h ▸ hk)
    have hright : ¬ ∃ t ∈ F.right.head?, t.kind = kind := fun ⟨t, ht, h⟩ => hF.right t ht (h ▸ hk)
    simp only [List.nil_append, hleft, hright]
  | cons t w => rfl

/-- Behind the front part there is no token that would be taken. -/
theorem acceptAny (hF : F.Unseen kinds) {accepted : List Kind} (hk : accepted ⊆ kinds) :
    Beside F (Parser.acceptAny accepted) (Parser.acceptAny accepted) := by
  intro c c' h
  obtain ⟨w, hw, hl, hr⟩ := h.rest
  cases w with
  | nil =>
    rw [acceptAny_none (c := c) (by rw [hl]; exact hF.left.mono hk),
      acceptAny_none (c := c') (by rw [hr]; exact hF.right.mono hk)]
    exact .ok rfl h
  | cons t w =>
    simp only [Parser.acceptAny, hl, hr, List.cons_append]
    split
    · exact .ok rfl (h.move ((List.suffix_cons t w).trans hw))
    · exact .ok rfl h

/-- Recovery does the same on both sides, as nothing stands behind the front part. -/
theorem recovering {p q : Parser Stmt} (hleft : F.left = []) (hright : F.right = [])
    (hp : Beside F p q) : Beside F (Parser.recovering p) (Parser.recovering q) := by
  intro c c' h
  have hout := hp h
  unfold Parser.recovering
  generalize p c = out, q c' = out' at hout
  cases hout with
  | ok hs hc =>
    cases hs
    exact .ok rfl hc
  | @error d d' c c' hd hc =>
    obtain ⟨w, hw, hl, hr⟩ := hc.rest
    have hmove := (hc.note hd).move ((resynchronize_suffix w).trans hw)
    rw [hleft, hright, List.append_nil] at hmove
    dsimp only
    rw [hl, hr, hleft, hright, List.append_nil]
    exact .ok rfl hmove

end Beside

/-- **A parser does the same on both sides of a fork** if it does not look for the tokens there. -/
theorem Script.beside (hF : F.Unseen kinds) {ahead : Bool} {α : Type} {p : Parser α}
    (script : Script kinds ahead p) : Beside F p p := by
  induction script with
  | pure a => exact .pure rfl
  | refuse fault => exact fun _ _ h => .error (.parse h.current fault) h
  | fail t fault => exact .throw (.parse (F.places_refl t) fault)
  | note t fault => exact fun _ _ h => .ok rfl (h.note (.parse (F.places_refl t) fault))
  | noteHere fault => exact fun _ _ h => .ok rfl (h.note (.parse h.current fault))
  | freshId =>
    exact fun _ _ h => .ok h.nextId ⟨h.rest, h.place, h.faults, congrArg (· + 1) h.nextId⟩
  | looksAt hk => exact Beside.looksAt hF hk
  | acceptAny hk => exact Beside.acceptAny hF hk
  | bind _ _ ihp ihf => exact ihp.bind fun {a b} hab => hab ▸ ihf a
  | @atEnd _ _ f hk _ _ ihclosed ihgoing =>
    intro c c' h
    obtain ⟨hleft, hright⟩ := hF.ends hk
    obtain ⟨w, -, hl, hr⟩ := h.rest
    have hrest : c'.rest = c.rest := by rw [hl, hr, hleft, hright]
    change Matches _ _ _ (f c.rest.isEmpty c) (f c'.rest.isEmpty c')
    rw [hrest]
    cases c.rest.isEmpty with
    | true => exact ihclosed h
    | false => exact ihgoing h
  | recovering hk _ _ ih =>
    obtain ⟨hleft, hright⟩ := hF.ends (hk _)
    exact ih.recovering hleft hright
  | anywhere _ ih => exact ih

end Parser

/-- Tokens with others behind them, and with nothing behind them. -/
def Fork.withRest (tokens rest : List Token) : Fork where
  shared := tokens
  left := rest
  right := []
  noted := []
  places _ _ := True
  places_refl _ := trivial

/-! ## Faults noted before -/

/-- The same tokens on both sides, with faults noted before on the right. -/
def Fork.notedBefore (tokens : List Token) (noted : List Diagnostic) : Fork where
  shared := tokens
  left := []
  right := []
  noted
  places := Eq
  places_refl _ := rfl

/-- Where corresponding tokens are the same, so are the faults. -/
theorem Fork.Faults.eq {F : Fork} (hF : F.places = Eq) {d d' : Diagnostic} (h : F.Faults d d') :
    d = d' := by
  cases h with
  | parse ht fault =>
    rw [hF] at ht
    rw [ht]

end LoxLang
