import Mathlib
import LoxLang.Lexis.Scan
import LoxLang.Proofs.Grammar.Numbering

/-!
# Proofs/Lexis/Spelling — the words of a text

A token that comes from a text and has the kind of `this` is written so, and no identifier is. The
scopes rely on it: they look for `this` under its name.
-/

namespace LoxLang

/-- A kind that is not a word's is spelled in no particular way. -/
theorem Token.Spelled.of_ne {t : Token} (hthis : t.kind ≠ .thisWord)
    (hname : t.kind ≠ .identifier) : t.Spelled :=
  ⟨fun h => absurd h hthis, fun h => absurd h hname⟩

namespace Lexis

/-- Only the word itself has the kind of `this`. -/
theorem eq_thisName_of_ofWord {word : String} (h : Kind.ofWord word = .thisWord) :
    word = thisName := by
  have hlookup : Kind.reserved.lookup word = some .thisWord := by
    unfold Kind.ofWord at h
    cases hl : Kind.reserved.lookup word with
    | none => simp [hl] at h
    | some kind => simpa [hl] using h
  obtain ⟨l₁, l₂, hsplit, -⟩ := List.lookup_eq_some_iff.mp hlookup
  have hmem : (word, Kind.thisWord) ∈ Kind.reserved := by
    rw [hsplit]
    simp
  simpa [Kind.reserved, thisName] using hmem

/-- An identifier is not spelled `this`. -/
theorem ne_thisName_of_ofWord {word : String} (h : Kind.ofWord word = .identifier) :
    word ≠ thisName := by
  rintro rfl
  exact absurd h (by decide)

/-- The kind of a lexeme that is no word. -/
def IsMark (kind : Kind) : Prop :=
  kind ≠ .thisWord ∧ kind ≠ .identifier ∧ kind ≠ .eof

instance (kind : Kind) : Decidable (IsMark kind) :=
  inferInstanceAs (Decidable (_ ∧ _))

theorem isMark_of_mark? {c : Char} {kind : Kind} (h : mark? c = some kind) : IsMark kind := by
  unfold mark? at h
  split at h <;> cases h <;> decide

theorem isMark_of_comparison? {c : Char} {k k' : Kind} (h : comparison? c = some (k, k')) :
    IsMark k ∧ IsMark k' := by
  unfold comparison? at h
  split at h <;> cases h <;> decide

/-- A lexeme is a word with the kind of that word, or has the kind of a mark, a string or a
number. -/
theorem kind_cut {c : Char} {rest : List Char} {kind : Kind} {literal : Option Literal}
    {text : List Char} (h : cut c rest = .lexeme kind literal text) :
    IsMark kind ∨ kind = Kind.ofWord (String.ofList text) := by
  unfold cut at h
  split at h
  · cases h
  · split at h
    · next hm =>
      cases h
      exact .inl (isMark_of_mark? hm)
    · split at h
      · next hm =>
        obtain ⟨hk, hk'⟩ := isMark_of_comparison? hm
        split at h <;> cases h
        · exact .inl hk'
        · exact .inl hk
      · split at h
        · split at h <;> cases h
          exact .inl (by decide)
        · split at h
          · unfold stringPiece at h
            split at h <;> cases h
            exact .inl (by decide)
          · split at h
            · cases h
              exact .inl (by decide)
            · split at h
              · cases h
                exact .inr rfl
              · cases h

/-- A word is spelled by its kind; no other lexeme is a name or `this`. -/
theorem spelled_cut {c : Char} {rest : List Char} {kind : Kind} {literal : Option Literal}
    {text : List Char} (h : cut c rest = .lexeme kind literal text) (line : Nat) :
    Token.Spelled ⟨kind, String.ofList text, literal, line⟩ := by
  rcases kind_cut h with hmark | rfl
  · exact .of_ne hmark.1 hmark.2.1
  · exact ⟨eq_thisName_of_ofWord, ne_thisName_of_ofWord⟩

/-- Every token that the pieces leave is spelled as its kind says. -/
theorem spelled_items : ∀ (line : Nat) (ps : List Piece),
    (∀ p ∈ ps, ∃ c rest, p = cut c rest) → ∀ t, .ok t ∈ items line ps → t.Spelled
  | line, [], _, t, ht => by
      simp only [items, List.mem_singleton, Except.ok.injEq] at ht
      subst ht
      exact .of_ne nofun nofun
  | line, p :: ps, hps, t, ht => by
      simp only [items, List.mem_append, Option.mem_toList] at ht
      rcases ht with ht | ht
      · obtain ⟨c, rest, hp⟩ := hps p List.mem_cons_self
        cases p with
        | lexeme kind literal text =>
          simp only [item?, Option.some.injEq, Except.ok.injEq] at ht
          subst ht
          exact spelled_cut hp.symm _
        | blank | comment | unterminated | stray => simp [item?] at ht
      · exact spelled_items _ ps (fun p hp => hps p (List.mem_cons_of_mem _ hp)) t ht

/-- Every piece was cut off at some place of the text. -/
theorem mem_piecesAfter : ∀ (k : Nat) (cs : List Char) (p : Piece), p ∈ piecesAfter k cs →
    ∃ c rest, p = cut c rest
  | _, [], _, h => by simp [piecesAfter] at h
  | k + 1, _ :: cs, p, h => mem_piecesAfter k cs p h
  | 0, c :: cs, p, h => by
      simp only [piecesAfter, List.mem_cons] at h
      rcases h with rfl | h
      · exact ⟨c, cs, rfl⟩
      · exact mem_piecesAfter _ cs p h

end Lexis

/-- **The tokens of a text are spelled as their kinds say.** -/
theorem spelled_scan (source : String) : ∀ t ∈ tokensOf (scan source), t.Spelled := by
  intro t ht
  obtain ⟨item, hitem, ht⟩ := List.mem_filterMap.mp ht
  cases item with
  | error d => cases ht
  | ok t' =>
    cases ht
    exact Lexis.spelled_items 1 _ (Lexis.mem_piecesAfter 0 _) t hitem

end LoxLang
