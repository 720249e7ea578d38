import Mathlib
import LoxLang.Proofs.Grammar.Lookahead

/-!
# Proofs/Grammar/Fragment — part of a statement, whatever comes behind it

A `Fragment` is part of a single statement: tokens without a semicolon, without a brace that opens a
body, and without a keyword of another statement. At a fork behind a fragment a declaration comes to
the same on both sides (`declarationBody_fragment`): it fails at the same place, or it is read up to
the semicolon that both sides go on with.
-/

namespace LoxLang

open EStateM (Result)

/-- Part of a single statement: no token in it ends a statement or opens a body, and at most the
first is a keyword that starts one. -/
structure Fragment (ts : List Token) : Prop where
  ne_nil : ts ≠ []
  inside : ∀ t ∈ ts, t.kind ∉ [.semicolon, .leftBrace, .eof]
  head : ∀ t ∈ ts.head?, t.kind ∉ [.forWord, .ifWord, .whileWord]
  tail : ∀ t ∈ ts.tail, t.kind.startsDeclaration = false

namespace Fork

variable {F : Fork}

/-- Both sides go on with a semicolon, or none does. -/
inductive Ends (F : Fork) : Prop
  | semicolon {t t' : Token} {rest rest' : List Token} (left : F.left = t :: rest)
      (right : F.right = t' :: rest') (ht : t.kind = .semicolon) (ht' : t'.kind = .semicolon)
  | other (left : Avoids [.semicolon] F.left) (right : Avoids [.semicolon] F.right)

/-- A fragment, and behind it no token that could continue it. -/
structure Splits (F : Fork) : Prop where
  fragment : Fragment F.shared
  unseen : F.Unseen (Parser.exprKinds ++ Parser.headKinds)
  ends : F.Ends

/-- Both readings fail at the same place of the fragment. -/
inductive Fails (F : Fork) {α : Type} : Result Diagnostic Cursor α → Result Diagnostic Cursor α → Prop
  | error {d d' : Diagnostic} {c c' : Cursor} (hd : F.Faults d d') (h : c.Beside F c') :
      Fails F (.error d c) (.error d' c')

/-- Both readings fail, or both come to the same behind the semicolon of the fragment. -/
inductive Outcome (F : Fork) {α : Type} :
    Result Diagnostic Cursor α → Result Diagnostic Cursor α → Prop
  | fails {x y : Result Diagnostic Cursor α} (h : F.Fails x y) : Outcome F x y
  | closes {a : α} {c c' : Cursor} {t t' : Token} {rest rest' : List Token} (h : c.Beside F c')
      (left : F.left = t :: rest) (right : F.right = t' :: rest') (ht : t.kind = .semicolon)
      (ht' : t'.kind = .semicolon) : Outcome F (.ok a { c with rest }) (.ok a { c' with rest := rest' })

section

open LoxLang.Parser

variable {α β : Type} {c c' : Cursor} {p : Parser α} {f : α → Parser β}

/-- What has failed goes on to fail. -/
theorem Fails.bind (h : F.Fails (p c) (p c')) (f : α → Parser β) :
    F.Fails ((p >>= f) c) ((p >>= f) c') := by
  change F.Fails (EStateM.bind p f c) (EStateM.bind p f c')
  unfold EStateM.bind
  generalize p c = out, p c' = out' at h
  cases h with
  | error hd h => exact .error hd h

/-- What comes behind a reading inside the fragment fails. -/
theorem Fails.bindRight (hp : Beside F p p) (h : c.Beside F c')
    (hf : ∀ {a c₁ c₁'}, p c = .ok a c₁ → c₁.Beside F c₁' → F.Fails (f a c₁) (f a c₁')) :
    F.Fails ((p >>= f) c) ((p >>= f) c') := by
  have hout := hp h
  change F.Fails (EStateM.bind p f c) (EStateM.bind p f c')
  unfold EStateM.bind
  cases hpc : p c with
  | ok a c₁ =>
    rw [hpc] at hout
    generalize p c' = out' at hout
    cases hout with
    | ok ha h₁ => exact ha ▸ hf hpc h₁
  | error d c₁ =>
    rw [hpc] at hout
    generalize p c' = out' at hout
    cases hout with
    | error hd h₁ => exact .error hd h₁

/-- What stands before a fragment's statement is read alike on both sides. -/
theorem Outcome.bindRight (hp : Beside F p p) (h : c.Beside F c')
    (hf : ∀ {a c₁ c₁'}, c₁.Beside F c₁' → F.Outcome (f a c₁) (f a c₁')) :
    F.Outcome ((p >>= f) c) ((p >>= f) c') := by
  have hout := hp h
  change F.Outcome (EStateM.bind p f c) (EStateM.bind p f c')
  unfold EStateM.bind
  generalize p c = out, p c' = out' at hout
  cases hout with
  | ok ha h₁ => exact ha ▸ hf h₁
  | error hd h₁ => exact .fails (.error hd h₁)

/-- To form a tree does not change how both readings come out. -/
theorem Outcome.bindPure (h : F.Outcome (p c) (p c')) (f : α → β) :
    F.Outcome ((do return f (← p)) c) ((do return f (← p)) c') := by
  change F.Outcome (EStateM.bind p (fun a => pure (f a)) c) (EStateM.bind p (fun a => pure (f a)) c')
  unfold EStateM.bind
  generalize p c = out, p c' = out' at h
  cases h with
  | fails h =>
    cases h with
    | error hd h => exact .fails (.error hd h)
  | closes h hleft hright ht ht' => exact .closes h hleft hright ht ht'

/-- A token that is missing on both sides is a failure at the same place. -/
theorem Fails.expect {kind : Kind} (h : c.Beside F c') (hleft : Avoids [kind] c.rest)
    (hright : Avoids [kind] c'.rest) (fault : ParseFault) :
    F.Fails (Parser.expect kind fault c) (Parser.expect kind fault c') := by
  have hnone : ∀ {c : Cursor}, Avoids [kind] c.rest →
      Parser.expect kind fault c = .error (.parse c.current fault) c := by
    intro c hc
    unfold Parser.expect accept
    rw [bind_eq (acceptAny_none hc)]
    rfl
  rw [hnone hleft, hnone hright]
  exact .error (.parse h.current fault) h

/-- A token that is not in the fragment may only come behind it. -/
theorem avoids_append {kind : Kind} {w ts : List Token} (hw : ∀ t ∈ w, t.kind ≠ kind)
    (hts : w = [] → Avoids [kind] ts) : Avoids [kind] (w ++ ts) := by
  cases w with
  | nil => exact hts rfl
  | cons t w => exact .cons (fun hk => hw t List.mem_cons_self (List.mem_singleton.mp hk)) _

/-- The semicolon behind the fragment is there on both sides, or on none. -/
theorem Splits.semicolon (hF : F.Splits) (h : c.Beside F c') (fault : ParseFault) (a : α) :
    F.Outcome
      ((do
        let _ ← Parser.expect .semicolon fault
        return a : Parser α) c)
      ((do
        let _ ← Parser.expect .semicolon fault
        return a : Parser α) c') := by
  obtain ⟨w, hw, hl, hr⟩ := h.rest
  have hinside : ∀ t ∈ w, t.kind ≠ .semicolon := fun t ht hk =>
    hF.fragment.inside t (hw.mem ht) (by simp [hk])
  have hrefused : (w = [] → Avoids [.semicolon] F.left ∧ Avoids [.semicolon] F.right) →
      F.Fails (Parser.expect .semicolon fault c) (Parser.expect .semicolon fault c') := fun hends =>
    .expect h (hl ▸ avoids_append hinside fun hnil => (hends hnil).1)
      (hr ▸ avoids_append hinside fun hnil => (hends hnil).2) fault
  cases hF.ends with
  | other hleft hright => exact .fails ((hrefused fun _ => ⟨hleft, hright⟩).bind _)
  | @semicolon t t' rest rest' hleft hright ht ht' =>
    cases w with
    | nil =>
      rw [bind_eq (expect_cons (hl.trans hleft) ht fault),
        bind_eq (expect_cons (hr.trans hright) ht' fault)]
      exact .closes h hleft hright ht ht'
    | cons u w => exact .fails ((hrefused nofun).bind _)

/-- No brace opens a body in the fragment or behind it. -/
theorem Splits.leftBrace (hF : F.Splits) (h : c.Beside F c') (fault : ParseFault) :
    F.Fails (Parser.expect .leftBrace fault c) (Parser.expect .leftBrace fault c') := by
  obtain ⟨w, hw, hl, hr⟩ := h.rest
  have hinside : ∀ t ∈ w, t.kind ≠ .leftBrace := fun t ht hk =>
    hF.fragment.inside t (hw.mem ht) (by simp [hk])
  have hkinds : [Kind.leftBrace] ⊆ exprKinds ++ headKinds := by decide
  exact .expect h (hl ▸ avoids_append hinside fun _ => hF.unseen.left.mono hkinds)
    (hr ▸ avoids_append hinside fun _ => hF.unseen.right.mono hkinds) fault

end

end Fork

namespace Parser

variable {F : Fork} {c c' : Cursor}

/-- The head of a routine ends with a brace. -/
theorem leftBrace_of_routineHead {n : Nat} {form : RoutineForm} {head : Token × List Token}
    (h : routineHead n form c = .ok head c') :
    ∃ t, t.kind = .leftBrace ∧ t :: c'.rest <:+ c.rest := by
  obtain ⟨_, c₁, h₁, h⟩ := bind_ok h
  obtain ⟨_, c₂, h₂, h⟩ := bind_ok h
  obtain ⟨b, c₃, h₃, h⟩ := bind_ok h
  have hclosing : ∃ ps c₄, c₃.Forward c₄ ∧
      (do
        let _ ← expect .rightParen .parametersClosing
        let _ ← expect .leftBrace (.routineBody form)
        return ps : Parser (Token × List Token)) c₄ = .ok head c' := by
    cases b with
    | true => exact ⟨_, c₃, .refl c₃, h⟩
    | false =>
      obtain ⟨ps, c₄, h₄, h⟩ := bind_ok h
      exact ⟨_, c₄, (Steady.parameters n 0).ok h₄, h⟩
  obtain ⟨ps, c₄, h₄, h⟩ := hclosing
  obtain ⟨_, c₅, h₅, h⟩ := bind_ok h
  obtain ⟨t, c₆, h₆, h⟩ := bind_ok h
  obtain ⟨-, rfl⟩ := pure_ok.mp h
  obtain ⟨ht, hr, -⟩ := expect_ok h₆
  have hforward := ((((Steady.expect _ _).ok h₁).trans ((Steady.expect _ _).ok h₂)).trans
    ((Steady.looksAt _).ok h₃)).trans (h₄.trans ((Steady.expect _ _).ok h₅))
  exact ⟨t, ht, hr ▸ hforward.rest⟩

/-- **No routine ends in a fragment**: its body would have to open there. -/
theorem routine_fragment (hF : F.Splits) (h : c.Beside F c') (form : RoutineForm) :
    ∀ n, F.Fails (routine n form c) (routine n form c')
  | 0 => .error (.parse h.current _) h
  | n + 1 => by
    have hhead : Beside F (routineHead n form) (routineHead n form) :=
      (routineHeadScript (List.subset_append_right _ _) n form).beside hF.unseen
    refine .bindRight hhead h fun {head c₁ c₁'} hok h₁ => ?_
    obtain ⟨t, ht, hsuffix⟩ := leftBrace_of_routineHead hok
    obtain ⟨w, hw, hl, -⟩ := h.rest
    obtain ⟨w₁, -, hl₁, -⟩ := h₁.rest
    rw [hl, hl₁, ← List.cons_append, List.suffix_append_self_iff] at hsuffix
    exact absurd (by simp [ht]) (hF.fragment.inside t (hw.mem (hsuffix.mem List.mem_cons_self)))

/-- An expression up to the semicolon behind the fragment. -/
theorem expressionUpTo_fragment (hF : F.Splits) (h : c.Beside F c') (n : Nat) (fault : ParseFault) :
    F.Outcome (expressionUpTo n .semicolon fault c) (expressionUpTo n .semicolon fault c') := by
  have hexpression : Beside F (expression n) (expression n) :=
    (exprScript (List.subset_append_left _ _) n).expression.beside hF.unseen
  exact .bindRight hexpression h fun {e c₁ c₁'} h₁ => hF.semicolon h₁ fault e

/-- An expression that may be left out, up to the semicolon behind the fragment. -/
theorem optionalUpTo_fragment (hF : F.Splits) (h : c.Beside F c') (n : Nat) (fault : ParseFault) :
    F.Outcome (optionalUpTo n .semicolon fault c) (optionalUpTo n .semicolon fault c') := by
  have hexpression : Beside F (some <$> expression n) (some <$> expression n) :=
    ((exprScript (List.subset_append_left _ _) n).expression.map some).beside hF.unseen
  -- A semicolon is seen on both sides or on none.
  have hlooks : (∃ t ∈ c'.rest.head?, t.kind = .semicolon) ↔
      ∃ t ∈ c.rest.head?, t.kind = .semicolon := by
    obtain ⟨w, -, hl, hr⟩ := h.rest
    rw [hl, hr]
    cases w with
    | cons t w => rfl
    | nil =>
      cases hF.ends with
      | semicolon hleft hright ht ht' => simp [hleft, hright, ht, ht']
      | other hleft hright =>
        exact ⟨fun ⟨t, hmem, ht⟩ => absurd (by simp [ht]) (hright t hmem),
          fun ⟨t, hmem, ht⟩ => absurd (by simp [ht]) (hleft t hmem)⟩
  unfold optionalUpTo
  rw [bind_eq (looksAt_eq _ c), bind_eq (looksAt_eq _ c')]
  simp only [hlooks]
  split
  · exact hF.semicolon h fault none
  · exact .bindRight hexpression h fun {e c₁ c₁'} h₁ => hF.semicolon h₁ fault e

/-- Both cursors step over the first token of the fragment. -/
theorem Beside.first {t : Token} {ts : List Token} (h : c.Beside F c')
    (hrest : c.rest = F.shared ++ F.left) (hshared : F.shared = t :: ts) :
    c.rest = t :: (ts ++ F.left) ∧ c'.rest = t :: (ts ++ F.right) ∧
      Cursor.Beside F { c with rest := ts ++ F.left } { c' with rest := ts ++ F.right } := by
  obtain ⟨w, -, hl, hr⟩ := h.rest
  have hw : w = F.shared := List.append_cancel_right (hl.symm.trans hrest)
  rw [hw, hshared] at hr
  rw [hshared] at hrest
  exact ⟨hrest, hr, h.move (hshared ▸ List.suffix_cons t ts)⟩

/-- **A statement that starts a fragment fails on both sides, or ends with the semicolon.** -/
theorem statement_fragment (hF : F.Splits) (h : c.Beside F c')
    (hrest : c.rest = F.shared ++ F.left) : ∀ n, F.Outcome (statement n c) (statement n c')
  | 0 => .fails (.error (.parse h.current _) h)
  | n + 1 => by
    obtain ⟨t, ts, hshared⟩ := List.exists_cons_of_ne_nil hF.fragment.ne_nil
    obtain ⟨hc, hc', hfirst⟩ := Beside.first h hrest hshared
    have hhead := hF.fragment.head t (by simp [hshared])
    have hinside := hF.fragment.inside t (by simp [hshared])
    unfold statement
    by_cases hreturn : t.kind = .returnWord
    · rw [bind_eq (acceptAny_cons hc (by simp [hreturn])),
        bind_eq (acceptAny_cons hc' (by simp [hreturn]))]
      simp only [hreturn]
      exact (optionalUpTo_fragment hF hfirst n _).bindPure _
    by_cases hprint : t.kind = .printWord
    · rw [bind_eq (acceptAny_cons hc (by simp [hprint])),
        bind_eq (acceptAny_cons hc' (by simp [hprint]))]
      simp only [hprint]
      exact (expressionUpTo_fragment hF hfirst n _).bindPure _
    · have hother : t.kind ∉
          [Kind.forWord, .ifWord, .whileWord, .returnWord, .leftBrace, .printWord] := by
        simp_all
      rw [bind_eq (acceptAny_none (hc ▸ .cons hother _)),
        bind_eq (acceptAny_none (hc' ▸ .cons hother _))]
      exact (expressionUpTo_fragment hF h n _).bindPure _

/-- **What is read of a fragment is the same on both sides of it**, and only the semicolon behind it
makes a statement of it. -/
theorem declarationBody_fragment (hF : F.Splits) (h : c.Beside F c')
    (hrest : c.rest = F.shared ++ F.left) (n : Nat) :
    F.Outcome (declarationBody n c) (declarationBody n c') := by
  obtain ⟨t, ts, hshared⟩ := List.exists_cons_of_ne_nil hF.fragment.ne_nil
  obtain ⟨hc, hc', hfirst⟩ := Beside.first h hrest hshared
  unfold declarationBody
  by_cases hkind : t.kind ∈ [.classWord, .funWord, .varWord]
  · rw [bind_eq (acceptAny_cons hc hkind), bind_eq (acceptAny_cons hc' hkind)]
    have hkinds : t.kind = .classWord ∨ t.kind = .funWord ∨ t.kind = .varWord := by simpa using hkind
    rcases hkinds with ht | ht | ht
    · simp only [ht]
      have hname : Beside F (expect .identifier .className) (expect .identifier .className) :=
        Script.beside hF.unseen (.expect (by decide) _ : Script _ false _)
      exact .fails (.bindRight hname hfirst fun _ h₁ => (hF.leftBrace h₁ _).bind _)
    · simp only [ht]
      exact .fails ((routine_fragment hF hfirst _ n).bind _)
    · simp only [ht, varDecl_eq]
      have hhead : Beside F (varHead n) (varHead n) :=
        (varHeadScript (List.subset_append_left _ _) n).beside hF.unseen
      exact .bindRight hhead hfirst fun h₁ => hF.semicolon h₁ _ _
  · rw [bind_eq (acceptAny_none (hc ▸ .cons hkind _)), bind_eq (acceptAny_none (hc' ▸ .cons hkind _))]
    exact statement_fragment hF h hrest n

end Parser

end LoxLang
