import Mathlib
import LoxLang.Proofs.Grammar.Derivation
import LoxLang.Proofs.Grammar.Reading

/-!
# Proofs/Grammar/Soundness — what is read without a fault is derived

Each reading function that succeeds without noting a fault has passed tokens that derive from its
rule, with the tree that it returns. The induction is on the depth; a loop (`operations`,
`suffixes`) carries the derivation of what stands before it and extends it by one operator or one
suffix at a time.

An assignment is read as a conditional first. That its target is then a variable or a property is
enough to take the derivation of the conditional apart again (`Derives.loneVariable`,
`Derives.loneProperty`).
-/

namespace LoxLang

namespace Grammar

/-! ## Targets of assignments -/

theorem Level.join_ne_var (level : Level) (left right : Expr) (operator : Token) (id : NodeId)
    (name : Token) : level.join left operator right ≠ .var id name := by
  cases level <;> exact nofun

theorem Level.join_ne_get (level : Level) (left right object : Expr) (operator name : Token) :
    level.join left operator right ≠ .get object name := by
  cases level <;> exact nofun

/-- The tokens of a lone variable, by any rule that forms one expression. -/
def LoneVariable : (r : ExprRule) → List Token → r.Tree → Prop
  | .arguments, _, _ => True
  | .expression, w, e | .conditional, w, e | .operation _, w, e | .call, w, e | .primary, w, e =>
    ∀ id name, e = .var id name → w = [name] ∧ name.kind = .identifier

/-- **A phrase that forms a variable is that variable's name.** -/
theorem Derives.loneVariable {r : ExprRule} {w : List Token} {t : r.Tree} (h : Derives r w t) :
    LoneVariable r w t := by
  induction h with
  | join => exact fun id name he => absurd he (Level.join_ne_var _ _ _ _ id name)
  | use hk =>
    intro id name he
    cases he
    exact ⟨rfl, hk⟩
  | ofConditional _ ih | ofOperation _ ih | ofCall _ ih | ofPrimary _ ih => exact ih
  | @ofTighter level w e _ ih => cases level <;> exact ih
  | argument | moreArguments => trivial
  | _ => exact fun _ _ he => nomatch he

/-- The tokens of a property, by any rule that forms one expression. -/
def LoneProperty : (r : ExprRule) → List Token → r.Tree → Prop
  | .arguments, _, _ => True
  | .expression, w, e | .conditional, w, e | .operation _, w, e | .call, w, e | .primary, w, e =>
    ∀ object name, e = .get object name → ∃ u dot,
      w = u ++ [dot, name] ∧ Derives .call u object ∧ dot.kind = .dot ∧ name.kind = .identifier

/-- **A phrase that forms a property ends with a dot and its name.** -/
theorem Derives.loneProperty {r : ExprRule} {w : List Token} {t : r.Tree} (h : Derives r w t) :
    LoneProperty r w t := by
  induction h with
  | join => exact fun object name he => absurd he (Level.join_ne_get _ _ _ _ _ _)
  | @get u object dot name hu hd hn =>
    intro object' name' he
    cases he
    exact ⟨u, dot, rfl, hu, hd, hn⟩
  | ofConditional _ ih | ofOperation _ ih | ofCall _ ih | ofPrimary _ ih => exact ih
  | @ofTighter level w e _ ih => cases level <;> exact ih
  | argument | moreArguments => trivial
  | _ => exact fun _ _ he => nomatch he

end Grammar

/-! ## Expressions -/

namespace Parser

open Grammar

/-- A success of the parser without a new fault passes tokens that derive from the rule. -/
def Sound (r : ExprRule) {α : Type} (tree : α → r.Tree) (p : Parser α) : Prop :=
  ∀ {c e c'}, p c = .ok e c' → c'.faults.length ≤ c.faults.length →
    ∃ w, c.rest = w ++ c'.rest ∧ Derives r w (tree e)

/-- The rules for expressions are read soundly. A loop extends what was derived before it. -/
structure ExprSound (n : Nat) : Prop where
  expression : Sound .expression Expr.bare (expression n)
  conditional : Sound .conditional Expr.bare (conditional n)
  operation : ∀ o, Sound (.operation o) Expr.bare (operation n o)
  operations : ∀ {level left c e c'}, operations n level left c = .ok e c' →
    c'.faults.length ≤ c.faults.length → ∀ {u}, Derives (.operation (some level)) u left.bare →
    ∃ w, c.rest = w ++ c'.rest ∧ Derives (.operation (some level)) (u ++ w) e.bare
  unary : Sound (.operation none) Expr.bare (unary n)
  suffixes : ∀ {object c e c'}, suffixes n object c = .ok e c' →
    c'.faults.length ≤ c.faults.length → ∀ {u}, Derives .call u object.bare →
    ∃ w, c.rest = w ++ c'.rest ∧ Derives .call (u ++ w) e.bare
  arguments : ∀ {count c es c'}, arguments n count c = .ok es c' →
    c'.faults.length ≤ c.faults.length →
    ∃ w, c.rest = w ++ c'.rest ∧ Derives .arguments w (Expr.bareAll es) ∧
      count + es.length ≤ maxArity
  primary : Sound .primary Expr.bare (primary n)

variable {n : Nat} {c c' : Cursor}

/-- What is assigned without a fault is an assignment of the grammar. -/
theorem sound_assignTo {u w : List Token} {target value e : Expr} {equal : Token}
    (hu : Derives .conditional u target.bare) (he : equal.kind = .equal)
    (hw : Derives .expression w value.bare) (h : assignTo target equal value c = .ok e c')
    (hc : c'.faults.length ≤ c.faults.length) :
    c'.rest = c.rest ∧ Derives .expression (u ++ equal :: w) e.bare := by
  unfold assignTo at h
  split at h
  · next id name =>
    obtain ⟨i, c₁, h₁, h₂⟩ := bind_ok h
    cases h₁
    obtain ⟨rfl, rfl⟩ := pure_ok.mp h₂
    obtain ⟨rfl, hn⟩ := hu.loneVariable 0 name rfl
    exact ⟨rfl, .assign hn he hw⟩
  · next object name =>
    obtain ⟨rfl, rfl⟩ := pure_ok.mp h
    obtain ⟨v, dot, rfl, hv, hd, hn⟩ := hu.loneProperty object.bare name rfl
    exact ⟨rfl, by simpa using Derives.set hv hd hn he hw⟩
  · -- any other target has been noted
    obtain ⟨_, c₁, h₁, h₂⟩ := bind_ok h
    cases h₁
    obtain ⟨rfl, rfl⟩ := pure_ok.mp h₂
    simp only [List.length_append, List.length_singleton] at hc
    omega

/-- An expression: what is read without a fault derives from the rule, and so on for each rule. -/
theorem sound_expression (ih : ExprSound n) : Sound .expression Expr.bare (expression (n + 1)) := by
  intro c e c' h hc
  obtain ⟨target, c₁, h₁, h⟩ := bind_ok h
  obtain ⟨o, c₂, h₂, h⟩ := bind_ok h
  have f₁ := (exprSteady n).conditional.noted_le h₁
  have f₂ := (Steady.acceptAny _).noted_le h₂
  rcases acceptAny_ok h₂ with ⟨equal, rfl, hk, hr, -⟩ | ⟨rfl, rfl, -⟩
  · obtain ⟨value, c₃, h₃, h⟩ := bind_ok h
    have f₃ := (exprSteady n).expression.noted_le h₃
    have f₄ := (Steady.assignTo _ _ _).noted_le h
    obtain ⟨u, hu, du⟩ := ih.conditional h₁ (by omega)
    obtain ⟨w, hw, dw⟩ := ih.expression h₃ (by omega)
    obtain ⟨hr', de⟩ := sound_assignTo du (by simpa using hk) dw h (by omega)
    refine ⟨_, ?_, de⟩
    rw [hu, hr, hw, hr', List.append_assoc, List.cons_append]
  · obtain ⟨rfl, rfl⟩ := pure_ok.mp h
    obtain ⟨w, hw, dw⟩ := ih.conditional h₁ hc
    exact ⟨w, hw, .ofConditional dw⟩

theorem sound_conditional (ih : ExprSound n) :
    Sound .conditional Expr.bare (conditional (n + 1)) := by
  intro c e c' h hc
  obtain ⟨condition, c₁, h₁, h⟩ := bind_ok h
  obtain ⟨o, c₂, h₂, h⟩ := bind_ok h
  have f₁ := ((exprSteady n).operation _).noted_le h₁
  have f₂ := (Steady.acceptAny _).noted_le h₂
  rcases acceptAny_ok h₂ with ⟨question, rfl, hk, hr, -⟩ | ⟨rfl, rfl, -⟩
  · obtain ⟨onTrue, c₃, h₃, h⟩ := bind_ok h
    obtain ⟨colon, c₄, h₄, h⟩ := bind_ok h
    obtain ⟨onFalse, c₅, h₅, h⟩ := bind_ok h
    obtain ⟨rfl, rfl⟩ := pure_ok.mp h
    obtain ⟨hk₄, hr₄, -⟩ := expect_ok h₄
    have f₃ := (exprSteady n).expression.noted_le h₃
    have f₄ := (Steady.expect _ _).noted_le h₄
    have f₅ := (exprSteady n).expression.noted_le h₅
    obtain ⟨u, hu, du⟩ := ih.operation _ h₁ (by omega)
    obtain ⟨v, hv, dv⟩ := ih.expression h₃ (by omega)
    obtain ⟨w, hw, dw⟩ := ih.expression h₅ (by omega)
    refine ⟨_, ?_, .choose du (by simpa using hk) dv hk₄ dw⟩
    simp [hu, hr, hv, hr₄, hw]
  · obtain ⟨rfl, rfl⟩ := pure_ok.mp h
    obtain ⟨w, hw, dw⟩ := ih.operation _ h₁ hc
    exact ⟨w, hw, .ofOperation dw⟩

theorem sound_operation (ih : ExprSound n) (o : Option Level) :
    Sound (.operation o) Expr.bare (operation (n + 1) o) := by
  intro c e c' h hc
  cases o with
  | none => exact ih.unary h hc
  | some level =>
    obtain ⟨left, c₁, h₁, h⟩ := bind_ok h
    have f₁ := ((exprSteady n).operation _).noted_le h₁
    have f₂ := ((exprSteady n).operations _ _).noted_le h
    obtain ⟨u, hu, du⟩ := ih.operation _ h₁ (by omega)
    obtain ⟨w, hw, dw⟩ := ih.operations h (by omega) (.ofTighter du)
    exact ⟨u ++ w, by rw [hu, hw, List.append_assoc], dw⟩

/-- The loop over operators extends the phrase of the left operand. -/
theorem sound_operations (ih : ExprSound n) {level : Level} {left e : Expr}
    (h : operations (n + 1) level left c = .ok e c') (hc : c'.faults.length ≤ c.faults.length)
    {u : List Token} (du : Derives (.operation (some level)) u left.bare) :
    ∃ w, c.rest = w ++ c'.rest ∧ Derives (.operation (some level)) (u ++ w) e.bare := by
  obtain ⟨o, c₁, h₁, h⟩ := bind_ok h
  have f₁ := (Steady.acceptAny _).noted_le h₁
  rcases acceptAny_ok h₁ with ⟨operator, rfl, hk, hr, -⟩ | ⟨rfl, rfl, -⟩
  · obtain ⟨right, c₂, h₂, h⟩ := bind_ok h
    have f₂ := ((exprSteady n).operation _).noted_le h₂
    have f₃ := ((exprSteady n).operations _ _).noted_le h
    obtain ⟨v, hv, dv⟩ := ih.operation _ h₂ (by omega)
    obtain ⟨w, hw, dw⟩ := ih.operations h (by omega) (by rw [Level.bare_join]; exact .join du hk dv)
    exact ⟨operator :: (v ++ w), by simp [hr, hv, hw], by simpa using dw⟩
  · obtain ⟨rfl, rfl⟩ := pure_ok.mp h
    exact ⟨[], rfl, by simpa using du⟩

theorem sound_unary (ih : ExprSound n) : Sound (.operation none) Expr.bare (unary (n + 1)) := by
  intro c e c' h hc
  obtain ⟨o, c₁, h₁, h⟩ := bind_ok h
  have f₁ := (Steady.acceptAny _).noted_le h₁
  rcases acceptAny_ok h₁ with ⟨operator, rfl, hk, hr, -⟩ | ⟨rfl, rfl, -⟩
  · obtain ⟨operand, c₂, h₂, h⟩ := bind_ok h
    obtain ⟨rfl, rfl⟩ := pure_ok.mp h
    obtain ⟨w, hw, dw⟩ := ih.unary h₂ (by omega)
    exact ⟨operator :: w, by rw [hr, hw, List.cons_append], .unary (by simpa using hk) dw⟩
  · obtain ⟨object, c₂, h₂, h⟩ := bind_ok h
    have f₂ := (exprSteady n).primary.noted_le h₂
    have f₃ := ((exprSteady n).suffixes _).noted_le h
    obtain ⟨u, hu, du⟩ := ih.primary h₂ (by omega)
    obtain ⟨w, hw, dw⟩ := ih.suffixes h (by omega) (.ofPrimary du)
    exact ⟨u ++ w, by rw [hu, hw, List.append_assoc], .ofCall dw⟩

/-- The loop over suffixes extends the phrase of the object. -/
theorem sound_suffixes (ih : ExprSound n) {object e : Expr}
    (h : suffixes (n + 1) object c = .ok e c') (hc : c'.faults.length ≤ c.faults.length)
    {u : List Token} (du : Derives .call u object.bare) :
    ∃ w, c.rest = w ++ c'.rest ∧ Derives .call (u ++ w) e.bare := by
  obtain ⟨o, c₁, h₁, h⟩ := bind_ok h
  have f₁ := (Steady.acceptAny _).noted_le h₁
  rcases acceptAny_ok h₁ with ⟨t, rfl, hk, hr, -⟩ | ⟨rfl, rfl, -⟩
  · dsimp only at h
    split at h
    · next hp =>
      obtain ⟨b, c₂, h₂, h⟩ := bind_ok h
      rw [looksAt_eq] at h₂
      cases h₂
      split at h
      · obtain ⟨es, c₂, h₂, h⟩ := bind_ok h
        obtain ⟨rfl, rfl⟩ := pure_ok.mp h₂
        obtain ⟨paren, c₃, h₃, h⟩ := bind_ok h
        have f₃ := (Steady.expect _ _).noted_le h₃
        obtain ⟨hk₃, hr₃, -⟩ := expect_ok h₃
        obtain ⟨w, hw, dw⟩ := ih.suffixes h (by omega) (.callEmpty du hp hk₃)
        exact ⟨t :: paren :: w, by simp [hr, hr₃, hw], by simpa using dw⟩
      · obtain ⟨es, c₂, h₂, h⟩ := bind_ok h
        obtain ⟨paren, c₃, h₃, h⟩ := bind_ok h
        have f₂ := ((exprSteady n).arguments _).noted_le h₂
        have f₃ := (Steady.expect _ _).noted_le h₃
        have f₄ := ((exprSteady n).suffixes _).noted_le h
        obtain ⟨hk₃, hr₃, -⟩ := expect_ok h₃
        obtain ⟨v, hv, dv, hn⟩ := ih.arguments h₂ (by omega)
        obtain ⟨w, hw, dw⟩ := ih.suffixes h (by omega)
          (.call du hp dv (by simpa using hn) hk₃)
        exact ⟨t :: (v ++ paren :: w), by simp [hr, hv, hr₃, hw], by simpa using dw⟩
    · next hp =>
      obtain ⟨name, c₂, h₂, h⟩ := bind_ok h
      have f₂ := (Steady.expect _ _).noted_le h₂
      obtain ⟨hk₂, hr₂, -⟩ := expect_ok h₂
      have hd : t.kind = .dot := by simpa [hp] using hk
      obtain ⟨w, hw, dw⟩ := ih.suffixes h (by omega) (.get du hd hk₂)
      exact ⟨t :: name :: w, by simp [hr, hr₂, hw], by simpa using dw⟩
  · obtain ⟨rfl, rfl⟩ := pure_ok.mp h
    exact ⟨[], rfl, by simpa using du⟩

/-- One argument and the arguments behind it. -/
theorem sound_argumentsTail (ih : ExprSound n) {count : Nat} {es : List Expr}
    (h : (do
      let argument ← expression n
      match ← accept .comma with
        | none => return [argument]
        | some _ => return argument :: (← arguments n (count + 1)) : Parser _) c = .ok es c')
    (hc : c'.faults.length ≤ c.faults.length) (hn : count < maxArity) :
    ∃ w, c.rest = w ++ c'.rest ∧ Derives .arguments w (Expr.bareAll es) ∧
      count + es.length ≤ maxArity := by
  obtain ⟨argument, c₁, h₁, h⟩ := bind_ok h
  obtain ⟨o, c₂, h₂, h⟩ := bind_ok h
  have f₁ := (exprSteady n).expression.noted_le h₁
  have f₂ := (Steady.acceptAny _).noted_le h₂
  rcases acceptAny_ok h₂ with ⟨comma, rfl, hk, hr, -⟩ | ⟨rfl, rfl, -⟩
  · obtain ⟨rest, c₃, h₃, h⟩ := bind_ok h
    obtain ⟨rfl, rfl⟩ := pure_ok.mp h
    have f₃ := ((exprSteady n).arguments _).noted_le h₃
    obtain ⟨u, hu, du⟩ := ih.expression h₁ (by omega)
    obtain ⟨w, hw, dw, hcount⟩ := ih.arguments h₃ (by omega)
    refine ⟨u ++ comma :: w, by simp [hu, hr, hw], .moreArguments du (by simpa using hk) dw, ?_⟩
    rw [List.length_cons]
    omega
  · obtain ⟨rfl, rfl⟩ := pure_ok.mp h
    obtain ⟨u, hu, du⟩ := ih.expression h₁ hc
    exact ⟨u, hu, .argument du, hn⟩

/-- Arguments that are read without a fault are not too many. -/
theorem sound_arguments (ih : ExprSound n) {count : Nat} {es : List Expr}
    (h : arguments (n + 1) count c = .ok es c') (hc : c'.faults.length ≤ c.faults.length) :
    ∃ w, c.rest = w ++ c'.rest ∧ Derives .arguments w (Expr.bareAll es) ∧
      count + es.length ≤ maxArity := by
  simp only [arguments] at h
  split at h
  · -- one argument too many has been noted
    have hlt := (Steady.argumentsTail (exprSteady n).expression
      (exprSteady n).arguments count).noted_lt_of_noteHere h
    omega
  · next hn => exact sound_argumentsTail ih h hc (Nat.lt_of_not_le hn)

/-- A literal is a primary. -/
theorem sound_constantOf {t : Token} {e : Expr} (ht : t.kind = .number ∨ t.kind = .string)
    (h : constantOf t c = .ok e c') : c.rest = c'.rest ∧ Derives .primary [t] e.bare := by
  rcases hl : t.literal with _ | s | x | b <;> simp only [constantOf, hl] at h
  · cases h
  · obtain ⟨rfl, rfl⟩ := pure_ok.mp h
    exact ⟨rfl, .string ht hl⟩
  · obtain ⟨rfl, rfl⟩ := pure_ok.mp h
    exact ⟨rfl, .number ht hl⟩
  · cases h

theorem sound_primary (ih : ExprSound n) : Sound .primary Expr.bare (primary (n + 1)) := by
  intro c e c' h hc
  obtain ⟨o, c₁, h₁, h⟩ := bind_ok h
  have f₁ := (Steady.acceptAny _).noted_le h₁
  rcases acceptAny_ok h₁ with ⟨t, rfl, hk, hr, -⟩ | ⟨rfl, rfl, -⟩
  · simp only [primaryKinds, List.mem_cons, List.not_mem_nil, or_false] at hk
    rcases hk with ht | ht | ht | ht | ht | ht | ht | ht <;> simp only [ht] at h
    · obtain ⟨rfl, rfl⟩ := pure_ok.mp h
      exact ⟨[t], hr, .falseWord ht⟩
    · obtain ⟨rfl, rfl⟩ := pure_ok.mp h
      exact ⟨[t], hr, .trueWord ht⟩
    · obtain ⟨rfl, rfl⟩ := pure_ok.mp h
      exact ⟨[t], hr, .nilWord ht⟩
    · obtain ⟨hr', dt⟩ := sound_constantOf (.inl ht) h
      exact ⟨[t], by rw [hr, hr', List.singleton_append], dt⟩
    · obtain ⟨hr', dt⟩ := sound_constantOf (.inr ht) h
      exact ⟨[t], by rw [hr, hr', List.singleton_append], dt⟩
    · obtain ⟨id, c₂, h₂, h⟩ := bind_ok h
      obtain ⟨rfl, rfl⟩ := pure_ok.mp h
      cases h₂
      exact ⟨[t], hr, .this ht⟩
    · obtain ⟨id, c₂, h₂, h⟩ := bind_ok h
      obtain ⟨rfl, rfl⟩ := pure_ok.mp h
      cases h₂
      exact ⟨[t], hr, .use ht⟩
    · obtain ⟨inner, c₂, h₂, h⟩ := bind_ok h
      obtain ⟨closing, c₃, h₃, h⟩ := bind_ok h
      obtain ⟨rfl, rfl⟩ := pure_ok.mp h
      have f₃ := (Steady.expect _ _).noted_le h₃
      obtain ⟨hk₃, hr₃, -⟩ := expect_ok h₃
      obtain ⟨w, hw, dw⟩ := ih.expression h₂ (by omega)
      exact ⟨t :: (w ++ [closing]), by simp [hr, hw, hr₃], .grouping ht dw hk₃⟩
  · exact absurd h refuse_ok

/-- **Every expression that is read without a fault derives from the grammar**, by induction on the
depth. -/
theorem exprSound : ∀ n, ExprSound n
  | 0 =>
    { expression := fun h => absurd h refuse_ok
      conditional := fun h => absurd h refuse_ok
      operation := fun _ _ _ _ h => absurd h refuse_ok
      operations := fun h => absurd h refuse_ok
      unary := fun h => absurd h refuse_ok
      suffixes := fun h => absurd h refuse_ok
      arguments := fun h => absurd h refuse_ok
      primary := fun h => absurd h refuse_ok }
  | n + 1 =>
    have ih := exprSound n
    { expression := sound_expression ih
      conditional := sound_conditional ih
      operation := sound_operation ih
      operations := sound_operations ih
      unary := sound_unary ih
      suffixes := sound_suffixes ih
      arguments := sound_arguments ih
      primary := sound_primary ih }

end Parser

/-! ## Statements -/

/-- The ids do not tell whether a statement ends with an open `if`. -/
@[simp] theorem Stmt.endsOpen_bare : ∀ s : Stmt, s.bare.endsOpen = s.endsOpen
  | .ifStmt _ _ none => rfl
  | .ifStmt _ _ (some s) => s.endsOpen_bare
  | .whileStmt _ body => body.endsOpen_bare
  | .forStmt _ _ _ body => body.endsOpen_bare
  | .exprStmt _ | .printStmt _ | .varDecl _ _ | .block _ | .returnStmt _ _ | .funDecl _
  | .classDecl _ _ => rfl

namespace Parser

open Grammar

variable {n : Nat} {c c' : Cursor}

/-- An expression with a closing token behind it. -/
theorem sound_expressionUpTo {kind : Kind} {fault : ParseFault} {e : Expr}
    (h : expressionUpTo n kind fault c = .ok e c') (hc : c'.faults.length ≤ c.faults.length) :
    ∃ w closing, c.rest = w ++ closing :: c'.rest ∧ Derives .expression w e.bare ∧
      closing.kind = kind := by
  obtain ⟨e, c₁, h₁, h⟩ := bind_ok h
  obtain ⟨closing, c₂, h₂, h⟩ := bind_ok h
  obtain ⟨rfl, rfl⟩ := pure_ok.mp h
  have f₂ := (Steady.expect _ _).noted_le h₂
  obtain ⟨hk, hr, -⟩ := expect_ok h₂
  obtain ⟨w, hw, dw⟩ := (exprSound n).expression h₁ (by omega)
  exact ⟨w, closing, by rw [hw, hr], dw, hk⟩

/-- An expression that may be left out, with a closing token behind it. -/
theorem sound_optionalUpTo {kind : Kind} {fault : ParseFault} {e : Option Expr}
    (h : optionalUpTo n kind fault c = .ok e c') (hc : c'.faults.length ≤ c.faults.length) :
    ∃ w closing, c.rest = w ++ closing :: c'.rest ∧ Optional w (e.map Expr.bare) ∧
      closing.kind = kind := by
  obtain ⟨b, c₁, h₁, h⟩ := bind_ok h
  rw [looksAt_eq] at h₁
  cases h₁
  split at h
  · obtain ⟨_, c₁, h₁, h⟩ := bind_ok h
    obtain ⟨rfl, rfl⟩ := pure_ok.mp h₁
    obtain ⟨closing, c₂, h₂, h⟩ := bind_ok h
    obtain ⟨rfl, rfl⟩ := pure_ok.mp h
    obtain ⟨hk, hr, -⟩ := expect_ok h₂
    exact ⟨[], closing, hr, .absent, hk⟩
  · obtain ⟨_, c₁, h₁, h⟩ := bind_ok h
    obtain ⟨e, he, rfl⟩ := map_ok h₁
    obtain ⟨closing, c₂, h₂, h⟩ := bind_ok h
    obtain ⟨rfl, rfl⟩ := pure_ok.mp h
    have f₂ := (Steady.expect _ _).noted_le h₂
    obtain ⟨hk, hr, -⟩ := expect_ok h₂
    obtain ⟨w, hw, dw⟩ := (exprSound n).expression he (by omega)
    exact ⟨w, closing, by rw [hw, hr], .present dw, hk⟩

/-- A declaration of a variable, behind its first word. -/
theorem sound_varDecl {s : Stmt} (h : varDecl n c = .ok s c')
    (hc : c'.faults.length ≤ c.faults.length) :
    ∃ w, c.rest = w ++ c'.rest ∧ VarDecl w s.bare := by
  obtain ⟨name, c₁, h₁, h⟩ := bind_ok h
  obtain ⟨o, c₂, h₂, h⟩ := bind_ok h
  have f₁ := (Steady.expect _ _).noted_le h₁
  have f₂ := (Steady.acceptAny _).noted_le h₂
  obtain ⟨hk₁, hr₁, -⟩ := expect_ok h₁
  rcases acceptAny_ok h₂ with ⟨equal, rfl, hk₂, hr₂, -⟩ | ⟨rfl, rfl, -⟩
  · obtain ⟨_, c₃, h₃, h⟩ := bind_ok h
    obtain ⟨e, he, rfl⟩ := map_ok h₃
    obtain ⟨semicolon, c₄, h₄, h⟩ := bind_ok h
    obtain ⟨rfl, rfl⟩ := pure_ok.mp h
    have f₄ := (Steady.expect _ _).noted_le h₄
    obtain ⟨hk₄, hr₄, -⟩ := expect_ok h₄
    obtain ⟨w, hw, dw⟩ := (exprSound n).expression he (by omega)
    exact ⟨name :: equal :: (w ++ [semicolon]), by simp [hr₁, hr₂, hw, hr₄],
      .initial hk₁ (by simpa using hk₂) dw hk₄⟩
  · obtain ⟨_, c₃, h₃, h⟩ := bind_ok h
    obtain ⟨rfl, rfl⟩ := pure_ok.mp h₃
    obtain ⟨semicolon, c₄, h₄, h⟩ := bind_ok h
    obtain ⟨rfl, rfl⟩ := pure_ok.mp h
    obtain ⟨hk₄, hr₄, -⟩ := expect_ok h₄
    exact ⟨[name, semicolon], by simp [hr₁, hr₄], .plain hk₁ hk₄⟩

/-- The initial clause of a `for`. -/
theorem sound_forInitial {o : Option Stmt} (h : forInitial n c = .ok o c')
    (hc : c'.faults.length ≤ c.faults.length) :
    ∃ w, c.rest = w ++ c'.rest ∧ ForInitial w (Stmt.bareOption o) := by
  obtain ⟨o', c₁, h₁, h⟩ := bind_ok h
  have f₁ := (Steady.acceptAny _).noted_le h₁
  rcases acceptAny_ok h₁ with ⟨t, rfl, hk, hr, -⟩ | ⟨rfl, rfl, -⟩
  · dsimp only at h
    split at h
    · next ht =>
      obtain ⟨rfl, rfl⟩ := pure_ok.mp h
      exact ⟨[t], hr, .empty ht⟩
    · next ht =>
      obtain ⟨s, h₂, rfl⟩ := map_ok h
      have hv : t.kind = .varWord := by simpa [ht] using hk
      obtain ⟨w, hw, dw⟩ := sound_varDecl h₂ (by omega)
      exact ⟨t :: w, by rw [hr, hw, List.cons_append], .ofVarDecl hv dw⟩
  · obtain ⟨e, c₂, h₂, h⟩ := bind_ok h
    obtain ⟨rfl, rfl⟩ := pure_ok.mp h
    obtain ⟨w, closing, hw, dw, hk⟩ := sound_expressionUpTo h₂ hc
    exact ⟨w ++ [closing], by simp [hw], .ofExprStmt (.mk dw hk)⟩

/-- One parameter and the parameters behind it. -/
theorem sound_parametersTail {count : Nat} {ps : List Token}
    (ih : ∀ {count c ps c'}, parameters n count c = .ok ps c' →
      c'.faults.length ≤ c.faults.length →
      ∃ w, c.rest = w ++ c'.rest ∧ Parameters w ps ∧ count + ps.length ≤ maxArity)
    (h : (do
      let parameter ← expect .identifier .parameterName
      match ← accept .comma with
        | none => return [parameter]
        | some _ => return parameter :: (← parameters n (count + 1)) : Parser _) c = .ok ps c')
    (hc : c'.faults.length ≤ c.faults.length) (hn : count < maxArity) :
    ∃ w, c.rest = w ++ c'.rest ∧ Parameters w ps ∧ count + ps.length ≤ maxArity := by
  obtain ⟨name, c₁, h₁, h⟩ := bind_ok h
  obtain ⟨o, c₂, h₂, h⟩ := bind_ok h
  have f₁ := (Steady.expect _ _).noted_le h₁
  have f₂ := (Steady.acceptAny _).noted_le h₂
  obtain ⟨hk₁, hr₁, -⟩ := expect_ok h₁
  rcases acceptAny_ok h₂ with ⟨comma, rfl, hk₂, hr₂, -⟩ | ⟨rfl, rfl, -⟩
  · obtain ⟨rest, c₃, h₃, h⟩ := bind_ok h
    obtain ⟨rfl, rfl⟩ := pure_ok.mp h
    obtain ⟨w, hw, dw, hcount⟩ := ih h₃ (by omega)
    refine ⟨name :: comma :: w, by simp [hr₁, hr₂, hw], .more hk₁ (by simpa using hk₂) dw, ?_⟩
    rw [List.length_cons]
    omega
  · obtain ⟨rfl, rfl⟩ := pure_ok.mp h
    exact ⟨[name], hr₁, .one hk₁, hn⟩

/-- Parameters that are read without a fault are not too many. -/
theorem sound_parameters : ∀ {n count : Nat} {c c' : Cursor} {ps : List Token},
    parameters n count c = .ok ps c' → c'.faults.length ≤ c.faults.length →
    ∃ w, c.rest = w ++ c'.rest ∧ Parameters w ps ∧ count + ps.length ≤ maxArity
  | 0, _, _, _, _, h, _ => absurd h refuse_ok
  | n + 1, count, c, c', ps, h, hc => by
      simp only [parameters] at h
      split at h
      · have hlt := (Steady.parametersTail (Steady.parameters n) count).noted_lt_of_noteHere h
        omega
      · next hn => exact sound_parametersTail sound_parameters h hc (Nat.lt_of_not_le hn)

/-- The head of a routine, up to the brace that opens its body. -/
theorem sound_routineHead {form : RoutineForm} {name : Token} {ps : List Token}
    (h : routineHead n form c = .ok (name, ps) c') (hc : c'.faults.length ≤ c.faults.length) :
    ∃ opening u closing bodyOpening,
      c.rest = name :: opening :: (u ++ closing :: bodyOpening :: c'.rest) ∧
      name.kind = .identifier ∧ opening.kind = .leftParen ∧ ParameterList u ps ∧
      closing.kind = .rightParen ∧ bodyOpening.kind = .leftBrace := by
  obtain ⟨name', c₁, h₁, h⟩ := bind_ok h
  obtain ⟨opening, c₂, h₂, h⟩ := bind_ok h
  obtain ⟨b, c₃, h₃, h⟩ := bind_ok h
  rw [looksAt_eq] at h₃
  cases h₃
  obtain ⟨hk₁, hr₁, -⟩ := expect_ok h₁
  obtain ⟨hk₂, hr₂, -⟩ := expect_ok h₂
  have f₁ := (Steady.expect _ _).noted_le h₁
  have f₂ := (Steady.expect _ _).noted_le h₂
  split at h
  · obtain ⟨_, c₃, h₃, h⟩ := bind_ok h
    obtain ⟨rfl, rfl⟩ := pure_ok.mp h₃
    obtain ⟨closing, c₄, h₄, h⟩ := bind_ok h
    obtain ⟨bodyOpening, c₅, h₅, h⟩ := bind_ok h
    obtain ⟨he, rfl⟩ := pure_ok.mp h
    cases he
    obtain ⟨hk₄, hr₄, -⟩ := expect_ok h₄
    obtain ⟨hk₅, hr₅, -⟩ := expect_ok h₅
    exact ⟨opening, [], closing, bodyOpening, by simp [hr₁, hr₂, hr₄, hr₅], hk₁, hk₂, .empty,
      hk₄, hk₅⟩
  · obtain ⟨ps', c₃, h₃, h⟩ := bind_ok h
    obtain ⟨closing, c₄, h₄, h⟩ := bind_ok h
    obtain ⟨bodyOpening, c₅, h₅, h⟩ := bind_ok h
    obtain ⟨he, rfl⟩ := pure_ok.mp h
    cases he
    obtain ⟨hk₄, hr₄, -⟩ := expect_ok h₄
    obtain ⟨hk₅, hr₅, -⟩ := expect_ok h₅
    have f₄ := (Steady.expect _ _).noted_le h₄
    have f₅ := (Steady.expect _ _).noted_le h₅
    obtain ⟨u, hu, du, hn⟩ := sound_parameters h₃ (by omega)
    exact ⟨opening, u, closing, bodyOpening, by simp [hr₁, hr₂, hu, hr₄, hr₅], hk₁, hk₂,
      .some du (by simpa using hn), hk₄, hk₅⟩

end Parser

namespace Parser

open Grammar

variable {n : Nat} {c c' : Cursor}

/-- The rules for statements are read soundly, and an `else` is never left behind an `if` that
lacks one. -/
structure StmtSound (n : Nat) : Prop where
  declaration : ∀ {c o c'}, declaration n c = .ok o c' → c'.faults.length ≤ c.faults.length →
    ∃ w s, c.rest = w ++ c'.rest ∧ o = some s ∧ Forms True .declaration w s.bare
  methods : ∀ {c rs c'}, methods n c = .ok rs c' → c'.faults.length ≤ c.faults.length →
    ∃ w, c.rest = w ++ c'.rest ∧ Forms True .routines w (Routine.bareAll rs)
  routine : ∀ {form c r c'}, routine n form c = .ok r c' → c'.faults.length ≤ c.faults.length →
    ∃ w, c.rest = w ++ c'.rest ∧ Forms True .routine w r.bare
  statement : ∀ {c s c'}, statement n c = .ok s c' → c'.faults.length ≤ c.faults.length →
    ∃ w, c.rest = w ++ c'.rest ∧ Forms True .statement w s.bare ∧
      (s.endsOpen = true → Avoids [.elseWord] c'.rest)
  block : ∀ {c ss c'}, block n c = .ok ss c' → c'.faults.length ≤ c.faults.length →
    ∃ w closing, c.rest = w ++ closing :: c'.rest ∧
      Forms True .declarations w (Stmt.bareAll ss) ∧ closing.kind = .rightBrace

/-- A declaration that is read without a fault is there, and the grammar forms it. -/
theorem sound_declaration (ih : StmtSound n) {o : Option Stmt}
    (h : declaration (n + 1) c = .ok o c') (hc : c'.faults.length ≤ c.faults.length) :
    ∃ w s, c.rest = w ++ c'.rest ∧ o = some s ∧ Forms True .declaration w s.bare := by
  cases o with
  | none => exact absurd (noted_lt_of_declaration_none h) (Nat.not_lt.mpr hc)
  | some s =>
    obtain ⟨_, hs, h'⟩ | ⟨_, _, hn, -, -⟩ := recovering_ok h
    · cases hs
      obtain ⟨o, c₁, h₁, h⟩ := bind_ok h'
      have f₁ := (Steady.acceptAny _).noted_le h₁
      rcases acceptAny_ok h₁ with ⟨t, rfl, hk, hr, -⟩ | ⟨rfl, rfl, -⟩
      · simp only [List.mem_cons, List.not_mem_nil, or_false] at hk
        rcases hk with ht | ht | ht <;> simp only [ht] at h
        · obtain ⟨name, c₂, h₂, h⟩ := bind_ok h
          obtain ⟨opening, c₃, h₃, h⟩ := bind_ok h
          obtain ⟨rs, c₄, h₄, h⟩ := bind_ok h
          obtain ⟨closing, c₅, h₅, h⟩ := bind_ok h
          obtain ⟨rfl, rfl⟩ := pure_ok.mp h
          have f₂ := (Steady.expect _ _).noted_le h₂
          have f₃ := (Steady.expect _ _).noted_le h₃
          have f₅ := (Steady.expect _ _).noted_le h₅
          obtain ⟨hk₂, hr₂, -⟩ := expect_ok h₂
          obtain ⟨hk₃, hr₃, -⟩ := expect_ok h₃
          obtain ⟨hk₅, hr₅, -⟩ := expect_ok h₅
          obtain ⟨w, hw, dw⟩ := ih.methods h₄ (by omega)
          exact ⟨t :: name :: opening :: (w ++ [closing]), _, by simp [hr, hr₂, hr₃, hw, hr₅],
            rfl, .classDecl ht hk₂ hk₃ dw hk₅⟩
        · obtain ⟨r, c₂, h₂, h⟩ := bind_ok h
          obtain ⟨rfl, rfl⟩ := pure_ok.mp h
          obtain ⟨w, hw, dw⟩ := ih.routine h₂ (by omega)
          exact ⟨t :: w, _, by rw [hr, hw, List.cons_append], rfl, .funDecl ht dw⟩
        · obtain ⟨w, hw, dw⟩ := sound_varDecl h (by omega)
          exact ⟨t :: w, _, by rw [hr, hw, List.cons_append], rfl, .varDecl ht dw⟩
      · obtain ⟨w, hw, dw, -⟩ := ih.statement h hc
        exact ⟨w, _, hw, rfl, .ofStatement dw⟩
    · cases hn

theorem sound_methods (ih : StmtSound n) {rs : List Routine}
    (h : methods (n + 1) c = .ok rs c') (hc : c'.faults.length ≤ c.faults.length) :
    ∃ w, c.rest = w ++ c'.rest ∧ Forms True .routines w (Routine.bareAll rs) := by
  obtain ⟨b, c₁, h₁, h⟩ := bind_ok h
  obtain ⟨b', c₂, h₂, h⟩ := bind_ok h
  rw [looksAt_eq] at h₁
  cases h₁
  cases h₂
  split at h
  · obtain ⟨rfl, rfl⟩ := pure_ok.mp h
    exact ⟨[], rfl, .noRoutine⟩
  · obtain ⟨r, c₁, h₁, h⟩ := bind_ok h
    obtain ⟨rs, c₂, h₂, h⟩ := bind_ok h
    obtain ⟨rfl, rfl⟩ := pure_ok.mp h
    have f₁ := ((stmtSteady n).routine _).noted_le h₁
    have f₂ := (stmtSteady n).methods.noted_le h₂
    obtain ⟨u, hu, du⟩ := ih.routine h₁ (by omega)
    obtain ⟨w, hw, dw⟩ := ih.methods h₂ (by omega)
    exact ⟨u ++ w, by rw [hu, hw, List.append_assoc], .moreRoutines du dw⟩

/-- A routine is its head and its body. -/
theorem sound_routine (ih : StmtSound n) {form : RoutineForm} {r : Routine}
    (h : routine (n + 1) form c = .ok r c') (hc : c'.faults.length ≤ c.faults.length) :
    ∃ w, c.rest = w ++ c'.rest ∧ Forms True .routine w r.bare := by
  obtain ⟨⟨name, ps⟩, c₁, h₁, h⟩ := bind_ok h
  obtain ⟨body, c₂, h₂, h⟩ := bind_ok h
  obtain ⟨rfl, rfl⟩ := pure_ok.mp h
  have f₁ := (Steady.routineHead n form).noted_le h₁
  have f₂ := (stmtSteady n).block.noted_le h₂
  obtain ⟨opening, u, closing, bodyOpening, hr, hn, ho, du, hcl, hb⟩ :=
    sound_routineHead h₁ (by omega)
  obtain ⟨w, bodyClosing, hw, dw, hk⟩ := ih.block h₂ (by omega)
  exact ⟨name :: opening :: (u ++ closing :: bodyOpening :: (w ++ [bodyClosing])),
    by simp [hr, hw], .routine hn ho du hcl hb dw hk⟩

/-- A block is read up to its closing brace. -/
theorem sound_block (ih : StmtSound n) {ss : List Stmt}
    (h : block (n + 1) c = .ok ss c') (hc : c'.faults.length ≤ c.faults.length) :
    ∃ w closing, c.rest = w ++ closing :: c'.rest ∧
      Forms True .declarations w (Stmt.bareAll ss) ∧ closing.kind = .rightBrace := by
  obtain ⟨b, c₁, h₁, h⟩ := bind_ok h
  obtain ⟨b', c₂, h₂, h⟩ := bind_ok h
  rw [looksAt_eq] at h₁
  cases h₁
  cases h₂
  split at h
  · obtain ⟨closing, c₁, h₁, h⟩ := bind_ok h
    obtain ⟨rfl, rfl⟩ := pure_ok.mp h
    obtain ⟨hk, hr, -⟩ := expect_ok h₁
    exact ⟨[], closing, hr, .noDeclaration, hk⟩
  · obtain ⟨o, c₁, h₁, h⟩ := bind_ok h
    obtain ⟨ss, c₂, h₂, h⟩ := bind_ok h
    obtain ⟨rfl, rfl⟩ := pure_ok.mp h
    have f₁ := (stmtSteady n).declaration.noted_le h₁
    have f₂ := (stmtSteady n).block.noted_le h₂
    obtain ⟨u, s, hu, rfl, du⟩ := ih.declaration h₁ (by omega)
    obtain ⟨w, closing, hw, dw, hk⟩ := ih.block h₂ (by omega)
    exact ⟨u ++ w, closing, by rw [hu, hw, List.append_assoc], .moreDeclarations du dw, hk⟩

/-- A statement that is read without a fault is formed by the grammar. If it ends with an open `if`,
no `else` follows: it would have been taken. -/
theorem sound_statement (ih : StmtSound n) {s : Stmt}
    (h : statement (n + 1) c = .ok s c') (hc : c'.faults.length ≤ c.faults.length) :
    ∃ w, c.rest = w ++ c'.rest ∧ Forms True .statement w s.bare ∧
      (s.endsOpen = true → Avoids [.elseWord] c'.rest) := by
  obtain ⟨o, c₁, h₁, h⟩ := bind_ok h
  have f₁ := (Steady.acceptAny _).noted_le h₁
  rcases acceptAny_ok h₁ with ⟨t, rfl, hk, hr, -⟩ | ⟨rfl, rfl, -⟩
  · simp only [List.mem_cons, List.not_mem_nil, or_false] at hk
    rcases hk with ht | ht | ht | ht | ht | ht <;> simp only [ht] at h
    -- `for`
    · obtain ⟨opening, c₂, h₂, h⟩ := bind_ok h
      obtain ⟨initial, c₃, h₃, h⟩ := bind_ok h
      obtain ⟨condition, c₄, h₄, h⟩ := bind_ok h
      obtain ⟨increment, c₅, h₅, h⟩ := bind_ok h
      obtain ⟨body, c₆, h₆, h⟩ := bind_ok h
      obtain ⟨rfl, rfl⟩ := pure_ok.mp h
      have f₂ := (Steady.expect _ _).noted_le h₂
      have f₃ := (Steady.forInitial n).noted_le h₃
      have f₄ := (Steady.optionalUpTo n _ _).noted_le h₄
      have f₅ := (Steady.optionalUpTo n _ _).noted_le h₅
      have f₆ := (stmtSteady n).statement.noted_le h₆
      obtain ⟨hk₂, hr₂, -⟩ := expect_ok h₂
      obtain ⟨u, hu, du⟩ := sound_forInitial h₃ (by omega)
      obtain ⟨v, semicolon, hv, dv, hk₄⟩ := sound_optionalUpTo h₄ (by omega)
      obtain ⟨x, closing, hx, dx, hk₅⟩ := sound_optionalUpTo h₅ (by omega)
      obtain ⟨w, hw, dw, hopen⟩ := ih.statement h₆ (by omega)
      exact ⟨t :: opening :: (u ++ (v ++ semicolon :: (x ++ closing :: w))),
        by simp [hr, hr₂, hu, hv, hx, hw], .forStmt ht hk₂ du dv hk₄ dx hk₅ dw, hopen⟩
    -- `if`; an `else` that follows is taken, so the first branch does not end with an open `if`.
    · obtain ⟨opening, c₂, h₂, h⟩ := bind_ok h
      obtain ⟨condition, c₃, h₃, h⟩ := bind_ok h
      obtain ⟨onTrue, c₄, h₄, h⟩ := bind_ok h
      obtain ⟨o, c₅, h₅, h⟩ := bind_ok h
      have f₂ := (Steady.expect _ _).noted_le h₂
      have f₃ := (Steady.expressionUpTo n _ _).noted_le h₃
      have f₄ := (stmtSteady n).statement.noted_le h₄
      have f₅ := (Steady.acceptAny _).noted_le h₅
      obtain ⟨hk₂, hr₂, -⟩ := expect_ok h₂
      rcases acceptAny_ok h₅ with ⟨elseWord, rfl, hk₅, hr₅, -⟩ | ⟨rfl, rfl, hno⟩
      · obtain ⟨onFalse, c₆, h₆, h⟩ := bind_ok h
        obtain ⟨rfl, rfl⟩ := pure_ok.mp h
        have f₆ := (stmtSteady n).statement.noted_le h₆
        obtain ⟨u, closing, hu, du, hk₃⟩ := sound_expressionUpTo h₃ (by omega)
        obtain ⟨v, hv, dv, hopen⟩ := ih.statement h₄ (by omega)
        obtain ⟨w, hw, dw, hopen'⟩ := ih.statement h₆ (by omega)
        have hk₅' : elseWord.kind = .elseWord := by simpa using hk₅
        have hclosed : onTrue.endsOpen = false :=
          Bool.eq_false_iff.mpr fun hopened => hopen hopened elseWord (by simp [hr₅]) hk₅
        exact ⟨t :: opening :: (u ++ closing :: (v ++ elseWord :: w)),
          by simp [hr, hr₂, hu, hv, hr₅, hw],
          .ifElse ht hk₂ du hk₃ dv hk₅' dw (fun _ => by simpa using hclosed), hopen'⟩
      · obtain ⟨rfl, rfl⟩ := pure_ok.mp h
        obtain ⟨u, closing, hu, du, hk₃⟩ := sound_expressionUpTo h₃ (by omega)
        obtain ⟨w, hw, dw, -⟩ := ih.statement h₄ (by omega)
        exact ⟨t :: opening :: (u ++ closing :: w), by simp [hr, hr₂, hu, hw],
          .ifStmt ht hk₂ du hk₃ dw, fun _ => hno⟩
    -- `while`
    · obtain ⟨opening, c₂, h₂, h⟩ := bind_ok h
      obtain ⟨condition, c₃, h₃, h⟩ := bind_ok h
      obtain ⟨body, c₄, h₄, h⟩ := bind_ok h
      obtain ⟨rfl, rfl⟩ := pure_ok.mp h
      have f₂ := (Steady.expect _ _).noted_le h₂
      have f₃ := (Steady.expressionUpTo n _ _).noted_le h₃
      have f₄ := (stmtSteady n).statement.noted_le h₄
      obtain ⟨hk₂, hr₂, -⟩ := expect_ok h₂
      obtain ⟨u, closing, hu, du, hk₃⟩ := sound_expressionUpTo h₃ (by omega)
      obtain ⟨w, hw, dw, hopen⟩ := ih.statement h₄ (by omega)
      exact ⟨t :: opening :: (u ++ closing :: w), by simp [hr, hr₂, hu, hw],
        .whileStmt ht hk₂ du hk₃ dw, hopen⟩
    -- `return`
    · obtain ⟨value, c₂, h₂, h⟩ := bind_ok h
      obtain ⟨rfl, rfl⟩ := pure_ok.mp h
      obtain ⟨w, closing, hw, dw, hk₂⟩ := sound_optionalUpTo h₂ (by omega)
      exact ⟨t :: (w ++ [closing]), by simp [hr, hw], .returnStmt ht dw hk₂, nofun⟩
    -- a block
    · obtain ⟨body, c₂, h₂, h⟩ := bind_ok h
      obtain ⟨rfl, rfl⟩ := pure_ok.mp h
      obtain ⟨w, closing, hw, dw, hk₂⟩ := ih.block h₂ (by omega)
      exact ⟨t :: (w ++ [closing]), by simp [hr, hw], .block ht dw hk₂, nofun⟩
    -- `print`
    · obtain ⟨e, c₂, h₂, h⟩ := bind_ok h
      obtain ⟨rfl, rfl⟩ := pure_ok.mp h
      obtain ⟨w, closing, hw, dw, hk₂⟩ := sound_expressionUpTo h₂ (by omega)
      exact ⟨t :: (w ++ [closing]), by simp [hr, hw], .printStmt ht dw hk₂, nofun⟩
  -- No keyword: the statement is an expression.
  · obtain ⟨e, c₂, h₂, h⟩ := bind_ok h
    obtain ⟨rfl, rfl⟩ := pure_ok.mp h
    obtain ⟨w, closing, hw, dw, hk⟩ := sound_expressionUpTo h₂ hc
    exact ⟨w ++ [closing], by simp [hw], .exprStmt (.mk dw hk), nofun⟩

/-- **Every statement that is read without a fault is formed by the grammar.** -/
theorem stmtSound : ∀ n, StmtSound n
  | 0 =>
    { declaration := fun h => absurd h refuse_ok
      methods := fun h => absurd h refuse_ok
      routine := fun h => absurd h refuse_ok
      statement := fun h => absurd h refuse_ok
      block := fun h => absurd h refuse_ok }
  | n + 1 =>
    have ih := stmtSound n
    { declaration := sound_declaration ih
      methods := sound_methods ih
      routine := sound_routine ih
      statement := sound_statement ih
      block := sound_block ih }

/-- **A program that is read without a fault is a sequence of declarations.** -/
theorem sound_program : ∀ {n : Nat} {c c' : Cursor} {ss : List Stmt}, program n c = .ok ss c' →
    c'.faults.length ≤ c.faults.length → Forms True .declarations c.rest (Stmt.bareAll ss)
  | 0, _, _, _, h, _ => absurd h refuse_ok
  | n + 1, c, c', ss, h, hc => by
      obtain ⟨b, c₁, h₁, h⟩ := bind_ok h
      cases h₁
      split at h
      · next hend =>
        obtain ⟨rfl, rfl⟩ := pure_ok.mp h
        rw [List.isEmpty_iff.mp hend]
        exact .noDeclaration
      · obtain ⟨o, c₁, h₁, h⟩ := bind_ok h
        obtain ⟨ss, c₂, h₂, h⟩ := bind_ok h
        obtain ⟨rfl, rfl⟩ := pure_ok.mp h
        have f₁ := (stmtSteady n).declaration.noted_le h₁
        have f₂ := (Steady.program n).noted_le h₂
        obtain ⟨u, s, hu, rfl, du⟩ := (stmtSound n).declaration h₁ (by omega)
        rw [hu]
        exact .moreDeclarations du (sound_program h₂ (by omega))

end Parser

end LoxLang
