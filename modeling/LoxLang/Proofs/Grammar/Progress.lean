import Mathlib
import LoxLang.Proofs.Grammar.Acceptance

/-!
# Proofs/Grammar/Progress — reading gets on

A routine or a statement that is read takes at least one token, and recovery skips one. So a
declaration that finds a token moves on, whether it is read or given up (`lt_of_declaration`). This
is what ends the loops over declarations, which otherwise accept anything.
-/

namespace LoxLang.Parser

/-- The parser moves on whenever it succeeds. -/
def Advances {α : Type} (p : Parser α) : Prop :=
  ∀ ⦃c a c'⦄, p c = .ok a c' → c'.rest.length < c.rest.length

namespace Advances

variable {α β : Type} {p : Parser α} {f : α → Parser β}

theorem refuse (fault : ParseFault) : Advances (Parser.refuse fault : Parser α) :=
  fun _ _ _ h => absurd h refuse_ok

/-- The first part moves on, and the second does not go back. -/
theorem bindFirst (hp : Advances p) (hf : ∀ a, Steady (f a)) : Advances (p >>= f) := by
  intro c b c' h
  obtain ⟨a, c₁, h₁, h₂⟩ := bind_ok h
  exact Nat.lt_of_le_of_lt ((hf a).ok h₂).rest.length_le (hp h₁)

/-- The second part moves on. -/
theorem bindSecond (hp : Steady p) (hf : ∀ a, Advances (f a)) : Advances (p >>= f) := by
  intro c b c' h
  obtain ⟨a, c₁, h₁, h₂⟩ := bind_ok h
  exact Nat.lt_of_lt_of_le (hf a h₂) (hp.ok h₁).rest.length_le

/-- A token is accepted, or else what follows moves on. -/
theorem accept {kinds : List Kind} {f : Option Token → Parser β} (hnone : Advances (f none))
    (hsome : ∀ t, Steady (f (some t))) : Advances (acceptAny kinds >>= f) := by
  intro c b c' h
  obtain ⟨o, c₁, h₁, h₂⟩ := bind_ok h
  rcases acceptAny_ok h₁ with ⟨t, rfl, -, hr, -⟩ | ⟨rfl, rfl, -⟩
  · rw [hr, List.length_cons]
    exact Nat.lt_succ_of_le ((hsome t).ok h₂).rest.length_le
  · exact hnone h₂

theorem expect (kind : Kind) (fault : ParseFault) : Advances (Parser.expect kind fault) :=
  accept (.refuse fault) fun _ => .pure _

theorem expressionUpTo (n : Nat) (kind : Kind) (fault : ParseFault) :
    Advances (expressionUpTo n kind fault) :=
  bindSecond (exprSteady n).expression fun _ => (expect kind fault).bindFirst fun _ => .pure _

end Advances

theorem advances_routineHead (n : Nat) (form : RoutineForm) : Advances (routineHead n form) := by
  refine (Advances.expect _ _).bindFirst fun _ => (Steady.expect _ _).bind fun _ =>
    (Steady.looksAt _).bind fun b => ?_
  refine .ite ((Steady.pure []).bind fun _ => ?_) ((Steady.parameters n 0).bind fun _ => ?_)
  · exact (Steady.expect _ _).bind fun _ => (Steady.expect _ _).bind fun _ => .pure _
  · exact (Steady.expect _ _).bind fun _ => (Steady.expect _ _).bind fun _ => .pure _

/-- A routine passes its name at least. -/
theorem advances_routine (form : RoutineForm) : ∀ n, Advances (routine n form)
  | 0 => .refuse _
  | n + 1 =>
    (advances_routineHead n form).bindFirst fun _ => (stmtSteady n).block.bind fun _ => .pure _

/-- **A statement passes a token at least**, whatever it is. -/
theorem advances_statement : ∀ n, Advances (statement n)
  | 0 => .refuse _
  | n + 1 => by
    have ih := stmtSteady n
    refine .accept ((Advances.expressionUpTo n _ _).bindFirst fun _ => .pure _) fun t => ?_
    dsimp only
    split
    · exact (Steady.expect _ _).bind fun _ => (Steady.forInitial n).bind fun _ =>
        (Steady.optionalUpTo n _ _).bind fun _ => (Steady.optionalUpTo n _ _).bind fun _ =>
        ih.statement.bind fun _ => .pure _
    · refine (Steady.expect _ _).bind fun _ => (Steady.expressionUpTo n _ _).bind fun _ =>
        ih.statement.bind fun _ => (Steady.acceptAny _).bind fun o => ?_
      cases o with
      | none => exact .pure _
      | some _ => exact ih.statement.bind fun _ => .pure _
    · exact (Steady.expect _ _).bind fun _ => (Steady.expressionUpTo n _ _).bind fun _ =>
        ih.statement.bind fun _ => .pure _
    · exact (Steady.optionalUpTo n _ _).bind fun _ => .pure _
    · exact ih.block.bind fun _ => .pure _
    · exact (Steady.expressionUpTo n _ _).bind fun _ => .pure _

/-! ## Declarations -/

/-- A declaration passes a token at least. -/
theorem advances_declarationBody (n : Nat) : Advances (declarationBody n) := by
  have ih := stmtSteady n
  refine .accept (advances_statement n) fun t => ?_
  dsimp only
  split
  · exact (Steady.expect _ _).bind fun _ => (Steady.expect _ _).bind fun _ =>
      ih.methods.bind fun _ => (Steady.expect _ _).bind fun _ => .pure _
  · exact (ih.routine _).bind fun _ => .pure _
  · exact .varDecl n

/-- Recovery skips the token of the failure. -/
theorem resynchronize_length_lt {ts : List Token} (h : ts ≠ []) :
    (resynchronize ts).length < ts.length := by
  cases ts with
  | nil => exact absurd rfl h
  | cons t rest => exact Nat.lt_succ_of_le (skipFrom_suffix t rest).length_le

/-- A declaration that may be recovered from moves on where there is a token, if it moves on when it
is read. -/
theorem lt_of_recovering {p : Parser Stmt} (hp : Steady p) (hadvances : Advances p) {c c' : Cursor}
    {o : Option Stmt} (h : recovering p c = .ok o c') (hc : c.rest ≠ []) :
    c'.rest.length < c.rest.length := by
  rcases recovering_ok h with ⟨s, -, hs⟩ | ⟨d, c₁, -, hd, rfl⟩
  · exact hadvances hs
  · have hle := (hp.error hd).rest.length_le
    by_cases hc₁ : c₁.rest = []
    · rw [hc₁]
      exact List.length_pos_of_ne_nil hc
    · exact Nat.lt_of_lt_of_le (resynchronize_length_lt hc₁) hle

/-- **A declaration that finds a token moves on**, whether it is read or given up. -/
theorem lt_of_declaration {n : Nat} {c c' : Cursor} {o : Option Stmt}
    (h : declaration n c = .ok o c') (hc : c.rest ≠ []) : c'.rest.length < c.rest.length := by
  cases n with
  | zero => exact absurd h refuse_ok
  | succ n =>
    exact lt_of_recovering (stmtSteady n).declarationBody (advances_declarationBody n) h hc

end LoxLang.Parser
