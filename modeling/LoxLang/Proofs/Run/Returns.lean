import Mathlib
import LoxLang.Proofs.Lexical.Points
import LoxLang.Proofs.Run.Frames
import LoxLang.Proofs.Scope.Rules

/-!
# Proofs/Run/Returns — where a `return` goes

A call executes the statements of its routine, those in blocks, branches and loops included, but not
those of the functions that it calls. All these executions are listed in their order
(`executionsAll`). A `return` that comes to a value is the last of them: the blocks and loops around
it hand the value on, and the call ends with it (`Concludes`). The one place where a flow is dropped is
the first clause of a `for`, and no tree that is read has a `return` there.

At the top of a program no call would take the value; but there the resolver lets no `return` stand.

The main result is `returns_end_their_call`.
-/

namespace LoxLang

open EStateM (Result)

/-! ## The statements of one routine -/

mutual

/-- The statements inside a statement, without those of the routines that are declared there. -/
def Stmt.inner : Stmt → List Stmt
  | .block body => Stmt.ownAll body
  | .ifStmt _ onTrue onFalse => (onTrue :: onTrue.inner) ++ Stmt.ownOption onFalse
  | .whileStmt _ body => body :: body.inner
  | .forStmt initial _ _ body => Stmt.ownOption initial ++ (body :: body.inner)
  | .exprStmt _ | .printStmt _ | .varDecl _ _ | .returnStmt _ _ | .funDecl _ | .classDecl _ _ => []

/-- The statements that belong to a body, and not to a routine that is declared in it. -/
def Stmt.ownAll : List Stmt → List Stmt
  | [] => []
  | s :: ss => (s :: s.inner) ++ Stmt.ownAll ss

def Stmt.ownOption : Option Stmt → List Stmt
  | none => []
  | some s => s :: s.inner

end

/-- The statements of a list stand where statements may stand. -/
theorem Stmt.AllShaped.of_mem {s : Stmt} : ∀ {ss : List Stmt}, Stmt.AllShaped ss → s ∈ ss →
    s.Shaped
  | _ :: _, h, .head _ => h.1
  | _ :: _, h, .tail _ hs => Stmt.AllShaped.of_mem h.2 hs

/-- What is inside of a statement belongs to the body that the statement is in. -/
theorem Stmt.mem_ownAll {s t : Stmt} : ∀ {ss : List Stmt}, s ∈ ss → t ∈ s :: s.inner →
    t ∈ Stmt.ownAll ss
  | _ :: _, .head _, ht => List.mem_append_left _ ht
  | _ :: _, .tail _ hs, ht => List.mem_append_right _ (Stmt.mem_ownAll hs ht)

/-! ### The top of a program has no `return` -/

section

variable {scopes : List Enclosing}

/-- No scope belongs to a routine. -/
def OutsideRoutines (scopes : List Enclosing) : Prop :=
  ∀ c ∈ scopes, c.construct.isRoutine = false

/-- A scope that is no routine's does not bring a routine in. -/
theorem OutsideRoutines.cons (h : OutsideRoutines scopes) {c : Enclosing}
    (hc : c.construct.isRoutine = false) : OutsideRoutines (c :: scopes) :=
  List.forall_mem_cons.mpr ⟨hc, h⟩

theorem OutsideRoutines.holding (h : OutsideRoutines scopes) (s : Stmt) :
    OutsideRoutines (LoxLang.holding s scopes) := by
  cases scopes with
  | nil => exact h
  | cons c outer => exact List.forall_mem_cons.mpr (List.forall_mem_cons.mp h)

theorem OutsideRoutines.behind (h : OutsideRoutines scopes) (s : Stmt) :
    OutsideRoutines (LoxLang.behind s scopes) := by
  cases scopes with
  | nil => exact h
  | cons c outer => exact List.forall_mem_cons.mpr (List.forall_mem_cons.mp h)

/-- Some site is out of place. -/
def Violated (sites : List Site) : Prop :=
  ∃ site ∈ sites, ∃ d, site.Violates d

/-- A fault at one site is a fault of all. -/
theorem Violated.append_left {sites : List Site} (h : Violated sites) (more : List Site) :
    Violated (sites ++ more) := by
  obtain ⟨site, hsite, hviolates⟩ := h
  exact ⟨site, List.mem_append_left _ hsite, hviolates⟩

theorem Violated.append_right {sites : List Site} (h : Violated sites) (more : List Site) :
    Violated (more ++ sites) := by
  obtain ⟨site, hsite, hviolates⟩ := h
  exact ⟨site, List.mem_append_right _ hsite, hviolates⟩

mutual

/-- **A `return` outside of all routines is out of place**, wherever it stands in a statement. -/
theorem Stmt.violated_of_return {keyword : Token} {value : Option Expr} :
    ∀ (s : Stmt) {scopes : List Enclosing}, OutsideRoutines scopes →
      Stmt.returnStmt keyword value ∈ s :: s.inner → Violated (s.sites scopes)
  | .returnStmt _ _, _, h, hmem => by
    simp only [Stmt.inner, List.mem_singleton, Stmt.returnStmt.injEq] at hmem
    obtain ⟨rfl, rfl⟩ := hmem
    exact ⟨_, List.mem_cons_self, _, .returnAtTop h⟩
  | .block body, _, h, hmem =>
    Stmt.violatedAll_of_return body (h.cons rfl) (by simpa [Stmt.inner] using hmem)
  | .ifStmt _ onTrue onFalse, _, h, hmem => by
    simp only [Stmt.inner, List.mem_cons, List.mem_append, reduceCtorEq, false_or] at hmem
    refine Violated.append_right ?_ _
    rcases hmem with htrue | hfalse
    · exact (onTrue.violated_of_return h (List.mem_cons.mpr htrue)).append_left _
    · exact (Stmt.violatedOption_of_return onFalse h hfalse).append_right _
  | .whileStmt _ body, _, h, hmem => by
    simp only [Stmt.inner, List.mem_cons, reduceCtorEq, false_or] at hmem
    exact (body.violated_of_return h (List.mem_cons.mpr hmem)).append_right _
  | .forStmt initial _ _ body, _, h, hmem => by
    simp only [Stmt.inner, List.mem_cons, List.mem_append, reduceCtorEq, false_or] at hmem
    rcases hmem with hinitial | hbody
    · exact (Stmt.violatedOption_of_return initial (h.cons rfl) hinitial).append_left _
    · have hviolated := body.violated_of_return
        (h.cons (c := ⟨.loop, [], initial.toList, none⟩) rfl) (List.mem_cons.mpr hbody)
      exact ((hviolated.append_right _).append_right _).append_right _
  | .exprStmt _, _, _, hmem | .printStmt _, _, _, hmem | .varDecl _ _, _, _, hmem
  | .funDecl _, _, _, hmem | .classDecl _ _, _, _, hmem => by simp [Stmt.inner] at hmem

/-- The same for a `return` that belongs to a list of statements. -/
theorem Stmt.violatedAll_of_return {keyword : Token} {value : Option Expr} :
    ∀ (ss : List Stmt) {scopes : List Enclosing}, OutsideRoutines scopes →
      Stmt.returnStmt keyword value ∈ Stmt.ownAll ss → Violated (Stmt.sitesAll scopes ss)
  | s :: ss, _, h, hmem => by
    rcases List.mem_append.mp hmem with hs | hss
    · exact (s.violated_of_return (h.holding s) hs).append_left _
    · exact (Stmt.violatedAll_of_return ss (h.behind s) hss).append_right _

theorem Stmt.violatedOption_of_return {keyword : Token} {value : Option Expr} :
    ∀ (o : Option Stmt) {scopes : List Enclosing}, OutsideRoutines scopes →
      Stmt.returnStmt keyword value ∈ Stmt.ownOption o → Violated (Stmt.sitesOption scopes o)
  | some s, _, h, hmem => s.violated_of_return h hmem

end

/-- **A program without faults has no `return` outside of its routines.** -/
theorem returnStmt_not_mem_ownAll {ss : List Stmt} (hshaped : Stmt.AllShaped ss)
    (hclean : (resolve ss).faults = []) (keyword : Token) (value : Option Expr) :
    Stmt.returnStmt keyword value ∉ Stmt.ownAll ss := by
  intro hmem
  rw [(Scope.tracesAt_program hshaped).2, Scope.faultsAt_eq_nil] at hclean
  have htop : OutsideRoutines [] := fun _ hc => absurd hc List.not_mem_nil
  obtain ⟨site, hsite, d, hviolates⟩ := Stmt.violatedAll_of_return ss htop hmem
  exact hclean site hsite d hviolates

end

/-! ## The executions of one call -/

/-- The execution of a statement. -/
structure Execution where
  fuel : Nat
  statement : Stmt
  machine : Machine

/-- What is executed behind a computation that does not stop. -/
def executedAfter {α : Type} (out : Result Stop Machine α)
    (rest : α → Machine → List Execution) : List Execution :=
  match out with
  | .ok a m => rest a m
  | .error _ _ => []

mutual

/-- The executions that make up the execution of a statement, in their order. What is executed in
the functions that it calls is not among them. -/
def executions (host : Host) : Nat → Stmt → Machine → List Execution
  | 0, s, m => [⟨0, s, m⟩]
  | n + 1, s, m => ⟨n + 1, s, m⟩ :: match s with
    | .block body => executionsAll host n body (m.inside ∅ m.scope)
    | .ifStmt condition onTrue onFalse =>
      executedAfter (evaluate host n condition m) fun v m =>
        if v.isTruthy then executions host n onTrue m
        else match onFalse with
          | some s => executions host n s m
          | none => []
    | .whileStmt condition body => executionsWhile host n (some condition) none body m
    | .forStmt none condition increment body =>
      executionsWhile host n condition increment body (m.inside ∅ m.scope)
    | .forStmt (some s) condition increment body =>
      executions host n s (m.inside ∅ m.scope) ++
        executedAfter (execute host n s (m.inside ∅ m.scope)) fun _ m =>
          executionsWhile host n condition increment body m
    | _ => []

/-- The executions of the statements of a body. -/
def executionsAll (host : Host) : Nat → List Stmt → Machine → List Execution
  | 0, _, _ => []
  | _ + 1, [], _ => []
  | n + 1, s :: ss, m =>
    executions host n s m ++ executedAfter (execute host n s m) fun flow m =>
      match flow with
      | .normal => executionsAll host n ss m
      | .returned _ => []

/-- The executions in the rounds of a loop. -/
def executionsWhile (host : Host) : Nat → Option Expr → Option Expr → Stmt → Machine →
    List Execution
  | 0, _, _, _, _ => []
  | n + 1, condition, increment, body, m =>
    executedAfter (evaluateIfAny host n condition m) fun v m =>
      if v.all Value.isTruthy then
        executions host n body m ++ executedAfter (execute host n body m) fun flow m =>
          match flow with
          | .normal => executedAfter (evaluateIfAny host n increment m) fun _ m =>
              executionsWhile host n condition increment body m
          | .returned _ => []
      else []

end

/-- The statement is a `return`. -/
def Stmt.isReturn : Stmt → Bool
  | .returnStmt _ _ => true
  | _ => false

/-- The execution is that of a `return`, and comes to a value. -/
def Execution.Returns (host : Host) (x : Execution) (v : Value) (m : Machine) : Prop :=
  (∃ keyword value, x.statement = .returnStmt keyword value) ∧
    execute host x.fuel x.statement x.machine = .ok (.returned v) m

/-- None of the executions returns. -/
def Unreturned (host : Host) (xs : List Execution) : Prop :=
  ∀ x ∈ xs, ∀ v m, ¬ x.Returns host v m

theorem Unreturned.nil (host : Host) : Unreturned host [] :=
  fun _ hx => absurd hx List.not_mem_nil

/-- **How executions end a computation**: only the last of them may return, and just then the
computation returns, with the same value and on the same machine, up to the current frame. -/
inductive Concludes (host : Host) : List Execution → Result Stop Machine Flow → Prop
  | unreturned {xs : List Execution} {out : Result Stop Machine Flow} (h : Unreturned host xs)
      (hout : ∀ v m, out ≠ .ok (.returned v) m) : Concludes host xs out
  | returned {xs : List Execution} {x : Execution} {v : Value} {m : Machine}
      (h : Unreturned host xs) (hx : x.Returns host v m) (r : FrameRef) :
      Concludes host (xs ++ [x]) (.ok (.returned v) { m with scope := r })

namespace Concludes

variable {host : Host} {xs ys : List Execution} {x : Execution} {out : Result Stop Machine Flow}
  {n : Nat} {m : Machine}

/-- Nothing is executed. -/
theorem nil (hout : ∀ v m, out ≠ .ok (.returned v) m) : Concludes host [] out :=
  .unreturned (.nil host) hout

theorem normal (h : Unreturned host xs) : Concludes host xs (.ok .normal m) :=
  .unreturned h fun _ _ heq => Flow.noConfusion (Result.ok.inj heq).1

theorem error {stop : Stop} (h : Unreturned host xs) : Concludes host xs (.error stop m) :=
  .unreturned h fun _ _ heq => Result.noConfusion rfl rfl rfl (heq_of_eq heq)

/-- Executions without a `return` may come before others. -/
theorem unreturned_append (h : Unreturned host xs) (hrest : Concludes host ys out) :
    Concludes host (xs ++ ys) out := by
  cases hrest with
  | unreturned hys hout =>
    exact .unreturned (fun y hy => (List.mem_append.mp hy).elim (h y) (hys y)) hout
  | returned hys hx r =>
    rw [← List.append_assoc]
    exact .returned (fun y hy => (List.mem_append.mp hy).elim (h y) (hys y)) hx r

/-- A statement that is no `return` itself. -/
theorem cons (hx : x.statement.isReturn = false) (hrest : Concludes host xs out) :
    Concludes host (x :: xs) out := by
  have hsingle : Unreturned host [x] := by
    rintro y hy v m ⟨⟨keyword, value, heq⟩, -⟩
    rw [List.mem_singleton.mp hy] at heq
    rw [heq] at hx
    cases hx
  exact unreturned_append hsingle hrest

/-- If a computation comes to its end, none of its executions has returned. -/
theorem unreturned_of_normal (h : Concludes host xs (.ok .normal m)) : Unreturned host xs := by
  cases h with
  | unreturned h => exact h

/-- A computation in another frame hands on how it ends. -/
theorem inFrame {r : FrameRef} {run : Eval Flow} (h : Concludes host xs (run { m with scope := r })) :
    Concludes host xs (Eval.inFrame r run m) := by
  unfold Eval.inFrame
  dsimp only
  generalize run { m with scope := r } = out at h
  cases h with
  | unreturned h hout =>
    cases out with
    | error stop m' => exact .error h
    | ok flow m' =>
      cases flow with
      | normal => exact .normal h
      | returned v => exact absurd rfl (hout v m')
  | returned h hx r => exact .returned h hx _

/-- What follows is executed only behind a normal end; a `return` is handed on. -/
theorem followed {first : Eval Flow} {rest : Flow → Eval Flow}
    {more : Flow → Machine → List Execution} (h : Concludes host xs (first m))
    (hrest : ∀ m', Concludes host (more .normal m') (rest .normal m'))
    (hreturned : ∀ v m', rest (.returned v) m' = .ok (.returned v) m' ∧ more (.returned v) m' = []) :
    Concludes host (xs ++ executedAfter (first m) more) ((first >>= rest) m) := by
  change Concludes host _ (EStateM.bind first _ m)
  unfold EStateM.bind
  generalize first m = out at h
  cases out with
  | error stop m' =>
    rw [executedAfter, List.append_nil]
    exact h
  | ok flow m' =>
    cases flow with
    | normal => exact unreturned_append h.unreturned_of_normal (hrest m')
    | returned v =>
      obtain ⟨hhanded, hnone⟩ := hreturned v m'
      rw [executedAfter, hnone, List.append_nil]
      change Concludes host xs (rest (.returned v) m')
      rw [hhanded]
      exact h

/-- What follows is executed only behind a computation that does not stop. -/
theorem after {α : Type} {first : Eval α} {rest : α → Eval Flow}
    {more : α → Machine → List Execution}
    (hrest : ∀ a m', Concludes host (more a m') (rest a m')) :
    Concludes host (executedAfter (first m) more) ((first >>= rest) m) := by
  change Concludes host _ (EStateM.bind first rest m)
  unfold EStateM.bind
  cases first m with
  | error stop m' => exact .error (.nil host)
  | ok a m' => exact hrest a m'

end Concludes


/-! ### The evaluators -/

/-- The computation never returns. -/
def Eval.Unreturning (x : Eval Flow) : Prop :=
  ∀ m v m', x m ≠ .ok (.returned v) m'

theorem Eval.Unreturning.normal : Eval.Unreturning (pure .normal) :=
  fun _ _ _ heq => Flow.noConfusion (Result.ok.inj heq).1

/-- A computation returns only if what comes last in it does. -/
theorem Eval.Unreturning.bind {α : Type} {x : Eval α} {f : α → Eval Flow}
    (hf : ∀ a, (f a).Unreturning) : (x >>= f).Unreturning := by
  intro m v m' h
  change EStateM.bind x f m = _ at h
  unfold EStateM.bind at h
  cases hout : x m with
  | error stop m₁ =>
    rw [hout] at h
    cases h
  | ok a m₁ =>
    rw [hout] at h
    exact hf a m₁ v m' h

/-- With this much fuel executions end computations. -/
structure ConcludesAt (host : Host) (n : Nat) : Prop where
  execute : ∀ {s : Stmt} {m : Machine}, s.Shaped →
    Concludes host (executions host n s m) (execute host n s m)
  executeAll : ∀ {ss : List Stmt} {m : Machine}, Stmt.AllShaped ss →
    Concludes host (executionsAll host n ss m) (executeAll host n ss m)
  repeatWhile : ∀ {condition increment : Option Expr} {body : Stmt} {m : Machine}, body.Shaped →
    Concludes host (executionsWhile host n condition increment body m)
      (repeatWhile host n condition increment body m)

namespace ConcludesAt

variable {host : Host} {n : Nat} {m : Machine}

/-- A `return` that comes to a value is an execution that returns. -/
theorem returnStmt (keyword : Token) (value : Option Expr) :
    Concludes host [⟨n + 1, .returnStmt keyword value, m⟩]
      (LoxLang.execute host (n + 1) (.returnStmt keyword value) m) := by
  have hrun : LoxLang.execute host (n + 1) (.returnStmt keyword value) m =
      EStateM.bind (LoxLang.evaluateOptional host n value) (fun v => pure (.returned v)) m := by
    simp only [LoxLang.execute]
    rfl
  unfold EStateM.bind at hrun
  cases hout : LoxLang.evaluateOptional host n value m with
  | ok v m' =>
    rw [hout] at hrun
    rw [hrun]
    exact .returned (.nil host) ⟨⟨keyword, value, rfl⟩, hrun⟩ m'.scope
  | error stop m' =>
    rw [hout] at hrun
    rw [hrun]
    refine .error fun x hx v m'' hreturns => ?_
    cases List.mem_singleton.mp hx
    cases hrun.symm.trans hreturns.2

/-- The first clause of a `for` is none of the statements that may return. -/
theorem unreturned_clause {s : Stmt} (h : s.isClause = true) :
    Unreturned host (executions host n s m) := by
  have hsingle : executions host n s m = [⟨n, s, m⟩] := by
    cases n with
    | zero => rfl
    | succ n => cases s with
      | varDecl | exprStmt => rfl
      | _ => cases h
  rw [hsingle]
  rintro x hx v m' ⟨⟨keyword, value, heq⟩, -⟩
  rw [List.mem_singleton.mp hx] at heq
  cases heq
  cases h

/-- The executions of a statement end it, if those of its parts end these. -/
theorem execute_succ (ih : ConcludesAt host n) {s : Stmt} (hshaped : s.Shaped) :
    Concludes host (executions host (n + 1) s m) (LoxLang.execute host (n + 1) s m) := by
  cases s with simp only [executions]
  | exprStmt | funDecl | classDecl =>
    simp only [LoxLang.execute]
    exact .cons rfl (.nil (Eval.Unreturning.bind (fun _ => .normal) m))
  | printStmt e =>
    simp only [LoxLang.execute]
    exact .cons rfl (.nil (Eval.Unreturning.bind
      (fun _ => .bind fun _ => .bind fun _ => .normal) m))
  | varDecl name initial =>
    simp only [LoxLang.execute]
    exact .cons rfl (.nil (Eval.Unreturning.bind (fun _ => .bind fun _ => .normal) m))
  | block body =>
    simp only [LoxLang.execute]
    exact .cons rfl (.inFrame (ih.executeAll hshaped))
  | ifStmt condition onTrue onFalse =>
    simp only [LoxLang.execute]
    refine .cons rfl (.after fun v m' => ?_)
    cases v.isTruthy with
    | true => exact ih.execute hshaped.1.2
    | false =>
      cases onFalse with
      | none => exact .normal (.nil host)
      | some s => exact ih.execute hshaped.2.2
  | whileStmt condition body =>
    simp only [LoxLang.execute]
    exact .cons rfl (ih.repeatWhile hshaped.2)
  | forStmt initial condition increment body =>
    obtain ⟨⟨hclause, hinitial⟩, -, hbody⟩ := hshaped
    cases initial with simp only [LoxLang.execute]
    | none => exact .cons rfl (.inFrame (ih.repeatWhile hbody))
    | some s =>
      refine .cons rfl (.inFrame (.unreturned_append (unreturned_clause (hclause s rfl)) ?_))
      exact .after fun _ m' => ih.repeatWhile hbody
  | returnStmt keyword value => exact returnStmt keyword value

/-- Behind a statement that returned, none of a body is executed. -/
theorem executeAll_succ (ih : ConcludesAt host n) {ss : List Stmt} (hshaped : Stmt.AllShaped ss) :
    Concludes host (executionsAll host (n + 1) ss m) (LoxLang.executeAll host (n + 1) ss m) := by
  cases ss with
  | nil => exact .normal (.nil host)
  | cons s ss =>
    exact .followed (ih.execute hshaped.1) (fun m' => ih.executeAll hshaped.2) fun _ _ => ⟨rfl, rfl⟩

/-- Behind a round that returned, there is no other round. -/
theorem repeatWhile_succ (ih : ConcludesAt host n) {condition increment : Option Expr} {body : Stmt}
    (hshaped : body.Shaped) :
    Concludes host (executionsWhile host (n + 1) condition increment body m)
      (LoxLang.repeatWhile host (n + 1) condition increment body m) := by
  rw [repeatWhile_eq_round]
  refine .after fun v m' => ?_
  cases v.all Value.isTruthy with
  | false => exact .normal (.nil host)
  | true =>
    refine .followed (ih.execute hshaped) (fun m' => ?_) fun v m' => ⟨rfl, rfl⟩
    exact .after fun _ m' => ih.repeatWhile hshaped

end ConcludesAt

/-- **Executions end computations**, whatever fuel is left. -/
theorem concludesAt (host : Host) : ∀ n, ConcludesAt host n
  | 0 => by
    refine ⟨fun {s m} _ => ?_, fun _ => .error (.nil host), fun _ => .error (.nil host)⟩
    refine .error fun x hx v m' hreturns => ?_
    cases List.mem_singleton.mp hx
    cases hreturns.2
  | n + 1 =>
    have ih := concludesAt host n
    ⟨ih.execute_succ, ih.executeAll_succ, ih.repeatWhile_succ⟩


/-! ### The executions are those of the calls for statements -/

/-- The call executes statements. -/
def Task.isStatement : Task → Bool
  | .execute _ | .executeAll _ | .repeatWhile _ _ _ => true
  | .evaluate _ | .evaluateAll _ | .invoke _ _ _ | .callClosure _ _ | .evaluateOptional _ => false

/-- The executions that a call for statements makes. -/
def Task.executions (host : Host) (n : Nat) : Task → Machine → List Execution
  | .execute s, m => LoxLang.executions host n s m
  | .executeAll ss, m => executionsAll host n ss m
  | .repeatWhile condition increment body, m =>
    executionsWhile host n condition increment body m
  | _, _ => []

/-- The machine on which a call executes the body of its routine. -/
abbrev Machine.entering (m : Machine) (f : Closure) (arguments : List Value) : Machine :=
  m.inside (argumentNames f.routine.parameters arguments) f.scope

/-- **The calls for statements within one call of a function**: those that a call makes, those that
they make, and so on, with no function entered between. -/
inductive Within (host : Host) (fuel : Nat) (task : Task) (m : Machine) :
    Nat → Task → Machine → Prop
  | refl : Within host fuel task m fuel task m
  | step {n : Nat} {task₁ task₂ : Task} {m₁ m₂ : Machine}
      (h : Within host fuel task m (n + 1) task₁ m₁) (hcalls : Calls host n task₁ m₁ task₂ m₂)
      (hstatement : task₂.isStatement = true) : Within host fuel task m n task₂ m₂

section

variable {host : Host} {n : Nat} {task task' : Task} {m m' : Machine}

/-- What is executed behind a computation is executed if that comes to its end. -/
theorem mem_executedAfter {α : Type} {out : Result Stop Machine α} {a : α}
    {rest : α → Machine → List Execution} {x : Execution} (hout : out = .ok a m)
    (hx : x ∈ rest a m) : x ∈ executedAfter out rest := by
  rw [hout]
  exact hx

/-- What a call executes, the call that makes it executes too. -/
theorem Calls.executions_subset (h : Calls host n task m task' m') (htask : task.isStatement = true)
    (htask' : task'.isStatement = true) :
    task'.executions host n m' ⊆ task.executions host (n + 1) m := by
  intro x hx
  -- Only calls for statements are of interest; the others are ruled out by `htask` and `htask'`.
  cases h with
  | @first task task' _ hfirst =>
    cases task with
    | execute s =>
      cases s with
      | whileStmt =>
        cases hfirst
        exact List.mem_cons_of_mem _ hx
      | exprStmt | printStmt | ifStmt | varDecl | returnStmt =>
        cases hfirst
        cases htask'
      | _ => cases hfirst
    | executeAll ss =>
      cases ss with
      | nil => cases hfirst
      | cons =>
        cases hfirst
        exact List.mem_append_left _ hx
    | repeatWhile condition =>
      cases condition with
      | none => cases hfirst
      | some =>
        cases hfirst
        cases htask'
    | _ => cases htask
  | block | loop => exact List.mem_cons_of_mem _ hx
  | onTrue h hv | onFalse h hv =>
    refine List.mem_cons_of_mem _ (mem_executedAfter h ?_)
    simp only [hv]
    exact hx
  | forInitial => exact List.mem_cons_of_mem _ (List.mem_append_left _ hx)
  | forLoop h =>
    exact List.mem_cons_of_mem _ (List.mem_append_right _ (mem_executedAfter h hx))
  | executeRest h => exact List.mem_append_right _ (mem_executedAfter h hx)
  | round h hv =>
    refine mem_executedAfter h ?_
    rw [if_pos hv]
    exact List.mem_append_left _ hx
  | again h hv hbody hincrement =>
    refine mem_executedAfter h ?_
    rw [if_pos hv]
    exact List.mem_append_right _ (mem_executedAfter hbody (mem_executedAfter hincrement hx))
  | increment => cases htask'
  | second | arguments | invoke | evaluateRest | host | function | initializer | body => cases htask

/-- Within a call of a function, all calls for statements come from calls for statements. -/
theorem Within.isStatement {fuel : Nat} (h : Within host fuel task m n task' m')
    (htask : task.isStatement = true) : task'.isStatement = true := by
  cases h with
  | refl => exact htask
  | step _ _ hstatement => exact hstatement

/-- The executions of a call within a call are among those of the call. -/
theorem Within.executions_subset {fuel : Nat} (h : Within host fuel task m n task' m')
    (htask : task.isStatement = true) :
    task'.executions host n m' ⊆ task.executions host fuel m := by
  induction h with
  | refl => exact List.Subset.refl _
  | step hbefore hcalls hstatement ih =>
    exact List.Subset.trans
      (hcalls.executions_subset (hbefore.isStatement htask) hstatement) ih

/-- **Every statement that is executed within a call is among its executions.** -/
theorem Within.mem_executions {fuel : Nat} {s : Stmt}
    (h : Within host fuel task m n (.execute s) m') (htask : task.isStatement = true) :
    ⟨n, s, m'⟩ ∈ task.executions host fuel m := by
  refine h.executions_subset htask ?_
  cases n <;> exact List.mem_cons_self

/-- Only statements execute statements at once. -/
theorem Task.isStatement_of_first (h : task.first = some task')
    (hstatement : task'.isStatement = true) : task.isStatement = true := by
  cases task with
  | evaluate e =>
    obtain ⟨e₁, -, rfl⟩ := Option.map_eq_some_iff.mp h
    cases hstatement
  | evaluateAll es =>
    cases es with
    | nil => cases h
    | cons =>
      cases h
      cases hstatement
  | evaluateOptional o =>
    cases o with
    | none => cases h
    | some =>
      cases h
      cases hstatement
  | invoke | callClosure => cases h
  | execute | executeAll | repeatWhile => rfl

/-- Statements are executed for other statements, and for a call of a function. -/
theorem Calls.of_isStatement (h : Calls host n task m task' m')
    (hstatement : task'.isStatement = true) :
    task.isStatement = true ∨ ∃ f arguments, task = .callClosure f arguments ∧
      task' = .executeAll f.routine.body ∧
        m' = m.entering f arguments := by
  cases h with
  | first hfirst => exact .inl (Task.isStatement_of_first hfirst hstatement)
  | body => exact .inr ⟨_, _, rfl, rfl, rfl⟩
  | block | onTrue | onFalse | forInitial | forLoop | loop | executeRest | round | again =>
    exact .inl rfl
  | second | arguments | invoke | evaluateRest | host | function | initializer | increment =>
    cases hstatement

/-- A call for statements is made within the call that the computation starts with, or within a
call of a function. -/
theorem Visits.within {fuel : Nat} (h : Visits host fuel task m n task' m')
    (hstatement : task'.isStatement = true) :
    (task.isStatement = true ∧ Within host fuel task m n task' m') ∨
      ∃ k f arguments m₀, Visits host fuel task m (k + 1) (.callClosure f arguments) m₀ ∧
        Within host k (.executeAll f.routine.body)
          (m₀.entering f arguments) n task' m' := by
  induction h with
  | refl => exact .inl ⟨hstatement, .refl⟩
  | @step n task₁ task₂ m₁ m₂ hvisits hcalls ih =>
    by_cases htask₁ : task₁.isStatement = true
    · rcases ih htask₁ with ⟨htask, hwithin⟩ | ⟨k, f, arguments, m₀, hcall, hwithin⟩
      · exact .inl ⟨htask, hwithin.step hcalls hstatement⟩
      · exact .inr ⟨k, f, arguments, m₀, hcall, hwithin.step hcalls hstatement⟩
    · obtain ⟨f, arguments, rfl, rfl, rfl⟩ := (hcalls.of_isStatement hstatement).resolve_left htask₁
      exact .inr ⟨n, f, arguments, m₁, hvisits, .refl⟩

end

/-! ### Own statements -/

section

variable {host : Host}

/-- What is executed behind a computation needs that to come to its end. -/
theorem exists_ok_of_mem_executedAfter {α : Type} {out : Result Stop Machine α}
    {rest : α → Machine → List Execution} {x : Execution} (h : x ∈ executedAfter out rest) :
    ∃ a m, x ∈ rest a m := by
  cases out with
  | ok a m => exact ⟨a, m, h⟩
  | error stop m => cases h

mutual

/-- The statements that are executed for a statement are the statement itself or inside of it. -/
theorem mem_own_of_mem_executions : ∀ (n : Nat) (s : Stmt) (m : Machine) {x : Execution},
    x ∈ executions host n s m → x.statement ∈ s :: s.inner
  | 0, s, m, x, hx => by
    rw [List.mem_singleton.mp hx]
    exact List.mem_cons_self
  | n + 1, s, m, x, hx => by
    rcases List.mem_cons.mp hx with rfl | hx
    · exact List.mem_cons_self
    · refine List.mem_cons_of_mem _ ?_
      cases s with
      | block body => exact mem_own_of_mem_executionsAll n body _ hx
      | ifStmt condition onTrue onFalse =>
        obtain ⟨v, m', hx⟩ := exists_ok_of_mem_executedAfter hx
        cases hv : v.isTruthy with
        | true =>
          rw [if_pos hv] at hx
          exact List.mem_append_left _ (mem_own_of_mem_executions n onTrue m' hx)
        | false =>
          rw [if_neg (by simp [hv])] at hx
          cases onFalse with
          | none => cases hx
          | some s => exact List.mem_append_right _ (mem_own_of_mem_executions n s m' hx)
      | whileStmt condition body => exact mem_own_of_mem_executionsWhile n _ _ body m hx
      | forStmt initial condition increment body =>
        cases initial with
        | none => exact mem_own_of_mem_executionsWhile n _ _ body _ hx
        | some s =>
          rcases List.mem_append.mp hx with hx | hx
          · exact List.mem_append_left _ (mem_own_of_mem_executions n s _ hx)
          · obtain ⟨_, m', hx⟩ := exists_ok_of_mem_executedAfter hx
            exact List.mem_append_right _ (mem_own_of_mem_executionsWhile n _ _ body m' hx)
      | _ => cases hx

/-- The statements that are executed for a body belong to it. -/
theorem mem_own_of_mem_executionsAll : ∀ (n : Nat) (ss : List Stmt) (m : Machine) {x : Execution},
    x ∈ executionsAll host n ss m → x.statement ∈ Stmt.ownAll ss
  | n + 1, s :: ss, m, x, hx => by
    rcases List.mem_append.mp hx with hx | hx
    · exact List.mem_append_left _ (mem_own_of_mem_executions n s m hx)
    · obtain ⟨flow, m', hx⟩ := exists_ok_of_mem_executedAfter hx
      cases flow with
      | normal => exact List.mem_append_right _ (mem_own_of_mem_executionsAll n ss m' hx)
      | returned v => cases hx

theorem mem_own_of_mem_executionsWhile : ∀ (n : Nat) (condition increment : Option Expr)
    (body : Stmt) (m : Machine) {x : Execution},
    x ∈ executionsWhile host n condition increment body m → x.statement ∈ body :: body.inner
  | n + 1, condition, increment, body, m, x, hx => by
    obtain ⟨v, m₁, hx⟩ := exists_ok_of_mem_executedAfter hx
    cases hv : v.all Value.isTruthy with
    | false =>
      rw [if_neg (by simp [hv])] at hx
      cases hx
    | true =>
      rw [if_pos hv] at hx
      rcases List.mem_append.mp hx with hx | hx
      · exact mem_own_of_mem_executions n body m₁ hx
      · obtain ⟨flow, m₂, hx⟩ := exists_ok_of_mem_executedAfter hx
        cases flow with
        | returned v => cases hx
        | normal =>
          obtain ⟨_, m₃, hx⟩ := exists_ok_of_mem_executedAfter hx
          exact mem_own_of_mem_executionsWhile n condition increment body m₃ hx

end

end

/-! ## Sessions -/

section

variable {known : Recorded} {tidy : Bool}

mutual

/-- Programs that pass the walk have statements only where statements may stand. -/
theorem Stmt.Fits.shaped : ∀ {s : Stmt} {Γ : Scopes}, s.Fits known tidy Γ → s.Shaped
  | .exprStmt _, _, _ | .printStmt _, _, _ | .varDecl _ _, _, _ | .returnStmt _ _, _, _ => trivial
  | .block _, _, h => Stmt.AllFits.shaped h
  | .ifStmt _ _ _, _, ⟨_, ⟨hplain, htrue⟩, hplain', hfalse⟩ =>
    ⟨⟨hplain, htrue.shaped⟩, hplain', Stmt.OptionFits.shaped hfalse⟩
  | .whileStmt _ _, _, ⟨_, hplain, hbody⟩ => ⟨hplain, hbody.shaped⟩
  | .forStmt _ _ _ _, _, ⟨⟨hclause, hinitial⟩, _, _, hplain, hbody⟩ =>
    ⟨⟨hclause, Stmt.OptionFits.shaped hinitial⟩, hplain, hbody.shaped⟩
  | .funDecl _, _, ⟨_, h⟩ => h.shaped
  | .classDecl _ _, _, ⟨_, h⟩ => Routine.AllFits.shaped h

theorem Stmt.AllFits.shaped : ∀ {ss : List Stmt} {Γ : Scopes}, Stmt.AllFits known tidy ss Γ →
    Stmt.AllShaped ss
  | [], _, _ => trivial
  | _ :: _, _, ⟨hs, hss⟩ => ⟨hs.shaped, Stmt.AllFits.shaped hss⟩

theorem Stmt.OptionFits.shaped : ∀ {o : Option Stmt} {Γ : Scopes},
    Stmt.OptionFits known tidy o Γ → Stmt.OptionShaped o
  | none, _, _ => trivial
  | some s, _, h => Stmt.Fits.shaped (s := s) h

theorem Routine.Fits.shaped : ∀ {r : Routine} {Γ : Scopes}, r.Fits known tidy Γ → r.Shaped
  | ⟨_, _, _⟩, _, ⟨_, h⟩ => h.shaped

theorem Routine.AllFits.shaped : ∀ {rs : List Routine} {Γ : Scopes},
    Routine.AllFits known tidy rs Γ → Routine.AllShaped rs
  | [], _, _ => trivial
  | _ :: _, _, ⟨hr, hrs⟩ => ⟨hr.shaped, Routine.AllFits.shaped hrs⟩

end

end

section

variable {host : Host} {s : Session} {source : String} {fuel : Nat}

/-- In a function that is called no `return` stands first in a `for`. -/
theorem Lexical.Sound.shaped_body {f : Closure} {arguments : List Value} {m : Machine}
    (h : Lexical.Sound (.callClosure f arguments) m) : Stmt.AllShaped f.routine.body := by
  obtain ⟨W, state, -, hfitting⟩ := h
  cases hfitting with
  | callClosure hf =>
    obtain ⟨Γ, -, hfits, -⟩ := hf
    exact (Routine.fits_iff.mp hfits).2.shaped

/-- A `return` that comes to a value is the last of the executions, and ends the computation. -/
theorem Concludes.last {xs before after : List Execution} {x : Execution} {v : Value} {m : Machine}
    {out : Result Stop Machine Flow} (h : Concludes host xs out) (hxs : xs = before ++ x :: after)
    (hx : x.Returns host v m) :
    after = [] ∧ ∃ r, out = .ok (.returned v) { m with scope := r } := by
  have hmem : x ∈ xs := hxs ▸ List.mem_append_right _ List.mem_cons_self
  cases h with
  | unreturned h => exact absurd hx (h x hmem v m)
  | @returned ys y u m' h hy r =>
    rcases List.eq_nil_or_concat after with rfl | ⟨rest, z, rfl⟩
    · obtain ⟨-, hxy⟩ := List.append_inj' hxs rfl
      cases hxy
      cases hx.2.symm.trans hy.2
      exact ⟨rfl, r, rfl⟩
    · -- `x` would come before the last one
      have hys : ys = before ++ x :: rest := by
        have hsplit : ys ++ [y] = (before ++ x :: rest) ++ [z] := by simpa using hxs
        exact (List.append_inj' hsplit rfl).1
      exact absurd hx (h x (hys ▸ List.mem_append_right _ List.mem_cons_self) v m)

/-- The frame from before is current again behind a computation in another frame. -/
theorem Eval.inFrame_of_ok {α : Type} {r : FrameRef} {run : Eval α} {m m' : Machine} {a : α}
    (h : run { m with scope := r } = .ok a m') :
    Eval.inFrame r run m = .ok a { m' with scope := m.scope } := by
  unfold Eval.inFrame
  dsimp only
  rw [h]

/-- A call ends with what its body returned. -/
theorem callClosure_of_returned {k : Nat} {f : Closure} {arguments : List Value} {v : Value}
    {m m' : Machine} {r : FrameRef}
    (h : executeAll host k f.routine.body (m.entering f arguments) =
      .ok (.returned v) { m' with scope := r }) :
    callClosure host (k + 1) f arguments m =
      Eval.callResult f (.returned v) { m' with scope := m.scope } := by
  change EStateM.bind (Eval.inFrame m.store.frames.size (executeAll host k f.routine.body))
    (Eval.callResult f) { m with store := _ } = _
  unfold EStateM.bind
  rw [Eval.inFrame_of_ok h]

/-- A function that is no initializer gives the value that its body returned. -/
theorem callResult_of_returned {f : Closure} (hf : f.isInitializer = false) (v : Value)
    (m : Machine) : Eval.callResult f (.returned v) m = .ok v m := by
  unfold Eval.callResult
  rw [hf]
  rfl

/-- A statement at the top of a program ends normally. -/
theorem Reaches.normal {ss : List Stmt} {t : Stmt} {m m' m'' : Machine} {flow : Flow}
    (h : Reaches host fuel ss m t m') (hshaped : Stmt.AllShaped ss)
    (hclean : (resolve ss).faults = []) (hend : execute host fuel t m' = .ok flow m'') :
    flow = .normal := by
  have hconcludes := (concludesAt host fuel).execute (m := m') (hshaped.of_mem h.mem)
  rw [hend] at hconcludes
  generalize hxs : executions host fuel t m' = xs at hconcludes
  cases hconcludes with
  | unreturned _ hout =>
    cases flow with
    | normal => rfl
    | returned v => exact absurd rfl (hout v m'')
  | @returned ys x v m₁ _ hx r =>
    obtain ⟨⟨keyword, value, hreturn⟩, -⟩ := hx
    have hown := mem_own_of_mem_executions fuel t m' (hxs ▸ List.mem_append_right ys List.mem_cons_self)
    rw [hreturn] at hown
    exact absurd (Stmt.mem_ownAll h.mem hown) (returnStmt_not_mem_ownAll hshaped hclean _ _)

/-- A `return` that is executed at some point of a session is executed in a call. -/
theorem Session.Point.exists_call {n : Nat} {keyword : Token} {value : Option Expr} {m : Machine}
    (h : s.Point host source fuel n (.execute (.returnStmt keyword value)) m) :
    ∃ k f arguments m₀, s.Point host source fuel (k + 1) (.callClosure f arguments) m₀ ∧
      Within host k (.executeAll f.routine.body) (m₀.entering f arguments) n
        (.execute (.returnStmt keyword value)) m := by
  cases h with
  | @run t _ _ m₁ _ hexecutes hreaches hvisits =>
    rcases hvisits.within rfl with ⟨-, hwithin⟩ | ⟨k, f, arguments, m₀, hcall, hwithin⟩
    · have hown := mem_own_of_mem_executions fuel t m₁ (hwithin.mem_executions rfl)
      exact absurd (Stmt.mem_ownAll hreaches.mem hown)
        (returnStmt_not_mem_ownAll (shaped_parse _ _) hexecutes.2 _ _)
    · exact ⟨k, f, arguments, m₀, .run hexecutes hreaches hcall, hwithin⟩
  | evaluate hread hvisits =>
    rcases hvisits.within rfl with ⟨htask, -⟩ | ⟨k, f, arguments, m₀, hcall, hwithin⟩
    · cases htask
    · exact ⟨k, f, arguments, m₀, .evaluate hread hcall, hwithin⟩

/-- **A `return` ends just the call that it belongs to.** In every session: each statement at the top
of a program that ends without a fault ends normally, so no `return` is lost there. And each `return`
that is executed, at whatever point, is executed in a call of a function to whose body it belongs,
with no other function entered between. Once it has come to a value it is the last statement that
the call executes, and the call ends there: with that value, unless the function is an initializer,
which gives its instance. -/
theorem returns_end_their_call (hhost : host.LeavesScopes) (h : s.Reached host) (source : String)
    (fuel : Nat) :
    (s.Executes source → ∀ {t m flow m'},
      Reaches host fuel (s.read source).statements (s.prepared source) t m →
        execute host fuel t m = .ok flow m' → flow = .normal) ∧
    ∀ {n keyword value m}, s.Point host source fuel n (.execute (.returnStmt keyword value)) m →
      ∃ k f arguments m₀ before after,
        s.Point host source fuel (k + 1) (.callClosure f arguments) m₀ ∧
        Within host k (.executeAll f.routine.body) (m₀.entering f arguments) n
          (.execute (.returnStmt keyword value)) m ∧
        .returnStmt keyword value ∈ Stmt.ownAll f.routine.body ∧
        executionsAll host k f.routine.body (m₀.entering f arguments) =
          before ++ ⟨n, .returnStmt keyword value, m⟩ :: after ∧
        (∀ {n' t m'}, Within host k (.executeAll f.routine.body) (m₀.entering f arguments) n'
            (.execute t) m' →
          ⟨n', t, m'⟩ ∈ before ++ ⟨n, .returnStmt keyword value, m⟩ :: after) ∧
        ∀ {v m'}, execute host n (.returnStmt keyword value) m = .ok (.returned v) m' →
          after = [] ∧
          callClosure host (k + 1) f arguments m₀ =
            Eval.callResult f (.returned v) { m' with scope := m₀.scope } ∧
          (f.isInitializer = false → callClosure host (k + 1) f arguments m₀ =
            .ok v { m' with scope := m₀.scope }) := by
  have hsimulates := Lexical.hostSimulates_of_leavesScopes hhost .silent
  obtain ⟨state, hstate⟩ := Lexical.Reached.corresponds hsimulates h
  refine ⟨fun hexecutes _ _ _ _ hreaches hend => ?_, fun {n keyword value m} hpoint => ?_⟩
  · exact hreaches.normal (shaped_parse _ _) hexecutes.2 hend
  · obtain ⟨k, f, arguments, m₀, hcall, hwithin⟩ := hpoint.exists_call
    have hmem := hwithin.mem_executions rfl
    obtain ⟨before, after, hsplit⟩ := List.append_of_mem hmem
    refine ⟨k, f, arguments, m₀, before, after, hcall, hwithin, ?_, hsplit, ?_, ?_⟩
    · exact mem_own_of_mem_executionsAll k _ _ hmem
    · intro n' t m' hother
      exact hsplit ▸ hother.mem_executions rfl
    · intro v m' hreturned
      -- The body was read by the parser, so no clause of a loop in it can return.
      have hshaped := (Lexical.Point.sound hsimulates hstate hcall).shaped_body
      obtain ⟨hlast, r, hbody⟩ := ((concludesAt host k).executeAll hshaped).last hsplit
        ⟨⟨keyword, value, rfl⟩, hreturned⟩
      have hcallEnd := callClosure_of_returned hbody
      exact ⟨hlast, hcallEnd, fun hf => hcallEnd.trans (callResult_of_returned hf v _)⟩

/-- A function that returns from a block in a loop. -/
def loopingSource : String := "fun f() { while (true) { return true; } } f();"

/-- The statement `return true;`. -/
def returnsTrue : Stmt :=
  .returnStmt ⟨.returnWord, "return", none, 1⟩ (some (.constant (.bool true)))

/-- The function `f` as it is read. -/
def loopingRoutine : Routine :=
  ⟨⟨.identifier, "f", none, 1⟩, [], [.whileStmt (.constant (.bool true)) (.block [returnsTrue])]⟩

/-- The machine behind the declaration of a function. -/
def Machine.declaring (m : Machine) (r : Routine) : Machine :=
  { m with
    store := m.store.define m.scope r.name.lexeme (.function m.nextObject (r.closure m.scope))
    nextObject := m.nextObject + 1 }

theorem execute_funDecl (host : Host) (n : Nat) (r : Routine) (m : Machine) :
    execute host (n + 1) (.funDecl r) m = .ok .normal (m.declaring r) := rfl

/-- The call `f()`. -/
def callsLooping : Expr :=
  .call (.var 0 ⟨.identifier, "f", none, 1⟩) ⟨.rightParen, ")", none, 1⟩ []

/-- The call comes to the `return` in the block in the loop. -/
theorem visits_looping {id : ObjectId} {r : FrameRef} {m : Machine}
    (hf : evaluate host 18 (.var 0 ⟨.identifier, "f", none, 1⟩) m =
      .ok (.function id (loopingRoutine.closure r)) m) :
    ∃ m', Visits host 20 (.execute (.exprStmt callsLooping)) m 11 (.execute returnsTrue) m' :=
  ⟨_, Visits.refl.step (.first rfl) |>.step (.invoke hf rfl) |>.step (.function rfl)
    |>.step .body |>.step (.first rfl) |>.step (.first rfl)
    |>.step (.round (v := some (.bool true)) rfl rfl) |>.step .block |>.step (.first rfl)⟩

/-- The machine behind the declaration of `f`. -/
def behindLooping : Machine :=
  ((Session.start false none).prepared loopingSource).declaring loopingRoutine

/-- A call of `f` executes the `return` last and ends with its value. -/
theorem returns_end_their_call_from_loop :
    let host := Library.host fun _ => 0
    let s := Session.start false none
    host.LeavesScopes ∧ s.Reached host ∧
    ∃ m k f arguments m₀ before, s.Point host loopingSource 20 11 (.execute returnsTrue) m ∧
      s.Point host loopingSource 20 (k + 1) (.callClosure f arguments) m₀ ∧
      executionsAll host k f.routine.body (m₀.entering f arguments) =
        before ++ [⟨11, returnsTrue, m⟩] ∧
      callClosure host (k + 1) f arguments m₀ =
        Eval.callResult f (.returned (.bool true)) { m with scope := m₀.scope } ∧
      (f.isInitializer = false → callClosure host (k + 1) f arguments m₀ =
        .ok (.bool true) { m with scope := m₀.scope }) := by
  intro host s
  have hhost : host.LeavesScopes := Library.leavesScopes fun _ => 0
  have hreached : s.Reached host := .start false none
  have hexecutes : s.Executes loopingSource := by decide +kernel
  have hread : (s.read loopingSource).statements =
      [.funDecl loopingRoutine, .exprStmt callsLooping] := by cbv
  have hreaches : Reaches host 20 (s.read loopingSource).statements (s.prepared loopingSource)
      (.exprStmt callsLooping) behindLooping := by
    rw [hread]
    exact .later (execute_funDecl host 19 _ _) .here
  have hlocal : behindLooping.store.local? behindLooping.globals "f" =
      some (.function 1 (loopingRoutine.closure 0)) :=
    Store.local?_define_self _ 0 "f" _ (by decide +kernel)
  have hget : behindLooping.store.get behindLooping.globals "f" =
      .ok (.function 1 (loopingRoutine.closure 0)) :=
    (Store.get_of_root _ (by decide +kernel) (by decide +kernel)).trans (by rw [hlocal]; rfl)
  obtain ⟨m', hvisits⟩ := visits_looping (lookUp_of_global (by decide +kernel) hget)
  have hpoint : s.Point host loopingSource 20 11 (.execute returnsTrue) m' :=
    .run hexecutes hreaches hvisits
  obtain ⟨k, f, arguments, m₀, before, after, hcall, -, -, hsplit, -, hend⟩ :=
    (returns_end_their_call hhost hreached loopingSource 20).2 hpoint
  have hreturned : execute host 11 returnsTrue m' = .ok (.returned (.bool true)) m' := rfl
  obtain ⟨rfl, hcallEnd⟩ := hend hreturned
  exact ⟨hhost, hreached, m', k, f, arguments, m₀, before, hpoint, hcall, hsplit, hcallEnd⟩

end

end LoxLang
