import Mathlib
import LoxLang.Proofs.Run.Hosts
import LoxLang.Store.Lemmas

/-!
# Proofs/Run/Calls — the calls of a run

The evaluators call each other, each time with less fuel. `Calls` says which call is made next and
on which machine; the calls that are reached so from the statements of a program (`Reaches`,
`Visits`) are the points of its execution.

A call that stops stops all those that it was made for (`Leads.stops`).
-/

namespace LoxLang

/-- The state in which a computation ended. -/
def endOf {ε σ α : Type} : EStateM.Result ε σ α → σ
  | .ok _ s | .error _ s => s

/-- A call of one of the evaluators. -/
inductive Task where
  | evaluate (e : Expr)
  | evaluateAll (es : List Expr)
  | invoke (callee : Value) (line : Nat) (arguments : List Value)
  | callClosure (f : Closure) (arguments : List Value)
  | execute (s : Stmt)
  | evaluateOptional (e : Option Expr)
  | executeAll (ss : List Stmt)
  | repeatWhile (condition increment : Option Expr) (body : Stmt)

/-- The expression is a use of a name. -/
inductive Expr.Uses (id : NodeId) (name : Token) : Expr → Prop
  | var : Uses id name (.var id name)
  | this : Uses id name (.this id name)

/-- The expression that is evaluated first. -/
def Expr.first : Expr → Option Expr
  | .grouping e | .unary _ e | .binary e _ _ | .logical e _ _ | .conditional e _ _
  | .assign _ _ e | .call e _ _ | .get e _ | .set e _ _ => some e
  | .constant _ | .var _ _ | .this _ _ => none

/-- The expression that is evaluated next, behind a first one of value `v`. -/
def Expr.second (v : Value) : Expr → Option Expr
  | .binary _ _ right => some right
  | .logical _ operator right =>
    match operator.kind, v.isTruthy with
    | .orWord, true | .andWord, false => none
    | _, _ => some right
  | .conditional _ onTrue onFalse => some (if v.isTruthy then onTrue else onFalse)
  | .set _ _ value =>
    match v with
    | .object _ => some value
    | _ => none
  | _ => none

namespace Task

/-- The computation that a call stands for, without its result. -/
def run (host : Host) (n : Nat) : Task → Eval Unit
  | evaluate e => Functor.discard (LoxLang.evaluate host n e)
  | evaluateAll es => Functor.discard (LoxLang.evaluateAll host n es)
  | invoke callee line arguments => Functor.discard (LoxLang.invoke host n callee line arguments)
  | callClosure f arguments => Functor.discard (LoxLang.callClosure host n f arguments)
  | execute s => Functor.discard (LoxLang.execute host n s)
  | evaluateOptional e => Functor.discard (LoxLang.evaluateOptional host n e)
  | executeAll ss => Functor.discard (LoxLang.executeAll host n ss)
  | repeatWhile condition increment body =>
    Functor.discard (LoxLang.repeatWhile host n condition increment body)

/-- The call that is made at once, on the same machine. -/
def first : Task → Option Task
  | evaluate e => e.first.map evaluate
  | evaluateAll (e :: _) => some (evaluate e)
  | execute (.exprStmt e) | execute (.printStmt e) | execute (.ifStmt e _ _) => some (evaluate e)
  | execute (.varDecl _ e) | execute (.returnStmt _ e) => some (evaluateOptional e)
  | execute (.whileStmt condition body) => some (repeatWhile (some condition) none body)
  | evaluateOptional (some e) => some (evaluate e)
  | executeAll (s :: _) => some (execute s)
  | repeatWhile (some condition) _ _ => some (evaluate condition)
  | _ => none

end Task

/-- The machine in a new frame. -/
def Machine.inside (m : Machine) (names : Std.TreeMap String Value) (enclosing : FrameRef) :
    Machine :=
  { m with
    store := (m.store.newFrame names (some enclosing)).2
    scope := m.store.frames.size }

/-- The value of an expression that may be left out. -/
def evaluateIfAny (host : Host) (n : Nat) : Option Expr → Eval (Option Value)
  | some e => some <$> evaluate host n e
  | none => pure none

/-- One round of a loop, and the rounds behind it. -/
def loopRound (host : Host) (n : Nat) (condition increment : Option Expr) (body : Stmt) :
    Eval Flow := do
  match ← execute host n body with
  | .returned v => return .returned v
  | .normal =>
    let _ ← evaluateIfAny host n increment
    repeatWhile host n condition increment body

/-- A loop tests its condition and then goes through a round, however the condition or the increment
is left out. -/
theorem repeatWhile_eq_round (host : Host) (n : Nat) (condition increment : Option Expr)
    (body : Stmt) : repeatWhile host (n + 1) condition increment body = (do
      let v ← evaluateIfAny host n condition
      if v.all Value.isTruthy then loopRound host n condition increment body
      else return .normal) := by
  have hround : loopRound host n condition increment body = (do
      match ← execute host n body with
      | .returned v => return .returned v
      | .normal =>
        match increment with
        | some e => let _ ← evaluate host n e
        | none => pure ()
        repeatWhile host n condition increment body) := by
    cases increment with
    | none => rfl
    | some e => simp only [loopRound, evaluateIfAny, bind_map_left]
  rw [hround]
  cases condition with
  | none => rfl
  | some e =>
    refine Eq.symm ((bind_map_left some (evaluate host n e) _).trans (Eq.symm ?_))
    exact bind_map_left Value.isTruthy (evaluate host n e) _

/-- The second operand is evaluated if the first does not decide. -/
theorem evaluate_logical (host : Host) (n : Nat) (left : Expr) (operator : Token) (right : Expr) :
    evaluate host (n + 1) (.logical left operator right) = (do
      let a ← evaluate host n left
      (Expr.second a (.logical left operator right)).elim (pure (.bool a.isTruthy)) fun e => do
        return .bool (← evaluate host n e).isTruthy) := by
  simp only [evaluate]
  congr
  funext a
  simp only [Expr.second]
  split <;> simp_all

/-- **The calls that a call makes**: with fuel `n + 1` the first call on its machine makes the
second one, with fuel `n`. A host function may evaluate whatever it can come to by its steps. -/
inductive Calls (host : Host) (n : Nat) : Task → Machine → Task → Machine → Prop
  | first {task task' : Task} {m : Machine} (h : task.first = some task') :
      Calls host n task m task' m
  | second {e e₁ e₂ : Expr} {v : Value} {m m' : Machine} (hfirst : e.first = some e₁)
      (h : evaluate host n e₁ m = .ok v m') (hsecond : e.second v = some e₂) :
      Calls host n (.evaluate e) m (.evaluate e₂) m'
  | arguments {callee : Expr} {paren : Token} {arguments : List Expr} {f : Value}
      {m m' : Machine} (h : evaluate host n callee m = .ok f m') :
      Calls host n (.evaluate (.call callee paren arguments)) m (.evaluateAll arguments) m'
  | invoke {callee : Expr} {paren : Token} {arguments : List Expr} {f : Value} {vs : List Value}
      {m m' m'' : Machine} (h : evaluate host n callee m = .ok f m')
      (h' : evaluateAll host n arguments m' = .ok vs m'') :
      Calls host n (.evaluate (.call callee paren arguments)) m (.invoke f paren.line vs) m''
  | evaluateRest {e : Expr} {es : List Expr} {v : Value} {m m' : Machine}
      (h : evaluate host n e m = .ok v m') :
      Calls host n (.evaluateAll (e :: es)) m (.evaluateAll es) m'
  | host {id : ObjectId} {f : HostFunction} {line : Nat} {arguments : List Value} {hand : Hand}
      {e : Expr} {m m' : Machine} (hlength : arguments.length = f.arity)
      (h : HostPath (evaluate host n) ⟨arguments, []⟩ m hand m') (howns : hand.Owns e) :
      Calls host n (.invoke (.host id f) line arguments) m (.evaluate e) m'
  | function {id : ObjectId} {f : Closure} {line : Nat} {arguments : List Value} {m : Machine}
      (hlength : arguments.length = f.arity) :
      Calls host n (.invoke (.function id f) line arguments) m (.callClosure f arguments) m
  | initializer {c : Class} {method bound : Closure} {line : Nat} {arguments : List Value}
      {m m' : Machine} (hlength : arguments.length = c.arity)
      (hmethod : c.methods[initializerName]? = some method)
      (h : (Eval.newInstance c >>= Eval.bindMethod method) m = .ok bound m') :
      Calls host n (.invoke (.cls c) line arguments) m (.callClosure bound arguments) m'
  | body {f : Closure} {arguments : List Value} {m : Machine} :
      Calls host n (.callClosure f arguments) m (.executeAll f.routine.body)
        (m.inside (argumentNames f.routine.parameters arguments) f.scope)
  | block {ss : List Stmt} {m : Machine} :
      Calls host n (.execute (.block ss)) m (.executeAll ss) (m.inside ∅ m.scope)
  | onTrue {condition : Expr} {onTrue : Stmt} {onFalse : Option Stmt} {v : Value} {m m' : Machine}
      (h : evaluate host n condition m = .ok v m') (hv : v.isTruthy = true) :
      Calls host n (.execute (.ifStmt condition onTrue onFalse)) m (.execute onTrue) m'
  | onFalse {condition : Expr} {onTrue onFalse : Stmt} {v : Value} {m m' : Machine}
      (h : evaluate host n condition m = .ok v m') (hv : v.isTruthy = false) :
      Calls host n (.execute (.ifStmt condition onTrue (some onFalse))) m (.execute onFalse) m'
  | forInitial {s : Stmt} {condition increment : Option Expr} {body : Stmt} {m : Machine} :
      Calls host n (.execute (.forStmt (some s) condition increment body)) m (.execute s)
        (m.inside ∅ m.scope)
  | forLoop {s : Stmt} {condition increment : Option Expr} {body : Stmt} {flow : Flow}
      {m m' : Machine} (h : execute host n s (m.inside ∅ m.scope) = .ok flow m') :
      Calls host n (.execute (.forStmt (some s) condition increment body)) m
        (.repeatWhile condition increment body) m'
  | loop {condition increment : Option Expr} {body : Stmt} {m : Machine} :
      Calls host n (.execute (.forStmt none condition increment body)) m
        (.repeatWhile condition increment body) (m.inside ∅ m.scope)
  | executeRest {s : Stmt} {ss : List Stmt} {m m' : Machine}
      (h : execute host n s m = .ok .normal m') :
      Calls host n (.executeAll (s :: ss)) m (.executeAll ss) m'
  | round {condition increment : Option Expr} {body : Stmt} {v : Option Value} {m m' : Machine}
      (h : evaluateIfAny host n condition m = .ok v m') (hv : v.all Value.isTruthy = true) :
      Calls host n (.repeatWhile condition increment body) m (.execute body) m'
  | increment {condition : Option Expr} {e : Expr} {body : Stmt} {v : Option Value}
      {m m' m'' : Machine} (h : evaluateIfAny host n condition m = .ok v m')
      (hv : v.all Value.isTruthy = true) (hbody : execute host n body m' = .ok .normal m'') :
      Calls host n (.repeatWhile condition (some e) body) m (.evaluate e) m''
  | again {condition increment : Option Expr} {body : Stmt} {v u : Option Value}
      {m m₁ m₂ m₃ : Machine} (h : evaluateIfAny host n condition m = .ok v m₁)
      (hv : v.all Value.isTruthy = true) (hbody : execute host n body m₁ = .ok .normal m₂)
      (hincrement : evaluateIfAny host n increment m₂ = .ok u m₃) :
      Calls host n (.repeatWhile condition increment body) m
        (.repeatWhile condition increment body) m₃

/-- The calls that a call makes, those that they make, and so on. -/
inductive Visits (host : Host) (fuel : Nat) (task : Task) (m : Machine) :
    Nat → Task → Machine → Prop
  | refl : Visits host fuel task m fuel task m
  | step {n : Nat} {task₁ task₂ : Task} {m₁ m₂ : Machine}
      (h : Visits host fuel task m (n + 1) task₁ m₁) (hcalls : Calls host n task₁ m₁ task₂ m₂) :
      Visits host fuel task m n task₂ m₂

/-- The call is one of a host function. -/
def Task.isHost : Task → Bool
  | .invoke (.host _ _) _ _ => true
  | _ => false

/-- The calls that a call makes, those that they make, and so on. What a host function evaluates is
not among them. -/
inductive Leads (host : Host) (fuel : Nat) (task : Task) (m : Machine) :
    Nat → Task → Machine → Prop
  | refl : Leads host fuel task m fuel task m
  | step {n : Nat} {task₁ task₂ : Task} {m₁ m₂ : Machine}
      (h : Leads host fuel task m (n + 1) task₁ m₁) (htask : task₁.isHost = false)
      (hcalls : Calls host n task₁ m₁ task₂ m₂) : Leads host fuel task m n task₂ m₂

/-- A call that is made first. -/
theorem Leads.after {host : Host} {fuel n : Nat} {task task₁ task₂ : Task} {m m₁ m₂ : Machine}
    (htask : task.isHost = false) (hcalls : Calls host fuel task m task₁ m₁)
    (h : Leads host fuel task₁ m₁ n task₂ m₂) : Leads host (fuel + 1) task m n task₂ m₂ := by
  induction h with
  | refl => exact .step .refl htask hcalls
  | step _ htask hnext ih => exact .step ih htask hnext

/-- What a call leads to without host functions is visited by it. -/
theorem Leads.visits {host : Host} {fuel n : Nat} {task task' : Task} {m m' : Machine}
    (h : Leads host fuel task m n task' m') : Visits host fuel task m n task' m' := by
  induction h with
  | refl => exact .refl
  | step _ _ hcalls ih => exact ih.step hcalls

/-- A statement of a program, and the machine on which it is executed. -/
inductive Reaches (host : Host) (fuel : Nat) : List Stmt → Machine → Stmt → Machine → Prop
  | here {s : Stmt} {ss : List Stmt} {m : Machine} : Reaches host fuel (s :: ss) m s m
  | later {s t : Stmt} {ss : List Stmt} {flow : Flow} {m m' m'' : Machine}
      (h : execute host fuel s m = .ok flow m') (hlater : Reaches host fuel ss m' t m'') :
      Reaches host fuel (s :: ss) m t m''

/-- What is reached in a program is one of its statements. -/
theorem Reaches.mem {host : Host} {fuel : Nat} {ss : List Stmt} {t : Stmt}
    {m m' : Machine}
    (h : Reaches host fuel ss m t m') : t ∈ ss := by
  induction h with
  | here => exact List.mem_cons_self
  | later _ _ ih => exact List.mem_cons_of_mem _ ih

/-- A program goes on behind a statement that ends, and stops at the top where one does not. -/
theorem executeProgram_cons (host : Host) (fuel : Nat) (s : Stmt) (ss : List Stmt) (m : Machine) :
    executeProgram host fuel (s :: ss) m = match execute host fuel s m with
      | .ok _ m' => executeProgram host fuel ss m'
      | .error stop m' => .error stop { m' with scope := m'.globals } := by
  simp only [executeProgram]
  change EStateM.bind (EStateM.tryCatch (EStateM.bind (execute host fuel s) _) _) _ m = _
  simp only [EStateM.bind, EStateM.tryCatch]
  cases execute host fuel s m <;> rfl

/-! ## Stops -/

variable {α β : Type} {host : Host} {n : Nat} {task task' : Task} {m m' : Machine} {stop : Stop}

/-- The computation stops on this machine. -/
def Eval.Stops (x : Eval α) (m : Machine) (stop : Stop) : Prop :=
  ∃ m', x m = .error stop m'

namespace Eval.Stops

variable {x : Eval α}

/-- What follows a computation that stops is not reached. -/
theorem bind (h : x.Stops m stop) (f : α → Eval β) : (x >>= f).Stops m stop := by
  obtain ⟨m', hx⟩ := h
  refine ⟨m', ?_⟩
  change EStateM.bind x f m = _
  rw [EStateM.bind, hx]

/-- A stop behind a computation that ends. -/
theorem behind {f : α → Eval β} {a : α} (hx : x m = .ok a m') (h : (f a).Stops m' stop) :
    (x >>= f).Stops m stop := by
  obtain ⟨m'', hf⟩ := h
  refine ⟨m'', ?_⟩
  change EStateM.bind x f m = _
  rw [EStateM.bind, hx]
  exact hf

theorem map (h : x.Stops m stop) (f : α → β) : (f <$> x).Stops m stop := by
  rw [← bind_pure_comp]
  exact h.bind _

theorem of_map {f : α → β} (h : (f <$> x).Stops m stop) : x.Stops m stop := by
  obtain ⟨m', hx⟩ := h
  change EStateM.map f x m = _ at hx
  unfold EStateM.map at hx
  split at hx
  · cases hx
  · next hstop =>
    cases hx
    exact ⟨_, hstop⟩

/-- A computation that stops in another frame stops. -/
theorem inFrame {r : FrameRef} (h : x.Stops { m with scope := r } stop) :
    (Eval.inFrame r x).Stops m stop := by
  obtain ⟨m', hx⟩ := h
  exact ⟨{ m' with scope := m.scope }, by rw [Eval.inFrame, hx]⟩

theorem inNewFrame (h : x.Stops (m.inside ∅ m.scope) stop) : (Eval.inNewFrame x).Stops m stop :=
  inFrame (m := { m with store := (m.store.newFrame ∅ (some m.scope)).2 }) h

end Eval.Stops

/-- The value of an expression waits for that of its first part. -/
theorem evaluate_first (host : Host) (n : Nat) {e e₁ : Expr} (h : e.first = some e₁) :
    ∃ f, evaluate host (n + 1) e = evaluate host n e₁ >>= f := by
  cases e with
  | constant | var | this => cases h
  | grouping =>
    cases h
    exact ⟨pure, (bind_pure _).symm⟩
  | unary | binary | logical | conditional | assign | call | get | set =>
    cases h
    exact ⟨_, rfl⟩

/-- A call that is made at once. -/
theorem Task.first_stops (hfirst : task.first = some task')
    (h : (task'.run host n).Stops m stop) : (task.run host (n + 1)).Stops m stop := by
  cases task with
  | evaluate e =>
    obtain ⟨e₁, he₁, rfl⟩ := Option.map_eq_some_iff.mp hfirst
    obtain ⟨f, hf⟩ := evaluate_first host n he₁
    have hevaluate : (LoxLang.evaluate host (n + 1) e).Stops m stop := hf ▸ h.of_map.bind f
    exact hevaluate.map _
  | evaluateAll es =>
    cases es with
    | nil => cases hfirst
    | cons e es =>
      cases hfirst
      exact (h.of_map.bind _).map _
  | invoke | callClosure => cases hfirst
  | execute s =>
    cases s with
    | exprStmt | printStmt | varDecl | ifStmt | returnStmt =>
      cases hfirst
      exact (h.of_map.bind _).map _
    | whileStmt =>
      cases hfirst
      exact h
    | block | forStmt | funDecl | classDecl => cases hfirst
  | evaluateOptional o =>
    cases o with
    | none => cases hfirst
    | some e =>
      cases hfirst
      exact h
  | executeAll ss =>
    cases ss with
    | nil => cases hfirst
    | cons s ss =>
      cases hfirst
      exact (h.of_map.bind _).map _
  | repeatWhile condition increment body =>
    cases condition with
    | none => cases hfirst
    | some e =>
      cases hfirst
      exact ((h.of_map.map _).bind _).map _

/-- The second part of an expression is evaluated behind the first. -/
theorem evaluate_second {e e₁ e₂ : Expr} {v : Value} (hfirst : e.first = some e₁)
    (hvalue : evaluate host n e₁ m = .ok v m') (hsecond : e.second v = some e₂)
    (h : (evaluate host n e₂).Stops m' stop) : (evaluate host (n + 1) e).Stops m stop := by
  cases e with simp only [evaluate]
  | binary =>
    cases hfirst
    cases hsecond
    exact .behind hvalue (h.bind _)
  | logical left operator right =>
    cases hfirst
    refine .behind hvalue ?_
    split
    · next hkind htruthy => simp [Expr.second, hkind, htruthy] at hsecond
    · next hkind htruthy => simp [Expr.second, hkind, htruthy] at hsecond
    · simp only [Expr.second] at hsecond
      cases hsecond
      exact h.bind _
  | conditional condition onTrue onFalse =>
    cases hfirst
    refine .behind hvalue ?_
    cases hsecond
    split
    · next htruthy => rwa [if_pos htruthy] at h
    · next hfalsy => rwa [if_neg hfalsy] at h
  | set object name value =>
    cases hfirst
    refine .behind hvalue ?_
    simp only [Expr.second] at hsecond
    split at hsecond <;> cases hsecond
    exact h.bind _
  | _ => cases hsecond

/-- A loop stops in a round. -/
theorem repeatWhile_stops {condition increment : Option Expr} {body : Stmt} {v : Option Value}
    (hvalue : evaluateIfAny host n condition m = .ok v m') (htruthy : v.all Value.isTruthy = true)
    (h : (loopRound host n condition increment body).Stops m' stop) :
    (repeatWhile host (n + 1) condition increment body).Stops m stop := by
  rw [repeatWhile_eq_round]
  refine .behind hvalue ?_
  rw [if_pos htruthy]
  exact h

/-- **A stop of a call is one of the call that made it**, host functions aside. -/
theorem Calls.stops (hcalls : Calls host n task m task' m') (htask : task.isHost = false)
    (h : (task'.run host n).Stops m' stop) : (task.run host (n + 1)).Stops m stop := by
  cases hcalls with
  | first hfirst => exact Task.first_stops hfirst h
  | second hfirst hvalue hsecond => exact (evaluate_second hfirst hvalue hsecond h.of_map).map _
  | arguments hcallee => exact (Eval.Stops.behind hcallee (h.of_map.bind _)).map _
  | invoke hcallee harguments =>
    exact (Eval.Stops.behind hcallee (.behind harguments h.of_map)).map _
  | evaluateRest hvalue => exact (Eval.Stops.behind hvalue (h.of_map.bind _)).map _
  | host => cases htask
  | @function id f line arguments m hlength =>
    have harity : Eval.checkArity line f.arity arguments m = .ok () m := by
      rw [Eval.checkArity, if_pos hlength]
      rfl
    exact (Eval.Stops.behind harity h.of_map).map _
  | @initializer c method bound line arguments m m' hlength hmethod hbound =>
    have harity : Eval.checkArity line c.arity arguments m = .ok () m := by
      rw [Eval.checkArity, if_pos hlength]
      rfl
    -- The instance is made and the initializer is bound before it is called; neither step stops.
    have hinvoke : (LoxLang.invoke host (n + 1) (.cls c) line arguments).Stops m stop := by
      simp only [LoxLang.invoke, hmethod]
      have hnew : Eval.newInstance c m = .ok _ _ := rfl
      exact .behind harity (.behind hnew (.behind hbound (h.of_map.bind _)))
    exact hinvoke.map _
  | @body f arguments m =>
    have hframe : Eval.newFrame (argumentNames f.routine.parameters arguments) f.scope m =
        .ok m.store.frames.size { m with
          store := (m.store.newFrame (argumentNames f.routine.parameters arguments) f.scope).2 } :=
      rfl
    exact (Eval.Stops.behind hframe (h.of_map.inFrame.bind _)).map _
  | block => exact h.of_map.inNewFrame.map _
  | onTrue hvalue htruthy =>
    refine (Eval.Stops.behind hvalue ?_).map _
    rw [if_pos htruthy]
    exact h.of_map
  | onFalse hvalue hfalsy =>
    refine (Eval.Stops.behind hvalue ?_).map _
    rw [if_neg (by simp [hfalsy])]
    exact h.of_map
  | forInitial => exact (h.of_map.bind _).inNewFrame.map _
  | forLoop hinitial =>
    have hbody : (execute host (n + 1) (.forStmt (some _) _ _ _)).Stops m stop :=
      (Eval.Stops.behind hinitial h.of_map).inNewFrame
    exact hbody.map _
  | loop => exact h.of_map.inNewFrame.map _
  | executeRest hfirst => exact (Eval.Stops.behind hfirst h.of_map).map _
  | round hvalue htruthy => exact (repeatWhile_stops hvalue htruthy (h.of_map.bind _)).map _
  | increment hvalue htruthy hbody =>
    exact (repeatWhile_stops hvalue htruthy (.behind hbody ((h.of_map.map _).bind _))).map _
  | again hvalue htruthy hbody hincrement =>
    exact (repeatWhile_stops hvalue htruthy (.behind hbody (.behind hincrement h.of_map))).map _

/-- **If a call stops, so does every call that it was made for.** -/
theorem Leads.stops {fuel : Nat} (h : Leads host fuel task m n task' m')
    (hstop : (task'.run host n).Stops m' stop) : (task.run host fuel).Stops m stop := by
  induction h with
  | refl => exact hstop
  | step _ htask hcalls ih => exact ih (hcalls.stops htask hstop)

/-- If a statement that is reached stops, so does the program. -/
theorem Reaches.stops {fuel : Nat} {ss : List Stmt} {t : Stmt} (h : Reaches host fuel ss m t m')
    (hstop : (execute host fuel t).Stops m' stop) : (executeProgram host fuel ss).Stops m stop := by
  induction h with
  | here =>
    obtain ⟨m₁, hstop⟩ := hstop
    exact ⟨_, by rw [executeProgram_cons, hstop]⟩
  | later hexecute _ ih =>
    obtain ⟨m₁, hrest⟩ := ih hstop
    exact ⟨m₁, by rw [executeProgram_cons, hexecute]; exact hrest⟩

/-! ## Names -/

/-- A name that is recorded and bound is found. -/
theorem lookUp_of_bound {id : NodeId} {name : Token} {d : Nat} {r : FrameRef} {v : Value}
    (hd : m.distances[id]? = some d) (hup : m.store.up? d m.scope = some r)
    (hlocal : m.store.local? r name.lexeme = some v) : Eval.lookUp id name m = .ok v m := by
  have hread := Store.getAt_eq_ok _ _ _ _ hup hlocal
  simp only [Eval.lookUp, bind, EStateM.bind, get, getThe, MonadStateOf.get, EStateM.get, hd, hread]
  rfl

/-- A name that is not recorded is looked up in the globals. -/
theorem lookUp_of_global {id : NodeId} {name : Token} {v : Value} (hd : m.distances[id]? = none)
    (h : m.store.get m.globals name.lexeme = .ok v) : Eval.lookUp id name m = .ok v m := by
  simp only [Eval.lookUp, bind, EStateM.bind, get, getThe, MonadStateOf.get, EStateM.get, hd, h]
  rfl

end LoxLang
