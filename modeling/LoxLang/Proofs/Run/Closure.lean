import Mathlib
import LoxLang.Proofs.Run.Calls

/-!
# Proofs/Run/Closure — what holds of the steps of an evaluation holds of all of it

Evaluators are put together from few steps: they write to the store and take object numbers, print
a line, and run in another frame. A property of computations that these steps have, and that two
computations one behind the other have if both of them do (`Eval.Closed`), holds of every evaluator,
by one induction on the fuel (`closedAt`). For that the evaluators are taken apart into what is
evaluated and what is done with the values, with one equation for each (`evaluate_get`,
`invoke_cls`, `callClosure_eq`, `repeatWhile_eq_rounds`). The property has to hold of the host
functions too, as far as it holds of the evaluation that they may use.
-/

namespace LoxLang

open EStateM (Result)

/-- The outcome with another sink in its machine. -/
def withSink {α : Type} (sink : Sink) : Result Stop Machine α → Result Stop Machine α
  | .ok a m => .ok a { m with sink }
  | .error stop m => .error stop { m with sink }

namespace Eval

variable {α β : Type}

/-- The computation neither writes to the sink nor looks at it. -/
def SinkBlind (x : Eval α) : Prop :=
  ∀ m sink, x { m with sink } = withSink sink (x m)

/-- The computation writes to the store and takes object numbers, and does no more. -/
structure Writes (x : Eval α) : Prop where
  ok : ∀ m, ∃ a store nextObject, x m = .ok a { m with store, nextObject }
  blind : x.SinkBlind

/-- A property of computations that the steps of evaluators have, and computations that are put
together from steps. What a computation reads of its machine is not the sink. -/
structure Closed (P : ∀ {α : Type}, Eval α → Prop) : Prop where
  pure {α : Type} (a : α) : P (Pure.pure a)
  throw {α : Type} (stop : Stop) : P (throw stop : Eval α)
  bind {α β : Type} {x : Eval α} {f : α → Eval β} : P x → (∀ a, P (f a)) → P (x >>= f)
  read {α : Type} {f : Machine → Eval α} : (∀ m sink, f { m with sink } = f m) →
    (∀ m, P (f m)) → P (get >>= f)
  writes {α : Type} {x : Eval α} : x.Writes → P x
  printLine (line : String) : P (printLine line)
  inFrame {α : Type} {x : Eval α} (r : FrameRef) : P x → P (inFrame r x)

namespace Writes

theorem freshObject : Eval.freshObject.Writes :=
  ⟨fun m => ⟨_, m.store, _, rfl⟩, fun _ _ => rfl⟩

theorem newFrame (names : Std.TreeMap String Value) (r : FrameRef) :
    (Eval.newFrame names r).Writes :=
  ⟨fun m => ⟨_, _, m.nextObject, rfl⟩, fun _ _ => rfl⟩

theorem newInstance (c : Class) : (Eval.newInstance c).Writes :=
  ⟨fun m => ⟨_, _, m.nextObject, rfl⟩, fun _ _ => rfl⟩

theorem bindIn (r : FrameRef) (name : String) (v : Value) : (Eval.bindIn r name v).Writes :=
  ⟨fun m => ⟨_, _, m.nextObject, rfl⟩, fun _ _ => rfl⟩

theorem setField (r : InstanceRef) (name : String) (v : Value) :
    (modify fun m => { m with store := m.store.setField r name v } : Eval Unit).Writes :=
  ⟨fun m => ⟨_, _, m.nextObject, rfl⟩, fun _ _ => rfl⟩

end Writes

/-! ## Parts of evaluators -/

/-- The property of a value that a name stands for. -/
def propertyOf (name : Token) : Value → Eval Value
  | .object r => property r name
  | _ => raise name.line .noProperties

/-- Gives a field of an instance a value. -/
def setField (r : InstanceRef) (name : String) (v : Value) : Eval Value := do
  modify fun m => { m with store := m.store.setField r name v }
  return v

/-- Gives a property of a value the value that comes out behind it. -/
def setPropertyOf (name : Token) (value : Eval Value) : Value → Eval Value
  | .object r => value >>= setField r name.lexeme
  | _ => raise name.line .noFields

/-- What a host function gave, in a call on `line`. -/
def ofHost (line : Nat) : Except String Value → Eval Value
  | .ok v => return v
  | .error message => raise line (.host message)

/-- Calls the initializer of a class, if it has one, on a new instance. -/
def construct (call : Closure → Eval Value) (c : Class) (r : InstanceRef) : Eval Value :=
  match c.methods[initializerName]? with
  | none => return .object r
  | some method => do
    let bound ← bindMethod method r
    let _ ← call bound
    return .object r

/-- Runs the body of a closure in a new frame that binds the arguments. -/
def inCall (f : Closure) (arguments : List Value) (body : Eval Flow) : Eval Value := do
  let frame ← newFrame (argumentNames f.routine.parameters arguments) f.scope
  let flow ← inFrame frame body
  callResult f flow

/-- Prints the text of a value. -/
def printValue (v : Value) : Eval Unit := do
  printLine (v.text (← get).store)

/-- Goes on behind a statement, unless that returned. -/
def unlessReturned (next : Eval Flow) : Flow → Eval Flow
  | .normal => next
  | .returned v => return .returned v

/-! ## Steps of the language -/

namespace Closed

variable {P : ∀ {α : Type}, Eval α → Prop} (hP : Closed P)

include hP

theorem map {x : Eval α} (f : α → β) (hx : P x) : P (f <$> x) := by
  rw [← bind_pure_comp]
  exact hP.bind hx fun a => hP.pure (f a)

theorem raise (line : Nat) (fault : RuntimeFault) : P (Eval.raise line fault : Eval α) :=
  hP.throw _

/-- A fault is raised or a result is given; the machine stays as it is in both cases. -/
theorem ofExcept (line : Nat) (out : Except RuntimeFault α) : P (Eval.ofExcept line out) := by
  cases out with
  | ok a => exact hP.pure a
  | error fault => exact hP.raise line fault

omit hP in
/-- A branch has the property if both of its ends do. -/
theorem ite (c : Prop) [Decidable c] {x y : Eval α} (hx : P x) (hy : P y) :
    P (if c then x else y) := by
  split
  · exact hx
  · exact hy

theorem define (name : String) (v : Value) : P (Eval.define name v) :=
  hP.read (fun _ _ => rfl) fun m => hP.writes (.bindIn m.scope name v)

/-- The property holds in a new frame if it holds in all. -/
theorem inNewFrame {x : Eval α} (hx : P x) : P (Eval.inNewFrame x) :=
  hP.read (fun _ _ => rfl) fun m => hP.bind (hP.writes (.newFrame ∅ m.scope)) fun r =>
    hP.inFrame r hx

/-- A use of a name reads the machine, but not the sink. -/
theorem lookUp (id : NodeId) (name : Token) : P (Eval.lookUp id name) :=
  hP.read (fun _ _ => rfl) fun _ => hP.ofExcept name.line _

/-- An assignment looks for the frame and then writes to it. -/
theorem assign (id : NodeId) (name : Token) (v : Value) : P (Eval.assign id name v) :=
  hP.read (fun _ _ => rfl) fun _ => hP.bind (hP.ofExcept name.line _) fun r =>
    hP.writes (.bindIn r name.lexeme v)

theorem bindMethod (method : Closure) (r : InstanceRef) : P (Eval.bindMethod method r) :=
  hP.bind (hP.writes (.newFrame _ method.scope)) fun _ => hP.pure _

theorem checkArity (line expected : Nat) (arguments : List Value) :
    P (Eval.checkArity line expected arguments) := by
  unfold Eval.checkArity
  split
  · exact hP.pure ()
  · exact hP.raise line _

/-- A property is read, or a method is bound in a new frame. -/
theorem property (r : InstanceRef) (name : Token) : P (Eval.property r name) := by
  refine hP.read (fun _ _ => rfl) fun m => ?_
  dsimp only
  split
  · exact hP.pure _
  · exact hP.bind (hP.bindMethod _ r) fun _ => hP.bind (hP.writes .freshObject) fun _ => hP.pure _
  · exact hP.raise name.line _

/-- Only instances have properties. -/
theorem propertyOf (name : Token) (v : Value) : P (Eval.propertyOf name v) := by
  cases v with
  | object r => exact hP.property r name
  | _ => exact hP.raise name.line _

theorem setField (r : InstanceRef) (name : String) (v : Value) : P (Eval.setField r name v) :=
  hP.bind (hP.writes (.setField r name v)) fun _ => hP.pure v

/-- Only instances have fields, and the value is computed behind the instance. -/
theorem setPropertyOf (name : Token) {value : Eval Value} (hvalue : P value) (v : Value) :
    P (Eval.setPropertyOf name value v) := by
  cases v with
  | object r => exact hP.bind hvalue (hP.setField r name.lexeme)
  | _ => exact hP.raise name.line _

theorem ofHost (line : Nat) (out : Except String Value) : P (Eval.ofHost line out) := by
  cases out with
  | ok v => exact hP.pure v
  | error message => exact hP.raise line _

/-- An initializer is called like any other method. -/
theorem construct {call : Closure → Eval Value} (hcall : ∀ f, P (call f)) (c : Class)
    (r : InstanceRef) : P (Eval.construct call c r) := by
  unfold Eval.construct
  split
  · exact hP.pure _
  · exact hP.bind (hP.bindMethod _ r) fun bound => hP.bind (hcall bound) fun _ => hP.pure _

theorem printValue (v : Value) : P (Eval.printValue v) :=
  hP.read (fun _ _ => rfl) fun _ => hP.printLine _

/-- What follows a statement is left out if that returned. -/
theorem unlessReturned {next : Eval Flow} (hnext : P next) (flow : Flow) :
    P (Eval.unlessReturned next flow) := by
  cases flow with
  | normal => exact hnext
  | returned v => exact hP.pure _

theorem declareFunction (r : Routine) : P (Eval.declareFunction r) :=
  hP.bind (hP.writes .freshObject) fun _ => hP.read (fun _ _ => rfl) fun _ => hP.define _ _

theorem declareClass (name : Token) (methods : List Routine) :
    P (Eval.declareClass name methods) :=
  hP.bind (hP.writes .freshObject) fun _ => hP.read (fun _ _ => rfl) fun _ => hP.define _ _

/-- An initializer looks for its instance; any other routine gives what it returned. -/
theorem callResult (f : Closure) (flow : Flow) : P (Eval.callResult f flow) := by
  unfold Eval.callResult
  split
  · exact hP.read (fun _ _ => rfl) fun _ => hP.ofExcept _ _
  · cases flow with
    | normal => exact hP.pure _
    | returned v => exact hP.pure v

/-- The body of a call runs in a frame of its own. -/
theorem inCall (f : Closure) (arguments : List Value) {body : Eval Flow} (hbody : P body) :
    P (Eval.inCall f arguments body) :=
  hP.bind (hP.writes (.newFrame _ f.scope)) fun r =>
    hP.bind (hP.inFrame r hbody) fun flow => hP.callResult f flow

end Closed

end Eval

/-! ## The evaluators -/

/-- The end of a statement that may be left out. -/
def executeIfAny (host : Host) (n : Nat) : Option Stmt → Eval Flow
  | some s => execute host n s
  | none => return .normal

/-- The body and the increment of a round of a loop. -/
def roundBody (host : Host) (n : Nat) (increment : Option Expr) (body : Stmt) : Eval Flow :=
  execute host n body >>= Eval.unlessReturned do
    let _ ← evaluateIfAny host n increment
    return .normal

section

variable (host : Host) (n : Nat)

/-- The instance is evaluated before its property is looked up. -/
theorem evaluate_get (object : Expr) (name : Token) :
    evaluate host (n + 1) (.get object name) =
      evaluate host n object >>= Eval.propertyOf name := rfl

/-- The instance is evaluated before the value. -/
theorem evaluate_set (object : Expr) (name : Token) (value : Expr) :
    evaluate host (n + 1) (.set object name value) =
      evaluate host n object >>= Eval.setPropertyOf name (evaluate host n value) := rfl

/-- The arguments are counted before a function of the host is called. -/
theorem invoke_host (id : ObjectId) (f : HostFunction) (line : Nat) (arguments : List Value) :
    invoke host (n + 1) (.host id f) line arguments = (do
      Eval.checkArity line f.arity arguments
      host f.entry (evaluate host n) arguments >>= Eval.ofHost line) := rfl

/-- The arguments are counted before there is a new instance. -/
theorem invoke_cls (c : Class) (line : Nat) (arguments : List Value) :
    invoke host (n + 1) (.cls c) line arguments = (do
      Eval.checkArity line c.arity arguments
      Eval.newInstance c >>= Eval.construct (fun f => callClosure host n f arguments) c) := rfl

/-- A call runs its body in a new frame that binds the arguments. -/
theorem callClosure_eq (f : Closure) (arguments : List Value) :
    callClosure host (n + 1) f arguments =
      Eval.inCall f arguments (executeAll host n f.routine.body) := rfl

theorem execute_printStmt (e : Expr) :
    execute host (n + 1) (.printStmt e) = (do
      Eval.printValue (← evaluate host n e)
      return .normal) := rfl

/-- A branch that is left out does nothing. -/
theorem execute_ifStmt (condition : Expr) (onTrue : Stmt) (onFalse : Option Stmt) :
    execute host (n + 1) (.ifStmt condition onTrue onFalse) = (do
      if (← evaluate host n condition).isTruthy then execute host n onTrue
      else executeIfAny host n onFalse) := by
  cases onFalse <;> rfl

/-- The clauses of a loop share a frame. -/
theorem execute_forStmt (initial : Option Stmt) (condition increment : Option Expr) (body : Stmt) :
    execute host (n + 1) (.forStmt initial condition increment body) =
      Eval.inNewFrame (executeIfAny host n initial >>= fun _ =>
        repeatWhile host n condition increment body) := by
  cases initial <;> rfl

/-- Statements run one behind the other, up to one that returns. -/
theorem executeAll_cons (s : Stmt) (ss : List Stmt) :
    executeAll host (n + 1) (s :: ss) =
      execute host n s >>= Eval.unlessReturned (executeAll host n ss) := rfl

/-- A round is behind its condition, and before the rounds that follow. -/
theorem repeatWhile_eq_rounds (condition increment : Option Expr) (body : Stmt) :
    repeatWhile host (n + 1) condition increment body = (do
      let v ← evaluateIfAny host n condition
      if v.all Value.isTruthy then
        roundBody host n increment body >>=
          Eval.unlessReturned (repeatWhile host n condition increment body)
      else return .normal) := by
  have hround : loopRound host n condition increment body =
      roundBody host n increment body >>=
        Eval.unlessReturned (repeatWhile host n condition increment body) := by
    simp only [loopRound, roundBody, bind_assoc]
    congr 1
    funext flow
    cases flow with
    | normal => simp only [Eval.unlessReturned, bind_assoc, pure_bind]
    | returned v => rfl
  rw [repeatWhile_eq_round, hround]

end

/-- With this much fuel every evaluator has the property. -/
structure ClosedAt (P : ∀ {α : Type}, Eval α → Prop) (host : Host) (n : Nat) : Prop where
  evaluate : ∀ e, P (evaluate host n e)
  evaluateAll : ∀ es, P (evaluateAll host n es)
  invoke : ∀ f line arguments, P (invoke host n f line arguments)
  callClosure : ∀ f arguments, P (callClosure host n f arguments)
  execute : ∀ s, P (execute host n s)
  evaluateOptional : ∀ e, P (evaluateOptional host n e)
  executeAll : ∀ ss, P (executeAll host n ss)
  repeatWhile : ∀ condition increment body, P (repeatWhile host n condition increment body)

namespace ClosedAt

variable {P : ∀ {α : Type}, Eval α → Prop} {host : Host} {n : Nat}

/-- Every form of expression is put together from the steps and from expressions with less fuel. -/
theorem evaluate_succ (hP : Eval.Closed P) (ih : ClosedAt P host n) (e : Expr) :
    P (LoxLang.evaluate host (n + 1) e) := by
  cases e with
  | constant c => exact hP.pure _
  | grouping inner => exact ih.evaluate inner
  | unary operator operand => exact hP.bind (ih.evaluate operand) fun v => hP.ofExcept _ _
  | binary left operator right =>
    exact hP.bind (ih.evaluate left) fun a => hP.bind (ih.evaluate right) fun b =>
      hP.ofExcept _ _
  | logical left operator right =>
    rw [evaluate_logical]
    refine hP.bind (ih.evaluate left) fun a => ?_
    cases Expr.second a (.logical left operator right) with
    | none => exact hP.pure _
    | some e => exact hP.bind (ih.evaluate e) fun b => hP.pure _
  | conditional condition onTrue onFalse =>
    exact hP.bind (ih.evaluate condition) fun c =>
      Eval.Closed.ite _ (ih.evaluate onTrue) (ih.evaluate onFalse)
  | var id name => exact hP.lookUp id name
  | this id keyword => exact hP.lookUp id keyword
  | assign id name value =>
    exact hP.bind (ih.evaluate value) fun v => hP.bind (hP.assign id name v) fun _ => hP.pure v
  | call callee paren arguments =>
    exact hP.bind (ih.evaluate callee) fun f => hP.bind (ih.evaluateAll arguments) fun vs =>
      ih.invoke f paren.line vs
  | get object name =>
    rw [evaluate_get]
    exact hP.bind (ih.evaluate object) (hP.propertyOf name)
  | set object name value =>
    rw [evaluate_set]
    exact hP.bind (ih.evaluate object) (hP.setPropertyOf name (ih.evaluate value))

theorem evaluateAll_succ (hP : Eval.Closed P) (ih : ClosedAt P host n) (es : List Expr) :
    P (LoxLang.evaluateAll host (n + 1) es) := by
  cases es with simp only [LoxLang.evaluateAll]
  | nil => exact hP.pure _
  | cons e es =>
    exact hP.bind (ih.evaluate e) fun v => hP.bind (ih.evaluateAll es) fun vs => hP.pure _

/-- A call of any value; the functions of the host have the property by assumption. -/
theorem invoke_succ (hP : Eval.Closed P)
    (hhost : ∀ entry arguments, P (host entry (LoxLang.evaluate host n) arguments))
    (ih : ClosedAt P host n) (f : Value) (line : Nat) (arguments : List Value) :
    P (LoxLang.invoke host (n + 1) f line arguments) := by
  cases f with
  | host _ f =>
    rw [invoke_host]
    exact hP.bind (hP.checkArity line _ arguments) fun _ =>
      hP.bind (hhost f.entry arguments) (hP.ofHost line)
  | function _ f =>
    exact hP.bind (hP.checkArity line _ arguments) fun _ => ih.callClosure f arguments
  | cls c =>
    rw [invoke_cls]
    exact hP.bind (hP.checkArity line _ arguments) fun _ =>
      hP.bind (hP.writes (.newInstance c)) (hP.construct (ih.callClosure · arguments) c)
  | _ => exact hP.raise line _

theorem callClosure_succ (hP : Eval.Closed P) (ih : ClosedAt P host n) (f : Closure)
    (arguments : List Value) : P (LoxLang.callClosure host (n + 1) f arguments) := by
  rw [callClosure_eq]
  exact hP.inCall f arguments (ih.executeAll f.routine.body)

theorem evaluateOptional_succ (hP : Eval.Closed P) (ih : ClosedAt P host n) (e : Option Expr) :
    P (LoxLang.evaluateOptional host (n + 1) e) := by
  cases e with simp only [LoxLang.evaluateOptional]
  | none => exact hP.pure _
  | some e => exact ih.evaluate e

/-- A statement that may be left out. -/
theorem executeIfAny (hP : Eval.Closed P) (ih : ClosedAt P host n) (s : Option Stmt) :
    P (LoxLang.executeIfAny host n s) := by
  cases s with
  | none => exact hP.pure _
  | some s => exact ih.execute s

/-- Every form of statement is put together from the steps and from what has less fuel. -/
theorem execute_succ (hP : Eval.Closed P) (ih : ClosedAt P host n) (s : Stmt) :
    P (LoxLang.execute host (n + 1) s) := by
  cases s with
  | exprStmt e => exact hP.bind (ih.evaluate e) fun _ => hP.pure _
  | printStmt e =>
    rw [execute_printStmt]
    exact hP.bind (ih.evaluate e) fun v => hP.bind (hP.printValue v) fun _ => hP.pure _
  | varDecl name initial =>
    exact hP.bind (ih.evaluateOptional initial) fun v =>
      hP.bind (hP.define name.lexeme v) fun _ => hP.pure _
  | block body => exact hP.inNewFrame (ih.executeAll body)
  | ifStmt condition onTrue onFalse =>
    rw [execute_ifStmt]
    exact hP.bind (ih.evaluate condition) fun c =>
      Eval.Closed.ite _ (ih.execute onTrue) (ih.executeIfAny hP onFalse)
  | whileStmt condition body => exact ih.repeatWhile (some condition) none body
  | forStmt initial condition increment body =>
    rw [execute_forStmt]
    exact hP.inNewFrame <| hP.bind (ih.executeIfAny hP initial) fun _ =>
      ih.repeatWhile condition increment body
  | returnStmt keyword value => exact hP.bind (ih.evaluateOptional value) fun v => hP.pure _
  | funDecl r => exact hP.bind (hP.declareFunction r) fun _ => hP.pure _
  | classDecl name methods => exact hP.bind (hP.declareClass name methods) fun _ => hP.pure _

theorem executeAll_succ (hP : Eval.Closed P) (ih : ClosedAt P host n) (ss : List Stmt) :
    P (LoxLang.executeAll host (n + 1) ss) := by
  cases ss with
  | nil => exact hP.pure _
  | cons s ss =>
    rw [executeAll_cons]
    exact hP.bind (ih.execute s) (hP.unlessReturned (ih.executeAll ss))

theorem evaluateIfAny (hP : Eval.Closed P) (ih : ClosedAt P host n) (e : Option Expr) :
    P (LoxLang.evaluateIfAny host n e) := by
  cases e with
  | none => exact hP.pure none
  | some e => exact hP.map _ (ih.evaluate e)

/-- A round runs the body and then the increment. -/
theorem roundBody (hP : Eval.Closed P) (ih : ClosedAt P host n) (increment : Option Expr)
    (body : Stmt) : P (LoxLang.roundBody host n increment body) :=
  hP.bind (ih.execute body) <| hP.unlessReturned <|
    hP.bind (ih.evaluateIfAny hP increment) fun _ => hP.pure _

/-- A loop goes on for another round with less fuel. -/
theorem repeatWhile_succ (hP : Eval.Closed P) (ih : ClosedAt P host n)
    (condition increment : Option Expr) (body : Stmt) :
    P (LoxLang.repeatWhile host (n + 1) condition increment body) := by
  rw [repeatWhile_eq_rounds]
  exact hP.bind (ih.evaluateIfAny hP condition) fun v =>
    Eval.Closed.ite _ (hP.bind (ih.roundBody hP increment body)
      (hP.unlessReturned (ih.repeatWhile condition increment body))) (hP.pure _)

end ClosedAt

/-- **A property of the steps that the host functions have is a property of every evaluator.** -/
theorem closedAt {P : ∀ {α : Type}, Eval α → Prop} {host : Host} (hP : Eval.Closed P)
    (hhost : ∀ n, (∀ e, P (evaluate host n e)) →
      ∀ entry arguments, P (host entry (evaluate host n) arguments)) : ∀ n, ClosedAt P host n
  | 0 => by
    constructor <;> intros <;> exact hP.throw .outOfFuel
  | n + 1 =>
    have ih := closedAt hP hhost n
    { evaluate := ih.evaluate_succ hP
      evaluateAll := ih.evaluateAll_succ hP
      invoke := ih.invoke_succ hP (hhost n ih.evaluate)
      callClosure := ih.callClosure_succ hP
      execute := ih.execute_succ hP
      evaluateOptional := ih.evaluateOptional_succ hP
      executeAll := ih.executeAll_succ hP
      repeatWhile := ih.repeatWhile_succ hP }

end LoxLang
