import LoxLang.Eval.Machine
import LoxLang.Eval.Operator

/-!
# Eval/Basic — running a program

`evaluate` gives the value of an expression and `execute` the way a statement ends. Loops and calls
need not end, so every step takes fuel, a bound on the depth that is left. A computation that does
not run out of fuel does the same with more of it.
-/

namespace LoxLang

/-- The value of a constant. -/
def Constant.value : Constant → Value
  | .nil => .nil
  | .bool b => .bool b
  | .number x => .number x
  | .string s => .string s

/-- The closure of a routine that is declared in a frame. -/
def Routine.closure (r : Routine) (scope : FrameRef) : Closure :=
  ⟨r, scope, false⟩

/-- The closures of the methods of a class. Of two methods with one name the later counts. -/
def methodTable (methods : List Routine) (scope : FrameRef) : Std.TreeMap String Closure :=
  .ofList <| methods.map fun r =>
    (r.name.lexeme, Closure.mk r scope (r.name.lexeme = initializerName))

/-- The names of a call's frame. -/
def argumentNames (parameters : List Token) (arguments : List Value) :
    Std.TreeMap String Value :=
  .ofList ((parameters.map Token.lexeme).zip arguments)

namespace Eval

/-- A call has to bring as many arguments as are expected. -/
def checkArity (line expected : Nat) (arguments : List Value) : Eval Unit :=
  if arguments.length = expected then pure ()
  else raise line (.wrongArity expected arguments.length)

/-- A property of an instance: a field of its own, or a method of its class bound to it. -/
def property (r : InstanceRef) (name : Token) : Eval Value := do
  let store := (← get).store
  match store.field? r name.lexeme, store.method? r name.lexeme with
  | some v, _ => return v
  | none, some method =>
    let bound ← bindMethod method r
    return .function (← freshObject) bound
  | none, none => raise name.line (.undefinedProperty name.lexeme)

/-- Declares a function in the current frame. -/
def declareFunction (r : Routine) : Eval Unit := do
  define r.name.lexeme (.function (← freshObject) (r.closure (← get).scope))

/-- Declares a class in the current frame, where its methods find it too. -/
def declareClass (name : Token) (methods : List Routine) : Eval Unit := do
  let c : Class := ⟨← freshObject, name.lexeme, methodTable methods (← get).scope⟩
  define name.lexeme (.cls c)

/-- What a call gives back: an initializer its instance, any other routine what it returned. -/
def callResult (f : Closure) (flow : Flow) : Eval Value := do
  if f.isInitializer then
    ofExcept f.routine.name.line ((← get).store.getAt f.scope 0 thisName)
  else match flow with
    | .returned v => return v
    | .normal => return .nil

end Eval

mutual

/-- The value of an expression. -/
def evaluate (host : Host) : Nat → Expr → Eval Value
  | 0, _ => throw .outOfFuel
  | n + 1, e =>
    match e with
    | .constant c => return c.value
    | .grouping inner => evaluate host n inner
    | .unary operator operand => do
      let v ← evaluate host n operand
      Eval.ofExcept operator.line (applyUnary operator.kind v)
    | .binary left operator right => do
      let a ← evaluate host n left
      let b ← evaluate host n right
      Eval.ofExcept operator.line (applyBinary operator.kind a b)
    | .logical left operator right => do
      let a ← evaluate host n left
      match operator.kind, a.isTruthy with
      | .orWord, true => return .bool true
      | .andWord, false => return .bool false
      | _, _ => return .bool (← evaluate host n right).isTruthy
    | .conditional condition onTrue onFalse => do
      if (← evaluate host n condition).isTruthy then evaluate host n onTrue
      else evaluate host n onFalse
    | .var id name => Eval.lookUp id name
    | .this id keyword => Eval.lookUp id keyword
    | .assign id name value => do
      let v ← evaluate host n value
      Eval.assign id name v
      return v
    | .call callee paren arguments => do
      let f ← evaluate host n callee
      let vs ← evaluateAll host n arguments
      invoke host n f paren.line vs
    | .get object name => do
      match ← evaluate host n object with
      | .object r => Eval.property r name
      | _ => Eval.raise name.line .noProperties
    | .set object name value => do
      match ← evaluate host n object with
      | .object r =>
        let v ← evaluate host n value
        modify fun m => { m with store := m.store.setField r name.lexeme v }
        return v
      | _ => Eval.raise name.line .noFields

/-- The values of expressions, from the first to the last. -/
def evaluateAll (host : Host) : Nat → List Expr → Eval (List Value)
  | 0, _ => throw .outOfFuel
  | _ + 1, [] => return []
  | n + 1, e :: es => do
    let v ← evaluate host n e
    return v :: (← evaluateAll host n es)

/-- The value of a call on `line`. -/
def invoke (host : Host) : Nat → Value → Nat → List Value → Eval Value
  | 0, _, _, _ => throw .outOfFuel
  | n + 1, callee, line, arguments =>
    match callee with
    | .host _ f => do
      Eval.checkArity line f.arity arguments
      match ← host f.entry (evaluate host n) arguments with
      | .ok v => return v
      | .error message => Eval.raise line (.host message)
    | .function _ f => do
      Eval.checkArity line f.arity arguments
      callClosure host n f arguments
    | .cls c => do
      Eval.checkArity line c.arity arguments
      let r ← Eval.newInstance c
      match c.methods[initializerName]? with
      | none => return .object r
      | some method =>
        let bound ← Eval.bindMethod method r
        let _ ← callClosure host n bound arguments
        return .object r
    | _ => Eval.raise line .notCallable

/-- Runs the body of a closure in a new frame that binds the arguments. -/
def callClosure (host : Host) : Nat → Closure → List Value → Eval Value
  | 0, _, _ => throw .outOfFuel
  | n + 1, f, arguments => do
    let frame ← Eval.newFrame (argumentNames f.routine.parameters arguments) f.scope
    let flow ← Eval.inFrame frame (executeAll host n f.routine.body)
    Eval.callResult f flow

/-- Runs a statement. -/
def execute (host : Host) : Nat → Stmt → Eval Flow
  | 0, _ => throw .outOfFuel
  | n + 1, s =>
    match s with
    | .exprStmt e => do
      let _ ← evaluate host n e
      return .normal
    | .printStmt e => do
      let v ← evaluate host n e
      Eval.printLine (v.text (← get).store)
      return .normal
    | .varDecl name initial => do
      let v ← evaluateOptional host n initial
      Eval.define name.lexeme v
      return .normal
    | .block body => Eval.inNewFrame (executeAll host n body)
    | .ifStmt condition onTrue onFalse => do
      if (← evaluate host n condition).isTruthy then execute host n onTrue
      else match onFalse with
        | some s => execute host n s
        | none => return .normal
    | .whileStmt condition body => repeatWhile host n (some condition) none body
    | .forStmt initial condition increment body => Eval.inNewFrame do
      match initial with
      | some s => let _ ← execute host n s
      | none => pure ()
      repeatWhile host n condition increment body
    | .returnStmt _ value => return .returned (← evaluateOptional host n value)
    | .funDecl r => do
      Eval.declareFunction r
      return .normal
    | .classDecl name methods => do
      Eval.declareClass name methods
      return .normal

/-- The value of an expression, or `nil` where it is left out. -/
def evaluateOptional (host : Host) : Nat → Option Expr → Eval Value
  | 0, _ => throw .outOfFuel
  | _ + 1, none => return .nil
  | n + 1, some e => evaluate host n e

/-- Runs statements until one of them returns. -/
def executeAll (host : Host) : Nat → List Stmt → Eval Flow
  | 0, _ => throw .outOfFuel
  | _ + 1, [] => return .normal
  | n + 1, s :: ss => do
    match ← execute host n s with
    | .normal => executeAll host n ss
    | .returned v => return .returned v

/-- Runs the body and then the increment, as long as the condition holds and nothing returns. -/
def repeatWhile (host : Host) : Nat → Option Expr → Option Expr → Stmt → Eval Flow
  | 0, _, _, _ => throw .outOfFuel
  | n + 1, condition, increment, body => do
    let goesOn ← match condition with
      | some e => Value.isTruthy <$> evaluate host n e
      | none => pure true
    if goesOn then
      match ← execute host n body with
      | .returned v => return .returned v
      | .normal =>
        match increment with
        | some e => let _ ← evaluate host n e
        | none => pure ()
        repeatWhile host n condition increment body
    else return .normal

end

/-- Runs the statements of a program in turn. The first fault ends the run, with the globals as the
current frame; a `return` outside of every call ends nothing. -/
def executeProgram (host : Host) (fuel : Nat) : List Stmt → Eval Unit
  | [] => pure ()
  | s :: ss => do
    try
      let _ ← execute host fuel s
    catch stop =>
      modify fun m => { m with scope := m.globals }
      throw stop
    executeProgram host fuel ss

end LoxLang
