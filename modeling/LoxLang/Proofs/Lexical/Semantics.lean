import Mathlib
import LoxLang.Eval.Basic

/-!
# Proofs/Lexical/Semantics — lexical scoping without frames

The meaning of a program in which a name is what the text around it says. The names that a place
knows are a finite map to locations (`Names`). A local declaration takes a fresh location and
extends the map for what follows; nothing ever changes a map. A closure keeps the map of the place
where it is declared, with its own name in it. A name that the map does not know is looked up in one
table of globals.

Distances, node ids and frames play no part here. Numbers, texts, operators and instances are those
of the machine. The `scope` of a closure is the place of its map in the list of all maps that were
ever kept (`State.kept`).
-/

namespace LoxLang.Lexical

/-- The place of a variable in the store. -/
abbrev Location := Nat

/-- The local names that a place in the program knows, the latest first. -/
abbrev Names := List (String × Location)

/-- The state of a running program. -/
structure State where
  /-- The values of the local variables. -/
  cells : Array Value
  /-- The names that closures keep. -/
  kept : Array Names
  globals : Std.TreeMap String Value
  instances : Array Instance
  sink : Sink
  /-- The next free object number. -/
  nextObject : ObjectId
  /-- How many times the clock was read. -/
  clockReads : Nat

/-- A computation on a state. -/
abbrev Run := EStateM Stop State

/-- Where a statement stands. -/
inductive Place where
  /-- Outside of every scope: what is declared here is global. -/
  | top
  | inside (names : Names)

/-- The local names that are known at a place. -/
def Place.names : Place → Names
  | top => []
  | inside names => names

namespace State

/-- The state before anything ran, with nothing in its globals. -/
def fresh (capacity : Option Nat) : State :=
  ⟨#[], #[], ∅, #[], .ofCapacity capacity, 0, 0⟩

/-- The instances as a store without frames. -/
def heap (s : State) : Store :=
  ⟨#[], s.instances⟩

/-- The value that a name has where `names` are known. -/
def value? (s : State) (names : Names) (x : String) : Option Value :=
  match names.lookup x with
  | some l => s.cells[l]?
  | none => s.globals[x]?

/-- Gives a name a new value. -/
def write (s : State) (names : Names) (x : String) (v : Value) : State :=
  match names.lookup x with
  | some l => { s with cells := s.cells.setIfInBounds l v }
  | none => { s with globals := s.globals.insert x v }

/-- Binds a global to a new host function. -/
def defineHost (s : State) (name : String) (arity : Nat) (entry : String) : State :=
  { s with
    globals := s.globals.insert name (.host s.nextObject ⟨name, arity, entry⟩)
    nextObject := s.nextObject + 1 }

end State

/-! ## Host functions -/

/-- What a host function sees of a value: everything but the place where a closure stands. -/
inductive Face where
  | nil
  | bool (b : Bool)
  | number (x : Float)
  | string (s : String)
  | host (id : ObjectId) (f : HostFunction)
  | function (id : ObjectId) (routine : Routine)
  | cls (id : ObjectId) (name : String)
  | object (r : InstanceRef) (className : String)

end Lexical

/-- What a host function sees of a value. -/
def Value.face (s : Store) : Value → Lexical.Face
  | nil => .nil
  | bool b => .bool b
  | number x => .number x
  | string t => .string t
  | host id f => .host id f
  | function id f => .function id f.routine
  | cls c => .cls c.id c.name
  | object r => .object r (instanceName s r)

namespace Lexical

/-- What a host function answers. -/
inductive Answer where
  /-- The call is a fault. -/
  | refusal (message : String)
  | constant (c : Constant)
  /-- One of the arguments. -/
  | argument (i : Nat)

def Answer.result (arguments : List Value) : Answer → Except String Value
  | refusal message => .error message
  | constant c => .ok c.value
  | argument i => .ok (arguments.getD i .nil)

/-- What the functions of a host answer, by entry name, arguments and readings of the clock so far;
and how many readings there are afterwards. -/
abbrev Natives := String → List Face → Nat → Answer × Nat

/-- The host that answers so. -/
def Natives.host (natives : Natives) : Host := fun entry _ arguments m =>
  let (answer, clockReads) := natives entry (arguments.map (Value.face m.store)) m.clockReads
  .ok (answer.result arguments) { m with clockReads }

/-! ## Steps of a run -/

namespace Run

/-- Stops with a fault of the program. -/
def raise {α : Type} (line : Nat) (fault : RuntimeFault) : Run α :=
  throw (.fault (.runtime line fault))

def ofExcept {α : Type} (line : Nat) : Except RuntimeFault α → Run α
  | .ok a => pure a
  | .error fault => raise line fault

/-- A number that no other object has. -/
def freshObject : Run ObjectId :=
  modifyGet fun s => (s.nextObject, { s with nextObject := s.nextObject + 1 })

/-- A fresh location with a value. -/
def allocate (v : Value) : Run Location :=
  modifyGet fun s => (s.cells.size, { s with cells := s.cells.push v })

/-- Keeps names for a closure. -/
def keep (names : Names) : Run Nat :=
  modifyGet fun s => (s.kept.size, { s with kept := s.kept.push names })

/-- The names that a closure keeps. -/
def namesOf (f : Closure) : Run Names :=
  return (← get).kept.getD f.scope []

def newInstance (c : Class) : Run InstanceRef :=
  modifyGet fun s => (s.instances.size, { s with instances := s.instances.push ⟨c, ∅⟩ })

/-- Writes a line of output. -/
def printLine (line : String) : Run Unit := fun s =>
  let bytes := (line ++ "\n").toUTF8
  let whole := s.sink.takes bytes
  let s := { s with sink := s.sink.write bytes }
  if whole then .ok () s else .error (.fault .output) s

/-- The value of a name. -/
def lookUp (names : Names) (name : Token) : Run Value := do
  match (← get).value? names name.lexeme with
  | some v => return v
  | none => raise name.line (.undefinedVariable name.lexeme)

/-- Gives a name that has a value a new one. -/
def assign (names : Names) (name : Token) (v : Value) : Run Unit := do
  if ((← get).value? names name.lexeme).isSome then modify (·.write names name.lexeme v)
  else raise name.line (.undefinedVariable name.lexeme)

/-- Declares a name: a new local, or a global. The result is the place behind the declaration. -/
def declare (place : Place) (x : String) (v : Value) : Run Place := do
  match place with
  | .top =>
    modify fun s => { s with globals := s.globals.insert x v }
    return .top
  | .inside names => return .inside ((x, ← allocate v) :: names)

/-- Declares a name for a value that keeps the names of its place, with this one among them. -/
def declareKeeping (place : Place) (x : String) (value : Nat → Value) : Run Place := do
  match place with
  | .top => declare .top x (value (← keep []))
  | .inside names =>
    let k ← keep ((x, (← get).cells.size) :: names)
    declare (.inside names) x (value k)

/-- Fresh locations for the parameters of a call. -/
def bindAll : List Token → List Value → Names → Run Names
  | p :: ps, v :: vs, names => do
    bindAll ps vs ((p.lexeme, ← allocate v) :: names)
  | _, _, names => return names

/-- A method as a function of its own, which knows its instance. -/
def bindMethod (method : Closure) (r : InstanceRef) : Run Closure := do
  let names ← namesOf method
  let l ← allocate (.object r)
  return { method with scope := ← keep ((thisName, l) :: names) }

/-- A call has to bring as many arguments as are expected. -/
def checkArity (line expected : Nat) (arguments : List Value) : Run Unit :=
  if arguments.length = expected then pure ()
  else raise line (.wrongArity expected arguments.length)

/-- A property of an instance: a field of its own, or a method of its class bound to it. -/
def property (r : InstanceRef) (name : Token) : Run Value := do
  let heap := (← get).heap
  match heap.field? r name.lexeme, heap.method? r name.lexeme with
  | some v, _ => return v
  | none, some method =>
    let bound ← bindMethod method r
    return .function (← freshObject) bound
  | none, none => raise name.line (.undefinedProperty name.lexeme)

/-- Writes a field. -/
def setField (r : InstanceRef) (x : String) (v : Value) : Run Unit :=
  modify fun s => { s with instances := (s.heap.setField r x v).instances }

def declareFunction (place : Place) (r : Routine) : Run Place := do
  let id ← freshObject
  declareKeeping place r.name.lexeme fun k => .function id (r.closure k)

/-- Declares a class, which its methods know. -/
def declareClass (place : Place) (name : Token) (methods : List Routine) : Run Place := do
  let id ← freshObject
  declareKeeping place name.lexeme fun k => .cls ⟨id, name.lexeme, methodTable methods k⟩

/-- What a call gives back: an initializer its instance, any other routine what it returned. -/
def callResult (f : Closure) (flow : Flow) : Run Value := do
  if f.isInitializer then
    match (← get).value? (← namesOf f) thisName with
    | some v => return v
    | none => raise f.routine.name.line (.undefinedVariable thisName)
  else match flow with
    | .returned v => return v
    | .normal => return .nil

/-- What a host function does. -/
def native (natives : Natives) (entry : String) (arguments : List Value) :
    Run (Except String Value) := fun s =>
  let (answer, clockReads) := natives entry (arguments.map (Value.face s.heap)) s.clockReads
  .ok (answer.result arguments) { s with clockReads }

end Run

/-! ## Running a program -/

mutual

/-- The value of an expression where `names` are known. -/
def evaluate (natives : Natives) : Nat → Names → Expr → Run Value
  | 0, _, _ => throw .outOfFuel
  | n + 1, names, e =>
    match e with
    | .constant c => return c.value
    | .grouping inner => evaluate natives n names inner
    | .unary operator operand => do
      let v ← evaluate natives n names operand
      Run.ofExcept operator.line (applyUnary operator.kind v)
    | .binary left operator right => do
      let a ← evaluate natives n names left
      let b ← evaluate natives n names right
      Run.ofExcept operator.line (applyBinary operator.kind a b)
    | .logical left operator right => do
      let a ← evaluate natives n names left
      if operator.kind = .orWord ∧ a.isTruthy = true then return .bool true
      else if operator.kind = .andWord ∧ a.isTruthy = false then return .bool false
      else return .bool (← evaluate natives n names right).isTruthy
    | .conditional condition onTrue onFalse => do
      if (← evaluate natives n names condition).isTruthy then evaluate natives n names onTrue
      else evaluate natives n names onFalse
    | .var _ name => Run.lookUp names name
    | .this _ keyword => Run.lookUp names keyword
    | .assign _ name value => do
      let v ← evaluate natives n names value
      Run.assign names name v
      return v
    | .call callee paren arguments => do
      let f ← evaluate natives n names callee
      let vs ← evaluateAll natives n names arguments
      invoke natives n f paren.line vs
    | .get object name => do
      match ← evaluate natives n names object with
      | .object r => Run.property r name
      | _ => Run.raise name.line .noProperties
    | .set object name value => do
      match ← evaluate natives n names object with
      | .object r =>
        let v ← evaluate natives n names value
        Run.setField r name.lexeme v
        return v
      | _ => Run.raise name.line .noFields

/-- The values of expressions, from the first to the last. -/
def evaluateAll (natives : Natives) : Nat → Names → List Expr → Run (List Value)
  | 0, _, _ => throw .outOfFuel
  | _ + 1, _, [] => return []
  | n + 1, names, e :: es => do
    let v ← evaluate natives n names e
    return v :: (← evaluateAll natives n names es)

/-- The value of a call on `line`. -/
def invoke (natives : Natives) : Nat → Value → Nat → List Value → Run Value
  | 0, _, _, _ => throw .outOfFuel
  | n + 1, callee, line, arguments =>
    match callee with
    | .host _ f => do
      Run.checkArity line f.arity arguments
      match ← Run.native natives f.entry arguments with
      | .ok v => return v
      | .error message => Run.raise line (.host message)
    | .function _ f => do
      Run.checkArity line f.arity arguments
      callClosure natives n f arguments
    | .cls c => do
      Run.checkArity line c.arity arguments
      let r ← Run.newInstance c
      match c.methods[initializerName]? with
      | none => return .object r
      | some method =>
        let bound ← Run.bindMethod method r
        let _ ← callClosure natives n bound arguments
        return .object r
    | _ => Run.raise line .notCallable

/-- Runs the body of a closure where its names and its parameters are known. -/
def callClosure (natives : Natives) : Nat → Closure → List Value → Run Value
  | 0, _, _ => throw .outOfFuel
  | n + 1, f, arguments => do
    let names ← Run.bindAll f.routine.parameters arguments (← Run.namesOf f)
    let flow ← executeAll natives n (.inside names) f.routine.body
    Run.callResult f flow

/-- Runs a statement at a place; the result says where the next one stands. -/
def execute (natives : Natives) : Nat → Place → Stmt → Run (Flow × Place)
  | 0, _, _ => throw .outOfFuel
  | n + 1, place, s =>
    match s with
    | .exprStmt e => do
      let _ ← evaluate natives n place.names e
      return (.normal, place)
    | .printStmt e => do
      let v ← evaluate natives n place.names e
      Run.printLine (v.text (← get).heap)
      return (.normal, place)
    | .varDecl name initial => do
      let v ← evaluateOptional natives n place.names initial
      return (.normal, ← Run.declare place name.lexeme v)
    | .block body => return (← executeAll natives n (.inside place.names) body, place)
    | .ifStmt condition onTrue onFalse => do
      if (← evaluate natives n place.names condition).isTruthy then
        return ((← execute natives n place onTrue).1, place)
      else match onFalse with
        | some s => return ((← execute natives n place s).1, place)
        | none => return (.normal, place)
    | .whileStmt condition body =>
      return (← repeatWhile natives n place (some condition) none body, place)
    | .forStmt initial condition increment body => do
      let inner ← match initial with
        | some s => Prod.snd <$> execute natives n (.inside place.names) s
        | none => pure (.inside place.names)
      return (← repeatWhile natives n inner condition increment body, place)
    | .returnStmt _ value =>
      return (.returned (← evaluateOptional natives n place.names value), place)
    | .funDecl r => return (.normal, ← Run.declareFunction place r)
    | .classDecl name methods => return (.normal, ← Run.declareClass place name methods)

/-- The value of an expression, or `nil` where it is left out. -/
def evaluateOptional (natives : Natives) : Nat → Names → Option Expr → Run Value
  | 0, _, _ => throw .outOfFuel
  | _ + 1, _, none => return .nil
  | n + 1, names, some e => evaluate natives n names e

/-- Runs statements, each where the one before it left off, until one of them returns. -/
def executeAll (natives : Natives) : Nat → Place → List Stmt → Run Flow
  | 0, _, _ => throw .outOfFuel
  | _ + 1, _, [] => return .normal
  | n + 1, place, s :: ss => do
    match ← execute natives n place s with
    | (.normal, place) => executeAll natives n place ss
    | (.returned v, _) => return .returned v

/-- Runs the body and then the increment, as long as the condition holds and nothing returns. -/
def repeatWhile (natives : Natives) : Nat → Place → Option Expr → Option Expr → Stmt → Run Flow
  | 0, _, _, _, _ => throw .outOfFuel
  | n + 1, place, condition, increment, body => do
    let goesOn ← match condition with
      | some e => Value.isTruthy <$> evaluate natives n place.names e
      | none => pure true
    if goesOn then
      match (← execute natives n place body).1 with
      | .returned v => return .returned v
      | .normal =>
        match increment with
        | some e => let _ ← evaluate natives n place.names e
        | none => pure ()
        repeatWhile natives n place condition increment body
    else return .normal

end

/-- Runs the statements of a program in turn. -/
def executeProgram (natives : Natives) (fuel : Nat) : List Stmt → Run Unit
  | [] => pure ()
  | s :: ss => do
    let _ ← execute natives fuel .top s
    executeProgram natives fuel ss

end LoxLang.Lexical
