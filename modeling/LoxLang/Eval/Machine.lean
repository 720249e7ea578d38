import LoxLang.Store.Basic
import LoxLang.Store.Sink

/-!
# Eval/Machine — the state of a running program

`Eval` is a computation on a `Machine` that may stop early, and keeps what was done up to then. It
stops with a diagnostic, or because the fuel that bounds its depth is used up; the two are told
apart, since more fuel changes only the second.
-/

namespace LoxLang

/-- The state of a running program. -/
structure Machine where
  store : Store
  /-- The frame of the globals. -/
  globals : FrameRef
  /-- The frame that is current. -/
  scope : FrameRef
  /-- How many scopes out each resolved use of a name looks. All other uses are global. -/
  distances : Std.TreeMap NodeId Nat
  sink : Sink
  /-- The next free node id. -/
  nextId : NodeId
  /-- The next free object number. -/
  nextObject : ObjectId
  /-- How many times the clock was read. -/
  clockReads : Nat

/-- Why a computation stopped early. -/
inductive Stop where
  | fault (d : Diagnostic)
  | outOfFuel
deriving DecidableEq, Repr

/-- A computation on a machine. -/
abbrev Eval := EStateM Stop Machine

/-- How a statement ended. -/
inductive Flow where
  | normal
  /-- A `return` is on its way to the call that it ends. -/
  | returned (v : Value)

/-- What a host function does with its arguments. It may evaluate expressions in the running
machine; a message that it gives back is a fault of the call. -/
abbrev HostCode := (Expr → Eval Value) → List Value → Eval (Except String Value)

/-- What the host does for each entry name. -/
abbrev Host := String → HostCode

namespace Machine

/-- The machine before anything ran, with nothing in its globals. -/
def fresh (capacity : Option Nat) : Machine :=
  let (globals, store) := Store.empty.newFrame ∅ none
  { store, globals, scope := globals, distances := ∅, sink := .ofCapacity capacity,
    nextId := 0, nextObject := 0, clockReads := 0 }

/-- Binds a global to a new host function. -/
def defineHost (m : Machine) (name : String) (arity : Nat) (entry : String) : Machine :=
  { m with
    store := m.store.define m.globals name (.host m.nextObject ⟨name, arity, entry⟩)
    nextObject := m.nextObject + 1 }

/-- Adds distances to those that are known. -/
def noteDistances (m : Machine) (distances : List (NodeId × Nat)) : Machine :=
  { m with distances := m.distances.insertMany distances }

end Machine

namespace Eval

/-- Stops with a fault of the program. -/
def raise {α : Type} (line : Nat) (fault : RuntimeFault) : Eval α :=
  throw (.fault (.runtime line fault))

/-- The outcome of an operation on the store, its fault placed on a line. -/
def ofExcept {α : Type} (line : Nat) : Except RuntimeFault α → Eval α
  | .ok a => pure a
  | .error fault => raise line fault

/-- A number that no other object has. -/
def freshObject : Eval ObjectId :=
  modifyGet fun m => (m.nextObject, { m with nextObject := m.nextObject + 1 })

/-- Makes a frame. -/
def newFrame (names : Std.TreeMap String Value) (enclosing : FrameRef) : Eval FrameRef :=
  modifyGet fun m =>
    let (r, store) := m.store.newFrame names (some enclosing)
    (r, { m with store })

/-- Makes an instance. -/
def newInstance (c : Class) : Eval InstanceRef :=
  modifyGet fun m =>
    let (r, store) := m.store.newInstance c
    (r, { m with store })

/-- Binds a name in a frame. -/
def bindIn (r : FrameRef) (name : String) (v : Value) : Eval Unit :=
  modify fun m => { m with store := m.store.define r name v }

/-- Binds a name in the current frame. -/
def define (name : String) (v : Value) : Eval Unit := do
  bindIn (← get).scope name v

/-- Runs with `r` as the current frame; the frame from before is current again afterwards, however
the run ends. -/
def inFrame {α : Type} (r : FrameRef) (run : Eval α) : Eval α := fun m =>
  let outer := m.scope
  match run { m with scope := r } with
  | .ok a m => .ok a { m with scope := outer }
  | .error e m => .error e { m with scope := outer }

/-- Runs in a new frame inside the current one. -/
def inNewFrame {α : Type} (run : Eval α) : Eval α := do
  inFrame (← newFrame ∅ (← get).scope) run

/-- Writes a line of output. -/
def printLine (line : String) : Eval Unit := fun m =>
  let bytes := (line ++ "\n").toUTF8
  let whole := m.sink.takes bytes
  let m := { m with sink := m.sink.write bytes }
  if whole then .ok () m else .error (.fault .output) m

/-- The value of a use of a name. -/
def lookUp (id : NodeId) (name : Token) : Eval Value := do
  let m ← get
  ofExcept name.line <| match m.distances[id]? with
    | some n => m.store.getAt m.scope n name.lexeme
    | none => m.store.get m.globals name.lexeme

/-- Writes the binding that a use of a name means. -/
def assign (id : NodeId) (name : Token) (v : Value) : Eval Unit := do
  let m ← get
  let holder ← ofExcept name.line <| match m.distances[id]? with
    | some n => m.store.locateAt m.scope n name.lexeme
    | none => m.store.locate m.globals name.lexeme
  bindIn holder name.lexeme v

/-- A method as a function of its own: a new frame around the method's body knows the instance. -/
def bindMethod (method : Closure) (r : InstanceRef) : Eval Closure := do
  let scope ← newFrame {(thisName, Value.object r)} method.scope
  return { method with scope }

end Eval

end LoxLang
