import LoxLang.Diagnostic
import LoxLang.Store.Value

/-!
# Store/Basic — frames and instances

A frame binds names to values and may be enclosed by another frame. A name can be looked for along
the chain of enclosing frames (`get`, `assign`) or in the one frame a known number of steps up that
chain (`getAt`, `assignAt`); either way a binding is first located and then read or written. Nothing
is ever taken out of the store.
-/

namespace LoxLang

/-- The bindings of a scope. -/
structure Frame where
  names : Std.TreeMap String Value
  enclosing : Option FrameRef

/-- An instance of a class. -/
structure Instance where
  cls : Class
  fields : Std.TreeMap String Value

/-- All frames and instances, each at the place where it was made. -/
structure Store where
  frames : Array Frame
  instances : Array Instance

namespace Store

/-- The store without frames and instances. -/
def empty : Store := ⟨#[], #[]⟩

/-- Makes a frame. -/
def newFrame (s : Store) (names : Std.TreeMap String Value) (enclosing : Option FrameRef) :
    FrameRef × Store :=
  (s.frames.size, { s with frames := s.frames.push ⟨names, enclosing⟩ })

/-- Makes an instance without fields. -/
def newInstance (s : Store) (c : Class) : InstanceRef × Store :=
  (s.instances.size, { s with instances := s.instances.push ⟨c, ∅⟩ })

/-- Binds a name in a frame, in place of any binding that it has there. -/
def define (s : Store) (r : FrameRef) (name : String) (v : Value) : Store :=
  { s with frames := s.frames.modify r fun f => { f with names := f.names.insert name v } }

/-- The value of a name in a frame itself. -/
def local? (s : Store) (r : FrameRef) (name : String) : Option Value :=
  s.frames[r]?.bind (·.names[name]?)

/-- The frame around a frame. -/
def enclosing? (s : Store) (r : FrameRef) : Option FrameRef :=
  s.frames[r]?.bind Frame.enclosing

/-! ## Along the chain -/

/-- The nearest frame that binds a name, among the first `n` of the chain that starts at `r`. -/
def holderWithin (s : Store) (name : String) : Nat → FrameRef → Option FrameRef
  | 0, _ => none
  | n + 1, r =>
    if (s.local? r name).isSome then some r
    else (s.enclosing? r).bind (holderWithin s name n)

/-- The nearest frame that binds a name. A chain passes each frame at most once. -/
def holder? (s : Store) (r : FrameRef) (name : String) : Option FrameRef :=
  s.holderWithin name s.frames.size r

/-- The frame whose binding a search from `r` finds. -/
def locate (s : Store) (r : FrameRef) (name : String) : Except RuntimeFault FrameRef :=
  match s.holder? r name with
  | some holder => .ok holder
  | none => .error (.undefinedVariable name)

/-- The value that a search from `r` finds. -/
def get (s : Store) (r : FrameRef) (name : String) : Except RuntimeFault Value :=
  match (s.holder? r name).bind (s.local? · name) with
  | some v => .ok v
  | none => .error (.undefinedVariable name)

/-- Writes the binding that a search from `r` finds; never makes one. -/
def assign (s : Store) (r : FrameRef) (name : String) (v : Value) : Except RuntimeFault Store :=
  (s.locate r name).map (s.define · name v)

/-! ## At a distance -/

/-- The frame `n` steps up the chain. -/
def up? (s : Store) : Nat → FrameRef → Option FrameRef
  | 0, r => some r
  | n + 1, r => (s.enclosing? r).bind (up? s n)

/-- The frame `n` steps up the chain, wanted for a name. -/
def ancestor (s : Store) (r : FrameRef) (n : Nat) (name : String) :
    Except RuntimeFault FrameRef :=
  match s.up? n r with
  | some holder => .ok holder
  | none => .error (.scopeMissing name)

/-- The frame `n` steps up the chain, which has to bind the name. -/
def locateAt (s : Store) (r : FrameRef) (n : Nat) (name : String) :
    Except RuntimeFault FrameRef := do
  let holder ← s.ancestor r n name
  if (s.local? holder name).isSome then return holder
  throw (.undefinedVariable name)

/-- The value of a name in the frame `n` steps up the chain. -/
def getAt (s : Store) (r : FrameRef) (n : Nat) (name : String) : Except RuntimeFault Value := do
  let holder ← s.ancestor r n name
  match s.local? holder name with
  | some v => return v
  | none => throw (.undefinedVariable name)

/-- Writes the binding of a name in the frame `n` steps up the chain; never makes one. -/
def assignAt (s : Store) (r : FrameRef) (n : Nat) (name : String) (v : Value) :
    Except RuntimeFault Store :=
  (s.locateAt r n name).map (s.define · name v)

/-! ## Instances -/

/-- The class of an instance. -/
def classOf? (s : Store) (r : InstanceRef) : Option Class :=
  s.instances[r]?.map Instance.cls

/-- The value of a field. -/
def field? (s : Store) (r : InstanceRef) (name : String) : Option Value :=
  s.instances[r]?.bind (·.fields[name]?)

/-- The method that an instance has from its class. -/
def method? (s : Store) (r : InstanceRef) (name : String) : Option Closure :=
  (s.classOf? r).bind (·.methods[name]?)

/-- Writes a field, which need not exist. -/
def setField (s : Store) (r : InstanceRef) (name : String) (v : Value) : Store :=
  { s with
    instances := s.instances.modify r fun i => { i with fields := i.fields.insert name v } }

end Store

namespace Value

/-- The class name of an instance. -/
def instanceName (s : Store) (r : InstanceRef) : String :=
  ((s.classOf? r).map Class.name).getD ""

/-- A value as programs print it. -/
def text (s : Store) : Value → String
  | nil => "nil"
  | bool true => "true"
  | bool false => "false"
  | number x => numberText x
  | string t => t
  | host _ f => "<native fn " ++ f.name ++ ">"
  | function _ f => "<fn " ++ f.name ++ ">"
  | cls c => c.name
  | object r => instanceName s r ++ " instance"

/-- An object as it is shown to someone who inspects the program; other values have no such text. -/
def inspection? (s : Store) : Value → Option String
  | host _ f => some ("Callable(Native(<native fn " ++ f.name ++ ">))")
  | function _ f => some ("Callable(Function(<fn " ++ f.name ++ ">))")
  | cls c => some ("Callable(Class(<class " ++ c.name ++ ">))")
  | object r => some ("Callable(Instance(<" ++ instanceName s r ++ " instance>))")
  | _ => none

end Value

end LoxLang
