import Std.Data.TreeMap
import LoxLang.Decimal.Layout
import LoxLang.Tree.Basic

/-!
# Store/Value — the values of a running program

Functions, classes and host functions never change, so a value holds them whole, with the number by
which it is told apart from every other object. Frames and instances change; a value holds only
their place in the store.
-/

namespace LoxLang

/-- The place of a frame in the store. -/
abbrev FrameRef := Nat

/-- The place of an instance in the store. -/
abbrev InstanceRef := Nat

/-- The number of a function, a class or a host function. -/
abbrev ObjectId := Nat

/-- A routine together with the frame that it was declared in. -/
structure Closure where
  routine : Routine
  scope : FrameRef
  /-- A call yields the instance, whatever the body returns. -/
  isInitializer : Bool

/-- A class. -/
structure Class where
  id : ObjectId
  name : String
  methods : Std.TreeMap String Closure

/-- A function that the host provides. -/
structure HostFunction where
  /-- The name that the program sees. -/
  name : String
  arity : Nat
  /-- The name by which the host knows what to do. -/
  entry : String
deriving DecidableEq, Repr

inductive Value where
  | nil
  | bool (b : Bool)
  | number (x : Float)
  | string (s : String)
  | host (id : ObjectId) (f : HostFunction)
  | function (id : ObjectId) (f : Closure)
  | cls (c : Class)
  | object (r : InstanceRef)

instance : Inhabited Value := ⟨.nil⟩

/-- The number of arguments that a closure takes. -/
def Closure.arity (f : Closure) : Nat :=
  f.routine.parameters.length

def Closure.name (f : Closure) : String :=
  f.routine.name.lexeme

/-- A class takes the arguments that its initializer takes. -/
def Class.arity (c : Class) : Nat :=
  (c.methods[initializerName]?.map Closure.arity).getD 0

namespace Value

/-- Everything but `nil` and `false` counts as true. -/
def isTruthy : Value → Bool
  | nil | bool false => false
  | _ => true

/-- Equality as programs see it: numbers by value, objects by identity. -/
def equals : Value → Value → Bool
  | nil, nil => true
  | bool a, bool b => a = b
  | number a, number b => a == b
  | string a, string b => a = b
  | host a _, host b _ => a = b
  | function a _, function b _ => a = b
  | cls a, cls b => a.id = b.id
  | object a, object b => a = b
  | _, _ => false

/-- A number as programs print it: a whole number with all its digits and nothing else. -/
def numberText (x : Float) : String :=
  if isWhole x then exact x else plain x

end Value

end LoxLang
