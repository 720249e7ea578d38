/-!
# Store/Sink — where output goes

A sink keeps every byte that was written to it, up to its capacity. A write that does not fit leaves
what fits and fails.
-/

namespace LoxLang

structure Sink where
  written : ByteArray
  /-- The bytes that the sink takes in all; without a capacity it takes any number. -/
  capacity : Option Nat

namespace Sink

/-- The sink that nothing was written to. -/
def ofCapacity (capacity : Option Nat) : Sink := ⟨.empty, capacity⟩

/-- The part of `bytes` for which there is room. -/
def accepted (s : Sink) (bytes : ByteArray) : ByteArray :=
  match s.capacity with
  | none => bytes
  | some capacity => bytes.extract 0 (capacity - s.written.size)

/-- Writes what fits. -/
def write (s : Sink) (bytes : ByteArray) : Sink :=
  { s with written := s.written ++ s.accepted bytes }

/-- There is room for all of `bytes`. -/
def takes (s : Sink) (bytes : ByteArray) : Bool :=
  match s.capacity with
  | none => true
  | some capacity => s.written.size + bytes.size ≤ capacity

end Sink

end LoxLang
