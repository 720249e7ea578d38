import LoxLang.Eval.Machine
import LoxLang.Grammar.Expression
import LoxLang.Lexis.Scan

/-!
# Host/Library — functions that a host can lend to programs

Each function has an entry name, an arity and what it does. Only `clock` is there from the start; the
others are bound when the host asks for it. The clock is a sequence of readings, of which each call
takes the next.
-/

namespace LoxLang.Library

/-- The number of arguments of each function in the library. -/
def arity? : String → Option Nat
  | "clock" | "fail" | "locals" => some 0
  | "twice" | "show" | "install" | "evalsrc" => some 1
  | "same" => some 2
  | "pick" => some 3
  | _ => none

/-- The next reading of the clock. -/
def readClock (readings : Nat → Float) : Eval Value :=
  modifyGet fun m =>
    (.number (readings m.clockReads), { m with clockReads := m.clockReads + 1 })

/-- The value of the expression that `source` holds, evaluated in the running machine with every
name taken as a global. A fault is given back by its message. -/
def evaluateSource (evaluate : Expr → Eval Value) (source : String) :
    Eval (Except String Value) := do
  let (parsed, nextId) := parseExpression (tokensOf (scan source)) (← get).nextId
  modify fun m => { m with nextId }
  match parsed with
  | .error d => return .error d.message
  | .ok e =>
    try
      return .ok (← evaluate e)
    catch
      | .fault d => return .error d.message
      | .outOfFuel => throw .outOfFuel

/-- What each function of the library does. -/
def host (readings : Nat → Float) : Host
  | "clock", _, [] => Except.ok <$> readClock readings
  | "twice", _, [.number x] => return .ok (.number (x * 2))
  | "twice", _, _ => return .error "twice expects a number."
  | "fail", _, _ => return .error "boom"
  | "show", _, [v] => return .ok (.string (v.text (← get).store))
  | "same", _, [a, b] => return .ok (.bool (a.equals b))
  | "pick", _, [a, b, c] => return .ok (if a.isTruthy then b else c)
  | "locals", _, [] => return .ok (.number (Float.ofNat (← get).distances.size))
  | "install", _, [v] => do
    modify fun m => m.defineHost (v.text m.store) 0 "fail"
    return .ok .nil
  | "evalsrc", evaluate, [v] => do
    evaluateSource evaluate (v.text (← get).store)
  | _, _, _ => return .error "no such host function"

end LoxLang.Library
