import LoxLang.Store.Value
import LoxLang.Diagnostic

/-!
# Eval/Operator — unary and binary operators

Operators act by the kind of their token. A kind that is no operator is a fault of its own.
-/

namespace LoxLang

/-- Applies an operation on numbers. -/
def Value.onNumbers (f : Float → Float → Value) : Value → Value → Except RuntimeFault Value
  | .number a, .number b => .ok (f a b)
  | _, _ => .error .numberOperands

/-- The value of a unary operator. -/
def applyUnary (operator : Kind) (operand : Value) : Except RuntimeFault Value :=
  match operator with
  | .minus =>
    match operand with
    | .number x => .ok (.number (-x))
    | _ => .error .numberOperand
  | .bang => .ok (.bool !operand.isTruthy)
  | _ => .error .unaryOperator

/-- The sum of numbers, or one string behind the other. -/
def add : Value → Value → Except RuntimeFault Value
  | .number a, .number b => .ok (.number (a + b))
  | .string a, .string b => .ok (.string (a ++ b))
  | _, _ => .error .addableOperands

/-- The quotient of numbers. Both zeros are refused as divisors. -/
def divide : Value → Value → Except RuntimeFault Value
  | .number a, .number b => if b == 0.0 then .error .divisionByZero else .ok (.number (a / b))
  | _, _ => .error .numberOperands

/-- The value of a binary operator. -/
def applyBinary (operator : Kind) (left right : Value) : Except RuntimeFault Value :=
  match operator with
  | .plus => add left right
  | .minus => left.onNumbers (fun a b => .number (a - b)) right
  | .star => left.onNumbers (fun a b => .number (a * b)) right
  | .slash => divide left right
  | .greater => left.onNumbers (fun a b => .bool (b < a)) right
  | .greaterEqual => left.onNumbers (fun a b => .bool (b ≤ a)) right
  | .less => left.onNumbers (fun a b => .bool (a < b)) right
  | .lessEqual => left.onNumbers (fun a b => .bool (a ≤ b)) right
  | .equalEqual => .ok (.bool (left.equals right))
  | .bangEqual => .ok (.bool !(left.equals right))
  | _ => .error .binaryOperator

end LoxLang
