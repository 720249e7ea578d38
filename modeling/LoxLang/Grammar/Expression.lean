import LoxLang.Grammar.Cursor

/-!
# Grammar/Expression — reading expressions

    expression  → ( call "." )? IDENT "=" expression | conditional
    conditional → operation ( "?" expression ":" expression )?
    operation   → the levels of binary operators, all of them left-associative
    unary       → ( "!" | "-" ) unary | call
    call        → primary ( "(" arguments? ")" | "." IDENT )*
    primary     → NUMBER | STRING | "true" | "false" | "nil" | "this" | IDENT | "(" expression ")"

An assignment is read as a conditional first; only when an equals sign follows is it checked for a
target. The rules call each other, so each takes the depth that is still allowed; the depth given
by `Cursor.depth` is never used up.
-/

namespace LoxLang

/-- The levels of binary operators, from the loosest to the tightest. -/
inductive Level where
  | disjunction
  | conjunction
  | equality
  | comparison
  | term
  | factor
deriving DecidableEq, Repr

namespace Level

/-- The operators of a level. -/
def operators : Level → List Kind
  | disjunction => [.orWord]
  | conjunction => [.andWord]
  | equality => [.bangEqual, .equalEqual]
  | comparison => [.greater, .greaterEqual, .less, .lessEqual]
  | term => [.minus, .plus]
  | factor => [.slash, .star]

/-- The level of the operands; the tightest level joins unary expressions. -/
def tighter? : Level → Option Level
  | disjunction => some conjunction
  | conjunction => some equality
  | equality => some comparison
  | comparison => some term
  | term => some factor
  | factor => none

/-- The expression that an operator of a level makes of its operands. -/
def join : Level → Expr → Token → Expr → Expr
  | disjunction | conjunction => .logical
  | _ => .binary

end Level

/-- A depth that is enough to read all tokens ahead of a cursor: the rules between one token and
the next are fewer than 32. -/
def Cursor.depth (c : Cursor) : Nat :=
  32 * (c.rest.length + 1)

namespace Parser

/-- The constant that a number or string token stands for. -/
def constantOf (t : Token) : Parser Expr :=
  match t.literal with
  | some (.number x) => return .constant (.number x)
  | some (.string s) => return .constant (.string s)
  | _ => throw (.parse t .malformedLiteral)

/-- The assignment of `value` to `target`, which stands before the token `equal`. Anything but a
variable or a property is no target and stays as it is. -/
def assignTo (target : Expr) (equal : Token) (value : Expr) : Parser Expr :=
  match target with
  | .var _ name => return .assign (← freshId) name value
  | .get object name => return .set object name value
  | _ => do
    note equal .assignmentTarget
    return target

/-- The kinds of token that a primary expression starts with. -/
def primaryKinds : List Kind :=
  [.falseWord, .trueWord, .nilWord, .number, .string, .thisWord, .identifier, .leftParen]

mutual

def expression : Nat → Parser Expr
  | 0 => refuse .nestingTooDeep
  | n + 1 => do
    let target ← conditional n
    match ← accept .equal with
    | none => return target
    | some equal => assignTo target equal (← expression n)

def conditional : Nat → Parser Expr
  | 0 => refuse .nestingTooDeep
  | n + 1 => do
    let condition ← operation n (some .disjunction)
    match ← accept .question with
    | none => return condition
    | some _ =>
      let onTrue ← expression n
      let _ ← expect .colon .conditionalColon
      let onFalse ← expression n
      return .conditional condition onTrue onFalse

/-- An operand joined by the operators of a level; without a level, a unary expression. -/
def operation : Nat → Option Level → Parser Expr
  | 0, _ => refuse .nestingTooDeep
  | n + 1, none => unary n
  | n + 1, some level => do
    let left ← operation n level.tighter?
    operations n level left

/-- The operators of a level and their right operands, behind the expression `left`. -/
def operations : Nat → Level → Expr → Parser Expr
  | 0, _, _ => refuse .nestingTooDeep
  | n + 1, level, left => do
    match ← acceptAny level.operators with
    | none => return left
    | some operator =>
      let right ← operation n level.tighter?
      operations n level (level.join left operator right)

def unary : Nat → Parser Expr
  | 0 => refuse .nestingTooDeep
  | n + 1 => do
    match ← acceptAny [.bang, .minus] with
    | none => suffixes n (← primary n)
    | some operator => return .unary operator (← unary n)

/-- The calls and property accesses behind the expression `object`. -/
def suffixes : Nat → Expr → Parser Expr
  | 0, _ => refuse .nestingTooDeep
  | n + 1, object => do
    match ← acceptAny [.leftParen, .dot] with
    | none => return object
    | some t =>
      if t.kind = .leftParen then
        let arguments ← if ← looksAt .rightParen then pure [] else arguments n 0
        let paren ← expect .rightParen .argumentsClosing
        suffixes n (.call object paren arguments)
      else
        let name ← expect .identifier .propertyName
        suffixes n (.get object name)

/-- The arguments of a call, behind the first `count` of them. -/
def arguments : Nat → Nat → Parser (List Expr)
  | 0, _ => refuse .nestingTooDeep
  | n + 1, count => do
    if maxArity ≤ count then noteHere .tooManyArguments
    let argument ← expression n
    match ← accept .comma with
    | none => return [argument]
    | some _ => return argument :: (← arguments n (count + 1))

def primary : Nat → Parser Expr
  | 0 => refuse .nestingTooDeep
  | n + 1 => do
    match ← acceptAny primaryKinds with
    | none => refuse .expression
    | some t =>
      match t.kind with
      | .falseWord => return .constant (.bool false)
      | .trueWord => return .constant (.bool true)
      | .nilWord => return .constant .nil
      | .thisWord => return .this (← freshId) t
      | .identifier => return .var (← freshId) t
      | .leftParen =>
        let inner ← expression n
        let _ ← expect .rightParen .groupingClosing
        return .grouping inner
      | _ => constantOf t

end

/-- An expression and nothing behind it. A fault that was only noted comes last. -/
def expressionAlone : Parser Expr := do
  let e ← expression (← get).depth
  if !(← atEnd) then
    refuse .endOfExpression
  match (← get).faults with
  | [] => return e
  | fault :: _ => throw fault

end Parser

/-- **The expression that `tokens` form**, or what is wrong with them, and the next free node id. -/
def parseExpression (tokens : List Token) (nextId : NodeId) : Except Diagnostic Expr × NodeId :=
  match Parser.expressionAlone (.start tokens nextId) with
  | .ok e c => (.ok e, c.nextId)
  | .error d c => (.error d, c.nextId)

end LoxLang
