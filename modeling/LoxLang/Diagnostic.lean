import LoxLang.Token.Basic

/-!
# Diagnostic — what can be wrong with a program

A fault is a cause; its wording is `message`. A `Diagnostic` is a fault with its place. Faults of the
text, the grammar and the scopes are found before a program runs, the others stop it.
-/

namespace LoxLang

/-- Faults of the source text. -/
inductive LexFault where
  | unexpectedCharacter (c : Char)
  | unterminatedString
deriving DecidableEq, Repr

def LexFault.message : LexFault → String
  | .unexpectedCharacter c => "Unexpected character: " ++ String.singleton c
  | .unterminatedString => "Unterminated string."

/-- The two places where a routine is declared. -/
inductive RoutineForm where
  | function
  | method
deriving DecidableEq, Repr

def RoutineForm.name : RoutineForm → String
  | .function => "function"
  | .method => "method"

/-- Faults of the grammar. Most name what was expected. -/
inductive ParseFault where
  | className
  | classBodyOpening
  | classBodyClosing
  | routineName (form : RoutineForm)
  | parametersOpening (form : RoutineForm)
  | tooManyParameters
  | parameterName
  | parametersClosing
  | routineBody (form : RoutineForm)
  | variableName
  | variableEnd
  | forOpening
  | forConditionEnd
  | forClosing
  | printEnd
  | expressionEnd
  | ifOpening
  | ifClosing
  | whileOpening
  | whileClosing
  | returnEnd
  | blockClosing
  | conditionalColon
  | propertyName
  | tooManyArguments
  | argumentsClosing
  | groupingClosing
  | assignmentTarget
  | malformedLiteral
  | expression
  | endOfExpression
  | nestingTooDeep
deriving DecidableEq, Repr

def ParseFault.message : ParseFault → String
  | .className => "Expect class name."
  | .classBodyOpening => "Expect '\x7b' before class body."
  | .classBodyClosing => "Expect '\x7d' after class body."
  | .routineName form => "Expect " ++ form.name ++ " name."
  | .parametersOpening form => "Expect '(' after " ++ form.name ++ " name."
  | .tooManyParameters => "Can't have more than 255 parameters."
  | .parameterName => "Expect parameter name."
  | .parametersClosing => "Expect ')' after parameters."
  | .routineBody form => "Expect '\x7b' before " ++ form.name ++ " body."
  | .variableName => "Expect variable name."
  | .variableEnd => "Expect ';' after variable declaration."
  | .forOpening => "Expect '(' after 'for'."
  | .forConditionEnd => "Expect ';' after loop condition."
  | .forClosing => "Expect ')' after for clauses."
  | .printEnd => "Expect ';' after value."
  | .expressionEnd => "Expect ';' after expression."
  | .ifOpening => "Expect '(' after 'if'."
  | .ifClosing => "Expect ')' after if condition."
  | .whileOpening => "Expect '(' after 'while'."
  | .whileClosing => "Expect ')' after condition."
  | .returnEnd => "Expect ';' after return value."
  | .blockClosing => "Expect '\x7d' after block."
  | .conditionalColon => "Expect ':' after then branch of conditional expression."
  | .propertyName => "Expect property name after '.'."
  | .tooManyArguments => "Can't have more than 255 arguments."
  | .argumentsClosing => "Expect ')' after arguments."
  | .groupingClosing => "Expect ')' after expression."
  | .assignmentTarget => "Invalid assignment target."
  | .malformedLiteral => "Malformed literal."
  | .expression => "Expect expression."
  | .endOfExpression => "Expect end of expression."
  | .nestingTooDeep => "Nesting too deep."

/-- Faults of the scopes. -/
inductive ScopeFault where
  | ownInitializer
  | alreadyDeclared
  | returnAtTopLevel
  | returnFromInitializer
  | thisOutsideClass
deriving DecidableEq, Repr

def ScopeFault.message : ScopeFault → String
  | .ownInitializer => "Can't read local variable in its own initializer."
  | .alreadyDeclared => "Already a variable with this name in this scope."
  | .returnAtTopLevel => "Can't return from top-level code."
  | .returnFromInitializer => "Can't return a value from an initializer."
  | .thisOutsideClass => "Can't use 'this' outside of a class."

/-- Faults that stop a running program. -/
inductive RuntimeFault where
  | numberOperand
  | numberOperands
  | addableOperands
  | divisionByZero
  | unaryOperator
  | binaryOperator
  | notCallable
  | wrongArity (expected given : Nat)
  | noProperties
  | noFields
  | undefinedProperty (name : String)
  | undefinedVariable (name : String)
  | scopeMissing (name : String)
  | host (message : String)
deriving DecidableEq, Repr

def RuntimeFault.message : RuntimeFault → String
  | .numberOperand => "Operand must be a number."
  | .numberOperands => "Operands must be numbers."
  | .addableOperands => "Operands must be two numbers or two strings."
  | .divisionByZero => "Division by zero."
  | .unaryOperator => "Invalid unary operator."
  | .binaryOperator => "Invalid binary operator."
  | .notCallable => "Can only call functions and classes."
  | .wrongArity expected given =>
    "Expected " ++ toString expected ++ " arguments but got " ++ toString given ++ "."
  | .noProperties => "Only instances have properties."
  | .noFields => "Only instances have fields."
  | .undefinedProperty name => "Undefined property '" ++ name ++ "'."
  | .undefinedVariable name => "Undefined variable '" ++ name ++ "'."
  | .scopeMissing name => "Scope for '" ++ name ++ "' is missing."
  | .host message => message

/-- A fault and its place. -/
inductive Diagnostic where
  | lex (line : Nat) (fault : LexFault)
  | parse (token : Token) (fault : ParseFault)
  | resolve (token : Token) (fault : ScopeFault)
  | runtime (line : Nat) (fault : RuntimeFault)
  /-- The sink takes no more output. -/
  | output
deriving DecidableEq, Repr

namespace Diagnostic

def message : Diagnostic → String
  | lex _ fault => fault.message
  | parse _ fault => fault.message
  | resolve _ fault => fault.message
  | runtime _ fault => fault.message
  | output => "pipe closed"

/-- The line of the fault; output has none, which is written as 0. -/
def line : Diagnostic → Nat
  | lex line _ | runtime line _ => line
  | parse token _ | resolve token _ => token.line
  | output => 0

/-- Where in its line the fault is. Only faults found at a token say it. -/
def location : Diagnostic → String
  | parse token _ | resolve token _ => token.location
  | lex .. | runtime .. | output => ""

/-- A message behind its line and place. -/
def placed (line : Nat) (location message : String) : String :=
  "[line " ++ toString line ++ "] Error"
    ++ (if location.isEmpty then "" else " " ++ location) ++ ": " ++ message

/-- The diagnostic on its own. -/
def text : Diagnostic → String
  | runtime line fault => fault.message ++ "\n[line " ++ toString line ++ "]"
  | output => message output
  | d => placed d.line d.location d.message

/-- The diagnostic as a session reports it. -/
def reported : Diagnostic → String
  | output => placed 0 "" (message output)
  | d => d.text

end Diagnostic

end LoxLang
