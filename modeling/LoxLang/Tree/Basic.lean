import LoxLang.Token.Basic

/-!
# Tree/Basic — expressions and statements

Operators and names stay tokens, so that messages can quote them. Each use of a name that a scope
may bind — a variable, an assignment, `this` — carries a `NodeId` of its own, by which the scopes
found for it are kept apart from those of every other use.
-/

namespace LoxLang

/-- The number of a use of a name. -/
abbrev NodeId := Nat

/-- A value written in the program text. -/
inductive Constant where
  | nil
  | bool (b : Bool)
  | number (x : Float)
  | string (s : String)
deriving DecidableEq, Repr

inductive Expr where
  | constant (c : Constant)
  | grouping (inner : Expr)
  | unary (operator : Token) (operand : Expr)
  | binary (left : Expr) (operator : Token) (right : Expr)
  | logical (left : Expr) (operator : Token) (right : Expr)
  | conditional (condition onTrue onFalse : Expr)
  | var (id : NodeId) (name : Token)
  | assign (id : NodeId) (name : Token) (value : Expr)
  /-- A call keeps its closing parenthesis, where its faults are reported. -/
  | call (callee : Expr) (paren : Token) (arguments : List Expr)
  | get (object : Expr) (name : Token)
  | set (object : Expr) (name : Token) (value : Expr)
  | this (id : NodeId) (keyword : Token)

mutual

inductive Stmt where
  | exprStmt (e : Expr)
  | printStmt (e : Expr)
  | varDecl (name : Token) (initial : Option Expr)
  | block (body : List Stmt)
  | ifStmt (condition : Expr) (onTrue : Stmt) (onFalse : Option Stmt)
  | whileStmt (condition : Expr) (body : Stmt)
  | forStmt (initial : Option Stmt) (condition increment : Option Expr) (body : Stmt)
  | returnStmt (keyword : Token) (value : Option Expr)
  | funDecl (routine : Routine)
  | classDecl (name : Token) (methods : List Routine)

/-- A function or method as it is declared. -/
structure Routine where
  name : Token
  parameters : List Token
  body : List Stmt

end

/-- The name of the method that sets up a new instance. -/
def initializerName : String := "init"

/-- The name under which a method finds its instance. -/
def thisName : String := "this"

end LoxLang
