import Std.Data.TreeMap
import LoxLang.Diagnostic
import LoxLang.Tree.Basic

/-!
# Scope/Resolve — which scope each use of a name means

A walk over the statements keeps the scopes that are open, innermost first, and finds for each use
of a name the number of scopes between it and the scope that declares the name. A name that no open
scope declares is global and gets no distance. The walk covers the whole tree and notes every fault
on its way.
-/

namespace LoxLang.Scope

/-- Whether a declared name can be read yet: its initial value stands before it is defined. -/
inductive Mark where
  | declared
  | defined
deriving DecidableEq, Repr

/-- The names of a scope. -/
abbrev Names := Std.TreeMap String Mark

/-- What the body of a routine belongs to. -/
inductive RoutineKind where
  | function
  | method
  | initializer
deriving DecidableEq, Repr

/-- What encloses the place of the walk. -/
structure Context where
  /-- The innermost routine. -/
  routine : Option RoutineKind
  inClass : Bool
deriving DecidableEq, Repr

/-- The walk so far. -/
structure Walk where
  /-- The open scopes, innermost first. The globals are not among them. -/
  scopes : List Names
  /-- The distances found, the latest first. -/
  found : List (NodeId × Nat)
  faults : List Diagnostic

/-- A stretch of the walk. -/
abbrev Walker := StateM Walk

/-- Notes a fault. -/
def note (token : Token) (fault : ScopeFault) : Walker Unit :=
  modify fun w => { w with faults := w.faults ++ [.resolve token fault] }

/-- Enters a name into the innermost scope. -/
def mark (name : Token) (m : Mark) : Walker Unit :=
  modify fun w => match w.scopes with
    | [] => w
    | scope :: scopes => { w with scopes := scope.insert name.lexeme m :: scopes }

/-- What the innermost scope says about a name. -/
def innermost? (name : Token) : Walker (Option Mark) := do
  match (← get).scopes with
  | [] => return none
  | scope :: _ => return scope[name.lexeme]?

/-- Declares a name in the innermost scope, where it may not be declared already. -/
def declare (name : Token) : Walker Unit := do
  if (← innermost? name).isSome then note name .alreadyDeclared
  mark name .declared

def define (name : Token) : Walker Unit :=
  mark name .defined

/-- The number of scopes inside the innermost one that has the name. -/
def distance? (name : String) (scopes : List Names) : Option Nat :=
  scopes.findIdx? (·.contains name)

/-- Notes the distance of a use of a name. -/
def locate (id : NodeId) (name : Token) : Walker Unit :=
  modify fun w => match distance? name.lexeme w.scopes with
    | none => w
    | some d => { w with found := (id, d) :: w.found }

/-- Walks inside a new scope that has `names` from the start. -/
def within (names : Names) (walk : Walker Unit) : Walker Unit := do
  modify fun w => { w with scopes := names :: w.scopes }
  walk
  modify fun w => { w with scopes := w.scopes.tail }

mutual

def expr (ctx : Context) : Expr → Walker Unit
  | .constant _ => return
  | .grouping inner => expr ctx inner
  | .unary _ operand => expr ctx operand
  | .binary left _ right | .logical left _ right => do
    expr ctx left
    expr ctx right
  | .conditional condition onTrue onFalse => do
    expr ctx condition
    expr ctx onTrue
    expr ctx onFalse
  | .var id name => do
    if (← innermost? name) = some .declared then note name .ownInitializer
    locate id name
  | .assign id name value => do
    expr ctx value
    locate id name
  | .call callee _ arguments => do
    expr ctx callee
    exprs ctx arguments
  | .get object _ => expr ctx object
  | .set object _ value => do
    expr ctx object
    expr ctx value
  | .this id keyword =>
    if ctx.inClass then locate id keyword else note keyword .thisOutsideClass

def exprs (ctx : Context) : List Expr → Walker Unit
  | [] => return
  | e :: es => do
    expr ctx e
    exprs ctx es

end

/-- Walks over an expression that may be left out. -/
def optional (ctx : Context) : Option Expr → Walker Unit
  | none => return
  | some e => expr ctx e

/-- The kind of a method: the initializer is known by its name. -/
def methodKind (method : Routine) : RoutineKind :=
  if method.name.lexeme = initializerName then .initializer else .method

/-- Declares and defines the parameters of a routine. -/
def parameters : List Token → Walker Unit
  | [] => return
  | p :: ps => do
    declare p
    define p
    parameters ps

mutual

def stmt (ctx : Context) : Stmt → Walker Unit
  | .exprStmt e | .printStmt e => expr ctx e
  | .varDecl name initial => do
    declare name
    optional ctx initial
    define name
  | .block body => within ∅ (stmts ctx body)
  | .ifStmt condition onTrue onFalse => do
    expr ctx condition
    stmt ctx onTrue
    optionalStmt ctx onFalse
  | .whileStmt condition body => do
    expr ctx condition
    stmt ctx body
  | .forStmt initial condition increment body => within ∅ do
    optionalStmt ctx initial
    optional ctx condition
    optional ctx increment
    stmt ctx body
  | .returnStmt keyword value => do
    if ctx.routine.isNone then note keyword .returnAtTopLevel
    if value.isSome && ctx.routine = some .initializer then note keyword .returnFromInitializer
    optional ctx value
  | .funDecl r => do
    declare r.name
    define r.name
    routine ctx .function r
  | .classDecl name methodList => do
    declare name
    define name
    within {(thisName, Mark.defined)} (methods { ctx with inClass := true } methodList)

def stmts (ctx : Context) : List Stmt → Walker Unit
  | [] => return
  | s :: ss => do
    stmt ctx s
    stmts ctx ss

def optionalStmt (ctx : Context) : Option Stmt → Walker Unit
  | none => return
  | some s => stmt ctx s

/-- A routine: parameters and body share one scope. -/
def routine (ctx : Context) (kind : RoutineKind) : Routine → Walker Unit
  | ⟨_, ps, body⟩ => within ∅ do
    parameters ps
    stmts { ctx with routine := some kind } body

def methods (ctx : Context) : List Routine → Walker Unit
  | [] => return
  | m :: ms => do
    routine ctx (methodKind m) m
    methods ctx ms

end

end Scope

/-- What the scopes of a program come to. -/
structure Resolution where
  /-- The distance of each use of a name that is not global, in the order found. -/
  distances : List (NodeId × Nat)
  faults : List Diagnostic

/-- **The scope distances and scope faults of a program.** -/
def resolve (statements : List Stmt) : Resolution :=
  let (_, walk) := Scope.stmts ⟨none, false⟩ statements |>.run ⟨[], [], []⟩
  ⟨walk.found.reverse, walk.faults⟩

end LoxLang
