import LoxLang.Grammar.Expression

/-!
# Grammar/Program — reading statements and programs

    program     → declaration* EOF
    declaration → classDecl | funDecl | varDecl | statement
    classDecl   → "class" IDENT "{" routine* "}"
    funDecl     → "fun" routine
    routine     → IDENT "(" parameters? ")" block
    varDecl     → "var" IDENT ( "=" expression )? ";"
    statement   → exprStmt | forStmt | ifStmt | printStmt | returnStmt | whileStmt | block
    forStmt     → "for" "(" ( varDecl | exprStmt | ";" ) expression? ";" expression? ")" statement
    ifStmt      → "if" "(" expression ")" statement ( "else" statement )?
    block       → "{" declaration* "}"

A declaration that fails is left out: its fault is noted, and reading goes on where
`resynchronize` finds a likely start of the next one.
-/

namespace LoxLang

/-- The kinds of token that a declaration is likely to start with. -/
def Kind.startsDeclaration (k : Kind) : Bool :=
  k ∈ [.classWord, .funWord, .varWord, .forWord, .ifWord, .whileWord, .printWord, .returnWord]

namespace Parser

/-- Skips tokens behind `previous` up to the end of a statement or the start of a declaration. -/
def skipFrom (previous : Token) : List Token → List Token
  | [] => []
  | t :: rest =>
    if previous.kind = .semicolon || t.kind.startsDeclaration then t :: rest else skipFrom t rest

/-- The tokens where reading goes on after a failure. The token of the failure is always skipped. -/
def resynchronize : List Token → List Token
  | [] => []
  | t :: rest => skipFrom t rest

/-- Reads a statement; a failure is noted and yields none. -/
def recovering (p : Parser Stmt) : Parser (Option Stmt) := fun c =>
  match p c with
  | .ok s c => .ok (some s) c
  | .error d c => .ok none { c with rest := resynchronize c.rest, faults := c.faults ++ [d] }

/-- An expression up to a token that closes it. -/
def expressionUpTo (n : Nat) (kind : Kind) (fault : ParseFault) : Parser Expr := do
  let e ← expression n
  let _ ← expect kind fault
  return e

/-- An expression, or none if the token that closes it comes first. -/
def optionalUpTo (n : Nat) (kind : Kind) (fault : ParseFault) : Parser (Option Expr) := do
  let e ← if ← looksAt kind then pure none else some <$> expression n
  let _ ← expect kind fault
  return e

/-- The rest of a variable declaration. -/
def varDecl (n : Nat) : Parser Stmt := do
  let name ← expect .identifier .variableName
  let initial ← match ← accept .equal with
    | some _ => some <$> expression n
    | none => pure none
  let _ ← expect .semicolon .variableEnd
  return .varDecl name initial

/-- The parameters of a routine, behind the first `count` of them. -/
def parameters : Nat → Nat → Parser (List Token)
  | 0, _ => refuse .nestingTooDeep
  | n + 1, count => do
    if maxArity ≤ count then noteHere .tooManyParameters
    let parameter ← expect .identifier .parameterName
    match ← accept .comma with
    | none => return [parameter]
    | some _ => return parameter :: (← parameters n (count + 1))

/-- The name and the parameters of a routine, up to its body. -/
def routineHead (n : Nat) (form : RoutineForm) : Parser (Token × List Token) := do
  let name ← expect .identifier (.routineName form)
  let _ ← expect .leftParen (.parametersOpening form)
  let parameters ← if ← looksAt .rightParen then pure [] else parameters n 0
  let _ ← expect .rightParen .parametersClosing
  let _ ← expect .leftBrace (.routineBody form)
  return (name, parameters)

/-- The first clause of a `for`. -/
def forInitial (n : Nat) : Parser (Option Stmt) := do
  match ← acceptAny [.semicolon, .varWord] with
  | none => return some (.exprStmt (← expressionUpTo n .semicolon .expressionEnd))
  | some t => if t.kind = .semicolon then return none else some <$> varDecl n

mutual

def declaration : Nat → Parser (Option Stmt)
  | 0 => refuse .nestingTooDeep
  | n + 1 => recovering do
    match ← acceptAny [.classWord, .funWord, .varWord] with
    | none => statement n
    | some t =>
      match t.kind with
      | .classWord =>
        let name ← expect .identifier .className
        let _ ← expect .leftBrace .classBodyOpening
        let methods ← methods n
        let _ ← expect .rightBrace .classBodyClosing
        return .classDecl name methods
      | .funWord => return .funDecl (← routine n .function)
      | _ => varDecl n

/-- Methods up to the end of a class body. -/
def methods : Nat → Parser (List Routine)
  | 0 => refuse .nestingTooDeep
  | n + 1 => do
    if (← looksAt .rightBrace) || (← atEnd) then return []
    let method ← routine n .method
    return method :: (← methods n)

def routine : Nat → RoutineForm → Parser Routine
  | 0, _ => refuse .nestingTooDeep
  | n + 1, form => do
    let (name, parameters) ← routineHead n form
    return { name, parameters, body := ← block n }

def statement : Nat → Parser Stmt
  | 0 => refuse .nestingTooDeep
  | n + 1 => do
    match ← acceptAny [.forWord, .ifWord, .whileWord, .returnWord, .leftBrace, .printWord] with
    | none => return .exprStmt (← expressionUpTo n .semicolon .expressionEnd)
    | some t =>
      match t.kind with
      | .forWord =>
        let _ ← expect .leftParen .forOpening
        let initial ← forInitial n
        let condition ← optionalUpTo n .semicolon .forConditionEnd
        let increment ← optionalUpTo n .rightParen .forClosing
        return .forStmt initial condition increment (← statement n)
      | .ifWord =>
        let _ ← expect .leftParen .ifOpening
        let condition ← expressionUpTo n .rightParen .ifClosing
        let onTrue ← statement n
        match ← accept .elseWord with
        | none => return .ifStmt condition onTrue none
        | some _ => return .ifStmt condition onTrue (some (← statement n))
      | .whileWord =>
        let _ ← expect .leftParen .whileOpening
        let condition ← expressionUpTo n .rightParen .whileClosing
        return .whileStmt condition (← statement n)
      | .returnWord => return .returnStmt t (← optionalUpTo n .semicolon .returnEnd)
      | .leftBrace => return .block (← block n)
      | _ => return .printStmt (← expressionUpTo n .semicolon .printEnd)

/-- Declarations up to a closing brace, and the brace. -/
def block : Nat → Parser (List Stmt)
  | 0 => refuse .nestingTooDeep
  | n + 1 => do
    if (← looksAt .rightBrace) || (← atEnd) then
      let _ ← expect .rightBrace .blockClosing
      return []
    let s ← declaration n
    return s.toList ++ (← block n)

end

/-- Declarations up to the end. -/
def program : Nat → Parser (List Stmt)
  | 0 => refuse .nestingTooDeep
  | n + 1 => do
    if ← atEnd then return []
    let s ← declaration n
    return s.toList ++ (← program n)

end Parser

/-- What was read of a program. -/
structure Parsed where
  /-- The statements that could be read. -/
  statements : List Stmt
  faults : List Diagnostic
  /-- The next free node id. -/
  nextId : NodeId

/-- **The statements that `tokens` form**, and everything that is wrong with them. -/
def parse (tokens : List Token) (nextId : NodeId) : Parsed :=
  let c := Cursor.start tokens nextId
  match Parser.program c.depth c with
  | .ok statements c => ⟨statements, c.faults, c.nextId⟩
  | .error d c => ⟨[], c.faults ++ [d], c.nextId⟩

end LoxLang
