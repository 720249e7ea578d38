import Mathlib
import LoxLang.Proofs.Grammar.Progress

/-!
# Proofs/Grammar/Script — parsers as sequences of single steps

A `Script` of a parser says how it is put together from the steps that touch the cursor, and which
kinds of token it looks for. Every rule of the grammar has one (`exprScript`, `stmtScript`). What is
so of the single steps, and of one step behind the other, is then so of every rule: how the tokens
are accessed (`Proofs/Grammar/Buffer`), and that tokens out of sight make no difference
(`Proofs/Grammar/Lookahead`).
-/

namespace LoxLang.Parser

/-- The steps of a parser that looks for tokens of the given kinds only; the end counts as a token
of the kind `eof`. A script that is `ahead` may be followed only where there is a token before the
cursor, and so is recovery: where nothing is left there would be no token to skip. -/
inductive Script (kinds : List Kind) : (ahead : Bool) → {α : Type} → Parser α → Type 1
  | pure {ahead : Bool} {α : Type} (a : α) : Script kinds ahead (Pure.pure a : Parser α)
  | refuse {ahead : Bool} {α : Type} (fault : ParseFault) :
      Script kinds ahead (Parser.refuse fault : Parser α)
  | fail {ahead : Bool} {α : Type} (t : Token) (fault : ParseFault) :
      Script kinds ahead (throw (.parse t fault) : Parser α)
  | note {ahead : Bool} (t : Token) (fault : ParseFault) : Script kinds ahead (Parser.note t fault)
  | noteHere {ahead : Bool} (fault : ParseFault) : Script kinds ahead (Parser.noteHere fault)
  | freshId {ahead : Bool} : Script kinds ahead Parser.freshId
  | looksAt {ahead : Bool} {kind : Kind} (h : kind ∈ kinds) :
      Script kinds ahead (Parser.looksAt kind)
  | acceptAny {ahead : Bool} {accepted : List Kind} (h : accepted ⊆ kinds) :
      Script kinds ahead (Parser.acceptAny accepted)
  | bind {ahead : Bool} {α β : Type} {p : Parser α} {f : α → Parser β}
      (first : Script kinds ahead p) (next : ∀ a, Script kinds false (f a)) :
      Script kinds ahead (p >>= f)
  | atEnd {ahead : Bool} {α : Type} {f : Bool → Parser α} (h : .eof ∈ kinds)
      (closed : Script kinds false (f true)) (going : Script kinds true (f false)) :
      Script kinds ahead (Parser.atEnd >>= f)
  | recovering {p : Parser Stmt} (h : ∀ kind, kind ∈ kinds) (advances : Advances p)
      (body : Script kinds false p) : Script kinds true (Parser.recovering p)
  | anywhere {α : Type} {p : Parser α} (script : Script kinds false p) : Script kinds true p

namespace Script

variable {kinds : List Kind} {ahead : Bool} {α β : Type}

def map {p : Parser α} (script : Script kinds ahead p) (f : α → β) :
    Script kinds ahead (f <$> p) :=
  script.bind fun a => .pure (f a)

def ite {b : Prop} [Decidable b] {p q : Parser α} (hp : Script kinds ahead p)
    (hq : Script kinds ahead q) : Script kinds ahead (if b then p else q) := by
  split
  · exact hp
  · exact hq

def accept {kind : Kind} (h : kind ∈ kinds) : Script kinds ahead (Parser.accept kind) :=
  .acceptAny (by simpa using h)

def expect {kind : Kind} (h : kind ∈ kinds) (fault : ParseFault) :
    Script kinds ahead (Parser.expect kind fault) :=
  (accept h).bind fun
    | none => .refuse fault
    | some t => .pure t

def constantOf (t : Token) : Script kinds ahead (Parser.constantOf t) := by
  unfold Parser.constantOf
  split
  · exact .pure _
  · exact .pure _
  · exact .fail t _

def assignTo (target : Expr) (equal : Token) (value : Expr) :
    Script kinds ahead (Parser.assignTo target equal value) :=
  match target with
  | .var _ _ => freshId.bind fun _ => .pure _
  | .get _ _ => .pure _
  | .constant _ | .grouping _ | .unary _ _ | .binary _ _ _ | .logical _ _ _ | .conditional _ _ _
  | .assign _ _ _ | .call _ _ _ | .set _ _ _ | .this _ _ => (note _ _).bind fun _ => .pure _

/-- **A parser that has a script only moves forward.** -/
theorem steady {p : Parser α} (script : Script kinds ahead p) : Steady p := by
  induction script with
  | pure a => exact .pure a
  | refuse fault => exact .refuse fault
  | fail t fault => exact .throw _
  | note t fault => exact .note t fault
  | noteHere fault => exact .noteHere fault
  | freshId => exact .freshId
  | looksAt _ => exact .looksAt _
  | acceptAny _ => exact .acceptAny _
  | bind _ _ ihp ihf => exact ihp.bind ihf
  | atEnd _ _ _ ihclosed ihgoing => exact Steady.atEnd.bind (Bool.rec ihgoing ihclosed)
  | recovering _ _ _ ih => exact ih.recovering
  | anywhere _ ih => exact ih

end Script

/-! ## Expressions -/

/-- The kinds of token that the rules for expressions look for. -/
def exprKinds : List Kind :=
  primaryKinds ++ ([.rightParen, .comma, .dot, .equal, .question, .colon, .bang, .minus, .plus,
    .slash, .star, .less, .lessEqual, .greater, .greaterEqual, .equalEqual, .bangEqual, .andWord,
    .orWord] : List Kind)

/-- The operators of each level are among the kinds of an expression. -/
theorem operators_subset (level : Level) : level.operators ⊆ exprKinds := by
  cases level <;> decide

variable {kinds : List Kind}

/-- The scripts of the rules for expressions. -/
structure ExprScript (kinds : List Kind) (n : Nat) where
  expression : Script kinds false (expression n)
  conditional : Script kinds false (conditional n)
  operation : ∀ o, Script kinds false (operation n o)
  operations : ∀ level left, Script kinds false (operations n level left)
  unary : Script kinds false (unary n)
  suffixes : ∀ object, Script kinds false (suffixes n object)
  arguments : ∀ count, Script kinds false (arguments n count)
  primary : Script kinds false (primary n)

/-- One argument and the arguments behind it. -/
def argumentsTailScript (h : exprKinds ⊆ kinds) {n : Nat} (ih : ExprScript kinds n) (count : Nat) :
    Script kinds false (do
      let argument ← expression n
      match ← accept .comma with
        | none => return [argument]
        | some _ => return argument :: (← arguments n (count + 1))) :=
  ih.expression.bind fun _ => (Script.accept (h (by decide))).bind fun
    | none => .pure _
    | some _ => (ih.arguments _).bind fun _ => .pure _

def suffixesScript (h : exprKinds ⊆ kinds) {n : Nat} (ih : ExprScript kinds n) (object : Expr) :
    Script kinds false (suffixes (n + 1) object) := by
  refine (Script.acceptAny (List.Subset.trans (by decide) h)).bind fun o => ?_
  cases o with
  | none => exact .pure object
  | some t =>
    refine .ite ?_ ?_
    · refine (Script.looksAt (h (by decide))).bind fun b => ?_
      refine .ite ((Script.pure _).bind fun _ => ?_) ((ih.arguments 0).bind fun _ => ?_)
      · exact (Script.expect (h (by decide)) _).bind fun _ => ih.suffixes _
      · exact (Script.expect (h (by decide)) _).bind fun _ => ih.suffixes _
    · exact (Script.expect (h (by decide)) _).bind fun _ => ih.suffixes _

def primaryScript (h : exprKinds ⊆ kinds) {n : Nat} (ih : ExprScript kinds n) :
    Script kinds false (primary (n + 1)) := by
  refine (Script.acceptAny (List.Subset.trans (by decide) h)).bind fun o => ?_
  cases o with
  | none => exact .refuse _
  | some t =>
    dsimp only
    split
    · exact .pure _
    · exact .pure _
    · exact .pure _
    · exact Script.freshId.bind fun _ => .pure _
    · exact Script.freshId.bind fun _ => .pure _
    · exact ih.expression.bind fun _ => (Script.expect (h (by decide)) _).bind fun _ => .pure _
    · exact .constantOf t

def exprScript (h : exprKinds ⊆ kinds) : ∀ n, ExprScript kinds n
  | 0 =>
    { expression := .refuse _
      conditional := .refuse _
      operation := fun _ => .refuse _
      operations := fun _ _ => .refuse _
      unary := .refuse _
      suffixes := fun _ => .refuse _
      arguments := fun _ => .refuse _
      primary := .refuse _ }
  | n + 1 =>
    let ih := exprScript h n
    { expression :=
        ih.conditional.bind fun target => (Script.accept (h (by decide))).bind fun
          | none => .pure target
          | some equal => ih.expression.bind fun value => .assignTo target equal value
      conditional :=
        (ih.operation _).bind fun condition => (Script.accept (h (by decide))).bind fun
          | none => .pure condition
          | some _ =>
            ih.expression.bind fun _ => (Script.expect (h (by decide)) _).bind fun _ =>
              ih.expression.bind fun _ => .pure _
      operation := fun
        | none => ih.unary
        | some level => (ih.operation _).bind fun left => ih.operations level left
      operations := fun level left =>
        (Script.acceptAny (List.Subset.trans (operators_subset level) h)).bind fun
          | none => .pure left
          | some _ => (ih.operation _).bind fun _ => ih.operations level _
      unary :=
        (Script.acceptAny (List.Subset.trans (by decide) h)).bind fun
          | none => ih.primary.bind fun e => ih.suffixes e
          | some _ => ih.unary.bind fun _ => .pure _
      suffixes := suffixesScript h ih
      arguments := fun count => by
        simp only [arguments]
        have tail := argumentsTailScript h ih count
        exact .ite ((Script.noteHere _).bind fun _ => tail) tail
      primary := primaryScript h ih }

/-! ## Statements -/

/-- The kinds of token that the head of a routine is made of. -/
def headKinds : List Kind :=
  [.identifier, .leftParen, .rightParen, .comma, .leftBrace]

/-- One parameter and the parameters behind it. -/
def parametersTailScript (h : headKinds ⊆ kinds) {n : Nat}
    (more : ∀ count, Script kinds false (parameters n count)) (count : Nat) :
    Script kinds false (do
      let parameter ← expect .identifier .parameterName
      match ← accept .comma with
        | none => return [parameter]
        | some _ => return parameter :: (← parameters n (count + 1))) :=
  (Script.expect (h (by decide)) _).bind fun _ => (Script.accept (h (by decide))).bind fun
    | none => .pure _
    | some _ => (more _).bind fun _ => .pure _

def parametersScript (h : headKinds ⊆ kinds) : ∀ n count, Script kinds false (parameters n count)
  | 0, _ => .refuse _
  | n + 1, count => by
    simp only [parameters]
    have tail := parametersTailScript h (parametersScript h n) count
    exact .ite ((Script.noteHere _).bind fun _ => tail) tail

def routineHeadScript (h : headKinds ⊆ kinds) (n : Nat) (form : RoutineForm) :
    Script kinds false (routineHead n form) := by
  refine (Script.expect (h (by decide)) _).bind fun _ =>
    (Script.expect (h (by decide)) _).bind fun _ => (Script.looksAt (h (by decide))).bind fun _ => ?_
  refine .ite ((Script.pure _).bind fun _ => ?_) ((parametersScript h n 0).bind fun _ => ?_)
  · exact (Script.expect (h (by decide)) _).bind fun _ =>
      (Script.expect (h (by decide)) _).bind fun _ => .pure _
  · exact (Script.expect (h (by decide)) _).bind fun _ =>
      (Script.expect (h (by decide)) _).bind fun _ => .pure _

/-- The name and the initial value of a variable, up to the end of its declaration. -/
def varHead (n : Nat) : Parser (Token × Option Expr) := do
  let name ← expect .identifier .variableName
  match ← accept .equal with
  | some _ => return (name, some (← expression n))
  | none => return (name, none)

/-- A declaration of a variable is its head and a semicolon. -/
theorem varDecl_eq (n : Nat) : varDecl n = (do
    let (name, initial) ← varHead n
    let _ ← expect .semicolon .variableEnd
    return .varDecl name initial) := by
  simp only [varDecl, varHead, bind_assoc]
  refine bind_congr fun name => bind_congr fun o => ?_
  cases o <;> simp

def varHeadScript (h : exprKinds ⊆ kinds) (n : Nat) : Script kinds false (varHead n) :=
  (Script.expect (h (by decide)) _).bind fun _ => (Script.accept (h (by decide))).bind fun
    | none => .pure _
    | some _ => (exprScript h n).expression.bind fun _ => .pure _

section

/-- A rule for statements looks for tokens of all kinds. -/
abbrev FullScript (ahead : Bool) {α : Type} (p : Parser α) : Type 1 :=
  Script Kind.all ahead p

variable (n : Nat)

def expressionScript : FullScript false (expression n) :=
  (exprScript (fun k _ => k.mem_all) n).expression

def varDeclScript : FullScript false (varDecl n) := by
  rw [varDecl_eq]
  exact (varHeadScript (fun k _ => k.mem_all) n).bind fun _ =>
    (Script.expect (Kind.mem_all _) _).bind fun _ => .pure _

def expressionUpToScript (kind : Kind) (fault : ParseFault) :
    FullScript false (expressionUpTo n kind fault) :=
  (expressionScript n).bind fun _ => (Script.expect (Kind.mem_all _) _).bind fun _ => .pure _

def optionalUpToScript (kind : Kind) (fault : ParseFault) :
    FullScript false (optionalUpTo n kind fault) := by
  refine (Script.looksAt (Kind.mem_all _)).bind fun _ => ?_
  refine .ite ((Script.pure _).bind fun _ => ?_) (((expressionScript n).map some).bind fun _ => ?_)
  · exact (Script.expect (Kind.mem_all _) _).bind fun _ => .pure _
  · exact (Script.expect (Kind.mem_all _) _).bind fun _ => .pure _

def forInitialScript : FullScript false (forInitial n) :=
  (Script.acceptAny fun k _ => k.mem_all).bind fun
    | none => (expressionUpToScript n _ _).bind fun _ => .pure _
    | some _ => .ite (.pure none) ((varDeclScript n).map some)

/-- The scripts of the rules for statements. -/
structure StmtScript where
  declaration : FullScript true (declaration n)
  methods : FullScript false (methods n)
  routine : ∀ form, FullScript false (routine n form)
  statement : FullScript false (statement n)
  block : FullScript false (block n)

variable {n}

def declarationBodyScript (ih : StmtScript n) : FullScript false (declarationBody n) := by
  refine (Script.acceptAny fun k _ => k.mem_all).bind fun o => ?_
  cases o with
  | none => exact ih.statement
  | some t =>
    dsimp only
    split
    · exact (Script.expect (Kind.mem_all _) _).bind fun _ =>
        (Script.expect (Kind.mem_all _) _).bind fun _ => ih.methods.bind fun _ =>
        (Script.expect (Kind.mem_all _) _).bind fun _ => .pure _
    · exact (ih.routine _).bind fun _ => .pure _
    · exact varDeclScript n

def statementScript (ih : StmtScript n) : FullScript false (statement (n + 1)) := by
  refine (Script.acceptAny fun k _ => k.mem_all).bind fun o => ?_
  cases o with
  | none => exact (expressionUpToScript n _ _).bind fun _ => .pure _
  | some t =>
    dsimp only
    split
    · exact (Script.expect (Kind.mem_all _) _).bind fun _ => (forInitialScript n).bind fun _ =>
        (optionalUpToScript n _ _).bind fun _ => (optionalUpToScript n _ _).bind fun _ =>
        ih.statement.bind fun _ => .pure _
    · refine (Script.expect (Kind.mem_all _) _).bind fun _ =>
        (expressionUpToScript n _ _).bind fun _ => ih.statement.bind fun _ =>
        (Script.accept (Kind.mem_all _)).bind fun o => ?_
      cases o with
      | none => exact .pure _
      | some _ => exact ih.statement.bind fun _ => .pure _
    · exact (Script.expect (Kind.mem_all _) _).bind fun _ =>
        (expressionUpToScript n _ _).bind fun _ => ih.statement.bind fun _ => .pure _
    · exact (optionalUpToScript n _ _).bind fun _ => .pure _
    · exact ih.block.bind fun _ => .pure _
    · exact (expressionUpToScript n _ _).bind fun _ => .pure _

/-- A loop up to a closing brace or the end. -/
def untilBrace {α : Type} {p q : Parser α} (closed : FullScript false p) (going : FullScript true q) :
    FullScript false (do if (← looksAt .rightBrace) || (← atEnd) then p else q) := by
  refine (Script.looksAt (Kind.mem_all _)).bind fun b => ?_
  cases b with
  | true => exact .atEnd (Kind.mem_all _) closed (.anywhere closed)
  | false => exact .atEnd (Kind.mem_all _) closed going

def stmtScript : ∀ n, StmtScript n
  | 0 =>
    { declaration := .refuse _
      methods := .refuse _
      routine := fun _ => .refuse _
      statement := .refuse _
      block := .refuse _ }
  | n + 1 =>
    let ih := stmtScript n
    { declaration := .recovering Kind.mem_all (advances_declarationBody n) (declarationBodyScript ih)
      methods :=
        untilBrace (.pure _)
          (.anywhere ((ih.routine _).bind fun _ => ih.methods.bind fun _ => .pure _))
      routine := fun form =>
        (routineHeadScript (fun k _ => k.mem_all) n form).bind fun _ =>
          ih.block.bind fun _ => .pure _
      statement := statementScript ih
      block :=
        untilBrace ((Script.expect (Kind.mem_all _) _).bind fun _ => .pure _)
          (ih.declaration.bind fun _ => ih.block.bind fun _ => .pure _) }

def programScript : ∀ n, FullScript false (program n)
  | 0 => .refuse _
  | n + 1 =>
    .atEnd (Kind.mem_all _) (.pure [])
      ((stmtScript n).declaration.bind fun _ => (programScript n).bind fun _ => .pure _)

end

end LoxLang.Parser
