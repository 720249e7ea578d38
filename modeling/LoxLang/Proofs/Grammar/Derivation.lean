import Mathlib
import LoxLang.Grammar.Program

/-!
# Proofs/Grammar/Derivation — the grammar of the language

The grammar says which tokens form a phrase and which tree the phrase has, without saying how the
tokens are read. `Derives r w t` is a derivation of the tokens `w` from the rule `r`, with the tree
`t`; `Forms` does the same for statements. Node ids are no part of the grammar: the trees here are
*bare*, all their ids are zero, and `Expr.bare` takes the ids off any other tree.

The grammar leaves open which `if` an `else` belongs to. `Forms nearest` has the choice as a
parameter: where `nearest` holds, an `else` never passes over an `if` that lacks one.
-/

namespace LoxLang

/-! ## Bare trees -/

namespace Expr

mutual

/-- The tree without node ids. -/
def bare : Expr → Expr
  | .constant c => .constant c
  | .grouping inner => .grouping inner.bare
  | .unary operator operand => .unary operator operand.bare
  | .binary left operator right => .binary left.bare operator right.bare
  | .logical left operator right => .logical left.bare operator right.bare
  | .conditional condition onTrue onFalse =>
    .conditional condition.bare onTrue.bare onFalse.bare
  | .var _ name => .var 0 name
  | .assign _ name value => .assign 0 name value.bare
  | .call callee paren arguments => .call callee.bare paren (bareAll arguments)
  | .get object name => .get object.bare name
  | .set object name value => .set object.bare name value.bare
  | .this _ keyword => .this 0 keyword

def bareAll : List Expr → List Expr
  | [] => []
  | e :: es => e.bare :: bareAll es

end

attribute [simp] bare bareAll

@[simp] theorem length_bareAll : ∀ es : List Expr, (bareAll es).length = es.length
  | [] => rfl
  | _ :: es => congrArg (· + 1) (length_bareAll es)

end Expr

theorem Level.bare_join (level : Level) (left right : Expr) (operator : Token) :
    (level.join left operator right).bare = level.join left.bare operator right.bare := by
  cases level <;> rfl

mutual

/-- The statement without node ids. -/
def Stmt.bare : Stmt → Stmt
  | .exprStmt e => .exprStmt e.bare
  | .printStmt e => .printStmt e.bare
  | .varDecl name initial => .varDecl name (initial.map Expr.bare)
  | .block body => .block (Stmt.bareAll body)
  | .ifStmt condition onTrue onFalse =>
    .ifStmt condition.bare onTrue.bare (Stmt.bareOption onFalse)
  | .whileStmt condition body => .whileStmt condition.bare body.bare
  | .forStmt initial condition increment body =>
    .forStmt (Stmt.bareOption initial) (condition.map Expr.bare) (increment.map Expr.bare) body.bare
  | .returnStmt keyword value => .returnStmt keyword (value.map Expr.bare)
  | .funDecl routine => .funDecl routine.bare
  | .classDecl name methods => .classDecl name (Routine.bareAll methods)

def Stmt.bareAll : List Stmt → List Stmt
  | [] => []
  | s :: ss => s.bare :: Stmt.bareAll ss

def Stmt.bareOption : Option Stmt → Option Stmt
  | none => none
  | some s => some s.bare

/-- The routine without node ids. -/
def Routine.bare : Routine → Routine
  | ⟨name, parameters, body⟩ => ⟨name, parameters, Stmt.bareAll body⟩

def Routine.bareAll : List Routine → List Routine
  | [] => []
  | r :: rs => r.bare :: Routine.bareAll rs

end

attribute [simp] Stmt.bare Stmt.bareAll Stmt.bareOption Routine.bare Routine.bareAll

@[simp] theorem Stmt.bareAll_append : ∀ ss ts : List Stmt,
    Stmt.bareAll (ss ++ ts) = Stmt.bareAll ss ++ Stmt.bareAll ts
  | [], _ => rfl
  | s :: ss, ts => by simp [Stmt.bareAll_append ss ts]

namespace Grammar

/-! ## Expressions -/

/-- The rules for expressions. -/
inductive ExprRule where
  | expression
  | conditional
  /-- Operands joined by the operators of a level; without a level, a unary expression. -/
  | operation (level : Option Level)
  | call
  | arguments
  | primary

/-- What a rule for expressions forms. -/
abbrev ExprRule.Tree : ExprRule → Type
  | arguments => List Expr
  | _ => Expr

/-- **The tokens `w` derive from the rule `r`, with the tree `t`.** -/
inductive Derives : (r : ExprRule) → (w : List Token) → (t : r.Tree) → Prop where
  /-- `IDENT "=" expression` -/
  | assign {name equal : Token} {w : List Token} {value : Expr} :
    name.kind = .identifier → equal.kind = .equal → Derives .expression w value →
    Derives .expression (name :: equal :: w) (.assign 0 name value)
  /-- `call "." IDENT "=" expression` -/
  | set {u w : List Token} {object value : Expr} {dot name equal : Token} :
    Derives .call u object → dot.kind = .dot → name.kind = .identifier → equal.kind = .equal →
    Derives .expression w value →
    Derives .expression (u ++ dot :: name :: equal :: w) (.set object name value)
  | ofConditional {w : List Token} {e : Expr} :
    Derives .conditional w e → Derives .expression w e
  /-- `disjunction "?" expression ":" expression` -/
  | choose {u v w : List Token} {condition onTrue onFalse : Expr} {question colon : Token} :
    Derives (.operation (some .disjunction)) u condition → question.kind = .question →
    Derives .expression v onTrue → colon.kind = .colon → Derives .expression w onFalse →
    Derives .conditional (u ++ question :: (v ++ colon :: w)) (.conditional condition onTrue onFalse)
  | ofOperation {w : List Token} {e : Expr} :
    Derives (.operation (some .disjunction)) w e → Derives .conditional w e
  /-- The operators of one level join from the left. -/
  | join {level : Level} {u w : List Token} {left right : Expr} {operator : Token} :
    Derives (.operation (some level)) u left → operator.kind ∈ level.operators →
    Derives (.operation level.tighter?) w right →
    Derives (.operation (some level)) (u ++ operator :: w) (level.join left operator right)
  | ofTighter {level : Level} {w : List Token} {e : Expr} :
    Derives (.operation level.tighter?) w e → Derives (.operation (some level)) w e
  /-- `( "!" | "-" ) unary` -/
  | unary {w : List Token} {operand : Expr} {operator : Token} :
    operator.kind = .bang ∨ operator.kind = .minus → Derives (.operation none) w operand →
    Derives (.operation none) (operator :: w) (.unary operator operand)
  | ofCall {w : List Token} {e : Expr} : Derives .call w e → Derives (.operation none) w e
  /-- `call "(" ")"` -/
  | callEmpty {u : List Token} {callee : Expr} {opening closing : Token} :
    Derives .call u callee → opening.kind = .leftParen → closing.kind = .rightParen →
    Derives .call (u ++ [opening, closing]) (.call callee closing [])
  /-- `call "(" arguments ")"`, with no more arguments than are allowed. -/
  | call {u w : List Token} {callee : Expr} {arguments : List Expr} {opening closing : Token} :
    Derives .call u callee → opening.kind = .leftParen → Derives .arguments w arguments →
    arguments.length ≤ maxArity → closing.kind = .rightParen →
    Derives .call (u ++ opening :: (w ++ [closing])) (.call callee closing arguments)
  /-- `call "." IDENT` -/
  | get {u : List Token} {object : Expr} {dot name : Token} :
    Derives .call u object → dot.kind = .dot → name.kind = .identifier →
    Derives .call (u ++ [dot, name]) (.get object name)
  | ofPrimary {w : List Token} {e : Expr} : Derives .primary w e → Derives .call w e
  | argument {w : List Token} {e : Expr} : Derives .expression w e → Derives .arguments w [e]
  /-- `expression "," arguments` -/
  | moreArguments {u w : List Token} {e : Expr} {es : List Expr} {comma : Token} :
    Derives .expression u e → comma.kind = .comma → Derives .arguments w es →
    Derives .arguments (u ++ comma :: w) (e :: es)
  | falseWord {t : Token} : t.kind = .falseWord → Derives .primary [t] (.constant (.bool false))
  | trueWord {t : Token} : t.kind = .trueWord → Derives .primary [t] (.constant (.bool true))
  | nilWord {t : Token} : t.kind = .nilWord → Derives .primary [t] (.constant .nil)
  /-- A literal token stands for the number that it carries … -/
  | number {t : Token} {x : Float} :
    t.kind = .number ∨ t.kind = .string → t.literal = some (.number x) →
    Derives .primary [t] (.constant (.number x))
  /-- … or for the string. -/
  | string {t : Token} {s : String} :
    t.kind = .number ∨ t.kind = .string → t.literal = some (.string s) →
    Derives .primary [t] (.constant (.string s))
  | this {t : Token} : t.kind = .thisWord → Derives .primary [t] (.this 0 t)
  | use {t : Token} : t.kind = .identifier → Derives .primary [t] (.var 0 t)
  /-- `"(" expression ")"` -/
  | grouping {w : List Token} {inner : Expr} {opening closing : Token} :
    opening.kind = .leftParen → Derives .expression w inner → closing.kind = .rightParen →
    Derives .primary (opening :: (w ++ [closing])) (.grouping inner)

/-- An expression that may be left out. -/
inductive Optional : List Token → Option Expr → Prop where
  | absent : Optional [] none
  | present {w : List Token} {e : Expr} : Derives .expression w e → Optional w (some e)

/-! ## Statements -/

/-- `"var" IDENT ( "=" expression )? ";"`, behind the first word. -/
inductive VarDecl : List Token → Stmt → Prop where
  | plain {name semicolon : Token} :
    name.kind = .identifier → semicolon.kind = .semicolon →
    VarDecl [name, semicolon] (.varDecl name none)
  | initial {w : List Token} {e : Expr} {name equal semicolon : Token} :
    name.kind = .identifier → equal.kind = .equal → Derives .expression w e →
    semicolon.kind = .semicolon →
    VarDecl (name :: equal :: (w ++ [semicolon])) (.varDecl name (some e))

/-- `expression ";"` -/
inductive ExprStmt : List Token → Stmt → Prop where
  | mk {w : List Token} {e : Expr} {semicolon : Token} :
    Derives .expression w e → semicolon.kind = .semicolon →
    ExprStmt (w ++ [semicolon]) (.exprStmt e)

/-- `varDecl | exprStmt | ";"` -/
inductive ForInitial : List Token → Option Stmt → Prop where
  | empty {semicolon : Token} : semicolon.kind = .semicolon → ForInitial [semicolon] none
  | ofVarDecl {w : List Token} {s : Stmt} {var : Token} :
    var.kind = .varWord → VarDecl w s → ForInitial (var :: w) (some s)
  | ofExprStmt {w : List Token} {s : Stmt} : ExprStmt w s → ForInitial w (some s)

/-- `IDENT ( "," IDENT )*` -/
inductive Parameters : List Token → List Token → Prop where
  | one {name : Token} : name.kind = .identifier → Parameters [name] [name]
  | more {name comma : Token} {w names : List Token} :
    name.kind = .identifier → comma.kind = .comma → Parameters w names →
    Parameters (name :: comma :: w) (name :: names)

/-- Parameters that may be left out; there are no more of them than are allowed. -/
inductive ParameterList : List Token → List Token → Prop where
  | empty : ParameterList [] []
  | some {w names : List Token} :
    Parameters w names → names.length ≤ maxArity → ParameterList w names

end Grammar

/-- An `else` behind the statement would belong to an `if` inside it: the statement ends with an
`if` that lacks an `else`. -/
def Stmt.endsOpen : Stmt → Bool
  | .ifStmt _ _ none => true
  | .ifStmt _ _ (some s) => s.endsOpen
  | .whileStmt _ body => body.endsOpen
  | .forStmt _ _ _ body => body.endsOpen
  | _ => false

namespace Grammar

/-- The rules for statements. -/
inductive StmtRule where
  | declaration
  | statement
  | declarations
  | routine
  | routines

/-- What a rule for statements forms. -/
abbrev StmtRule.Tree : StmtRule → Type
  | declaration | statement => Stmt
  | declarations => List Stmt
  | routine => Routine
  | routines => List Routine

/-- **The tokens `w` form the tree `t` by the rule `r`.** -/
inductive Forms (nearest : Prop) : (r : StmtRule) → (w : List Token) → (t : r.Tree) → Prop where
  /-- `"class" IDENT "{" routine* "}"` -/
  | classDecl {keyword name opening closing : Token} {w : List Token} {methods : List Routine} :
    keyword.kind = .classWord → name.kind = .identifier → opening.kind = .leftBrace →
    Forms nearest .routines w methods → closing.kind = .rightBrace →
    Forms nearest .declaration (keyword :: name :: opening :: (w ++ [closing]))
      (.classDecl name methods)
  /-- `"fun" routine` -/
  | funDecl {keyword : Token} {w : List Token} {r : Routine} :
    keyword.kind = .funWord → Forms nearest .routine w r →
    Forms nearest .declaration (keyword :: w) (.funDecl r)
  | varDecl {keyword : Token} {w : List Token} {s : Stmt} :
    keyword.kind = .varWord → VarDecl w s → Forms nearest .declaration (keyword :: w) s
  | ofStatement {w : List Token} {s : Stmt} :
    Forms nearest .statement w s → Forms nearest .declaration w s
  /-- `IDENT "(" parameters? ")" "{" declaration* "}"` -/
  | routine {name opening closing bodyOpening bodyClosing : Token} {u w ps : List Token}
      {body : List Stmt} :
    name.kind = .identifier → opening.kind = .leftParen → ParameterList u ps →
    closing.kind = .rightParen → bodyOpening.kind = .leftBrace →
    Forms nearest .declarations w body → bodyClosing.kind = .rightBrace →
    Forms nearest .routine
      (name :: opening :: (u ++ closing :: bodyOpening :: (w ++ [bodyClosing]))) ⟨name, ps, body⟩
  | noRoutine : Forms nearest .routines [] []
  | moreRoutines {u w : List Token} {r : Routine} {rs : List Routine} :
    Forms nearest .routine u r → Forms nearest .routines w rs →
    Forms nearest .routines (u ++ w) (r :: rs)
  | exprStmt {w : List Token} {s : Stmt} : ExprStmt w s → Forms nearest .statement w s
  /-- `"for" "(" forInitial expression? ";" expression? ")" statement` -/
  | forStmt {keyword opening semicolon closing : Token} {u v x w : List Token}
      {initial : Option Stmt} {condition increment : Option Expr} {body : Stmt} :
    keyword.kind = .forWord → opening.kind = .leftParen → ForInitial u initial →
    Optional v condition → semicolon.kind = .semicolon → Optional x increment →
    closing.kind = .rightParen → Forms nearest .statement w body →
    Forms nearest .statement
      (keyword :: opening :: (u ++ (v ++ semicolon :: (x ++ closing :: w))))
      (.forStmt initial condition increment body)
  /-- `"if" "(" expression ")" statement` -/
  | ifStmt {keyword opening closing : Token} {u w : List Token} {condition : Expr} {s : Stmt} :
    keyword.kind = .ifWord → opening.kind = .leftParen → Derives .expression u condition →
    closing.kind = .rightParen → Forms nearest .statement w s →
    Forms nearest .statement (keyword :: opening :: (u ++ closing :: w)) (.ifStmt condition s none)
  /-- `"if" "(" expression ")" statement "else" statement` -/
  | ifElse {keyword opening closing elseWord : Token} {u v w : List Token} {condition : Expr}
      {s s' : Stmt} :
    keyword.kind = .ifWord → opening.kind = .leftParen → Derives .expression u condition →
    closing.kind = .rightParen → Forms nearest .statement v s → elseWord.kind = .elseWord →
    Forms nearest .statement w s' → (nearest → s.endsOpen = false) →
    Forms nearest .statement (keyword :: opening :: (u ++ closing :: (v ++ elseWord :: w)))
      (.ifStmt condition s (some s'))
  /-- `"print" expression ";"` -/
  | printStmt {keyword semicolon : Token} {w : List Token} {e : Expr} :
    keyword.kind = .printWord → Derives .expression w e → semicolon.kind = .semicolon →
    Forms nearest .statement (keyword :: (w ++ [semicolon])) (.printStmt e)
  /-- `"return" expression? ";"` -/
  | returnStmt {keyword semicolon : Token} {w : List Token} {value : Option Expr} :
    keyword.kind = .returnWord → Optional w value → semicolon.kind = .semicolon →
    Forms nearest .statement (keyword :: (w ++ [semicolon])) (.returnStmt keyword value)
  /-- `"while" "(" expression ")" statement` -/
  | whileStmt {keyword opening closing : Token} {u w : List Token} {condition : Expr}
      {body : Stmt} :
    keyword.kind = .whileWord → opening.kind = .leftParen → Derives .expression u condition →
    closing.kind = .rightParen → Forms nearest .statement w body →
    Forms nearest .statement (keyword :: opening :: (u ++ closing :: w))
      (.whileStmt condition body)
  /-- `"{" declaration* "}"` -/
  | block {opening closing : Token} {w : List Token} {body : List Stmt} :
    opening.kind = .leftBrace → Forms nearest .declarations w body →
    closing.kind = .rightBrace →
    Forms nearest .statement (opening :: (w ++ [closing])) (.block body)
  | noDeclaration : Forms nearest .declarations [] []
  | moreDeclarations {u w : List Token} {s : Stmt} {ss : List Stmt} :
    Forms nearest .declaration u s → Forms nearest .declarations w ss →
    Forms nearest .declarations (u ++ w) (s :: ss)

end Grammar

end LoxLang
