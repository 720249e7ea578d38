import Mathlib
import LoxLang.Proofs.Grammar.Shape

/-!
# Proofs/Grammar/Names — `this` is no name

The names in a tree that was read are identifiers, and no identifier is spelled like a keyword. So
no variable, function, class or parameter of a program is called `this` (`named_parse`): what the
keyword stands for cannot be declared or assigned by the program itself.
-/

namespace LoxLang

namespace Expr

mutual

/-- No variable that the expression reads or assigns is called `this`. -/
def Named : Expr → Prop
  | .constant _ | .this _ _ => True
  | .var _ name => name.lexeme ≠ thisName
  | .grouping inner => inner.Named
  | .unary _ operand => operand.Named
  | .binary left _ right | .logical left _ right => left.Named ∧ right.Named
  | .conditional condition onTrue onFalse => condition.Named ∧ onTrue.Named ∧ onFalse.Named
  | .assign _ name value => name.lexeme ≠ thisName ∧ value.Named
  | .call callee _ arguments => callee.Named ∧ AllNamed arguments
  | .get object _ => object.Named
  | .set object _ value => object.Named ∧ value.Named

def AllNamed : List Expr → Prop
  | [] => True
  | e :: es => e.Named ∧ AllNamed es

end

def OptionNamed : Option Expr → Prop
  | none => True
  | some e => e.Named

end Expr

mutual

/-- Nothing in the statement is called `this`. -/
def Stmt.Named : Stmt → Prop
  | .exprStmt e | .printStmt e => e.Named
  | .varDecl name initial => name.lexeme ≠ thisName ∧ Expr.OptionNamed initial
  | .block body => Stmt.AllNamed body
  | .ifStmt condition onTrue onFalse => condition.Named ∧ onTrue.Named ∧ Stmt.OptionNamed onFalse
  | .whileStmt condition body => condition.Named ∧ body.Named
  | .forStmt initial condition increment body =>
    Stmt.OptionNamed initial ∧ Expr.OptionNamed condition ∧ Expr.OptionNamed increment ∧ body.Named
  | .returnStmt _ value => Expr.OptionNamed value
  | .funDecl routine => routine.Named
  | .classDecl name methods => name.lexeme ≠ thisName ∧ Routine.AllNamed methods

def Stmt.AllNamed : List Stmt → Prop
  | [] => True
  | s :: ss => s.Named ∧ Stmt.AllNamed ss

def Stmt.OptionNamed : Option Stmt → Prop
  | none => True
  | some s => s.Named

def Routine.Named : Routine → Prop
  | ⟨name, parameters, body⟩ =>
    name.lexeme ≠ thisName ∧ (∀ p ∈ parameters, p.lexeme ≠ thisName) ∧ Stmt.AllNamed body

def Routine.AllNamed : List Routine → Prop
  | [] => True
  | r :: rs => r.Named ∧ Routine.AllNamed rs

end

theorem Stmt.allNamed_toList_append : ∀ {o : Option Stmt} {ss : List Stmt},
    Stmt.OptionNamed o → Stmt.AllNamed ss → Stmt.AllNamed (o.toList ++ ss)
  | none, _, _, hss => hss
  | some _, _, hs, hss => ⟨hs, hss⟩

theorem Cursor.Spelled.forward {c c' : Cursor} (h : c.Spelled) (hforward : c.Forward c') :
    c'.Spelled :=
  fun t ht => h t (hforward.rest.subset ht)

namespace Parser

/-- What the parser reads from well spelled tokens has the property. -/
def Reads {α : Type} (p : α → Prop) (x : Parser α) : Prop :=
  ∀ ⦃c a c'⦄, c.Spelled → x c = .ok a c' → c'.Spelled ∧ p a

namespace Reads

variable {α β : Type} {p : α → Prop} {q : β → Prop}

theorem ofSteady {x : Parser α} (hx : Steady x) : Reads (fun _ => True) x :=
  fun _ _ _ hc hok => ⟨hc.forward (hx.ok hok), trivial⟩

theorem pure {a : α} (h : p a) : Reads p (Pure.pure a) := by
  intro _ _ _ hc hok
  obtain ⟨rfl, rfl⟩ := pure_ok.mp hok
  exact ⟨hc, h⟩

theorem refuse (fault : ParseFault) : Reads p (Parser.refuse fault) :=
  fun _ _ _ _ hok => absurd hok refuse_ok

/-- The second parser may rely on what the first has read. -/
theorem bind {x : Parser α} {f : α → Parser β} (hx : Reads p x) (hf : ∀ a, p a → Reads q (f a)) :
    Reads q (x >>= f) := by
  intro _ _ _ hc hok
  obtain ⟨a, _, ha, hok⟩ := bind_ok hok
  obtain ⟨hc', hp⟩ := hx hc ha
  exact hf a hp hc' hok

/-- Nothing has to be known of what was read before. -/
theorem after {x : Parser α} {f : α → Parser β} (hx : Steady x) (hf : ∀ a, Reads q (f a)) :
    Reads q (x >>= f) :=
  (ofSteady hx).bind fun a _ => hf a

theorem map {x : Parser α} {f : α → β} (hx : Reads p x) (hf : ∀ a, p a → q (f a)) :
    Reads q (f <$> x) := by
  intro _ _ _ hc hok
  obtain ⟨a, ha, rfl⟩ := map_ok hok
  obtain ⟨hc', hp⟩ := hx hc ha
  exact ⟨hc', hf a hp⟩

/-- A token that is taken is well spelled. -/
theorem acceptAny (kinds : List Kind) : Reads (fun o => ∀ t ∈ o, t.Spelled) (acceptAny kinds) := by
  intro c o c' hc hok
  refine ⟨hc.forward ((Steady.acceptAny kinds).ok hok), fun t ht => ?_⟩
  cases ht
  exact (stretch_accept hok).1.proper hc

/-- A name is read. -/
theorem identifier (fault : ParseFault) :
    Reads (fun t => t.lexeme ≠ thisName) (expect .identifier fault) := by
  intro c t c' hc hok
  obtain ⟨hstretch, hkind⟩ := stretch_expect hok
  exact ⟨hc.forward hstretch.forward, (hstretch.proper hc).name hkind⟩

end Reads

/-! ## Expressions -/

/-- The rules for expressions read trees in which nothing is called `this`. -/
structure ExprReads (n : Nat) : Prop where
  expression : Reads Expr.Named (expression n)
  conditional : Reads Expr.Named (conditional n)
  operation : ∀ o, Reads Expr.Named (operation n o)
  operations : ∀ level {left}, left.Named → Reads Expr.Named (operations n level left)
  unary : Reads Expr.Named (unary n)
  suffixes : ∀ {object}, object.Named → Reads Expr.Named (suffixes n object)
  arguments : ∀ count, Reads Expr.AllNamed (arguments n count)
  primary : Reads Expr.Named (primary n)

variable {n : Nat}

/-- An assignment is to a variable that was read as such. -/
theorem reads_assignTo {target value : Expr} (htarget : target.Named) (hvalue : value.Named)
    (equal : Token) : Reads Expr.Named (assignTo target equal value) := by
  unfold assignTo
  split
  · exact .after .freshId fun _ => .pure ⟨htarget, hvalue⟩
  · exact .pure ⟨htarget, hvalue⟩
  · exact .after (.note _ _) fun _ => .pure htarget

/-- The rules for expressions, one by one: none names `this`, as its token is not an identifier. -/
theorem reads_expression (ih : ExprReads n) : Reads Expr.Named (expression (n + 1)) := by
  refine ih.conditional.bind fun target htarget => .after (.acceptAny _) fun o => ?_
  cases o with
  | none => exact .pure htarget
  | some equal => exact ih.expression.bind fun _ hvalue => reads_assignTo htarget hvalue equal

theorem reads_conditional (ih : ExprReads n) : Reads Expr.Named (conditional (n + 1)) := by
  refine (ih.operation _).bind fun _ hcondition => .after (.acceptAny _) fun o => ?_
  cases o with
  | none => exact .pure hcondition
  | some _ =>
    exact ih.expression.bind fun _ htrue => .after (.expect _ _) fun _ =>
      ih.expression.bind fun _ hfalse => .pure ⟨hcondition, htrue, hfalse⟩

theorem reads_operation (ih : ExprReads n) (o : Option Level) :
    Reads Expr.Named (operation (n + 1) o) := by
  cases o with
  | none => exact ih.unary
  | some level => exact (ih.operation _).bind fun _ hleft => ih.operations level hleft

theorem named_join {level : Level} {left right : Expr} {operator : Token} (hleft : left.Named)
    (hright : right.Named) : (level.join left operator right).Named := by
  cases level <;> exact ⟨hleft, hright⟩

theorem reads_operations (ih : ExprReads n) (level : Level) {left : Expr} (hleft : left.Named) :
    Reads Expr.Named (operations (n + 1) level left) := by
  refine .after (.acceptAny _) fun o => ?_
  cases o with
  | none => exact .pure hleft
  | some operator =>
    exact (ih.operation _).bind fun _ hright => ih.operations level (named_join hleft hright)

theorem reads_unary (ih : ExprReads n) : Reads Expr.Named (unary (n + 1)) := by
  refine .after (.acceptAny _) fun o => ?_
  cases o with
  | none => exact ih.primary.bind fun _ hobject => ih.suffixes hobject
  | some operator => exact ih.unary.bind fun _ hoperand => .pure hoperand

theorem reads_suffixes (ih : ExprReads n) {object : Expr} (hobject : object.Named) :
    Reads Expr.Named (suffixes (n + 1) object) := by
  refine .after (.acceptAny _) fun o => ?_
  cases o with
  | none => exact .pure hobject
  | some t =>
    have hcall : ∀ es, Expr.AllNamed es → Reads Expr.Named (do
        let paren ← expect .rightParen .argumentsClosing
        Parser.suffixes n (.call object paren es)) := fun es hes =>
      .after (.expect _ _) fun _ => ih.suffixes ⟨hobject, hes⟩
    dsimp only
    split
    · refine .after (.looksAt _) fun b => ?_
      cases b with
      | true => exact Reads.bind (p := Expr.AllNamed) (.pure (a := []) trivial) hcall
      | false => exact (ih.arguments 0).bind hcall
    · exact .after (.expect _ _) fun _ => ih.suffixes hobject

theorem reads_argumentsTail (ih : ExprReads n) (count : Nat) : Reads Expr.AllNamed (do
    let argument ← Parser.expression n
    match ← accept .comma with
      | none => return [argument]
      | some _ => return argument :: (← Parser.arguments n count)) := by
  refine ih.expression.bind fun _ he => .after (.acceptAny _) fun o => ?_
  cases o with
  | none => exact .pure ⟨he, trivial⟩
  | some _ => exact (ih.arguments _).bind fun _ hes => .pure ⟨he, hes⟩

theorem reads_arguments (ih : ExprReads n) (count : Nat) :
    Reads Expr.AllNamed (arguments (n + 1) count) := by
  unfold arguments
  split
  · exact .after (.noteHere _) fun _ => reads_argumentsTail ih _
  · exact reads_argumentsTail ih _

/-- A primary is the only rule that reads a name. -/
theorem reads_primary (ih : ExprReads n) : Reads Expr.Named (primary (n + 1)) := by
  refine (Reads.acceptAny _).bind fun o ho => ?_
  cases o with
  | none => exact .refuse _
  | some t =>
    dsimp only
    split
    · exact .pure trivial
    · exact .pure trivial
    · exact .pure trivial
    · exact .after .freshId fun _ => .pure trivial
    · next hkind => exact .after .freshId fun _ => .pure ((ho t rfl).name hkind)
    · exact ih.expression.bind fun _ he => .after (.expect _ _) fun _ => .pure he
    · unfold constantOf
      split
      · exact .pure trivial
      · exact .pure trivial
      · exact fun _ _ _ _ hok => by cases hok

/-- **No expression that is read has a variable called `this`.** -/
theorem exprReads : ∀ n, ExprReads n
  | 0 =>
    { expression := .refuse _
      conditional := .refuse _
      operation := fun _ => .refuse _
      operations := fun _ _ _ => .refuse _
      unary := .refuse _
      suffixes := fun _ => .refuse _
      arguments := fun _ => .refuse _
      primary := .refuse _ }
  | n + 1 =>
    have ih := exprReads n
    { expression := reads_expression ih
      conditional := reads_conditional ih
      operation := reads_operation ih
      operations := reads_operations ih
      unary := reads_unary ih
      suffixes := reads_suffixes ih
      arguments := reads_arguments ih
      primary := reads_primary ih }

/-! ## Statements -/

theorem reads_expressionUpTo (n : Nat) (kind : Kind) (fault : ParseFault) :
    Reads Expr.Named (expressionUpTo n kind fault) :=
  (exprReads n).expression.bind fun _ he => .after (.expect _ _) fun _ => .pure he

theorem reads_some (n : Nat) : Reads Expr.OptionNamed (some <$> expression n) :=
  (exprReads n).expression.map fun _ he => he

theorem reads_optionalUpTo (n : Nat) (kind : Kind) (fault : ParseFault) :
    Reads Expr.OptionNamed (optionalUpTo n kind fault) := by
  have hrest : ∀ o, Expr.OptionNamed o → Reads Expr.OptionNamed (do
      let _ ← expect kind fault
      return o) := fun o ho => .after (.expect _ _) fun _ => .pure ho
  refine .after (.looksAt _) fun b => ?_
  cases b with
  | true => exact Reads.bind (p := Expr.OptionNamed) (.pure (a := none) trivial) hrest
  | false => exact (reads_some n).bind hrest

/-- The name that a declaration declares is an identifier. -/
theorem reads_varDecl (n : Nat) : Reads Stmt.Named (varDecl n) := by
  refine (Reads.identifier _).bind fun name hname => .after (.acceptAny _) fun o => ?_
  have hrest : ∀ o, Expr.OptionNamed o → Reads Stmt.Named (do
      let _ ← expect .semicolon .variableEnd
      return .varDecl name o) := fun o ho => .after (.expect _ _) fun _ => .pure ⟨hname, ho⟩
  cases o with
  | none => exact Reads.bind (p := Expr.OptionNamed) (.pure (a := none) trivial) hrest
  | some _ => exact (reads_some n).bind hrest

/-- None of the parameters is called `this`. -/
def ParametersNamed (ps : List Token) : Prop :=
  ∀ p ∈ ps, p.lexeme ≠ thisName

theorem reads_parametersTail {n count : Nat} (ih : Reads ParametersNamed (parameters n count)) :
    Reads ParametersNamed (do
      let parameter ← expect .identifier .parameterName
      match ← accept .comma with
      | none => return [parameter]
      | some _ => return parameter :: (← parameters n count)) := by
  refine (Reads.identifier _).bind fun p hp => .after (.acceptAny _) fun o => ?_
  cases o with
  | none => exact .pure (List.forall_mem_singleton.mpr hp)
  | some _ => exact ih.bind fun ps hps => .pure (List.forall_mem_cons.mpr ⟨hp, hps⟩)

/-- Parameters are identifiers. -/
theorem reads_parameters : ∀ n count : Nat, Reads ParametersNamed (parameters n count)
  | 0, _ => .refuse _
  | n + 1, count => by
    have htail := reads_parametersTail (reads_parameters n (count + 1))
    unfold parameters
    split
    · exact .after (.noteHere _) fun _ => htail
    · exact htail

/-- Neither the name nor a parameter of a routine is `this`. -/
def HeadNamed (head : Token × List Token) : Prop :=
  head.1.lexeme ≠ thisName ∧ ParametersNamed head.2

/-- The name of a routine and its parameters are identifiers. -/
theorem reads_routineHead (n : Nat) (form : RoutineForm) :
    Reads HeadNamed (routineHead n form) := by
  refine (Reads.identifier _).bind fun name hname => .after (.expect _ _) fun _ =>
    .after (.looksAt _) fun b => ?_
  have hrest : ∀ ps, ParametersNamed ps → Reads HeadNamed (do
      let _ ← expect .rightParen .parametersClosing
      let _ ← expect .leftBrace (.routineBody form)
      return (name, ps)) := fun ps hps =>
    .after (.expect _ _) fun _ => .after (.expect _ _) fun _ => .pure ⟨hname, hps⟩
  cases b with
  | true => exact Reads.bind (p := ParametersNamed) (.pure (a := []) (by simp [ParametersNamed])) hrest
  | false => exact (reads_parameters n 0).bind hrest

theorem reads_forInitial (n : Nat) : Reads Stmt.OptionNamed (forInitial n) := by
  refine .after (.acceptAny _) fun o => ?_
  cases o with
  | none => exact (reads_expressionUpTo n _ _).bind fun _ he => .pure he
  | some t =>
    dsimp only
    split
    · exact .pure trivial
    · exact (reads_varDecl n).map fun _ hs => hs

/-- The rules for statements read trees in which nothing is called `this`. -/
structure StmtReads (n : Nat) : Prop where
  declaration : Reads Stmt.OptionNamed (declaration n)
  methods : Reads Routine.AllNamed (methods n)
  routine : ∀ form, Reads Routine.Named (routine n form)
  statement : Reads Stmt.Named (statement n)
  block : Reads Stmt.AllNamed (block n)

/-- The rules for statements, one by one. -/
theorem reads_declarationBody (ih : StmtReads n) : Reads Stmt.Named (declarationBody n) := by
  refine .after (.acceptAny _) fun o => ?_
  cases o with
  | none => exact ih.statement
  | some t =>
    dsimp only
    split
    · exact (Reads.identifier _).bind fun _ hname => .after (.expect _ _) fun _ =>
        ih.methods.bind fun _ hms => .after (.expect _ _) fun _ => .pure ⟨hname, hms⟩
    · exact (ih.routine .function).bind fun _ hr => .pure hr
    · exact reads_varDecl n

theorem reads_declaration (ih : StmtReads n) :
    Reads Stmt.OptionNamed (declaration (n + 1)) := by
  intro c o c' hc hok
  refine ⟨hc.forward ((stmtSteady (n + 1)).declaration.ok hok), ?_⟩
  rcases recovering_ok hok with ⟨s, rfl, hs⟩ | ⟨_, _, rfl, -, -⟩
  · exact (reads_declarationBody ih hc hs).2
  · trivial

theorem reads_methods (ih : StmtReads n) : Reads Routine.AllNamed (methods (n + 1)) := by
  refine .after (.looksAt _) fun _ => .after .atEnd fun _ => ?_
  split
  · exact .pure trivial
  · exact (ih.routine .method).bind fun _ hr => ih.methods.bind fun _ hrs => .pure ⟨hr, hrs⟩

theorem reads_routine (ih : StmtReads n) (form : RoutineForm) :
    Reads Routine.Named (routine (n + 1) form) :=
  (reads_routineHead n form).bind fun _ hhead => ih.block.bind fun _ hbody =>
    .pure ⟨hhead.1, hhead.2, hbody⟩

theorem reads_block (ih : StmtReads n) : Reads Stmt.AllNamed (block (n + 1)) := by
  refine .after (.looksAt _) fun _ => .after .atEnd fun _ => ?_
  split
  · exact .after (.expect _ _) fun _ => .pure trivial
  · exact ih.declaration.bind fun _ ho => ih.block.bind fun _ hss =>
      .pure (Stmt.allNamed_toList_append ho hss)

theorem reads_statement (ih : StmtReads n) : Reads Stmt.Named (statement (n + 1)) := by
  refine .after (.acceptAny _) fun o => ?_
  cases o with
  | none => exact (reads_expressionUpTo n _ _).bind fun _ he => .pure he
  | some t =>
    dsimp only
    split
    · -- `for`
      exact .after (.expect _ _) fun _ => (reads_forInitial n).bind fun _ hi =>
        (reads_optionalUpTo n _ _).bind fun _ hc => (reads_optionalUpTo n _ _).bind fun _ hinc =>
        ih.statement.bind fun _ hb => .pure ⟨hi, hc, hinc, hb⟩
    · -- `if`
      refine .after (.expect _ _) fun _ => (reads_expressionUpTo n _ _).bind fun _ hc =>
        ih.statement.bind fun _ ht => .after (.acceptAny _) fun o => ?_
      cases o with
      | none => exact .pure ⟨hc, ht, trivial⟩
      | some _ => exact ih.statement.bind fun _ hf => .pure ⟨hc, ht, hf⟩
    · -- `while`
      exact .after (.expect _ _) fun _ => (reads_expressionUpTo n _ _).bind fun _ hc =>
        ih.statement.bind fun _ hb => .pure ⟨hc, hb⟩
    · exact (reads_optionalUpTo n _ _).bind fun _ hv => .pure hv
    · exact ih.block.bind fun _ hss => .pure hss
    · exact (reads_expressionUpTo n _ _).bind fun _ he => .pure he

/-- **No statement that is read declares or uses a variable called `this`.** -/
theorem stmtReads : ∀ n, StmtReads n
  | 0 =>
    { declaration := .refuse _
      methods := .refuse _
      routine := fun _ => .refuse _
      statement := .refuse _
      block := .refuse _ }
  | n + 1 =>
    have ih := stmtReads n
    { declaration := reads_declaration ih
      methods := reads_methods ih
      routine := reads_routine ih
      statement := reads_statement ih
      block := reads_block ih }

/-- **Nothing in a program that is read is called `this`.** -/
theorem reads_program : ∀ n, Reads Stmt.AllNamed (program n)
  | 0 => .refuse _
  | n + 1 => by
    refine .after .atEnd fun _ => ?_
    split
    · exact .pure trivial
    · exact (stmtReads n).declaration.bind fun _ ho => (reads_program n).bind fun _ hss =>
        .pure (Stmt.allNamed_toList_append ho hss)

end Parser

/-- **Nothing in a program is called `this`**, whatever else is wrong with its tokens. -/
theorem named_parse {tokens : List Token} (hs : ∀ t ∈ tokens, t.Spelled) (nextId : NodeId) :
    Stmt.AllNamed (parse tokens nextId).statements := by
  cases h : Parser.program (Cursor.start tokens nextId).depth (Cursor.start tokens nextId) with
  | ok ss c =>
    simp only [parse, h]
    exact (Parser.reads_program _ (fun t ht => hs t ((List.takeWhile_subset _) ht)) h).2
  | error d c =>
    simp only [parse, h]
    trivial

end LoxLang
