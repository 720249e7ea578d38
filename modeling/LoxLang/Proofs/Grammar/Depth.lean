import Mathlib
import LoxLang.Proofs.Grammar.Progress

/-!
# Proofs/Grammar/Depth — the depth of a cursor is never used up

The rules of the grammar call each other without reading a token at most a few times in a row, and
a declaration always gets on (`lt_of_declaration`). So a depth of sixteen for each token ahead, and
some for the rules before the first, is enough for every rule, on any tokens: with that depth and
with any larger one a rule comes to the same, and it never fails for want of depth (`Settled`).
-/

namespace LoxLang

open EStateM (Result)

/-! ## Readings that have depth enough -/

/-- The fault of a reading that runs out of depth. -/
def Diagnostic.IsNesting (d : Diagnostic) : Prop :=
  ∃ t, d = .parse t .nestingTooDeep

/-- No fault was noted for want of depth. -/
def Cursor.Ample (c : Cursor) : Prop :=
  ∀ d ∈ c.faults, ¬ d.IsNesting

/-- A fault of another sort leaves the depth ample. -/
theorem Cursor.Ample.note {c : Cursor} (h : c.Ample) {d : Diagnostic} (hd : ¬ d.IsNesting) :
    Cursor.Ample { c with faults := c.faults ++ [d] } := by
  intro d' hd'
  rcases List.mem_append.mp hd' with hd' | hd'
  · exact h d' hd'
  · rwa [List.mem_singleton.mp hd']

namespace Parser

/-- An outcome that no want of depth had a part in. -/
def Ample {α : Type} : Result Diagnostic Cursor α → Prop
  | .ok _ c => c.Ample
  | .error d c => ¬ d.IsNesting ∧ c.Ample

/-- With at most `length` tokens ahead the parsers do the same, and the depth is enough for them. -/
def Settled {α : Type} (length : Nat) (p q : Parser α) : Prop :=
  ∀ ⦃c : Cursor⦄, c.rest.length ≤ length → c.Ample → p c = q c ∧ Ample (p c)

/-- Only one fault is for want of depth. -/
theorem not_isNesting {t : Token} {fault : ParseFault} (h : fault ≠ .nestingTooDeep) :
    ¬ Diagnostic.IsNesting (.parse t fault) := by
  rintro ⟨t', ht'⟩
  cases ht'
  exact h rfl

namespace Settled

variable {α β : Type} {length : Nat} {p q : Parser α} {f g : α → Parser β}

/-- Behind a reading both go on with what it gave, and with no more tokens ahead. -/
theorem bindAt {c : Cursor} (hp : p c = q c ∧ Ample (p c))
    (hf : ∀ a c', p c = .ok a c' → c'.Ample → f a c' = g a c' ∧ Ample (f a c')) :
    (p >>= f) c = (q >>= g) c ∧ Ample ((p >>= f) c) := by
  change EStateM.bind p f c = EStateM.bind q g c ∧ Ample (EStateM.bind p f c)
  unfold EStateM.bind
  rw [← hp.1]
  obtain ⟨-, hout⟩ := hp
  cases hpc : p c with
  | ok a c' =>
    rw [hpc] at hout
    exact hf a c' hpc hout
  | error d c' =>
    rw [hpc] at hout
    exact ⟨rfl, hout⟩

/-- Settled parsers may stand one behind the other, if the first does not move backwards. -/
theorem bind (hp : Settled length p q) (hsteady : Steady p)
    (hf : ∀ a, Settled length (f a) (g a)) : Settled length (p >>= f) (q >>= g) :=
  fun _ hlength hc => bindAt (hp hlength hc) fun a _ ha =>
    hf a ((hsteady.ok ha).rest.length_le.trans hlength)

/-- Behind a reading that moved on there are fewer tokens ahead. -/
theorem advance (hp : Settled length p q) (hadvances : Advances p)
    (hf : ∀ a shorter, length = shorter + 1 → Settled shorter (f a) (g a)) :
    Settled length (p >>= f) (q >>= g) := by
  intro c hlength hc
  refine bindAt (hp hlength hc) fun a c' ha => ?_
  have hlt := hadvances ha
  exact hf a (length - 1) (by omega) (by omega)

theorem pure (a : α) : Settled length (Pure.pure a : Parser α) (Pure.pure a) :=
  fun _ _ hc => ⟨rfl, hc⟩

theorem refuse {fault : ParseFault} (h : fault ≠ .nestingTooDeep) :
    Settled length (Parser.refuse fault : Parser α) (Parser.refuse fault) :=
  fun _ _ hc => ⟨rfl, not_isNesting h, hc⟩

theorem throw (t : Token) {fault : ParseFault} (h : fault ≠ .nestingTooDeep) :
    Settled length (MonadExcept.throw (.parse t fault) : Parser α)
      (MonadExcept.throw (.parse t fault)) :=
  fun _ _ hc => ⟨rfl, not_isNesting h, hc⟩

theorem note (t : Token) {fault : ParseFault} (h : fault ≠ .nestingTooDeep) :
    Settled length (Parser.note t fault) (Parser.note t fault) :=
  fun _ _ hc => ⟨rfl, hc.note (not_isNesting h)⟩

theorem noteHere {fault : ParseFault} (h : fault ≠ .nestingTooDeep) :
    Settled length (Parser.noteHere fault) (Parser.noteHere fault) :=
  fun _ _ hc => ⟨rfl, hc.note (not_isNesting h)⟩

theorem freshId : Settled length Parser.freshId Parser.freshId :=
  fun _ _ hc => ⟨rfl, hc⟩

theorem looksAt (kind : Kind) : Settled length (Parser.looksAt kind) (Parser.looksAt kind) :=
  fun _ _ hc => ⟨rfl, hc⟩

theorem map (hp : Settled length p q) (hsteady : Steady p) (h : α → β) :
    Settled length (h <$> p) (h <$> q) := by
  rw [← bind_pure_comp, ← bind_pure_comp]
  exact hp.bind hsteady fun a => .pure (h a)

theorem ite {b : Prop} [Decidable b] {p' q' : Parser α} (hp : Settled length p q)
    (hp' : Settled length p' q') :
    Settled length (if b then p else p') (if b then q else q') := by
  split
  · exact hp
  · exact hp'

/-- Behind an accepted token there is one token less. -/
theorem accept {kinds : List Kind} {f g : Option Token → Parser β}
    (hnone : Settled length (f none) (g none))
    (hsome : ∀ t shorter, length = shorter + 1 → Settled shorter (f (some t)) (g (some t))) :
    Settled length (acceptAny kinds >>= f) (acceptAny kinds >>= g) := by
  intro c hlength hc
  have hself : Ample (acceptAny kinds c) := by
    cases hout : acceptAny kinds c with
    | ok o c' =>
      rcases acceptAny_ok hout with ⟨t, -, -, -, hc'⟩ | ⟨-, rfl, -⟩
      · rw [hc']
        exact hc
      · exact hc
    | error d c' =>
      unfold acceptAny at hout
      split at hout
      · cases hout
      · split at hout <;> cases hout
  refine bindAt ⟨rfl, hself⟩ fun o c' ho => ?_
  rcases acceptAny_ok ho with ⟨t, rfl, -, hr, -⟩ | ⟨rfl, rfl, -⟩
  · have hlength' := congrArg List.length hr
    rw [List.length_cons] at hlength'
    exact hsome t (length - 1) (by omega) (by omega)
  · exact hnone hlength

/-- Behind a token that is asked for, there is one token less ahead. -/
theorem expect {kind : Kind} {fault : ParseFault} (hfault : fault ≠ .nestingTooDeep)
    {f g : Token → Parser β}
    (h : ∀ t shorter, length = shorter + 1 → Settled shorter (f t) (g t)) :
    Settled length (Parser.expect kind fault >>= f) (Parser.expect kind fault >>= g) := by
  unfold Parser.expect Parser.accept
  rw [bind_assoc, bind_assoc]
  refine accept ?_ fun t shorter hlength => ?_
  · intro c _ hc
    exact ⟨rfl, not_isNesting hfault, hc⟩
  · simp only [pure_bind]
    exact h t shorter hlength

theorem constantOf (t : Token) : Settled length (Parser.constantOf t) (Parser.constantOf t) := by
  unfold Parser.constantOf
  split
  · exact .pure _
  · exact .pure _
  · exact .throw t (by decide)

theorem assignTo (target : Expr) (equal : Token) (value : Expr) :
    Settled length (Parser.assignTo target equal value) (Parser.assignTo target equal value) := by
  unfold Parser.assignTo
  split
  · exact freshId.bind .freshId fun _ => .pure _
  · exact .pure _
  · exact (note _ (by decide)).bind (.note _ _) fun _ => .pure _

end Settled

/-! ## Expressions -/

/-- A rule is settled as soon as its depth is sixteen for each token and `first` for the rules before
the first token. -/
def SettledFrom {α : Type} (first : Nat) (rule : Nat → Parser α) (n : Nat) : Prop :=
  ∀ ⦃m length⦄, n ≤ m → 16 * length + first ≤ n → Settled length (rule n) (rule m)

/-- The rules for expressions are settled. -/
structure ExprSettled (n : Nat) : Prop where
  expression : SettledFrom 11 expression n
  conditional : SettledFrom 10 conditional n
  operation : ∀ o, SettledFrom (levelDepth o) (operation · o) n
  operations : ∀ level left, SettledFrom 1 (operations · level left) n
  unary : SettledFrom 2 unary n
  suffixes : ∀ object, SettledFrom 1 (suffixes · object) n
  arguments : ∀ count, SettledFrom 12 (arguments · count) n
  primary : SettledFrom 1 primary n

/-- A depth that is larger than some other is not zero. -/
theorem SettledFrom.of_succ {α : Type} {first : Nat} {rule : Nat → Parser α} {n : Nat}
    (h : ∀ m length, n ≤ m → 16 * length + first ≤ n + 1 →
      Settled length (rule (n + 1)) (rule (m + 1))) : SettledFrom first rule (n + 1) := by
  intro m length hm hlength
  obtain ⟨m, rfl⟩ : ∃ k, m = k + 1 := ⟨m - 1, by omega⟩
  exact h m length (by omega) hlength

/-- A rule without depth is settled for no tokens, as none can be short enough. -/
theorem SettledFrom.zero {α : Type} {first : Nat} {rule : Nat → Parser α} (h : 0 < first) :
    SettledFrom first rule 0 := by
  intro m length _ hlength
  omega

/-- An operation needs depth. -/
theorem levelDepth_pos (o : Option Level) : 0 < levelDepth o := by
  rcases o with _ | level
  · decide
  · cases level <;> decide

/-- No operation is more than nine rules away from its first token. -/
theorem levelDepth_le (o : Option Level) : levelDepth o ≤ 9 := by
  rcases o with _ | level
  · decide
  · cases level <;> decide

variable {n : Nat}

/-- An expression: one level above a conditional. -/
theorem settled_expression (ih : ExprSettled n) : SettledFrom 11 expression (n + 1) := by
  refine .of_succ fun m length hm hlength => ?_
  refine (ih.conditional hm (by omega)).bind (exprSteady n).conditional fun target => ?_
  refine .accept (.pure target) fun equal shorter hshorter => ?_
  exact (ih.expression hm (by omega)).bind (exprSteady n).expression fun value =>
    .assignTo target equal value

/-- A conditional: its parts stand behind a disjunction, a question mark and a colon. -/
theorem settled_conditional (ih : ExprSettled n) : SettledFrom 10 conditional (n + 1) := by
  refine .of_succ fun m length hm hlength => ?_
  refine (ih.operation _ hm (by simp only [levelDepth]; omega)).bind
    ((exprSteady n).operation _) fun condition => ?_
  refine .accept (.pure condition) fun _ shorter hshorter => ?_
  refine (ih.expression hm (by omega)).bind (exprSteady n).expression fun onTrue => ?_
  refine .expect (by decide) fun _ shorter' hshorter' => ?_
  exact (ih.expression hm (by omega)).bind (exprSteady n).expression fun _ => .pure _

/-- An operation: an operand of the next tighter level, and the loop behind it. -/
theorem settled_operation (ih : ExprSettled n) (o : Option Level) :
    SettledFrom (levelDepth o) (operation · o) (n + 1) := by
  refine .of_succ fun m length hm hlength => ?_
  cases o with
  | none => exact ih.unary hm (by simp only [levelDepth] at hlength; omega)
  | some level =>
    rw [levelDepth_tighter] at hlength
    have hpos := levelDepth_pos level.tighter?
    exact (ih.operation _ hm (by omega)).bind ((exprSteady n).operation _) fun left =>
      ih.operations level left hm (by omega)

/-- The loop over the operators of a level needs one more level for each operator. -/
theorem settled_operations (ih : ExprSettled n) (level : Level) (left : Expr) :
    SettledFrom 1 (operations · level left) (n + 1) := by
  refine .of_succ fun m length hm hlength => ?_
  refine .accept (.pure left) fun _ shorter hshorter => ?_
  have hle := levelDepth_le level.tighter?
  exact (ih.operation _ hm (by omega)).bind ((exprSteady n).operation _) fun right =>
    ih.operations level _ hm (by omega)

/-- A unary operator is followed by fewer tokens. -/
theorem settled_unary (ih : ExprSettled n) : SettledFrom 2 unary (n + 1) := by
  refine .of_succ fun m length hm hlength => ?_
  refine .accept ?_ fun _ shorter hshorter => ?_
  · exact (ih.primary hm (by omega)).bind (exprSteady n).primary fun e =>
      ih.suffixes e hm (by omega)
  · exact (ih.unary hm (by omega)).bind (exprSteady n).unary fun _ => .pure _

/-- Each suffix is a token at least. -/
theorem settled_suffixes (ih : ExprSettled n) (object : Expr) :
    SettledFrom 1 (suffixes · object) (n + 1) := by
  refine .of_succ fun m length hm hlength => ?_
  refine .accept (.pure object) fun t shorter hshorter => ?_
  refine .ite ((Settled.looksAt _).bind (.looksAt _) fun b => ?_) ?_
  · have hclose : ∀ es, Settled shorter
        (do
          let paren ← expect .rightParen .argumentsClosing
          suffixes n (.call object paren es))
        (do
          let paren ← expect .rightParen .argumentsClosing
          suffixes m (.call object paren es)) := fun es =>
      .expect (by decide) fun _ shorter' hshorter' => ih.suffixes _ hm (by omega)
    cases b with
    | true => exact (Settled.pure []).bind (.pure []) hclose
    | false => exact (ih.arguments 0 hm (by omega)).bind ((exprSteady n).arguments 0) hclose
  · exact .expect (by decide) fun _ shorter' hshorter' => ih.suffixes _ hm (by omega)

/-- One argument and the arguments behind it. -/
theorem settled_argumentsTail {m length : Nat} (ih : ExprSettled n) (hm : n ≤ m)
    (hlength : 16 * length + 11 ≤ n) (count : Nat) :
    Settled length
      (do
        let argument ← expression n
        match ← accept .comma with
          | none => return [argument]
          | some _ => return argument :: (← arguments n (count + 1)))
      (do
        let argument ← expression m
        match ← accept .comma with
          | none => return [argument]
          | some _ => return argument :: (← arguments m (count + 1))) := by
  refine (ih.expression hm hlength).bind (exprSteady n).expression fun argument => ?_
  refine .accept (.pure _) fun _ shorter hshorter => ?_
  exact (ih.arguments _ hm (by omega)).bind ((exprSteady n).arguments _) fun _ => .pure _

/-- A list of arguments needs depth for its first expression. -/
theorem settled_arguments (ih : ExprSettled n) (count : Nat) :
    SettledFrom 12 (arguments · count) (n + 1) := by
  refine .of_succ fun m length hm hlength => ?_
  have htail := settled_argumentsTail ih hm (by omega : 16 * length + 11 ≤ n) count
  simp only [arguments]
  split
  · exact (Settled.noteHere (by decide)).bind (.noteHere _) fun _ => htail
  · exact htail

/-- A primary is a token, or stands in parentheses. -/
theorem settled_primary (ih : ExprSettled n) : SettledFrom 1 primary (n + 1) := by
  refine .of_succ fun m length hm hlength => ?_
  refine .accept (.refuse (by decide)) fun t shorter hshorter => ?_
  dsimp only
  split
  · exact .pure _
  · exact .pure _
  · exact .pure _
  · exact Settled.freshId.bind .freshId fun _ => .pure _
  · exact Settled.freshId.bind .freshId fun _ => .pure _
  · refine (ih.expression hm (by omega)).bind (exprSteady n).expression fun inner => ?_
    exact .expect (by decide) fun _ _ _ => .pure _
  · exact .constantOf t

/-- **Sixteen levels for each token are enough for an expression**, by induction on the depth. -/
theorem exprSettled : ∀ n, ExprSettled n
  | 0 =>
    { expression := .zero (by decide)
      conditional := .zero (by decide)
      operation := fun o => .zero (levelDepth_pos o)
      operations := fun _ _ => .zero (by decide)
      unary := .zero (by decide)
      suffixes := fun _ => .zero (by decide)
      arguments := fun _ => .zero (by decide)
      primary := .zero (by decide) }
  | n + 1 =>
    have ih := exprSettled n
    { expression := settled_expression ih
      conditional := settled_conditional ih
      operation := settled_operation ih
      operations := settled_operations ih
      unary := settled_unary ih
      suffixes := settled_suffixes ih
      arguments := settled_arguments ih
      primary := settled_primary ih }

/-! ## Statements -/

namespace Settled

variable {α β : Type} {length : Nat}

/-- A loop that goes on only where there is a token. -/
theorem atEnd {f g : Bool → Parser β} (hclosed : Settled length (f true) (g true))
    (hgoing : ∀ ⦃c : Cursor⦄, c.rest ≠ [] → c.rest.length ≤ length → c.Ample →
      f false c = g false c ∧ Ample (f false c)) :
    Settled length (Parser.atEnd >>= f) (Parser.atEnd >>= g) := by
  intro c hlength hc
  change f c.rest.isEmpty c = g c.rest.isEmpty c ∧ Ample (f c.rest.isEmpty c)
  cases hend : c.rest.isEmpty with
  | true => exact hclosed hlength hc
  | false => exact hgoing (List.isEmpty_eq_false_iff.mp hend) hlength hc

/-- A loop up to a closing brace or the end. -/
theorem untilBrace {p q p' q' : Parser β} (hclosed : Settled length p q)
    (hgoing : ∀ ⦃c : Cursor⦄, c.rest ≠ [] → c.rest.length ≤ length → c.Ample →
      p' c = q' c ∧ Ample (p' c)) :
    Settled length (do if (← Parser.looksAt .rightBrace) || (← Parser.atEnd) then p else p')
      (do if (← Parser.looksAt .rightBrace) || (← Parser.atEnd) then q else q') := by
  refine (Settled.looksAt _).bind (.looksAt _) fun b => ?_
  cases b with
  | true => exact atEnd hclosed fun _ _ => @hclosed _
  | false => exact atEnd hclosed hgoing

/-- A reading that recovers is settled if what it recovers from is. -/
theorem recovering {p q : Parser Stmt} (h : Settled length p q) :
    Settled length (Parser.recovering p) (Parser.recovering q) := by
  intro c hlength hc
  obtain ⟨heq, hout⟩ := h hlength hc
  unfold Parser.recovering
  rw [← heq]
  refine ⟨rfl, ?_⟩
  cases hpc : p c with
  | ok s c' =>
    rw [hpc] at hout
    exact hout
  | error d c' =>
    rw [hpc] at hout
    exact hout.2.note hout.1

/-- Behind a declaration there are fewer tokens ahead. -/
theorem declaration {n m : Nat} (h : Settled length (declaration n) (declaration m))
    {f g : Option Stmt → Parser β}
    (hf : ∀ o shorter, length = shorter + 1 → Settled shorter (f o) (g o)) ⦃c : Cursor⦄
    (hrest : c.rest ≠ []) (hlength : c.rest.length ≤ length) (hc : c.Ample) :
    (Parser.declaration n >>= f) c = (Parser.declaration m >>= g) c ∧
      Ample ((Parser.declaration n >>= f) c) := by
  refine bindAt (h hlength hc) fun o c' ho => ?_
  have hlt := lt_of_declaration ho hrest
  exact hf o (length - 1) (by omega) (by omega)

end Settled

/-- An expression with a closing token needs no more depth than the expression. -/
theorem settled_expressionUpTo (kind : Kind) {fault : ParseFault} (h : fault ≠ .nestingTooDeep) :
    SettledFrom 11 (expressionUpTo · kind fault) n := by
  intro m length hm hlength
  refine ((exprSettled n).expression hm hlength).bind (exprSteady n).expression fun _ => ?_
  exact .expect h fun _ _ _ => .pure _

theorem settled_optionalUpTo (kind : Kind) {fault : ParseFault} (h : fault ≠ .nestingTooDeep) :
    SettledFrom 11 (optionalUpTo · kind fault) n := by
  intro m length hm hlength
  refine (Settled.looksAt _).bind (.looksAt _) fun b => ?_
  have hclose : ∀ e : Option Expr, Settled length
      (do
        let _ ← expect kind fault
        return e)
      (do
        let _ ← expect kind fault
        return e) := fun e => .expect h fun _ _ _ => .pure e
  cases b with
  | true => exact (Settled.pure none).bind (.pure none) hclose
  | false =>
    have hsome := ((exprSettled n).expression hm hlength).map (exprSteady n).expression some
    exact hsome.bind ((exprSteady n).expression.map some) hclose

/-- The initial value of a variable is an expression behind its name. -/
theorem settled_varDecl : SettledFrom 11 varDecl n := by
  intro m length hm hlength
  refine .expect (by decide) fun name shorter hshorter => ?_
  refine .accept ?_ fun _ shorter' hshorter' => ?_
  · exact (Settled.pure none).bind (.pure none) fun _ => .expect (by decide) fun _ _ _ => .pure _
  · have hsome := (@(exprSettled n).expression m shorter' hm (by omega)).map
      (exprSteady n).expression some
    exact hsome.bind ((exprSteady n).expression.map some) fun _ =>
      .expect (by decide) fun _ _ _ => .pure _

/-- One parameter and the parameters behind it. -/
theorem settled_parametersTail {m length : Nat} {count : Nat}
    (hmore : ∀ ⦃shorter⦄, length = shorter + 2 →
      Settled shorter (parameters n (count + 1)) (parameters m (count + 1))) :
    Settled length
      (do
        let parameter ← expect .identifier .parameterName
        match ← accept .comma with
          | none => return [parameter]
          | some _ => return parameter :: (← parameters n (count + 1)))
      (do
        let parameter ← expect .identifier .parameterName
        match ← accept .comma with
          | none => return [parameter]
          | some _ => return parameter :: (← parameters m (count + 1))) := by
  refine .expect (by decide) fun _ shorter hshorter => ?_
  refine .accept (.pure _) fun _ shorter' hshorter' => ?_
  exact (hmore (by omega)).bind (.parameters n _) fun _ => .pure _

/-- Parameters need one level for each. -/
theorem settled_parameters : ∀ n count, SettledFrom 1 (parameters · count) n
  | 0, _ => .zero (by decide)
  | n + 1, count => by
    refine .of_succ fun m length hm hlength => ?_
    have htail := settled_parametersTail fun shorter (hshorter : length = shorter + 2) =>
      @settled_parameters n (count + 1) m shorter hm (by omega)
    simp only [parameters]
    split
    · exact (Settled.noteHere (by decide)).bind (.noteHere _) fun _ => htail
    · exact htail

/-- The head of a routine needs depth for its parameters only. -/
theorem settled_routineHead (form : RoutineForm) : SettledFrom 1 (routineHead · form) n := by
  intro m length hm hlength
  refine .expect (by cases form <;> decide) fun name shorter hshorter => ?_
  refine .expect (by cases form <;> decide) fun _ shorter' hshorter' => ?_
  refine (Settled.looksAt _).bind (.looksAt _) fun b => ?_
  have hclose : ∀ ps : List Token, Settled shorter'
      (do
        let _ ← expect .rightParen .parametersClosing
        let _ ← expect .leftBrace (.routineBody form)
        return (name, ps))
      (do
        let _ ← expect .rightParen .parametersClosing
        let _ ← expect .leftBrace (.routineBody form)
        return (name, ps)) := fun ps =>
    .expect (by decide) fun _ _ _ => .expect (by cases form <;> decide) fun _ _ _ => .pure _
  cases b with
  | true => exact (Settled.pure []).bind (.pure []) hclose
  | false => exact (settled_parameters n 0 hm (by omega)).bind (.parameters n 0) hclose

/-- The initial clause of a `for` is a declaration of a variable or an expression. -/
theorem settled_forInitial : SettledFrom 11 forInitial n := by
  intro m length hm hlength
  refine .accept ?_ fun t shorter hshorter => ?_
  · exact (settled_expressionUpTo _ (by decide) hm hlength).bind (.expressionUpTo n _ _) fun _ =>
      .pure _
  · exact .ite (.pure none) ((settled_varDecl hm (by omega)).map (.varDecl n) some)

/-- The rules for statements are settled. -/
structure StmtSettled (n : Nat) : Prop where
  declaration : SettledFrom 13 declaration n
  methods : SettledFrom 3 methods n
  routine : ∀ form, SettledFrom 2 (routine · form) n
  statement : SettledFrom 12 statement n
  block : SettledFrom 14 block n

/-- A declaration: behind its first word comes a shorter phrase. -/
theorem settled_declarationBody (ih : StmtSettled n) : SettledFrom 12 declarationBody n := by
  intro m length hm hlength
  refine .accept (ih.statement hm hlength) fun t shorter hshorter => ?_
  dsimp only
  split
  · refine .expect (by decide) fun _ shorter₁ h₁ => .expect (by decide) fun _ shorter₂ h₂ => ?_
    exact (ih.methods hm (by omega)).bind (stmtSteady n).methods fun _ =>
      .expect (by decide) fun _ _ _ => .pure _
  · exact (ih.routine _ hm (by omega)).bind ((stmtSteady n).routine _) fun _ => .pure _
  · exact settled_varDecl hm (by omega)

/-- A statement: behind its first word comes a shorter phrase. -/
theorem settled_statement (ih : StmtSettled n) : SettledFrom 12 statement (n + 1) := by
  refine .of_succ fun m length hm hlength => ?_
  refine .accept ?_ fun t shorter hshorter => ?_
  · exact (settled_expressionUpTo _ (by decide) hm (by omega)).bind (.expressionUpTo n _ _) fun _ =>
      .pure _
  dsimp only
  split
  · refine .expect (by decide) fun _ shorter₁ h₁ => ?_
    refine (settled_forInitial hm (by omega)).bind (.forInitial n) fun _ => ?_
    refine (settled_optionalUpTo _ (by decide) hm (by omega)).bind (.optionalUpTo n _ _) fun _ => ?_
    refine (settled_optionalUpTo _ (by decide) hm (by omega)).bind (.optionalUpTo n _ _) fun _ => ?_
    exact (ih.statement hm (by omega)).bind (stmtSteady n).statement fun _ => .pure _
  · refine .expect (by decide) fun _ shorter₁ h₁ => ?_
    refine (settled_expressionUpTo _ (by decide) hm (by omega)).bind (.expressionUpTo n _ _)
      fun _ => ?_
    refine (ih.statement hm (by omega)).bind (stmtSteady n).statement fun _ => ?_
    refine .accept (.pure _) fun _ shorter₂ h₂ => ?_
    exact (ih.statement hm (by omega)).bind (stmtSteady n).statement fun _ => .pure _
  · refine .expect (by decide) fun _ shorter₁ h₁ => ?_
    refine (settled_expressionUpTo _ (by decide) hm (by omega)).bind (.expressionUpTo n _ _)
      fun _ => ?_
    exact (ih.statement hm (by omega)).bind (stmtSteady n).statement fun _ => .pure _
  · exact (settled_optionalUpTo _ (by decide) hm (by omega)).bind (.optionalUpTo n _ _) fun _ =>
      .pure _
  · exact (ih.block hm (by omega)).bind (stmtSteady n).block fun _ => .pure _
  · exact (settled_expressionUpTo _ (by decide) hm (by omega)).bind (.expressionUpTo n _ _) fun _ =>
      .pure _

/-- A routine has a head before its body. -/
theorem settled_routine (ih : StmtSettled n) (form : RoutineForm) :
    SettledFrom 2 (routine · form) (n + 1) := by
  refine .of_succ fun m length hm hlength => ?_
  refine (settled_routineHead form hm (by omega)).advance (advances_routineHead n form)
    fun _ shorter hshorter => ?_
  exact (ih.block hm (by omega)).bind (stmtSteady n).block fun _ => .pure _

/-- Each method is a token at least. -/
theorem settled_methods (ih : StmtSettled n) : SettledFrom 3 methods (n + 1) := by
  refine .of_succ fun m length hm hlength => ?_
  have hnext := (@ih.routine .method m length hm (by omega)).advance
    (advances_routine .method n) fun method shorter hshorter =>
      (@ih.methods m shorter hm (by omega)).bind (stmtSteady n).methods fun more =>
        .pure (method :: more)
  exact .untilBrace (.pure []) fun _ _ => @hnext _

/-- Each declaration of a block is a token at least. -/
theorem settled_block (ih : StmtSettled n) : SettledFrom 14 block (n + 1) := by
  refine .of_succ fun m length hm hlength => ?_
  refine .untilBrace (.expect (by decide) fun _ _ _ => .pure []) ?_
  exact Settled.declaration (ih.declaration hm (by omega)) fun o shorter hshorter =>
    (ih.block hm (by omega)).bind (stmtSteady n).block fun _ => .pure _

/-- **Sixteen levels for each token are enough for a statement.** -/
theorem stmtSettled : ∀ n, StmtSettled n
  | 0 =>
    { declaration := .zero (by decide)
      methods := .zero (by decide)
      routine := fun _ => .zero (by decide)
      statement := .zero (by decide)
      block := .zero (by decide) }
  | n + 1 =>
    have ih := stmtSettled n
    { declaration := .of_succ fun m length hm hlength =>
        (settled_declarationBody ih hm (by omega)).recovering
      methods := settled_methods ih
      routine := settled_routine ih
      statement := settled_statement ih
      block := settled_block ih }

/-- **Sixteen levels for each token are enough for a program.** -/
theorem settled_program : ∀ n, SettledFrom 14 program n
  | 0 => .zero (by decide)
  | n + 1 => by
    refine .of_succ fun m length hm hlength => .atEnd (.pure []) ?_
    exact Settled.declaration ((stmtSettled n).declaration hm (by omega)) fun o shorter hshorter =>
      (settled_program n hm (by omega)).bind (.program n) fun _ => .pure _

/-- A program is read to its end. -/
theorem rest_of_program : ∀ {n : Nat} {c c' : Cursor} {ss : List Stmt},
    program n c = .ok ss c' → c'.rest = []
  | 0, _, _, _, h => absurd h refuse_ok
  | n + 1, c, c', ss, h => by
    obtain ⟨closed, c₁, hclosed, h⟩ := bind_ok h
    cases hclosed
    cases hrest : c.rest.isEmpty with
    | true =>
      rw [hrest] at h
      obtain ⟨-, rfl⟩ := pure_ok.mp h
      exact List.isEmpty_iff.mp hrest
    | false =>
      rw [hrest] at h
      obtain ⟨_, _, -, h⟩ := bind_ok h
      obtain ⟨_, _, hmore, h⟩ := bind_ok h
      obtain ⟨-, rfl⟩ := pure_ok.mp h
      exact rest_of_program hmore

/-- A program can fail for want of depth only: every other failure is recovered from. -/
theorem isNesting_of_program : ∀ {n : Nat} {c c' : Cursor} {d : Diagnostic},
    program n c = .error d c' → d.IsNesting
  | 0, _, _, _, h => by
    cases h
    exact ⟨_, rfl⟩
  | n + 1, c, c', d, h => by
    rcases bind_error h with h | ⟨closed, c₁, -, h⟩
    · cases h
    cases closed with
    | true => cases h
    | false =>
      rcases bind_error h with h | ⟨o, c₂, -, h⟩
      · cases n with
        | zero =>
          cases h
          exact ⟨_, rfl⟩
        | succ n =>
          rw [declaration_succ] at h
          unfold recovering at h
          split at h <;> cases h
      · rcases bind_error h with h | ⟨ss, c₃, -, h⟩
        · exact isNesting_of_program h
        · cases h

end Parser

/-! ## Programs and expressions alone -/

namespace Cursor

variable {c : Cursor}

theorem Ample.start (tokens : List Token) (nextId : NodeId) : (start tokens nextId).Ample :=
  fun _ hd => absurd hd List.not_mem_nil

/-- The depth of a cursor is enough for every rule at its tokens. -/
theorem depth_le {first : Nat} (h : first ≤ 32) : 16 * c.rest.length + first ≤ c.depth := by
  unfold depth
  omega

/-- A program is read in the same way with any larger depth. -/
theorem Ample.program (hc : c.Ample) {n : Nat} (hn : c.depth ≤ n) :
    Parser.program c.depth c = Parser.program n c ∧ Parser.Ample (Parser.program c.depth c) := by
  have hdepth : 16 * c.rest.length + 14 ≤ c.depth := depth_le (by decide)
  generalize c.depth = d at hn hdepth
  exact Parser.settled_program d hn hdepth (Nat.le_refl _) hc

/-- Every program can be read. -/
theorem Ample.program_ok (hc : c.Ample) : ∃ ss c', Parser.program c.depth c = .ok ss c' := by
  obtain ⟨-, hout⟩ := hc.program (Nat.le_refl _)
  cases h : Parser.program c.depth c with
  | ok ss c' => exact ⟨ss, c', rfl⟩
  | error d c' =>
    rw [h] at hout
    exact absurd (Parser.isNesting_of_program h) hout.1

/-- An expression is read in the same way with any larger depth. -/
theorem Ample.expression (hc : c.Ample) {n : Nat} (hn : c.depth ≤ n) :
    Parser.expression c.depth c = Parser.expression n c ∧
      Parser.Ample (Parser.expression c.depth c) := by
  have hdepth : 16 * c.rest.length + 11 ≤ c.depth := depth_le (by decide)
  generalize c.depth = d at hn hdepth
  exact (Parser.exprSettled d).expression hn hdepth (Nat.le_refl _) hc

/-- The first fault that was noted is no want of depth. -/
theorem Ample.firstFault (hc : c.Ample) (e : Expr) : Parser.Ample ((do
    match (← get).faults with
    | [] => return e
    | fault :: _ => throw fault : Parser Expr) c) := by
  rw [Parser.bind_eq (rfl : (get : Parser _) c = .ok c c)]
  cases hfaults : c.faults with
  | nil => exact hc
  | cons fault _ => exact ⟨hc fault (by simp [hfaults]), hc⟩

/-- A lone expression is never refused for want of depth. -/
theorem Ample.expressionAlone (hc : c.Ample) : Parser.Ample (Parser.expressionAlone c) := by
  obtain ⟨-, hexpression⟩ := hc.expression (Nat.le_refl _)
  refine (Parser.Settled.bindAt ⟨rfl, hexpression⟩ fun e c' _ hc' => ⟨rfl, ?_⟩).2
  rw [Parser.bind_eq (rfl : Parser.atEnd c' = .ok c'.rest.isEmpty c')]
  cases c'.rest.isEmpty with
  | false => exact ⟨Parser.not_isNesting (by decide), hc'⟩
  | true => exact hc'.firstFault e

end Cursor

/-- What is read of a program is read to the end, with depth enough. -/
theorem parse_eq (tokens : List Token) (nextId : NodeId) :
    ∃ ss c', Parser.program (Cursor.start tokens nextId).depth (.start tokens nextId) = .ok ss c' ∧
      parse tokens nextId = ⟨ss, c'.faults, c'.nextId⟩ ∧ c'.rest = [] ∧ c'.Ample := by
  have hc := Cursor.Ample.start tokens nextId
  obtain ⟨ss, c', hprogram⟩ := hc.program_ok
  obtain ⟨-, hample⟩ := hc.program (Nat.le_refl _)
  rw [hprogram] at hample
  refine ⟨ss, c', hprogram, ?_, Parser.rest_of_program hprogram, hample⟩
  unfold parse
  dsimp only
  rw [hprogram]

/-! ## Declaration after declaration -/

namespace Parser

variable {c : Cursor}

/-- A declaration and the program behind it. -/
theorem program_cons {n : Nat} {o : Option Stmt} {ss : List Stmt} {c₁ c₂ : Cursor}
    (hc : c.rest ≠ []) (h₁ : declaration n c = .ok o c₁) (h₂ : program n c₁ = .ok ss c₂) :
    program (n + 1) c = .ok (o.toList ++ ss) c₂ := by
  unfold program
  rw [bind_eq (rfl : atEnd c = .ok c.rest.isEmpty c), List.isEmpty_eq_false_iff.mpr hc]
  simp only [Bool.false_eq_true, if_false]
  rw [bind_eq h₁, bind_eq h₂]
  rfl

/-- A program with tokens ahead is a declaration and the program behind it. -/
theorem program_ok {n : Nat} {ss : List Stmt} {c' : Cursor} (hc : c.rest ≠ [])
    (h : program (n + 1) c = .ok ss c') :
    ∃ o c₁ ss', declaration n c = .ok o c₁ ∧ program n c₁ = .ok ss' c' ∧ ss = o.toList ++ ss' := by
  unfold program at h
  rw [bind_eq (rfl : atEnd c = .ok c.rest.isEmpty c), List.isEmpty_eq_false_iff.mpr hc] at h
  obtain ⟨o, c₁, h₁, h⟩ := bind_ok h
  obtain ⟨ss', c₂, h₂, h⟩ := bind_ok h
  obtain ⟨rfl, rfl⟩ := pure_ok.mp h
  exact ⟨o, c₁, ss', h₁, h₂, rfl⟩

/-- At the end of the tokens a program is empty. -/
theorem program_nil {n : Nat} (hc : c.rest = []) : program (n + 1) c = .ok [] c := by
  unfold program
  rw [bind_eq (rfl : atEnd c = .ok c.rest.isEmpty c), hc]
  rfl

end Parser

/-- With more depth than is needed the same program is read. -/
theorem parse_of_program {tokens : List Token} {nextId : NodeId} {n : Nat} {ss : List Stmt}
    {c' : Cursor} (hn : (Cursor.start tokens nextId).depth ≤ n)
    (h : Parser.program n (.start tokens nextId) = .ok ss c') :
    parse tokens nextId = ⟨ss, c'.faults, c'.nextId⟩ := by
  obtain ⟨ss', c₁, hprogram, hparse, -, -⟩ := parse_eq tokens nextId
  rw [((Cursor.Ample.start tokens nextId).program hn).1, h] at hprogram
  cases hprogram
  exact hparse

end LoxLang
