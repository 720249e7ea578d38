import Mathlib
import LoxLang.Proofs.Alike.Tree
import LoxLang.Proofs.Store.Pairs

/-!
# Proofs/Alike/Reading — texts that are alike are read alike

`Likewise` relates two computations that come to corresponding outcomes from corresponding states. A
parser looks at the kinds, lexemes and literals of tokens only, and never at node ids. So on tokens
that differ in their lines, and with other ids in stock, it does the same: it moves on by as many
tokens, notes faults that are alike and yields trees that are alike, whether it succeeds or not
(`parse_alike`, `parseExpression_alike`).
-/

namespace LoxLang

open EStateM (Result)

/-! ## Corresponding computations -/

/-- Outcomes that correspond: both are values, or both are stops. -/
inductive Matches {ε σ α β : Type} (stops : ε → ε → Prop) (states : σ → σ → Prop)
    (values : α → β → Prop) : Result ε σ α → Result ε σ β → Prop
  | ok {a : α} {b : β} {s s' : σ} (h : values a b) (hs : states s s') :
      Matches stops states values (.ok a s) (.ok b s')
  | error {e e' : ε} {s s' : σ} (h : stops e e') (hs : states s s') :
      Matches stops states values (.error e s) (.error e' s')

/-- From corresponding states the computations come to corresponding outcomes. -/
def Likewise {ε σ α β : Type} (stops : ε → ε → Prop) (states : σ → σ → Prop)
    (values : α → β → Prop) (x : EStateM ε σ α) (y : EStateM ε σ β) : Prop :=
  ∀ ⦃s s'⦄, states s s' → Matches stops states values (x s) (y s')

namespace Likewise

variable {ε σ α β α' β' : Type} {stops : ε → ε → Prop} {states : σ → σ → Prop}
  {values : α → β → Prop} {values' : α' → β' → Prop}

theorem pure {a : α} {b : β} (h : values a b) :
    Likewise stops states values (Pure.pure a) (Pure.pure b) :=
  fun _ _ hs => .ok h hs

theorem throw {e e' : ε} (h : stops e e') :
    Likewise stops states values (MonadExcept.throw e : EStateM ε σ α)
      (MonadExcept.throw e' : EStateM ε σ β) :=
  fun _ _ hs => .error h hs

/-- Computations one behind the other. -/
theorem bind {x : EStateM ε σ α} {y : EStateM ε σ β} {f : α → EStateM ε σ α'}
    {g : β → EStateM ε σ β'} (hx : Likewise stops states values x y)
    (hf : ∀ {a b}, values a b → Likewise stops states values' (f a) (g b)) :
    Likewise stops states values' (x >>= f) (y >>= g) := by
  intro s s' hs
  change Matches stops states values' (EStateM.bind x f s) (EStateM.bind y g s')
  unfold EStateM.bind
  have hout := hx hs
  generalize x s = out, y s' = out' at hout
  cases hout with
  | ok h hs => exact hf h hs
  | error h hs => exact .error h hs

theorem map {x : EStateM ε σ α} {y : EStateM ε σ β} {f : α → α'} {g : β → β'}
    (hx : Likewise stops states values x y) (hf : ∀ {a b}, values a b → values' (f a) (g b)) :
    Likewise stops states values' (f <$> x) (g <$> y) := by
  intro s s' hs
  change Matches stops states values' (EStateM.map f x s) (EStateM.map g y s')
  unfold EStateM.map
  have hout := hx hs
  generalize x s = out, y s' = out' at hout
  cases hout with
  | ok h hs => exact .ok (hf h) hs
  | error h hs => exact .error h hs

/-- A computation that looks at its state first. -/
theorem get_bind {f : σ → EStateM ε σ α} {g : σ → EStateM ε σ β}
    (hf : ∀ {s s'}, states s s' → Likewise stops states values (f s) (g s')) :
    Likewise stops states values (get >>= f) (get >>= g) :=
  fun _ _ hs => hf hs hs

/-- Branches that are taken on the same condition. -/
theorem ite {x x' : EStateM ε σ α} {y y' : EStateM ε σ β} {p q : Prop} [Decidable p] [Decidable q]
    (hpq : p ↔ q) (hx : Likewise stops states values x y)
    (hx' : Likewise stops states values x' y') :
    Likewise stops states values (if p then x else x') (if q then y else y') := by
  by_cases hp : p
  · rw [if_pos hp, if_pos (hpq.mp hp)]
    exact hx
  · rw [if_neg hp, if_neg (mt hpq.mpr hp)]
    exact hx'

end Likewise

/-! ## Cursors -/

/-- Cursors before tokens that are alike, with faults that are alike. -/
structure Cursor.Alike (lines : Lines) (c c' : Cursor) : Prop where
  rest : List.Forall₂ (Token.Alike lines) c.rest c'.rest
  last : c.last.Alike lines c'.last
  faults : List.Forall₂ (Diagnostic.Alike lines) c.faults c'.faults

/-- Parsers that do the same on tokens that are alike. -/
abbrev Parser.Alike {α β : Type} (lines : Lines) (values : α → β → Prop) (x : Parser α)
    (y : Parser β) : Prop :=
  Likewise (Diagnostic.Alike lines) (Cursor.Alike lines) values x y

section

variable {lines : Lines} {c c' : Cursor}

theorem Cursor.Alike.current (h : c.Alike lines c') : c.current.Alike lines c'.current := by
  have hrest := h.rest
  unfold Cursor.current
  generalize c.rest = ts, c'.rest = ts' at hrest
  cases hrest with
  | nil => exact h.last
  | cons ht _ => exact ht

theorem Cursor.Alike.depth_eq (h : c.Alike lines c') : c.depth = c'.depth := by
  unfold Cursor.depth
  rw [h.rest.length_eq]

/-- A fault is noted on both sides. -/
theorem Cursor.Alike.note (h : c.Alike lines c') {d d' : Diagnostic} (hd : d.Alike lines d') :
    Cursor.Alike lines { c with faults := c.faults ++ [d] }
      { c' with faults := c'.faults ++ [d'] } :=
  ⟨h.rest, h.last, List.rel_append h.faults (.cons hd .nil)⟩

variable (hlines : ∀ l, lines l l) {ts ts' : List Token}
  (hts : List.Forall₂ (Token.Alike lines) ts ts')

include hts in
/-- The last tokens are alike, if there are any. -/
theorem getLast?_alike : Option.Rel (Token.Alike lines) ts.getLast? ts'.getLast? := by
  induction hts with
  | nil => exact .none
  | cons ht hts ih =>
    cases hts with
    | nil => exact .some ht
    | cons _ _ => simpa only [List.getLast?_cons_cons] using ih

include hlines hts in
/-- The end tokens are alike, also where they have to be made up. -/
theorem endOf_alike : (Cursor.endOf ts).Alike lines (Cursor.endOf ts') := by
  have hfind : Option.Rel (Token.Alike lines) (ts.find? (·.kind = .eof))
      (ts'.find? (·.kind = .eof)) := by
    clear hlines
    induction hts with
    | nil => exact .none
    | cons ht _ ih =>
      simp only [List.find?_cons, ht.kind]
      split
      · exact .some ht
      · exact ih
  unfold Cursor.endOf
  generalize ts.find? (·.kind = .eof) = o, ts'.find? (·.kind = .eof) = o' at hfind
  cases hfind with
  | some ht => exact ht
  | none =>
    refine ⟨rfl, rfl, rfl, ?_⟩
    have hlast := getLast?_alike hts
    generalize ts.getLast? = o, ts'.getLast? = o' at hlast
    cases hlast with
    | none => exact hlines 1
    | some ht => exact ht.line

include hlines hts in
/-- Reading starts in states that are alike, whatever ids are in stock. -/
theorem start_alike (nextId nextId' : NodeId) :
    (Cursor.start ts nextId).Alike lines (Cursor.start ts' nextId') := by
  refine ⟨?_, endOf_alike hlines hts, .nil⟩
  unfold Cursor.start
  dsimp only
  induction hts with
  | nil => exact .nil
  | cons ht _ ih =>
    simp only [List.takeWhile_cons, ht.kind]
    split
    · exact .cons ht ih
    · exact .nil

end

/-! ## Single steps -/

namespace Parser.Alike

variable {lines : Lines}

/-- A fault at the current token is at tokens that are alike. -/
theorem refuse {α β : Type} {values : α → β → Prop} (fault : ParseFault) :
    Alike lines values (Parser.refuse fault) (Parser.refuse fault) :=
  fun _ _ h => .error (.parse h.current fault) h

theorem note {t t' : Token} (ht : t.Alike lines t') (fault : ParseFault) :
    Alike lines Eq (Parser.note t fault) (Parser.note t' fault) :=
  fun _ _ h => .ok rfl (h.note (.parse ht fault))

theorem noteHere (fault : ParseFault) :
    Alike lines Eq (Parser.noteHere fault) (Parser.noteHere fault) :=
  fun _ _ h => .ok rfl (h.note (.parse h.current fault))

theorem freshId : Alike lines Ids.any Parser.freshId Parser.freshId :=
  fun _ _ h => .ok trivial ⟨h.rest, h.last, h.faults⟩

theorem atEnd : Alike lines Eq Parser.atEnd Parser.atEnd := by
  intro c c' h
  refine .ok ?_ h
  have hrest := h.rest
  generalize c.rest = ts, c'.rest = ts' at hrest
  cases hrest <;> rfl

theorem looksAt (kind : Kind) : Alike lines Eq (Parser.looksAt kind) (Parser.looksAt kind) := by
  intro c c' h
  refine .ok ?_ h
  have hrest := h.rest
  generalize c.rest = ts, c'.rest = ts' at hrest
  cases hrest with
  | nil => rfl
  | cons ht _ => simp only [ht.kind]

/-- Both sides take the token or neither does. -/
theorem acceptAny (kinds : List Kind) :
    Alike lines (Option.Rel (Token.Alike lines)) (Parser.acceptAny kinds)
      (Parser.acceptAny kinds) := by
  intro c c' h
  obtain ⟨rest, last, faults, nextId⟩ := c
  obtain ⟨rest', last', faults', nextId'⟩ := c'
  unfold Parser.acceptAny
  have hrest : List.Forall₂ (Token.Alike lines) rest rest' := h.rest
  cases hrest with
  | nil => exact .ok .none h
  | cons ht hts =>
    simp only [ht.kind]
    split
    · exact .ok (.some ht) ⟨hts, h.last, h.faults⟩
    · exact .ok .none h

theorem accept (kind : Kind) :
    Alike lines (Option.Rel (Token.Alike lines)) (Parser.accept kind) (Parser.accept kind) :=
  acceptAny [kind]

/-- Both sides take the token or both report its absence. -/
theorem expect (kind : Kind) (fault : ParseFault) :
    Alike lines (Token.Alike lines) (Parser.expect kind fault) (Parser.expect kind fault) := by
  refine (accept kind).bind fun ho => ?_
  cases ho with
  | none => exact refuse fault
  | some ht => exact .pure ht

/-- The literal of a token does not depend on its line. -/
theorem constantOf {uses : Ids} {t t' : Token} (ht : t.Alike lines t') :
    Alike lines (Expr.Alike lines uses) (Parser.constantOf t) (Parser.constantOf t') := by
  unfold Parser.constantOf
  rw [ht.literal]
  split
  · exact .pure (.constant _)
  · exact .pure (.constant _)
  · exact .throw (.parse ht _)

/-- The target of an assignment is judged by its shape alone. -/
theorem assignTo {e e' v v' : Expr} {t t' : Token} (he : e.Alike lines .any e')
    (ht : t.Alike lines t') (hv : v.Alike lines .any v') :
    Alike lines (Expr.Alike lines .any) (Parser.assignTo e t v) (Parser.assignTo e' t' v') := by
  have hother : Alike lines (Expr.Alike lines .any)
      (do
        Parser.note t .assignmentTarget
        return e)
      (do
        Parser.note t' .assignmentTarget
        return e') := (note ht _).bind fun _ => .pure he
  cases he with
  | var _ hname => exact freshId.bind fun hid => .pure (.assign hid hname hv)
  | get hobject hname => exact .pure (.set hobject hname hv)
  | _ => exact hother

end Parser.Alike

/-! ## Expressions -/

namespace Parser

variable {lines : Lines}

/-- One argument and the arguments behind it. -/
theorem argumentsTail_alike {n : Nat}
    (hfirst : Alike lines (Expr.Alike lines .any) (expression n) (expression n))
    (hmore : ∀ count,
      Alike lines (Expr.AllAlike lines .any) (arguments n count) (arguments n count))
    (count : Nat) :
    let tail : Parser (List Expr) := do
      let argument ← expression n
      match ← accept .comma with
        | none => return [argument]
        | some _ => return argument :: (← arguments n (count + 1))
    Alike lines (Expr.AllAlike lines .any) tail tail := by
  refine hfirst.bind fun he => (Alike.accept _).bind fun ho => ?_
  cases ho with
  | none => exact .pure (.cons he .nil)
  | some _ => exact (hmore _).bind fun hes => .pure (.cons he hes)

/-- The rules for expressions do the same on tokens that are alike. -/
structure ExprAlike (lines : Lines) (n : Nat) : Prop where
  expression : Alike lines (Expr.Alike lines .any) (expression n) (expression n)
  conditional : Alike lines (Expr.Alike lines .any) (conditional n) (conditional n)
  operation : ∀ o, Alike lines (Expr.Alike lines .any) (operation n o) (operation n o)
  operations : ∀ level {e e'}, e.Alike lines .any e' →
    Alike lines (Expr.Alike lines .any) (operations n level e) (operations n level e')
  unary : Alike lines (Expr.Alike lines .any) (unary n) (unary n)
  suffixes : ∀ {e e'}, e.Alike lines .any e' →
    Alike lines (Expr.Alike lines .any) (suffixes n e) (suffixes n e')
  arguments : ∀ count,
    Alike lines (Expr.AllAlike lines .any) (arguments n count) (arguments n count)
  primary : Alike lines (Expr.Alike lines .any) (primary n) (primary n)

/-- Joining at a level keeps expressions alike. -/
theorem join_alike (level : Level) {a a' b b' : Expr} {t t' : Token}
    (ha : a.Alike lines .any a') (ht : t.Alike lines t') (hb : b.Alike lines .any b') :
    (level.join a t b).Alike lines .any (level.join a' t' b') := by
  cases level with
  | disjunction | conjunction => exact .logical ha ht hb
  | _ => exact .binary ha ht hb

/-- **With any fuel, the parsers of expressions do the same on tokens that are alike.** -/
theorem exprAlike : ∀ n, ExprAlike lines n
  | 0 =>
    { expression := Alike.refuse _
      conditional := Alike.refuse _
      operation := fun _ => Alike.refuse _
      operations := fun _ {_ _} _ => Alike.refuse _
      unary := Alike.refuse _
      suffixes := fun _ => Alike.refuse _
      arguments := fun _ => Alike.refuse _
      primary := Alike.refuse _ }
  | n + 1 =>
    have ih := exprAlike n
    { expression := by
        refine ih.conditional.bind fun htarget => (Alike.accept _).bind fun ho => ?_
        cases ho with
        | none => exact .pure htarget
        | some hequal =>
          exact ih.expression.bind fun hvalue => Alike.assignTo htarget hequal hvalue
      conditional := by
        refine (ih.operation _).bind fun hcondition => (Alike.accept _).bind fun ho => ?_
        cases ho with
        | none => exact .pure hcondition
        | some _ =>
          exact ih.expression.bind fun htrue => (Alike.expect _ _).bind fun _ =>
            ih.expression.bind fun hfalse => .pure (.conditional hcondition htrue hfalse)
      operation := fun o => by
        cases o with
        | none => exact ih.unary
        | some level => exact (ih.operation _).bind fun hleft => ih.operations level hleft
      operations := fun level {_ _} hleft => by
        refine (Alike.acceptAny _).bind fun ho => ?_
        cases ho with
        | none => exact .pure hleft
        | some hoperator =>
          exact (ih.operation _).bind fun hright =>
            ih.operations level (join_alike level hleft hoperator hright)
      unary := by
        refine (Alike.acceptAny _).bind fun ho => ?_
        cases ho with
        | none => exact ih.primary.bind fun he => ih.suffixes he
        | some hoperator => exact ih.unary.bind fun he => .pure (.unary hoperator he)
      suffixes := fun hobject => by
        refine (Alike.acceptAny _).bind fun ho => ?_
        cases ho with
        | none => exact .pure hobject
        | some ht =>
          refine .ite (by rw [ht.kind]) ?_ ?_
          · refine (Alike.looksAt _).bind fun {b b'} hb => ?_
            cases hb
            have hcall : ∀ {es es'}, Expr.AllAlike lines .any es es' → Alike lines
                (Expr.Alike lines .any) _ _ := fun hes =>
              (Alike.expect .rightParen .argumentsClosing).bind fun hparen =>
                ih.suffixes (.call hobject hparen hes)
            cases b
            · exact (ih.arguments 0).bind hcall
            · exact hcall .nil
          · exact (Alike.expect _ _).bind fun hname => ih.suffixes (.get hobject hname)
      arguments := fun count => by
        simp only [Parser.arguments]
        have htail := argumentsTail_alike ih.expression ih.arguments count
        split
        · exact (Alike.noteHere _).bind fun _ => htail
        · exact htail
      primary := by
        refine (Alike.acceptAny _).bind fun ho => ?_
        cases ho with
        | none => exact Alike.refuse _
        | @some t t' ht =>
          dsimp only
          rw [← ht.kind]
          cases t.kind with
          | falseWord | trueWord | nilWord => exact .pure (.constant _)
          | thisWord => exact Alike.freshId.bind fun hid => .pure (.this hid ht)
          | identifier => exact Alike.freshId.bind fun hid => .pure (.var hid ht)
          | leftParen =>
            exact ih.expression.bind fun he => (Alike.expect _ _).bind fun _ => .pure (.grouping he)
          | _ => exact Alike.constantOf ht }

/-! ## Statements -/

/-- Recovery skips as many tokens on both sides. -/
theorem skipFrom_alike {ts ts' : List Token} (hts : List.Forall₂ (Token.Alike lines) ts ts') :
    ∀ {t t' : Token}, t.Alike lines t' →
      List.Forall₂ (Token.Alike lines) (skipFrom t ts) (skipFrom t' ts') := by
  induction hts with
  | nil => exact fun _ => .nil
  | cons hu hts ih =>
    intro t t' ht
    simp only [skipFrom, ht.kind, hu.kind]
    split
    · exact .cons hu hts
    · exact ih hu

/-- Both sides go on at the same statement after a fault. -/
theorem resynchronize_alike {ts ts' : List Token}
    (hts : List.Forall₂ (Token.Alike lines) ts ts') :
    List.Forall₂ (Token.Alike lines) (resynchronize ts) (resynchronize ts') := by
  cases hts with
  | nil => exact .nil
  | cons ht hts => exact skipFrom_alike hts ht

namespace Alike

/-- A statement that is given up on the one side is given up on the other. -/
theorem recovering {p p' : Parser Stmt} (hp : Alike lines (Stmt.Alike lines .any) p p') :
    Alike lines (Stmt.OptionAlike lines .any) (recovering p) (recovering p') := by
  intro c c' h
  have hout := hp h
  unfold Parser.recovering
  generalize p c = out, p' c' = out' at hout
  cases hout with
  | ok hs hc => exact .ok (.some hs) hc
  | error hd hc =>
    exact .ok .none ⟨resynchronize_alike hc.rest, hc.last, (hc.note hd).faults⟩

theorem expressionUpTo (n : Nat) (kind : Kind) (fault : ParseFault) :
    Alike lines (Expr.Alike lines .any) (expressionUpTo n kind fault)
      (expressionUpTo n kind fault) :=
  (exprAlike n).expression.bind fun he => (expect _ _).bind fun _ => .pure he

theorem optionalUpTo (n : Nat) (kind : Kind) (fault : ParseFault) :
    Alike lines (Expr.OptionAlike lines .any) (optionalUpTo n kind fault)
      (optionalUpTo n kind fault) := by
  refine (looksAt _).bind fun {b b'} hb => ?_
  cases hb
  have hclose : ∀ {e e'}, Expr.OptionAlike lines .any e e' →
      Alike lines (Expr.OptionAlike lines .any) _ _ := fun he =>
    (expect kind fault).bind fun _ => .pure he
  cases b
  · exact ((exprAlike n).expression.map .some).bind hclose
  · exact hclose .none

theorem varDecl (n : Nat) : Alike lines (Stmt.Alike lines .any) (varDecl n) (varDecl n) := by
  refine (expect _ _).bind fun hname => (accept _).bind fun ho => ?_
  have hclose : ∀ {e e'}, Expr.OptionAlike lines .any e e' →
      Alike lines (Stmt.Alike lines .any) _ _ := fun he =>
    (expect .semicolon .variableEnd).bind fun _ => .pure (.varDecl hname he)
  cases ho with
  | none => exact hclose .none
  | some _ => exact ((exprAlike n).expression.map .some).bind hclose

/-- One parameter and the parameters behind it. -/
theorem parametersTail {n : Nat}
    (hmore : ∀ count, Alike lines (List.Forall₂ (Token.Alike lines)) (parameters n count)
      (parameters n count)) (count : Nat) :
    let tail : Parser (List Token) := do
      let parameter ← Parser.expect .identifier .parameterName
      match ← Parser.accept .comma with
        | none => return [parameter]
        | some _ => return parameter :: (← parameters n (count + 1))
    Alike lines (List.Forall₂ (Token.Alike lines)) tail tail := by
  refine (expect _ _).bind fun hp => (accept _).bind fun ho => ?_
  cases ho with
  | none => exact .pure (.cons hp .nil)
  | some _ => exact (hmore _).bind fun hps => .pure (.cons hp hps)

theorem parameters : ∀ n count, Alike lines (List.Forall₂ (Token.Alike lines))
    (parameters n count) (parameters n count)
  | 0, _ => refuse _
  | n + 1, count => by
    simp only [Parser.parameters]
    have hmore : ∀ count, Alike lines (List.Forall₂ (Token.Alike lines)) _ _ := parameters n
    have htail := parametersTail hmore count
    split
    · exact (noteHere _).bind fun _ => htail
    · exact htail

/-- The names and parameters of two routines are alike. -/
inductive Heads (lines : Lines) : Token × List Token → Token × List Token → Prop
  | mk {t t' : Token} {ps ps' : List Token} (ht : t.Alike lines t')
      (hps : List.Forall₂ (Token.Alike lines) ps ps') : Heads lines (t, ps) (t', ps')

/-- The names and the parameters of the routines are alike. -/
theorem routineHead (n : Nat) (form : RoutineForm) :
    Alike lines (Heads lines) (routineHead n form) (routineHead n form) := by
  refine (expect _ _).bind fun hname => (expect _ _).bind fun _ =>
    (looksAt _).bind fun {b b'} hb => ?_
  cases hb
  have hclose : ∀ {ps ps'}, List.Forall₂ (Token.Alike lines) ps ps' →
      Alike lines (Heads lines) _ _ := fun hps =>
    (expect .rightParen .parametersClosing).bind fun _ =>
      (expect .leftBrace (.routineBody form)).bind fun _ => .pure (.mk hname hps)
  cases b
  · exact (parameters n 0).bind hclose
  · exact hclose .nil

/-- The first clause of a loop is left out on both sides or on neither. -/
theorem forInitial (n : Nat) :
    Alike lines (Stmt.OptionAlike lines .any) (forInitial n) (forInitial n) := by
  refine (acceptAny _).bind fun ho => ?_
  cases ho with
  | none => exact (expressionUpTo n _ _).bind fun he => .pure (.some (.exprStmt he))
  | some ht =>
    refine .ite (by rw [ht.kind]) (.pure .none) ?_
    exact (varDecl n).map .some

end Alike

/-- The rules for statements do the same on tokens that are alike. -/
structure StmtAlike (lines : Lines) (n : Nat) : Prop where
  declaration : Alike lines (Stmt.OptionAlike lines .any) (declaration n) (declaration n)
  methods : Alike lines (Routine.AllAlike lines .any) (methods n) (methods n)
  routine : ∀ form, Alike lines (Routine.Alike lines .any) (routine n form) (routine n form)
  statement : Alike lines (Stmt.Alike lines .any) (statement n) (statement n)
  block : Alike lines (Stmt.AllAlike lines .any) (block n) (block n)

theorem toList_alike {o o' : Option Stmt} (h : Stmt.OptionAlike lines .any o o') :
    Stmt.AllAlike lines .any o.toList o'.toList := by
  cases h with
  | none => exact .nil
  | some h => exact .cons h .nil

/-- A declaration with one more unit of fuel than its parts. -/
theorem declaration_alike {n : Nat} (ih : StmtAlike lines n) :
    Alike lines (Stmt.OptionAlike lines .any) (declaration (n + 1)) (declaration (n + 1)) := by
  refine Alike.recovering ((Alike.acceptAny _).bind fun ho => ?_)
  cases ho with
  | none => exact ih.statement
  | @some t t' ht =>
    dsimp only
    rw [← ht.kind]
    cases t.kind with
    | classWord =>
      exact (Alike.expect _ _).bind fun hname => (Alike.expect _ _).bind fun _ =>
        ih.methods.bind fun hms => (Alike.expect _ _).bind fun _ => .pure (.classDecl hname hms)
    | funWord => exact (ih.routine _).bind fun hr => .pure (.funDecl hr)
    | _ => exact Alike.varDecl n

/-- A statement with one more unit of fuel than its parts. -/
theorem statement_alike {n : Nat} (ih : StmtAlike lines n) :
    Alike lines (Stmt.Alike lines .any) (statement (n + 1)) (statement (n + 1)) := by
  refine (Alike.acceptAny _).bind fun ho => ?_
  cases ho with
  | none => exact (Alike.expressionUpTo n _ _).bind fun he => .pure (.exprStmt he)
  | @some t t' ht =>
    dsimp only
    rw [← ht.kind]
    cases t.kind with
    | forWord =>
      exact (Alike.expect _ _).bind fun _ => (Alike.forInitial n).bind fun hinitial =>
        (Alike.optionalUpTo n _ _).bind fun hcondition =>
        (Alike.optionalUpTo n _ _).bind fun hincrement =>
        ih.statement.bind fun hs => .pure (.forStmt hinitial hcondition hincrement hs)
    | ifWord =>
      refine (Alike.expect _ _).bind fun _ => (Alike.expressionUpTo n _ _).bind fun hcondition =>
        ih.statement.bind fun htrue => (Alike.accept _).bind fun ho => ?_
      cases ho with
      | none => exact .pure (.ifStmt hcondition htrue .none)
      | some _ =>
        exact ih.statement.bind fun hfalse => .pure (.ifStmt hcondition htrue (.some hfalse))
    | whileWord =>
      exact (Alike.expect _ _).bind fun _ => (Alike.expressionUpTo n _ _).bind fun hcondition =>
        ih.statement.bind fun hs => .pure (.whileStmt hcondition hs)
    | returnWord => exact (Alike.optionalUpTo n _ _).bind fun he => .pure (.returnStmt ht he)
    | leftBrace => exact ih.block.bind fun hss => .pure (.block hss)
    | _ => exact (Alike.expressionUpTo n _ _).bind fun he => .pure (.printStmt he)

/-- **With any fuel, the parsers of statements do the same on tokens that are alike.** -/
theorem stmtAlike : ∀ n, StmtAlike lines n
  | 0 =>
    { declaration := Alike.refuse _
      methods := Alike.refuse _
      routine := fun _ => Alike.refuse _
      statement := Alike.refuse _
      block := Alike.refuse _ }
  | n + 1 =>
    have ih := stmtAlike n
    { declaration := declaration_alike ih
      methods := by
        refine (Alike.looksAt _).bind fun hb => Alike.atEnd.bind fun hb' => ?_
        refine .ite (by rw [hb, hb']) (.pure .nil) ?_
        exact (ih.routine _).bind fun hr => ih.methods.bind fun hrs => .pure (.cons hr hrs)
      routine := fun form => by
        refine (Alike.routineHead n form).bind fun hhead => ?_
        cases hhead with
        | mk ht hps => exact ih.block.bind fun hss => .pure (.mk ht hps hss)
      statement := statement_alike ih
      block := by
        refine (Alike.looksAt _).bind fun hb => Alike.atEnd.bind fun hb' => ?_
        refine .ite (by rw [hb, hb']) ((Alike.expect _ _).bind fun _ => .pure .nil) ?_
        exact ih.declaration.bind fun hs => ih.block.bind fun hss =>
          .pure ((toList_alike hs).append hss) }

/-- A program is read to the end of the tokens on both sides. -/
theorem program_alike : ∀ n, Alike lines (Stmt.AllAlike lines .any) (program n) (program n)
  | 0 => Alike.refuse _
  | n + 1 => by
    refine Alike.atEnd.bind fun hb => .ite (by rw [hb]) (.pure .nil) ?_
    exact (stmtAlike n).declaration.bind fun hs => (program_alike n).bind fun hss =>
      .pure ((toList_alike hs).append hss)

/-- An expression is given up for the first fault that was noted, on both sides or on neither. -/
theorem firstFault_alike {e e' : Expr} (he : e.Alike lines .any e') :
    Alike lines (Expr.Alike lines .any)
      (do
        match (← get).faults with
        | [] => return e
        | fault :: _ => throw fault)
      (do
        match (← get).faults with
        | [] => return e'
        | fault :: _ => throw fault) := by
  refine .get_bind fun {c c'} hc => ?_
  have hfaults := hc.faults
  generalize c.faults = ds, c'.faults = ds' at hfaults
  cases hfaults with
  | nil => exact .pure he
  | cons hd _ => exact .throw hd

/-- An expression and nothing behind it is read on both sides, or the same fault is found. -/
theorem expressionAlone_alike :
    Alike lines (Expr.Alike lines .any) expressionAlone expressionAlone := by
  refine .get_bind fun {c c'} hc => ?_
  rw [hc.depth_eq]
  refine (exprAlike _).expression.bind fun he => Alike.atEnd.bind fun {b b'} hb => ?_
  cases hb
  cases b with
  | false =>
    have hrefuse : Alike lines Eq (refuse .endOfExpression : Parser Unit)
        (refuse .endOfExpression) := Alike.refuse _
    exact hrefuse.bind fun _ => firstFault_alike he
  | true => exact firstFault_alike he

end Parser

/-! ## Whole texts -/

/-- What was read of two programs is alike. -/
structure Parsed.Alike (lines : Lines) (p p' : Parsed) : Prop where
  statements : Stmt.AllAlike lines .any p.statements p'.statements
  faults : List.Forall₂ (Diagnostic.Alike lines) p.faults p'.faults

variable {lines : Lines} {ts ts' : List Token}

/-- **Programs that are alike are read alike**, whatever ids are in stock. -/
theorem parse_alike (hlines : ∀ l, lines l l) (hts : List.Forall₂ (Token.Alike lines) ts ts')
    (nextId nextId' : NodeId) : (parse ts nextId).Alike lines (parse ts' nextId') := by
  have hstart := start_alike hlines hts nextId nextId'
  have hout := Parser.program_alike (Cursor.start ts nextId).depth hstart
  rw [hstart.depth_eq] at hout
  unfold parse
  dsimp only
  rw [hstart.depth_eq]
  generalize Parser.program (Cursor.start ts' nextId').depth (Cursor.start ts nextId) = out,
    Parser.program (Cursor.start ts' nextId').depth (Cursor.start ts' nextId') = out' at hout
  cases hout with
  | ok hss hc => exact ⟨hss, hc.faults⟩
  | error hd hc => exact ⟨.nil, (hc.note hd).faults⟩

/-- **Expressions that are alike are read alike.** -/
theorem parseExpression_alike (hlines : ∀ l, lines l l)
    (hts : List.Forall₂ (Token.Alike lines) ts ts') (nextId nextId' : NodeId) :
    ExceptRel (Diagnostic.Alike lines) (Expr.Alike lines .any) (parseExpression ts nextId).1
      (parseExpression ts' nextId').1 := by
  have hout := Parser.expressionAlone_alike (start_alike hlines hts nextId nextId')
  unfold parseExpression
  generalize Parser.expressionAlone (Cursor.start ts nextId) = out,
    Parser.expressionAlone (Cursor.start ts' nextId') = out' at hout
  cases hout with
  | ok he _ => exact .ok he
  | error hd _ => exact .error hd

end LoxLang
