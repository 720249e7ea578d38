import Mathlib
import LoxLang.Lexis.Scan
import LoxLang.Proofs.Grammar.Script

/-!
# Proofs/Grammar/FirstFault — which fault of an expression is reported

Reading an expression finds faults of two sorts: some are noted and the reading goes on, any other
ends it. `Script.journal` lists all of them in the order in which they are found. The list is the
noted faults and, at its end, the one that the reading fails with (`Script.faults_append_journal`); in
an expression only two faults are noted, and reading never fails with one of these (`exprSorts`).

Of an expression that stands alone one fault is reported. It is the one that ends the reading, however
many were noted before, and only if there is none the first of those
(`parseExpression_reports_fatal`).
-/

namespace LoxLang

/-- Faults of an expression that do not end its reading. -/
def ParseFault.isPassing : ParseFault → Bool
  | .assignmentTarget | .tooManyArguments => true
  | _ => false

def Diagnostic.isPassing : Diagnostic → Bool
  | .parse _ fault => fault.isPassing
  | _ => false

namespace Parser

/-! ## All faults in order -/

/-- **The faults that are found from a cursor on**, in the order in which they are found. -/
def Script.journal {kinds : List Kind} {ahead : Bool} {α : Type} {p : Parser α} :
    Script kinds ahead p → Cursor → List Diagnostic
  | .pure _, _ | .freshId, _ | .looksAt _, _ | .acceptAny _, _ => []
  | .refuse fault, c | .noteHere fault, c => [.parse c.current fault]
  | .fail t fault, _ | .note t fault, _ => [.parse t fault]
  | @Script.bind _ _ _ _ p _ first next, c =>
    first.journal c ++
      match p c with
      | .ok a c' => (next a).journal c'
      | .error _ _ => []
  | .atEnd _ closed going, c => if c.rest.isEmpty then closed.journal c else going.journal c
  | .recovering _ _ body, c => body.journal c
  | .anywhere script, c => script.journal c

/-- A parser whose first part fails does not go on. -/
theorem bind_eq_error {α β : Type} {p : Parser α} {c c' : Cursor} {d : Diagnostic}
    (h : p c = .error d c') (f : α → Parser β) : (p >>= f) c = .error d c' := by
  change EStateM.bind p f c = _
  unfold EStateM.bind
  rw [h]

/-- The faults that are in the cursor behind a parser, and the one that it fails with. -/
def found {α : Type} : EStateM.Result Diagnostic Cursor α → List Diagnostic
  | .ok _ c => c.faults
  | .error d c => c.faults ++ [d]

/-- **Every fault that is found is noted, or the parser fails with it**, and it finds none behind
that one. -/
theorem Script.faults_append_journal {kinds : List Kind} {ahead : Bool} {α : Type} {p : Parser α}
    (script : Script kinds ahead p) (c : Cursor) :
    found (p c) = c.faults ++ script.journal c := by
  induction script generalizing c with
  | pure a => exact (List.append_nil _).symm
  | refuse fault => rfl
  | fail t fault => rfl
  | note t fault => rfl
  | noteHere fault => rfl
  | freshId => exact (List.append_nil _).symm
  | looksAt h => exact (List.append_nil _).symm
  | @acceptAny _ accepted h =>
    have hfaults : found (Parser.acceptAny accepted c) = c.faults := by
      unfold Parser.acceptAny
      repeat' split
      all_goals rfl
    exact hfaults.trans (List.append_nil _).symm
  | @bind _ _ _ p f first next ihp ihf =>
    have hfirst := ihp c
    rw [journal]
    -- The second parser finds faults only if the first succeeds.
    cases hp : p c with
    | ok a c' =>
      rw [hp] at hfirst
      rw [bind_eq hp f, ihf a c', ← List.append_assoc, ← hfirst]
      rfl
    | error d c' =>
      rw [hp] at hfirst
      rw [bind_eq_error hp f, List.append_nil, ← hfirst]
      rfl
  | @atEnd _ _ f h closed going ihclosed ihgoing =>
    have hstep : (Parser.atEnd >>= f) c = f c.rest.isEmpty c := rfl
    rw [hstep, journal]
    cases c.rest.isEmpty with
    | true => exact ihclosed c
    | false => exact ihgoing c
  | @recovering p h advances body ih =>
    have hbody := ih c
    rw [journal, ← hbody, Parser.recovering]
    cases p c <;> rfl
  | anywhere script ih => exact ih c

end Parser

/-! ## Noted faults and others -/

/-- From `c` to `c'` only faults were noted that do not end the reading. -/
def Cursor.Notes (c c' : Cursor) : Prop :=
  ∃ noted, c'.faults = c.faults ++ noted ∧ ∀ d ∈ noted, d.isPassing = true

theorem Cursor.Notes.of_eq {c c' : Cursor} (h : c'.faults = c.faults) : c.Notes c' :=
  ⟨[], by rw [h, List.append_nil], List.forall_mem_nil _⟩

/-- What is noted on the way is noted in order. -/
theorem Cursor.Notes.trans {c c' c'' : Cursor} (h : c.Notes c') (h' : c'.Notes c'') :
    c.Notes c'' := by
  obtain ⟨noted, hfaults, hnoted⟩ := h
  obtain ⟨noted', hfaults', hnoted'⟩ := h'
  exact ⟨noted ++ noted', by rw [hfaults', hfaults, List.append_assoc],
    List.forall_mem_append.mpr ⟨hnoted, hnoted'⟩⟩

namespace Parser

/-- What is noted does not end the reading, and what ends the reading is not of that sort. -/
structure Sorts {α : Type} (p : Parser α) : Prop where
  ok {c c' : Cursor} {a : α} : p c = .ok a c' → c.Notes c'
  error {c c' : Cursor} {d : Diagnostic} : p c = .error d c' → c.Notes c' ∧ d.isPassing = false

namespace Sorts

variable {α β : Type}

/-- Parsers that keep the two sorts apart may stand one behind the other. -/
theorem bind {p : Parser α} {f : α → Parser β} (hp : Sorts p) (hf : ∀ a, Sorts (f a)) :
    Sorts (p >>= f) where
  ok h := by
    obtain ⟨a, c₁, h₁, h₂⟩ := bind_ok h
    exact (hp.ok h₁).trans ((hf a).ok h₂)
  error h := by
    rcases bind_error h with h | ⟨a, c₁, h₁, h₂⟩
    · exact hp.error h
    · obtain ⟨hnotes, hd⟩ := (hf a).error h₂
      exact ⟨(hp.ok h₁).trans hnotes, hd⟩

/-- A parser that always succeeds and notes nothing. -/
theorem of_silent {p : Parser α} (h : ∀ c, ∃ a c', p c = .ok a c' ∧ c'.faults = c.faults) :
    Sorts p where
  ok {c} _ _ hok := by
    obtain ⟨_, _, heq, hfaults⟩ := h c
    cases hok.symm.trans heq
    exact .of_eq hfaults
  error {c} _ _ herror := by
    obtain ⟨_, _, heq, -⟩ := h c
    cases herror.symm.trans heq

theorem pure (a : α) : Sorts (Pure.pure a : Parser α) :=
  .of_silent fun c => ⟨a, c, rfl, rfl⟩

theorem freshId : Sorts Parser.freshId :=
  .of_silent fun _ => ⟨_, _, rfl, rfl⟩

theorem atEnd : Sorts Parser.atEnd :=
  .of_silent fun _ => ⟨_, _, rfl, rfl⟩

theorem looksAt (kind : Kind) : Sorts (Parser.looksAt kind) :=
  .of_silent fun _ => ⟨_, _, rfl, rfl⟩

theorem acceptAny (kinds : List Kind) : Sorts (Parser.acceptAny kinds) :=
  .of_silent fun c => by
    unfold Parser.acceptAny
    repeat' split
    all_goals exact ⟨_, _, rfl, rfl⟩

/-- A failure that ends the reading is of the other sort. -/
theorem fail {t : Token} {fault : ParseFault} (h : fault.isPassing = false) :
    Sorts (throw (.parse t fault) : Parser α) where
  ok hok := by cases hok
  error herror := by
    cases herror
    exact ⟨.of_eq rfl, h⟩

theorem refuse {fault : ParseFault} (h : fault.isPassing = false) :
    Sorts (Parser.refuse fault : Parser α) where
  ok hok := absurd hok refuse_ok
  error herror := by
    cases herror
    exact ⟨.of_eq rfl, h⟩

/-- A note that does not end the reading is of the first sort. -/
theorem note {t : Token} {fault : ParseFault} (h : fault.isPassing = true) :
    Sorts (Parser.note t fault) where
  ok hok := by
    cases hok
    exact ⟨_, rfl, List.forall_mem_singleton.mpr h⟩
  error herror := by cases herror

theorem noteHere {fault : ParseFault} (h : fault.isPassing = true) :
    Sorts (Parser.noteHere fault) where
  ok hok := (note h).ok hok
  error herror := (note h).error herror

/-- A token that is missing ends the reading. -/
theorem expect (kind : Kind) {fault : ParseFault} (h : fault.isPassing = false) :
    Sorts (Parser.expect kind fault) :=
  (acceptAny _).bind fun
    | none => refuse h
    | some t => pure t

theorem constantOf (t : Token) : Sorts (Parser.constantOf t) := by
  unfold Parser.constantOf
  split
  · exact pure _
  · exact pure _
  · exact fail rfl

/-- A target that cannot be assigned to does not end it. -/
theorem assignTo (target : Expr) (equal : Token) (value : Expr) :
    Sorts (Parser.assignTo target equal value) := by
  cases target with
  | var => exact freshId.bind fun _ => pure _
  | get => exact pure _
  | _ => exact (note rfl).bind fun _ => pure _

end Sorts

/-- The rules for expressions keep the two sorts of faults apart. -/
structure ExprSorts (n : Nat) : Prop where
  expression : Sorts (expression n)
  conditional : Sorts (conditional n)
  operation : ∀ o, Sorts (operation n o)
  operations : ∀ level left, Sorts (operations n level left)
  unary : Sorts (unary n)
  suffixes : ∀ object, Sorts (suffixes n object)
  arguments : ∀ count, Sorts (arguments n count)
  primary : Sorts (primary n)

/-- One argument and the arguments behind it. -/
theorem ExprSorts.argumentsTail {n : Nat} (ih : ExprSorts n) (count : Nat) :
    Sorts (do
      let argument ← Parser.expression n
      match ← accept .comma with
        | none => return [argument]
        | some _ => return argument :: (← Parser.arguments n (count + 1))) :=
  ih.expression.bind fun _ => (Sorts.acceptAny _).bind fun
    | none => .pure _
    | some _ => (ih.arguments _).bind fun _ => .pure _

/-- **In an expression only a wrong target and a surplus argument are noted**, and reading fails with
neither of them. -/
theorem exprSorts : ∀ n, ExprSorts n
  | 0 =>
    { expression := .refuse rfl
      conditional := .refuse rfl
      operation := fun _ => .refuse rfl
      operations := fun _ _ => .refuse rfl
      unary := .refuse rfl
      suffixes := fun _ => .refuse rfl
      arguments := fun _ => .refuse rfl
      primary := .refuse rfl }
  | n + 1 =>
    have ih := exprSorts n
    { expression :=
        ih.conditional.bind fun target => (Sorts.acceptAny _).bind fun
          | none => .pure target
          | some equal => ih.expression.bind fun value => .assignTo target equal value
      conditional :=
        (ih.operation _).bind fun condition => (Sorts.acceptAny _).bind fun
          | none => .pure condition
          | some _ =>
            ih.expression.bind fun _ => (Sorts.expect _ rfl).bind fun _ =>
              ih.expression.bind fun _ => .pure _
      operation := fun
        | none => ih.unary
        | some level => (ih.operation _).bind fun left => ih.operations level left
      operations := fun level left =>
        (Sorts.acceptAny _).bind fun
          | none => .pure left
          | some _ => (ih.operation _).bind fun _ => ih.operations level _
      unary :=
        (Sorts.acceptAny _).bind fun
          | none => ih.primary.bind fun e => ih.suffixes e
          | some _ => ih.unary.bind fun _ => .pure _
      suffixes := fun object => by
        refine (Sorts.acceptAny _).bind fun o => ?_
        cases o with
        | none => exact .pure object
        | some t =>
          dsimp only
          split
          · refine (Sorts.looksAt _).bind fun b => ?_
            cases b
            · exact (ih.arguments 0).bind fun _ => (Sorts.expect _ rfl).bind fun _ => ih.suffixes _
            · exact (Sorts.pure _).bind fun _ => (Sorts.expect _ rfl).bind fun _ => ih.suffixes _
          · exact (Sorts.expect _ rfl).bind fun _ => ih.suffixes _
      arguments := fun count => by
        simp only [Parser.arguments]
        have htail := ih.argumentsTail count
        split
        · exact (Sorts.noteHere rfl).bind fun _ => htail
        · exact htail
      primary := by
        refine (Sorts.acceptAny _).bind fun o => ?_
        cases o with
        | none => exact .refuse rfl
        | some t =>
          dsimp only
          split
          · exact .pure _
          · exact .pure _
          · exact .pure _
          · exact Sorts.freshId.bind fun _ => .pure _
          · exact Sorts.freshId.bind fun _ => .pure _
          · exact ih.expression.bind fun _ => (Sorts.expect _ rfl).bind fun _ => .pure _
          · exact .constantOf t }

/-! ## Expressions alone -/

/-- An expression up to the end of the tokens. -/
def toEnd (n : Nat) : Parser Expr := do
  let e ← expression n
  match ← atEnd with
  | true => return e
  | false => refuse .endOfExpression

def toEndScript (n : Nat) : FullScript false (toEnd n) :=
  (expressionScript n).bind fun e => .atEnd (Kind.mem_all _) (.pure e) (.refuse .endOfExpression)

/-- An expression up to the end keeps the two sorts apart. -/
theorem sorts_toEnd (n : Nat) : Sorts (toEnd n) :=
  (exprSorts n).expression.bind fun e => Sorts.atEnd.bind fun
    | true => .pure e
    | false => .refuse rfl

/-- **The faults that are found when the tokens are read as an expression**, in order. -/
def detected (tokens : List Token) (nextId : NodeId) : List Diagnostic :=
  (toEndScript (Cursor.start tokens nextId).depth).journal (.start tokens nextId)

/-- What is detected is what is found when the expression is read to the end. -/
theorem found_toEnd (tokens : List Token) (nextId : NodeId) :
    found (toEnd (Cursor.start tokens nextId).depth (.start tokens nextId)) =
      detected tokens nextId := by
  rw [(toEndScript (Cursor.start tokens nextId).depth).faults_append_journal, detected]
  exact List.nil_append _

/-- A fault that ends the reading comes before those that were noted. -/
theorem expressionAlone_eq (c : Cursor) : expressionAlone c =
    match toEnd c.depth c with
    | .error d c' => .error d c'
    | .ok e c' =>
      match c'.faults with
      | [] => .ok e c'
      | d :: _ => .error d c' := by
  have halone : expressionAlone c = (expression c.depth >>= fun e => do
      if !(← atEnd) then
        refuse .endOfExpression
      match (← get).faults with
      | [] => return e
      | fault :: _ => throw fault) c := rfl
  rw [halone, toEnd]
  cases h : expression c.depth c with
  | error d c' => rw [bind_eq_error h, bind_eq_error h]
  | ok e c' =>
    have hend : atEnd c' = .ok c'.rest.isEmpty c' := rfl
    rw [bind_eq h, bind_eq h, bind_eq hend, bind_eq hend]
    cases c'.rest.isEmpty with
    | false => rfl
    | true =>
      change (match c'.faults with
        | [] => Pure.pure e
        | fault :: _ => throw fault : Parser Expr) c' = match c'.faults with
        | [] => .ok e c'
        | d :: _ => .error d c'
      cases c'.faults <;> rfl

/-- The fault that is reported, out of those that were noted and the one that ended the reading. -/
theorem exists_noted_fatal (tokens : List Token) (nextId : NodeId) :
    ∃ (noted : List Diagnostic) (fatal : Option Diagnostic),
      detected tokens nextId = noted ++ fatal.toList ∧
      (∀ d ∈ noted, d.isPassing = true) ∧ (∀ d ∈ fatal, d.isPassing = false) ∧
      ∀ d, (parseExpression tokens nextId).1 = .error d ↔ fatal.or noted.head? = some d := by
  have hjournal := found_toEnd tokens nextId
  have halone := expressionAlone_eq (Cursor.start tokens nextId)
  have hsorts := sorts_toEnd (Cursor.start tokens nextId).depth
  cases hread : toEnd (Cursor.start tokens nextId).depth (Cursor.start tokens nextId) with
  | ok e c' =>
    rw [hread] at hjournal halone
    obtain ⟨noted, hfaults, hnoted⟩ := hsorts.ok hread
    refine ⟨noted, none, ?_, hnoted, by simp, fun d => ?_⟩
    · exact hjournal.symm.trans (hfaults.trans (List.append_nil noted).symm)
    · have hfaults : c'.faults = noted := hfaults
      simp only [parseExpression, halone, hfaults]
      cases noted <;> simp
  | error d c' =>
    rw [hread] at hjournal halone
    obtain ⟨⟨noted, hfaults, hnoted⟩, hd⟩ := hsorts.error hread
    refine ⟨noted, some d, ?_, hnoted, ?_, fun d' => ?_⟩
    · exact hjournal.symm.trans (congrArg (· ++ [d]) hfaults)
    · rintro _ ⟨⟩
      exact hd
    · rw [parseExpression, halone]
      simp

end Parser

/-- **The fault that is reported of an expression.** The faults that are found are some that were
noted and at most one that ended the reading. That one is reported, and only without it the first of
the noted ones: so it is the first of all if nothing was noted before the end of the reading, or if
nothing ended it. -/
theorem parseExpression_reports_fatal (tokens : List Token) (nextId : NodeId) :
    ∃ (noted : List Diagnostic) (fatal : Option Diagnostic),
      Parser.detected tokens nextId = noted ++ fatal.toList ∧
      (∀ d ∈ noted, d.isPassing = true) ∧ (∀ d ∈ fatal, d.isPassing = false) ∧
      (∀ d, (parseExpression tokens nextId).1 = .error d ↔ fatal.or noted.head? = some d) ∧
      ∀ d, (parseExpression tokens nextId).1 = .error d →
        ((Parser.detected tokens nextId).head? = some d ↔ noted = [] ∨ fatal = none) := by
  obtain ⟨noted, fatal, hdetected, hnoted, hfatal, hreported⟩ :=
    Parser.exists_noted_fatal tokens nextId
  refine ⟨noted, fatal, hdetected, hnoted, hfatal, hreported, fun d hd => ?_⟩
  have hd := (hreported d).mp hd
  rw [hdetected]
  cases noted with
  | nil => cases fatal <;> simp_all
  | cons first noted =>
    cases fatal with
    | none => simpa using hd
    | some f =>
      -- the first fault is a noted one, and the reported one is not
      have hne : first ≠ f := by
        rintro rfl
        exact Bool.false_ne_true ((hfatal _ rfl).symm.trans (hnoted _ List.mem_cons_self))
      obtain rfl : f = d := by simpa using hd
      simpa using hne

/-- `1 = 2 = 3`: nothing ends the reading, and of the two wrong targets the second is found first. -/
theorem parseExpression_reports_fatal_targets :
    let tokens := tokensOf (scan "1 = 2\n= 3")
    let second := Diagnostic.parse ⟨.equal, "=", none, 2⟩ .assignmentTarget
    (parseExpression tokens 0).1 = .error second ∧
      (Parser.detected tokens 0).head? = some second := by
  intro tokens second
  have hdetected : Parser.detected tokens 0 =
      [second, .parse ⟨.equal, "=", none, 1⟩ .assignmentTarget] := by
    rw [← Parser.found_toEnd]
    decide +kernel
  clear_value tokens
  obtain ⟨noted, fatal, hsplit, -, hfatal, hreported, hfirst⟩ :=
    parseExpression_reports_fatal tokens 0
  have hnone : fatal = none := by
    cases fatal with
    | none => rfl
    | some f =>
      have hmem : f ∈ Parser.detected tokens 0 := hsplit ▸ by simp
      have hpassing : ∀ d ∈ Parser.detected tokens 0, d.isPassing = true := by
        rw [hdetected]
        simp [second, Diagnostic.isPassing, ParseFault.isPassing]
      exact absurd (hfatal f rfl) (by simp [hpassing f hmem])
  subst hnone
  have hnoted : noted = Parser.detected tokens 0 := by simpa using hsplit.symm
  have herror := (hreported second).mpr (by rw [hnoted, hdetected]; rfl)
  exact ⟨herror, (hfirst second herror).mpr (.inr rfl)⟩

/-- `1 = 2 3`: the wrong target is found first, and what is reported is the token that is left over. -/
theorem parseExpression_hides_noted :
    let tokens := tokensOf (scan "1 = 2 3")
    let target := Diagnostic.parse ⟨.equal, "=", none, 1⟩ .assignmentTarget
    let surplus :=
      Diagnostic.parse ⟨.number, "3", some (.number (nearest 3 1)), 1⟩ .endOfExpression
    Parser.detected tokens 0 = [target, surplus] ∧ (parseExpression tokens 0).1 = .error surplus ∧
      (Parser.detected tokens 0).head? ≠ some surplus := by
  intro tokens target surplus
  have hdetected : Parser.detected tokens 0 = [target, surplus] := by
    rw [← Parser.found_toEnd]
    decide +kernel
  have htokens : tokens = [⟨.number, "1", some (.number (nearest 1 1)), 1⟩,
      ⟨.equal, "=", none, 1⟩, ⟨.number, "2", some (.number (nearest 2 1)), 1⟩,
      ⟨.number, "3", some (.number (nearest 3 1)), 1⟩, Lexis.endToken 1] := by
    decide +kernel
  have hread (x y z : Float) : (parseExpression [⟨.number, "1", some (.number x), 1⟩,
      ⟨.equal, "=", none, 1⟩, ⟨.number, "2", some (.number y), 1⟩,
      ⟨.number, "3", some (.number z), 1⟩, Lexis.endToken 1] 0).1 =
      .error (.parse ⟨.number, "3", some (.number z), 1⟩ .endOfExpression) := by
    cbv
  refine ⟨hdetected, by rw [htokens]; exact hread _ _ _, ?_⟩
  rw [hdetected]
  simp [target, surplus]

end LoxLang
