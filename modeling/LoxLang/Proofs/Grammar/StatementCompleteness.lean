import Mathlib
import LoxLang.Proofs.Grammar.Completeness

/-!
# Proofs/Grammar/StatementCompleteness — what forms a statement is read

The induction of `Proofs/Grammar/Completeness`, on the statements. Besides the depth there is one
side condition: behind a statement that ends with an `if` that lacks an `else` there must not stand
an `else`. The grammar with the nearest `if` gives that for every statement inside another
(`complete_ifElse`), and a sequence of declarations gives it for each of them, because no
declaration starts with an `else`.
-/

namespace LoxLang

/-! ## First tokens -/

namespace Grammar

/-- The words that a statement other than an expression starts with. -/
def statementWords : List Kind :=
  [.forWord, .ifWord, .whileWord, .returnWord, .leftBrace, .printWord]

/-- The kinds of token that a rule for statements starts with. -/
def StmtRule.starters : StmtRule → List Kind
  | .declaration | .declarations => [.classWord, .funWord, .varWord] ++ (statementWords ++ exprStarters)
  | .statement => statementWords ++ exprStarters
  | .routine | .routines => [.identifier]

/-- The tokens start as the rule does; a sequence may also be empty. -/
def StmtRule.Starts : StmtRule → List Token → Prop
  | .declarations, w => w = [] ∨ StartsIn StmtRule.declarations.starters w
  | .routines, w => w = [] ∨ StartsIn StmtRule.routines.starters w
  | r, w => StartsIn r.starters w

/-- A statement that is an expression starts like one. -/
theorem ExprStmt.startsIn {w : List Token} {s : Stmt} (h : ExprStmt w s) :
    StartsIn exprStarters w := by
  obtain ⟨hw, -⟩ := h
  exact hw.startsIn.append _

/-- **Every rule for statements starts with one of its starters.** -/
theorem Forms.starts {nearest : Prop} {r : StmtRule} {w : List Token} {t : r.Tree}
    (h : Forms nearest r w t) : r.Starts w := by
  induction h with
  | classDecl hk | funDecl hk | varDecl hk | forStmt hk | ifStmt hk | ifElse hk | printStmt hk
  | returnStmt hk | whileStmt hk | block hk | routine hk =>
    exact ⟨_, _, rfl, by rw [hk]; decide⟩
  | ofStatement _ ih => exact ih.mono (List.subset_append_right _ _)
  | exprStmt hw => exact hw.startsIn.mono (List.subset_append_right _ _)
  | noRoutine | noDeclaration => exact .inl rfl
  | moreRoutines _ _ ih | moreDeclarations _ _ ih => exact .inr (ih.append _)

end Grammar

namespace Parser

open Grammar

variable {n : Nat} {c : Cursor} {u v w rest : List Token}

/-- An expression and its closing token are read. -/
theorem complete_expressionUpTo {e : Expr} {kind : Kind} {closing : Token} (hw : Derives .expression w e)
    (hk : closing.kind = kind) (hkind : kind ∉ exprExtenders) (fault : ParseFault)
    (hn : 16 * w.length + 11 ≤ n) (hr : c.rest = w ++ closing :: rest) :
    ReadsAs (expressionUpTo n kind fault) c (w ++ [closing]) (·.bare = e) := by
  obtain ⟨e', c₁, heq, hp, he⟩ := complete hw hn hr (.cons (by rwa [hk]) _)
  have hr₁ := hp.rest_eq hr
  refine ⟨e', { c₁ with rest }, ?_, hp.trans (.head hr₁), he⟩
  rw [expressionUpTo, bind_eq heq, bind_eq (expect_cons hr₁ hk _)]
  rfl

/-- An expression that may be left out is read up to its closing token. -/
theorem complete_optionalUpTo {o : Option Expr} {kind : Kind} {closing : Token} (hw : Optional w o)
    (hk : closing.kind = kind) (hkind : kind ∉ exprExtenders) (hstart : kind ∉ exprStarters)
    (fault : ParseFault) (hn : 16 * w.length + 11 ≤ n) (hr : c.rest = w ++ closing :: rest) :
    ReadsAs (optionalUpTo n kind fault) c (w ++ [closing]) (·.map Expr.bare = o) := by
  cases hw with
  | absent =>
    refine ⟨none, { c with rest }, ?_, .head hr, rfl⟩
    rw [optionalUpTo, bind_eq (looksAt_cons hr hk)]
    simp only [if_true, pure_bind]
    rw [bind_eq (expect_cons hr hk _)]
    rfl
  | present hw =>
    obtain ⟨e', c₁, heq, hp, he⟩ := complete hw hn hr (.cons (by rwa [hk]) _)
    have hr₁ := hp.rest_eq hr
    refine ⟨some e', { c₁ with rest }, ?_, hp.trans (.head hr₁), by simp [he]⟩
    rw [optionalUpTo, bind_eq (looksAt_startsIn hw.startsIn hstart hr)]
    simp only [Bool.false_eq_true, if_false, map_eq_pure_bind, bind_assoc, pure_bind]
    rw [bind_eq heq, bind_eq (expect_cons hr₁ hk _)]
    rfl

/-- A declaration of a variable is read, behind its first word. -/
theorem complete_varDecl {s : Stmt} (hw : VarDecl w s) (hn : 16 * w.length ≤ n)
    (hr : c.rest = w ++ rest) : ReadsAs (varDecl n) c w (·.bare = s) := by
  cases hw with
  | @plain name semicolon hname hsemi =>
    refine ⟨.varDecl name none, { c with rest }, ?_, ⟨hr, rfl, rfl⟩, rfl⟩
    have hno : Avoids [.equal] (semicolon :: rest) := .cons (by rw [hsemi]; decide) _
    rw [varDecl, bind_eq (expect_cons hr hname _), accept, bind_eq (acceptAny_none hno)]
    simp only [pure_bind]
    rw [bind_eq (expect_cons rfl hsemi _)]
    rfl
  | @initial w e name equal semicolon hname hequal hw hsemi =>
    simp only [List.length_cons, List.length_append, List.length_nil] at hn
    have hr₁ : c.rest = name :: equal :: (w ++ semicolon :: rest) := by simpa using hr
    obtain ⟨e', c₁, heq, hp, he⟩ := complete hw (n := n)
      (c := { c with rest := w ++ semicolon :: rest }) (by omega) rfl (.cons (by rw [hsemi]; decide) _)
    have hr₂ : c₁.rest = semicolon :: rest := hp.rest_eq rfl
    refine ⟨.varDecl name (some e'), { c₁ with rest }, ?_, ?_, by simp [he]⟩
    · rw [varDecl, bind_eq (expect_cons hr₁ hname _), accept,
        bind_eq (acceptAny_cons rfl (by simp [hequal]))]
      simp only [map_eq_pure_bind, bind_assoc, pure_bind]
      rw [bind_eq heq, bind_eq (expect_cons hr₂ hsemi _)]
      rfl
    · have hfront : c.Passes [name, equal] { c with rest := w ++ semicolon :: rest } :=
        ⟨hr₁, rfl, rfl⟩
      exact hfront.trans (hp.trans (.head hr₂))

/-- The initial clause of a `for` is read. -/
theorem complete_forInitial {o : Option Stmt} (hw : ForInitial w o) (hn : 16 * w.length + 11 ≤ n)
    (hr : c.rest = w ++ rest) : ReadsAs (forInitial n) c w (Stmt.bareOption · = o) := by
  cases hw with
  | @empty semicolon hsemi =>
    refine ⟨none, { c with rest }, ?_, .head hr, rfl⟩
    rw [forInitial, bind_eq (acceptAny_cons hr (by simp [hsemi]))]
    simp only [hsemi, if_true]
    rfl
  | @ofVarDecl w s var hvar hw =>
    rw [List.length_cons] at hn
    obtain ⟨s', c₁, heq, hp, hs⟩ := complete_varDecl hw (n := n)
      (c := { c with rest := w ++ rest }) (by omega) rfl
    refine ⟨some s', c₁, ?_, (Cursor.Passes.head hr).trans hp, by simp [hs]⟩
    rw [forInitial, bind_eq (acceptAny_cons hr (by simp [hvar]))]
    simp only [hvar, reduceCtorEq, if_false, map_eq_pure_bind]
    exact bind_eq heq _
  | ofExprStmt hw =>
    have hno : Avoids [.semicolon, .varWord] c.rest := hr ▸ hw.startsIn.avoids (by decide) rest
    obtain @⟨w, e, semicolon, hw, hsemi⟩ := hw
    rw [List.length_append, List.length_singleton] at hn
    have hr₁ : c.rest = w ++ semicolon :: rest := by simpa using hr
    obtain ⟨e', c₁, heq, hp, he⟩ := complete_expressionUpTo (n := n) hw hsemi (by decide)
      .expressionEnd (by omega) hr₁
    refine ⟨some (.exprStmt e'), c₁, ?_, hp, by simp [he]⟩
    rw [forInitial, bind_eq (acceptAny_none hno)]
    exact bind_eq heq _

/-- An allowed parameter is read as a name and the parameters behind its comma. -/
theorem parameters_eq {count : Nat} (h : count < maxArity) :
    parameters (n + 1) count = (do
      let parameter ← expect .identifier .parameterName
      match ← accept .comma with
        | none => return [parameter]
        | some _ => return parameter :: (← parameters n (count + 1))) := by
  rw [parameters]
  exact if_neg (Nat.not_le.mpr h)

/-- Parameters are read, if there are not too many. -/
theorem complete_parameters {names : List Token} (hw : Parameters w names) :
    ∀ (n count : Nat) (c : Cursor) (rest : List Token), w.length ≤ n → c.rest = w ++ rest →
      Avoids [.comma] rest → count + names.length ≤ maxArity →
      ReadsAs (parameters n count) c w (· = names) := by
  induction hw with
  | @one name hname =>
    intro n count c rest hn hr hrest hcount
    obtain ⟨m, rfl⟩ : ∃ m, n = m + 1 := ⟨n - 1, by simp at hn; omega⟩
    refine ⟨[name], { c with rest }, ?_, .head hr, rfl⟩
    rw [parameters_eq hcount, bind_eq (expect_cons hr hname _), accept,
      bind_eq (acceptAny_none hrest)]
    rfl
  | @more name comma w names hname hcomma _ ih =>
    intro n count c rest hn hr hrest hcount
    simp only [List.length_cons] at hn hcount
    obtain ⟨m, rfl⟩ : ∃ m, n = m + 1 := ⟨n - 1, by omega⟩
    obtain ⟨_, c₁, heq, hp, rfl⟩ := ih m (count + 1) { c with rest := w ++ rest } rest
      (by omega) rfl hrest (by omega)
    have hfront : c.Passes [name, comma] { c with rest := w ++ rest } := ⟨hr, rfl, rfl⟩
    refine ⟨_, c₁, ?_, hfront.trans hp, rfl⟩
    rw [parameters_eq (by omega), bind_eq (expect_cons hr hname _), accept,
      bind_eq (acceptAny_cons rfl (by simp [hcomma]))]
    exact bind_eq heq _

/-- Parameters start with a name. -/
theorem Parameters.startsIn {names : List Token} (hw : Parameters w names) :
    StartsIn [.identifier] w := by
  cases hw with
  | one hname | more hname => exact ⟨_, _, rfl, by simp [hname]⟩

/-- The head of a routine is read up to the brace. -/
theorem complete_routineHead {name opening closing bodyOpening : Token} {ps : List Token}
    (form : RoutineForm) (hname : name.kind = .identifier) (ho : opening.kind = .leftParen)
    (hw : ParameterList w ps) (hc : closing.kind = .rightParen)
    (hb : bodyOpening.kind = .leftBrace) (hn : w.length ≤ n)
    (hr : c.rest = name :: opening :: (w ++ closing :: bodyOpening :: rest)) :
    ReadsAs (routineHead n form) c (name :: opening :: (w ++ [closing, bodyOpening]))
      (· = (name, ps)) := by
  have hfront : c.Passes [name, opening] { c with rest := w ++ closing :: bodyOpening :: rest } :=
    ⟨hr, rfl, rfl⟩
  cases hw with
  | empty =>
    refine ⟨(name, []), { c with rest }, ?_, ⟨hr, rfl, rfl⟩, rfl⟩
    rw [routineHead, bind_eq (expect_cons hr hname _), bind_eq (expect_cons rfl ho _),
      bind_eq (looksAt_cons rfl hc)]
    simp only [if_true, pure_bind]
    rw [bind_eq (expect_cons rfl hc _), bind_eq (expect_cons rfl hb _)]
    rfl
  | some hw hlen =>
    have hno : Avoids [.comma] (closing :: bodyOpening :: rest) :=
      .cons (by rw [hc]; decide) _
    obtain ⟨_, c₁, heq, hp, rfl⟩ := complete_parameters hw n 0
      { c with rest := w ++ closing :: bodyOpening :: rest } _ hn rfl hno (by omega)
    have hr₁ : c₁.rest = closing :: bodyOpening :: rest := hp.rest_eq rfl
    have hback : c₁.Passes [closing, bodyOpening] { c₁ with rest } := ⟨hr₁, rfl, rfl⟩
    refine ⟨_, { c₁ with rest }, ?_, hfront.trans (hp.trans hback), rfl⟩
    rw [routineHead, bind_eq (expect_cons hr hname _), bind_eq (expect_cons rfl ho _),
      bind_eq (looksAt_startsIn (Parameters.startsIn hw) (by decide) rfl)]
    simp only [Bool.false_eq_true, if_false]
    rw [bind_eq heq, bind_eq (expect_cons hr₁ hc _), bind_eq (expect_cons rfl hb _)]
    rfl

/-- Recovery does nothing to a success. -/
theorem recovering_eq {p : Parser Stmt} {s : Stmt} {c' : Cursor} (h : p c = .ok s c') :
    recovering p c = .ok (some s) c' := by
  rw [recovering, h]

/-- What reading the tokens of a rule for statements comes to. A sequence ends at a closing brace or,
in a program, at the end. -/
def StmtComplete : (r : StmtRule) → List Token → r.Tree → Prop
  | .declaration, w, s => ∀ ⦃n c rest⦄, 16 * w.length + 13 ≤ n → c.rest = w ++ rest →
      (s.endsOpen = true → Avoids [.elseWord] rest) →
      ReadsAs (declaration n) c w (∃ s', · = some s' ∧ s'.bare = s)
  | .statement, w, s => ∀ ⦃n c rest⦄, 16 * w.length + 12 ≤ n → c.rest = w ++ rest →
      (s.endsOpen = true → Avoids [.elseWord] rest) → ReadsAs (statement n) c w (·.bare = s)
  | .declarations, w, ss =>
      (∀ ⦃n c closing rest⦄, 16 * w.length + 14 ≤ n → c.rest = w ++ closing :: rest →
        closing.kind = .rightBrace → ReadsAs (block n) c (w ++ [closing]) (Stmt.bareAll · = ss)) ∧
      ∀ ⦃n c⦄, 16 * w.length + 14 ≤ n → c.rest = w → ReadsAs (program n) c w (Stmt.bareAll · = ss)
  | .routine, w, r => ∀ ⦃n form c rest⦄, 16 * w.length ≤ n → c.rest = w ++ rest →
      ReadsAs (routine n form) c w (·.bare = r)
  | .routines, w, rs => ∀ ⦃n c closing rest⦄, 16 * w.length + 14 ≤ n →
      c.rest = w ++ closing :: rest → closing.kind = .rightBrace →
      ReadsAs (methods n) c w (Routine.bareAll · = rs)

/-! ### Declarations -/

/-- A class is read. -/
theorem complete_classDecl {keyword name opening closing : Token} {methods : List Routine}
    (hk : keyword.kind = .classWord) (hname : name.kind = .identifier)
    (ho : opening.kind = .leftBrace) (hw : StmtComplete .routines w methods)
    (hc : closing.kind = .rightBrace) :
    StmtComplete .declaration (keyword :: name :: opening :: (w ++ [closing]))
      (.classDecl name methods) := by
  intro n c rest hn hr _
  simp only [List.length_cons, List.length_append, List.length_nil] at hn
  obtain ⟨m, rfl⟩ : ∃ m, n = m + 1 := ⟨n - 1, by omega⟩
  have hr₁ : c.rest = keyword :: name :: opening :: (w ++ closing :: rest) := by simpa using hr
  obtain ⟨rs, c₁, heq, hp, hrs⟩ := hw (n := m) (c := { c with rest := w ++ closing :: rest })
    (by omega) rfl hc
  have hr₂ : c₁.rest = closing :: rest := hp.rest_eq rfl
  refine ⟨some (.classDecl name rs), { c₁ with rest }, recovering_eq ?_, ?_, _, rfl, ?_⟩
  · rw [bind_eq (acceptAny_cons hr₁ (by simp [hk]))]
    simp only [hk]
    rw [bind_eq (expect_cons rfl hname _), bind_eq (expect_cons rfl ho _), bind_eq heq,
      bind_eq (expect_cons hr₂ hc _)]
    rfl
  · have hfront : c.Passes [keyword, name, opening] { c with rest := w ++ closing :: rest } :=
      ⟨hr₁, rfl, rfl⟩
    exact hfront.trans (hp.trans (.head hr₂))
  · simp [hrs]

/-- A function is read. -/
theorem complete_funDecl {keyword : Token} {r : Routine} (hk : keyword.kind = .funWord)
    (hw : StmtComplete .routine w r) : StmtComplete .declaration (keyword :: w) (.funDecl r) := by
  intro n c rest hn hr _
  rw [List.length_cons] at hn
  obtain ⟨m, rfl⟩ : ∃ m, n = m + 1 := ⟨n - 1, by omega⟩
  obtain ⟨r', c₁, heq, hp, hr'⟩ := @hw m .function { c with rest := w ++ rest } rest (by omega) rfl
  refine ⟨some (.funDecl r'), c₁, recovering_eq ?_, (Cursor.Passes.head hr).trans hp, _, rfl, ?_⟩
  · rw [bind_eq (acceptAny_cons hr (by simp [hk]))]
    simp only [hk]
    exact bind_eq heq _
  · simp [hr']

/-- A variable is read, with its keyword. -/
theorem complete_varDeclaration {keyword : Token} {s : Stmt} (hk : keyword.kind = .varWord)
    (hw : VarDecl w s) : StmtComplete .declaration (keyword :: w) s := by
  intro n c rest hn hr _
  rw [List.length_cons] at hn
  obtain ⟨m, rfl⟩ : ∃ m, n = m + 1 := ⟨n - 1, by omega⟩
  obtain ⟨s', c₁, heq, hp, hs⟩ := complete_varDecl hw (n := m) (c := { c with rest := w ++ rest })
    (by omega) rfl
  refine ⟨some s', c₁, recovering_eq ?_, (Cursor.Passes.head hr).trans hp, s', rfl, hs⟩
  rw [bind_eq (acceptAny_cons hr (by simp [hk]))]
  simp only [hk]
  exact heq

/-- A statement is read where a declaration is asked for. -/
theorem complete_ofStatement {s : Stmt} (hstart : StartsIn StmtRule.statement.starters w)
    (hw : StmtComplete .statement w s) : StmtComplete .declaration w s := by
  intro n c rest hn hr hopen
  obtain ⟨m, rfl⟩ : ∃ m, n = m + 1 := ⟨n - 1, by omega⟩
  obtain ⟨s', c₁, heq, hp, hs⟩ := hw (n := m) (by omega) hr hopen
  have hno : Avoids [.classWord, .funWord, .varWord] c.rest := hr ▸ hstart.avoids (by decide) rest
  refine ⟨some s', c₁, recovering_eq ?_, hp, s', rfl, hs⟩
  rw [bind_eq (acceptAny_none hno)]
  exact heq

/-- A routine is read. -/
theorem complete_routine {name opening closing bodyOpening bodyClosing : Token} {ps : List Token}
    {body : List Stmt} (hname : name.kind = .identifier) (ho : opening.kind = .leftParen)
    (hu : ParameterList u ps) (hc : closing.kind = .rightParen)
    (hbo : bodyOpening.kind = .leftBrace) (hw : StmtComplete .declarations w body)
    (hbc : bodyClosing.kind = .rightBrace) :
    StmtComplete .routine
      (name :: opening :: (u ++ closing :: bodyOpening :: (w ++ [bodyClosing])))
      ⟨name, ps, body⟩ := by
  intro n form c rest hn hr
  simp only [List.length_cons, List.length_append, List.length_nil] at hn
  obtain ⟨m, rfl⟩ : ∃ m, n = m + 1 := ⟨n - 1, by omega⟩
  have hr₁ : c.rest = name :: opening :: (u ++ closing :: bodyOpening ::
      (w ++ bodyClosing :: rest)) := by simpa using hr
  obtain ⟨_, c₁, heq, hp, rfl⟩ := complete_routineHead (n := m) form hname ho hu hc hbo (by omega) hr₁
  have hr₂ : c₁.rest = w ++ bodyClosing :: rest := by
    refine hp.rest_eq ?_
    simpa using hr
  obtain ⟨ss, c₂, heq₂, hp₂, hss⟩ := hw.1 (n := m) (by omega) hr₂ hbc
  refine ⟨⟨name, ps, ss⟩, c₂, ?_, by simpa using hp.trans hp₂, by simp [hss]⟩
  rw [routine, bind_eq heq]
  exact bind_eq heq₂ _

/-- Without methods a class is read up to its brace. -/
theorem complete_noRoutine : StmtComplete .routines [] [] := by
  intro n c closing rest hn hr hc
  obtain ⟨m, rfl⟩ : ∃ m, n = m + 1 := ⟨n - 1, by omega⟩
  refine ⟨[], c, ?_, .nil c, rfl⟩
  rw [methods, bind_eq (looksAt_cons hr hc)]
  rfl

/-- A method is read before the others. -/
theorem complete_moreRoutines {r : Routine} {rs : List Routine}
    (hstart : StartsIn [.identifier] u) (hu : StmtComplete .routine u r)
    (hw : StmtComplete .routines w rs) : StmtComplete .routines (u ++ w) (r :: rs) := by
  intro n c closing rest hn hr hc
  have hpos := hstart.length_pos
  rw [List.length_append] at hn
  obtain ⟨m, rfl⟩ : ∃ m, n = m + 1 := ⟨n - 1, by omega⟩
  rw [List.append_assoc] at hr
  obtain ⟨r', c₁, heq, hp, hr'⟩ := @hu m .method c _ (by omega) hr
  have hr₁ := hp.rest_eq hr
  obtain ⟨rs', c₂, heq₂, hp₂, hrs⟩ := hw (n := m) (by omega) hr₁ hc
  refine ⟨r' :: rs', c₂, ?_, hp.trans hp₂, by simp [hr', hrs]⟩
  rw [methods, bind_eq (looksAt_startsIn hstart (by decide) hr),
    bind_eq (rfl : atEnd c = .ok c.rest.isEmpty c), hstart.isEmpty_eq hr]
  simp only [Bool.or_self, Bool.false_eq_true, if_false]
  rw [bind_eq heq, bind_eq heq₂]
  rfl

/-! ### Statements -/

/-- An expression is read as a statement. -/
theorem complete_exprStmt {s : Stmt} (hw : ExprStmt w s) : StmtComplete .statement w s := by
  intro n c rest hn hr _
  have hno : Avoids statementWords c.rest := hr ▸ hw.startsIn.avoids (by decide) rest
  obtain @⟨w, e, semicolon, hw, hsemi⟩ := hw
  rw [List.length_append, List.length_singleton] at hn
  obtain ⟨m, rfl⟩ : ∃ m, n = m + 1 := ⟨n - 1, by omega⟩
  have hr₁ : c.rest = w ++ semicolon :: rest := by simpa using hr
  obtain ⟨e', c₁, heq, hp, he⟩ := complete_expressionUpTo (n := m) hw hsemi (by decide)
    .expressionEnd (by omega) hr₁
  refine ⟨.exprStmt e', c₁, ?_, hp, by simp [he]⟩
  rw [statement, ← statementWords, bind_eq (acceptAny_none hno)]
  exact bind_eq heq _

theorem complete_printStmt {keyword semicolon : Token} {e : Expr}
    (hk : keyword.kind = .printWord) (hw : Derives .expression w e)
    (hsemi : semicolon.kind = .semicolon) :
    StmtComplete .statement (keyword :: (w ++ [semicolon])) (.printStmt e) := by
  intro n c rest hn hr _
  simp only [List.length_cons, List.length_append, List.length_nil] at hn
  obtain ⟨m, rfl⟩ : ∃ m, n = m + 1 := ⟨n - 1, by omega⟩
  have hr₁ : c.rest = keyword :: (w ++ semicolon :: rest) := by simpa using hr
  obtain ⟨e', c₁, heq, hp, he⟩ := complete_expressionUpTo (n := m)
    (c := { c with rest := w ++ semicolon :: rest }) hw hsemi (by decide) .printEnd (by omega) rfl
  refine ⟨.printStmt e', c₁, ?_, (Cursor.Passes.head hr₁).trans hp, by simp [he]⟩
  rw [statement, bind_eq (acceptAny_cons hr₁ (by simp [hk]))]
  simp only [hk]
  exact bind_eq heq _

/-- A `return` is read, with its value or without. -/
theorem complete_returnStmt {keyword semicolon : Token} {o : Option Expr}
    (hk : keyword.kind = .returnWord) (hw : Optional w o)
    (hsemi : semicolon.kind = .semicolon) :
    StmtComplete .statement (keyword :: (w ++ [semicolon])) (.returnStmt keyword o) := by
  intro n c rest hn hr _
  simp only [List.length_cons, List.length_append, List.length_nil] at hn
  obtain ⟨m, rfl⟩ : ∃ m, n = m + 1 := ⟨n - 1, by omega⟩
  have hr₁ : c.rest = keyword :: (w ++ semicolon :: rest) := by simpa using hr
  obtain ⟨o', c₁, heq, hp, ho⟩ := complete_optionalUpTo (n := m)
    (c := { c with rest := w ++ semicolon :: rest }) hw hsemi (by decide) (by decide) .returnEnd
    (by omega) rfl
  refine ⟨.returnStmt keyword o', c₁, ?_, (Cursor.Passes.head hr₁).trans hp, by simp [ho]⟩
  rw [statement, bind_eq (acceptAny_cons hr₁ (by simp [hk]))]
  simp only [hk]
  exact bind_eq heq _

/-- A block is read. -/
theorem complete_block {opening closing : Token} {body : List Stmt}
    (ho : opening.kind = .leftBrace) (hw : StmtComplete .declarations w body)
    (hc : closing.kind = .rightBrace) :
    StmtComplete .statement (opening :: (w ++ [closing])) (.block body) := by
  intro n c rest hn hr _
  simp only [List.length_cons, List.length_append, List.length_nil] at hn
  obtain ⟨m, rfl⟩ : ∃ m, n = m + 1 := ⟨n - 1, by omega⟩
  have hr₁ : c.rest = opening :: (w ++ closing :: rest) := by simpa using hr
  obtain ⟨ss, c₁, heq, hp, hss⟩ := hw.1 (n := m) (c := { c with rest := w ++ closing :: rest })
    (by omega) rfl hc
  refine ⟨.block ss, c₁, ?_, (Cursor.Passes.head hr₁).trans hp, by simp [hss]⟩
  rw [statement, bind_eq (acceptAny_cons hr₁ (by simp [ho]))]
  simp only [ho]
  exact bind_eq heq _

/-- A `while` is read. -/
theorem complete_whileStmt {keyword opening closing : Token} {condition : Expr} {body : Stmt}
    (hk : keyword.kind = .whileWord) (ho : opening.kind = .leftParen)
    (hu : Derives .expression u condition) (hc : closing.kind = .rightParen)
    (hw : StmtComplete .statement w body) :
    StmtComplete .statement (keyword :: opening :: (u ++ closing :: w))
      (.whileStmt condition body) := by
  intro n c rest hn hr hopen
  simp only [List.length_cons, List.length_append] at hn
  obtain ⟨m, rfl⟩ : ∃ m, n = m + 1 := ⟨n - 1, by omega⟩
  have hr₁ : c.rest = keyword :: opening :: (u ++ closing :: (w ++ rest)) := by simpa using hr
  obtain ⟨e, c₁, heq, hp, he⟩ := complete_expressionUpTo (n := m)
    (c := { c with rest := u ++ closing :: (w ++ rest) }) hu hc (by decide) .whileClosing
    (by omega) rfl
  have hr₂ : c₁.rest = w ++ rest := hp.rest_eq (by simp)
  obtain ⟨s, c₂, heq₂, hp₂, hs⟩ := hw (n := m) (by omega) hr₂ hopen
  refine ⟨.whileStmt e s, c₂, ?_, ?_, by simp [he, hs]⟩
  · rw [statement, bind_eq (acceptAny_cons hr₁ (by simp [hk]))]
    simp only [hk]
    rw [bind_eq (expect_cons rfl ho _), bind_eq heq, bind_eq heq₂]
    rfl
  · have hfront : c.Passes [keyword, opening] { c with rest := u ++ closing :: (w ++ rest) } :=
      ⟨hr₁, rfl, rfl⟩
    simpa using hfront.trans (hp.trans hp₂)

/-- An `if` without an `else` is read, where no `else` follows it. -/
theorem complete_ifStmt {keyword opening closing : Token} {condition : Expr} {s : Stmt}
    (hk : keyword.kind = .ifWord) (ho : opening.kind = .leftParen)
    (hu : Derives .expression u condition) (hc : closing.kind = .rightParen)
    (hw : StmtComplete .statement w s) :
    StmtComplete .statement (keyword :: opening :: (u ++ closing :: w))
      (.ifStmt condition s none) := by
  intro n c rest hn hr hopen
  simp only [List.length_cons, List.length_append] at hn
  obtain ⟨m, rfl⟩ : ∃ m, n = m + 1 := ⟨n - 1, by omega⟩
  have hr₁ : c.rest = keyword :: opening :: (u ++ closing :: (w ++ rest)) := by simpa using hr
  have hno : Avoids [.elseWord] rest := hopen rfl
  obtain ⟨e, c₁, heq, hp, he⟩ := complete_expressionUpTo (n := m)
    (c := { c with rest := u ++ closing :: (w ++ rest) }) hu hc (by decide) .ifClosing
    (by omega) rfl
  have hr₂ : c₁.rest = w ++ rest := hp.rest_eq (by simp)
  obtain ⟨s', c₂, heq₂, hp₂, hs⟩ := hw (n := m) (by omega) hr₂ fun _ => hno
  rw [← hp₂.rest_eq hr₂] at hno
  refine ⟨.ifStmt e s' none, c₂, ?_, ?_, by simp [he, hs]⟩
  · rw [statement, bind_eq (acceptAny_cons hr₁ (by simp [hk]))]
    simp only [hk]
    rw [bind_eq (expect_cons rfl ho _), bind_eq heq, bind_eq heq₂, accept,
      bind_eq (acceptAny_none hno)]
    rfl
  · have hfront : c.Passes [keyword, opening] { c with rest := u ++ closing :: (w ++ rest) } :=
      ⟨hr₁, rfl, rfl⟩
    simpa using hfront.trans (hp.trans hp₂)

/-- The first branch is closed, so the `else` behind it is left to this `if`. -/
theorem complete_ifElse {keyword opening closing elseWord : Token} {condition : Expr} {s s' : Stmt}
    (hk : keyword.kind = .ifWord) (ho : opening.kind = .leftParen)
    (hu : Derives .expression u condition) (hc : closing.kind = .rightParen)
    (hv : StmtComplete .statement v s) (hclosed : s.endsOpen = false)
    (he : elseWord.kind = .elseWord) (hw : StmtComplete .statement w s') :
    StmtComplete .statement (keyword :: opening :: (u ++ closing :: (v ++ elseWord :: w)))
      (.ifStmt condition s (some s')) := by
  intro n c rest hn hr hopen
  simp only [List.length_cons, List.length_append] at hn
  obtain ⟨m, rfl⟩ : ∃ m, n = m + 1 := ⟨n - 1, by omega⟩
  have hr₁ : c.rest = keyword :: opening :: (u ++ closing :: (v ++ elseWord :: (w ++ rest))) := by
    simpa using hr
  obtain ⟨e, c₁, heq, hp, hcond⟩ := complete_expressionUpTo (n := m)
    (c := { c with rest := u ++ closing :: (v ++ elseWord :: (w ++ rest)) }) hu hc (by decide)
    .ifClosing (by omega) rfl
  have hr₂ : c₁.rest = v ++ elseWord :: (w ++ rest) := hp.rest_eq (by simp)
  obtain ⟨t, c₂, heq₂, hp₂, ht⟩ := hv (n := m) (by omega) hr₂ (by simp [hclosed])
  have hr₃ := hp₂.rest_eq hr₂
  obtain ⟨t', c₃, heq₃, hp₃, ht'⟩ := hw (n := m) (c := { c₂ with rest := w ++ rest }) (by omega)
    rfl hopen
  refine ⟨.ifStmt e t (some t'), c₃, ?_, ?_, by simp [hcond, ht, ht']⟩
  · rw [statement, bind_eq (acceptAny_cons hr₁ (by simp [hk]))]
    simp only [hk]
    rw [bind_eq (expect_cons rfl ho _), bind_eq heq, bind_eq heq₂, accept,
      bind_eq (acceptAny_cons hr₃ (by simp [he]))]
    exact bind_eq heq₃ _
  · have hfront : c.Passes [keyword, opening]
        { c with rest := u ++ closing :: (v ++ elseWord :: (w ++ rest)) } := ⟨hr₁, rfl, rfl⟩
    simpa using hfront.trans (hp.trans (hp₂.trans ((Cursor.Passes.head hr₃).trans hp₃)))

/-- A `for` is read, with each of its clauses or without. -/
theorem complete_forStmt {keyword opening semicolon closing : Token} {x : List Token}
    {initial : Option Stmt} {condition increment : Option Expr} {body : Stmt}
    (hk : keyword.kind = .forWord) (ho : opening.kind = .leftParen) (hu : ForInitial u initial)
    (hv : Optional v condition) (hsemi : semicolon.kind = .semicolon) (hx : Optional x increment)
    (hc : closing.kind = .rightParen) (hw : StmtComplete .statement w body) :
    StmtComplete .statement
      (keyword :: opening :: (u ++ (v ++ semicolon :: (x ++ closing :: w))))
      (.forStmt initial condition increment body) := by
  intro n c rest hn hr hopen
  simp only [List.length_cons, List.length_append] at hn
  obtain ⟨m, rfl⟩ : ∃ m, n = m + 1 := ⟨n - 1, by omega⟩
  have hr₁ : c.rest = keyword :: opening ::
      (u ++ (v ++ semicolon :: (x ++ closing :: (w ++ rest)))) := by simpa using hr
  obtain ⟨i, c₁, heq, hp, hi⟩ := complete_forInitial (n := m)
    (c := { c with rest := u ++ (v ++ semicolon :: (x ++ closing :: (w ++ rest))) }) hu (by omega) rfl
  have hr₂ : c₁.rest = v ++ semicolon :: (x ++ closing :: (w ++ rest)) := hp.rest_eq rfl
  obtain ⟨o, c₂, heq₂, hp₂, ho₂⟩ := complete_optionalUpTo (n := m) hv hsemi (by decide) (by decide)
    .forConditionEnd (by omega) hr₂
  have hr₃ : c₂.rest = x ++ closing :: (w ++ rest) := hp₂.rest_eq (by simpa using hr₂)
  obtain ⟨o', c₃, heq₃, hp₃, ho₃⟩ := complete_optionalUpTo (n := m) hx hc (by decide) (by decide)
    .forClosing (by omega) hr₃
  have hr₄ : c₃.rest = w ++ rest := hp₃.rest_eq (by simpa using hr₃)
  obtain ⟨s, c₄, heq₄, hp₄, hs⟩ := hw (n := m) (by omega) hr₄ hopen
  refine ⟨.forStmt i o o' s, c₄, ?_, ?_, by simp [hi, ho₂, ho₃, hs]⟩
  · rw [statement, bind_eq (acceptAny_cons hr₁ (by simp [hk]))]
    simp only [hk]
    rw [bind_eq (expect_cons rfl ho _), bind_eq heq, bind_eq heq₂, bind_eq heq₃, bind_eq heq₄]
    rfl
  · have hfront : c.Passes [keyword, opening]
        { c with rest := u ++ (v ++ semicolon :: (x ++ closing :: (w ++ rest))) } :=
      ⟨hr₁, rfl, rfl⟩
    simpa using hfront.trans (hp.trans (hp₂.trans (hp₃.trans hp₄)))

/-! ### Sequences of declarations -/

/-- An empty block is read up to its brace. -/
theorem complete_noDeclaration : StmtComplete .declarations [] [] := by
  constructor
  · intro n c closing rest hn hr hc
    obtain ⟨m, rfl⟩ : ∃ m, n = m + 1 := ⟨n - 1, by omega⟩
    refine ⟨[], { c with rest }, ?_, .head hr, rfl⟩
    rw [block, bind_eq (looksAt_cons hr hc), bind_eq (rfl : atEnd c = .ok c.rest.isEmpty c)]
    simp only [Bool.true_or, if_true]
    rw [bind_eq (expect_cons hr hc _)]
    rfl
  · intro n c hn hr
    obtain ⟨m, rfl⟩ : ∃ m, n = m + 1 := ⟨n - 1, by omega⟩
    refine ⟨[], c, ?_, .nil c, rfl⟩
    rw [program, bind_eq (rfl : atEnd c = .ok c.rest.isEmpty c), hr]
    rfl

/-- No declaration takes up an `else` that stands before it. -/
theorem avoids_else_of_starts (h : StmtRule.declarations.Starts w)
    (hrest : Avoids [.elseWord] rest) : Avoids [.elseWord] (w ++ rest) := by
  rcases h with rfl | h
  · exact hrest
  · exact h.avoids (by decide) rest

/-- A declaration is read before the others. -/
theorem complete_moreDeclarations {s : Stmt} {ss : List Stmt}
    (hstart : StartsIn StmtRule.declaration.starters u) (hu : StmtComplete .declaration u s)
    (hstart' : StmtRule.declarations.Starts w) (hw : StmtComplete .declarations w ss) :
    StmtComplete .declarations (u ++ w) (s :: ss) := by
  have hpos := hstart.length_pos
  constructor
  · intro n c closing rest hn hr hc
    rw [List.length_append] at hn
    obtain ⟨m, rfl⟩ : ∃ m, n = m + 1 := ⟨n - 1, by omega⟩
    rw [List.append_assoc] at hr
    have hno : Avoids [.elseWord] (w ++ closing :: rest) :=
      avoids_else_of_starts hstart' (.cons (by rw [hc]; decide) _)
    obtain ⟨_, c₁, heq, hp, s', rfl, hs⟩ := hu (n := m) (by omega) hr fun _ => hno
    obtain ⟨ss', c₂, heq₂, hp₂, hss⟩ := hw.1 (n := m) (by omega) (hp.rest_eq hr) hc
    refine ⟨s' :: ss', c₂, ?_, by simpa using hp.trans hp₂, by simp [hs, hss]⟩
    rw [block, bind_eq (looksAt_startsIn hstart (by decide) hr),
      bind_eq (rfl : atEnd c = .ok c.rest.isEmpty c), hstart.isEmpty_eq hr]
    simp only [Bool.or_self, Bool.false_eq_true, if_false]
    rw [bind_eq heq, bind_eq heq₂]
    rfl
  · intro n c hn hr
    rw [List.length_append] at hn
    obtain ⟨m, rfl⟩ : ∃ m, n = m + 1 := ⟨n - 1, by omega⟩
    have hno : Avoids [.elseWord] w := by
      simpa using avoids_else_of_starts hstart' (.nil _)
    obtain ⟨_, c₁, heq, hp, s', rfl, hs⟩ := hu (n := m) (by omega) hr fun _ => hno
    obtain ⟨ss', c₂, heq₂, hp₂, hss⟩ := hw.2 (n := m) (by omega) (hp.rest_eq hr)
    refine ⟨s' :: ss', c₂, ?_, hp.trans hp₂, by simp [hs, hss]⟩
    rw [program, bind_eq (rfl : atEnd c = .ok c.rest.isEmpty c), hstart.isEmpty_eq hr]
    simp only [Bool.false_eq_true, if_false]
    rw [bind_eq heq, bind_eq heq₂]
    rfl

/-- **Tokens that form a statement are read, to the tree that they form**, if every `else` belongs
to the nearest `if`. -/
theorem stmtComplete {r : StmtRule} {t : r.Tree} (h : Forms True r w t) : StmtComplete r w t := by
  induction h with
  | classDecl hk hname ho _ hc ih => exact complete_classDecl hk hname ho ih hc
  | funDecl hk _ ih => exact complete_funDecl hk ih
  | varDecl hk hw => exact complete_varDeclaration hk hw
  | ofStatement hw ih => exact complete_ofStatement hw.starts ih
  | routine hname ho hu hc hbo _ hbc ih => exact complete_routine hname ho hu hc hbo ih hbc
  | noRoutine => exact complete_noRoutine
  | moreRoutines hu _ ihu ihw => exact complete_moreRoutines hu.starts ihu ihw
  | exprStmt hw => exact complete_exprStmt hw
  | forStmt hk ho hu hv hsemi hx hc _ ih => exact complete_forStmt hk ho hu hv hsemi hx hc ih
  | ifStmt hk ho hu hc _ ih => exact complete_ifStmt hk ho hu hc ih
  | ifElse hk ho hu hc _ he _ hclosed ihv ihw =>
    exact complete_ifElse hk ho hu hc ihv (hclosed trivial) he ihw
  | printStmt hk hw hsemi => exact complete_printStmt hk hw hsemi
  | returnStmt hk hw hsemi => exact complete_returnStmt hk hw hsemi
  | whileStmt hk ho hu hc _ ih => exact complete_whileStmt hk ho hu hc ih
  | block ho _ hc ih => exact complete_block ho ih hc
  | noDeclaration => exact complete_noDeclaration
  | moreDeclarations hu hw ihu ihw => exact complete_moreDeclarations hu.starts ihu hw.starts ihw

end Parser

end LoxLang
