import Mathlib
import LoxLang.Proofs.Grammar.Soundness
import LoxLang.Proofs.Grammar.StatementCompleteness

/-!
# Proofs/Grammar/Acceptance — the parser accepts the grammar

Soundness and completeness together: `parseExpression` and `parse` accept exactly the tokens that
derive from the grammar, and the tree that they return is the only one, ids apart.

For programs the grammar is ambiguous, and the parser takes the reading in which an `else` belongs
to the nearest `if`. That loses no program: a derivation in which an `else` passes over an open `if`
is rearranged into one in which it does not (`Forms.attach`, `Forms.exists_nearest`).
-/

namespace LoxLang

namespace Grammar

/-! ## The nearest `if` -/

/-- What forms a tree under the stricter reading forms it under the looser one. -/
theorem Forms.mono {nearest nearest' : Prop} (himp : nearest' → nearest) {r : StmtRule}
    {w : List Token} {t : r.Tree} (h : Forms nearest r w t) : Forms nearest' r w t := by
  induction h with
  | classDecl hk hname ho _ hc ih => exact .classDecl hk hname ho ih hc
  | funDecl hk _ ih => exact .funDecl hk ih
  | varDecl hk hw => exact .varDecl hk hw
  | ofStatement _ ih => exact .ofStatement ih
  | routine hname ho hu hc hbo _ hbc ih => exact .routine hname ho hu hc hbo ih hbc
  | noRoutine => exact .noRoutine
  | moreRoutines _ _ ihu ihw => exact .moreRoutines ihu ihw
  | exprStmt hw => exact .exprStmt hw
  | forStmt hk ho hu hv hsemi hx hc _ ih => exact .forStmt hk ho hu hv hsemi hx hc ih
  | ifStmt hk ho hu hc _ ih => exact .ifStmt hk ho hu hc ih
  | ifElse hk ho hu hc _ he _ hclosed ihv ihw =>
    exact .ifElse hk ho hu hc ihv he ihw fun h => hclosed (himp h)
  | printStmt hk hw hsemi => exact .printStmt hk hw hsemi
  | returnStmt hk hw hsemi => exact .returnStmt hk hw hsemi
  | whileStmt hk ho hu hc _ ih => exact .whileStmt hk ho hu hc ih
  | block ho _ hc ih => exact .block ho ih hc
  | noDeclaration => exact .noDeclaration
  | moreDeclarations _ _ ihu ihw => exact .moreDeclarations ihu ihw

/-- What a statement with an open `if` at its end becomes when an `else` follows: the `else` goes to
the innermost open `if`. -/
def Attaches : (r : StmtRule) → List Token → r.Tree → Prop
  | .statement, v, s => s.endsOpen = true → ∀ {elseWord w s'}, elseWord.kind = .elseWord →
      Forms True .statement w s' → ∃ t, Forms True .statement (v ++ elseWord :: w) t
  | _, _, _ => True

/-- **A statement takes the `else` behind it, in the `if` that is nearest.** The induction is on how
the grammar forms the statement. -/
theorem Forms.attach {r : StmtRule} {v : List Token} {t : r.Tree} (h : Forms True r v t) :
    Attaches r v t := by
  induction h with
  | @forStmt _ _ _ _ _ _ _ _ _ _ _ _ hk ho hu hv hsemi hx hc _ ih =>
    intro hopen elseWord w s' he hw
    obtain ⟨t, ht⟩ := ih hopen he hw
    exact ⟨_, by simpa using Forms.forStmt hk ho hu hv hsemi hx hc ht⟩
  | @ifStmt _ _ _ _ _ _ s hk ho hu hc hv ih =>
    intro _ elseWord w s' he hw
    rcases hs : s.endsOpen with _ | _
    · exact ⟨_, by simpa using Forms.ifElse hk ho hu hc hv he hw fun _ => hs⟩
    · obtain ⟨t, ht⟩ := ih hs he hw
      exact ⟨_, by simpa using Forms.ifStmt hk ho hu hc ht⟩
  | ifElse hk ho hu hc hv he' _ hclosed _ ih =>
    intro hopen elseWord w s' he hw
    obtain ⟨t, ht⟩ := ih hopen he hw
    exact ⟨_, by simpa using Forms.ifElse hk ho hu hc hv he' ht hclosed⟩
  | whileStmt hk ho hu hc _ ih =>
    intro hopen elseWord w s' he hw
    obtain ⟨t, ht⟩ := ih hopen he hw
    exact ⟨_, by simpa using Forms.whileStmt hk ho hu hc ht⟩
  | exprStmt hw =>
    obtain ⟨-, -⟩ := hw
    exact nofun
  | printStmt | returnStmt | block => exact nofun
  | _ => trivial

/-- **Every derivation can be rearranged so that each `else` belongs to the nearest `if`.** -/
theorem Forms.exists_nearest {nearest : Prop} {r : StmtRule} {w : List Token} {t : r.Tree}
    (h : Forms nearest r w t) : ∃ t', Forms True r w t' := by
  induction h with
  | classDecl hk hname ho _ hc ih => exact ih.imp' _ fun _ h => .classDecl hk hname ho h hc
  | funDecl hk _ ih => exact ih.imp' _ fun _ h => .funDecl hk h
  | varDecl hk hw => exact ⟨_, .varDecl hk hw⟩
  | ofStatement _ ih => exact ih.imp fun _ h => .ofStatement h
  | routine hname ho hu hc hbo _ hbc ih =>
    exact ih.imp' _ fun _ h => .routine hname ho hu hc hbo h hbc
  | noRoutine => exact ⟨_, .noRoutine⟩
  | moreRoutines _ _ ihu ihw =>
    obtain ⟨r, hr⟩ := ihu
    obtain ⟨rs, hrs⟩ := ihw
    exact ⟨r :: rs, .moreRoutines hr hrs⟩
  | exprStmt hw => exact ⟨_, .exprStmt hw⟩
  | forStmt hk ho hu hv hsemi hx hc _ ih =>
    exact ih.imp' _ fun _ h => .forStmt hk ho hu hv hsemi hx hc h
  | ifStmt hk ho hu hc _ ih => exact ih.imp' _ fun _ h => .ifStmt hk ho hu hc h
  | ifElse hk ho hu hc _ he _ _ ihv ihw =>
    obtain ⟨s, hs⟩ := ihv
    obtain ⟨s', hs'⟩ := ihw
    rcases hopen : s.endsOpen with _ | _
    · exact ⟨_, .ifElse hk ho hu hc hs he hs' fun _ => hopen⟩
    · -- the first branch takes the `else`, and nothing is left for this `if`
      obtain ⟨t, ht⟩ := hs.attach hopen he hs'
      exact ⟨_, .ifStmt hk ho hu hc ht⟩
  | printStmt hk hw hsemi => exact ⟨_, .printStmt hk hw hsemi⟩
  | returnStmt hk hw hsemi => exact ⟨_, .returnStmt hk hw hsemi⟩
  | whileStmt hk ho hu hc _ ih => exact ih.imp' _ fun _ h => .whileStmt hk ho hu hc h
  | block ho _ hc ih => exact ih.imp' _ fun _ h => .block ho h hc
  | noDeclaration => exact ⟨_, .noDeclaration⟩
  | moreDeclarations _ _ ihu ihw =>
    obtain ⟨s, hs⟩ := ihu
    obtain ⟨ss, hss⟩ := ihw
    exact ⟨s :: ss, .moreDeclarations hs hss⟩

end Grammar

open Grammar

/-! ## Programs -/

/-- What the parser returns without a fault is formed by the tokens. -/
theorem Parser.forms_of_parse {tokens : List Token} {nextId : NodeId}
    (h : (parse tokens nextId).faults = []) :
    Forms True .declarations (tokens.takeWhile (·.kind ≠ .eof))
      (Stmt.bareAll (parse tokens nextId).statements) := by
  cases hp : program (Cursor.start tokens nextId).depth (Cursor.start tokens nextId) with
  | ok ss c =>
    simp only [parse, hp] at h ⊢
    exact sound_program hp (by simp [h])
  | error d c =>
    simp [parse, hp] at h

/-- Tokens that form a program are read to it, without a fault. -/
theorem Parser.parse_of_forms {tokens : List Token} {ss : List Stmt}
    (h : Forms True .declarations (tokens.takeWhile (·.kind ≠ .eof)) ss) (nextId : NodeId) :
    (parse tokens nextId).faults = [] ∧ Stmt.bareAll (parse tokens nextId).statements = ss := by
  let c := Cursor.start tokens nextId
  have hdepth : 16 * (tokens.takeWhile (·.kind ≠ .eof)).length + 14 ≤ c.depth := by
    simp only [Cursor.depth, Cursor.start, c]
    omega
  obtain ⟨ss', c', heq, hp, hss⟩ := (stmtComplete h).2 hdepth (rfl : c.rest = _)
  unfold parse
  simp only [heq, c]
  exact ⟨hp.faults, hss⟩

/-- **The parser accepts exactly the grammar**: it reports nothing just when the tokens before the
end form a sequence of declarations, and then its statements are the ones that they form when each
`else` belongs to the nearest `if` that lacks one, ids apart. -/
theorem parse_accepts_grammar (tokens : List Token) (nextId : NodeId) :
    ((parse tokens nextId).faults = [] ↔
      ∃ ss, Forms False .declarations (tokens.takeWhile (·.kind ≠ .eof)) ss) ∧
    ((parse tokens nextId).faults = [] →
      ∀ ss, Forms True .declarations (tokens.takeWhile (·.kind ≠ .eof)) ss ↔
        ss = Stmt.bareAll (parse tokens nextId).statements) := by
  refine ⟨⟨fun h => ⟨_, (Parser.forms_of_parse h).mono nofun⟩, ?_⟩, fun h ss => ⟨fun hss => ?_, ?_⟩⟩
  · rintro ⟨ss, hss⟩
    obtain ⟨ss', hss'⟩ := hss.exists_nearest
    exact (Parser.parse_of_forms hss' nextId).1
  · exact (Parser.parse_of_forms hss nextId).2.symm
  · rintro rfl
    exact Parser.forms_of_parse h

/-- `if (a) if (b) c; else d;` -/
def nestedIf : List Token :=
  [⟨.ifWord, "if", none, 1⟩, ⟨.leftParen, "(", none, 1⟩, ⟨.identifier, "a", none, 1⟩,
    ⟨.rightParen, ")", none, 1⟩, ⟨.ifWord, "if", none, 1⟩, ⟨.leftParen, "(", none, 1⟩,
    ⟨.identifier, "b", none, 1⟩, ⟨.rightParen, ")", none, 1⟩, ⟨.identifier, "c", none, 1⟩,
    ⟨.semicolon, ";", none, 1⟩, ⟨.elseWord, "else", none, 1⟩, ⟨.identifier, "d", none, 1⟩,
    ⟨.semicolon, ";", none, 1⟩]

/-- The `else` belongs to the inner `if`, and to no other. -/
theorem parse_accepts_nestedIf :
    (parse nestedIf 0).faults = [] ∧ Forms True .declarations nestedIf
      [.ifStmt (.var 0 ⟨.identifier, "a", none, 1⟩)
        (.ifStmt (.var 0 ⟨.identifier, "b", none, 1⟩)
          (.exprStmt (.var 0 ⟨.identifier, "c", none, 1⟩))
          (some (.exprStmt (.var 0 ⟨.identifier, "d", none, 1⟩)))) none] := by
  have hfaults : (parse nestedIf 0).faults = [] := by decide +kernel
  exact ⟨hfaults, ((parse_accepts_grammar nestedIf 0).2 hfaults _).mpr (by cbv)⟩

/-! ## Expressions -/

/-- An expression that is read is derived by all its tokens. -/
theorem Parser.derives_of_parseExpression {tokens : List Token} {nextId : NodeId} {e : Expr}
    (h : (parseExpression tokens nextId).1 = .ok e) :
    Derives .expression (tokens.takeWhile (·.kind ≠ .eof)) e.bare := by
  obtain ⟨c', h⟩ := parseExpression_ok.mp h
  obtain ⟨h, hrest, hfaults⟩ := expressionAlone_ok.mp h
  obtain ⟨w, hw, dw⟩ := (exprSound _).expression h (by simp [hfaults])
  rw [hrest, List.append_nil] at hw
  subst hw
  exact dw

/-- A derived expression is read, to the tree of the derivation. -/
theorem Parser.parseExpression_of_derives {tokens : List Token} {t : Expr}
    (h : Derives .expression (tokens.takeWhile (·.kind ≠ .eof)) t) (nextId : NodeId) :
    ∃ e, (parseExpression tokens nextId).1 = .ok e ∧ e.bare = t := by
  let c := Cursor.start tokens nextId
  have hdepth : 16 * (tokens.takeWhile (·.kind ≠ .eof)).length + 11 ≤ c.depth := by
    simp only [Cursor.depth, Cursor.start, c]
    omega
  have hr : c.rest = tokens.takeWhile (·.kind ≠ .eof) ++ [] := (List.append_nil _).symm
  obtain ⟨e, c', heq, hp, he⟩ := complete h hdepth hr (.nil _)
  have hrest : c'.rest = [] := hp.rest_eq hr
  exact ⟨e, parseExpression_ok.mpr ⟨c', expressionAlone_ok.mpr ⟨heq, hrest, hp.faults⟩⟩, he⟩

/-- **An expression is accepted exactly if it derives from the grammar**, and then it is the only
one that does, ids apart. -/
theorem parseExpression_accepts_grammar (tokens : List Token) (nextId : NodeId) :
    ((∃ e, (parseExpression tokens nextId).1 = .ok e) ↔
      ∃ t, Derives .expression (tokens.takeWhile (·.kind ≠ .eof)) t) ∧
    ∀ e, (parseExpression tokens nextId).1 = .ok e →
      ∀ t, Derives .expression (tokens.takeWhile (·.kind ≠ .eof)) t ↔ t = e.bare := by
  refine ⟨⟨?_, ?_⟩, fun e he t => ⟨fun ht => ?_, ?_⟩⟩
  · rintro ⟨e, he⟩
    exact ⟨e.bare, Parser.derives_of_parseExpression he⟩
  · rintro ⟨t, ht⟩
    obtain ⟨e, he, -⟩ := Parser.parseExpression_of_derives ht nextId
    exact ⟨e, he⟩
  · obtain ⟨e', he', rfl⟩ := Parser.parseExpression_of_derives ht nextId
    rw [he] at he'
    cases he'
    rfl
  · rintro rfl
    exact Parser.derives_of_parseExpression he

/-- `a.b = c or d and e` -/
def assignedDisjunction : List Token :=
  [⟨.identifier, "a", none, 1⟩, ⟨.dot, ".", none, 1⟩, ⟨.identifier, "b", none, 1⟩,
    ⟨.equal, "=", none, 1⟩, ⟨.identifier, "c", none, 1⟩, ⟨.orWord, "or", none, 1⟩,
    ⟨.identifier, "d", none, 1⟩, ⟨.andWord, "and", none, 1⟩, ⟨.identifier, "e", none, 1⟩]

/-- A property is assigned a disjunction, whose right operand is a conjunction. -/
theorem parseExpression_accepts_assignedDisjunction :
    ∃ e, (parseExpression assignedDisjunction 0).1 = .ok e ∧
      Derives .expression assignedDisjunction
        (.set (.var 0 ⟨.identifier, "a", none, 1⟩) ⟨.identifier, "b", none, 1⟩
          (.logical (.var 0 ⟨.identifier, "c", none, 1⟩) ⟨.orWord, "or", none, 1⟩
            (.logical (.var 0 ⟨.identifier, "d", none, 1⟩) ⟨.andWord, "and", none, 1⟩
              (.var 0 ⟨.identifier, "e", none, 1⟩)))) := by
  let e : Expr :=
    .set (.var 0 ⟨.identifier, "a", none, 1⟩) ⟨.identifier, "b", none, 1⟩
      (.logical (.var 1 ⟨.identifier, "c", none, 1⟩) ⟨.orWord, "or", none, 1⟩
        (.logical (.var 2 ⟨.identifier, "d", none, 1⟩) ⟨.andWord, "and", none, 1⟩
          (.var 3 ⟨.identifier, "e", none, 1⟩)))
  have he : (parseExpression assignedDisjunction 0).1 = .ok e := by cbv
  exact ⟨e, he, ((parseExpression_accepts_grammar assignedDisjunction 0).2 e he _).mpr rfl⟩

end LoxLang
