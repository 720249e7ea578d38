import Mathlib
import LoxLang.Proofs.Grammar.Depth
import LoxLang.Proofs.Grammar.Lookahead
import LoxLang.Proofs.Lexis.Joining
import LoxLang.Proofs.Run.Frames
import LoxLang.Proofs.Scope.TopLevel

/-!
# Proofs/Run/Printing — a value that is evaluated and a value that is printed

A session can evaluate an expression by itself, or run a program that prints its value. The two
ways read the expression by different rules, and only the program is resolved. But reading an
expression does not depend on what stands behind it (`expression_of_parseExpression`), nothing at
the top of a program has a distance (`resolve_printStmt`), and both give out the same node ids. So
they come to the same machine, apart from the line that is printed.

The main result is `Session.run_printing`.
-/

namespace LoxLang

open Lexis

/-! ## Tokens -/

/-- The program that prints the value of an expression. The line break ends a comment behind the
expression. -/
def printing (source : String) : String :=
  "print " ++ source ++ "\n;"

/-- The word in front is scanned as a token of its own, and does not touch what follows. -/
theorem scan_print (source : String) :
    scan ("print " ++ source) = .ok ⟨.printWord, "print", none, 1⟩ :: scan source := by
  have hpieces : pieces ("print " ++ source).toList =
      .lexeme .printWord none "print".toList :: .blank ' ' :: pieces source.toList := by
    rw [String.toList_append]
    rfl
  rw [scan, hpieces]
  rfl

/-- The tokens of the printing program: those of the expression between `print` and a semicolon. -/
theorem scan_printing {source : String} (h : faultsOf (scan source) = []) :
    ∃ line, scan (printing source) = .ok ⟨.printWord, "print", none, 1⟩ ::
      ((scan source).dropLast ++
        [.ok ⟨.semicolon, ";", none, line⟩, .ok (endToken line)]) := by
  have hprint : faultsOf (scan ("print " ++ source)) = [] := by
    rw [scan_print]
    exact h
  have hsplit : printing source = "print " ++ source ++ "\n" ++ ";" := by
    rw [String.append_assoc]
    rfl
  obtain ⟨line, hlast⟩ := scan_eq_dropLast source
  refine ⟨1 + (lineBreaks ("print " ++ source) + 1), ?_⟩
  rw [hsplit, scan_join hprint, scan_blankLines, scan_print, List.dropLast_cons_of_ne_nil,
    List.cons_append]
  · rfl
  · rw [hlast]
    simp

/-! ## Reading -/

/-- **An expression that is read by itself is read in the same way before other tokens**, with the
same ids, if the first of them is not one that expressions look for. -/
theorem expression_of_parseExpression {tokens : List Token} {nextId : NodeId} {e : Expr}
    (h : (parseExpression tokens nextId).1 = .ok e) {c : Cursor} {rest : List Token}
    (hc : c.rest = tokens.takeWhile (·.kind ≠ .eof) ++ rest) (hrest : Avoids Parser.exprKinds rest)
    (hfaults : c.faults = []) (hnextId : c.nextId = nextId) {n : Nat}
    (hn : (Cursor.start tokens nextId).depth ≤ n) :
    ∃ c₁, Parser.expression n c = .ok e c₁ ∧ c₁.rest = rest ∧ c₁.faults = [] ∧
      c₁.nextId = (parseExpression tokens nextId).2 := by
  let F := Fork.withRest (tokens.takeWhile (·.kind ≠ .eof)) rest
  have hF : F.Unseen Parser.exprKinds := ⟨hrest, .nil _, fun heof => absurd heof (by decide)⟩
  have hbeside : c.Beside F (.start tokens nextId) :=
    ⟨⟨_, List.suffix_refl _, hc, (List.append_nil _).symm⟩, trivial,
      ⟨[], rfl, by rw [hfaults]; exact .nil⟩, hnextId⟩
  obtain ⟨c', halone⟩ := Parser.parseExpression_ok.mp h
  obtain ⟨hread, hend, hclean⟩ := Parser.expressionAlone_ok.mp halone
  have hids : (parseExpression tokens nextId).2 = c'.nextId := by
    simp only [parseExpression, halone]
  have hout := (Parser.exprScript (List.Subset.refl _) n).expression.beside hF hbeside
  rw [← ((Cursor.Ample.start tokens nextId).expression hn).1, hread] at hout
  generalize Parser.expression n c = out at hout
  cases hout with
  | @ok _ _ c₁ _ he h₁ =>
    obtain ⟨w, -, hl, hr⟩ := h₁.rest
    obtain ⟨ds, hds, hsame⟩ := h₁.faults
    -- Nothing is left of the expression, and nothing was noted in it.
    have hw : w = [] := (List.append_eq_nil_iff.mp (hr.symm.trans hend)).1
    have hnone : ds = [] := hds.symm.trans hclean
    subst hw hnone
    exact ⟨c₁, he ▸ rfl, hl, List.forall₂_nil_right_iff.mp hsame, h₁.nextId.trans hids.symm⟩

/-- An expression that is read by itself is read as what `print` prints. -/
theorem parse_printStmt {tokens : List Token} {nextId : NodeId} {e : Expr}
    (h : (parseExpression tokens nextId).1 = .ok e) {keyword semicolon : Token} {rest : List Token}
    (hkeyword : keyword.kind = .printWord) (hsemicolon : semicolon.kind = .semicolon)
    (hrest : rest.takeWhile (·.kind ≠ .eof) = tokens.takeWhile (·.kind ≠ .eof) ++ [semicolon]) :
    parse (keyword :: rest) nextId = ⟨[.printStmt e], [], (parseExpression tokens nextId).2⟩ := by
  let c := Cursor.start (keyword :: rest) nextId
  let ahead := tokens.takeWhile (·.kind ≠ .eof)
  have hc : c.rest = keyword :: (ahead ++ [semicolon]) := by
    change (keyword :: rest).takeWhile (·.kind ≠ .eof) = _
    rw [List.takeWhile_cons_of_pos (by simp [hkeyword]), hrest]
  obtain ⟨n, hn⟩ : ∃ n, c.depth = n + 3 := ⟨c.depth - 3, by unfold Cursor.depth; omega⟩
  have hdepth : (Cursor.start tokens nextId).depth ≤ n := by
    unfold Cursor.depth at hn ⊢
    rw [hc, List.length_cons, List.length_append] at hn
    change 32 * (ahead.length + 1) ≤ n
    omega
  obtain ⟨c₁, h₁, hsemi, hfaults, hnextId⟩ := expression_of_parseExpression h
    (c := { c with rest := ahead ++ [semicolon] }) rfl (.cons (by rw [hsemicolon]; decide) _) rfl rfl
    hdepth
  let c₂ : Cursor := { c₁ with rest := [] }
  have hend : Parser.expect .semicolon .printEnd c₁ = .ok semicolon c₂ :=
    Parser.expect_cons hsemi hsemicolon _
  have hdeclaration : Parser.declaration (n + 2) c = .ok (some (.printStmt e)) c₂ := by
    refine Parser.recovering_eq ?_
    have hno : Avoids [.classWord, .funWord, .varWord] c.rest := by
      rw [hc]
      exact .cons (by rw [hkeyword]; decide) _
    rw [Parser.bind_eq (Parser.acceptAny_none hno)]
    dsimp only
    rw [Parser.statement, Parser.bind_eq (Parser.acceptAny_cons hc (by simp [hkeyword]))]
    simp only [hkeyword]
    unfold Parser.expressionUpTo
    rw [bind_assoc, Parser.bind_eq h₁, bind_assoc, Parser.bind_eq hend]
    rfl
  have hprogram := Parser.program_cons (by simp [hc]) hdeclaration (Parser.program_nil rfl)
  rw [parse_of_program (Nat.le_of_eq hn) hprogram, ← hnextId, ← hfaults]
  rfl

/-! ## Running -/

/-- What a sink takes it accepts as a whole. -/
theorem Sink.accepted_of_takes {sink : Sink} {bytes : ByteArray} (h : sink.takes bytes = true) :
    sink.accepted bytes = bytes := by
  obtain ⟨written, _ | capacity⟩ := sink
  · rfl
  · have hsize : bytes.size ≤ capacity - written.size := by
      simp only [takes, decide_eq_true_eq] at h
      omega
    simp only [accepted]
    rw [← Nat.max_eq_left hsize, ByteArray.extract_zero_max_size]

section

variable {host : Host} {fuel : Nat} {e : Expr} {m m' : Machine}

/-- A value that is printed is written to the sink with a line break. -/
theorem execute_printStmt_ok {v : Value} (h : evaluate host fuel e m = .ok v m')
    (htakes : m'.sink.takes (v.text m'.store ++ "\n").toUTF8 = true) :
    execute host (fuel + 1) (.printStmt e) m =
      .ok .normal { m' with sink := m'.sink.write (v.text m'.store ++ "\n").toUTF8 } := by
  change EStateM.bind (evaluate host fuel e) _ m = _
  simp only [EStateM.bind, h]
  change EStateM.bind (Eval.printLine (v.text m'.store)) _ m' = _
  simp only [EStateM.bind, Eval.printLine, htakes, if_true]
  rfl

/-- An expression that stops is not printed. -/
theorem execute_printStmt_error {stop : Stop} (h : evaluate host fuel e m = .error stop m') :
    execute host (fuel + 1) (.printStmt e) m = .error stop m' := by
  change EStateM.bind (evaluate host fuel e) _ m = _
  simp only [EStateM.bind, h]

end

namespace Session

variable {s : Session} {source : String} {e : Expr}

/-- The printing program is read without a fault. It has the expression as its only statement, with
the ids that the expression has by itself. -/
theorem read_printing (hscan : faultsOf (scan source) = [])
    (hread : (parseExpression (tokensOf (scan source)) s.machine.nextId).1 = .ok e) :
    s.found (printing source) = [] ∧ s.read (printing source) =
      ⟨[.printStmt e], [], (parseExpression (tokensOf (scan source)) s.machine.nextId).2⟩ := by
  obtain ⟨line, hprinting⟩ := scan_printing hscan
  have hfaults : faultsOf (scan (printing source)) = [] := by
    rw [hprinting, faultsOf, List.filterMap_cons, List.filterMap_append]
    exact List.append_eq_nil_iff.mpr ⟨faultsOf_dropLast hscan, rfl⟩
  have htokens : tokensOf (scan (printing source)) = ⟨.printWord, "print", none, 1⟩ ::
      (innerTokens source ++ [⟨.semicolon, ";", none, line⟩, endToken line]) := by
    rw [hprinting, tokensOf, List.filterMap_cons, List.filterMap_append]
    rfl
  have hparse : s.read (printing source) =
      ⟨[.printStmt e], [], (parseExpression (tokensOf (scan source)) s.machine.nextId).2⟩ := by
    rw [read, htokens]
    refine parse_printStmt hread rfl (rfl : Token.kind ⟨.semicolon, ";", none, line⟩ = _) ?_
    rw [takeWhile_innerTokens, takeWhile_tokensOf_scan]
    rfl
  refine ⟨?_, hparse⟩
  rw [found, hfaults, hparse]
  rfl

/-- The program that prints an expression runs that statement on the machine on which the
expression is evaluated. -/
theorem run_printing_eq (host : Host) (fuel : Nat) (hscan : faultsOf (scan source) = [])
    (hthis : ∀ t ∈ tokensOf (scan source), t.kind ≠ .thisWord)
    (hread : (parseExpression (tokensOf (scan source)) s.machine.nextId).1 = .ok e) :
    let m := { s.machine with
      nextId := (parseExpression (tokensOf (scan source)) s.machine.nextId).2 }
    s.run host fuel (printing source) =
      match executeProgram host fuel [.printStmt e] m with
      | .ok _ m => (⟨some .ok, []⟩, { s with machine := m })
      | .error stop m => s.stopped [] stop m := by
  intro m
  obtain ⟨hfound, hparse⟩ := read_printing hscan hread
  have hwords : e.thisWords = [] := by
    rw [thisWords_of_parseExpression hread, List.filter_eq_nil_iff]
    intro t ht
    simpa using hthis t ((List.takeWhile_subset _) ht)
  have hresolve : resolve (s.read (printing source)).statements = ⟨[], []⟩ := by
    rw [hparse, resolve_printStmt, hwords]
    rfl
  have hexecutes : s.Executes (printing source) := ⟨.inl hfound, by rw [hresolve]⟩
  have hprepared : s.prepared (printing source) = m := by
    rw [prepared, hresolve, hparse]
    rfl
  rw [run_of_executes host fuel hexecutes, hfound, hprepared, hparse]
  rfl

/-- An evaluation gives the value of the expression, and leaves the machine that it came to. -/
theorem evaluate_eq (host : Host) (fuel : Nat) (hscan : faultsOf (scan source) = [])
    (hread : (parseExpression (tokensOf (scan source)) s.machine.nextId).1 = .ok e) :
    let m := { s.machine with
      nextId := (parseExpression (tokensOf (scan source)) s.machine.nextId).2 }
    s.evaluate host fuel source =
      match LoxLang.evaluate host fuel e m with
      | .ok v m => (some v, ⟨some .ok, []⟩, { s with machine := m })
      | .error stop m => (none, s.stopped [] stop m) := by
  intro m
  unfold evaluate
  simp only [hscan, hread]
  rfl

/-- **Printing an expression is evaluating it and printing the value.** If the evaluation gives a
value and the sink takes its line, then the printing program ends well, with the line written behind
the output of the evaluation and the machine otherwise the same. If the evaluation gives no value,
then the program comes to the same fault with the same output, and ends at the top. -/
theorem run_printing (host : Host) (fuel : Nat) (s : Session) (source : String)
    (hscan : faultsOf (scan source) = [])
    (hthis : ∀ t ∈ tokensOf (scan source), t.kind ≠ .thisWord)
    (hread : ∃ e, (parseExpression (tokensOf (scan source)) s.machine.nextId).1 = .ok e) :
    let evaluated := s.evaluate host fuel source
    let after := evaluated.2.2
    let ran := s.run host (fuel + 1) (printing source)
    (∀ v, evaluated.1 = some v →
      let line := (v.text after.machine.store ++ "\n").toUTF8
      after.machine.sink.takes line = true →
        ran.1 = ⟨some .ok, []⟩ ∧ ran.2.output = after.output ++ line ∧
          ran.2 = { after with
            machine := { after.machine with sink := after.machine.sink.write line } }) ∧
    (evaluated.1 = none →
      (evaluated.2.1 = ⟨none, []⟩ ∨ ∃ d, evaluated.2.1 = ⟨some .runtimeError, [d]⟩) ∧
        ran.1 = evaluated.2.1 ∧ ran.2.output = after.output ∧
        ran.2 = { after with
          machine := { after.machine with scope := after.machine.globals } }) := by
  obtain ⟨e, hread⟩ := hread
  rw [evaluate_eq host fuel hscan hread, run_printing_eq host (fuel + 1) hscan hthis hread,
    executeProgram_cons]
  generalize { s.machine with
    nextId := (parseExpression (tokensOf (scan source)) s.machine.nextId).2 } = m
  cases hout : LoxLang.evaluate host fuel e m with
  | ok v m' =>
    refine ⟨fun v' hv htakes => ?_, nofun⟩
    cases hv
    rw [execute_printStmt_ok hout htakes]
    refine ⟨rfl, ?_, rfl⟩
    exact congrArg (m'.sink.written ++ ·) (Sink.accepted_of_takes htakes)
  | error stop m' =>
    refine ⟨nofun, fun _ => ?_⟩
    rw [execute_printStmt_error hout]
    cases stop with
    | fault d => exact ⟨.inr ⟨d, rfl⟩, rfl, rfl, rfl⟩
    | outOfFuel => exact ⟨.inl rfl, rfl, rfl, rfl⟩

/-- A call that prints, with a comment behind it, and a call over two lines that stops with a
fault. -/
theorem run_printing_call :
    let host := Library.host fun _ => 0
    let s := ((Session.start false none).run host 30 "fun f(x) { print x; return x + x; }").2
    let call := "f(\"a\") // twice"
    let faulty := "f\n(nil)"
    (∃ v, (s.evaluate host 30 call).1 = some v ∧
      v.text (s.evaluate host 30 call).2.2.machine.store = "aa") ∧
      (s.run host 31 (printing call)).1 = ⟨some .ok, []⟩ ∧
      (s.run host 31 (printing call)).2.output =
        (s.evaluate host 30 call).2.2.output ++ ("aa" ++ "\n").toUTF8 ∧
      (s.evaluate host 30 faulty).1 = none ∧
      (s.run host 31 (printing faulty)).1 = (s.evaluate host 30 faulty).2.1 ∧
      (s.run host 31 (printing faulty)).2.output = (s.evaluate host 30 faulty).2.2.output := by
  intro host s call faulty
  have htext : (s.evaluate host 30 call).1.map
      (·.text (s.evaluate host 30 call).2.2.machine.store) = some "aa" := by decide +kernel
  have htakes : (s.evaluate host 30 call).2.2.machine.sink.takes ("aa" ++ "\n").toUTF8 = true := by
    decide +kernel
  have hnone : (s.evaluate host 30 faulty).1.isNone = true := by decide +kernel
  have hthis : ∀ t ∈ tokensOf (scan call), t.kind ≠ .thisWord := by decide +kernel
  have hthis' : ∀ t ∈ tokensOf (scan faulty), t.kind ≠ .thisWord := by decide +kernel
  have hread : (s.expression? call).isSome = true := by decide +kernel
  have hread' : (s.expression? faulty).isSome = true := by decide +kernel
  -- nothing is evaluated from here on
  clear_value faulty call s host
  obtain ⟨v, hvalue, hv⟩ := Option.map_eq_some_iff.mp htext
  have hnone := Option.isNone_iff_eq_none.mp hnone
  obtain ⟨e, he⟩ := Option.isSome_iff_exists.mp hread
  obtain ⟨e', he'⟩ := Option.isSome_iff_exists.mp hread'
  obtain ⟨hscan, hparse⟩ := expression?_eq_some.mp he
  obtain ⟨hscan', hparse'⟩ := expression?_eq_some.mp he'
  obtain ⟨hran, -⟩ := run_printing host 30 s call hscan hthis ⟨e, hparse⟩
  obtain ⟨-, hstopped⟩ := run_printing host 30 s faulty hscan' hthis' ⟨e', hparse'⟩
  obtain ⟨hreport, houtput, -⟩ := hran v hvalue (by rw [hv]; exact htakes)
  obtain ⟨-, hreport', houtput', -⟩ := hstopped hnone
  rw [hv] at houtput
  exact ⟨⟨v, hvalue, hv⟩, hreport, houtput, hnone, hreport', houtput'⟩

end Session

end LoxLang
