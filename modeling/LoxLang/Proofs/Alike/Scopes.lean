import Mathlib
import LoxLang.Proofs.Alike.Reading

/-!
# Proofs/Alike/Scopes — trees that are alike have the same scopes

The walk over the scopes goes by names, and not by node ids or lines. Over trees that are alike two
walks keep step (`Scope.KeepStep`): from the same open scopes they come to the same open scopes, and
the faults that they note on the way are alike. What was found or noted before has no influence, so
a program is resolved without faults if its parts are (`resolve_append`).
-/

namespace LoxLang.Scope

/-- From the same open scopes, the stretches of two walks come to the same open scopes and note
faults that are alike. -/
def KeepStep (lines : Lines) (x y : Walker Unit) : Prop :=
  ∀ ⦃w w' : Walk⦄, w.scopes = w'.scopes → (w.after x).scopes = (w'.after y).scopes ∧
    ∃ new new', (w.after x).faults = w.faults ++ new ∧ (w'.after y).faults = w'.faults ++ new' ∧
      List.Forall₂ (Diagnostic.Alike lines) new new'

/-- What the innermost scope of a walk says about a name. -/
def Walk.peek (w : Walk) (name : String) : Option Mark :=
  w.scopes.head?.bind (·[name]?)

/-- Looking at the innermost scope leaves the walk as it is. -/
theorem run_innermost? (name : Token) (w : Walk) :
    (innermost? name).run w = (w.peek name.lexeme, w) := by
  obtain ⟨scopes, found, faults⟩ := w
  cases scopes <;> rfl

namespace KeepStep

variable {lines : Lines} {x x' y y' : Walker Unit} {t t' : Token}

/-- Stretches that note nothing. -/
theorem of_scopes (h : ∀ ⦃w w' : Walk⦄, w.scopes = w'.scopes →
    (w.after x).scopes = (w'.after y).scopes ∧ (w.after x).faults = w.faults ∧
      (w'.after y).faults = w'.faults) : KeepStep lines x y := by
  intro w w' hw
  obtain ⟨hscopes, hfaults, hfaults'⟩ := h hw
  exact ⟨hscopes, [], [], by rw [hfaults, List.append_nil], by rw [hfaults', List.append_nil], .nil⟩

theorem pure : KeepStep lines (Pure.pure ()) (Pure.pure ()) :=
  of_scopes fun _ _ hw => ⟨hw, rfl, rfl⟩

/-- Steps one behind the other. -/
theorem bind (hx : KeepStep lines x y) (hx' : KeepStep lines x' y') :
    KeepStep lines (x >>= fun _ => x') (y >>= fun _ => y') := by
  intro w w' hw
  obtain ⟨hscopes, new₁, new₁', hnew₁, hnew₁', halike₁⟩ := hx hw
  obtain ⟨hscopes', new₂, new₂', hnew₂, hnew₂', halike₂⟩ := hx' hscopes
  refine ⟨hscopes', new₁ ++ new₂, new₁' ++ new₂', hnew₂.trans ?_, hnew₂'.trans ?_,
    List.rel_append halike₁ halike₂⟩
  · rw [hnew₁, List.append_assoc]
  · rw [hnew₁', List.append_assoc]

theorem note (ht : t.Alike lines t') (fault : ScopeFault) :
    KeepStep lines (note t fault) (note t' fault) :=
  fun _ _ hw => ⟨hw, [.resolve t fault], [.resolve t' fault], rfl, rfl,
    .cons (.resolve ht fault) .nil⟩

/-- The mark of a name is set under its text. -/
theorem mark (ht : t.Alike lines t') (m : Mark) : KeepStep lines (mark t m) (mark t' m) := by
  refine of_scopes ?_
  rintro ⟨scopes, found, faults⟩ ⟨scopes', found', faults'⟩ hw
  obtain rfl : scopes = scopes' := hw
  cases scopes with
  | nil => exact ⟨rfl, rfl, rfl⟩
  | cons scope scopes =>
    refine ⟨?_, rfl, rfl⟩
    change scope.insert t.lexeme m :: scopes = scope.insert t'.lexeme m :: scopes
    rw [ht.lexeme]

/-- A name is found at the same distance in both walks; its id does not matter. -/
theorem locate (id id' : NodeId) (ht : t.Alike lines t') :
    KeepStep lines (locate id t) (locate id' t') := by
  refine of_scopes fun w w' hw => ?_
  rw [after_locate, after_locate, ht.lexeme, ← hw]
  cases distance? t'.lexeme w.scopes with
  | none => exact ⟨hw, rfl, rfl⟩
  | some d => exact ⟨rfl, rfl, rfl⟩

/-- A stretch that begins with a check. -/
theorem checked {c : Prop} [Decidable c] (ht : t.Alike lines t') (fault : ScopeFault)
    (hx : KeepStep lines x y) :
    KeepStep lines
      (do
        if c then Scope.note t fault
        x)
      (do
        if c then Scope.note t' fault
        y) := by
  by_cases hc : c
  · rw [if_pos hc, if_pos hc]
    exact (note ht fault).bind hx
  · rw [if_neg hc, if_neg hc]
    exact hx

/-- A stretch that begins with a check of the innermost scope. -/
theorem guarded (test : Option Mark → Prop) [DecidablePred test] (ht : t.Alike lines t')
    (fault : ScopeFault) (hx : KeepStep lines x y) :
    KeepStep lines
      (do
        if test (← innermost? t) then Scope.note t fault
        x)
      (do
        if test (← innermost? t') then Scope.note t' fault
        y) := by
  intro w w' hw
  have hpeek : w.peek t.lexeme = w'.peek t'.lexeme := by
    rw [Walk.peek, Walk.peek, hw, ht.lexeme]
  have hchecked := checked (c := test (w.peek t.lexeme)) ht fault hx hw
  simp only [Walk.after, StateT.run_bind, run_innermost?] at hchecked ⊢
  rw [← hpeek]
  exact hchecked

/-- A name that is declared twice is a fault in both walks. -/
theorem declare (ht : t.Alike lines t') : KeepStep lines (declare t) (declare t') :=
  guarded (fun o => o.isSome) ht .alreadyDeclared (mark ht .declared)

theorem define (ht : t.Alike lines t') : KeepStep lines (define t) (define t') :=
  mark ht .defined

/-- A walk inside of a new scope. -/
theorem within (names : Names) (hx : KeepStep lines x y) :
    KeepStep lines (within names x) (within names y) := by
  intro w w' hw
  have hinner : (Walk.mk (names :: w.scopes) w.found w.faults).scopes =
      (Walk.mk (names :: w'.scopes) w'.found w'.faults).scopes := congrArg (names :: ·) hw
  obtain ⟨hscopes, hfaults⟩ := hx hinner
  exact ⟨congrArg List.tail hscopes, hfaults⟩

end KeepStep

variable {lines : Lines} {any : Ids}

mutual

/-- The walk over expressions that are alike finds the same faults. -/
theorem expr_keepStep (ctx : Context) : ∀ {e e' : Expr}, e.Alike lines any e' →
    KeepStep lines (expr ctx e) (expr ctx e')
  | _, _, .constant _ => .pure
  | _, _, .grouping h => (expr_keepStep ctx h :)
  | _, _, .unary _ h => (expr_keepStep ctx h :)
  | _, _, .binary ha _ hb => (expr_keepStep ctx ha).bind (expr_keepStep ctx hb)
  | _, _, .logical ha _ hb => (expr_keepStep ctx ha).bind (expr_keepStep ctx hb)
  | _, _, .conditional ha hb hc =>
    (expr_keepStep ctx ha).bind ((expr_keepStep ctx hb).bind (expr_keepStep ctx hc))
  | _, _, .var _ ht => .guarded (· = some .declared) ht .ownInitializer (.locate _ _ ht)
  | _, _, .assign _ ht h => (expr_keepStep ctx h).bind (.locate _ _ ht)
  | _, _, .call hf _ hes => (expr_keepStep ctx hf).bind (exprs_keepStep ctx hes)
  | _, _, .get h _ => (expr_keepStep ctx h :)
  | _, _, .set h _ hv => (expr_keepStep ctx h).bind (expr_keepStep ctx hv)
  | _, _, .this _ ht => by
    simp only [expr]
    split
    · exact .locate _ _ ht
    · exact .note ht .thisOutsideClass

theorem exprs_keepStep (ctx : Context) : ∀ {es es' : List Expr}, Expr.AllAlike lines any es es' →
    KeepStep lines (exprs ctx es) (exprs ctx es')
  | _, _, .nil => .pure
  | _, _, .cons h hes => (expr_keepStep ctx h).bind (exprs_keepStep ctx hes)

end

/-- An expression that may be left out. -/
theorem optional_keepStep (ctx : Context) {e e' : Option Expr}
    (h : Expr.OptionAlike lines any e e') : KeepStep lines (optional ctx e) (optional ctx e') := by
  cases h with
  | none => exact .pure
  | some h => exact expr_keepStep ctx h

/-- Parameters that are alike are declared one by one. -/
theorem parameters_keepStep {ps ps' : List Token} (h : List.Forall₂ (Token.Alike lines) ps ps') :
    KeepStep lines (parameters ps) (parameters ps') := by
  induction h with
  | nil => exact .pure
  | cons ht _ ih => exact (KeepStep.declare ht).bind ((KeepStep.define ht).bind ih)

theorem isSome_eq {e e' : Option Expr} (h : Expr.OptionAlike lines any e e') :
    e.isSome = e'.isSome := by
  cases h <;> rfl

/-- A method is an initializer by its name, not by its line. -/
theorem methodKind_eq {r r' : Routine} (h : r.Alike lines any r') :
    methodKind r = methodKind r' := by
  rw [methodKind, methodKind, h.name.lexeme]

mutual

/-- **The walk over statements that are alike finds the same faults**, and leaves the same scopes.
-/
theorem stmt_keepStep : ∀ {ctx : Context} {s s' : Stmt}, s.Alike lines any s' →
    KeepStep lines (stmt ctx s) (stmt ctx s')
  | ctx, _, _, .exprStmt h => expr_keepStep ctx h
  | ctx, _, _, .printStmt h => expr_keepStep ctx h
  | ctx, _, _, .varDecl ht h =>
    (KeepStep.declare ht).bind ((optional_keepStep ctx h).bind (.define ht))
  | _, _, _, .block h => (stmts_keepStep h).within ∅
  | ctx, _, _, .ifStmt h hs ho =>
    (expr_keepStep ctx h).bind ((stmt_keepStep hs).bind (optionalStmt_keepStep ho))
  | ctx, _, _, .whileStmt h hs => (expr_keepStep ctx h).bind (stmt_keepStep hs)
  | ctx, _, _, .forStmt ho ha hb hs =>
    ((optionalStmt_keepStep ho).bind ((optional_keepStep ctx ha).bind
      ((optional_keepStep ctx hb).bind (stmt_keepStep hs)))).within ∅
  | ctx, _, _, .returnStmt ht h => by
    simp only [stmt, isSome_eq h]
    exact ((optional_keepStep ctx h).checked ht .returnFromInitializer).checked ht .returnAtTopLevel
  | _, _, _, .funDecl h =>
    (KeepStep.declare h.name).bind ((KeepStep.define h.name).bind (routine_keepStep h))
  | _, _, _, .classDecl ht h =>
    (KeepStep.declare ht).bind ((KeepStep.define ht).bind ((methods_keepStep h).within _))

/-- The walk over programs that are alike finds the same faults. -/
theorem stmts_keepStep : ∀ {ctx : Context} {ss ss' : List Stmt}, Stmt.AllAlike lines any ss ss' →
    KeepStep lines (stmts ctx ss) (stmts ctx ss')
  | _, _, _, .nil => .pure
  | _, _, _, .cons h hss => (stmt_keepStep h).bind (stmts_keepStep hss)

theorem optionalStmt_keepStep : ∀ {ctx : Context} {o o' : Option Stmt},
    Stmt.OptionAlike lines any o o' → KeepStep lines (optionalStmt ctx o) (optionalStmt ctx o')
  | _, _, _, .none => .pure
  | _, _, _, .some h => stmt_keepStep h

theorem routine_keepStep : ∀ {ctx : Context} {kind : RoutineKind} {r r' : Routine},
    r.Alike lines any r' → KeepStep lines (routine ctx kind r) (routine ctx kind r')
  | _, _, _, _, .mk _ hps hss => ((parameters_keepStep hps).bind (stmts_keepStep hss)).within ∅

theorem methods_keepStep : ∀ {ctx : Context} {rs rs' : List Routine},
    Routine.AllAlike lines any rs rs' → KeepStep lines (methods ctx rs) (methods ctx rs')
  | _, _, _, .nil => .pure
  | _, _, _, .cons h hrs => by
    simp only [methods, methodKind_eq h]
    exact (routine_keepStep h).bind (methods_keepStep hrs)

end

/-- The walk over two programs one after the other is the walk over both. -/
theorem stmts_append (ctx : Context) (ts : List Stmt) : ∀ ss : List Stmt,
    stmts ctx (ss ++ ts) = stmts ctx ss >>= fun _ => stmts ctx ts
  | [] => rfl
  | s :: ss => by
    simp only [List.cons_append, stmts, stmts_append ctx ts ss]
    rfl

/-- The walk over a whole program. -/
def programWalk (ss : List Stmt) : Walk :=
  Walk.after ⟨[], [], []⟩ (stmts ⟨none, false⟩ ss)

theorem afterAll_nil : ∀ ss : List Stmt, Stmt.afterAll [] ss = []
  | [] => rfl
  | s :: ss => by rw [Stmt.afterAll, s.after_nil, afterAll_nil ss]

/-- No scope is open behind a program. -/
theorem scopes_programWalk {ss : List Stmt} (hproper : Stmt.AllProper ss) :
    (programWalk ss).scopes = [] := by
  have hctx : Context.Encloses ⟨none, false⟩ [] := fun h => (Bool.false_ne_true h).elim
  have hshows : ShowsAll (programWalk ss).scopes (Stmt.afterAll [] ss) none :=
    (covers_stmts hctx ss hproper).scopes (w := ⟨[], [], []⟩) rfl
  rw [afterAll_nil] at hshows
  cases hscopes : (programWalk ss).scopes with
  | nil => rfl
  | cons names rest =>
    rw [hscopes] at hshows
    exact hshows.elim

end Scope

open Scope

variable {lines : Lines} {any : Ids} {ss ss' ts : List Stmt}

/-- The faults of a program are those of one walk over it. -/
theorem faults_resolve (ss : List Stmt) : (resolve ss).faults = (programWalk ss).faults := rfl

/-- **Programs that are alike have faults that are alike in their scopes.** -/
theorem resolve_alike (h : Stmt.AllAlike lines any ss ss') :
    List.Forall₂ (Diagnostic.Alike lines) (resolve ss).faults (resolve ss').faults := by
  have hstep : KeepStep lines (stmts ⟨none, false⟩ ss) (stmts ⟨none, false⟩ ss') :=
    stmts_keepStep h
  have hstart : (Walk.mk [] [] []).scopes = (Walk.mk [] [] []).scopes := rfl
  obtain ⟨-, new, new', hnew, hnew', halike⟩ := hstep hstart
  rw [faults_resolve, faults_resolve, programWalk, programWalk, hnew, hnew']
  exact halike

/-- **The statements at the top are resolved independently.** -/
theorem resolve_append (hproper : Stmt.AllProper ss) (hss : (resolve ss).faults = [])
    (hts : (resolve ts).faults = []) : (resolve (ss ++ ts)).faults = [] := by
  have hstep : KeepStep Eq (stmts ⟨none, false⟩ ts) (stmts ⟨none, false⟩ ts) :=
    stmts_keepStep (Stmt.allAlike_of_bare rfl)
  have hstart : (programWalk ss).scopes = (Walk.mk [] [] []).scopes := scopes_programWalk hproper
  obtain ⟨-, new, new', hnew, hnew', halike⟩ := hstep hstart
  have hnil : new' = [] := hnew'.symm.trans hts
  rw [hnil, List.forall₂_nil_right_iff] at halike
  have hwalk : programWalk (ss ++ ts) = (programWalk ss).after (stmts ⟨none, false⟩ ts) := by
    rw [programWalk, stmts_append]
    rfl
  rw [faults_resolve, hwalk, hnew, halike, List.append_nil]
  exact hss

end LoxLang
