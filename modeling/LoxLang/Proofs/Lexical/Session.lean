import Mathlib
import LoxLang.Proofs.Lexical.Refinement
import LoxLang.Proofs.Lexis.Spelling
import LoxLang.Proofs.Run.Session
import LoxLang.Proofs.Scope.Walk

/-!
# Proofs/Lexical/Session — sessions with lexical scoping

A run reads its program, records the distances of its names and executes it. From a machine that
corresponds to a state, the program then fits (`Corresponds.prepared`), so the run comes to a
machine that corresponds to a state again (`Corresponds.run`): to the one that lexical scoping comes
to, as long as the two go the same way.
-/

namespace LoxLang.Lexical

/-- The state at the start of a session. -/
def State.start (capacity : Option Nat) : State :=
  (State.fresh capacity).defineHost "clock" 0 "clock"

/-- A session between two runs and a state that correspond. -/
def Corresponds (tidy : Bool) (s : Session) (state : State) : Prop :=
  ∃ W, Related tidy W s.machine state ∧ W.AtTop

variable {tidy : Bool} {W : World} {s : Session} {state : State} {source : String}

/-- The world before anything ran. -/
def World.fresh : World :=
  ⟨0, 0, fun _ => none, 0, 1, id, fun _ _ => none, fun _ => none⟩

/-- Before anything ran the machine and the state correspond. -/
theorem related_fresh (tidy : Bool) (capacity : Option Nat) :
    Related tidy .fresh (Machine.fresh capacity) (State.fresh capacity) where
  globals := rfl
  scope := rfl
  distances id := by simp [Machine.fresh, World.fresh]
  nextId := rfl
  unrecorded _ _ := rfl
  shape := ⟨rfl, Nat.zero_lt_one, rfl, fun hr hne => absurd (Nat.lt_one_iff.mp hr) hne⟩
  located := ⟨nofun, nofun⟩
  kept _ := rfl
  locals r x _ := by
    have hnone : (Machine.fresh capacity).store.local? r x = none :=
      (Store.local?_newFrame_empty ..).trans (by simp [Store.empty, Store.local?])
    rw [hnone]
    exact .none
  globalNames x := by
    have hnone : (Machine.fresh capacity).store.local? 0 x = none :=
      (Store.local?_newFrame_empty ..).trans (by simp [Store.empty, Store.local?])
    rw [show World.fresh.globals = 0 from rfl, hnone]
    simp [State.fresh]
  instances _ := .none
  sink := rfl
  nextObject := rfl
  clockReads := rfl

theorem corresponds_start (tidy recover : Bool) (capacity : Option Nat) :
    Corresponds tidy (Session.start recover capacity) (State.start capacity) :=
  ⟨.fresh, (related_fresh tidy capacity).defineHost _ _ _, rfl⟩

namespace Corresponds

/-- A host function is defined on both sides. -/
theorem defineHost (h : Corresponds tidy s state) (name : String) (arity : Nat) (entry : String) :
    Corresponds tidy (s.defineHost name arity entry) (state.defineHost name arity entry) := by
  obtain ⟨W, hrel, htop⟩ := h
  exact ⟨W, hrel.defineHost name arity entry, htop⟩

/-- Ids are given out. -/
theorem skipIds (h : Corresponds tidy s state) {limit : NodeId} (hle : s.machine.nextId ≤ limit) :
    Corresponds tidy { s with machine := { s.machine with nextId := limit } } state := by
  obtain ⟨W, hrel, htop⟩ := h
  exact ⟨_, hrel.skipIds hle, htop.note _ _⟩

/-- **What is read and resolved without a fault fits the machine on which it is executed.** -/
theorem prepared (h : Corresponds tidy s state)
    (hresolve : (resolve (s.read source).statements).faults = [])
    (htidy : tidy = true → Stmt.allTidy false (s.read source).statements = true) :
    ∃ W, Related tidy W (s.prepared source) state ∧ W.AtTop ∧
      Stmt.AllFits W.Records tidy (s.read source).statements [] ∧
      ∀ id ∈ Stmt.thisIdsAll (s.read source).statements, ∃ d, W.distance id = some d := by
  obtain ⟨W, hrel, htop⟩ := h
  have hproper : Stmt.AllProper (s.read source).statements :=
    proper_parse (spelled_scan source) s.machine.nextId
  have hids : Numbered s.machine.nextId (s.read source).nextId
      (Stmt.idsAll (s.read source).statements) := numbered_parse _ _
  have henters := enters_resolve hproper hresolve hids fun id hid =>
    (hrel.distances id).trans (hrel.unrecorded id (hrel.nextId ▸ hid))
  refine ⟨_, hrel.note hids.le henters.older henters.newer, htop.note _ _, ?_, henters.this⟩
  cases tidy with
  | false => exact henters.fits
  | true => exact henters.fits.tidy (htidy rfl)

end Corresponds

/-! ## What a run comes to -/

open EStateM (Result)

/-- What a run reports whose program ended so, with the faults found before. -/
def reportOf (found : List Diagnostic) : Result Stop State Unit → Report
  | .ok _ _ => ⟨some (if found.isEmpty then .ok else .staticError), found⟩
  | .error (.fault d) _ => ⟨some .runtimeError, found ++ [d]⟩
  | .error .outOfFuel _ => ⟨none, found⟩

namespace Corresponds

variable {host : Host} {natives : Natives} {safe : Nat → Task → Machine → Prop}

/-- **A run that executes its program can be followed**, and ends as lexical scoping does if each of
its statements is known to. -/
theorem run (hhost : HostSimulates tidy safe host natives) (h : Corresponds tidy s state)
    (hexecutes : s.Executes source)
    (htidy : tidy = true → Stmt.allTidy false (s.read source).statements = true) (fuel : Nat) :
    ∃ out, ((∀ {t m}, Reaches host fuel (s.read source).statements (s.prepared source) t m →
        Exact tidy safe fuel (.execute t) m) →
        executeProgram natives fuel (s.read source).statements state = out) ∧
      (s.run host fuel source).1 = reportOf (s.found source) out ∧
      Corresponds tidy (s.run host fuel source).2 (endOf out) := by
  obtain ⟨W, hrel, htop, hfits, -⟩ := h.prepared hexecutes.2 htidy
  obtain ⟨out, hout, hagrees⟩ :=
    follows_executeProgram (simulatesAt hhost fuel) (.top htop) hfits hrel
  refine ⟨out, hout, ?_⟩
  rw [Session.run_of_executes host fuel hexecutes]
  generalize LoxLang.executeProgram host fuel _ (s.prepared source) = res at hagrees
  cases hagrees with
  | @ok W' _ _ _ _ hW hrel' _ =>
    exact ⟨rfl, W', hrel', htop.mono hW.toGrows hW.scope⟩
  | @error W' stop _ _ _ hW hrel' =>
    have htop' : W'.AtTop := htop.mono hW.toGrows hW.scope
    cases stop with
    | fault d => exact ⟨rfl, W', hrel', htop'⟩
    | outOfFuel => exact ⟨rfl, W', hrel', htop'⟩

/-- A run that executes nothing changes nothing that a program can see. -/
theorem run_refused (host : Host) (h : Corresponds tidy s state) (hrefused : ¬ s.Executes source)
    (fuel : Nat) : Corresponds tidy (s.run host fuel source).2 state := by
  rw [(Session.run_of_not_executes host fuel hrefused).2]
  exact h.skipIds (numbered_parse (tokensOf (scan source)) s.machine.nextId).le

/-- An expression that is read alone takes all its names as globals. -/
theorem evaluate (hhost : HostSimulates tidy safe host natives) (h : Corresponds tidy s state)
    {e : Expr} (hread : s.expression? source = some e) (fuel : Nat) :
    ∃ out, (tidy = true → Lexical.evaluate natives fuel [] e state = out) ∧
      Corresponds tidy (s.evaluate host fuel source).2.2 (endOf out) := by
  obtain ⟨W, hrel, htop⟩ := h
  have hids := numbered_parseExpression (Session.expression?_eq_some.mp hread).2
  have hfits := hrel.fits_skipIds hids.bounds
  have hreading : Related tidy _ (s.reading source) state := hrel.skipIds hids.le
  obtain ⟨out, hout, hagrees⟩ := (simulatesAt hhost fuel).evaluate (.global _) hfits hreading
  refine ⟨out, fun h => hout (.inl h), ?_⟩
  rw [Session.evaluate_of_some host fuel hread]
  generalize LoxLang.evaluate host fuel e _ = res at hagrees
  cases hagrees with
  | @ok W' _ _ _ _ hW hrel' _ =>
    exact ⟨W', hrel', (htop.note _ _).mono hW.toGrows hW.scope⟩
  | @error W' _ _ _ _ hW hrel' =>
    exact ⟨W', hrel', (htop.note _ _).mono hW.toGrows hW.scope⟩

/-- A text that is no expression changes nothing that corresponds. -/
theorem evaluate_refused (host : Host) (h : Corresponds tidy s state)
    (hread : s.expression? source = none) (fuel : Nat) :
    Corresponds tidy (s.evaluate host fuel source).2.2 state := by
  obtain ⟨limit, hle, heq⟩ := Session.evaluate_of_none host fuel hread
  rw [heq]
  exact h.skipIds hle

end Corresponds

/-- A host whose functions all give `nil`. -/
def Natives.silent : Natives := fun _ _ reads => (.constant .nil, reads)

/-- Natives answer alike on both sides. -/
theorem hostSimulates_natives (tidy : Bool) {safe : Nat → Task → Machine → Prop}
    (natives : Natives) (hsafe : Safe natives.host safe) :
    HostSimulates tidy safe natives.host natives where
  closed := hsafe
  invoke _ _ _ _ _ _ _ _ _ _ h hrel := .of_simulates (simulates_native natives _ _ h) hrel

end LoxLang.Lexical
