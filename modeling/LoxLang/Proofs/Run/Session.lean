import Mathlib
import LoxLang.Proofs.Run.Calls
import LoxLang.Session

/-!
# Proofs/Run/Session — what is asked of a session, and what it comes to

A run reads its program, records the distances of its names and executes it (`Session.Executes`,
`Session.prepared`). An `Action` is a run, an evaluation or the definition of a host function;
`Session.act` is the session after an action, and `Observation` is what an action shows to the one
who asked for it: the report, all output so far, the value as it is rendered, and the number of
recorded distances.

The sessions that come about so are those that are `Session.Reached`. The calls that are reached
while a program runs or an expression is evaluated are the points of a session (`Session.Point`).
-/

namespace LoxLang

namespace Session

/-! ## Reading, resolving, executing -/

variable (s : Session) (source : String)

/-- What the session reads in a source text. -/
def read : Parsed :=
  parse (tokensOf (scan source)) s.machine.nextId

/-- The faults in a source text that are found in reading it. -/
def found : List Diagnostic :=
  faultsOf (scan source) ++ (s.read source).faults

/-- A run gets as far as executing what was read. -/
def Executes : Prop :=
  (s.found source = [] ∨ s.recover = true) ∧ (resolve (s.read source).statements).faults = []

instance : Decidable (s.Executes source) :=
  inferInstanceAs (Decidable (_ ∧ _))

/-- The machine on which a program is executed. -/
def prepared : Machine :=
  Machine.noteDistances { s.machine with nextId := (s.read source).nextId }
    (resolve (s.read source).statements).distances

-- What was read is put aside first: nothing of it is to be evaluated.
/-- Reading and resolving a program leaves the store alone. -/
theorem store_prepared : (s.prepared source).store = s.machine.store := by
  unfold prepared
  generalize s.read source = parsed
  generalize (resolve parsed.statements).distances = distances
  rfl

theorem globals_prepared : (s.prepared source).globals = s.machine.globals := by
  unfold prepared
  generalize s.read source = parsed
  generalize (resolve parsed.statements).distances = distances
  rfl

theorem scope_prepared : (s.prepared source).scope = s.machine.scope := by
  unfold prepared
  generalize s.read source = parsed
  generalize (resolve parsed.statements).distances = distances
  rfl

variable {s source}

/-- A text is not refused for the faults in reading it. -/
theorem not_refused (h : s.found source = [] ∨ s.recover = true) :
    (!(s.found source).isEmpty && !s.recover) = false := by
  rcases h with hfound | hrecover
  · simp [hfound]
  · simp [hrecover]

/-- A program that is executed is executed on the machine with its distances noted, and the report
tells how that ends. -/
theorem run_of_executes (host : Host) (fuel : Nat) (h : s.Executes source) :
    s.run host fuel source =
      match executeProgram host fuel (s.read source).statements (s.prepared source) with
      | .ok _ m => (⟨some (if (s.found source).isEmpty then .ok else .staticError), s.found source⟩,
          { s with machine := m })
      | .error stop m => s.stopped (s.found source) stop m := by
  obtain ⟨hfound, hresolve⟩ := h
  have hread := not_refused hfound
  unfold run
  simp only [found, read] at hread hresolve
  simp only [hread, hresolve, Bool.false_eq_true, List.isEmpty_nil, Bool.not_true, if_false]
  rfl

/-- The machine on which a program was executed, with what the execution came to. -/
theorem machine_run {host : Host} {fuel : Nat} (h : s.Executes source) :
    (s.run host fuel source).2.machine =
      endOf (executeProgram host fuel (s.read source).statements (s.prepared source)) := by
  rw [run_of_executes host fuel h]
  cases executeProgram host fuel (s.read source).statements (s.prepared source) with
  | ok _ m => rfl
  | error stop m => cases stop <;> rfl

/-- A run that executes nothing only gives out ids. -/
theorem run_of_not_executes (host : Host) (fuel : Nat) (h : ¬ s.Executes source) :
    (s.run host fuel source).1.status = some .staticError ∧ (s.run host fuel source).2 =
      { s with machine := { s.machine with nextId := (s.read source).nextId } } := by
  unfold run
  dsimp only
  split
  · exact ⟨rfl, rfl⟩
  · next hread =>
    split
    · exact ⟨rfl, rfl⟩
    · next hresolve =>
      refine absurd ⟨?_, ?_⟩ h
      · simpa [found, read, Decidable.or_iff_not_imp_left] using hread
      · simpa [read] using hresolve

variable (s source) in
/-- The machine on which an expression is evaluated that was read alone. -/
def reading : Machine :=
  { s.machine with nextId := (parseExpression (tokensOf (scan source)) s.machine.nextId).2 }

variable (s source) in
/-- The single expression that the session reads in a source text. -/
def expression? : Option Expr :=
  match faultsOf (scan source), (parseExpression (tokensOf (scan source)) s.machine.nextId).1 with
  | [], .ok e => some e
  | _, _ => none

/-- A text is an expression if it is scanned and read without a fault. -/
theorem expression?_eq_some {e : Expr} : s.expression? source = some e ↔
    faultsOf (scan source) = [] ∧
      (parseExpression (tokensOf (scan source)) s.machine.nextId).1 = .ok e := by
  unfold expression?
  split
  · next hfaults hread => simp [hfaults, hread]
  · next hnot => exact ⟨nofun, fun h => (hnot e h.1 h.2).elim⟩

/-- An evaluation leaves the machine that the expression comes to. -/
theorem evaluate_of_some (host : Host) (fuel : Nat) {e : Expr}
    (h : s.expression? source = some e) :
    (s.evaluate host fuel source).2.2 = { s with
      machine := endOf (LoxLang.evaluate host fuel e (s.reading source)) } := by
  obtain ⟨hfaults, hread⟩ := expression?_eq_some.mp h
  unfold evaluate reading
  simp only [hfaults, hread]
  split
  · next hvalue =>
    rw [hvalue]
    rfl
  · next stop m hstop =>
    rw [hstop]
    cases stop <;> rfl

/-- A text that holds no expression only takes ids. -/
theorem evaluate_of_none (host : Host) (fuel : Nat) (h : s.expression? source = none) :
    ∃ limit, s.machine.nextId ≤ limit ∧ (s.evaluate host fuel source).2.2 =
      { s with machine := { s.machine with nextId := limit } } := by
  unfold evaluate
  dsimp only
  split
  · exact ⟨_, Nat.le_refl _, rfl⟩
  · next hfaults =>
    split
    · exact ⟨_, le_parseExpression _ _, rfl⟩
    · next e hread =>
      rw [expression?_eq_some.mpr ⟨hfaults, hread⟩] at h
      cases h

end Session

/-! ## Actions -/

/-- What can be asked of a session. -/
inductive Action where
  | run (fuel : Nat) (source : String)
  | evaluate (fuel : Nat) (source : String)
  | defineHost (name : String) (arity : Nat) (entry : String)

/-- What an action shows. -/
structure Observation where
  /-- How the action ended; none if it ran out of fuel. -/
  status : Option Status
  diagnostics : List Diagnostic
  /-- All that was written so far. -/
  output : ByteArray
  /-- The value of an evaluation, as it is printed and as it is inspected. -/
  value : Option (String × Option String)
  /-- The number of recorded distances. -/
  localCount : Nat

namespace Session

section

variable (host : Host) (s : Session)

/-- The session after an action. -/
def act : Action → Session
  | .run fuel source => (s.run host fuel source).2
  | .evaluate fuel source => (s.evaluate host fuel source).2.2
  | .defineHost name arity entry => s.defineHost name arity entry

/-- The session after actions, one after the other. -/
def actAll (actions : List Action) : Session :=
  actions.foldl (act host) s

/-- The number of recorded distances. -/
def localCount : Nat :=
  s.machine.distances.size

/-- A value as it is printed and as it is inspected. -/
def rendered (v : Value) : String × Option String :=
  (v.text s.machine.store, v.inspection? s.machine.store)

/-- What a session shows that has come to a report and a value. -/
def shows (report : Report) (value : Option Value) : Observation :=
  ⟨report.status, report.diagnostics, s.output, value.map s.rendered, s.localCount⟩

/-- What an action shows. -/
def observe : Action → Observation
  | .run fuel source => (s.run host fuel source).2.shows (s.run host fuel source).1 none
  | .evaluate fuel source =>
    let (value, report, s') := s.evaluate host fuel source
    s'.shows report value
  | .defineHost name arity entry =>
    (s.defineHost name arity entry).shows ⟨some .ok, []⟩ none

/-- What actions show, one after the other. -/
def observations : Session → List Action → List Observation
  | _, [] => []
  | s, a :: rest => s.observe host a :: observations (s.act host a) rest

end

/-! ## The sessions that come about -/

/-- The sessions that come about with a host. Runs may fail, be refused and recover. -/
inductive Reached (host : Host) : Session → Prop
  | start (recover : Bool) (capacity : Option Nat) : Reached host (.start recover capacity)
  | defineHost {s : Session} (h : Reached host s) (name : String) (arity : Nat)
      (entry : String) : Reached host (s.defineHost name arity entry)
  | run {s : Session} (h : Reached host s) (fuel : Nat) (source : String) :
      Reached host (s.run host fuel source).2
  | evaluate {s : Session} (h : Reached host s) (fuel : Nat) (source : String) :
      Reached host (s.evaluate host fuel source).2.2

/-- Each action of a session that can be reached leads to one that can be reached. -/
theorem Reached.act {host : Host} {s : Session} (h : s.Reached host) (a : Action) :
    (s.act host a).Reached host := by
  cases a with
  | run fuel source => exact h.run fuel source
  | evaluate fuel source => exact h.evaluate fuel source
  | defineHost name arity entry => exact h.defineHost name arity entry

theorem Reached.actAll {host : Host} {s : Session} (h : s.Reached host)
    (actions : List Action) : (s.actAll host actions).Reached host := by
  induction actions generalizing s with
  | nil => exact h
  | cons a actions ih => exact ih (h.act a)

/-- **The points of a session**: the calls that are made while it runs a program or evaluates an
expression. -/
inductive Point (host : Host) (s : Session) (source : String) (fuel : Nat) :
    Nat → Task → Machine → Prop
  | run {t : Stmt} {n : Nat} {task : Task} {m m' : Machine} (h : s.Executes source)
      (hreaches : Reaches host fuel (s.read source).statements (s.prepared source) t m)
      (hvisits : Visits host fuel (.execute t) m n task m') : Point host s source fuel n task m'
  | evaluate {e : Expr} {n : Nat} {task : Task} {m' : Machine} (h : s.expression? source = some e)
      (hvisits : Visits host fuel (.evaluate e) (s.reading source) n task m') :
      Point host s source fuel n task m'

end Session

end LoxLang
