import Mathlib
import LoxLang.Proofs.Lexical.Initial

/-!
# Proofs/Lexical/Runs — runs with lexical scoping

Every session corresponds to a state of lexical scoping, whatever it ran before. A run then does
what lexical scoping says, unless it loses an assignment: one to a local variable in the variable's
own initial value, where the machine does not find the variable yet and lexical scoping writes the
one outside. No assignment is lost where all code is tidy; and one that is lost ends the run.
The main result is `run_eq_lexical`.
-/

namespace LoxLang

open EStateM (Result)

namespace Session

/-- A call that a run of the session comes to. -/
def Leads (s : Session) (host : Host) (source : String) (fuel n : Nat) (task : Task)
    (m : Machine) : Prop :=
  ∃ t m₀, Reaches host fuel (s.read source).statements (s.prepared source) t m₀ ∧
    LoxLang.Leads host fuel (.execute t) m₀ n task m

/-- The run loses no assignment. -/
def Lossless (s : Session) (host : Host) (source : String) (fuel : Nat) : Prop :=
  ∀ {n task m}, s.Leads host source fuel n task m → ¬ Loses host n task m

end Session

namespace Lexical

variable {s : Session} {state : State} {source : String} {fuel n : Nat} {host : Host}
  {natives : Natives} {safe : Nat → Task → Machine → Prop} {m : Machine}

/-- Nothing is lost in the call, nor in those that it makes. -/
def Sheltered (host : Host) (n : Nat) (task : Task) (m : Machine) : Prop :=
  ∀ {k task' m'}, LoxLang.Leads host n task m k task' m' → ¬ Loses host k task' m'

/-- Calls that lose nothing are safe. -/
theorem safe_sheltered (host : Host) : Safe host (Sheltered host) where
  calls h htask hcalls := fun hleads => h (hleads.after htask hcalls)
  found h := h .refl

/-- A run shows what an execution with lexical scoping came to. -/
structure Reflects (tidy : Bool) (found : List Diagnostic) (run : Report × Session)
    (out : Result Stop State Unit) : Prop where
  /-- Both end, or neither does; and a fault has the same message and line. -/
  report : run.1 = reportOf found out
  output : run.2.output = (endOf out).sink.written
  /-- The same globals, up to the correspondence of objects. -/
  session : Corresponds tidy run.2 (endOf out)

/-- **A run shows what lexical scoping came to**, if its code is tidy or it loses no assignment. -/
theorem Corresponds.reflects {tidy : Bool} (h : Corresponds tidy s state)
    (hexecutes : s.Executes source)
    (htidy : tidy = true → Stmt.allTidy false (s.read source).statements = true)
    (hexact : tidy = true ∨ s.Lossless natives.host source fuel) :
    Reflects tidy (s.found source) (s.run natives.host fuel source)
      (executeProgram natives fuel (s.read source).statements state) := by
  have hhost := hostSimulates_natives tidy natives (safe_sheltered natives.host)
  obtain ⟨out, hout, hreport, W, hrel, htop⟩ := h.run hhost hexecutes htidy fuel
  have hout := hout fun {t m} hreaches =>
    hexact.imp_right fun hlossless _ _ _ hleads => hlossless ⟨t, m, hreaches, hleads⟩
  rw [hout]
  exact ⟨hreport, congrArg Sink.written hrel.sink, W, hrel, htop⟩

/-! ## Sessions of tidy programs -/

/-- A session of tidy programs, and the state that lexical scoping has come to by the same actions.
Runs and evaluations may fail, and a run that recovers executes what it could read. -/
inductive Paired (natives : Natives) : Session → State → Prop
  | start (recover : Bool) (capacity : Option Nat) :
      Paired natives (.start recover capacity) (.start capacity)
  | defineHost {s : Session} {state : State} (h : Paired natives s state) (name : String)
      (arity : Nat) (entry : String) :
      Paired natives (s.defineHost name arity entry) (state.defineHost name arity entry)
  | run {s : Session} {state : State} {source : String} (h : Paired natives s state)
      (hexecutes : s.Executes source)
      (htidy : Stmt.allTidy false (s.read source).statements = true) (fuel : Nat) :
      Paired natives (s.run natives.host fuel source).2
        (endOf (executeProgram natives fuel (s.read source).statements state))
  | run_refused {s : Session} {state : State} {source : String} (h : Paired natives s state)
      (hrefused : ¬ s.Executes source) (fuel : Nat) :
      Paired natives (s.run natives.host fuel source).2 state
  | evaluate {s : Session} {state : State} {source : String} {e : Expr}
      (h : Paired natives s state) (hread : s.expression? source = some e) (fuel : Nat) :
      Paired natives (s.evaluate natives.host fuel source).2.2
        (endOf (evaluate natives fuel [] e state))
  | evaluate_refused {s : Session} {state : State} {source : String} (h : Paired natives s state)
      (hread : s.expression? source = none) (fuel : Nat) :
      Paired natives (s.evaluate natives.host fuel source).2.2 state

/-- A session of tidy programs corresponds to its state, by induction on what it did. -/
theorem Paired.corresponds (h : Paired natives s state) : Corresponds true s state := by
  have hhost := hostSimulates_natives true natives (safe_sheltered natives.host)
  induction h with
  | start recover capacity => exact corresponds_start true recover capacity
  | defineHost _ name arity entry ih => exact ih.defineHost name arity entry
  | run _ hexecutes htidy fuel ih =>
    exact (ih.reflects hexecutes (fun _ => htidy) (.inl rfl)).session
  | run_refused _ hrefused fuel ih => exact ih.run_refused _ hrefused fuel
  | evaluate _ hread fuel ih =>
    obtain ⟨_, hout, hend⟩ := ih.evaluate hhost hread fuel
    rw [hout rfl]
    exact hend
  | evaluate_refused _ hread fuel ih => exact ih.evaluate_refused _ hread fuel

/-! ## Lost assignments -/

section

variable {id : NodeId} {name : Token} {value : Expr}

/-- **A run that loses an assignment ends there.** -/
theorem report_of_loses (hexecutes : s.Executes source)
    (hleads : s.Leads host source fuel n (.evaluate (.assign id name value)) m)
    (hloses : Loses host n (.evaluate (.assign id name value)) m) :
    (s.run host fuel source).1 = ⟨some .runtimeError,
      s.found source ++ [.runtime name.line (.undefinedVariable name.lexeme)]⟩ := by
  obtain ⟨t, m₀, hreaches, hleads⟩ := hleads
  obtain ⟨m₁, hstop⟩ : (LoxLang.executeProgram host fuel (s.read source).statements).Stops
      (s.prepared source) (.fault (.runtime name.line (.undefinedVariable name.lexeme))) := by
    cases hloses with
    | intro _ _ hlost =>
      have hassign : (LoxLang.evaluate host _ (.assign id name value)).Stops m _ := ⟨_, hlost⟩
      exact hreaches.stops (hleads.stops (hassign.map _)).of_map
  rw [Session.run_of_executes host fuel hexecutes, hstop]
  rfl

/-- A run that does not end with a fault loses no assignment. -/
theorem lossless_of_status (hexecutes : s.Executes source)
    (h : (s.run host fuel source).1.status ≠ some .runtimeError) :
    s.Lossless host source fuel := by
  rintro n task m hleads (⟨hd, hvalue, hlost⟩)
  rw [report_of_loses hexecutes hleads (.intro hd hvalue hlost)] at h
  exact h rfl

/-- **Only an assignment in the initial value of its own variable is lost.** -/
theorem initial_of_loses (hhost : HostSimulates false safe host natives)
    (hstate : Corresponds false s state) (hexecutes : s.Executes source)
    (hleads : s.Leads host source fuel n (.evaluate (.assign id name value)) m)
    (hloses : Loses host n (.evaluate (.assign id name value)) m) :
    s.InInitialValue host source fuel name.lexeme n (.evaluate (.assign id name value)) m := by
  obtain ⟨t, m₀, hreaches, hleads⟩ := hleads
  have hpoint : s.Point host source fuel n (.evaluate (.assign id name value)) m :=
    .run hexecutes hreaches hleads.visits
  cases hloses with
  | @intro k _ _ _ d v _ m' hd hvalue hlost =>
    have hfound : ∀ {own}, SoundIn own (.evaluate (.assign id name value)) m →
        own = some name.lexeme := by
      intro own hsound
      by_contra hown
      obtain ⟨r, u, -, -, hwrites⟩ :=
        hsound.assign_writes (simulatesAt hhost k) hown hd hvalue
      rw [hlost] at hwrites
      cases hwrites
    rcases Point.soundIn hhost hstate hpoint rfl with hnone | ⟨x, hsome, hinitial⟩
    · cases hfound hnone
    · cases hfound hsome
      exact hinitial

end

/-- **Runs are lexically scoped.** Whatever a session ran before, there is a state of lexical
scoping that it corresponds to. A program that is read and resolved without faults then does what it
does with lexical scoping: a tidy one in a session of tidy programs, and every one in every session
if the run loses no assignment. So does what a session that recovers could read of a program. An
assignment is lost only in the initial value of its own variable, and the run ends there. -/
theorem run_eq_lexical (h : s.Reached natives.host) (hexecutes : s.Executes source) (fuel : Nat) :
    (∃ state, Corresponds false s state) ∧
    (∀ {state}, Paired natives s state →
      Stmt.allTidy false (s.read source).statements = true →
      Reflects true (s.found source) (s.run natives.host fuel source)
        (executeProgram natives fuel (s.read source).statements state)) ∧
    (∀ {state}, Corresponds false s state → s.Lossless natives.host source fuel →
      Reflects false (s.found source) (s.run natives.host fuel source)
        (executeProgram natives fuel (s.read source).statements state)) ∧
    ∀ {n id name value m},
      s.Leads natives.host source fuel n (.evaluate (.assign id name value)) m →
      Loses natives.host n (.evaluate (.assign id name value)) m →
      s.InInitialValue natives.host source fuel name.lexeme n
          (.evaluate (.assign id name value)) m ∧
        (s.run natives.host fuel source).1 = ⟨some .runtimeError,
          s.found source ++ [.runtime name.line (.undefinedVariable name.lexeme)]⟩ := by
  have hhost := hostSimulates_natives false natives (safe_sheltered natives.host)
  obtain ⟨state, hstate⟩ := Reached.corresponds hhost h
  refine ⟨⟨state, hstate⟩, fun hpaired htidy => ?_, fun hstate hlossless => ?_, ?_⟩
  · exact hpaired.corresponds.reflects hexecutes (fun _ => htidy) (.inl rfl)
  · exact hstate.reflects hexecutes nofun (.inr hlossless)
  · intro n id name value m hleads hloses
    exact ⟨initial_of_loses hhost hstate hexecutes hleads hloses,
      report_of_loses hexecutes hleads hloses⟩

/-- A closure that keeps the global, although its block declares a variable of that name later. -/
def shadowedLater : String := "var x; { fun f() { return x; } var x = true; print f(); }"

/-- A function that assigns a variable in the variable's own initial value. -/
def untidy : String := "var x; fun f() { var x = x = true; }"

/-- A session in which that function was declared. -/
def afterUntidy : Session :=
  ((Session.start false none).run Natives.silent.host 20 untidy).2

/-- Where lexical scoping came to with that function. -/
def State.afterUntidy : State :=
  endOf (executeProgram .silent 20 ((Session.start false none).read untidy).statements
    (.start none))

theorem reached_afterUntidy : afterUntidy.Reached Natives.silent.host :=
  .run (.start false none) 20 untidy

/-- Tidy code, and tidy code in a session that holds code which is not. -/
theorem run_eq_lexical_shadowedLater :
    let start := Session.start false none
    (start.Reached Natives.silent.host ∧ start.Executes shadowedLater ∧
      Reflects true (start.found shadowedLater) (start.run Natives.silent.host 20 shadowedLater)
        (executeProgram .silent 20 (start.read shadowedLater).statements (.start none))) ∧
    afterUntidy.Reached Natives.silent.host ∧ afterUntidy.Executes shadowedLater ∧
      Reflects false (afterUntidy.found shadowedLater)
        (afterUntidy.run Natives.silent.host 20 shadowedLater)
        (executeProgram .silent 20 (afterUntidy.read shadowedLater).statements .afterUntidy) := by
  intro start
  have hreached : start.Reached Natives.silent.host := .start false none
  have hexecutes : start.Executes shadowedLater := by decide +kernel
  have htidy : Stmt.allTidy false (start.read shadowedLater).statements = true := by decide +kernel
  have huntidy : start.Executes untidy := by decide +kernel
  have hdeclared : (start.run Natives.silent.host 20 untidy).1.status ≠ some .runtimeError := by
    decide +kernel
  have hexecutes' : afterUntidy.Executes shadowedLater := by decide +kernel
  have hstatus : (afterUntidy.run Natives.silent.host 20 shadowedLater).1.status ≠
      some .runtimeError := by decide +kernel
  refine ⟨⟨hreached, hexecutes, ?_⟩, reached_afterUntidy, hexecutes', ?_⟩
  · exact (run_eq_lexical hreached hexecutes 20).2.1 (.start false none) htidy
  · have hbefore := (run_eq_lexical hreached huntidy 20).2.2.1 (corresponds_start false false none)
      (lossless_of_status huntidy hdeclared)
    exact (run_eq_lexical reached_afterUntidy hexecutes' 20).2.2.1 hbefore.session
      (lossless_of_status hexecutes' hstatus)

/-- **What an untidy program left behind is not lexically scoped.** The function assigns to its own
variable, which is not there yet, and not to the global. -/
theorem run_ne_lexical_after_untidy :
    afterUntidy.Executes "f(); print x;" ∧
      Stmt.allTidy false (afterUntidy.read "f(); print x;").statements = true ∧
      ¬ Reflects false [] (afterUntidy.run Natives.silent.host 20 "f(); print x;")
        (executeProgram .silent 20 (afterUntidy.read "f(); print x;").statements
          .afterUntidy) := by
  have hexecutes : afterUntidy.Executes "f(); print x;" := by decide +kernel
  have htidy : Stmt.allTidy false (afterUntidy.read "f(); print x;").statements = true := by
    decide +kernel
  refine ⟨hexecutes, htidy, fun h => ?_⟩
  have hmachine : (afterUntidy.run Natives.silent.host 20 "f(); print x;").1.status =
      some .runtimeError := by decide +kernel
  have hlexical : (reportOf [] (executeProgram .silent 20
      (afterUntidy.read "f(); print x;").statements .afterUntidy)).status = some .ok := by
    decide +kernel
  rw [h.report, hlexical] at hmachine
  cases hmachine

end Lexical

end LoxLang
