import LoxLang.Eval.Basic
import LoxLang.Grammar.Program
import LoxLang.Lexis.Scan
import LoxLang.Scope.Resolve

/-!
# Session — source texts run one after the other

A session keeps one machine: what one run defines, the next one finds. A run reads the whole text
before it does anything, and reports every fault that it finds there; unless the session recovers,
any of them keeps the program from running.
-/

namespace LoxLang

/-- How a run ended. -/
inductive Status where
  | ok
  /-- Faults were found before the program ran. -/
  | staticError
  /-- A fault stopped the program. -/
  | runtimeError
deriving DecidableEq, Repr

def Status.exitCode : Status → UInt8
  | ok => 0
  | staticError => 65
  | runtimeError => 70

structure Session where
  machine : Machine
  /-- Statements that could be read are run although others could not. -/
  recover : Bool

/-- What a run comes to. -/
structure Report where
  /-- How the run ended; none if it ran out of fuel. -/
  status : Option Status
  diagnostics : List Diagnostic

namespace Session

/-- A session in which nothing ran. The clock is the one host function that it has. -/
def start (recover : Bool) (capacity : Option Nat) : Session where
  machine := (Machine.fresh capacity).defineHost "clock" 0 "clock"
  recover

/-- Everything written to the sink of the session. -/
def output (s : Session) : ByteArray :=
  s.machine.sink.written

/-- The report and the session after a computation that stopped, with the faults found before. -/
def stopped (s : Session) (found : List Diagnostic) (stop : Stop) (m : Machine) :
    Report × Session :=
  match stop with
  | .fault d => (⟨some .runtimeError, found ++ [d]⟩, { s with machine := m })
  | .outOfFuel => (⟨none, found⟩, { s with machine := m })

/-- **Runs a program.** -/
def run (host : Host) (fuel : Nat) (s : Session) (source : String) : Report × Session :=
  let items := scan source
  let parsed := parse (tokensOf items) s.machine.nextId
  let found := faultsOf items ++ parsed.faults
  let m := { s.machine with nextId := parsed.nextId }
  if !found.isEmpty && !s.recover then (⟨some .staticError, found⟩, { s with machine := m })
  else
    let resolution := resolve parsed.statements
    if !resolution.faults.isEmpty then
      (⟨some .staticError, found ++ resolution.faults⟩, { s with machine := m })
    else
      match executeProgram host fuel parsed.statements (m.noteDistances resolution.distances) with
      | .ok _ m =>
        (⟨some (if found.isEmpty then .ok else .staticError), found⟩, { s with machine := m })
      | .error stop m => s.stopped found stop m

/-- **Evaluates a single expression** against the globals; its names are not resolved. -/
def evaluate (host : Host) (fuel : Nat) (s : Session) (source : String) :
    Option Value × Report × Session :=
  let items := scan source
  match faultsOf items with
  | d :: ds => (none, ⟨some .staticError, d :: ds⟩, s)
  | [] =>
    let (parsed, nextId) := parseExpression (tokensOf items) s.machine.nextId
    let m := { s.machine with nextId }
    match parsed with
    | .error d => (none, ⟨some .staticError, [d]⟩, { s with machine := m })
    | .ok e =>
      match LoxLang.evaluate host fuel e m with
      | .ok v m => (some v, ⟨some .ok, []⟩, { s with machine := m })
      | .error stop m => (none, s.stopped [] stop m)

/-- Binds a global to a host function. -/
def defineHost (s : Session) (name : String) (arity : Nat) (entry : String) : Session :=
  { s with machine := s.machine.defineHost name arity entry }

end Session

end LoxLang
