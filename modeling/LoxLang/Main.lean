import Std.Time.DateTime.Timestamp
import LoxLang.CommandLine
import LoxLang.Host.Library

/-!
# Main — the program

Reads the arguments, the file or standard input, and writes what `CommandLine` works out.
-/

namespace LoxLang

open CommandLine

/-- A bound that no run reaches in practice. -/
def ampleFuel : Nat := Nat.pow 2 60

/-- The host functions, with a clock that starts now and gains a microsecond with each reading. -/
def currentHost : IO Host := do
  let now ← Std.Time.Timestamp.now
  let microseconds := now.toNanosecondsSinceUnixEpoch.val / 1000
  let seconds := Float.ofInt microseconds / 1000000
  return Library.host fun n => seconds + n.toFloat / 1000000

/-- Writes what a command comes to. -/
def emit (o : Outcome) : IO Unit := do
  let stdout ← IO.getStdout
  stdout.write o.stdout
  stdout.flush
  (← IO.getStderr).putStr o.stderr

/-- The file with the given name. -/
def readSource (name : String) : IO SourceFile := do
  try
    return .contents name (← IO.FS.readBinFile name)
  catch
    | .noFileOrDirectory .. => return .unreadable name "No such file or directory (os error 2)"
    | e => return .unreadable name (toString e)

/-- The bytes of standard input up to a line break, behind those that were read already. -/
partial def readLine (read : ByteArray) : IO ByteArray := do
  let next ← (← IO.getStdin).read 1
  let line := read ++ next
  if next.isEmpty || next.toList = [10] then return line else readLine line

/-- The prompt, line by line. -/
partial def interact (s : Session) : IO UInt32 := do
  emit (.ofText 0 promptMark "")
  let line ← readLine .empty
  if line.isEmpty then
    emit (.ofText 0 "\n" "")
    return 0
  match promptLine (← currentHost) ampleFuel s line with
  | .error failure =>
    emit failure
    return failure.exitCode.toUInt32
  | .ok (s, answer) =>
    emit answer
    interact s

/-- Performs a command. -/
def perform (arguments : Arguments) : IO UInt32 := do
  if arguments.log then IO.FS.writeFile "app.log" ""
  match arguments.command, arguments.file with
  | .run recover, none => interact (.start recover none)
  | command, file =>
    let source ← file.mapM readSource
    let outcome := CommandLine.perform (← currentHost) ampleFuel command source .empty
    emit outcome
    return outcome.exitCode.toUInt32

end LoxLang

def main (words : List String) : IO UInt32 :=
  match LoxLang.CommandLine.arguments? words with
  | some arguments => LoxLang.perform arguments
  | none => do
    (← IO.getStderr).putStr LoxLang.CommandLine.usage
    return 2
