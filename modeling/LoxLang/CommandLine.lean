import LoxLang.Session
import LoxLang.Text.Utf8
import LoxLang.Token.Listing
import LoxLang.Tree.Parenthesized

/-!
# CommandLine — what the commands write and how they exit

Each command takes the contents of a file; without one, `run` is a prompt that runs standard input
line by line in one session. All of it is worked out here, so that the program itself only reads and
writes.
-/

namespace LoxLang.CommandLine

inductive Command where
  /-- Lists the tokens of a text, as lines or as JSON. -/
  | tokenize (json : Bool)
  /-- Writes the tree of an expression. -/
  | parse
  /-- Writes the value of an expression. -/
  | evaluate
  /-- Runs a program. -/
  | run (recover : Bool)
deriving DecidableEq, Repr

/-- The file that a command was given. -/
inductive SourceFile where
  | unreadable (name reason : String)
  | contents (name : String) (bytes : ByteArray)

/-- What a command writes and how it exits. -/
structure Outcome where
  exitCode : UInt8
  stdout : ByteArray
  stderr : String

namespace Outcome

def ofText (exitCode : UInt8) (stdout stderr : String) : Outcome :=
  ⟨exitCode, stdout.toUTF8, stderr⟩

/-- A failure of the command itself, with its cause. -/
def failure (problem cause : String) : Outcome :=
  ofText 1 "" ("Error: " ++ problem ++ "\n\nCaused by:\n    " ++ cause ++ "\n")

end Outcome

/-- Texts as lines. -/
def unlines (texts : List String) : String :=
  texts.foldr (fun text rest => text ++ "\n" ++ rest) ""

/-- The diagnostics of a session as lines. -/
def reportLines (ds : List Diagnostic) : String :=
  unlines (ds.map Diagnostic.reported)

/-- The exit code of a run; one that ran out of fuel counts as stopped. -/
def exitCode (r : Report) : UInt8 :=
  (r.status.getD .runtimeError).exitCode

/-- The listing of the tokens of a text. -/
def tokenize (json : Bool) (source : String) : Outcome :=
  let items := scan source
  let tokens := tokensOf items
  let listing :=
    if json then unlines [(Json.array (tokens.map Token.json)).pretty]
    else unlines (tokens.map Token.text)
  let faults := faultsOf items
  .ofText (if faults.isEmpty then Status.ok else .staticError).exitCode listing
    (unlines (faults.map Diagnostic.text))

/-- The tree of an expression, or the first fault. -/
def parse (source : String) : Outcome :=
  let items := scan source
  match faultsOf items with
  | d :: _ => .ofText Status.staticError.exitCode "" (unlines [d.text])
  | [] =>
    match (parseExpression (tokensOf items) 0).1 with
    | .ok e => .ofText 0 (unlines [e.text]) ""
    | .error d => .ofText Status.staticError.exitCode "" (unlines [d.text])

/-- The value of an expression in a new session. -/
def evaluate (host : Host) (fuel : Nat) (source : String) : Outcome :=
  let (value, report, s) := (Session.start false none).evaluate host fuel source
  let line := (value.map fun v => unlines [v.text s.machine.store]).getD ""
  ⟨exitCode report, s.output ++ line.toUTF8, reportLines report.diagnostics⟩

/-- The run of a program in a new session. -/
def run (host : Host) (fuel : Nat) (recover : Bool) (source : String) : Outcome :=
  let (report, s) := (Session.start recover none).run host fuel source
  ⟨exitCode report, s.output, reportLines report.diagnostics⟩

/-! ## The prompt -/

/-- What the prompt writes before each line. -/
def promptMark : String := "> "

/-- The prompt's answer to a line: the session goes on, or the line was no text. -/
def promptLine (host : Host) (fuel : Nat) (s : Session) (line : ByteArray) :
    Except Outcome (Session × Outcome) :=
  match Utf8.decode line with
  | .error _ => .error (.failure "Failed to read from stdin" "stream did not contain valid UTF-8")
  | .ok source =>
    let (report, s') := s.run host fuel source
    .ok (s', ⟨0, s'.output.extract s.output.size s'.output.size, reportLines report.diagnostics⟩)

/-- Bytes cut behind every line break. -/
def linesOf : List UInt8 → List (List UInt8)
  | [] => []
  | b :: bytes =>
    if b = 10 then [b] :: linesOf bytes
    else match linesOf bytes with
      | [] => [[b]]
      | line :: lines => (b :: line) :: lines

/-- The prompt over all lines of an input; `written` is what it wrote before. -/
def promptFrom (host : Host) (fuel : Nat) (s : Session) (written : Outcome) :
    List (List UInt8) → Outcome
  | [] => { written with stdout := written.stdout ++ (promptMark ++ "\n").toUTF8 }
  | line :: lines =>
    let stdout := written.stdout ++ promptMark.toUTF8
    match promptLine host fuel s ⟨line.toArray⟩ with
    | .error failure => ⟨failure.exitCode, stdout, written.stderr ++ failure.stderr⟩
    | .ok (s, answer) =>
      promptFrom host fuel s ⟨0, stdout ++ answer.stdout, written.stderr ++ answer.stderr⟩ lines

/-- The prompt over a whole input. -/
def prompt (host : Host) (fuel : Nat) (recover : Bool) (stdin : ByteArray) : Outcome :=
  promptFrom host fuel (.start recover none) ⟨0, .empty, ""⟩ (linesOf stdin.toList)

/-! ## Files -/

/-- A file name as messages quote it. -/
def quoteName (name : String) : String :=
  String.ofList <|
    '"' :: name.toList.flatMap (fun c => if c = '"' || c = '\\' then ['\\', c] else [c]) ++ ['"']

/-- Goes on with the text of a file. -/
def withText (file : SourceFile) (next : String → Outcome) : Outcome :=
  match file with
  | .unreadable name reason => .failure ("Failed to open file " ++ quoteName name) reason
  | .contents name bytes =>
    match Utf8.decode bytes with
    | .ok source => next source
    | .error fault => .failure ("File " ++ quoteName name ++ " is not valid UTF-8") fault.message

/-- **What a command comes to**, given its file, if any, and standard input. -/
def perform (host : Host) (fuel : Nat) (command : Command) (file : Option SourceFile)
    (stdin : ByteArray) : Outcome :=
  match command, file with
  | .run recover, none => prompt host fuel recover stdin
  | _, none => .ofText 64 "No input filepath was provided. Exiting...\n" ""
  | .tokenize json, some file => withText file (tokenize json)
  | .parse, some file => withText file parse
  | .evaluate, some file => withText file (evaluate host fuel)
  | .run recover, some file => withText file (run host fuel recover)

/-! ## Arguments -/

/-- What a command is called with. -/
structure Arguments where
  command : Command
  /-- The name of the file. -/
  file : Option String
  /-- A log file is wanted. -/
  log : Bool
deriving DecidableEq, Repr

/-- The arguments that are options. -/
def isOption (argument : String) : Bool :=
  argument.startsWith "--"

/-- The command with a name, given the options, and the options that it knows. -/
def command? (name : String) (options : List String) : Option (Command × List String) :=
  match name with
  | "tokenize" => some (.tokenize (options.contains "--json"), ["--json"])
  | "parse" => some (.parse, [])
  | "evaluate" => some (.evaluate, [])
  | "run" => some (.run (options.contains "--recover"), ["--recover"])
  | _ => none

/-- Reads the arguments of the program: a command, perhaps a file, and options anywhere. -/
def arguments? (words : List String) : Option Arguments := do
  let options := words.filter isOption
  match words.filter (!isOption ·) with
  | [] => none
  | name :: files =>
    let (command, known) ← command? name options
    guard (options.all fun o => o = "--log" || known.contains o)
    guard (files.length ≤ 1)
    return ⟨command, files.head?, options.contains "--log"⟩

/-- How the program is called. -/
def usage : String :=
  "Usage: lox <tokenize|parse|evaluate|run> [FILE] [--json] [--recover] [--log]\n"

end LoxLang.CommandLine
