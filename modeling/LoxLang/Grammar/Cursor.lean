import LoxLang.Diagnostic
import LoxLang.Tree.Basic

/-!
# Grammar/Cursor — reading tokens one by one

A `Cursor` is a place in the tokens of a text, together with the faults noted so far and the next
free node id. The tokens behind the first end token are out of reach. A `Parser` moves a cursor
forward; it fails with a diagnostic and leaves the cursor where the failure was found, which is
where recovery starts.
-/

namespace LoxLang

/-- A place in the tokens of a text. -/
structure Cursor where
  /-- The tokens ahead, up to the end token. -/
  rest : List Token
  /-- The end token. -/
  last : Token
  /-- The faults noted so far. -/
  faults : List Diagnostic
  /-- The next free node id. -/
  nextId : NodeId

/-- A computation that moves a cursor and may fail. -/
abbrev Parser := EStateM Diagnostic Cursor

namespace Cursor

/-- The token at the cursor. -/
def current (c : Cursor) : Token :=
  c.rest.headD c.last

/-- The end token of a list: its first, or a new one on the line of the last token. -/
def endOf (tokens : List Token) : Token :=
  match tokens.find? (·.kind = .eof) with
  | some t => t
  | none => ⟨.eof, "", none, (tokens.getLast?.map Token.line).getD 1⟩

/-- The cursor before the first of `tokens`. -/
def start (tokens : List Token) (nextId : NodeId) : Cursor where
  rest := tokens.takeWhile (·.kind ≠ .eof)
  last := endOf tokens
  faults := []
  nextId

end Cursor

namespace Parser

/-- Fails at the token at the cursor. -/
def refuse {α : Type} (fault : ParseFault) : Parser α := fun c =>
  .error (.parse c.current fault) c

/-- Notes a fault that does not stop the reading. -/
def note (token : Token) (fault : ParseFault) : Parser Unit := fun c =>
  .ok () { c with faults := c.faults ++ [.parse token fault] }

/-- Notes a fault at the token at the cursor. -/
def noteHere (fault : ParseFault) : Parser Unit := fun c =>
  note c.current fault c

/-- A node id that no other node has. -/
def freshId : Parser NodeId := fun c =>
  .ok c.nextId { c with nextId := c.nextId + 1 }

/-- The token at the cursor is the end token. -/
def atEnd : Parser Bool := fun c =>
  .ok c.rest.isEmpty c

/-- The token at the cursor has the given kind. -/
def looksAt (kind : Kind) : Parser Bool := fun c =>
  .ok (match c.rest with
    | [] => false
    | t :: _ => t.kind = kind) c

/-- Steps over the token at the cursor if it has one of the given kinds. -/
def acceptAny (kinds : List Kind) : Parser (Option Token) := fun c =>
  match c.rest with
  | [] => .ok none c
  | t :: rest => if t.kind ∈ kinds then .ok (some t) { c with rest } else .ok none c

/-- Steps over a token of the given kind. -/
def accept (kind : Kind) : Parser (Option Token) :=
  acceptAny [kind]

/-- Steps over a token of the given kind, or fails. -/
def expect (kind : Kind) (fault : ParseFault) : Parser Token := do
  match ← accept kind with
  | some t => return t
  | none => refuse fault

end Parser

/-- The most parameters or arguments that a routine may have. -/
def maxArity : Nat := 255

end LoxLang
