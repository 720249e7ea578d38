/-!
# Text/Utf8 — bytes read as text

A byte string is cut into `Sequence`s: encoded characters, and stretches that encode none. A lead
byte fixes the ranges of the bytes that must follow it; a stretch that breaks off holds the bytes
that fitted so far. `decode` refuses the first bad stretch and says where it is, `decodeLossy`
writes the replacement character for every one of them.
-/

namespace LoxLang.Utf8

/-- A stretch at the front of a byte string. -/
inductive Sequence where
  /-- An encoded character of `size` bytes. -/
  | scalar (c : Char) (size : Nat)
  /-- The first `size` bytes begin a character that the next byte does not continue. -/
  | invalid (size : Nat)
  /-- The bytes end inside a character; `size` of them are left. -/
  | incomplete (size : Nat)
deriving DecidableEq, Repr

/-- How many bytes a stretch holds. -/
def Sequence.size : Sequence → Nat
  | .scalar _ n | .invalid n | .incomplete n => n

/-- The ranges of the bytes that must follow a lead byte. -/
def tails (lead : UInt8) : Option (List (UInt8 × UInt8)) :=
  if lead ≤ 0x7f then some []
  else if 0xc2 ≤ lead && lead ≤ 0xdf then some [(0x80, 0xbf)]
  else if lead = 0xe0 then some [(0xa0, 0xbf), (0x80, 0xbf)]
  else if lead = 0xed then some [(0x80, 0x9f), (0x80, 0xbf)]
  else if 0xe1 ≤ lead && lead ≤ 0xef then some [(0x80, 0xbf), (0x80, 0xbf)]
  else if lead = 0xf0 then some [(0x90, 0xbf), (0x80, 0xbf), (0x80, 0xbf)]
  else if 0xf1 ≤ lead && lead ≤ 0xf3 then some [(0x80, 0xbf), (0x80, 0xbf), (0x80, 0xbf)]
  else if lead = 0xf4 then some [(0x80, 0x8f), (0x80, 0xbf), (0x80, 0xbf)]
  else none

/-- The bits of the character that the lead byte of a sequence with `n` tails holds. -/
def payload (lead : UInt8) (n : Nat) : Nat :=
  if n = 0 then lead.toNat else lead.toNat % Nat.pow 2 (6 - n)

/-- Matches the bytes behind a lead byte against their ranges, having read `size` bytes with the
bits `code` so far. -/
def continued (code size : Nat) : List (UInt8 × UInt8) → List UInt8 → Sequence
  | [], _ => .scalar (Char.ofNat code) size
  | _ :: _, [] => .incomplete size
  | (low, high) :: ranges, b :: bytes =>
    if low ≤ b && b ≤ high then continued (code * 64 + b.toNat % 64) (size + 1) ranges bytes
    else .invalid size

/-- The stretch at the front of `lead :: bytes`. -/
def first (lead : UInt8) (bytes : List UInt8) : Sequence :=
  match tails lead with
  | none => .invalid 1
  | some ranges => continued (payload lead ranges.length) 1 ranges bytes

/-- All stretches behind the first `skip` bytes. -/
def sequencesAfter : Nat → List UInt8 → List Sequence
  | _, [] => []
  | skip + 1, _ :: bytes => sequencesAfter skip bytes
  | 0, lead :: bytes =>
    let s := first lead bytes
    s :: sequencesAfter (s.size - 1) bytes

/-- A byte string cut into its stretches. -/
def sequences (bytes : ByteArray) : List Sequence :=
  sequencesAfter 0 bytes.toList

/-- Why a byte string is no text. -/
inductive Fault where
  /-- The `size` bytes from `index` on encode nothing. -/
  | invalid (size index : Nat)
  /-- The bytes end inside the character that starts at `index`. -/
  | incomplete (index : Nat)
deriving DecidableEq, Repr

def Fault.message : Fault → String
  | .invalid size index =>
    "invalid utf-8 sequence of " ++ toString size ++ " bytes from index " ++ toString index
  | .incomplete index => "incomplete utf-8 byte sequence from index " ++ toString index

/-- The characters of the stretches, or the first bad one; `index` bytes came before. -/
def collect (index : Nat) : List Sequence → Except Fault (List Char)
  | [] => .ok []
  | .scalar c size :: rest => (collect (index + size) rest).map (c :: ·)
  | .invalid size :: _ => .error (.invalid size index)
  | .incomplete _ :: _ => .error (.incomplete index)

/-- The text that a byte string encodes. -/
def decode (bytes : ByteArray) : Except Fault String :=
  (collect 0 (sequences bytes)).map String.ofList

/-- The text with U+FFFD for every stretch that encodes nothing. -/
def decodeLossy (bytes : ByteArray) : String :=
  String.ofList <| (sequences bytes).map fun
    | .scalar c _ => c
    | .invalid _ | .incomplete _ => '�'

end LoxLang.Utf8
