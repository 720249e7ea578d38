import Mathlib
import LoxLang.Proofs.Lexis.Bytes

/-!
# Proofs/Lexis/Reader — a text read byte by byte

A `Reader` stands at a byte of a text and counts lines; each call of `next` reads on to the next
item. It looks at one byte after the other and takes slices of the text. A slice that is not there
makes the call fail, which is a result of its own: `next` gives `none`.

`between` is a reader between two parts of a text. Its loops read the same characters that
`takeWhile` takes (`skipWhile_between`, `skipString_between`, `skipLine_between`).
-/

namespace LoxLang

namespace Lexis

/-- The value of a text of digits, with or without a point and places. -/
def decimalValue (text : List Char) : Float :=
  let places := (text.dropWhile Char.isDigit).tail
  nearest (digitsValue (text.takeWhile Char.isDigit ++ places)) (Nat.pow 10 places.length)

/-- What a reader finds at its place. -/
inductive Finding where
  | nothing
  | token (kind : Kind) (literal : Option Literal)
  | fault (f : LexFault)

/-- A reader at a byte of a text, on a line. -/
structure Reader where
  source : String
  position : Nat
  line : Nat

namespace Reader

/-- A reader at the start of a text. -/
def start (source : String) : Reader :=
  ⟨source, 0, 1⟩

variable (r : Reader)

def size : Nat :=
  (bytes r.source).length

/-- The bytes that are not read yet. -/
def unread : List UInt8 :=
  (bytes r.source).drop r.position

/-- The next byte, taken for the character with its number. Behind the end it is NUL. -/
def peek : Char :=
  Char.ofUInt8 (r.unread.headD 0)

/-- The byte behind the next one. -/
def peekNext : Char :=
  Char.ofUInt8 (r.unread.tail.headD 0)

def advance : Reader :=
  { r with position := r.position + 1 }

/-- Whether the next byte is there and is `c`. -/
def sees (c : Char) : Bool :=
  r.position < r.size && r.peek = c

/-- Behind the end there is only NUL. -/
theorem lt_size_of_peek_ne (h : r.peek ≠ '\x00') : r.position < r.size := by
  by_contra hle
  refine h ?_
  have hnil : r.unread = [] := List.drop_eq_nil_of_le (by simpa [size] using hle)
  rw [peek, hnil]
  rfl

/-- Reads on while the next byte is in a class that NUL is not in. -/
def skipWhile (f : Char → Bool) (hf : f '\x00' = false) (r : Reader) : Reader :=
  if f r.peek then skipWhile f hf r.advance else r
termination_by r.size - r.position
decreasing_by
  rename_i h
  have hlt : r.position < r.size := r.lt_size_of_peek_ne fun hnul => by simp [hnul, hf] at h
  exact Nat.sub_lt_sub_left hlt (Nat.lt_succ_self _)

/-- Reads a byte of a string. -/
def advanceInString : Reader :=
  { r.advance with line := if r.peek = '\n' then r.line + 1 else r.line }

/-- Reads up to the next quote. -/
def skipString (r : Reader) : Reader :=
  if r.position < r.size ∧ r.peek ≠ '"' then skipString r.advanceInString else r
termination_by r.size - r.position
decreasing_by
  rename_i h
  exact Nat.sub_lt_sub_left h.1 (Nat.lt_succ_self _)

/-- Leaps to the next line break. -/
def skipLine : Reader :=
  match r.unread.findIdx? (Char.ofUInt8 · = '\n') with
  | some k => { r with position := r.position + k }
  | none => { r with position := r.size }

theorem isDigit_nul : '\x00'.isDigit = false := rfl

theorem isWordChar_nul : isWordChar '\x00' = false := rfl

/-- The string with its quote at `start`. -/
def string (start : Nat) : Option (Finding × Reader) :=
  let r := r.skipString
  if r.position < r.size then
    (slice? r.source (start + 1) (r.advance.position - 1)).map fun contents =>
      (.token .string (some (.string contents)), r.advance)
  else some (.fault .unterminatedString, r)

/-- The number that starts at `start`. -/
def number (start : Nat) : Option (Finding × Reader) :=
  let r := r.skipWhile Char.isDigit isDigit_nul
  let r := if r.peek = '.' && r.peekNext.isDigit then
    r.advance.skipWhile Char.isDigit isDigit_nul else r
  (slice? r.source start r.position).map fun text =>
    (.token .number (some (.number (decimalValue text.toList))), r)

/-- The word that starts at `start`. -/
def word (start : Nat) : Option (Finding × Reader) :=
  let r := r.skipWhile isWordChar isWordChar_nul
  (slice? r.source start r.position).map fun text =>
    (.token (Kind.ofWord text) (wordLiteral (Kind.ofWord text)), r)

/-- The character at `start`, of any width. -/
def stray (start : Nat) : Option (Finding × Reader) :=
  (slice? r.source start r.size).map fun text =>
    let c := text.toList.headD '\uFFFD'
    (.fault (.unexpectedCharacter c), { r with position := start + c.utf8Size })

/-- What the byte `c` opens, which was read at `start`. -/
def opened (c : Char) (start : Nat) : Option (Finding × Reader) :=
  if c = ' ' || c = '\r' || c = '\t' then some (.nothing, r)
  else if c = '\n' then some (.nothing, { r with line := r.line + 1 })
  else if let some kind := mark? c then some (.token kind none, r)
  else if let some (alone, withEqual) := comparison? c then
    if r.sees '=' then some (.token withEqual none, r.advance) else some (.token alone none, r)
  else if c = '/' then
    if r.sees '/' then some (.nothing, r.advance.skipLine) else some (.token .slash none, r)
  else if c = '"' then r.string start
  else if c.isDigit then r.number start
  else if isWordStart c then r.word start
  else r.stray start

/-- **What stands at the place of a reader**, and the reader behind it. Nothing comes out if a slice
is not there. -/
def find : Option (Finding × Reader) :=
  r.advance.opened r.peek r.position

/-! ## A reader moves on -/

/-- The second reader stands in the same text, and no further back. -/
def Before (r r' : Reader) : Prop :=
  r'.source = r.source ∧ r.position ≤ r'.position

variable {r}

theorem Before.trans {r₁ r₂ r₃ : Reader} (h : r₁.Before r₂) (h' : r₂.Before r₃) : r₁.Before r₃ :=
  ⟨h'.1.trans h.1, h.2.trans h'.2⟩

theorem before_advance : r.Before r.advance :=
  ⟨rfl, Nat.le_succ _⟩

/-- A loop over a class moves on. -/
theorem before_skipWhile (f : Char → Bool) (hf : f '\x00' = false) (r : Reader) :
    r.Before (r.skipWhile f hf) := by
  fun_induction skipWhile f hf r with
  | case1 r _ ih => exact before_advance.trans ih
  | case2 r _ => exact ⟨rfl, le_rfl⟩

/-- A loop over a string moves on. -/
theorem before_skipString (r : Reader) : r.Before r.skipString := by
  fun_induction skipString r with
  | case1 r _ ih =>
    have hstep : r.Before r.advanceInString := ⟨rfl, Nat.le_succ _⟩
    exact hstep.trans ih
  | case2 r _ => exact ⟨rfl, le_rfl⟩

/-- A leap to the line break moves on. -/
theorem before_skipLine (h : r.position ≤ r.size) : r.Before r.skipLine := by
  unfold skipLine
  split
  · exact ⟨rfl, Nat.le_add_right _ _⟩
  · exact ⟨rfl, h⟩

theorem lt_of_sees {c : Char} (h : r.sees c) : r.position < r.size := by
  simp only [sees, Bool.and_eq_true, decide_eq_true_eq] at h
  exact h.1

variable {i : Nat} {x : Finding} {r' : Reader}

/-- Reading a string moves on; so does each of the other readings. -/
theorem before_of_string (h : r.string i = some (x, r')) : r.Before r' := by
  simp only [string] at h
  split at h
  · obtain ⟨_, -, h⟩ := Option.map_eq_some_iff.mp h
    cases h
    exact (before_skipString r).trans before_advance
  · cases h
    exact before_skipString r

theorem before_of_number (h : r.number i = some (x, r')) : r.Before r' := by
  obtain ⟨_, -, h⟩ := Option.map_eq_some_iff.mp h
  cases h
  refine (before_skipWhile Char.isDigit isDigit_nul r).trans ?_
  split
  · exact before_advance.trans (before_skipWhile ..)
  · exact ⟨rfl, le_rfl⟩

theorem before_of_word (h : r.word i = some (x, r')) : r.Before r' := by
  obtain ⟨_, -, h⟩ := Option.map_eq_some_iff.mp h
  cases h
  exact before_skipWhile ..

/-- A stray character is one byte or more. -/
theorem before_of_stray (hi : r.position = i + 1) (h : r.stray i = some (x, r')) :
    r.Before r' := by
  obtain ⟨_, -, h⟩ := Option.map_eq_some_iff.mp h
  cases h
  exact ⟨rfl, hi ▸ Nat.add_le_add_left (Char.utf8Size_pos _) i⟩

/-- What is found ends behind the byte that the reader stands at. -/
theorem before_of_find (h : r.find = some (x, r')) : r.advance.Before r' := by
  have hrefl : r.advance.Before r.advance := ⟨rfl, le_rfl⟩
  simp only [find, opened] at h
  split at h
  · cases h
    exact hrefl
  split at h
  · cases h
    exact hrefl
  split at h
  · cases h
    exact hrefl
  split at h
  · split at h
    · cases h
      exact before_advance
    · cases h
      exact hrefl
  split at h
  · split at h
    · next hsees =>
      cases h
      exact before_advance.trans (before_skipLine (lt_of_sees hsees))
    · cases h
      exact hrefl
  split at h
  · exact before_of_string h
  split at h
  · exact before_of_number h
  split at h
  · exact before_of_word h
  · exact before_of_stray rfl h

/-! ## Items -/

/-- **The next item**, and the reader behind it. The end token comes once, then there is no item any
more. Nothing comes out at all if a slice is not there. -/
def next (r : Reader) : Option (Option ScanItem × Reader) :=
  if r.position < r.size then
    match _ : r.find with
    | none => none
    | some (.nothing, r') => next r'
    | some (.fault f, r') => some (some (.error (.lex r'.line f)), r')
    | some (.token kind literal, r') => (slice? r'.source r.position r'.position).map fun lexeme =>
      (some (.ok ⟨kind, lexeme, literal, r'.line⟩), r')
  else if r.position = r.size then some (some (.ok (endToken r.line)), r.advance)
  else some (none, r)
termination_by r.size - r.position
decreasing_by
  rename_i hr hfind
  obtain ⟨hsource, hlt⟩ := before_of_find hfind
  rw [size, hsource]
  exact Nat.sub_lt_sub_left hr hlt

/-- The reader after some calls. -/
def after : Nat → Reader → Option Reader
  | 0, r => some r
  | n + 1, r => r.next.bind fun (_, r') => after n r'

/-- What a call gives after some others. -/
def nth (n : Nat) (r : Reader) : Option (Option ScanItem) :=
  (r.after n).bind fun r' => r'.next.map Prod.fst

/-! ## The loops -/

/-- The reader some bytes and lines further on. -/
def moved (r : Reader) (k l : Nat) : Reader :=
  ⟨r.source, r.position + k, r.line + l⟩

@[simp] theorem moved_moved (k l k' l' : Nat) :
    (r.moved k l).moved k' l' = r.moved (k + k') (l + l') := by
  simp only [moved, Nat.add_assoc]

theorem advance_eq : r.advance = r.moved 1 0 := rfl

/-- Inside a string a line break counts. -/
theorem advanceInString_eq :
    r.advanceInString = r.moved 1 (if r.peek = '\n' then 1 else 0) := by
  simp only [advanceInString, advance, moved]
  split <;> rfl

/-- At the end nothing is unread. -/
theorem unread_nil (h : r.size ≤ r.position) : r.unread = [] :=
  List.drop_eq_nil_of_le h

/-- Before the end the next byte is the first that is unread. -/
theorem unread_cons (h : r.position < r.size) :
    ∃ b, r.peek = Char.ofUInt8 b ∧ ∀ l, r.unread = b :: (r.moved 1 l).unread := by
  have hcons : r.unread = _ := List.drop_eq_getElem_cons h
  exact ⟨_, by rw [peek, hcons]; rfl, fun _ => hcons⟩

theorem peek_of_unread {b : UInt8} {bs : List UInt8} (h : r.unread = b :: bs) :
    r.peek = Char.ofUInt8 b := by
  rw [peek, h]
  rfl

/-- **A loop over a class reads the longest stretch of bytes in it.** -/
theorem skipWhile_eq (f : Char → Bool) (hf : f '\x00' = false) (r : Reader) :
    r.skipWhile f hf = r.moved (r.unread.takeWhile fun b => f (Char.ofUInt8 b)).length 0 := by
  fun_induction skipWhile f hf r with
  | case1 r h ih =>
    have hlt : r.position < r.size := r.lt_size_of_peek_ne fun hnul => by simp [hnul, hf] at h
    obtain ⟨b, hb, hcons⟩ := unread_cons hlt
    rw [ih, hcons 0, List.takeWhile_cons_of_pos (hb ▸ h), advance_eq, moved_moved,
      List.length_cons, Nat.add_comm 1]
  | case2 r h =>
    cases hunread : r.unread with
    | nil => rfl
    | cons b bs =>
      rw [List.takeWhile_cons_of_neg (peek_of_unread hunread ▸ h)]
      rfl

/-- **A loop over a string reads up to the quote**, and counts the line breaks. -/
theorem skipString_eq (r : Reader) : r.skipString =
    r.moved (r.unread.takeWhile fun b => Char.ofUInt8 b ≠ '"').length
      ((r.unread.takeWhile fun b => Char.ofUInt8 b ≠ '"').countP
        fun b => Char.ofUInt8 b = '\n') := by
  fun_induction skipString r with
  | case1 r h ih =>
    obtain ⟨b, hb, hcons⟩ := unread_cons h.1
    rw [hb] at h
    rw [ih, advanceInString_eq, hb, hcons (if Char.ofUInt8 b = '\n' then 1 else 0),
      List.takeWhile_cons_of_pos (by simpa using h.2), moved_moved, List.length_cons,
      List.countP_cons, Nat.add_comm 1]
    simp only [decide_eq_true_eq, Nat.add_comm]
  | case2 r h =>
    cases hunread : r.unread with
    | nil => rfl
    | cons b bs =>
      have hlt : r.position < r.size := by
        by_contra hle
        rw [unread_nil (Nat.le_of_not_lt hle)] at hunread
        cases hunread
      have hquote : Char.ofUInt8 b = '"' := by
        rw [← peek_of_unread hunread]
        tauto
      rw [List.takeWhile_cons_of_neg (by simp [hquote])]
      rfl

/-- A leap to the line break reads up to it. -/
theorem skipLine_eq (h : r.position ≤ r.size) : r.skipLine =
    r.moved (r.unread.takeWhile fun b => Char.ofUInt8 b ≠ '\n').length 0 := by
  have htake : (r.unread.takeWhile fun b => Char.ofUInt8 b ≠ '\n').length =
      r.unread.findIdx (Char.ofUInt8 · = '\n') := by
    rw [List.takeWhile_eq_take_findIdx_not, List.length_take]
    simp [List.findIdx_le_length]
  rw [htake, skipLine]
  cases hfind : r.unread.findIdx? (Char.ofUInt8 · = '\n') with
  | some k =>
    rw [(List.findIdx?_eq_some_iff_findIdx_eq.mp hfind).2]
    rfl
  | none =>
    have hsize : r.position + r.unread.length = r.size := by
      rw [unread, List.length_drop]
      exact Nat.add_sub_cancel' h
    rw [List.findIdx?_eq_none_iff_findIdx_eq.mp hfind]
    simp only [moved, hsize]
    rfl

/-! ## A reader between two parts of a text -/

/-- **A reader between two parts of a text**, on a line. -/
def between (pre rest : List Char) (line : Nat) : Reader :=
  ⟨String.ofList (pre ++ rest), (bytesOf pre).length, line⟩

section

variable (pre cs mid rest : List Char) (line : Nat)

theorem start_eq (source : String) : start source = between [] source.toList 1 := by
  simp [start, between]

@[simp] theorem source_between :
    (between pre rest line).source = String.ofList (pre ++ rest) := rfl

@[simp] theorem position_between : (between pre rest line).position = (bytesOf pre).length := rfl

@[simp] theorem unread_between : (between pre rest line).unread = bytesOf rest := by
  simp [unread, bytes_eq]

@[simp] theorem size_between :
    (between pre rest line).size = (bytesOf pre).length + (bytesOf rest).length := by
  simp [size, bytes_eq]

theorem moved_between (l : Nat) : (between pre (mid ++ rest) line).moved (bytesOf mid).length l =
    between (pre ++ mid) rest (line + l) := by
  simp [moved, between]

/-- **A slice between two parts of a text is there**: both places are boundaries. -/
theorem slice?_between : slice? (between (pre ++ mid) rest line).source (bytesOf pre).length
    (bytesOf (pre ++ mid)).length = some (String.ofList mid) := by
  rw [source_between, List.append_assoc, bytesOf_append, List.length_append, slice?_ofList]

/-- Before a character the reader is not at the end. -/
theorem position_lt_size (c : Char) :
    (between pre (c :: rest) line).position < (between pre (c :: rest) line).size := by
  have hpos := Char.utf8Size_pos c
  simp only [position_between, size_between, bytesOf_cons, List.length_append,
    String.length_utf8EncodeChar]
  omega

theorem position_eq_size : (between pre [] line).position = (between pre [] line).size := by
  simp

/-- A reader moves over a stretch of characters as over its bytes. -/
theorem moved_takeWhile (f : Char → Bool) (l : Nat) :
    (between pre cs line).moved (bytesOf (cs.takeWhile f)).length l =
      between (pre ++ cs.takeWhile f) (cs.dropWhile f) (line + l) := by
  rw [← moved_between, List.takeWhile_append_dropWhile]

/-- **A loop over a plain class reads characters as if they were bytes.** -/
theorem skipWhile_between {f : Char → Bool} (h : Plain f) (hf : f '\x00' = false) :
    (between pre cs line).skipWhile f hf =
      between (pre ++ cs.takeWhile f) (cs.dropWhile f) line := by
  rw [skipWhile_eq, unread_between, h.takeWhile_bytesOf]
  exact moved_takeWhile pre cs line f 0

/-- A loop over a string reads the characters up to the quote. -/
theorem skipString_between : (between pre cs line).skipString =
    between (pre ++ cs.takeWhile (· ≠ '"')) (cs.dropWhile (· ≠ '"'))
      (line + (cs.takeWhile (· ≠ '"')).count '\n') := by
  have htake := (plain_ne (d := '"') (by decide)).takeWhile_bytesOf cs
  rw [skipString_eq, unread_between, htake, countP_bytesOf (by decide), moved_takeWhile]

/-- A leap to the line break reads the characters up to it. -/
theorem skipLine_between : (between pre cs line).skipLine =
    between (pre ++ cs.takeWhile (· ≠ '\n')) (cs.dropWhile (· ≠ '\n')) line := by
  have htake := (plain_ne (d := '\n') (by decide)).takeWhile_bytesOf cs
  rw [skipLine_eq (by simp), unread_between, htake]
  exact moved_takeWhile pre cs line _ 0

/-- A plain class without NUL is seen in the next byte. -/
theorem peek_plain {f : Char → Bool} (h : Plain f) (hf : f '\x00' = false) :
    f (between pre cs line).peek = cs.head?.any f := by
  cases cs with
  | nil =>
    rw [peek, unread_between]
    exact hf
  | cons c cs =>
    obtain ⟨b, bs, hbytes⟩ := List.exists_cons_of_ne_nil (String.utf8EncodeChar_ne_nil (c := c))
    rw [peek, unread_between, bytesOf_cons, hbytes]
    exact h.byte (by simp [hbytes])

theorem peekNext_eq (r : Reader) : r.peekNext = r.advance.peek := by
  rw [peekNext, peek, unread, List.tail_drop]
  rfl

section

variable {c : Char} (hc : c.toNat < 128)
include hc

/-- An ASCII character is seen as its byte. -/
theorem peek_between : (between pre (c :: rest) line).peek = c := by
  obtain ⟨b, hbytes, hb⟩ := utf8EncodeChar_of_lt hc
  simp [peek, hbytes, hb]

theorem advance_between :
    (between pre (c :: rest) line).advance = between (pre ++ [c]) rest line := by
  obtain ⟨b, hbytes, hb⟩ := utf8EncodeChar_of_lt hc
  rw [← Nat.add_zero line, ← moved_between, advance_eq]
  simp [hbytes]

/-- A wider character is never taken for an ASCII one. -/
theorem peek_eq_iff (hnul : c ≠ '\x00') :
    (between pre cs line).peek = c ↔ cs.head? = some c := by
  have hplain : Plain (· = c) := plain_of_lt fun d hd => of_decide_eq_true hd ▸ hc
  have hpeek := peek_plain pre cs line hplain (decide_eq_false hnul.symm)
  rw [← decide_eq_true_iff (p := (between pre cs line).peek = c), hpeek, Option.any_eq_true]
  simp

/-- A byte is seen if and only if the character is there. -/
theorem sees_between (hnul : c ≠ '\x00') :
    (between pre cs line).sees c ↔ cs.head? = some c := by
  rw [sees, Bool.and_eq_true, decide_eq_true_eq, decide_eq_true_eq, peek_eq_iff pre cs line hc hnul]
  refine ⟨And.right, fun h => ⟨?_, h⟩⟩
  obtain ⟨cs, rfl⟩ := List.head?_eq_some_iff.mp h
  exact position_lt_size pre cs line c

end

end

end Reader

end Lexis

end LoxLang
