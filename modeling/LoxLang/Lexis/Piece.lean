import LoxLang.Decimal.Double
import LoxLang.Token.Basic

/-!
# Lexis/Piece — a source text cut into pieces

`Piece.cut` takes the longest piece off the front of a non-empty text: a blank, a comment, a lexeme,
or something that is none of these. `pieces` cuts a whole text; nothing is lost on the way
(`flatten_pieces`), so a piece can be found again in the text it came from.
-/

namespace LoxLang

/-- A stretch of a source text. -/
inductive Piece where
  /-- A space, a tab, a carriage return or a line break. -/
  | blank (c : Char)
  /-- Two slashes and what follows them on the line. -/
  | comment (body : List Char)
  /-- The text of a token. -/
  | lexeme (kind : Kind) (literal : Option Literal) (text : List Char)
  /-- A quote with no other behind it, and all of the text after it. -/
  | unterminated (body : List Char)
  /-- A character that starts no token. -/
  | stray (c : Char)
deriving DecidableEq, Repr

namespace Piece

/-- The characters of a piece. -/
def text : Piece → List Char
  | blank c | stray c => [c]
  | comment body => '/' :: '/' :: body
  | lexeme _ _ text => text
  | unterminated body => '"' :: body

/-- The number of line breaks in a piece. -/
def lineBreaks (p : Piece) : Nat :=
  p.text.count '\n'

end Piece

namespace Lexis

def isBlank (c : Char) : Bool :=
  c = ' ' || c = '\r' || c = '\t' || c = '\n'

/-- The first character of a word: a letter or an underscore. -/
def isWordStart (c : Char) : Bool :=
  c.isAlpha || c = '_'

/-- A further character of a word. -/
def isWordChar (c : Char) : Bool :=
  c.isAlphanum || c = '_'

/-- The kind of a character that is always a token by itself. -/
def mark? : Char → Option Kind
  | '(' => some .leftParen
  | ')' => some .rightParen
  | '\x7b' => some .leftBrace
  | '\x7d' => some .rightBrace
  | ',' => some .comma
  | '.' => some .dot
  | '-' => some .minus
  | '+' => some .plus
  | ';' => some .semicolon
  | '*' => some .star
  | '?' => some .question
  | ':' => some .colon
  | _ => none

/-- The kinds of a character alone and with an equals sign behind it. -/
def comparison? : Char → Option (Kind × Kind)
  | '!' => some (.bang, .bangEqual)
  | '=' => some (.equal, .equalEqual)
  | '>' => some (.greater, .greaterEqual)
  | '<' => some (.less, .lessEqual)
  | _ => none

/-- The value of a string of digits. -/
def digitsValue (ds : List Char) : Nat :=
  ds.foldl (fun n c => 10 * n + (c.toNat - '0'.toNat)) 0

/-- The fraction digits at the front of `rest`, if a point with a digit behind it stands there. -/
def fraction : List Char → List Char
  | '.' :: d :: rest => if d.isDigit then d :: rest.takeWhile Char.isDigit else []
  | _ => []

/-- The number that starts with the digit `c`. -/
def numberPiece (c : Char) (rest : List Char) : Piece :=
  let whole := c :: rest.takeWhile Char.isDigit
  let places := fraction (rest.dropWhile Char.isDigit)
  let value := nearest (digitsValue (whole ++ places)) (Nat.pow 10 places.length)
  .lexeme .number (some (.number value))
    (if places.isEmpty then whole else whole ++ '.' :: places)

/-- The string whose opening quote stands before `rest`. -/
def stringPiece (rest : List Char) : Piece :=
  match rest.dropWhile (· ≠ '"') with
  | [] => .unterminated rest
  | _ :: _ =>
    let body := rest.takeWhile (· ≠ '"')
    .lexeme .string (some (.string (String.ofList body))) ('"' :: body ++ ['"'])

/-- The literal that a reserved word carries. -/
def wordLiteral : Kind → Option Literal
  | .trueWord => some (.bool true)
  | .falseWord => some (.bool false)
  | _ => none

/-- The word that starts with the character `c`. -/
def wordPiece (c : Char) (rest : List Char) : Piece :=
  let word := c :: rest.takeWhile isWordChar
  let kind := Kind.ofWord (String.ofList word)
  .lexeme kind (wordLiteral kind) word

/-- **The piece at the front of `c :: rest`**, as long as its class allows. -/
def cut (c : Char) (rest : List Char) : Piece :=
  if isBlank c then .blank c
  else if let some kind := mark? c then .lexeme kind none [c]
  else if let some (alone, withEqual) := comparison? c then
    if rest.head? = some '=' then .lexeme withEqual none [c, '='] else .lexeme alone none [c]
  else if c = '/' then
    if rest.head? = some '/' then .comment (rest.tail.takeWhile (· ≠ '\n'))
    else .lexeme .slash none [c]
  else if c = '"' then stringPiece rest
  else if c.isDigit then numberPiece c rest
  else if isWordStart c then wordPiece c rest
  else .stray c

/-- The pieces of a text behind its first `skip` characters. -/
def piecesAfter : Nat → List Char → List Piece
  | _, [] => []
  | skip + 1, _ :: cs => piecesAfter skip cs
  | 0, c :: cs =>
    let p := cut c cs
    p :: piecesAfter (p.text.length - 1) cs

/-- A source text cut into pieces. -/
def pieces (source : List Char) : List Piece :=
  piecesAfter 0 source

/-! ## Nothing is lost -/

theorem fraction_isPrefix (cs : List Char) (h : fraction cs ≠ []) : '.' :: fraction cs <+: cs := by
  unfold fraction at h ⊢
  split at h
  · split at h
    · simp_all [List.takeWhile_prefix]
    · contradiction
  · contradiction

theorem numberPiece_isPrefix (c : Char) (cs : List Char) :
    (numberPiece c cs).text <+: c :: cs := by
  have hsplit : c :: cs.takeWhile Char.isDigit ++ cs.dropWhile Char.isDigit = c :: cs := by
    simp [List.takeWhile_append_dropWhile]
  simp only [numberPiece, Piece.text]
  split
  · exact ⟨_, hsplit⟩
  · next h =>
    obtain ⟨rest, hrest⟩ := fraction_isPrefix (cs.dropWhile Char.isDigit) (by simpa using h)
    exact ⟨rest, by rw [List.append_assoc, hrest, hsplit]⟩

theorem stringPiece_isPrefix (cs : List Char) : (stringPiece cs).text <+: '"' :: cs := by
  unfold stringPiece
  split
  · exact List.prefix_refl _
  · next q rest h =>
    have hq : q = '"' := by
      have := List.head?_dropWhile_not (· ≠ '"') cs
      rw [h] at this
      simpa using this
    have hsplit : cs.takeWhile (· ≠ '"') ++ q :: rest = cs := by
      rw [← h, List.takeWhile_append_dropWhile]
    exact ⟨rest, by rw [← hq] at hsplit ⊢; simpa [Piece.text] using hsplit⟩

/-- A piece stands at the front of the text that it is cut from. -/
theorem cut_isPrefix (c : Char) (cs : List Char) : (cut c cs).text <+: c :: cs := by
  have hone : [c] <+: c :: cs := ⟨cs, rfl⟩
  unfold cut
  split
  · exact hone
  · split
    · exact hone
    · split
      · split
        · cases cs <;> simp_all [Piece.text]
        · exact hone
      · split
        · split
          · cases cs <;> simp_all [Piece.text, List.takeWhile_prefix]
          · exact hone
        · split
          · next h => exact h ▸ stringPiece_isPrefix cs
          · split
            · exact numberPiece_isPrefix c cs
            · split
              · simpa [wordPiece, Piece.text] using List.takeWhile_prefix _
              · exact hone

theorem stringPiece_text_ne_nil (cs : List Char) : (stringPiece cs).text ≠ [] := by
  unfold stringPiece
  split <;> simp [Piece.text]

theorem numberPiece_text_ne_nil (c : Char) (cs : List Char) : (numberPiece c cs).text ≠ [] := by
  simp only [numberPiece, Piece.text]
  split <;> simp

/-- Every piece takes something off the text. -/
theorem cut_text_ne_nil (c : Char) (cs : List Char) : (cut c cs).text ≠ [] := by
  unfold cut
  repeat' split
  all_goals first
    | exact stringPiece_text_ne_nil cs
    | exact numberPiece_text_ne_nil c cs
    | simp [Piece.text, wordPiece]

theorem piecesAfter_eq_drop : ∀ (k : Nat) (cs : List Char),
    piecesAfter k cs = piecesAfter 0 (cs.drop k)
  | 0, _ => rfl
  | _ + 1, [] => rfl
  | k + 1, _ :: cs => piecesAfter_eq_drop k cs

/-- A text is its first piece and the pieces of what follows it. -/
theorem pieces_cons (c : Char) (cs : List Char) :
    pieces (c :: cs) = cut c cs :: pieces ((c :: cs).drop (cut c cs).text.length) := by
  obtain ⟨n, hn⟩ : ∃ n, (cut c cs).text.length = n + 1 :=
    ⟨_, (Nat.succ_pred (by simpa using cut_text_ne_nil c cs)).symm⟩
  simp only [pieces, piecesAfter, hn]
  rw [Nat.add_sub_cancel, piecesAfter_eq_drop n cs, List.drop_succ_cons]

/-- **The pieces of a text, one behind the other, are the text.** -/
theorem flatten_pieces (source : List Char) : (pieces source).flatMap Piece.text = source := by
  match source with
  | [] => rfl
  | c :: cs =>
    have hdrop : (cut c cs).text ++ (c :: cs).drop (cut c cs).text.length = c :: cs := by
      obtain ⟨rest, hrest⟩ := cut_isPrefix c cs
      rw [← hrest, List.drop_left]
    have hpos : 0 < (cut c cs).text.length := List.length_pos_iff.mpr (cut_text_ne_nil c cs)
    rw [pieces_cons, List.flatMap_cons, flatten_pieces, hdrop]
termination_by source.length
decreasing_by
  simp only [List.length_drop, List.length_cons]
  omega

end Lexis

end LoxLang
