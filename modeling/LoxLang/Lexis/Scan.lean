import LoxLang.Diagnostic
import LoxLang.Lexis.Piece

/-!
# Lexis/Scan — the tokens of a source text

The pieces of a text become tokens and lexical diagnostics, in order, with the line that each piece
ends on; blanks and comments leave nothing. One end token closes the list.
-/

namespace LoxLang

/-- A token, or what stands in place of one. -/
abbrev ScanItem := Except Diagnostic Token

namespace Lexis

/-- What a piece that ends on `line` leaves. -/
def item? (line : Nat) : Piece → Option ScanItem
  | .blank _ | .comment _ => none
  | .lexeme kind literal text => some (.ok ⟨kind, String.ofList text, literal, line⟩)
  | .unterminated _ => some (.error (.lex line .unterminatedString))
  | .stray c => some (.error (.lex line (.unexpectedCharacter c)))

/-- The token at the end of a text. -/
def endToken (line : Nat) : Token := ⟨.eof, "", none, line⟩

/-- The items of pieces that start on `line`, and the end token behind them. -/
def items (line : Nat) : List Piece → List ScanItem
  | [] => [.ok (endToken line)]
  | p :: ps =>
    let line := line + p.lineBreaks
    (item? line p).toList ++ items line ps

end Lexis

/-- **The tokens and lexical diagnostics of a source text**, in order. -/
def scan (source : String) : List ScanItem :=
  Lexis.items 1 (Lexis.pieces source.toList)

/-- The tokens among the items. -/
def tokensOf (items : List ScanItem) : List Token :=
  items.filterMap Except.toOption

/-- The diagnostics among the items. -/
def faultsOf (items : List ScanItem) : List Diagnostic :=
  items.filterMap fun
    | .ok _ => none
    | .error d => some d

end LoxLang
