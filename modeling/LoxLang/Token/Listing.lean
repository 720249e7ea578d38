import LoxLang.Decimal.Layout
import LoxLang.Text.Json
import LoxLang.Token.Basic

/-!
# Token/Listing — tokens as lines and as JSON

A listing line is `KIND lexeme literal`. Both forms have number layouts of their own: a line writes
a whole number that fits into 63 bits as that integer with `.0`, and JSON turns to scientific
notation beyond fifteen places.
-/

namespace LoxLang

namespace Literal

/-- A number in a listing line. Negative zero is written as the integer zero. -/
def numberText (x : Float) : String :=
  if isWhole x && (magnitude x).floor < Nat.pow 2 63 then
    (if (magnitude x).floor = 0 then "0" else exact x) ++ ".0"
  else plain x

/-- A literal in a listing line. A truth value shows in its lexeme and is left out. -/
def text : Literal → String
  | .string s => s
  | .number x => numberText x
  | .bool _ => "null"

/-- The least and the greatest power of ten that JSON writes positionally. -/
def positionalRange : Int × Int := (-5, 15)

/-- A finite number in JSON: the shortest digits, a half going to the even digit, always with a
point or an exponent. -/
def jsonNumber (x : Float) : String :=
  let d := Decimal.shortest (magnitude x) .toEven
  let digits :=
    if positionalRange.1 ≤ d.leading && d.leading ≤ positionalRange.2 then
      if 0 ≤ d.exponent then d.positional ++ ".0" else d.positional
    else d.scientific
  signText x ++ digits

/-- A literal in JSON, under the name of its type. A number that is not finite is `null`. -/
def json : Literal → Json
  | .string s => .object [("Str", .string s)]
  | .number x => .object [("Number", if x.isFinite then .number (jsonNumber x) else .null)]
  | .bool b => .object [("Bool", .bool b)]

end Literal

namespace Token

/-- The listing line of a token. -/
def text (t : Token) : String :=
  t.kind.name ++ " " ++ t.lexeme ++ " " ++ (t.literal.map Literal.text).getD "null"

/-- A token in JSON. -/
def json (t : Token) : Json :=
  .object [("type", .string t.kind.name), ("lexeme", .string t.lexeme),
    ("literal", (t.literal.map Literal.json).getD .null), ("line", .number (toString t.line))]

end Token

end LoxLang
