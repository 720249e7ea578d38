import LoxLang.Decimal.Shortest

/-!
# Decimal/Layout — decimals written as text

Two layouts of a decimal: positional, with as many zeros as it takes, and scientific, with one
digit before the point. `plain` and `exact` are the two texts of a double from which all number
texts of the language are made.
-/

namespace LoxLang

namespace Decimal

/-- The digits of the decimal, most significant first. -/
def digitChars (d : Decimal) : List Char :=
  (toString d.digits).toList

/-- The exponent of the first digit: `7` for `12345678`. -/
def leading (d : Decimal) : Int :=
  d.exponent + (d.digitChars.length : Int) - 1

/-- All digits of the decimal in place, without an exponent: `1200`, `1.5`, `0.00012`. -/
def positional (d : Decimal) : String :=
  let ds := d.digitChars
  if 0 ≤ d.exponent then
    String.ofList (ds ++ List.replicate d.exponent.toNat '0')
  else
    let places := (-d.exponent).toNat
    if places < ds.length then
      let whole := ds.length - places
      String.ofList (ds.take whole ++ '.' :: ds.drop whole)
    else
      String.ofList ('0' :: '.' :: List.replicate (places - ds.length) '0' ++ ds)

/-- One digit, the others behind a point if there are any, and a signed exponent: `1e+16`,
`2.5e-7`. -/
def scientific (d : Decimal) : String :=
  let mantissa := match d.digitChars with
    | [] => []
    | [c] => [c]
    | c :: cs => c :: '.' :: cs
  let power := d.leading
  let sign := if 0 ≤ power then "+" else "-"
  String.ofList mantissa ++ "e" ++ sign ++ toString power.natAbs

end Decimal

/-- The sign of a double as it stands before its digits. -/
def signText (x : Float) : String :=
  if isNegative x then "-" else ""

/-- The shortest digits that identify a double, all in place. A half goes up. -/
def plain (x : Float) : String :=
  if x.isNaN then "NaN"
  else if x.isInf then signText x ++ "inf"
  else signText x ++ (Decimal.shortest (magnitude x) .up).positional

/-- All digits of the whole part of a finite double. -/
def exact (x : Float) : String :=
  signText x ++ toString (magnitude x).floor

end LoxLang
