import LoxLang.Decimal.Double

/-!
# Decimal/Shortest — the fewest decimal digits that identify a double

A decimal identifies a double when it lies in the interval of reals that round to it. The search
runs over ever finer decimal grids: on each grid only the two neighbours of the value need a test,
the first grid with a hit wins, and of two hits the nearer one. Everything is counted in quarters of
`10⁻¹⁰⁷⁴`, which makes the value, both ends of the interval and all grids natural numbers.
-/

namespace LoxLang

/-- The decimal number `digits * 10 ^ exponent`. -/
structure Decimal where
  digits : Nat
  exponent : Int
deriving DecidableEq, Repr

/-- Where a value halfway between two decimals goes. -/
inductive Tie where
  | up
  | toEven
deriving DecidableEq, Repr

/-- The reals that round to a value, in quarters of `10⁻¹⁰⁷⁴`. -/
structure Interval where
  low : Nat
  value : Nat
  high : Nat
  /-- The two ends belong to the interval. -/
  closed : Bool
deriving DecidableEq, Repr

/-- The interval of a double reaches halfway to its two neighbours; at the ends, the even mantissa
wins. One unit of `2⁻¹⁰⁷⁴` is `5 ^ 1074` units of `10⁻¹⁰⁷⁴`. -/
def Magnitude.interval (x : Magnitude) : Interval :=
  let quarter := Nat.pow 2 x.exponent * Nat.pow 5 1074
  let value := x.mantissa * 4 * quarter
  { low := value - (if x.narrowBelow then 1 else 2) * quarter
    value
    high := value + 2 * quarter
    closed := x.mantissa % 2 = 0 }

namespace Interval

def contains (i : Interval) (y : Nat) : Bool :=
  if i.closed then i.low ≤ y && y ≤ i.high else i.low < y && y < i.high

/-- The nearer of the neighbours `lower` and `lower + 1` of the value among multiples of `grid`. -/
def nearer (i : Interval) (tie : Tie) (grid lower : Nat) : Nat :=
  let sum := (2 * lower + 1) * grid
  if 2 * i.value < sum then lower
  else if sum < 2 * i.value then lower + 1
  else match tie with
    | .up => lower + 1
    | .toEven => lower + lower % 2

/-- The multiple of `grid` in the interval, if one of the value's two neighbours is. -/
def on? (i : Interval) (tie : Tie) (grid : Nat) : Option Nat :=
  let lower := i.value / grid
  match i.contains (lower * grid), i.contains ((lower + 1) * grid) with
  | true, true => some (i.nearer tie grid lower)
  | true, false => some lower
  | false, true => some (lower + 1)
  | false, false => none

/-- Tries the multiples of `grid`, which is `10 ^ place` units, and then finer grids, at most `n` in
all. -/
def search (i : Interval) (tie : Tie) : Nat → Nat → Nat → Option Decimal
  | 0, _, _ => none
  | n + 1, place, grid =>
    match i.on? tie grid with
    | some digits => some ⟨digits, (place : Int) - 1074⟩
    | none => search i tie n (place - 1) (grid / 10)

end Interval

namespace Decimal

/-- Moves trailing zeros of the digits into the exponent, at most `n` of them. -/
def trim : Nat → Decimal → Decimal
  | 0, d => d
  | n + 1, d =>
    if d.digits % 10 = 0 && d.digits ≠ 0 then trim n ⟨d.digits / 10, d.exponent + 1⟩ else d

/-- A place at or above the first digit of `n`, by at most two: `0.30103` is the logarithm of 2. -/
def topPlace (n : Nat) : Nat :=
  n.log2 * 30103 / 100000 + 1

/-- **The shortest decimal that identifies `x`.** Seventeen digits always do; the exact value
stands behind them as the answer that needs no argument. -/
def shortest (x : Magnitude) (tie : Tie) : Decimal :=
  if x.mantissa = 0 then ⟨0, 0⟩
  else
    let i := x.interval
    let place := topPlace (i.value / 4)
    trim 17 ((i.search tie 19 place (4 * Nat.pow 10 place)).getD ⟨i.value / 4, -1074⟩)

end Decimal

end LoxLang
