/-!
# Decimal/Double — doubles as whole multiples of the least positive double

Every finite double is a whole number of units of `2⁻¹⁰⁷⁴`, the least positive double. `Magnitude`
keeps the two numbers that its bits hold, and `Magnitude.units` is the whole number that they stand
for, so that printing and reading are arithmetic of natural numbers. `nearestBits` goes the other
way: it finds the double closest to a fraction, a half going to the even mantissa.
-/

namespace LoxLang

/-- A finite non-negative double: `mantissa * 2 ^ exponent` units of `2⁻¹⁰⁷⁴`. -/
structure Magnitude where
  mantissa : Nat
  exponent : Nat
deriving DecidableEq, Repr

namespace Magnitude

/-- The magnitude whose bits, with the sign bit left out, are `bits`. -/
def ofBits (bits : Nat) : Magnitude :=
  if bits < Nat.pow 2 52 then ⟨bits, 0⟩
  else ⟨bits % Nat.pow 2 52 + Nat.pow 2 52, bits / Nat.pow 2 52 - 1⟩

/-- The bits of a magnitude. A mantissa that has grown to `2 ^ 53` carries into the exponent. -/
def toBits (x : Magnitude) : Nat :=
  x.exponent * Nat.pow 2 52 + x.mantissa

theorem toBits_ofBits (bits : Nat) : (ofBits bits).toBits = bits := by
  have hpow : 0 < Nat.pow 2 52 := Nat.pow_pos Nat.two_pos
  unfold ofBits toBits
  generalize Nat.pow 2 52 = binade at hpow ⊢
  split
  · simp
  · next hlarge =>
    have hdiv := Nat.div_add_mod bits binade
    obtain ⟨e, he⟩ : ∃ e, bits / binade = e + 1 :=
      Nat.exists_eq_add_one.mpr (Nat.div_pos (Nat.le_of_not_lt hlarge) hpow)
    rw [he, Nat.mul_succ, Nat.mul_comm] at hdiv
    rw [he, Nat.add_sub_cancel]
    dsimp only
    omega

/-- The value of a magnitude, counted in units of `2⁻¹⁰⁷⁴`. -/
def units (x : Magnitude) : Nat :=
  x.mantissa * Nat.pow 2 x.exponent

/-- The gap to the double below is half the gap to the one above: the mantissa is the least of its
binade and there is a smaller binade. -/
def narrowBelow (x : Magnitude) : Bool :=
  x.mantissa == Nat.pow 2 52 && x.exponent != 0

/-- The value is a whole number. -/
def isWhole (x : Magnitude) : Bool :=
  x.units % Nat.pow 2 1074 == 0

/-- The whole part of the value. -/
def floor (x : Magnitude) : Nat :=
  x.units / Nat.pow 2 1074

end Magnitude

/-- The bits of positive infinity. -/
def infinityBits : Nat := 0x7ff0000000000000

/-- The sign bit is set; so it is for negative zero. -/
def isNegative (x : Float) : Bool :=
  Nat.pow 2 63 ≤ x.toBits.toNat

/-- The magnitude of a finite double. -/
def magnitude (x : Float) : Magnitude :=
  .ofBits (x.toBits.toNat % Nat.pow 2 63)

/-- A finite double with no fractional part. -/
def isWhole (x : Float) : Bool :=
  x.isFinite && (magnitude x).isWhole

/-- The quotient `n / d` rounded to the nearest whole number, a half going to the even one. -/
def roundQuotient (n d : Nat) : Nat :=
  let q := n / d
  let r := n % d
  if 2 * r < d then q else if d < 2 * r then q + 1 else q + q % 2

/-- The bits of the double nearest to `n / d`, a half going to the even mantissa; infinity when the
fraction is too large. The mantissa is rounded in the binade of the whole number of units. -/
def nearestBits (n d : Nat) : Nat :=
  let whole := n * Nat.pow 2 1074 / d
  let exponent := if whole < Nat.pow 2 53 then 0 else whole.log2 - 52
  min infinityBits
    (Magnitude.toBits ⟨roundQuotient (n * Nat.pow 2 1074) (d * Nat.pow 2 exponent), exponent⟩)

/-- The double nearest to `n / d`. -/
def nearest (n d : Nat) : Float :=
  Float.ofBits (nearestBits n d).toUInt64

end LoxLang
