import Mathlib
import LoxLang.Decimal.Shortest

/-!
# Proofs/Decimal/Rounding — what lies in the interval of a double is rounded to it

`Magnitude.interval` says which numbers a double stands for, and `nearestBits` rounds a fraction to
a double. They agree: a fraction in the interval of a double is rounded to that double
(`Magnitude.nearestBits_of_contains`). Only at the least mantissa of a binade is the fraction
rounded in another binade than that of the double, namely in the one below.

Fractions are compared by cross-multiplication. A fraction `n / d` has `u = n * 2 ^ 1074` units of
`2⁻¹⁰⁷⁴` times its denominator, and the denominator is `D = d * 2 ^ e` in the binade `e`.
-/

namespace LoxLang

/-! ## Rounding a fraction -/

/-- A quotient is rounded to the number that is at most a half away from it. If it is just a half,
the number has to be even. -/
theorem roundQuotient_eq {n d q : Nat} (hd : 0 < d) (hlow : 2 * (q * d) ≤ 2 * n + d)
    (hhigh : 2 * n ≤ 2 * (q * d) + d)
    (hodd : q % 2 = 1 → 2 * (q * d) < 2 * n + d ∧ 2 * n < 2 * (q * d) + d) :
    roundQuotient n d = q := by
  have hsplit := Nat.div_add_mod n d
  have hrest := Nat.mod_lt n hd
  unfold roundQuotient
  generalize n / d = k at hsplit ⊢
  generalize n % d = r at hsplit hrest ⊢
  subst hsplit
  have hle : k ≤ q := by
    by_contra h
    have hmul : (q + 1) * d ≤ k * d := Nat.mul_le_mul_right d (by omega)
    linarith
  have hge : q ≤ k + 1 := by
    by_contra h
    have hmul : (k + 2) * d ≤ q * d := Nat.mul_le_mul_right d (by omega)
    linarith
  obtain rfl | rfl : q = k ∨ q = k + 1 := by omega
  · have hr : 2 * r ≤ d := by linarith
    have hr' (h : q % 2 = 1) : 2 * r < d := by linarith [hodd h]
    grind
  · have hr : d ≤ 2 * r := by linarith
    have hr' (h : (k + 1) % 2 = 1) : d < 2 * r := by linarith [hodd h]
    grind

/-- The exponent of the binade in which a whole number of units lies. -/
theorem exponent_eq {whole e : Nat} (hhigh : whole < 2 ^ (53 + e))
    (hlow : e = 0 ∨ 2 ^ (52 + e) ≤ whole) :
    (if whole < Nat.pow 2 53 then 0 else whole.log2 - 52) = e := by
  rcases Nat.eq_zero_or_pos e with rfl | hpos
  · exact if_pos hhigh
  · have hlow : 2 ^ (52 + e) ≤ whole := hlow.resolve_left hpos.ne'
    have hlarge : 2 ^ 53 ≤ whole := (Nat.pow_le_pow_right Nat.two_pos (by omega)).trans hlow
    have hlog : whole.log2 = 52 + e :=
      (Nat.log2_eq_iff (by omega)).mpr ⟨hlow, by rwa [Nat.add_right_comm]⟩
    rw [Nat.pow_eq, if_neg (Nat.not_lt.mpr hlarge), hlog, Nat.add_sub_cancel_left]

/-- A fraction is rounded in the binade in which it lies. -/
theorem nearestBits_eq {n d m e u D : Nat} (hd : 0 < d) (hu : n * Nat.pow 2 1074 = u)
    (hD : d * Nat.pow 2 e = D) (hhigh : u < 2 ^ 53 * D) (hlow : e = 0 ∨ 2 ^ 52 * D ≤ u)
    (hround : roundQuotient u D = m) (hfinite : e * Nat.pow 2 52 + m < infinityBits) :
    nearestBits n d = e * Nat.pow 2 52 + m := by
  have hscale (k : Nat) : 2 ^ (k + e) * d = 2 ^ k * D := by
    rw [← hD, Nat.pow_eq, Nat.pow_add]
    ring
  have hexponent : (if u / d < Nat.pow 2 53 then 0 else (u / d).log2 - 52) = e := by
    refine exponent_eq ?_ ?_
    · rwa [Nat.div_lt_iff_lt_mul hd, hscale]
    · rwa [Nat.le_div_iff_mul_le hd, hscale]
  simp only [nearestBits, hu, hexponent, hD, hround, Magnitude.toBits]
  exact Nat.min_eq_right hfinite.le

namespace Magnitude

/-! ## The interval of a double -/

/-- The mantissa has at most 53 bits, and just so many in every binade but the lowest. -/
theorem ofBits_legal (bits : Nat) : (ofBits bits).mantissa < 2 ^ 53 ∧
    ((ofBits bits).exponent = 0 ∨ 2 ^ 52 ≤ (ofBits bits).mantissa) := by
  have hmod : bits % Nat.pow 2 52 < 2 ^ 52 := Nat.mod_lt bits (Nat.two_pow_pos 52)
  unfold ofBits
  split
  · next h => exact ⟨h.trans (by decide), .inl rfl⟩
  · simp only [Nat.pow_eq] at hmod ⊢
    omega

/-- The interval is made of quarters of the last place. One unit of `2⁻¹⁰⁷⁴` is `F` units of
`10⁻¹⁰⁷⁴`, and nothing else has to be known of `F`. -/
theorem exists_interval_eq (x : Magnitude) : ∃ F, 0 < F ∧
    (∀ n, n * (4 * Nat.pow 10 1074) = 4 * (n * Nat.pow 2 1074) * F) ∧
    x.interval =
      { low := x.mantissa * 4 * (Nat.pow 2 x.exponent * F) -
          (if x.narrowBelow then 1 else 2) * (Nat.pow 2 x.exponent * F)
        value := x.mantissa * 4 * (Nat.pow 2 x.exponent * F)
        high := x.mantissa * 4 * (Nat.pow 2 x.exponent * F) + 2 * (Nat.pow 2 x.exponent * F)
        closed := x.mantissa % 2 = 0 } := by
  refine ⟨Nat.pow 5 1074, ?_, fun n => ?_, rfl⟩
  · generalize 1074 = k
    exact Nat.pow_pos (by decide)
  · generalize 1074 = k
    simp only [Nat.pow_eq, show 10 = 2 * 5 from rfl, Nat.mul_pow]
    ring

/-- The bounds of the interval, for a fraction and without their common factor. -/
theorem bounds_of_contains {x : Magnitude} {n d y u D : Nat} (hd : 0 < d)
    (hu : n * Nat.pow 2 1074 = u) (hD : d * Nat.pow 2 x.exponent = D)
    (hy : n * (4 * Nat.pow 10 1074) = y * d) (h : x.interval.contains y = true) :
    4 * (x.mantissa * D) ≤ 4 * u + (if x.narrowBelow then 1 else 2) * D ∧
      4 * u ≤ 4 * (x.mantissa * D) + 2 * D ∧
      (x.mantissa % 2 = 1 →
        4 * (x.mantissa * D) < 4 * u + (if x.narrowBelow then 1 else 2) * D ∧
          4 * u < 4 * (x.mantissa * D) + 2 * D) := by
  obtain ⟨F, hF, hscale, hinterval⟩ := x.exists_interval_eq
  have hyd : 4 * u * F = y * d := by rw [← hy, hscale, hu]
  rw [hinterval] at h
  simp only [Interval.contains] at h
  generalize (if x.narrowBelow then 1 else 2) = k at h ⊢
  generalize Nat.pow 2 x.exponent = p at h hD
  generalize x.mantissa = m at h ⊢
  -- both sides of a bound are those of the interval, times the denominator
  have hle {a b a' b' : Nat} (ha : a * F = a' * d) (hb : b * F = b' * d) : a ≤ b ↔ a' ≤ b' := by
    rw [← Nat.mul_le_mul_right_iff hF, ha, hb, Nat.mul_le_mul_right_iff hd]
  have hlt {a b a' b' : Nat} (ha : a * F = a' * d) (hb : b * F = b' * d) : a < b ↔ a' < b' := by
    rw [← Nat.not_le, ← Nat.not_le, hle hb ha]
  have hvalue : 4 * (m * D) * F = m * 4 * (p * F) * d := by
    rw [← hD]
    ring
  have hhigh : (4 * (m * D) + 2 * D) * F = (m * 4 * (p * F) + 2 * (p * F)) * d := by
    rw [← hD]
    ring
  have hlow : (4 * u + k * D) * F = (y + k * (p * F)) * d := by
    rw [Nat.add_mul, hyd, ← hD]
    ring
  rw [hle hvalue hlow, hle hyd hhigh, hlt hvalue hlow, hlt hyd hhigh]
  split at h <;> simp only [Bool.and_eq_true, decide_eq_true_eq] at * <;> omega

/-- A fraction not far below the least double of a binade lies in the binade below, where its
mantissa is rounded up to `2 ^ 53`. -/
theorem nearestBits_of_carry {n d u e D : Nat} (hd : 0 < d) (hu : n * Nat.pow 2 1074 = u)
    (hD : d * Nat.pow 2 (e + 1) = D) (hless : u < 2 ^ 52 * D)
    (hlow : 4 * (2 ^ 52 * D) ≤ 4 * u + 1 * D)
    (hbits : (e + 1) * Nat.pow 2 52 + 2 ^ 52 < infinityBits) :
    nearestBits n d = (e + 1) * Nat.pow 2 52 + 2 ^ 52 := by
  obtain ⟨D', hD'⟩ : ∃ D', d * Nat.pow 2 e = D' := ⟨_, rfl⟩
  have hdouble : D = 2 * D' := by
    rw [← hD, ← hD', Nat.pow_eq, Nat.pow_eq, Nat.pow_succ]
    ring
  rw [hdouble] at hlow hless
  have hDpos : 0 < D' := hD' ▸ Nat.mul_pos hd (Nat.two_pow_pos e)
  have hround : roundQuotient u D' = 2 ^ 53 :=
    roundQuotient_eq hDpos (by omega) (by omega) (by omega)
  have hcarry : e * Nat.pow 2 52 + 2 ^ 53 = (e + 1) * Nat.pow 2 52 + 2 ^ 52 := by
    rw [Nat.pow_eq]
    ring
  rw [← hcarry] at hbits ⊢
  exact nearestBits_eq hd hu hD' (by omega) (.inr (by omega)) hround hbits

/-- **A fraction in the interval of a double is rounded to it.** -/
theorem nearestBits_of_contains {bits n d y : Nat} (hbits : bits < infinityBits) (hd : 0 < d)
    (hy : n * (4 * Nat.pow 10 1074) = y * d) (h : (ofBits bits).interval.contains y = true) :
    nearestBits n d = bits := by
  obtain ⟨u, hu⟩ : ∃ u, n * Nat.pow 2 1074 = u := ⟨_, rfl⟩
  obtain ⟨D, hD⟩ : ∃ D, d * Nat.pow 2 (ofBits bits).exponent = D := ⟨_, rfl⟩
  obtain ⟨hlow, hhigh, hodd⟩ := bounds_of_contains hd hu hD hy h
  obtain ⟨hmantissa, hleast⟩ := ofBits_legal bits
  have hvalue : (ofBits bits).exponent * Nat.pow 2 52 + (ofBits bits).mantissa = bits :=
    toBits_ofBits bits
  rw [← hvalue] at hbits ⊢
  generalize ofBits bits = x at *
  obtain ⟨m, e⟩ := x
  dsimp only at *
  clear h hy hvalue
  -- Below a power of two the doubles are twice as dense. Only there the quotient is rounded on the
  -- finer grid, and carries up to the power.
  by_cases hbelow : u < m * D ∧ narrowBelow ⟨m, e⟩ = true
  · obtain ⟨hless, hnarrow⟩ := hbelow
    obtain ⟨rfl, he⟩ : m = 2 ^ 52 ∧ e ≠ 0 := by simpa [narrowBelow] using hnarrow
    obtain ⟨e, rfl⟩ := Nat.exists_eq_add_one_of_ne_zero he
    rw [if_pos hnarrow] at hlow
    exact nearestBits_of_carry hd hu hD hless hlow hbits
  · have hDpos : 0 < D := hD ▸ Nat.mul_pos hd (Nat.two_pow_pos e)
    have hroom : (m + 1) * D ≤ 2 ^ 53 * D := Nat.mul_le_mul_right D hmantissa
    have hfits : u < 2 ^ 53 * D := by linarith
    by_cases hnarrow : narrowBelow ⟨m, e⟩ = true
    · have habove : m * D ≤ u := Nat.le_of_not_lt fun hless => hbelow ⟨hless, hnarrow⟩
      obtain ⟨rfl, -⟩ : m = 2 ^ 52 ∧ e ≠ 0 := by simpa [narrowBelow] using hnarrow
      have hround : roundQuotient u D = 2 ^ 52 :=
        roundQuotient_eq hDpos (by omega) (by omega) (by omega)
      exact nearestBits_eq hd hu hD hfits (.inr habove) hround hbits
    · rw [if_neg hnarrow] at hlow hodd
      have hround : roundQuotient u D = m := by
        refine roundQuotient_eq hDpos (by omega) (by omega) fun hm => ?_
        obtain ⟨hlow, hhigh⟩ := hodd hm
        omega
      have hlow' : e = 0 ∨ 2 ^ 52 * D ≤ u := by
        refine Classical.or_iff_not_imp_left.mpr fun he => ?_
        have hne : m ≠ 2 ^ 52 := fun hm => hnarrow (by simp [narrowBelow, hm, he])
        have hmore : (2 ^ 52 + 1) * D ≤ m * D :=
          Nat.mul_le_mul_right D (Nat.lt_of_le_of_ne (hleast.resolve_left he) hne.symm)
        linarith
      exact nearestBits_eq hd hu hD hfits hlow' hround hbits

end Magnitude

end LoxLang
