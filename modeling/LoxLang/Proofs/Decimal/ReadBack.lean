import Mathlib
import LoxLang.Proofs.Decimal.Bits
import LoxLang.Proofs.Decimal.Rounding
import LoxLang.Proofs.Lexis.Lexeme
import LoxLang.Store.Value
import LoxLang.Tree.Parenthesized

/-!
# Proofs/Decimal/ReadBack — the text of a number is read as the number

The shortest digits of a double are searched in the interval of the numbers that it stands for, and
all the digits of a whole number are its value, which lies in that interval too. So each of its texts
is a lexeme that the scanner rounds back to it (`isLexeme_shortest`, `isLexeme_floor`). The sign is
not part of the lexeme: a text of a negative number is a minus and the lexeme of its magnitude
(`exists_isLexeme_numberText`).
-/

namespace LoxLang

open Lexis (IsLexeme digitsValue)

/-! ## The shortest digits identify the double -/

namespace Interval

variable {i : Interval} {tie : Tie}

/-- What is found on a grid is in the interval. -/
theorem contains_of_on? {grid digits : Nat} (h : i.on? tie grid = some digits) :
    i.contains (digits * grid) = true := by
  simp only [on?] at h
  split at h
  · next hlow hhigh =>
    cases h
    unfold nearer
    dsimp only
    split
    · exact hlow
    · split
      · exact hhigh
      · cases tie with
        | up => exact hhigh
        | toEven =>
          dsimp only
          rcases Nat.mod_two_eq_zero_or_one (i.value / grid) with h | h <;> rw [h]
          · exact hlow
          · exact hhigh
  · next hlow _ =>
    cases h
    exact hlow
  · next _ hhigh =>
    cases h
    exact hhigh
  · cases h

/-- A grid that the value lies on has a hit. -/
theorem on?_ne_none {grid : Nat} (hvalue : i.contains i.value = true) (hgrid : grid ∣ i.value) :
    i.on? tie grid ≠ none := by
  simp only [on?, Nat.div_mul_cancel hgrid, hvalue]
  split <;> simp_all

end Interval

/-- The decimal lies in the interval, which is counted in quarters of `10⁻¹⁰⁷⁴`. -/
def Decimal.Within (i : Interval) (d : Decimal) : Prop :=
  ∃ place : Nat, d.exponent = place - 1074 ∧ i.contains (d.digits * (4 * Nat.pow 10 place)) = true

namespace Decimal.Within

variable {i : Interval} {tie : Tie}

/-- **The search finds a decimal in the interval**, at whatever place it ends. -/
theorem search (hvalue : i.contains i.value = true) (hquarters : 4 ∣ i.value) :
    ∀ (n place : Nat) {d : Decimal}, i.search tie n place (4 * Nat.pow 10 place) = some d →
      d.Within i
  | 0, _, _, h => by cases h
  | n + 1, place, d, h => by
    rw [Interval.search] at h
    cases hit : i.on? tie (4 * Nat.pow 10 place) with
    | some digits =>
      rw [hit] at h
      cases h
      exact ⟨place, rfl, Interval.contains_of_on? hit⟩
    | none =>
      rw [hit] at h
      cases place with
      | zero => exact absurd hit (Interval.on?_ne_none hvalue hquarters)
      | succ place =>
        have hgrid : 4 * Nat.pow 10 (place + 1) / 10 = 4 * Nat.pow 10 place := by
          simp only [Nat.pow_eq]
          omega
        simp only [hgrid, Nat.add_sub_cancel] at h
        exact search hvalue hquarters n place h

/-- To trim zeros does not change the number. -/
theorem trim : ∀ (n : Nat) {d : Decimal}, d.Within i → (Decimal.trim n d).Within i
  | 0, _, h => h
  | n + 1, d, h => by
    rw [Decimal.trim]
    split
    · next hzero =>
      refine trim n ?_
      obtain ⟨place, hexponent, hcontains⟩ := h
      have hdigits : d.digits / 10 * 10 = d.digits :=
        Nat.div_mul_cancel (Nat.dvd_of_mod_eq_zero (by simp_all))
      have hsame : d.digits / 10 * (4 * Nat.pow 10 (place + 1)) = d.digits * (4 * Nat.pow 10 place) :=
        calc d.digits / 10 * (4 * (Nat.pow 10 place * 10))
          _ = d.digits / 10 * 10 * (4 * Nat.pow 10 place) := by ring
          _ = d.digits * (4 * Nat.pow 10 place) := by rw [hdigits]
      exact ⟨place + 1, by simp only [hexponent]; omega, hsame ▸ hcontains⟩
    · exact h

end Decimal.Within

/-- The value of a double lies in its interval, and is a whole number of units. -/
theorem Magnitude.contains_value (x : Magnitude) :
    x.interval.contains x.interval.value = true ∧ 4 ∣ x.interval.value := by
  obtain ⟨F, hF, -, heq⟩ := x.exists_interval_eq
  have hquarter : 0 < Nat.pow 2 x.exponent * F := Nat.mul_pos (Nat.two_pow_pos _) hF
  rw [heq]
  simp only [Interval.contains]
  generalize Nat.pow 2 x.exponent * F = quarter at hquarter ⊢
  refine ⟨?_, ⟨x.mantissa * quarter, by ring⟩⟩
  split
  · simp
  · next hodd =>
    have hpos : 0 < x.mantissa * 4 * quarter := by
      have hmantissa : x.mantissa ≠ 0 := fun hzero => hodd (by simp [hzero])
      positivity
    have hbelow : 0 < (if x.narrowBelow then 1 else 2) * quarter := by split <;> omega
    simp only [Bool.and_eq_true, decide_eq_true_eq]
    omega

/-- The value of a whole number is its floor. -/
theorem Magnitude.floor_scale {x : Magnitude} (h : x.isWhole = true) :
    x.floor * (4 * Nat.pow 10 1074) = x.interval.value := by
  obtain ⟨F, -, hscale, heq⟩ := x.exists_interval_eq
  have hunits : x.floor * Nat.pow 2 1074 = x.units :=
    Nat.div_mul_cancel (Nat.dvd_of_mod_eq_zero (eq_of_beq h))
  rw [hscale, hunits, heq, units]
  ring

/-- **The shortest digits lie in the interval of the double.** -/
theorem Decimal.within_shortest (x : Magnitude) (tie : Tie) :
    (Decimal.shortest x tie).Within x.interval := by
  obtain ⟨hvalue, hquarters⟩ := x.contains_value
  have hzero (h : x.mantissa = 0) : x.interval.value = 0 := by
    obtain ⟨F, -, -, heq⟩ := x.exists_interval_eq
    simp [heq, h]
  unfold Decimal.shortest
  generalize x.interval = i at hvalue hquarters hzero ⊢
  split
  · next h =>
    rw [hzero h] at hvalue
    exact ⟨1074, rfl, by rwa [Nat.zero_mul]⟩
  · refine .trim 17 ?_
    cases hsearch : i.search tie 19 (Decimal.topPlace (i.value / 4))
        (4 * Nat.pow 10 (Decimal.topPlace (i.value / 4))) with
    | some d => exact .search hvalue hquarters 19 _ hsearch
    | none =>
      -- the value itself
      have hexact : i.value / 4 * (4 * Nat.pow 10 0) = i.value := Nat.div_mul_cancel hquarters
      exact ⟨0, rfl, by rwa [Option.getD_none, hexact]⟩

/-! ## Texts of digits -/

/-- Digits are read from the left. -/
theorem digitsValue_append (ds es : List Char) :
    digitsValue (ds ++ es) = digitsValue ds * 10 ^ es.length + digitsValue es := by
  have hfold (ds : List Char) : digitsValue ds = Nat.ofDigitChars 10 ds 0 :=
    Nat.ofDigitChars_eq_foldl.symm
  rw [hfold, hfold, hfold, Nat.ofDigitChars_append, Nat.ofDigitChars_eq_ofDigitChars_zero,
    Nat.mul_comm]

theorem digitsValue_replicate_zero (k : Nat) : digitsValue (List.replicate k '0') = 0 := by
  have hfold := @Nat.ofDigitChars_replicate_zero 10 0 k
  rwa [Nat.ofDigitChars_eq_foldl, Nat.mul_zero] at hfold

/-- A number that is written is read back. -/
theorem digitsValue_toString (n : Nat) : digitsValue (toString n).toList = n := by
  have hfold := @Nat.ofDigitChars_ten_toDigits n
  rwa [Nat.ofDigitChars_eq_foldl, ← Nat.toList_repr] at hfold

theorem isDigit_of_mem_toString {n : Nat} {c : Char} (h : c ∈ (toString n).toList) :
    c.isDigit = true := by
  rw [Nat.toString_eq_ofList_toDigits, String.toList_ofList] at h
  exact Nat.isDigit_of_mem_toDigits (by decide) (by decide) h

theorem toString_ne_nil (n : Nat) : (toString n).toList ≠ [] := by
  rw [Nat.toString_eq_ofList_toDigits, String.toList_ofList]
  exact Nat.toDigits_ne_nil

/-- Digits are a number. -/
theorem isLexeme_digits {ds : List Char} (hne : ds ≠ []) (h : ∀ c ∈ ds, c.isDigit) :
    IsLexeme .number (some (.number (nearest (digitsValue ds) 1))) ds := by
  cases ds with
  | nil => exact absurd rfl hne
  | cons d ds => exact .whole h

/-- Digits with a point and places are a number. -/
theorem isLexeme_point {ds es : List Char} (hne : ds ≠ []) (h : ∀ c ∈ ds, c.isDigit)
    (hne' : es ≠ []) (h' : ∀ c ∈ es, c.isDigit) :
    IsLexeme .number (some (.number (nearest (digitsValue (ds ++ es)) (Nat.pow 10 es.length))))
      (ds ++ '.' :: es) := by
  cases ds with
  | nil => exact absurd rfl hne
  | cons d ds =>
    cases es with
    | nil => exact absurd rfl hne'
    | cons e es => exact .fraction h h'

/-- **A decimal in place is read as the double nearest to it.** -/
theorem Decimal.isLexeme_positional (d : Decimal) :
    IsLexeme .number (some (.number (nearest (d.digits * Nat.pow 10 d.exponent.toNat)
      (Nat.pow 10 (-d.exponent).toNat)))) d.positional.toList := by
  have hne : d.digitChars ≠ [] := toString_ne_nil d.digits
  have hdigits : ∀ c ∈ d.digitChars, c.isDigit := fun _ => isDigit_of_mem_toString
  have hvalue : digitsValue d.digitChars = d.digits := digitsValue_toString d.digits
  have hzeros (k : Nat) : ∀ c ∈ List.replicate k '0', c.isDigit := by simp
  simp only [positional]
  generalize d.digitChars = ds at hne hdigits hvalue ⊢
  split
  · next hexponent =>
    have hplaces : (-d.exponent).toNat = 0 := by omega
    have hlexeme := @isLexeme_digits (ds ++ List.replicate d.exponent.toNat '0') (by simp [hne])
      (List.forall_mem_append.mpr ⟨hdigits, hzeros _⟩)
    rw [digitsValue_append, hvalue, digitsValue_replicate_zero, List.length_replicate] at hlexeme
    rw [String.toList_ofList, hplaces]
    exact hlexeme
  · next hexponent =>
    have hwhole : d.exponent.toNat = 0 := by omega
    have hpos : 0 < (-d.exponent).toNat := by omega
    rw [hwhole]
    generalize (-d.exponent).toNat = places at hpos ⊢
    split
    · next hshort =>
      -- The point stands between two digits.
      have htake : ds.take (ds.length - places) ≠ [] :=
        List.ne_nil_of_length_pos (by rw [List.length_take]; omega)
      have hdrop : ds.drop (ds.length - places) ≠ [] :=
        List.ne_nil_of_length_pos (by rw [List.length_drop]; omega)
      have hlexeme := isLexeme_point htake (fun c hc => hdigits c (List.mem_of_mem_take hc)) hdrop
        (fun c hc => hdigits c (List.mem_of_mem_drop hc))
      rw [List.take_append_drop, hvalue, List.length_drop,
        Nat.sub_sub_self (Nat.le_of_lt hshort)] at hlexeme
      simpa using hlexeme
    · next hlong =>
      -- All digits stand behind the point, with zeros before them.
      have hlexeme := @isLexeme_point ['0'] (List.replicate (places - ds.length) '0' ++ ds)
        (by simp) (by simp) (by simp [hne]) (List.forall_mem_append.mpr ⟨hzeros _, hdigits⟩)
      rw [digitsValue_append, digitsValue_append, hvalue, digitsValue_replicate_zero,
        List.length_append, List.length_replicate, Nat.sub_add_cancel (Nat.le_of_not_lt hlong)]
        at hlexeme
      have hzero : digitsValue ['0'] = 0 := rfl
      simpa [hzero] using hlexeme

/-! ## Doubles -/

section

variable {x : Float}

/-- A fraction in the interval of a finite double is read as the double without its sign. -/
theorem nearest_of_contains (hx : x.isFinite = true) {n d y : Nat} (hd : 0 < d)
    (hy : n * (4 * Nat.pow 10 1074) = y * d) (h : (magnitude x).interval.contains y = true) :
    nearest n d = unsigned x := by
  rw [nearest, unsigned, Magnitude.nearestBits_of_contains (unsignedBits_lt hx) hd hy h]

/-- The shortest digits of a finite double are read back. -/
theorem isLexeme_shortest (hx : x.isFinite = true) (tie : Tie) :
    IsLexeme .number (some (.number (unsigned x)))
      (Decimal.shortest (magnitude x) tie).positional.toList := by
  obtain ⟨place, hexponent, hcontains⟩ := Decimal.within_shortest (magnitude x) tie
  have hlexeme := (Decimal.shortest (magnitude x) tie).isLexeme_positional
  generalize Decimal.shortest (magnitude x) tie = d at hexponent hcontains hlexeme ⊢
  have hscale : d.digits * Nat.pow 10 d.exponent.toNat * (4 * Nat.pow 10 1074) =
      d.digits * (4 * Nat.pow 10 place) * Nat.pow 10 (-d.exponent).toNat := by
    have hsum : d.exponent.toNat + 1074 = place + (-d.exponent).toNat := by omega
    generalize 1074 = k at hsum ⊢
    simp only [Nat.pow_eq]
    calc d.digits * 10 ^ d.exponent.toNat * (4 * 10 ^ k)
      _ = d.digits * 4 * 10 ^ (d.exponent.toNat + k) := by rw [pow_add]; ring
      _ = d.digits * (4 * 10 ^ place) * 10 ^ (-d.exponent).toNat := by rw [hsum, pow_add]; ring
  have hpos : 0 < Nat.pow 10 (-d.exponent).toNat := Nat.pow_pos (by decide)
  rwa [nearest_of_contains hx hpos hscale hcontains] at hlexeme

/-- A whole number is read back from all its digits, also with a place behind the point. -/
theorem isLexeme_floor (hx : x.isFinite = true) (hwhole : (magnitude x).isWhole = true) :
    IsLexeme .number (some (.number (unsigned x))) (toString (magnitude x).floor).toList ∧
      IsLexeme .number (some (.number (unsigned x)))
        ((toString (magnitude x).floor).toList ++ ['.', '0']) := by
  have hcontains := (magnitude x).contains_value.1
  have hfloor := Magnitude.floor_scale hwhole
  have hdigits : ∀ c ∈ (toString (magnitude x).floor).toList, c.isDigit :=
    fun _ => isDigit_of_mem_toString
  have hne := toString_ne_nil (magnitude x).floor
  have hlexeme := isLexeme_digits hne hdigits
  have hpoint := @isLexeme_point _ ['0'] hne hdigits (by simp) (by simp)
  have hzero : digitsValue ['0'] = 0 := rfl
  rw [digitsValue_toString] at hlexeme
  rw [digitsValue_append, digitsValue_toString, hzero, Nat.add_zero, List.length_singleton,
    Nat.pow_eq, pow_one] at hpoint
  rw [nearest_of_contains hx Nat.one_pos (by rw [hfloor, Nat.mul_one]) hcontains] at hlexeme
  have hten : (magnitude x).floor * 10 * (4 * Nat.pow 10 1074) =
      (magnitude x).interval.value * 10 := by
    rw [← hfloor]
    ring
  rw [nearest_of_contains hx (by decide) hten hcontains] at hpoint
  exact ⟨hlexeme, hpoint⟩

/-- A finite number is written with its sign and its shortest digits. -/
theorem plain_of_isFinite (hx : x.isFinite = true) :
    plain x = signText x ++ (Decimal.shortest (magnitude x) .up).positional := by
  have hnumber : x.isNaN = false ∧ x.isInf = false := by
    simp only [Float.isFinite, Float.isNaN, Float.isInf, Float.Model.isFinite, Float.Model.isNaN,
      Float.Model.isInf] at hx ⊢
    cases hunpack : x.toModel.unpack <;> simp_all [Float.Model.UnpackedFloat.isFinite,
      Float.Model.UnpackedFloat.isNaN, Float.Model.UnpackedFloat.isInf]
  rw [plain, hnumber.1, hnumber.2]
  rfl

/-- **The text of a number is its sign and a literal that is read as the number without it.** -/
theorem exists_isLexeme_numberText (hx : x.isFinite = true) : ∃ ds,
    (Value.numberText x).toList = (signText x).toList ++ ds ∧
      IsLexeme .number (some (.number (unsigned x))) ds := by
  unfold Value.numberText
  split
  · next hwhole =>
    have hwhole : (magnitude x).isWhole = true := (Bool.and_eq_true_iff.mp hwhole).2
    exact ⟨_, String.toList_append, (isLexeme_floor hx hwhole).1⟩
  · rw [plain_of_isFinite hx]
    exact ⟨_, String.toList_append, isLexeme_shortest hx .up⟩

/-- **In the text of a tree a number is a literal that is read as the number.** -/
theorem isLexeme_treeText (hx : x.isFinite = true) (hsign : isNegative x = false) :
    IsLexeme .number (some (.number x)) (Constant.number x).treeText.toList := by
  have hnone : signText x = "" := by simp [signText, hsign]
  simp only [Constant.treeText]
  split
  · next hwhole =>
    have hwhole : (magnitude x).isWhole = true := (Bool.and_eq_true_iff.mp hwhole).2
    have hlexeme := (isLexeme_floor hx hwhole).2
    rw [unsigned_of_not_isNegative hsign] at hlexeme
    simpa [exact, hnone] using hlexeme
  · have hlexeme := isLexeme_shortest hx .up
    rw [unsigned_of_not_isNegative hsign] at hlexeme
    simpa [plain_of_isFinite hx, hnone] using hlexeme

end

end LoxLang
