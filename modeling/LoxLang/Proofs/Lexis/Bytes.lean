import Mathlib
import LoxLang.Proofs.Lexis.Lexeme

/-!
# Proofs/Lexis/Bytes — the bytes of a text

In UTF-8 an ASCII character is one byte, and all bytes of a wider character are beyond ASCII. So a
class of characters that tells no two wider ones apart (`Plain`) can be read off the bytes, and a
stretch of such characters is a stretch of bytes (`Plain.takeWhile_bytesOf`). A slice of a text is
there only between boundaries of characters.
-/

namespace LoxLang

namespace Lexis

/-- The bytes of a text. -/
def bytes (source : String) : List UInt8 :=
  source.toUTF8.data.toList

/-- The bytes of characters, one behind the other. -/
def bytesOf (cs : List Char) : List UInt8 :=
  cs.flatMap String.utf8EncodeChar

theorem bytes_eq (source : String) : bytes source = bytesOf source.toList := by
  rw [bytes, String.toUTF8_eq_toByteArray, ← String.utf8Encode_toList]
  simp [List.utf8Encode, bytesOf]

@[simp] theorem bytesOf_nil : bytesOf [] = [] := rfl

@[simp] theorem bytesOf_append (cs ds : List Char) :
    bytesOf (cs ++ ds) = bytesOf cs ++ bytesOf ds :=
  List.flatMap_append

@[simp] theorem bytesOf_cons (c : Char) (cs : List Char) :
    bytesOf (c :: cs) = String.utf8EncodeChar c ++ bytesOf cs :=
  List.flatMap_cons

/-- An ASCII character is one byte. -/
theorem utf8EncodeChar_of_lt {c : Char} (h : c.toNat < 128) :
    ∃ b, String.utf8EncodeChar c = [b] ∧ Char.ofUInt8 b = c := by
  refine ⟨UInt8.ofNat c.toNat, if_pos (Nat.le_of_lt_succ h), ?_⟩
  apply Char.ext
  apply UInt32.toNat_inj.mp
  have hmod : c.toNat % 256 = c.toNat := Nat.mod_eq_of_lt (by omega)
  simpa [Char.ofUInt8] using hmod

/-- No byte of another character is ASCII. -/
theorem le_of_mem_utf8EncodeChar {c : Char} (h : 128 ≤ c.toNat) {b : UInt8}
    (hb : b ∈ String.utf8EncodeChar c) : 128 ≤ (Char.ofUInt8 b).toNat := by
  have hvalue : (Char.ofUInt8 b).toNat = b.toNat := by
    simp [Char.ofUInt8, Char.toNat]
  have h : 128 ≤ c.val.toNat := h
  rw [hvalue]
  simp only [String.utf8EncodeChar] at hb
  split_ifs at hb <;> simp only [List.mem_cons, List.not_mem_nil, or_false] at hb
  · omega
  · rcases hb with rfl | rfl <;> rw [UInt8.toNat_ofNat'] <;> omega
  · rcases hb with rfl | rfl | rfl <;> rw [UInt8.toNat_ofNat'] <;> omega
  · rcases hb with rfl | rfl | rfl | rfl <;> rw [UInt8.toNat_ofNat'] <;> omega

/-- A class of characters that tells no two of them apart beyond ASCII. -/
def Plain (f : Char → Bool) : Prop :=
  ∀ c d : Char, 128 ≤ c.toNat → 128 ≤ d.toNat → f c = f d

/-- Every byte of a character is in a plain class if the character is. -/
theorem Plain.byte {f : Char → Bool} (hf : Plain f) {c : Char} {b : UInt8}
    (hb : b ∈ String.utf8EncodeChar c) : f (Char.ofUInt8 b) = f c := by
  rcases Nat.lt_or_ge c.toNat 128 with hc | hc
  · obtain ⟨b', hbytes, rfl⟩ := utf8EncodeChar_of_lt hc
    rw [hbytes, List.mem_singleton] at hb
    rw [hb]
  · exact hf _ _ (le_of_mem_utf8EncodeChar hc hb) hc

/-- **A stretch of a plain class is the same in bytes.** -/
theorem Plain.takeWhile_bytesOf {f : Char → Bool} (hf : Plain f) (cs : List Char) :
    (bytesOf cs).takeWhile (fun b => f (Char.ofUInt8 b)) = bytesOf (cs.takeWhile f) := by
  induction cs with
  | nil => rfl
  | cons c cs ih =>
    by_cases hc : f c
    · rw [bytesOf_cons, List.takeWhile_append_of_pos fun b hb => (hf.byte hb).trans hc, ih,
        List.takeWhile_cons_of_pos hc, bytesOf_cons]
    · obtain ⟨b, bs, hbytes⟩ := List.exists_cons_of_ne_nil (String.utf8EncodeChar_ne_nil (c := c))
      have hb : f (Char.ofUInt8 b) = f c := hf.byte (by simp [hbytes])
      rw [List.takeWhile_cons_of_neg hc, bytesOf_cons, hbytes, List.cons_append,
        List.takeWhile_cons_of_neg (by simpa [hb] using hc), bytesOf_nil]

/-- The characters of words are ASCII. -/
theorem toNat_lt_of_isWordChar {c : Char} (h : isWordChar c) : c.toNat < 128 := by
  rcases Bool.or_eq_true_iff.mp h with halnum | hunderscore
  · simp only [Char.isAlphanum, Char.isAlpha, Char.isUpper, Char.isLower, Char.isDigit,
      Bool.or_eq_true, Bool.and_eq_true, decide_eq_true_eq, ge_iff_le, UInt32.le_iff_toNat_le]
      at halnum
    have hZ : 'Z'.val.toNat = 90 := rfl
    have hz : 'z'.val.toNat = 122 := rfl
    have h9 : '9'.val.toNat = 57 := rfl
    unfold Char.toNat
    omega
  · rw [of_decide_eq_true hunderscore]
    decide

theorem isWordChar_of_isDigit {c : Char} (h : c.isDigit) : isWordChar c := by
  simp [isWordChar, Char.isAlphanum, h]

theorem isWordChar_of_isWordStart {c : Char} (h : isWordStart c) : isWordChar c := by
  simp only [isWordStart, isWordChar, Char.isAlphanum, Bool.or_eq_true] at h ⊢
  tauto

/-- A class of ASCII characters is plain. -/
theorem plain_of_lt {f : Char → Bool} (hf : ∀ c, f c → c.toNat < 128) : Plain f := by
  have hfalse (c : Char) (hc : 128 ≤ c.toNat) : f c = false := by
    by_contra h
    exact absurd (hf c (by simpa using h)) (by omega)
  intro c d hc hd
  rw [hfalse c hc, hfalse d hd]

theorem plain_isDigit : Plain Char.isDigit :=
  plain_of_lt fun _ h => toNat_lt_of_isWordChar (isWordChar_of_isDigit h)

theorem plain_isWordChar : Plain isWordChar :=
  plain_of_lt fun _ => toNat_lt_of_isWordChar

/-- All characters but one of ASCII are a plain class. -/
theorem plain_ne {d : Char} (hd : d.toNat < 128) : Plain (· ≠ d) := by
  have htrue (c : Char) (hc : 128 ≤ c.toNat) : decide (c ≠ d) = true := by
    refine decide_eq_true ?_
    rintro rfl
    omega
  exact fun c c' hc hc' => (htrue c hc).trans (htrue c' hc').symm

/-- The bytes of an ASCII character are found where the character is. -/
theorem countP_bytesOf {d : Char} (hd : d.toNat < 128) (cs : List Char) :
    (bytesOf cs).countP (fun b => Char.ofUInt8 b = d) = cs.count d := by
  induction cs with
  | nil => rfl
  | cons c cs ih =>
    rw [bytesOf_cons, List.countP_append, ih, List.count_cons, Nat.add_comm]
    congr 1
    rcases Nat.lt_or_ge c.toNat 128 with hc | hc
    · obtain ⟨b, hbytes, rfl⟩ := utf8EncodeChar_of_lt hc
      simp [hbytes, List.countP_cons]
    · have hne : c ≠ d := by
        rintro rfl
        omega
      rw [if_neg (by simpa using hne), List.countP_eq_zero]
      intro b hb
      have hle := le_of_mem_utf8EncodeChar hc hb
      simp only [decide_eq_true_eq]
      rintro rfl
      omega

/-! ## Slices -/

/-- The part of a text between two places, counted in bytes; there is none if one of them is no
boundary of characters. -/
def slice? (source : String) (i j : Nat) : Option String :=
  if h : (String.Pos.Raw.mk i).IsValid source ∧ (String.Pos.Raw.mk j).IsValid source ∧ i ≤ j then
    some (String.extract ⟨⟨i⟩, h.1⟩ ⟨⟨j⟩, h.2.1⟩)
  else none

/-- Between two characters there is a boundary. -/
theorem isValid_length (pre rest : List Char) :
    (String.Pos.Raw.mk (bytesOf pre).length).IsValid (String.ofList (pre ++ rest)) := by
  have hsize : (String.ofList pre).utf8ByteSize = (bytesOf pre).length := by
    rw [← String.size_toByteArray, String.toByteArray_ofList]
    simp [List.utf8Encode, bytesOf]
  refine String.Pos.Raw.isValid_iff_exists_append.mpr
    ⟨.ofList pre, .ofList rest, String.ofList_append, ?_⟩
  rw [String.rawEndPos, hsize]

/-- **The slice between two parts of a text is the part between them.** -/
theorem slice?_ofList (pre mid rest : List Char) :
    slice? (String.ofList (pre ++ (mid ++ rest))) (bytesOf pre).length
      ((bytesOf pre).length + (bytesOf mid).length) = some (String.ofList mid) := by
  have hj := isValid_length (pre ++ mid) rest
  rw [bytesOf_append, List.length_append, List.append_assoc] at hj
  rw [slice?, dif_pos ⟨isValid_length _ _, hj, Nat.le_add_right _ _⟩]
  congr 1
  apply String.toByteArray_inj.mp
  rw [String.toByteArray_extract, String.toByteArray_ofList, String.toByteArray_ofList]
  ext1
  apply Array.toList_inj.mp
  simp [List.utf8Encode, bytesOf]

end Lexis

end LoxLang
