import SkinnyArm.Rootfs.Fields

/-!
`int_from_string` as a reader of hexadecimal numbers.

* **Words.** Up to fifteen characters the unsigned total of the code neither wraps nor meets the
  word that stands for -1, so the code computes `intFromString` (`intFromStringWord_eq`).
* `intFromString_hex`: so it reads `0` to `9` and `A` to `F` as a number in base 16, most
  significant digit first, gives -1 for any other string, and reads back what eight digits encode.
-/

namespace SkinnyArm

open Newc

variable {s s' : List (BitVec 8)} {a a' n : ℕ} {c : BitVec 8}

/-! ### Words -/

/-- A character is -1 or a digit. -/
lemma intFromChar_lt (c : BitVec 8) : intFromChar c < 16 := by
  by_cases hupper : IsDecimal c ∨ IsUpper c
  · obtain ⟨d, hd, hchar⟩ := digit_of_upper hupper
    have hlt := digit_lt hd
    omega
  · rw [intFromChar_eq_neg_one.mpr hupper]
    norm_num

/-- The word of a character is the one of -1 exactly if the character is. -/
lemma ofInt_intFromChar_eq_iff :
    BitVec.ofInt 64 (intFromChar c) = -1#64 ↔ intFromChar c = -1 := by
  have hge := intFromChar_ge c
  have hlt := intFromChar_lt c
  refine ⟨fun h => ?_, fun h => by rw [h]; rfl⟩
  have hint : (BitVec.ofInt 64 (intFromChar c)).toInt = (-1#64).toInt := by rw [h]
  rw [BitVec.toInt_ofInt_eq_self (by norm_num) (by omega) (by omega)] at hint
  rw [hint]
  rfl

/-- A character that is not -1 is a digit, and its word is the digit's. -/
lemma exists_digit (hneg : intFromChar c ≠ -1) : ∃ d < 16, intFromChar c = ((d : ℕ) : ℤ) ∧
    BitVec.ofInt 64 (intFromChar c) = BitVec.ofNat 64 d := by
  have hge := intFromChar_ge c
  have hlt := intFromChar_lt c
  obtain ⟨d, hd⟩ := Int.eq_ofNat_of_zero_le (show 0 ≤ intFromChar c by omega)
  refine ⟨d, by omega, hd, ?_⟩
  rw [hd, BitVec.ofInt_natCast]

/-- A total of at most fifteen digits stays apart from the words that are negative. -/
lemma intFromStringWordLoop_toInt {k t : ℕ} (hk : k + n ≤ 15) (ht : t < 16 ^ k) :
    (intFromStringWordLoop s n a (BitVec.ofNat 64 t)).toInt = intFromStringLoop s n a t := by
  induction n generalizing a k t with
  | zero =>
      have hpow : 16 ^ k ≤ 16 ^ 15 := Nat.pow_le_pow_right (by norm_num) (by omega)
      have hval : (BitVec.ofNat 64 t).toNat = t := by
        rw [BitVec.toNat_ofNat, Nat.mod_eq_of_lt (by omega)]
      rw [intFromStringWordLoop, intFromStringLoop,
        BitVec.toInt_eq_toNat_of_lt (by rw [hval]; omega), hval]
  | succ n ih =>
      rw [intFromStringWordLoop, intFromStringLoop]
      by_cases hneg : intFromChar (byteAt s a) = -1
      · simp only [hneg, if_pos (show BitVec.ofInt 64 (-1) = -1#64 from rfl), if_true]
        rfl
      · obtain ⟨d, hlt, hd, hdigit⟩ := exists_digit hneg
        have hword : BitVec.ofNat 64 t * 16 + BitVec.ofInt 64 (intFromChar (byteAt s a)) =
            BitVec.ofNat 64 (t * 16 + d) := by
          rw [hdigit, BitVec.ofNat_add, BitVec.ofNat_mul]
          rfl
        have hcast : (t : ℤ) * 16 + intFromChar (byteAt s a) = ((t * 16 + d : ℕ) : ℤ) := by
          rw [hd]
          push_cast
          ring
        have hnext : t * 16 + d < 16 ^ (k + 1) := by
          rw [pow_succ]
          omega
        simp only [ofInt_intFromChar_eq_iff.not.mpr hneg, hneg, if_false, hword, hcast]
        exact ih (by omega) hnext

/-- **The words of the code**: up to fifteen characters they are the numbers they stand for. -/
lemma intFromStringWord_eq (hn : n ≤ 15) (s : List (BitVec 8)) (a : ℕ) :
    intFromStringWord s a n = intFromString s a n := by
  cases n with
  | zero => rfl
  | succ n =>
      rw [intFromStringWord, intFromString, if_neg n.succ_ne_zero, if_neg n.succ_ne_zero]
      by_cases hneg : intFromChar (byteAt s a) = -1
      · rw [if_pos hneg]
        exact if_pos (ofInt_intFromChar_eq_iff.mpr hneg)
      · obtain ⟨d, hlt, hd, hdigit⟩ := exists_digit hneg
        rw [if_neg hneg]
        simp only [ofInt_intFromChar_eq_iff.not.mpr hneg, if_false]
        rw [hdigit, hd]
        exact intFromStringWordLoop_toInt (k := 1) (by omega) (by omega)

/-! ### The characters read -/

/-- Only the characters of the string are read. -/
lemma intFromStringLoop_congr {total : ℤ} (h : ∀ i < n, byteAt s (a + i) = byteAt s' (a' + i)) :
    intFromStringLoop s n a total = intFromStringLoop s' n a' total := by
  induction n generalizing a a' total with
  | zero => rfl
  | succ n ih =>
      have hrest : ∀ i < n, byteAt s (a + 1 + i) = byteAt s' (a' + 1 + i) := fun i hi => by
        have hi' := h (i + 1) (by omega)
        rwa [Nat.add_comm i 1, ← Nat.add_assoc, ← Nat.add_assoc] at hi'
      rw [intFromStringLoop, intFromStringLoop, ih hrest, show byteAt s a = byteAt s' a' from
        h 0 n.succ_pos]

/-- The string alone gives the same number. -/
lemma intFromString_bytesAt (s : List (BitVec 8)) (a n : ℕ) :
    intFromString s a n = intFromString (bytesAt s a n) 0 (bytesAt s a n).length := by
  have hlen : (bytesAt s a n).length = n := by simp [bytesAt]
  rw [intFromString_eq_loop, intFromString_eq_loop, hlen]
  refine intFromStringLoop_congr fun i hi => ?_
  rw [(at_self (bytesAt s a n)).byteAt (by rw [hlen]; exact hi)]
  simp [bytesAt]

/-- The number that a string of hexadecimal digits stands for, most significant digit first. -/
def hexValue (l : List (BitVec 8)) : ℕ := Nat.ofDigits 16 (l.reverse.map digitValue)

lemma value_eq_hexValue {l : List (BitVec 8)} (h : IsUpperField l) :
    value l = some (hexValue l) := by
  have hdigit : ∀ c ∈ l, (digit c).isSome := fun c hc =>
    digit_isSome.mpr ((h c hc).imp_right .inl)
  rw [value, valueFrom_eq_ofDigits 0 hdigit, zero_mul, zero_add]
  rfl

/-- **`int_from_string`** on up to fifteen characters: a string in `0` to `9` and `A` to `F` is read
as the number it stands for, and any other as -1; so eight digits are read back as the number they
were written for, and no number is read as -1. -/
theorem intFromString_hex (s : List (BitVec 8)) (a : ℕ) (hn : n ≤ 15) :
    (IsUpperField (bytesAt s a n) →
        intFromStringWord s a n = hexValue (bytesAt s a n) ∧ intFromStringWord s a n ≠ -1) ∧
      (¬ IsUpperField (bytesAt s a n) → intFromStringWord s a n = -1) ∧
      (∀ v < 2 ^ 32, bytesAt s a n = digits 8 v → intFromStringWord s a n = v) := by
  have hread : ∀ {w : ℕ}, IsUpperField (bytesAt s a n) → value (bytesAt s a n) = some w →
      intFromStringWord s a n = w := fun hupper hw => by
    rw [intFromStringWord_eq hn, intFromString_bytesAt]
    exact intFromString_of_isUpperField (at_self _) hupper hw
  refine ⟨fun hupper => ?_, fun hupper => ?_, fun v hv hdigits => ?_⟩
  · have hvalue := hread hupper (value_eq_hexValue hupper)
    exact ⟨hvalue, by rw [hvalue]; omega⟩
  · rw [intFromStringWord_eq hn, intFromString_bytesAt]
    exact intFromString_of_not_isUpperField (at_self _) hupper
  · refine hread (hdigits ▸ isUpperField_digits 8 v) ?_
    rw [hdigits]
    exact value_digits (by norm_num; omega)

/-- The two characters `1F`. -/
theorem intFromString_hex_two :
    intFromStringWord [0x31, 0x46] 0 2 = (hexValue [0x31, 0x46] : ℤ) :=
  ((intFromString_hex [0x31, 0x46] 0 (by norm_num)).1 (by decide)).1

end SkinnyArm
