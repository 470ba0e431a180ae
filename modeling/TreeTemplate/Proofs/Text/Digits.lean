import Mathlib.Algebra.Ring.Nat
import Mathlib.Tactic.ByContra
import TreeTemplate.Text.DecimalDigit
import TreeTemplate.Text.Integer

/-! # Digit texts

A row of digits is a numeral: `natOfDigits` undoes `Nat.toDigits`, rows behind one another
multiply by powers of ten, and the length of a numeral says between which powers of ten its
number lies.
-/
namespace TreeTemplate.Text

theorem natOfDigits_eq (cs : List Char) : natOfDigits cs = Nat.ofDigitChars 10 cs 0 := by
  simp [natOfDigits, ofDigits, Nat.ofDigitChars_eq_foldl, List.foldl_map]

theorem natOfDigits_append (cs ds : List Char) :
    natOfDigits (cs ++ ds) = natOfDigits cs * 10 ^ ds.length + natOfDigits ds := by
  simp only [natOfDigits_eq, Nat.ofDigitChars_append]
  rw [Nat.ofDigitChars_eq_ofDigitChars_zero, Nat.mul_comm]

theorem natOfDigits_zeros (n : Nat) : natOfDigits (List.replicate n '0') = 0 := by
  simp [natOfDigits_eq]

theorem natOfDigits_toDigits (n : Nat) : natOfDigits (Nat.toDigits 10 n) = n := by
  rw [natOfDigits_eq, Nat.ofDigitChars_ten_toDigits]

theorem isAsciiDigit_of_isDigit {c : Char} (h : c.isDigit = true) : isAsciiDigit c = true := by
  simpa [Char.isDigit, isAsciiDigit, Char.le_def] using h

theorem isAsciiDigit_of_mem_toDigits {n : Nat} {c : Char} (h : c ∈ Nat.toDigits 10 n) :
    isAsciiDigit c = true :=
  isAsciiDigit_of_isDigit (Nat.isDigit_of_mem_toDigits (by decide) (by decide) h)

theorem isAsciiDigit_of_mem_zeros {n : Nat} {c : Char} (h : c ∈ List.replicate n '0') :
    isAsciiDigit c = true := by
  rw [List.eq_of_mem_replicate h]
  decide

/-- A number with a numeral of a given length is below the power of ten with as many zeros. -/
theorem length_toDigits_le {n k : Nat} (hk : 0 < k) :
    (Nat.toDigits 10 n).length ≤ k ↔ n < 10 ^ k :=
  Nat.length_toDigits_le_iff (by decide) hk

theorem lt_pow_length_toDigits (n : Nat) : n < 10 ^ (Nat.toDigits 10 n).length :=
  (length_toDigits_le Nat.length_toDigits_pos).mp (Nat.le_refl _)

theorem pow_le_of_lt_length_toDigits {n k : Nat} (h : k < (Nat.toDigits 10 n).length)
    (hn : 0 < n) : 10 ^ k ≤ n := by
  rcases Nat.eq_zero_or_pos k with rfl | hk
  · simpa using Nat.succ_le_of_lt hn
  · by_contra hlt
    rw [Nat.not_le, ← length_toDigits_le hk] at hlt
    omega

/-- Zeros at the end of a numeral multiply its number by a power of ten. -/
theorem length_toDigits_mul_pow {n : Nat} (hn : 0 < n) (k : Nat) :
    (Nat.toDigits 10 (n * 10 ^ k)).length = (Nat.toDigits 10 n).length + k := by
  have hpos := Nat.length_toDigits_pos (b := 10) (n := n)
  apply Nat.le_antisymm
  · rw [length_toDigits_le (by omega), Nat.pow_add]
    exact Nat.mul_lt_mul_of_pos_right (lt_pow_length_toDigits n) (Nat.pow_pos (by decide))
  · have hlow : 10 ^ ((Nat.toDigits 10 n).length - 1) ≤ n :=
      pow_le_of_lt_length_toDigits (by omega) hn
    have hscaled : 10 ^ ((Nat.toDigits 10 n).length - 1 + k) ≤ n * 10 ^ k := by
      rw [Nat.pow_add]
      exact Nat.mul_le_mul_right _ hlow
    by_contra hlt
    have hpos' := Nat.length_toDigits_pos (b := 10) (n := n * 10 ^ k)
    have hle : (Nat.toDigits 10 (n * 10 ^ k)).length ≤ (Nat.toDigits 10 n).length - 1 + k := by
      omega
    rw [length_toDigits_le (by omega)] at hle
    omega

end TreeTemplate.Text
