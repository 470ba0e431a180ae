import Mathlib.Algebra.Order.Field.Power
import Mathlib.Algebra.Order.Field.Rat
import Mathlib.Data.Int.Log
import Mathlib.Data.Rat.Floor
import Mathlib.Tactic.Positivity
import Mathlib.Tactic.Ring
import TreeTemplate.Binary64.Rounding

/-! # Rounding depends on the quotient only

A quotient of naturals may be written in many ways, and all of them round to the same rank
(`roundedRank_congr`).  A quotient that is a finite number exactly rounds to that number
(`roundedRank_fraction`).  Powers of two are compared in `ℚ`, where the exponent of the last
place is a logarithm.
-/
namespace TreeTemplate.Binary64

/-! ## The nearest integer -/

theorem roundHalfEven_mul_right (n d : Nat) {k : Nat} (hk : 0 < k) :
    roundHalfEven (n * k) (d * k) = roundHalfEven n d := by
  have hlow : 2 * (n * k % (d * k)) < d * k ↔ 2 * (n % d) < d := by
    rw [Nat.mul_mod_mul_right, ← Nat.mul_assoc, Nat.mul_lt_mul_right hk]
  have hhigh : d * k < 2 * (n * k % (d * k)) ↔ d < 2 * (n % d) := by
    rw [Nat.mul_mod_mul_right, ← Nat.mul_assoc, Nat.mul_lt_mul_right hk]
  simp only [roundHalfEven, hlow, hhigh, Nat.mul_div_mul_right _ _ hk]

theorem roundHalfEven_one (n : Nat) : roundHalfEven n 1 = n := by
  simp [roundHalfEven, Nat.mod_one]

/-- The nearest integer is one of the two around the quotient. -/
theorem roundHalfEven_eq (n d : Nat) :
    roundHalfEven n d = n / d ∨ roundHalfEven n d = n / d + 1 := by
  unfold roundHalfEven
  have hmod := Nat.mod_two_eq_zero_or_one (n / d)
  grind

/-! ## The exponent of the last place -/

theorem descale_mul_right (n d k : Nat) (e : Int) :
    descale (n * k) (d * k) e = ((descale n d e).1 * k, (descale n d e).2 * k) := by
  unfold descale
  split
  · simp [Nat.mul_right_comm]
  · simp [Nat.mul_right_comm]

/-- A power of two is below a quotient if the quotient that it is taken out of is at least
one. -/
theorem descale_le_iff (n : Nat) {d : Nat} (hd : 0 < d) (e : Int) :
    (descale n d e).2 ≤ (descale n d e).1 ↔ (2 : ℚ) ^ e ≤ (n : ℚ) / d := by
  have hdpos : (0 : ℚ) < d := by exact_mod_cast hd
  unfold descale
  split
  · rename_i he
    obtain ⟨k, rfl⟩ := Int.eq_ofNat_of_zero_le he
    rw [le_div_iff₀ hdpos, mul_comm]
    norm_cast
  · rename_i he
    obtain ⟨k, hk⟩ := Int.eq_ofNat_of_zero_le (a := -e) (by omega)
    obtain rfl : e = -k := by omega
    rw [le_div_iff₀ hdpos, zpow_neg, inv_mul_le_iff₀ (by positivity)]
    simp only [neg_neg, Int.toNat_natCast, mul_comm n]
    norm_cast

theorem floorLog2_eq {n d : Nat} (hn : 0 < n) (hd : 0 < d) :
    floorLog2 n d = Int.log 2 ((n : ℚ) / d) := by
  have hdpos : (0 : ℚ) < d := by exact_mod_cast hd
  have hpos : (0 : ℚ) < (n : ℚ) / d := by positivity
  set e : Int := (n.log2 : Int) - d.log2 with he
  have hn1 : ((2 : ℚ) ^ n.log2) ≤ n := by exact_mod_cast Nat.log2_self_le (by omega)
  have hn2 : (n : ℚ) < (2 : ℚ) ^ (n.log2 + 1) := by exact_mod_cast Nat.lt_log2_self
  have hd1 : ((2 : ℚ) ^ d.log2) ≤ d := by exact_mod_cast Nat.log2_self_le (by omega)
  have hd2 : (d : ℚ) < (2 : ℚ) ^ (d.log2 + 1) := by exact_mod_cast Nat.lt_log2_self
  -- the logarithms of numerator and denominator leave two candidates
  have hlow : (2 : ℚ) ^ (e - 1) ≤ (n : ℚ) / d := by
    have hsplit : (2 : ℚ) ^ (e - 1) * 2 ^ (d.log2 + 1) = 2 ^ n.log2 := by
      rw [← zpow_natCast, ← zpow_natCast, ← zpow_add₀ two_ne_zero]
      congr 1
      push_cast
      omega
    rw [le_div_iff₀ hdpos]
    calc (2 : ℚ) ^ (e - 1) * d ≤ 2 ^ (e - 1) * 2 ^ (d.log2 + 1) := by gcongr
      _ = 2 ^ n.log2 := hsplit
      _ ≤ n := hn1
  have hhigh : (n : ℚ) / d < (2 : ℚ) ^ (e + 1) := by
    have hsplit : (2 : ℚ) ^ (e + 1) * 2 ^ d.log2 = 2 ^ (n.log2 + 1) := by
      rw [← zpow_natCast, ← zpow_natCast, ← zpow_add₀ two_ne_zero]
      congr 1
      push_cast
      omega
    rw [div_lt_iff₀ hdpos]
    calc (n : ℚ) < 2 ^ (n.log2 + 1) := hn2
      _ = 2 ^ (e + 1) * 2 ^ d.log2 := hsplit.symm
      _ ≤ 2 ^ (e + 1) * d := by gcongr
  have hlog1 : e - 1 ≤ Int.log 2 ((n : ℚ) / d) :=
    (Int.zpow_le_iff_le_log one_lt_two hpos).mp (by exact_mod_cast hlow)
  have hlog2 : Int.log 2 ((n : ℚ) / d) < e + 1 :=
    (Int.lt_zpow_iff_log_lt one_lt_two hpos).mp (by exact_mod_cast hhigh)
  have hiff : (descale n d e).2 ≤ (descale n d e).1 ↔ e ≤ Int.log 2 ((n : ℚ) / d) := by
    rw [descale_le_iff n hd e, ← Int.zpow_le_iff_le_log one_lt_two hpos]
    norm_cast
  simp only [floorLog2, ← he, hiff]
  split <;> omega

/-! ## The rank of a quotient -/

theorem floorLog2_mul_right {n d k : Nat} (hn : 0 < n) (hd : 0 < d) (hk : 0 < k) :
    floorLog2 (n * k) (d * k) = floorLog2 n d := by
  have hkpos : (k : ℚ) ≠ 0 := by exact_mod_cast hk.ne'
  rw [floorLog2_eq (Nat.mul_pos hn hk) (Nat.mul_pos hd hk), floorLog2_eq hn hd]
  push_cast
  rw [mul_div_mul_right _ _ hkpos]

theorem roundedRank_mul_right (n : Nat) {d k : Nat} (hd : 0 < d) (hk : 0 < k) :
    roundedRank (n * k) (d * k) = roundedRank n d := by
  rcases Nat.eq_zero_or_pos n with rfl | hn
  · simp [roundedRank]
  · have hplace : lastPlace (n * k) (d * k) = lastPlace n d := by
      rw [lastPlace, lastPlace, floorLog2_mul_right hn hd hk]
    have hne : n * k ≠ 0 := (Nat.mul_pos hn hk).ne'
    simp only [roundedRank, hne, hn.ne', if_false, hplace, descale_mul_right,
      roundHalfEven_mul_right _ _ hk]

/-- Quotients of the same value round to the same rank. -/
theorem roundedRank_congr {n d n' d' : Nat} (hd : 0 < d) (hd' : 0 < d') (h : n * d' = n' * d) :
    roundedRank n d = roundedRank n' d' := by
  rw [← roundedRank_mul_right n hd hd', h, Nat.mul_comm d d', roundedRank_mul_right n' hd' hd]

/-! ## Numbers round to themselves -/

theorem significand_lt (rank : Nat) : significand rank < 2 * hiddenBit := by
  unfold significand
  have hmod := Nat.mod_lt rank (show 0 < hiddenBit by decide)
  split <;> omega

theorem le_exponent (rank : Nat) : -1074 ≤ exponent rank := by
  unfold exponent
  split
  · exact Int.le_refl _
  · rename_i h
    have hone : 1 ≤ rank / hiddenBit := (Nat.one_le_div_iff (by decide)).mpr (Nat.not_lt.mp h)
    omega

theorem significand_pos {rank : Nat} (h : 0 < rank) : 0 < significand rank := by
  unfold significand
  split
  · exact h
  · exact Nat.lt_of_lt_of_le (by decide) (Nat.le_add_right _ _)

/-- The significand and the exponent of a rank are its digits in base two. -/
theorem rank_eq (rank : Nat) :
    (exponent rank + 1074).toNat * hiddenBit + significand rank = rank := by
  unfold exponent significand
  split
  · simp
  · rename_i h
    have hdiv := Nat.div_add_mod rank hiddenBit
    have hone : 1 ≤ rank / hiddenBit := (Nat.one_le_div_iff (by decide)).mpr (Nat.not_lt.mp h)
    have hcast : (((rank / hiddenBit : Nat) : Int) - 1075 + 1074).toNat = rank / hiddenBit - 1 := by
      omega
    rw [hcast, ← Nat.add_assoc, ← Nat.succ_mul, Nat.succ_eq_add_one, Nat.sub_add_cancel hone,
      Nat.mul_comm]
    exact hdiv

theorem asFraction_cast (m : Nat) (e : Int) :
    ((asFraction m e).1 : ℚ) / (asFraction m e).2 = m * 2 ^ e := by
  unfold asFraction
  split
  · rename_i he
    obtain ⟨k, rfl⟩ := Int.eq_ofNat_of_zero_le he
    simp
  · rename_i he
    obtain ⟨k, hk⟩ := Int.eq_ofNat_of_zero_le (a := -e) (by omega)
    obtain rfl : e = -k := by omega
    simp [div_eq_mul_inv]

theorem fraction_num_pos {rank : Nat} (h : 0 < rank) : 0 < (fraction rank).1 := by
  unfold fraction asFraction
  split
  · exact Nat.mul_pos (significand_pos h) (Nat.two_pow_pos _)
  · exact significand_pos h

/-- Taking the exponent out of a number leaves its significand. -/
theorem descale_asFraction (m : Nat) (e : Int) :
    ∃ k, 0 < k ∧ descale (asFraction m e).1 (asFraction m e).2 e = (m * k, 1 * k) := by
  unfold asFraction descale
  split
  · exact ⟨Nat.pow 2 e.toNat, Nat.two_pow_pos _, by simp⟩
  · exact ⟨Nat.pow 2 (-e).toNat, Nat.two_pow_pos _, by simp⟩

theorem lastPlace_fraction {rank : Nat} (h : 0 < rank) :
    lastPlace (fraction rank).1 (fraction rank).2 = exponent rank := by
  have hm := significand_pos h
  have hmq : (0 : ℚ) < significand rank := by exact_mod_cast hm
  have hvalue := asFraction_cast (significand rank) (exponent rank)
  have hpos : (0 : ℚ) < significand rank * 2 ^ exponent rank := by positivity
  have hlog := floorLog2_eq (fraction_num_pos h)
    (asFraction_den_pos (significand rank) (exponent rank))
  rw [fraction] at *
  rw [hvalue] at hlog
  have hhigh : Int.log 2 ((significand rank : ℚ) * 2 ^ exponent rank) < 53 + exponent rank := by
    rw [← Int.lt_zpow_iff_log_lt one_lt_two hpos, zpow_add₀ (by norm_num)]
    have hlt : (significand rank : ℚ) < 2 ^ (53 : ℤ) := by
      exact_mod_cast significand_lt rank
    rw [Nat.cast_ofNat]
    gcongr
  -- below the normal range the last place is the least one, whatever the logarithm is
  rw [lastPlace, hlog]
  by_cases hsub : rank < hiddenBit
  · have hexp : exponent rank = -1074 := if_pos hsub
    omega
  · have hlow : 52 + exponent rank ≤ Int.log 2 ((significand rank : ℚ) * 2 ^ exponent rank) := by
      rw [← Int.zpow_le_iff_le_log one_lt_two hpos, zpow_add₀ (by norm_num)]
      have hle : (2 : ℚ) ^ (52 : ℤ) ≤ significand rank := by
        have hle : hiddenBit ≤ significand rank := by
          rw [significand, if_neg hsub]
          exact Nat.le_add_right _ _
        exact_mod_cast hle
      rw [Nat.cast_ofNat]
      gcongr
    have hexp := le_exponent rank
    omega

/-- What is a finite number exactly rounds to it. -/
theorem roundedRank_fraction (rank : Nat) :
    roundedRank (fraction rank).1 (fraction rank).2 = rank := by
  rcases Nat.eq_zero_or_pos rank with rfl | h
  · rfl
  · obtain ⟨k, hk, hdescale⟩ := descale_asFraction (significand rank) (exponent rank)
    have hplace := lastPlace_fraction h
    have hn := (fraction_num_pos h).ne'
    rw [fraction] at *
    simp only [roundedRank, hn, if_false, hplace, hdescale, roundHalfEven_mul_right _ _ hk,
      roundHalfEven_one, rank_eq]

end TreeTemplate.Binary64
