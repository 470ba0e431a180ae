import TreeTemplate.Binary64.Shortest
import TreeTemplate.Proofs.Binary64.Rounding
import TreeTemplate.Proofs.Text.Digits

/-! # The shortest decimal reads back

A decimal is read by its value, however many zeros its digits end in (`ofDecimal_mul_pow`).
The candidates for the shortest decimal of a number are tried by reading them, and the exact
expansion behind them reads back because a number rounds to itself, so the decimal of a finite
number always reads back (`ofDecimal_shortestDecimal`).
-/
namespace TreeTemplate.Binary64

/-- A number with another sign. -/
def withSign (negative : Bool) : Binary64 → Binary64
  | .finite _ rank => .finite negative rank
  | .infinite _ => .infinite negative
  | .nan payload => .nan payload

theorem ofRank_eq_withSign (negative : Bool) (rank : Nat) :
    ofRank negative rank = withSign negative (ofRank false rank) := by
  unfold ofRank
  split <;> rfl

/-- The sign of a decimal is the sign of what it is read as, and nothing else of it. -/
theorem ofDecimal_eq_withSign (negative : Bool) (digits : Nat) (shift : Int) :
    ofDecimal negative digits shift = withSign negative (ofDecimal false digits shift) := by
  simp only [ofDecimal, ofRatio]
  split
  · rfl
  split
  · rfl
  split <;> exact ofRank_eq_withSign _ _

theorem ofRank_of_lt {negative : Bool} (rank : Fin finiteRanks) :
    ofRank negative rank.val = .finite negative rank := dif_pos rank.isLt

/-! ## The value of a decimal -/

theorem ofRatio_congr (negative : Bool) {n d n' d' : Nat} (hd : 0 < d) (hd' : 0 < d')
    (h : n * d' = n' * d) : ofRatio negative n d = ofRatio negative n' d' := by
  rw [ofRatio, ofRatio, roundedRank_congr hd hd' h]

/-- Zeros at the end of the digits may be written in the shift. -/
theorem ofDecimal_mul_pow (negative : Bool) (digits k : Nat) (shift : Int) :
    ofDecimal negative (digits * 10 ^ k) (shift - k) = ofDecimal negative digits shift := by
  rcases Nat.eq_zero_or_pos digits with rfl | hpos
  · simp [ofDecimal]
  have hne : digits * 10 ^ k ≠ 0 := (Nat.mul_pos hpos (Nat.pow_pos (by decide))).ne'
  have hlen := Text.length_toDigits_mul_pow hpos k
  have hsize : ((Nat.toDigits 10 (digits * 10 ^ k)).length : Int) + (shift - k) =
      (Nat.toDigits 10 digits).length + shift := by omega
  have hten (j : Nat) : 0 < Nat.pow 10 j := Nat.pow_pos (by decide)
  simp only [ofDecimal, hsize, hne, hpos.ne']
  congr 2
  -- the powers of ten in both quotients make up for the zeros
  by_cases hshift : 0 ≤ shift
  · obtain ⟨j, rfl⟩ := Int.eq_ofNat_of_zero_le hshift
    simp only [hshift, if_true, Int.toNat_natCast]
    split
    · rename_i hle
      refine ofRatio_congr negative Nat.one_pos Nat.one_pos ?_
      have hexp : k + ((j : Int) - k).toNat = j := by omega
      have hpow : 10 ^ k * 10 ^ ((j : Int) - k).toNat = 10 ^ j := by rw [← Nat.pow_add, hexp]
      rw [Nat.mul_one, Nat.mul_one, Nat.mul_assoc]
      exact congrArg (digits * ·) hpow
    · rename_i hlt
      refine ofRatio_congr negative (hten _) Nat.one_pos ?_
      have hexp : j + (-((j : Int) - k)).toNat = k := by omega
      have hpow : 10 ^ k = 10 ^ j * 10 ^ (-((j : Int) - k)).toNat := by rw [← Nat.pow_add, hexp]
      rw [Nat.mul_one, Nat.mul_assoc]
      exact congrArg (digits * ·) hpow
  · have hlt : ¬0 ≤ shift - k := by omega
    simp only [hshift, hlt, if_false]
    refine ofRatio_congr negative (hten _) (hten _) ?_
    have hexp : (-(shift - k)).toNat = k + (-shift).toNat := by omega
    rw [hexp, Nat.mul_assoc]
    exact congrArg (digits * ·) (Nat.pow_add 10 _ _).symm

/-! ## The candidates -/

theorem Decimal.readsBack_iff {x : Decimal} {rank : Nat} :
    x.readsBack rank = true ↔ ofDecimal false x.digits x.shift = ofRank false rank := by
  simp [Decimal.readsBack]

theorem Decimal.ofDecimal_trim (negative : Bool) (fuel : Nat) (x : Decimal) :
    ofDecimal negative (Decimal.trim fuel x).digits (Decimal.trim fuel x).shift =
      ofDecimal negative x.digits x.shift := by
  induction fuel generalizing x with
  | zero => rfl
  | succ fuel ih =>
    rw [Decimal.trim]
    split
    · rename_i h
      rw [ih]
      have hdigits : x.digits / 10 * 10 ^ 1 = x.digits := by omega
      have hshift : x.shift + 1 - ((1 : Nat) : Int) = x.shift := by omega
      have hscale := ofDecimal_mul_pow negative (x.digits / 10) 1 (x.shift + 1)
      rw [hdigits, hshift] at hscale
      exact hscale.symm
    · rfl

/-- Of two candidates next to each other, what is taken reads back. -/
theorem readsBack_of_choice {rank a b : Nat} {shift : Int} {x : Decimal}
    (h : (if (Decimal.mk (a / b) shift).readsBack rank &&
          (Decimal.mk (a / b + 1) shift).readsBack rank then
        some (Decimal.mk (roundHalfEven a b) shift)
      else if (Decimal.mk (a / b) shift).readsBack rank then some (Decimal.mk (a / b) shift)
      else if (Decimal.mk (a / b + 1) shift).readsBack rank then
        some (Decimal.mk (a / b + 1) shift)
      else none) = some x) : x.readsBack rank = true := by
  split at h
  · rename_i hboth
    rw [Bool.and_eq_true] at hboth
    cases h
    -- the nearer of the two is one of them
    rcases roundHalfEven_eq a b with hround | hround
    · rw [hround]
      exact hboth.1
    · rw [hround]
      exact hboth.2
  split at h
  · rename_i hbelow
    cases h
    exact hbelow
  split at h
  · rename_i habove
    cases h
    exact habove
  · cases h

theorem readsBack_of_neighbour? {rank n d count : Nat} {x : Decimal}
    (h : neighbour? rank n d count = some x) : x.readsBack rank = true :=
  readsBack_of_choice h

/-! ## The exact expansion -/

theorem exponent_le {rank : Nat} (h : rank < finiteRanks) : exponent rank ≤ 971 := by
  unfold exponent
  have hdiv : rank / hiddenBit < 2047 := (Nat.div_lt_iff_lt_mul (by decide)).mpr h
  split <;> omega

/-- A number is a numerator of at most 1024 binary places over a power of two of at most
1074. -/
theorem fraction_bounds {rank : Nat} (h : rank < finiteRanks) : ∃ k, k ≤ 1074 ∧
    (fraction rank).2 = 2 ^ k ∧ ∀ j, 1024 ≤ j → (fraction rank).1 < 2 ^ j := by
  have hlow := le_exponent rank
  have hhigh := exponent_le h
  have hm : significand rank < 2 ^ 53 := significand_lt rank
  unfold fraction asFraction
  split
  · rename_i he
    refine ⟨0, by omega, rfl, fun j hj => ?_⟩
    calc significand rank * Nat.pow 2 (exponent rank).toNat
        < 2 ^ 53 * 2 ^ (exponent rank).toNat :=
          Nat.mul_lt_mul_of_pos_right hm (Nat.two_pow_pos _)
      _ = 2 ^ (53 + (exponent rank).toNat) := (Nat.pow_add 2 53 _).symm
      _ ≤ 2 ^ j := Nat.pow_le_pow_right (by decide) (by omega)
  · refine ⟨(-exponent rank).toNat, by omega, rfl, fun j hj => ?_⟩
    exact Nat.lt_of_lt_of_le hm (Nat.pow_le_pow_right (by decide) (by omega))

theorem two_pow_le_ten_pow {k j : Nat} (hk : k ≤ 3 * j) : 2 ^ k ≤ 10 ^ j :=
  calc 2 ^ k ≤ 2 ^ (3 * j) := Nat.pow_le_pow_right (by decide) hk
    _ = 8 ^ j := Nat.pow_mul 2 3 j
    _ ≤ 10 ^ j := Nat.pow_le_pow_left (by decide) j

/-- The numeral of all digits of a number is about as long as its denominator has places. -/
theorem size_exactDecimal {n k j : Nat} (hn : 0 < n) (hk : k ≤ 3 * j) (hlt : n < 2 ^ (3 * j)) :
    k ≤ (Nat.toDigits 10 (n * 5 ^ k)).length + j ∧
      (Nat.toDigits 10 (n * 5 ^ k)).length ≤ k + j := by
  have hten : 10 ^ k = 2 ^ k * 5 ^ k := Nat.mul_pow 2 5 k
  have hfive : 0 < 5 ^ k := Nat.pow_pos (by decide)
  have hpos : 0 < n * 5 ^ k := Nat.mul_pos hn hfive
  constructor
  · by_contra hlen
    have hdigits := Text.lt_pow_length_toDigits (n * 5 ^ k)
    have hmul : n * 5 ^ k * 10 ^ j < 10 ^ k :=
      calc n * 5 ^ k * 10 ^ j
          < 10 ^ (Nat.toDigits 10 (n * 5 ^ k)).length * 10 ^ j :=
            Nat.mul_lt_mul_of_pos_right hdigits (Nat.pow_pos (by decide))
        _ = 10 ^ ((Nat.toDigits 10 (n * 5 ^ k)).length + j) := (Nat.pow_add 10 _ _).symm
        _ ≤ 10 ^ k := Nat.pow_le_pow_right (by decide) (by omega)
    have hle : 10 ^ k ≤ n * 5 ^ k * 10 ^ j :=
      calc 10 ^ k = 2 ^ k * 5 ^ k := hten
        _ ≤ 10 ^ j * 5 ^ k := Nat.mul_le_mul_right _ (two_pow_le_ten_pow hk)
        _ = 5 ^ k * 10 ^ j := Nat.mul_comm _ _
        _ ≤ n * 5 ^ k * 10 ^ j := Nat.mul_le_mul_right _ (Nat.le_mul_of_pos_left _ hn)
    omega
  · by_contra hlen
    have hlow := Text.pow_le_of_lt_length_toDigits (k := k + j) (by omega) hpos
    have hlt : n * 5 ^ k < 10 ^ (k + j) :=
      calc n * 5 ^ k < 2 ^ (3 * j) * 5 ^ k := Nat.mul_lt_mul_of_pos_right hlt hfive
        _ ≤ 10 ^ j * 5 ^ k := Nat.mul_le_mul_right _ (two_pow_le_ten_pow (Nat.le_refl _))
        _ ≤ 10 ^ j * 10 ^ k := Nat.mul_le_mul_left _ (Nat.pow_le_pow_left (by decide) k)
        _ = 10 ^ (k + j) := by rw [Nat.pow_add, Nat.mul_comm]
    omega

theorem readsBack_exactDecimal {rank : Nat} (h : rank < finiteRanks) (hpos : 0 < rank) :
    (exactDecimal (fraction rank).1 (fraction rank).2).readsBack rank = true := by
  obtain ⟨k, hk, hd, hlt⟩ := fraction_bounds h
  have hround := roundedRank_fraction rank
  have hn := fraction_num_pos hpos
  rw [hd] at hround ⊢
  generalize (fraction rank).1 = n at *
  have hfive : 0 < 5 ^ k := Nat.pow_pos (by decide)
  have hne : n * 5 ^ k ≠ 0 := (Nat.mul_pos hn hfive).ne'
  -- a reader gives up on decimals far out of range, which this one is not
  have hplaces : k ≤ 3 * 400 := by omega
  have hsize := size_exactDecimal hn hplaces (hlt (3 * 400) (by decide))
  have hsmall : ¬((Nat.toDigits 10 (n * 5 ^ k)).length + (-k : Int) < -400) := by
    omega
  have hlarge : ¬(400 < (Nat.toDigits 10 (n * 5 ^ k)).length + (-k : Int)) := by omega
  rw [Decimal.readsBack_iff]
  have hratio : ofDecimal false (n * 5 ^ k) (-k) = ofRatio false n (2 ^ k) := by
    simp only [ofDecimal, hne, hsmall, hlarge, or_self, if_false]
    split
    · rename_i hzero
      obtain rfl : k = 0 := by omega
      simp
    · refine ofRatio_congr false (Nat.pow_pos (by decide)) (Nat.two_pow_pos _) ?_
      have hexp : (- -(k : Int)).toNat = k := by omega
      rw [hexp, Nat.mul_assoc, Nat.mul_comm (5 ^ k)]
      exact congrArg (n * ·) (Nat.mul_pow 2 5 k).symm
  simp only [exactDecimal, Nat.log2_two_pow]
  exact hratio.trans (congrArg (ofRank false) hround)

/-! ## The shortest decimal -/

/-- The shortest decimal of a finite number reads back as that number. -/
theorem ofDecimal_shortestDecimal (negative : Bool) (rank : Fin finiteRanks) :
    ofDecimal negative (shortestDecimal rank).digits (shortestDecimal rank).shift =
      .finite negative rank := by
  rcases Nat.eq_zero_or_pos rank.val with hzero | hpos
  · obtain ⟨value, hlt⟩ := rank
    obtain rfl : value = 0 := hzero
    rfl
  -- whichever candidate was taken had been tried without its sign
  have hread : ofDecimal false (shortestDecimal rank).digits (shortestDecimal rank).shift =
      ofRank false rank := by
    simp only [shortestDecimal, hpos.ne', if_false]
    split
    · rename_i x hx
      obtain ⟨i, -, hx⟩ := List.exists_of_findSome?_eq_some hx
      rw [Decimal.ofDecimal_trim]
      exact Decimal.readsBack_iff.mp (readsBack_of_neighbour? hx)
    · exact Decimal.readsBack_iff.mp (readsBack_exactDecimal rank.isLt hpos)
  rw [ofDecimal_eq_withSign, hread, ofRank_of_lt]
  rfl

end TreeTemplate.Binary64
