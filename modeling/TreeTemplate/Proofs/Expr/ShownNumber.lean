import TreeTemplate.Proofs.Binary64.Shortest
import TreeTemplate.Proofs.Expr.Scanner
import TreeTemplate.Value.Shown

/-! # Numbers as they are shown

An integer is shown as a spelling of itself.  A double is shown as a spelling of itself if it is
shown plainly, as digits, a point and digits.  It is shown otherwise as a
number in scientific notation, in which a name stands between two numbers, or by the name of an
infinity (`shown_finite`).  A plain text has no letters, so it is none of these.
-/
namespace TreeTemplate.Expr.Grammar

/-- Digits, a point and digits, with a minus sign or none. -/
def Plain (cs : List Char) : Prop :=
  ∃ negative whole frac, Digits whole ∧ Digits frac ∧
    cs = Binary64.sign negative ++ (whole ++ '.' :: frac)

theorem sign_sign (negative : Bool) : Sign (Binary64.sign negative) negative := by
  cases negative with
  | false => exact .none
  | true => exact .minus

theorem digits_toDigits (n : Nat) : Digits (Nat.toDigits 10 n) :=
  ⟨Nat.toDigits_ne_nil, fun _ => Text.isAsciiDigit_of_mem_toDigits⟩

theorem Digits.append {ds fs : List Char} (hd : Digits ds)
    (hf : ∀ c ∈ fs, Text.isAsciiDigit c = true) : Digits (ds ++ fs) := by
  refine ⟨by simp [hd.1], fun c hc => ?_⟩
  rcases List.mem_append.mp hc with hc | hc
  · exact hd.2 c hc
  · exact hf c hc

theorem integer_showInt (n : Int) : Integer (Text.showInt n) (.int n) := by
  unfold Text.showInt
  split
  · have h := Integer.mk .minus (digits_toDigits n.natAbs)
    rw [Text.natOfDigits_toDigits] at h
    have hvalue : Binary64.signedInt true n.natAbs = n := by
      simp only [Binary64.signedInt, if_true]
      omega
    rwa [hvalue] at h
  · have h := Integer.mk .none (digits_toDigits n.natAbs)
    rw [Text.natOfDigits_toDigits] at h
    have hvalue : Binary64.signedInt false n.natAbs = n := by
      simp only [Binary64.signedInt, Bool.false_eq_true, if_false]
      omega
    rwa [hvalue] at h

/-! ## Positional notation -/

/-- A decimal is read from whole digits and fraction digits of its value. -/
theorem ofParts_eq {whole frac : List Char} {digits k : Nat} {shift : Int}
    (hvalue : Text.natOfDigits (whole ++ frac) = digits * 10 ^ k)
    (hshift : shift - k = -(frac.length : Int)) (negative : Bool) :
    Binary64.ofParts negative whole frac 0 = Binary64.ofDecimal negative digits shift := by
  rw [Binary64.ofParts, hvalue, Int.zero_sub, ← hshift, Binary64.ofDecimal_mul_pow]

/-- Positional notation is whole digits, a point and fraction digits, and reads back. -/
theorem positional_parts (digits : Nat) (shift : Int) :
    ∃ whole frac, Digits whole ∧ Digits frac ∧
      Binary64.positional (Nat.toDigits 10 digits) ((Nat.toDigits 10 digits).length + shift) =
        whole ++ '.' :: frac ∧
      ∀ negative, Binary64.ofParts negative whole frac 0 =
        Binary64.ofDecimal negative digits shift := by
  have hds := digits_toDigits digits
  have hvalue := Text.natOfDigits_toDigits digits
  have hone : Digits ['0'] := digits_toDigits 0
  generalize Nat.toDigits 10 digits = ds at *
  have hzero : ∀ n, ∀ c ∈ List.replicate n '0', Text.isAsciiDigit c = true :=
    fun n c => Text.isAsciiDigit_of_mem_zeros
  unfold Binary64.positional Binary64.zeros
  split
  · -- the point stands before all digits
    rename_i hpoint
    refine ⟨['0'], List.replicate (-(ds.length + shift)).toNat '0' ++ ds, hone, ?_, by simp,
      ofParts_eq (k := 0) ?_ ?_⟩
    · refine ⟨by simp [hds.1], fun c hc => ?_⟩
      rcases List.mem_append.mp hc with hc | hc
      · exact hzero _ c hc
      · exact hds.2 c hc
    · have hzeros : '0' :: List.replicate (-((ds.length : Int) + shift)).toNat '0' =
          List.replicate ((-((ds.length : Int) + shift)).toNat + 1) '0' := rfl
      rw [List.singleton_append, ← List.cons_append, hzeros, Text.natOfDigits_append,
        Text.natOfDigits_zeros, hvalue]
      simp
    · simp only [List.length_append, List.length_replicate]
      omega
  split
  · -- the point stands behind all digits
    rename_i hpoint hlen
    refine ⟨ds ++ List.replicate ((ds.length + shift).toNat - ds.length) '0', ['0'],
      hds.append (hzero _), hone, by simp, ofParts_eq (k := shift.toNat + 1) ?_ ?_⟩
    · have hexp : ((ds.length : Int) + shift).toNat - ds.length + 1 = shift.toNat + 1 := by omega
      rw [List.append_assoc, ← List.replicate_succ', Text.natOfDigits_append,
        Text.natOfDigits_zeros, hvalue, List.length_replicate, hexp, Nat.add_zero]
    · simp only [List.length_singleton]
      omega
  · -- the point stands among the digits
    rename_i hpoint hlen
    refine ⟨ds.take ((ds.length : Int) + shift).toNat, ds.drop ((ds.length : Int) + shift).toNat,
      ?_, ?_, by simp, ofParts_eq (k := 0) ?_ ?_⟩
    · refine ⟨?_, fun c hc => hds.2 c (List.mem_of_mem_take hc)⟩
      simp only [ne_eq, List.take_eq_nil_iff, hds.1, or_false]
      omega
    · refine ⟨?_, fun c hc => hds.2 c (List.mem_of_mem_drop hc)⟩
      simp only [ne_eq, List.drop_eq_nil_iff]
      omega
    · rw [List.take_append_drop, hvalue]
      simp
    · rw [List.length_drop]
      omega

/-! ## Scientific notation -/

/-- The exponent of a number in scientific notation, after its mark. -/
def Power (cs : List Char) : Prop := ∃ c ds, cs = c :: ds ∧ (c = '+' ∨ c = '-') ∧ Digits ds

theorem scientific_parts (layout : Binary64.Layout) (digits : Nat) (place : Int) :
    ∃ mantissa power, Binary64.scientific layout (Nat.toDigits 10 digits) place =
        mantissa ++ 'e' :: power ∧
      (∀ {sign negative}, Sign sign negative → ∃ v, Number (sign ++ mantissa) v) ∧
      Power power := by
  have hds := digits_toDigits digits
  generalize Nat.toDigits 10 digits = ds at *
  obtain ⟨hne, hall⟩ := hds
  obtain ⟨d, fs, rfl⟩ := List.exists_cons_of_ne_nil hne
  have hd : Digits [d] := ⟨by simp, by simpa using hall d List.mem_cons_self⟩
  refine ⟨d :: if fs.isEmpty then [] else '.' :: fs, (if place < 0 then '-' else '+') ::
    (Binary64.zeros (layout.exponentWidth - (Nat.toDigits 10 place.natAbs).length) ++
      Nat.toDigits 10 place.natAbs), by simp [Binary64.scientific], ?_, _, _, rfl, ?_, ?_⟩
  · intro sign negative hs
    cases fs with
    | nil => exact ⟨_, .whole (.mk hs hd)⟩
    | cons f fs =>
      have hf : Digits (f :: fs) := ⟨by simp, fun c hc => hall c (List.mem_cons_of_mem _ hc)⟩
      exact ⟨_, .decimal hs hd hf⟩
  · split
    · exact .inr rfl
    · exact .inl rfl
  · have hpower := digits_toDigits place.natAbs
    refine ⟨by simp [hpower.1], fun c hc => ?_⟩
    rcases List.mem_append.mp hc with hc | hc
    · exact Text.isAsciiDigit_of_mem_zeros hc
    · exact hpower.2 c hc

/-! ## Doubles -/

/-- A double that was read is a number. -/
theorem ofParts_ne_nan (negative : Bool) (whole frac : List Char) (power : Int)
    (payload : Payload) : Binary64.ofParts negative whole frac power ≠ .nan payload := by
  simp only [Binary64.ofParts, Binary64.ofDecimal, Binary64.ofRatio, Binary64.ofRank,
    Binary64.signedZero]
  grind

/-- A finite double is shown plainly and reads back, or in scientific notation. -/
theorem shown_finite (negative : Bool) (rank : Fin finiteRanks) :
    (Plain (Binary64.write .shown (.finite negative rank)) ∧
      Number (Binary64.write .shown (.finite negative rank)) (.float (.finite negative rank))) ∨
    ∃ mantissa power v, Binary64.write .shown (.finite negative rank) =
      mantissa ++ 'e' :: power ∧ Number mantissa v ∧ Power power := by
  have hread := Binary64.ofDecimal_shortestDecimal negative rank
  simp only [Binary64.write, Binary64.Decimal.write]
  split
  · obtain ⟨whole, frac, hw, hf, htext, hvalue⟩ := positional_parts
      (Binary64.shortestDecimal rank).digits (Binary64.shortestDecimal rank).shift
    have hnumber := Number.decimal (sign_sign negative) hw hf
    rw [hvalue, hread] at hnumber
    rw [Int.sub_add_cancel, htext]
    exact .inl ⟨⟨negative, whole, frac, hw, hf, rfl⟩, hnumber⟩
  · obtain ⟨mantissa, power, htext, hmantissa, hpower⟩ := scientific_parts .shown
      (Binary64.shortestDecimal rank).digits
      ((Nat.toDigits 10 (Binary64.shortestDecimal rank).digits).length +
        (Binary64.shortestDecimal rank).shift - 1)
    obtain ⟨v, hv⟩ := hmantissa (sign_sign negative)
    rw [htext]
    exact .inr ⟨_, power, v, by simp, hv, hpower⟩

/-- A plain text has no letters. -/
theorem Plain.not_isNameStart {cs : List Char} (h : Plain cs) :
    ∀ c ∈ cs, Text.isNameStart c = false := by
  obtain ⟨negative, whole, frac, hw, hf, rfl⟩ := h
  have hdigit : ∀ c, Text.isAsciiDigit c = true → Text.isNameStart c = false :=
    fun c hc => (Token.startsNumber.apart (.inr (.inr hc))).1
  intro c hc
  rcases List.mem_append.mp hc with hc | hc
  · cases negative with
    | false => cases hc
    | true =>
      rw [List.mem_singleton.mp hc]
      decide
  rcases List.mem_append.mp hc with hc | hc
  · exact hdigit c (hw.2 c hc)
  rcases List.mem_cons.mp hc with rfl | hc
  · decide
  · exact hdigit c (hf.2 c hc)

end TreeTemplate.Expr.Grammar
