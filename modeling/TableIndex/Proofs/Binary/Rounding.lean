import TableIndex.Binary.Nearest
import TableIndex.Proofs.Binary.Scale

/-!
# Rounding numbers of a format

A quotient that is a number of the format is rounded to this number, so a whole number that a
pattern stands for has this pattern as its nearest one. A zero loses its sign.
-/

namespace TableIndex.Binary

private theorem roundHalfEven_mul (n : Nat) {den : Nat} (hden : 0 < den) :
    roundHalfEven (n * den) den = n := by
  rw [roundHalfEven, Nat.mul_mod_left, Nat.mul_div_cancel _ hden, Nat.mul_zero, if_pos hden]

namespace Format

variable {f : Format} {a b bits : Nat}

private theorem magnitude_digits (f : Format) (bits : Nat) :
    ∃ significand shift, f.magnitude bits = significand * Nat.pow 2 shift ∧
      (f.magnitude bits).log2 - f.fractionBits = shift ∧
      shift * Nat.pow 2 f.fractionBits + significand = f.unsigned bits := by
  have hfraction := f.fraction_lt bits
  have hunsigned := f.unsigned_eq bits
  -- a normal number has a leading one, so its length tells the exponent
  by_cases hexponent : f.exponentField bits = 0
  · have hmagnitude : f.magnitude bits = f.fraction bits := if_pos hexponent
    refine ⟨f.fraction bits, 0, by rw [hmagnitude]; exact (Nat.mul_one _).symm, ?_, ?_⟩
    · rw [hmagnitude, Nat.sub_eq_zero_iff_le]
      by_cases hzero : f.fraction bits = 0
      · rw [hzero, Nat.log2_zero]
        exact Nat.zero_le _
      · exact ((Nat.log2_lt hzero).mpr hfraction).le
    · rw [← hunsigned, hexponent]
  · obtain ⟨e, he⟩ := Nat.exists_eq_succ_of_ne_zero hexponent
    have hmagnitude : f.magnitude bits =
        (Nat.pow 2 f.fractionBits + f.fraction bits) * Nat.pow 2 e := by
      rw [magnitude, if_neg hexponent, step, he, Nat.succ_sub_one]
    have hlog : (f.magnitude bits).log2 = f.fractionBits + e := by
      have hpos : f.magnitude bits ≠ 0 := by
        rw [hmagnitude]
        exact (Nat.mul_pos (Nat.add_pos_left (Nat.two_pow_pos _) _) (Nat.two_pow_pos _)).ne'
      rw [Nat.log2_eq_iff hpos, hmagnitude, pow_add, pow_succ, pow_add]
      constructor
      · exact Nat.mul_le_mul_right _ (Nat.le_add_right _ _)
      · rw [Nat.mul_right_comm]
        refine Nat.mul_lt_mul_of_pos_right ?_ (Nat.two_pow_pos e)
        rw [Nat.pow_eq] at hfraction ⊢
        omega
    refine ⟨Nat.pow 2 f.fractionBits + f.fraction bits, e, hmagnitude, by omega, ?_⟩
    rw [← hunsigned, he, Nat.succ_mul, Nat.add_assoc]

private theorem nearest_eq {num den : Nat} (hden : 0 < den)
    (hexact : num * Nat.pow 2 f.unitPlaces = f.magnitude bits * den)
    (hbits : f.unsigned bits ≤ f.infinity) : f.nearest num den = f.unsigned bits := by
  obtain ⟨significand, shift, hmagnitude, hshift, hunsigned⟩ := f.magnitude_digits bits
  have hscaled : f.magnitude bits * den = significand * (den * Nat.pow 2 shift) := by
    rw [hmagnitude, Nat.mul_assoc, Nat.mul_comm den]
  have hpos : 0 < den * Nat.pow 2 shift := Nat.mul_pos hden (Nat.two_pow_pos _)
  rw [nearest]
  simp only [hexact, Nat.mul_div_cancel _ hden, hshift]
  rw [hscaled, roundHalfEven_mul _ hpos, hunsigned, min_eq_left hbits]

private theorem unsigned_eq_sub (h : f.isNegative bits = true) (hbits : bits < 2 * f.signBit) :
    f.signBit + f.unsigned bits = bits := by
  have hle : f.signBit ≤ bits := of_decide_eq_true h
  rw [unsigned, Nat.mod_eq_sub_mod hle, Nat.mod_eq_of_lt (by omega)]
  omega

private theorem unsigned_eq_self (h : f.isNegative bits = false) : f.unsigned bits = bits :=
  Nat.mod_eq_of_lt (not_le.mp (of_decide_eq_false h))

theorem eq_of_units_eq (ha : a < 2 * f.signBit) (hb : b < 2 * f.signBit)
    (h : f.units a = f.units b) : (f.unsigned a = 0 ∧ f.unsigned b = 0) ∨ a = b := by
  have hza := f.magnitude_eq_zero_iff a
  have hzb := f.magnitude_eq_zero_iff b
  have hlt := magnitude_lt_iff (f := f) (a := a) (b := b)
  have hgt := magnitude_lt_iff (f := f) (a := b) (b := a)
  rw [units, units] at h
  cases hna : f.isNegative a with
  | true =>
      have hsa := unsigned_eq_sub hna ha
      cases hnb : f.isNegative b with
      | true =>
          have hsb := unsigned_eq_sub hnb hb
          simp only [hna, hnb, if_true] at h
          omega
      | false =>
          simp only [hna, hnb, if_true, Bool.false_eq_true, if_false] at h
          omega
  | false =>
      have hsa := unsigned_eq_self hna
      cases hnb : f.isNegative b with
      | true =>
          simp only [hna, hnb, if_true, Bool.false_eq_true, if_false] at h
          omega
      | false =>
          have hsb := unsigned_eq_self hnb
          simp only [hna, hnb, Bool.false_eq_true, if_false] at h
          omega

theorem ofInt_eq {n : Int} (hexact : f.units bits = n * (Nat.pow 2 f.unitPlaces : Nat))
    (hfinite : f.unsigned bits ≤ f.infinity) (hbits : bits < 2 * f.signBit) :
    f.ofInt n = if f.unsigned bits = 0 then 0 else bits := by
  have hunit : 0 < Nat.pow 2 f.unitPlaces := Nat.two_pow_pos _
  have hmagnitude : n.natAbs * Nat.pow 2 f.unitPlaces = f.magnitude bits * 1 := by
    rw [Nat.mul_one, ← Int.natAbs_natCast (Nat.pow 2 f.unitPlaces), ← Int.natAbs_mul, ← hexact,
      units]
    split <;> simp
  have hnearest : f.nearest n.natAbs 1 = f.unsigned bits :=
    nearest_eq Nat.one_pos hmagnitude hfinite
  have hzero := f.magnitude_eq_zero_iff bits
  rw [ofInt, hnearest]
  by_cases hunsigned : f.unsigned bits = 0
  · have hn : n = 0 := by
      rw [hzero.mpr hunsigned, Nat.zero_mul, Nat.mul_eq_zero] at hmagnitude
      omega
    rw [if_pos hunsigned, hunsigned, hn]
    rfl
  · have hpos : 0 < f.magnitude bits := Nat.pos_of_ne_zero (mt hzero.mp hunsigned)
    rw [if_neg hunsigned]
    cases hsign : f.isNegative bits with
    | true =>
        have hn : n < 0 := by
          rw [units, if_pos hsign] at hexact
          by_contra hn
          have := Int.mul_nonneg (not_lt.mp hn) (Int.natCast_nonneg (Nat.pow 2 f.unitPlaces))
          omega
        rw [if_pos hn]
        exact unsigned_eq_sub hsign hbits
    | false =>
        have hn : ¬ n < 0 := by
          rw [units, hsign] at hexact
          intro hn
          have := Int.mul_neg_of_neg_of_pos hn (Int.natCast_pos.mpr hunit)
          simp only [Bool.false_eq_true, if_false] at hexact
          omega
        rw [if_neg hn, Nat.zero_add]
        exact unsigned_eq_self hsign

end Format
end TableIndex.Binary
