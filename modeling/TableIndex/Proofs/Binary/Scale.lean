import Mathlib.Data.Rat.Floor
import Mathlib.Tactic
import TableIndex.Binary.Comparison

/-!
# The scale of a binary format

Read as whole numbers of units, patterns are in the order of their unsigned parts on each side of
zero, so comparing numbers and comparing patterns differ at the zeros only. A finite pattern stands
for its units divided by a power of two, and its whole part for the whole part of this quotient.
-/

namespace TableIndex.Binary.Format

variable {f : Format} {a b bits : Nat}

theorem fraction_lt (f : Format) (bits : Nat) : f.fraction bits < Nat.pow 2 f.fractionBits :=
  Nat.mod_lt _ (Nat.two_pow_pos _)

private theorem exponentField_eq (f : Format) (bits : Nat) :
    f.exponentField bits = bits / Nat.pow 2 f.fractionBits % Nat.pow 2 f.exponentBits := by
  have hsign : f.signBit = Nat.pow 2 f.fractionBits * Nat.pow 2 f.exponentBits := by
    rw [signBit, Nat.pow_eq, Nat.pow_eq, Nat.pow_eq, Nat.add_comm, Nat.pow_add]
  rw [exponentField, unsigned, hsign, Nat.mod_mul_right_div_self]

private theorem isNegative_iff (f : Format) (bits : Nat) :
    f.isNegative bits = true ↔ Nat.pow 2 f.exponentBits ≤ bits / Nat.pow 2 f.fractionBits := by
  simp only [isNegative, decide_eq_true_iff, signBit, Nat.pow_eq, Nat.pow_add]
  rw [Nat.le_div_iff_mul_le (Nat.two_pow_pos _)]

private theorem fraction_unsigned (f : Format) (bits : Nat) :
    f.unsigned bits % Nat.pow 2 f.fractionBits = f.fraction bits :=
  Nat.mod_mod_of_dvd _ (Nat.pow_dvd_pow 2 (Nat.le_add_left _ _))

theorem unsigned_eq (f : Format) (bits : Nat) :
    f.exponentField bits * Nat.pow 2 f.fractionBits + f.fraction bits = f.unsigned bits := by
  rw [exponentField, ← fraction_unsigned, Nat.div_add_mod']

private theorem magnitude_lt_binade (f : Format) (bits : Nat) :
    f.magnitude bits < Nat.pow 2 f.fractionBits * 2 ^ f.exponentField bits := by
  have hfraction := f.fraction_lt bits
  rw [magnitude, step]
  split
  · next hzero => simpa [hzero] using hfraction
  · next hpos =>
    obtain ⟨e, he⟩ := Nat.exists_eq_succ_of_ne_zero hpos
    rw [he, Nat.succ_sub_one, Nat.pow_succ, Nat.mul_comm (2 ^ e), ← Nat.mul_assoc]
    exact Nat.mul_lt_mul_of_pos_right (by omega) (Nat.two_pow_pos e)

private theorem binade_le_magnitude (hpos : f.exponentField bits ≠ 0) :
    Nat.pow 2 f.fractionBits * 2 ^ (f.exponentField bits - 1) ≤ f.magnitude bits := by
  rw [magnitude, if_neg hpos, step]
  exact Nat.mul_le_mul_right _ (Nat.le_add_right _ _)

theorem magnitude_lt_of_unsigned_lt (h : f.unsigned a < f.unsigned b) :
    f.magnitude a < f.magnitude b := by
  have hle : f.exponentField a ≤ f.exponentField b := Nat.div_le_div_right h.le
  rcases hle.lt_or_eq with hlt | heq
  · calc
      f.magnitude a < Nat.pow 2 f.fractionBits * 2 ^ f.exponentField a := f.magnitude_lt_binade a
      _ ≤ Nat.pow 2 f.fractionBits * 2 ^ (f.exponentField b - 1) :=
        Nat.mul_le_mul_left _ (Nat.pow_le_pow_right two_pos (Nat.le_sub_one_of_lt hlt))
      _ ≤ f.magnitude b := binade_le_magnitude (Nat.ne_zero_of_lt hlt)
  · have hfraction : f.fraction a < f.fraction b := by
      rw [← f.unsigned_eq a, ← f.unsigned_eq b, heq] at h
      exact Nat.lt_of_add_lt_add_left h
    rw [magnitude, magnitude, step, step, heq]
    split
    · exact hfraction
    · exact Nat.mul_lt_mul_of_pos_right (by omega) (Nat.two_pow_pos _)

theorem magnitude_eq_of_unsigned_eq (h : f.unsigned a = f.unsigned b) :
    f.magnitude a = f.magnitude b := by
  have hexponent : f.exponentField a = f.exponentField b := by rw [exponentField, exponentField, h]
  have hfraction : f.fraction a = f.fraction b := by
    rw [← fraction_unsigned, ← fraction_unsigned, h]
  rw [magnitude, magnitude, step, step, hexponent, hfraction]

theorem magnitude_lt_iff : f.magnitude a < f.magnitude b ↔ f.unsigned a < f.unsigned b := by
  refine ⟨fun h => ?_, magnitude_lt_of_unsigned_lt⟩
  by_contra hle
  rcases (not_lt.mp hle).lt_or_eq with hlt | heq
  · exact absurd h (magnitude_lt_of_unsigned_lt hlt).asymm
  · exact absurd (magnitude_eq_of_unsigned_eq heq) h.ne'

theorem magnitude_eq_zero_iff (f : Format) (bits : Nat) :
    f.magnitude bits = 0 ↔ f.unsigned bits = 0 := by
  have hzero : f.unsigned 0 = 0 := Nat.zero_mod _
  have hmagnitude : f.magnitude 0 = 0 := by simp [magnitude, exponentField, hzero, fraction]
  have hlt := magnitude_lt_iff (f := f) (a := 0) (b := bits)
  rw [hzero, hmagnitude] at hlt
  omega

theorem not_isNaN_of_unsigned_eq_zero (h : f.unsigned bits = 0) : f.isNaN bits = false := by
  simp [isNaN, h]

theorem totalCompare_eq (h : f.unsigned a ≠ 0 ∨ f.unsigned b ≠ 0) :
    f.totalCompare a b = compare (f.units a) (f.units b) := by
  have hlt := magnitude_lt_iff (f := f) (a := a) (b := b)
  have hgt := magnitude_lt_iff (f := f) (a := b) (b := a)
  have ha := f.magnitude_eq_zero_iff a
  have hb := f.magnitude_eq_zero_iff b
  have hcongr : ∀ {i j i' j' : Int}, (i < j ↔ i' < j') → (j < i ↔ j' < i') →
      compare i j = compare i' j' := by
    intro i j i' j' hij hji
    simp only [Int.compare_eq_ite_le, ← not_lt, hij, hji]
  rw [totalCompare, rankOf, rankOf, units, units]
  apply hcongr
  · split <;> split <;> omega
  · split <;> split <;> omega

private theorem bias_pos (hf : 2 ≤ f.exponentBits) : 0 < f.bias := by
  have h : Nat.pow 2 1 ≤ Nat.pow 2 (f.exponentBits - 1) :=
    Nat.pow_le_pow_right two_pos (Nat.le_sub_one_of_lt hf)
  exact Nat.sub_pos_of_lt h

private theorem unitPlaces_eq (f : Format) : f.unitPlaces = f.bias - 1 + f.fractionBits := by
  rw [unitPlaces, bias, Nat.sub_sub]

private theorem cut_fields (bits : Nat) {k : Nat} (hk : k ≤ f.fractionBits) :
    let cut := bits - bits % Nat.pow 2 k
    f.exponentField cut = f.exponentField bits ∧ f.isNegative cut = f.isNegative bits ∧
      f.fraction cut = f.fraction bits - f.fraction bits % Nat.pow 2 k := by
  intro cut
  have hmod : f.fraction bits % Nat.pow 2 k = bits % Nat.pow 2 k :=
    Nat.mod_mod_of_dvd _ (Nat.pow_dvd_pow 2 hk)
  have hparts : cut / Nat.pow 2 f.fractionBits = bits / Nat.pow 2 f.fractionBits ∧
      cut % Nat.pow 2 f.fractionBits = f.fraction bits - f.fraction bits % Nat.pow 2 k := by
    have hsplit : f.fraction bits + Nat.pow 2 f.fractionBits * (bits / Nat.pow 2 f.fractionBits) =
        bits := Nat.mod_add_div bits (Nat.pow 2 f.fractionBits)
    have hle := Nat.mod_le (f.fraction bits) (Nat.pow 2 k)
    have hlt := f.fraction_lt bits
    refine (Nat.div_mod_unique (Nat.two_pow_pos _)).mpr ⟨?_, (Nat.sub_le _ _).trans_lt hlt⟩
    show _ = bits - bits % Nat.pow 2 k
    rw [← hmod, ← Nat.sub_add_comm hle]
    exact congrArg (· - _) hsplit
  refine ⟨?_, ?_, hparts.2⟩
  · rw [exponentField_eq, exponentField_eq, hparts.1]
  · rw [Bool.eq_iff_iff, isNegative_iff, isNegative_iff, hparts.1]

private theorem isNegative_wholePart (f : Format) (bits : Nat) :
    f.isNegative (f.wholePart bits) = f.isNegative bits := by
  have hpos : 0 < f.signBit := Nat.two_pow_pos _
  unfold wholePart
  split
  · cases h : f.isNegative bits <;> simp [isNegative, hpos.ne']
  · next hlarge => exact (cut_fields bits (by omega)).2.1

theorem magnitude_wholePart (hf : 2 ≤ f.exponentBits) (bits : Nat) :
    f.magnitude (f.wholePart bits) =
      f.magnitude bits / Nat.pow 2 f.unitPlaces * Nat.pow 2 f.unitPlaces := by
  have hbias := bias_pos hf
  have hplaces := f.unitPlaces_eq
  unfold wholePart
  split
  · next hsmall =>
    have hlt : f.magnitude bits < Nat.pow 2 f.unitPlaces := by
      refine (f.magnitude_lt_binade bits).trans_le ?_
      rw [hplaces, Nat.add_comm, Nat.pow_eq, Nat.pow_eq, Nat.pow_add]
      exact Nat.mul_le_mul_left _ (Nat.pow_le_pow_right two_pos (Nat.le_sub_one_of_lt hsmall))
    rw [Nat.div_eq_of_lt hlt, Nat.zero_mul, magnitude_eq_zero_iff]
    split
    · exact Nat.mod_self _
    · exact Nat.zero_mod _
  · next hlarge =>
    have hexponent : f.exponentField bits ≠ 0 := by omega
    obtain ⟨hfield, -, hfraction⟩ := cut_fields bits
      (show f.bias + f.fractionBits - f.exponentField bits ≤ f.fractionBits by omega)
    rw [magnitude, magnitude, step, step, hfield, if_neg hexponent, if_neg hexponent, hfraction]
    by_cases hle : f.exponentField bits ≤ f.bias + f.fractionBits
    · -- the point stands `k` places before the end of the significand
      obtain ⟨k, hk⟩ : ∃ k, f.bias + f.fractionBits = k + f.exponentField bits :=
        ⟨_, (Nat.sub_add_cancel hle).symm⟩
      have hunit : Nat.pow 2 f.unitPlaces = Nat.pow 2 k * Nat.pow 2 (f.exponentField bits - 1) := by
        rw [Nat.pow_eq, Nat.pow_eq, Nat.pow_eq, ← Nat.pow_add]
        congr 1
        omega
      have hmod : (Nat.pow 2 f.fractionBits + f.fraction bits) % Nat.pow 2 k =
          f.fraction bits % Nat.pow 2 k := by
        obtain ⟨c, hc⟩ : Nat.pow 2 k ∣ Nat.pow 2 f.fractionBits := Nat.pow_dvd_pow 2 (by omega)
        rw [hc, Nat.mul_add_mod]
      have hdiv := Nat.mod_add_div' (Nat.pow 2 f.fractionBits + f.fraction bits) (Nat.pow 2 k)
      have hcut := Nat.mod_le (f.fraction bits) (Nat.pow 2 k)
      have hquotient : (Nat.pow 2 f.fractionBits + f.fraction bits) *
          Nat.pow 2 (f.exponentField bits - 1) / Nat.pow 2 f.unitPlaces =
            (Nat.pow 2 f.fractionBits + f.fraction bits) / Nat.pow 2 k := by
        rw [hunit]
        exact Nat.mul_div_mul_right _ _ (Nat.two_pow_pos _)
      rw [show f.bias + f.fractionBits - f.exponentField bits = k by omega, hquotient, hunit,
        ← Nat.mul_assoc]
      congr 1
      omega
    · have hcut :
          f.fraction bits % Nat.pow 2 (f.bias + f.fractionBits - f.exponentField bits) = 0 := by
        rw [Nat.sub_eq_zero_of_le (by omega)]
        exact Nat.mod_one _
      rw [hcut, Nat.sub_zero]
      refine (Nat.div_mul_cancel (Dvd.dvd.mul_left ?_ _)).symm
      exact Nat.pow_dvd_pow 2 (by omega)

theorem units_wholePart (hf : 2 ≤ f.exponentBits) (bits : Nat) :
    f.units (f.wholePart bits) = f.truncate bits * (Nat.pow 2 f.unitPlaces : Nat) := by
  rw [truncate, units, units, isNegative_wholePart, magnitude_wholePart hf]
  split
  · rw [Int.neg_tdiv, ← Int.ofNat_tdiv]
    push_cast
    ring
  · rw [← Int.ofNat_tdiv]
    push_cast
    ring

/-- The number that a finite pattern stands for. -/
def value (f : Format) (bits : Nat) : ℚ :=
  let size : ℚ :=
    if f.exponentField bits = 0 then
      (2 : ℚ) ^ (1 - f.bias : ℤ) * (f.fraction bits / 2 ^ f.fractionBits)
    else (2 : ℚ) ^ (f.exponentField bits - f.bias : ℤ) * (1 + f.fraction bits / 2 ^ f.fractionBits)
  if f.isNegative bits then -size else size

theorem value_eq (hf : 2 ≤ f.exponentBits) (bits : Nat) :
    f.value bits = f.units bits / 2 ^ f.unitPlaces := by
  have hbias := bias_pos hf
  have hunit : (2 : ℚ) ^ f.unitPlaces = 2 ^ (f.bias - 1 : ℤ) * 2 ^ f.fractionBits := by
    rw [f.unitPlaces_eq, pow_add, ← zpow_natCast, Nat.cast_sub hbias, Nat.cast_one]
  have hsize : (f.magnitude bits : ℚ) / 2 ^ f.unitPlaces =
      if f.exponentField bits = 0 then
        (2 : ℚ) ^ (1 - f.bias : ℤ) * (f.fraction bits / 2 ^ f.fractionBits)
      else (2 : ℚ) ^ (f.exponentField bits - f.bias : ℤ) *
        (1 + f.fraction bits / 2 ^ f.fractionBits) := by
    rw [hunit, magnitude, step]
    split
    · rw [← neg_sub, zpow_neg]
      field_simp
    · next hexponent =>
      have hstep : (2 : ℚ) ^ (f.exponentField bits - f.bias : ℤ) =
          2 ^ (f.exponentField bits - 1) / 2 ^ (f.bias - 1 : ℤ) := by
        rw [eq_div_iff (by positivity), ← zpow_add₀ two_ne_zero, ← zpow_natCast,
          Nat.cast_sub (Nat.one_le_iff_ne_zero.mpr hexponent), Nat.cast_one]
        congr 1
        ring
      rw [hstep, Nat.pow_eq, Nat.pow_eq]
      push_cast
      field_simp
  rw [value, units, ← hsize]
  split
  · push_cast
    ring
  · push_cast
    ring

end TableIndex.Binary.Format
