import TableIndex.Proofs.Binary.Rounding
import TableIndex.Proofs.Value.Order
import TableIndex.Value.Digest

/-!
# Digests of equal values

Equality of an integer and a float is exact, and a digest rounds the integer. An integer that equals
a float needs no rounding, so equal values have one digest, the zeros and every NaN included.
-/

namespace TableIndex.Value

open Binary (binary64)
open Binary.Format

private theorem compare_eq_eq_iff {a b : Value} :
    a.compare b = .eq ↔ a.rank = b.rank ∧ a.position = b.position ∧ a.label = b.label := by
  simp only [compare_eq, compareLex, compareOn, Ordering.then_eq_eq,
    Std.compare_eq_iff_eq]

private theorem toNat_lt_range (bits : UInt64) : bits.toNat < 2 * binary64.signBit :=
  bits.toNat_lt

private theorem withoutSignedZero_eq {a b : UInt64}
    (h : binary64.units a.toNat = binary64.units b.toNat) :
    withoutSignedZero a = withoutSignedZero b := by
  rcases eq_of_units_eq (toNat_lt_range a) (toNat_lt_range b) h with ⟨ha, hb⟩ | hbits
  · rw [withoutSignedZero, withoutSignedZero, if_pos ha, if_pos hb]
  · rw [UInt64.toNat_inj.mp hbits]

private theorem floatOfInt_eq {n : Int64} {bits : UInt64}
    (h : n.toInt * one = binary64.units bits.toNat) : floatOfInt n = withoutSignedZero bits := by
  -- no integer lies beyond the infinities
  have hbounds : (integer n).position ∈ Set.Icc (-horizon) horizon :=
    (number?_eq (a := integer n) rfl).2.2.1
  have hfinite : binary64.unsigned bits.toNat ≤ binary64.infinity := by
    have hmagnitude : binary64.magnitude bits.toNat ≤ binary64.magnitude binary64.infinity := by
      have hposition : (integer n).position = binary64.units bits.toNat := h
      rw [hposition, units, horizon, Set.mem_Icc] at hbounds
      split at hbounds <;> omega
    have hinfinity : binary64.unsigned binary64.infinity = binary64.infinity := by decide
    rw [← hinfinity]
    exact not_lt.mp (mt magnitude_lt_iff.mpr (not_lt.mpr hmagnitude))
  rw [floatOfInt, ofInt_eq h.symm hfinite (toNat_lt_range bits), withoutSignedZero]
  split
  · rfl
  · exact UInt64.ofNat_toNat

/-- Equal values give the same bytes to hash, whatever their kinds. -/
theorem digest_eq_of_beq {a b : Value} (h : (a == b) = true) : a.digest = b.digest := by
  obtain ⟨hrank, hposition, hlabel⟩ := compare_eq_eq_iff.mp (beq_iff_eq.mp h)
  cases a with
  | null => cases b with
    | null => rfl
    | _ => cases hrank
  | boolean x => cases b with
    | boolean y =>
        have hequal : x = y := by
          revert hposition
          cases x <;> cases y <;> decide
        rw [hequal]
    | _ => cases hrank
  | integer x => cases b with
    | integer y =>
        have hequal : x.toInt = y.toInt := Int.eq_of_mul_eq_mul_right (by decide +kernel) hposition
        rw [Int64.toInt_inj.mp hequal]
    | float y => exact congrArg littleEndian (floatOfInt_eq hposition)
    | _ => cases hrank
  | float x => cases b with
    | integer y => exact congrArg littleEndian (floatOfInt_eq hposition.symm).symm
    | float y => exact congrArg littleEndian (withoutSignedZero_eq hposition)
    | _ => cases hrank
  | text s => cases b with
    | text t => exact congrArg (fun u : String => u.toUTF8.toList ++ [0xff]) hlabel
    | _ => cases hrank

/-- The least integer and the float of this value. -/
theorem digest_eq_of_beq_least :
    (integer Int64.minValue == float 0xc3e0000000000000) = true ∧
      (integer Int64.minValue).digest = (float 0xc3e0000000000000).digest :=
  ⟨by decide +kernel, digest_eq_of_beq (by decide +kernel)⟩

end TableIndex.Value
