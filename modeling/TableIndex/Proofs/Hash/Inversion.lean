import Mathlib.Logic.Equiv.Defs
import TableIndex.Hash.Mix

/-!
# Keys found again from their hashes

Both steps of an integer hash can be undone, so every hash is that of exactly one 64-bit key. The
multiplier is odd and has an inverse among the words. The fold of the high places into the low ones,
done twice, folds them twice as far down, and after enough repetitions past the end of the word.
-/

namespace TableIndex.Hash

variable {w : Nat}

/-- The word with every place folded into the one `places` below it. -/
def fold (places : Nat) (x : BitVec w) : BitVec w := x ^^^ (x >>> places)

private theorem fold_fold (places : Nat) (x : BitVec w) :
    fold places (fold places x) = fold (2 * places) x := by
  have hshift : (x ^^^ (x >>> places)) >>> places = x >>> places ^^^ x >>> (2 * places) := by
    rw [BitVec.ushiftRight_xor_distrib, ← BitVec.shiftRight_add, Nat.two_mul]
  calc fold places (fold places x)
    _ = x ^^^ x >>> places ^^^ (x >>> places ^^^ x >>> (2 * places)) := by
        rw [fold, fold, hshift]
    _ = x ^^^ (x >>> places ^^^ x >>> places) ^^^ x >>> (2 * places) := by
        simp only [BitVec.xor_assoc]
    _ = fold (2 * places) x := by rw [BitVec.xor_self, BitVec.xor_zero, fold]

private theorem fold_of_le {places : Nat} (h : w ≤ places) (x : BitVec w) : fold places x = x := by
  rw [fold, BitVec.ushiftRight_eq_zero h, BitVec.xor_zero]

private theorem fold_cycle (x : BitVec 64) : fold 16 (fold 16 (fold 16 (fold 16 x))) = x := by
  -- two folds are one by twice as far, and a fold by the whole word does nothing
  rw [fold_fold, fold_fold, fold_fold, fold_of_le (Nat.le_refl 64)]

/-- The word whose product with the multiplier is 1. -/
def multiplierInverse : UInt64 := 0x2040003d780970bd

private theorem multiplier_mul_inverse : multiplier * multiplierInverse = 1 := by decide

/-- The key of a hash. -/
def toInt64 (hash : UInt64) : Int64 :=
  (UInt64.ofBitVec (fold 16 (fold 16 (fold 16 (hash * multiplierInverse).toBitVec)))).toInt64

private theorem ofInt64_eq (key : Int64) :
    ofInt64 key = UInt64.ofBitVec (fold 16 key.toBitVec) * multiplier := rfl

private theorem toInt64_ofInt64 (key : Int64) : toInt64 (ofInt64 key) = key := by
  rw [toInt64, ofInt64_eq, UInt64.mul_assoc, multiplier_mul_inverse, UInt64.mul_one,
    UInt64.toBitVec_ofBitVec, fold_cycle]
  rfl

example : toInt64 (ofInt64 Int64.minValue) = Int64.minValue := by decide

private theorem ofInt64_toInt64 (hash : UInt64) : ofInt64 (toInt64 hash) = hash := by
  have hword : (toInt64 hash).toBitVec =
      fold 16 (fold 16 (fold 16 (hash * multiplierInverse).toBitVec)) := rfl
  rw [ofInt64_eq, hword, fold_cycle, UInt64.ofBitVec_toBitVec, UInt64.mul_assoc,
    UInt64.mul_comm multiplierInverse, multiplier_mul_inverse, UInt64.mul_one]

/-- Integer keys of 64 bits and their hashes, one to one. -/
def int64Equiv : Int64 ≃ UInt64 where
  toFun := ofInt64
  invFun := toInt64
  left_inv := toInt64_ofInt64
  right_inv := ofInt64_toInt64

theorem ofInt64_injective : Function.Injective ofInt64 := int64Equiv.injective

theorem ofInt32_injective : Function.Injective ofInt32 := by
  intro a b h
  have hwide : a.toInt64.toInt = b.toInt64.toInt := congrArg Int64.toInt (ofInt64_injective h)
  rw [Int32.toInt_toInt64, Int32.toInt_toInt64] at hwide
  exact Int32.toInt_inj.mp hwide

end TableIndex.Hash
