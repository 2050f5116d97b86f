import Mathlib.Data.EReal.Basic
import TableIndex.Proofs.Binary.Scale
import TableIndex.Value.Order

/-!
# The order of values

However two values are compared, the result is the order of their kinds, then of their places on one
scale of whole numbers, then of their texts. So all comparisons fit into one total preorder. On the
scale an integer and a float stand where their numbers do, with nothing rounded.
-/

namespace TableIndex.Value

open Binary (binary64)
open Binary.Format

/-- The number 1, counted in units of the least positive float. -/
def one : Int := (Nat.pow 2 binary64.unitPlaces : Nat)

/-- The place among the values of one kind, texts apart. Numbers are counted in units. -/
def position : Value → Int
  | null => 0
  | boolean b => if b then 1 else 0
  | integer n => n.toInt * one
  | float bits => binary64.units bits.toNat
  | text _ => 0

/-- The place among texts. -/
def label : Value → String
  | text s => s
  | _ => ""

private theorem compareFloats_eq (a b : Nat) :
    compareFloats a b = compare (binary64.units a) (binary64.units b) := by
  unfold compareFloats
  by_cases hequal : binary64.compare? a b = some .eq
  · rw [hequal, beq_self_eq_true, if_pos rfl]
    unfold compare? at hequal
    split at hequal
    · cases hequal
    · exact (Option.some.inj hequal).symm
  · rw [if_neg (by simpa using hequal)]
    refine totalCompare_eq (Classical.byContradiction fun hzero => hequal ?_)
    push Not at hzero
    obtain ⟨ha, hb⟩ := hzero
    have hunits : ∀ {bits}, binary64.unsigned bits = 0 → binary64.units bits = 0 := by
      intro bits hbits
      simp [units, (binary64.magnitude_eq_zero_iff _).mpr hbits]
    simp [compare?, not_isNaN_of_unsigned_eq_zero ha, not_isNaN_of_unsigned_eq_zero hb, hunits ha,
      hunits hb]

private theorem compare_cut (n u : Int) {unit : Int} (hunit : 0 < unit) :
    (compare n (u.tdiv unit)).then (compare (u.tdiv unit * unit) u) = compare (n * unit) u := by
  have hsplit : u.tdiv unit * unit + u.tmod unit = u := Int.tdiv_mul_add_tmod u unit
  have hlow : -unit < u.tmod unit := Int.lt_tmod_of_pos u hunit
  have hhigh : u.tmod unit < unit := Int.tmod_lt_of_pos u hunit
  rcases Int.lt_trichotomy n (u.tdiv unit) with hlt | rfl | hgt
  · have hle : (n + 1) * unit ≤ u.tdiv unit * unit := Int.mul_le_mul_of_nonneg_right hlt hunit.le
    have hlt' : n * unit < u := by linarith
    rw [compare_lt_iff_lt.mpr hlt, compare_lt_iff_lt.mpr hlt']
    rfl
  · rw [compare_eq_iff_eq.mpr rfl, Ordering.eq_then]
  · have hle : (u.tdiv unit + 1) * unit ≤ n * unit := Int.mul_le_mul_of_nonneg_right hgt hunit.le
    have hgt' : u < n * unit := by linarith
    rw [compare_gt_iff_gt.mpr hgt, compare_gt_iff_gt.mpr hgt']
    rfl

private theorem tdiv_lt_of_lt_mul {u k unit : Int} (hk : 0 < k) (hunit : 0 < unit)
    (h : u < k * unit) : u.tdiv unit < k := by
  rcases Int.le_total 0 u with hu | hu
  · have hsplit : u.tdiv unit * unit + u.tmod unit = u := Int.tdiv_mul_add_tmod u unit
    have hrest : 0 ≤ u.tmod unit := Int.tmod_nonneg unit hu
    refine Int.lt_of_mul_lt_mul_right ?_ hunit.le
    linarith
  · have hle := Int.tdiv_le_tdiv hunit hu
    rw [Int.zero_tdiv] at hle
    exact hle.trans_lt hk

private theorem toInt_clampInt64 {n : Int} (hlow : -2 ^ 63 ≤ n) (hhigh : n < 2 ^ 63) :
    (clampInt64 n).toInt = n := by
  have hmin : Int64.minValue.toInt = -2 ^ 63 := rfl
  have hmax : Int64.maxValue.toInt = 2 ^ 63 - 1 := rfl
  rw [clampInt64, hmin, hmax, min_eq_left (by omega), max_eq_right hlow]
  exact Int64.toInt_ofInt_of_le hlow hhigh

private theorem one_pos : 0 < one := by decide +kernel

private theorem units_integerBound : binary64.units integerBound = 2 ^ 63 * one := by
  decide +kernel

private theorem units_neg_integerBound :
    binary64.units (binary64.signBit + integerBound) = -2 ^ 63 * one := by decide +kernel

private theorem integer_bounds (n : Int64) :
    -2 ^ 63 * one ≤ n.toInt * one ∧ n.toInt * one < 2 ^ 63 * one :=
  ⟨Int.mul_le_mul_of_nonneg_right n.le_toInt one_pos.le,
    Int.mul_lt_mul_of_pos_right n.toInt_lt one_pos⟩

/-- The position of infinity. -/
def horizon : Int := binary64.magnitude binary64.infinity

private theorem bound_lt_horizon : 2 ^ 63 * one < horizon := by decide +kernel

private theorem horizon_lt_of_isNaN {bits : Nat} (h : binary64.isNaN bits = true) :
    horizon < (binary64.magnitude bits : Int) := by
  have hinfinity : binary64.unsigned binary64.infinity = binary64.infinity := by decide
  exact Int.ofNat_lt.mpr (magnitude_lt_of_unsigned_lt
    (hinfinity.trans_lt (of_decide_eq_true h)))

private theorem integerOf_wholePart {bits : Nat} (hnan : binary64.isNaN bits = false)
    (hlow : -2 ^ 63 * one ≤ binary64.units bits) (hhigh : binary64.units bits < 2 ^ 63 * one) :
    (integerOf (binary64.wholePart bits)).toInt = (binary64.units bits).tdiv one := by
  have hunits : binary64.units (binary64.wholePart bits) = (binary64.units bits).tdiv one * one :=
    units_wholePart (by decide) bits
  have hcut : binary64.truncate (binary64.wholePart bits) = (binary64.units bits).tdiv one := by
    rw [truncate, hunits]
    exact Int.mul_tdiv_cancel _ one_pos.ne'
  have hnumber : binary64.isNaN (binary64.wholePart bits) = false := by
    have hle : binary64.magnitude (binary64.wholePart bits) ≤ binary64.magnitude bits := by
      rw [magnitude_wholePart (by decide)]
      exact Nat.div_mul_le_self _ _
    rw [isNaN, decide_eq_false_iff_not, not_lt] at hnan ⊢
    exact (not_lt.mp (mt magnitude_lt_iff.mpr (not_lt.mpr hle))).trans hnan
  have hlow' := Int.tdiv_le_tdiv one_pos hlow
  rw [Int.mul_tdiv_cancel _ one_pos.ne'] at hlow'
  rw [integerOf, if_neg (by simp [hnumber]), hcut,
    toInt_clampInt64 hlow' (tdiv_lt_of_lt_mul (by decide) one_pos hhigh)]

/-- An integer and a float are compared as their numbers are, whether the float lies beyond all
integers or is cut to its whole part. -/
theorem compareToFloat_eq (n : Int64) (bits : Nat) :
    compareToFloat n bits = compare (n.toInt * one) (binary64.units bits) := by
  obtain ⟨hlow, hhigh⟩ := integer_bounds n
  unfold compareToFloat
  by_cases hnan : binary64.isNaN bits = true
  · have hfar := bound_lt_horizon.trans (horizon_lt_of_isNaN hnan)
    rw [if_pos hnan, units]
    split
    · rw [eq_comm, compare_gt_iff_gt]
      linarith
    · rw [eq_comm, compare_lt_iff_lt]
      linarith
  have hcompare : ∀ {b}, binary64.isNaN b = false →
      binary64.compare? bits b = some (compare (binary64.units bits) (binary64.units b)) := by
    intro b hb
    simp [compare?, hnan, hb]
  rw [if_neg hnan, hcompare (by decide), hcompare (by decide), units_integerBound,
    units_neg_integerBound, Option.any_some]
  by_cases habove : 2 ^ 63 * one ≤ binary64.units bits
  · rw [if_pos (Ordering.isGE_iff_ne_lt.mpr (compare_ge_iff_ge.mpr habove)), eq_comm,
      compare_lt_iff_lt]
    exact hhigh.trans_le habove
  rw [if_neg (mt Ordering.isGE_iff_ne_lt.mp (mt compare_ge_iff_ge.mp habove))]
  by_cases hbelow : binary64.units bits < -2 ^ 63 * one
  · rw [compare_lt_iff_lt.mpr hbelow, beq_self_eq_true, if_pos rfl, eq_comm, compare_gt_iff_gt]
    exact hbelow.trans_le hlow
  rw [if_neg (fun heq => hbelow (compare_lt_iff_lt.mp (Option.some.inj (beq_iff_eq.mp heq))))]
  -- within the bounds the whole part is an integer, and comparing in two steps loses nothing
  have hunits : binary64.units (binary64.wholePart bits) = (binary64.units bits).tdiv one * one :=
    units_wholePart (by decide) bits
  show (compare n.toInt (integerOf (binary64.wholePart bits)).toInt).then
    (compareFloats (binary64.wholePart bits) bits) = _
  rw [integerOf_wholePart (by simpa using hnan) (not_lt.mp hbelow) (not_le.mp habove),
    compareFloats_eq, hunits]
  exact compare_cut n.toInt (binary64.units bits) one_pos

theorem compare_eq (a b : Value) :
    a.compare b =
      compareLex (compareOn rank) (compareLex (compareOn position) (compareOn label)) a b := by
  have hnumbers : ∀ x y : Int, compare x y = (compare x y).then (compare "" "") := by
    intro x y
    rw [show compare "" "" = .eq from Std.ReflCmp.compare_self, Ordering.then_eq]
  cases a with
  | null => cases b <;> rfl
  | boolean x =>
      cases b with
      | boolean y => cases x <;> cases y <;> rfl
      | _ => rfl
  | integer x =>
      cases b with
      | integer y =>
          have hscale := cmp_mul_pos_right one_pos x.toInt y.toInt
          rw [cmp_eq_compare, cmp_eq_compare] at hscale
          exact hscale.symm.trans (hnumbers _ _)
      | float y => exact (compareToFloat_eq x y.toNat).trans (hnumbers _ _)
      | _ => rfl
  | float x =>
      cases b with
      | integer y =>
          have hswap := (compareToFloat_eq y x.toNat).symm ▸
            Std.OrientedOrd.eq_swap (a := binary64.units x.toNat) (b := y.toInt * one)
          exact hswap.symm.trans (hnumbers _ _)
      | float y => exact (compareFloats_eq x.toNat y.toNat).trans (hnumbers _ _)
      | _ => rfl
  | text x =>
      cases b with
      | text y => rfl
      | _ => rfl

instance transCmp_compare : Std.TransCmp Value.compare := by
  rw [show Value.compare =
      compareLex (compareOn rank) (compareLex (compareOn position) (compareOn label)) from
    funext fun a => funext fun b => compare_eq a b]
  infer_instance

private theorem compare_of_rank_eq {a b : Value} (hrank : a.rank = b.rank)
    (hlabel : a.label = b.label) :
    a.compare b = compare a.position b.position := by
  simp only [compare_eq, compareLex, compareOn, hrank, hlabel, Std.compare_self, Ordering.eq_then,
    Ordering.then_eq]

/-- The number that a numeric value stands for, if it is not a NaN. -/
noncomputable def number? : Value → Option EReal
  | integer n => some (n.toInt : ℝ)
  | float bits =>
      let bits := bits.toNat
      if binary64.isNaN bits then none
      else if binary64.unsigned bits = binary64.infinity then
        some (if binary64.isNegative bits then ⊥ else ⊤)
      else some (binary64.value bits : ℝ)
  | _ => none

private theorem horizon_pos : 0 < horizon := by decide +kernel

/-- The number in a position between the infinities. -/
noncomputable def numberAt (i : Int) : EReal :=
  if i = horizon then ⊤ else if i = -horizon then ⊥ else ((i / one : ℝ) : EReal)

private theorem numberAt_strictMonoOn : StrictMonoOn numberAt (Set.Icc (-horizon) horizon) := by
  intro i hi j hj hlt
  have hpos : (0 : ℝ) < one := Int.cast_pos.mpr one_pos
  have hi' : i ≠ horizon := (hlt.trans_le hj.2).ne
  have hj' : j ≠ -horizon := (hi.1.trans_lt hlt).ne'
  rw [numberAt, numberAt, if_neg hi', if_neg hj']
  split
  · split
    · exact bot_lt_top
    · exact EReal.bot_lt_coe _
  · split
    · exact EReal.coe_lt_top _
    · exact EReal.coe_lt_coe_iff.mpr (div_lt_div_of_pos_right (Int.cast_lt.mpr hlt) hpos)

private theorem infinite_eq {bits : Nat} (h : binary64.unsigned bits = binary64.infinity) :
    binary64.units bits ∈ Set.Icc (-horizon) horizon ∧
      numberAt (binary64.units bits) = if binary64.isNegative bits then ⊥ else ⊤ := by
  have hpos := horizon_pos
  have hmagnitude : (binary64.magnitude bits : Int) = horizon :=
    congrArg Int.ofNat (magnitude_eq_of_unsigned_eq (h.trans (by decide)))
  rw [units, hmagnitude]
  split
  · exact ⟨⟨le_rfl, by linarith⟩, by rw [numberAt, if_neg (by linarith), if_pos rfl]⟩
  · exact ⟨⟨by linarith, le_rfl⟩, by rw [numberAt, if_pos rfl]⟩

private theorem finite_eq {bits : Nat} (h : binary64.unsigned bits < binary64.infinity) :
    binary64.units bits ∈ Set.Icc (-horizon) horizon ∧
      numberAt (binary64.units bits) = ((binary64.value bits : ℝ) : EReal) := by
  have hlt : (binary64.magnitude bits : Int) < horizon :=
    Int.ofNat_lt.mpr (magnitude_lt_of_unsigned_lt (h.trans_eq (by decide)))
  have hrange : -horizon < binary64.units bits ∧ binary64.units bits < horizon := by
    rw [units]
    split
    · constructor <;> omega
    · constructor <;> omega
  have hone : (one : ℝ) = 2 ^ binary64.unitPlaces := by
    rw [one, Nat.pow_eq, Int.cast_natCast, Nat.cast_pow, Nat.cast_ofNat]
  refine ⟨⟨hrange.1.le, hrange.2.le⟩, ?_⟩
  rw [numberAt, if_neg hrange.2.ne, if_neg hrange.1.ne', value_eq (by decide), hone, Rat.cast_div,
    Rat.cast_intCast, Rat.cast_pow, Rat.cast_ofNat]

theorem number?_eq {a : Value} {x : EReal} (h : a.number? = some x) :
    a.rank = 2 ∧ a.label = "" ∧ a.position ∈ Set.Icc (-horizon) horizon ∧
      numberAt a.position = x := by
  cases a with
  | integer n =>
      obtain ⟨hlow, hhigh⟩ := integer_bounds n
      have hbound := bound_lt_horizon
      have hlt : n.toInt * one < horizon := by linarith
      have hgt : -horizon < n.toInt * one := by linarith
      obtain rfl := Option.some.inj h
      refine ⟨rfl, rfl, ⟨hgt.le, hlt.le⟩, ?_⟩
      rw [position, numberAt, if_neg hlt.ne, if_neg hgt.ne', Int.cast_mul,
        mul_div_cancel_right₀ _ (Int.cast_ne_zero.mpr one_pos.ne')]
  | float bits =>
      refine ⟨rfl, rfl, ?_⟩
      simp only [number?] at h
      split at h
      · cases h
      · next hnan =>
        split at h
        · next hinfinite =>
          obtain rfl := Option.some.inj h
          exact infinite_eq hinfinite
        · next hfinite =>
          obtain rfl := Option.some.inj h
          rw [isNaN, decide_eq_true_iff, not_lt] at hnan
          exact finite_eq (lt_of_le_of_ne hnan hfinite)
  | null => cases h
  | boolean b => cases h
  | text s => cases h

/-- The comparison is a total preorder, and exact on numbers: beyond them there are the NaNs only,
the negative ones at the low end. -/
structure ExactOrder (cmp : Value → Value → Ordering) : Prop where
  swap : ∀ a b, cmp b a = (cmp a b).swap
  trans : ∀ a b c, cmp a b ≠ .gt → cmp b c ≠ .gt → cmp a c ≠ .gt
  equivalence : Equivalence fun a b => cmp a b = .eq
  congr : ∀ a a' b b', cmp a a' = .eq → cmp b b' = .eq → cmp a b = cmp a' b'
  exact : ∀ a b x y, a.number? = some x → b.number? = some y → (cmp a b).Compares x y
  below : ∀ bits b y, binary64.isNaN bits.toNat = true → binary64.isNegative bits.toNat = true →
    b.number? = some y → cmp (float bits) b = .lt
  above : ∀ bits b y, binary64.isNaN bits.toNat = true → binary64.isNegative bits.toNat = false →
    b.number? = some y → cmp (float bits) b = .gt

/-- Values are compared exactly, whatever their kinds. -/
theorem compare_exactOrder : ExactOrder Value.compare where
  swap a b := Std.OrientedCmp.eq_swap
  trans := by
    intro a b c hab hbc
    exact Ordering.isLE_iff_ne_gt.mp (Std.TransCmp.isLE_trans (Ordering.isLE_iff_ne_gt.mpr hab)
      (Ordering.isLE_iff_ne_gt.mpr hbc))
  equivalence := ⟨fun a => Std.ReflCmp.compare_self, Std.OrientedCmp.eq_symm, Std.TransCmp.eq_trans⟩
  congr a a' b b' ha hb := (Std.TransCmp.congr_left ha).trans (Std.TransCmp.congr_right hb)
  exact := by
    intro a b x y ha hb
    obtain ⟨hra, hla, hpa, rfl⟩ := number?_eq ha
    obtain ⟨hrb, hlb, hpb, rfl⟩ := number?_eq hb
    rw [numberAt_strictMonoOn.compares hpa hpb, ← compare_iff,
      compare_of_rank_eq (hra.trans hrb.symm) (hla.trans hlb.symm)]
  below := by
    intro bits b y hnan hnegative hb
    obtain ⟨hr, hl, hp, -⟩ := number?_eq hb
    have hfar := horizon_lt_of_isNaN hnan
    have hposition : (float bits).position = -binary64.magnitude bits.toNat := if_pos hnegative
    rw [compare_of_rank_eq (show rank (float bits) = _ from hr.symm) hl.symm, compare_lt_iff_lt,
      hposition]
    exact (neg_lt_neg hfar).trans_le hp.1
  above := by
    intro bits b y hnan hpositive hb
    obtain ⟨hr, hl, hp, -⟩ := number?_eq hb
    have hfar := horizon_lt_of_isNaN hnan
    have hposition : (float bits).position = binary64.magnitude bits.toNat :=
      if_neg (by simp [hpositive])
    rw [compare_of_rank_eq (show rank (float bits) = _ from hr.symm) hl.symm, compare_gt_iff_gt,
      hposition]
    exact hp.2.trans_lt hfar

/-- Two to the power of 53 and one more: the nearest floats are equal, the values are not. -/
example : (integer 9007199254740993).compare (float 0x4340000000000000) = .gt := by decide +kernel

end TableIndex.Value
