import DescriptorMarshal.Proofs.Exactness
import DescriptorMarshal.Proofs.Numbers
import Mathlib.Data.Int.ModEq
import Mathlib.Data.Rat.Floor

/-!
Host numbers as small integers. The integer part, the remainder of the division by `2 ^ 32` and the
sum that takes it from its sign are all doubles again, so that none of these steps is rounded, and
the word is the integer part modulo `2 ^ 32`. A narrower type has what is left of it modulo its own
width, whichever word it was cut from.
-/

namespace DescriptorMarshal

open BinaryFormat (binary64)

def truncate (q : ℚ) : Int := if q < 0 then ⌈q⌉ else ⌊q⌋

theorem truncate_neg (q : ℚ) : truncate (-q) = -truncate q := by
  unfold truncate
  rcases lt_trichotomy q 0 with hneg | rfl | hpos
  · rw [if_pos hneg, if_neg (by linarith), Int.floor_neg]
  · rw [neg_zero, if_neg (lt_irrefl _), Int.floor_zero, neg_zero]
  · rw [if_neg hpos.not_gt, if_pos (by linarith), Int.ceil_neg]

theorem truncate_natCast_div (num den : Nat) : truncate ((num : ℚ) / den) = (num / den : Nat) := by
  have hpos : (0 : ℚ) ≤ num / den := by positivity
  rw [truncate, if_neg hpos.not_gt, Rat.floor_natCast_div_natCast, Int.natCast_div]

theorem truncate_div (num den : Int) : truncate ((num : ℚ) / den) = num.tdiv den := by
  have hnat : ∀ n d : Nat, truncate (((n : Int) : ℚ) / ((d : Int) : ℚ)) = (n : Int).tdiv d := by
    intro n d
    rw [Int.cast_natCast, Int.cast_natCast, truncate_natCast_div, Int.ofNat_tdiv]
  obtain ⟨n, rfl | rfl⟩ := Int.eq_nat_or_neg num <;> obtain ⟨d, rfl | rfl⟩ := Int.eq_nat_or_neg den
  · exact hnat n d
  · rw [Int.tdiv_neg, Int.cast_neg, div_neg, truncate_neg, hnat]
  · rw [Int.neg_tdiv, Int.cast_neg, neg_div, truncate_neg, hnat]
  · rw [Int.neg_tdiv, Int.tdiv_neg, neg_neg, Int.cast_neg, Int.cast_neg, neg_div_neg_eq, hnat]

theorem truncate_intCast (n : Int) : truncate n = n := by
  have := truncate_div n 1
  rwa [Int.cast_one, div_one, Int.tdiv_one] at this

namespace Binary64

variable {x y : Binary64} {count n : Nat} {unit unit' : Int} {negative : Bool}

/-! ### Exact steps -/

/-- The double is finite and stands for exactly that number. -/
structure Is (x : Binary64) (q : ℚ) : Prop where
  finite : x.isFinite = true
  value : x.value = q

theorem exponent_bounds (h : x.isFinite = true) :
    x.significand < 2 ^ 53 ∧ -1074 ≤ x.exponent ∧ x.exponent ≤ 971 := by
  obtain ⟨hleast, hbound, hleading, hbits⟩ := normal x.magnitude
  have hinfinity : binary64.infinity = 2047 * 2 ^ 52 := rfl
  rw [isFinite, decide_eq_true_iff, hinfinity] at h
  show binary64.significand x.magnitude < _ ∧ _ ≤ binary64.exponent x.magnitude ∧
    binary64.exponent x.magnitude ≤ _
  omega

theorem trunc_eq (x : Binary64) : x.trunc = truncate x.value := by
  have hwhole : truncate (valueOf x.magnitude) =
      (x.significand <<< x.exponent.toNat >>> (-x.exponent).toNat : Nat) := by
    have hvalue : valueOf x.magnitude = x.significand * 2 ^ x.exponent := rfl
    rw [hvalue, ← shift_value, truncate_natCast_div, Nat.shiftRight_eq_div_pow, Nat.one_shiftLeft]
  rw [value, trunc]
  cases x.isNegative with
  | false => exact hwhole.symm
  | true =>
    rw [if_pos rfl, if_pos rfl, truncate_neg, hwhole]

/-- Rounding units of a power of two is exact as far as they make up a significand. -/
theorem ofUnits_is (hn : n < 2 ^ 53) (hleast : -1074 ≤ unit') (hmost : unit' ≤ 971)
    (h : (count : ℚ) * 2 ^ unit = n * 2 ^ unit') :
    (ofUnits negative count unit).Is
      (if negative then -(count * 2 ^ unit : ℚ) else count * 2 ^ unit) := by
  obtain ⟨hfinite, hvalue⟩ := ofMagnitude_round (one_shiftLeft_ne_zero _) hn hleast hmost
    ((shift_value count unit).trans h) negative
  exact ⟨hfinite, hvalue.trans (by rw [h])⟩

theorem units_value (h : unit ≤ x.exponent) : (x.units unit : ℚ) * 2 ^ unit = x.value := by
  have hcount : ((x.significand <<< (x.exponent - unit).toNat : Nat) : ℚ) * 2 ^ unit =
      valueOf x.magnitude := by
    have hsum : ((x.exponent - unit).toNat : Int) + unit = x.exponent := by omega
    rw [Nat.shiftLeft_eq, Nat.cast_mul, Nat.cast_pow, Nat.cast_ofNat, mul_assoc, ← zpow_natCast,
      ← zpow_add₀ two_ne_zero, hsum]
    rfl
  rw [units, value]
  cases x.isNegative with
  | false => exact_mod_cast hcount
  | true =>
    rw [if_pos rfl, if_pos rfl, ← hcount, Int.cast_neg, neg_mul, Int.cast_natCast]

theorem exists_whole (hx : x.isFinite = true) : ∃ (n : Nat) (unit : Int), n < 2 ^ 53 ∧
    -1074 ≤ unit ∧ unit ≤ 971 ∧
      ((x.significand <<< x.exponent.toNat >>> (-x.exponent).toNat : Nat) : ℚ) = n * 2 ^ unit := by
  obtain ⟨hbound, hleast, hmost⟩ := exponent_bounds hx
  rw [Nat.shiftRight_eq_div_pow]
  rcases Int.le_total 0 x.exponent with he | he
  · refine ⟨x.significand, x.exponent, hbound, hleast, hmost, ?_⟩
    have hnone : (-x.exponent).toNat = 0 := by omega
    rw [hnone, pow_zero, Nat.div_one, ← shift_value, hnone, Nat.shiftLeft_zero, Nat.cast_one,
      div_one]
  · have hnone : x.exponent.toNat = 0 := by omega
    rw [hnone, Nat.shiftLeft_zero]
    refine ⟨x.significand / 2 ^ (-x.exponent).toNat, 0, (Nat.div_le_self _ _).trans_lt hbound,
      by norm_num, by norm_num, ?_⟩
    rw [zpow_zero, mul_one]

theorem truncated_is (hx : x.isFinite = true) : x.truncated.Is x.trunc := by
  obtain ⟨n, unit, hn, hleast, hmost, hvalue⟩ := exists_whole hx
  set whole := x.significand <<< x.exponent.toNat >>> (-x.exponent).toNat
  have htrunc : x.trunc = if x.isNegative then -(whole : Int) else whole := rfl
  have habs : x.trunc.natAbs = whole := by
    rw [htrunc]
    split
    · rw [Int.natAbs_neg, Int.natAbs_natCast]
    · exact Int.natAbs_natCast _
  have hratio : ((x.trunc.natAbs : Nat) : ℚ) / (1 : Nat) = n * 2 ^ unit := by
    rw [habs, Nat.cast_one, div_one, hvalue]
  obtain ⟨hfinite, hround⟩ := ofMagnitude_round one_ne_zero hn hleast hmost hratio x.isNegative
  refine ⟨hfinite, hround.trans ?_⟩
  rw [← hvalue, htrunc]
  cases x.isNegative <;> simp

theorem natAbs_units (x : Binary64) (unit : Int) :
    (x.units unit).natAbs = x.significand <<< (x.exponent - unit).toNat := by
  unfold units
  dsimp only
  split
  · rw [Int.natAbs_neg, Int.natAbs_natCast]
  · exact Int.natAbs_natCast _

theorem units_tmod (x : Binary64) (unit divisor : Int) : (x.units unit).tmod divisor =
    if x.isNegative then -(((x.units unit).natAbs % divisor.natAbs : Nat) : Int)
    else ((x.units unit).natAbs % divisor.natAbs : Nat) := by
  have habs := Int.natAbs_tmod (x.units unit) divisor
  cases hn : x.isNegative with
  | false =>
    have hpos : 0 ≤ x.units unit := by
      rw [units, hn]
      exact Int.natCast_nonneg _
    have := Int.tmod_nonneg divisor hpos
    rw [if_neg Bool.false_ne_true]
    omega
  | true =>
    have hneg : 0 ≤ -x.units unit := by
      rw [units, hn, if_pos rfl, neg_neg]
      exact Int.natCast_nonneg _
    have := Int.tmod_nonneg divisor hneg
    rw [Int.neg_tmod] at this
    rw [if_pos rfl]
    omega

theorem remainder_is (hx : x.isFinite = true) (hy : y.isFinite = true) (hne : y.value ≠ 0) :
    (x.remainder y).Is (x.value - y.value * truncate (x.value / y.value)) := by
  obtain ⟨hbound, hleast, hmost⟩ := exponent_bounds hx
  obtain ⟨hbound', hleast', -⟩ := exponent_bounds hy
  have hxunits := units_value (min_le_left x.exponent y.exponent)
  have hyunits := units_value (min_le_right x.exponent y.exponent)
  rw [remainder]
  set unit := min x.exponent y.exponent with hunit
  have hpow : (2 : ℚ) ^ unit ≠ 0 := by positivity
  have hdivisor : 0 < (y.units unit).natAbs := by
    rw [Int.natAbs_pos]
    rintro hzero
    rw [hzero, Int.cast_zero, zero_mul] at hyunits
    exact hne hyunits.symm
  -- one of the two numbers is counted in its own unit
  have hsmall : (x.units unit).natAbs % (y.units unit).natAbs < 2 ^ 53 := by
    rcases le_total x.exponent y.exponent with he | he
    · rw [natAbs_units x, hunit, min_eq_left he, sub_self, Int.toNat_zero, Nat.shiftLeft_zero]
      exact (Nat.mod_le _ _).trans_lt hbound
    · refine (Nat.mod_lt _ hdivisor).trans ?_
      rw [natAbs_units y, hunit, min_eq_right he, sub_self, Int.toNat_zero, Nat.shiftLeft_zero]
      exact hbound'
  obtain ⟨hfinite, hvalue⟩ :=
    @ofUnits_is _ _ unit unit x.isNegative hsmall (by omega) (by omega) rfl
  refine ⟨hfinite, hvalue.trans ?_⟩
  have hdiv : x.value - y.value * truncate (x.value / y.value) =
      ((x.units unit).tmod (y.units unit) : Int) * 2 ^ unit := by
    rw [← hxunits, ← hyunits, mul_div_mul_right _ _ hpow, truncate_div, Int.tmod_def]
    push_cast
    ring
  rw [hdiv, units_tmod]
  cases x.isNegative with
  | false => rfl
  | true =>
    rw [if_pos rfl, if_pos rfl, Int.cast_neg, neg_mul, Int.cast_natCast]

theorem add_is (hn : n < 2 ^ 53) (hleast : -1074 ≤ unit) (hmost : unit ≤ 971)
    (h : |x.value + y.value| = n * 2 ^ unit) : (x.add y).Is (x.value + y.value) := by
  have hxunits := units_value (min_le_left x.exponent y.exponent)
  have hyunits := units_value (min_le_right x.exponent y.exponent)
  unfold add
  set least := min x.exponent y.exponent
  set sum := x.units least + y.units least with hsum
  have hpow : (0 : ℚ) < 2 ^ least := by positivity
  have hvalue : x.value + y.value = sum * 2 ^ least := by
    rw [hsum, ← hxunits, ← hyunits]
    push_cast
    ring
  have habs : ((sum.natAbs : Nat) : ℚ) * 2 ^ least = n * 2 ^ unit := by
    rw [← h, hvalue, abs_mul, abs_of_pos hpow, Nat.cast_natAbs, Int.cast_abs]
  obtain ⟨hfinite, hround⟩ := @ofUnits_is _ _ least unit
    (if sum = 0 then x.isNegative && y.isNegative else sum < 0) hn hleast hmost habs
  refine ⟨hfinite, hround.trans ?_⟩
  rw [hvalue]
  rcases lt_trichotomy sum 0 with hneg | hzero | hpos
  · rw [if_neg hneg.ne, decide_eq_true hneg, if_pos rfl, Nat.cast_natAbs, abs_of_neg hneg]
    push_cast
    ring
  · rw [hzero]
    simp
  · rw [if_neg hpos.ne', decide_eq_false hpos.not_gt, if_neg Bool.false_ne_true, Nat.cast_natAbs,
      abs_of_pos hpos]

theorem twoTo32_is : twoTo32.Is (2 ^ 32) := by
  have hratio : ((0x100000000 : Nat) : ℚ) / (1 : Nat) = (1 : Nat) * 2 ^ (32 : Int) := by norm_num
  obtain ⟨hfinite, hvalue⟩ :=
    ofMagnitude_round one_ne_zero (by norm_num) (by norm_num) (by norm_num) hratio false
  refine ⟨hfinite, hvalue.trans ?_⟩
  norm_num

theorem value_neg_iff (x : Binary64) :
    (x.isNegative && x.magnitude != 0) = true ↔ x.value < 0 := by
  have hnonneg := valueOf_nonneg x.magnitude
  have hzero := @valueOf_eq_zero_iff x.magnitude
  rw [Bool.and_eq_true, bne_iff_ne, value]
  cases x.isNegative with
  | false => exact iff_of_false (by simp) hnonneg.not_gt
  | true =>
    rw [if_pos rfl, neg_lt_zero, and_iff_right rfl, Ne, ← hzero]
    exact ⟨fun h => lt_of_le_of_ne hnonneg (Ne.symm h), fun h => h.ne'⟩

theorem remEuclid_is {t : Int} (h : x.Is t) : (x.remEuclid twoTo32).Is (t % 2 ^ 32 : Int) := by
  obtain ⟨hx, ht⟩ := h
  obtain ⟨htwo, hvalue⟩ := twoTo32_is
  have hcast : (2 : ℚ) ^ 32 = ((2 ^ 32 : Int) : ℚ) := by norm_num
  obtain ⟨hr, hremainder⟩ : (x.remainder twoTo32).Is (t.tmod (2 ^ 32) : Int) := by
    obtain ⟨hfinite, hexact⟩ := remainder_is hx htwo (by rw [hvalue]; norm_num)
    refine ⟨hfinite, hexact.trans ?_⟩
    rw [ht, hvalue, hcast, truncate_div, Int.tmod_def]
    push_cast
    ring
  have hsplit := Int.mul_tdiv_add_tmod t (2 ^ 32)
  have hbelow := @Int.tmod_lt_of_pos t (2 ^ 32) (by norm_num)
  have habove := @Int.tmod_lt_of_pos (-t) (2 ^ 32) (by norm_num)
  rw [Int.neg_tmod] at habove
  generalize t.tdiv (2 ^ 32) = quotient at hsplit
  generalize t.tmod (2 ^ 32) = remainder at *
  have hsign := value_neg_iff (x.remainder twoTo32)
  rw [hremainder, Int.cast_lt_zero] at hsign
  unfold remEuclid
  dsimp only
  by_cases hneg : remainder < 0
  · rw [if_pos (hsign.mpr hneg)]
    have hsum : (x.remainder twoTo32).value + twoTo32.value = (t % 2 ^ 32 : Int) := by
      rw [hremainder, hvalue, hcast]
      have : remainder + 2 ^ 32 = t % 2 ^ 32 := by omega
      exact_mod_cast this
    obtain ⟨n, hn⟩ : ∃ n : Nat, t % 2 ^ 32 = n := ⟨(t % 2 ^ 32).toNat, by omega⟩
    have habs : |(x.remainder twoTo32).value + twoTo32.value| = n * 2 ^ (0 : Int) := by
      rw [hsum, hn, zpow_zero, mul_one, Int.cast_natCast, Nat.abs_cast]
    rw [← hsum]
    exact add_is (by omega) (by norm_num) (by norm_num) habs
  · rw [if_neg (fun h => hneg (hsign.mp h))]
    have hsame : remainder = t % 2 ^ 32 := by omega
    exact ⟨hr, hsame ▸ hremainder⟩

theorem toNat_toUInt32 (hx : x.isFinite = true) :
    (x.toUInt32.toNat : Int) = truncate x.value % 2 ^ 32 := by
  obtain ⟨hfinite, hvalue⟩ := remEuclid_is (truncated_is hx)
  have htrunc : (x.truncated.remEuclid twoTo32).trunc = truncate x.value % 2 ^ 32 := by
    rw [trunc_eq, hvalue, truncate_intCast, trunc_eq]
  have hnumber : (x.truncated.remEuclid twoTo32).isNaN = false := by
    rw [isFinite, decide_eq_true_iff] at hfinite
    exact decide_eq_false (not_lt.mpr hfinite.le)
  have hrange : IntRange.unsigned32.contains (truncate x.value % 2 ^ 32) = true := by
    rw [IntRange.contains_iff, IntRange.unsigned32]
    dsimp only
    omega
  have hclamp : (x.truncated.remEuclid twoTo32).clamp .unsigned32 = truncate x.value % 2 ^ 32 := by
    obtain ⟨hleast, hmost⟩ := IntRange.contains_iff.mp hrange
    rw [clamp, hnumber, if_neg Bool.false_ne_true, if_pos hfinite, htrunc, IntRange.clamp,
      min_eq_right hmost, max_eq_right hleast]
  rw [toUInt32, if_pos hx, hclamp, IntRange.toNat_ofInt hrange]

end Binary64

/-- The integer that a host number counts as: its integer part, and zero if it is not finite. -/
def Binary64.integerPart (x : Binary64) : Int := if x.isFinite then truncate x.value else 0

def NumberType.width : NumberType → Nat
  | .i8 | .u8 => 8
  | .i16 | .u16 => 16
  | .i32 | .u32 | .f32 => 32
  | .i64 | .u64 | .f64 => 64

/-- In the range, `n` alone is congruent to `t` modulo the width. -/
structure IntRange.Wraps (range : IntRange) (width : Nat) (t n : Int) : Prop where
  contained : range.contains n = true
  congruent : n ≡ t [ZMOD 2 ^ width]
  unique : ∀ k, range.contains k = true → k ≡ t [ZMOD 2 ^ width] → k = n

variable {type : NumberType} {range : IntRange} {width : Nat} {t n : Int} {x : Binary64}

theorem IntRange.Wraps.of_size (h : range.most - range.least < 2 ^ width)
    (hc : range.contains n = true) (hn : n ≡ t [ZMOD 2 ^ width]) : range.Wraps width t n := by
  refine ⟨hc, hn, fun k hk hkt => ?_⟩
  rw [IntRange.contains_iff] at hc hk
  have hdvd := (hkt.trans hn.symm).symm.dvd
  have hsmall : |k - n| < 2 ^ width := by
    rw [abs_lt]
    omega
  have := Int.eq_zero_of_abs_lt_dvd hdvd hsmall
  omega

theorem NumberType.size_lt (h : type.range? = some range) :
    range.most - range.least < 2 ^ type.width := by
  cases type with
  | f32 | f64 => cases h
  | _ =>
    cases h
    decide

theorem toInt_toInt32 (x : Binary64) : x.toInt32.toInt = (x.toUInt32.toNat : Int).bmod (2 ^ 32) :=
  BitVec.toInt_eq_toNat_bmod _

theorem toUInt32_congruent (x : Binary64) :
    (x.toUInt32.toNat : Int) ≡ x.integerPart [ZMOD 2 ^ 32] := by
  unfold Binary64.integerPart
  cases hx : x.isFinite with
  | true =>
    rw [if_pos rfl, Binary64.toNat_toUInt32 hx]
    exact Int.mod_modEq _ _
  | false =>
    rw [Binary64.toUInt32, hx]
    rfl

theorem toInt32_congruent (x : Binary64) : x.toInt32.toInt ≡ x.integerPart [ZMOD 2 ^ 32] := by
  rw [toInt_toInt32]
  exact Int.bmod_emod.trans (toUInt32_congruent x)

theorem modEq_of_width_le {a b : Int} (hw : width ≤ 32) (h : a ≡ b [ZMOD 2 ^ 32]) :
    a ≡ b [ZMOD 2 ^ width] := h.of_dvd (pow_dvd_pow 2 hw)

/-- A small integer type has the low bits of the integer part, cut from either word. -/
theorem read?_congruent (h : type.range? = some range) (hw : type.isWide = false) (x : Binary64) :
    ∃ n, type.read? (.ofDouble type x) = some n ∧ n ≡ x.integerPart [ZMOD 2 ^ type.width] := by
  have hunsigned := toUInt32_congruent x
  have hsigned := toInt32_congruent x
  cases type with
  | f32 | f64 => cases h
  | i64 | u64 => cases hw
  | u32 => exact ⟨_, rfl, hunsigned⟩
  | i32 => exact ⟨_, rfl, hsigned⟩
  | u8 =>
    refine ⟨_, rfl, Int.ModEq.trans ?_ (modEq_of_width_le (by decide) hunsigned)⟩
    rw [UInt8.toNat_toUInt32, UInt32.toNat_toUInt8, Int.natCast_mod]
    exact Int.mod_modEq _ _
  | u16 =>
    refine ⟨_, rfl, Int.ModEq.trans ?_ (modEq_of_width_le (by decide) hunsigned)⟩
    rw [UInt16.toNat_toUInt32, UInt32.toNat_toUInt16, Int.natCast_mod]
    exact Int.mod_modEq _ _
  | i8 =>
    refine ⟨_, rfl, Int.ModEq.trans ?_ (modEq_of_width_le (by decide) hsigned)⟩
    rw [Int8.toInt_toInt32, Int32.toInt_toInt8]
    exact Int.bmod_emod
  | i16 =>
    refine ⟨_, rfl, Int.ModEq.trans ?_ (modEq_of_width_le (by decide) hsigned)⟩
    rw [Int16.toInt_toInt32, Int32.toInt_toInt16]
    exact Int.bmod_emod

theorem wraps_ofDouble (h : type.range? = some range) (hw : type.isWide = false) (x : Binary64) :
    ∃ n, type.read? (.ofDouble type x) = some n ∧ range.Wraps type.width x.integerPart n := by
  obtain ⟨n, hn, hcongruent⟩ := read?_congruent h hw x
  obtain ⟨other, hother, hc⟩ := read?_ofDouble h x
  cases hn.symm.trans hother
  exact ⟨n, hn, .of_size (NumberType.size_lt h) hc hcongruent⟩

/-! ### Types that do not wrap -/

namespace Binary32

open BinaryFormat (binary32)

def isNegative (x : Binary32) : Bool := binary32.signBit ≤ x.bits.toNat
def magnitude (x : Binary32) : Nat := x.bits.toNat % binary32.signBit
def isFinite (x : Binary32) : Bool := x.magnitude < binary32.infinity

def value (x : Binary32) : ℚ :=
  if x.isNegative then -binary32.valueOf x.magnitude else binary32.valueOf x.magnitude

end Binary32

theorem Binary64.toBinary32_parts (hx : x.isFinite = true) :
    x.toBinary32.isNegative = x.isNegative ∧
      x.toBinary32.magnitude = BinaryFormat.binary32.roundScaled x.significand x.exponent := by
  have hsign : BinaryFormat.binary32.signBit = 2 ^ 31 := rfl
  have hinfinity : BinaryFormat.binary32.infinity < 2 ^ 31 := by decide
  have hbound : BinaryFormat.binary32.roundScaled x.significand x.exponent < 2 ^ 31 :=
    (BinaryFormat.binary32.round_le_infinity _ _).trans_lt hinfinity
  unfold toBinary32 Binary32.isNegative Binary32.magnitude
  rw [hx, if_pos rfl, hsign]
  dsimp only
  rw [UInt32.toNat_ofNat']
  cases x.isNegative with
  | false =>
    rw [if_neg Bool.false_ne_true, decide_eq_false_iff_not]
    omega
  | true =>
    rw [if_pos rfl, decide_eq_true_iff]
    omega

/-- No single precision number is nearer to a double than the one that it is converted to. -/
theorem Binary64.toBinary32_nearest (hx : x.isFinite = true) (hy : x.toBinary32.isFinite = true)
    (z : Binary32) : |x.value - x.toBinary32.value| ≤ |x.value - z.value| := by
  obtain ⟨hsign, hmagnitude⟩ := toBinary32_parts hx
  rw [Binary32.isFinite, decide_eq_true_iff, hmagnitude] at hy
  have hratio : ((x.significand <<< x.exponent.toNat : Nat) : ℚ) /
      (1 <<< (-x.exponent).toNat : Nat) = valueOf x.magnitude := shift_value _ _
  have hnearest := BinaryFormat.binary32.round_nearest (one_shiftLeft_ne_zero _) hy
  have hnear := hnearest z.magnitude
  -- a number of the other sign is not nearer than zero
  have hzero := hnearest 0
  have hnonneg := valueOf_nonneg x.magnitude
  have hother := BinaryFormat.binary32.valueOf_nonneg z.magnitude
  rw [hratio] at hnear hzero
  rw [BinaryFormat.valueOf_zero, sub_zero, abs_of_nonneg hnonneg] at hzero
  rw [value, Binary32.value, Binary32.value, hsign, hmagnitude, BinaryFormat.roundScaled]
  generalize valueOf x.magnitude = a at *
  generalize BinaryFormat.binary32.valueOf z.magnitude = w at *
  have hfar := hzero.trans ((le_add_of_nonneg_right hother).trans (le_abs_self _))
  cases x.isNegative <;> cases z.isNegative
  · exact hnear
  · rw [if_pos rfl, sub_neg_eq_add]
    exact hfar
  · rw [if_pos rfl, if_pos rfl, neg_sub_neg, abs_sub_comm, ← neg_add', abs_neg]
    exact hfar
  · rw [if_pos rfl, if_pos rfl, if_pos rfl, neg_sub_neg, neg_sub_neg, abs_sub_comm _ a,
      abs_sub_comm w]
    exact hnear

theorem Binary64.clamp_eq (x : Binary64) (range : IntRange) : x.clamp range =
    if x.isNaN then 0
    else if x.isFinite then range.clamp (truncate x.value)
    else if x.isNegative then range.least else range.most := by
  rw [clamp, trunc_eq]

theorem NumberType.wide_range (h : type.range? = some range) (hw : type.isWide = true) :
    range.least ≤ 0 ∧ 0 ≤ range.most := by
  cases type with
  | i64 | u64 =>
    cases h
    decide
  | _ => cases hw

/-- An integer of 64 bits is the integer part of a host number, brought into the range; a double is
the number itself; and a single precision number is a nearest one. -/
theorem ofDouble_kept (x : Binary64) :
    (∀ type range, NumberType.range? type = some range → type.isWide = true →
      type.read? (.ofDouble type x) = some
        (if x.isNaN then 0
        else if x.isFinite then range.clamp (truncate x.value)
        else if x.isNegative then range.least else range.most)) ∧
    NativeValue.ofDouble .f64 x = .f64 x ∧
    ∃ y, NativeValue.ofDouble .f32 x = .f32 y ∧ (x.isFinite = true → y.isFinite = true →
      ∀ z : Binary32, |x.value - y.value| ≤ |x.value - z.value|) := by
  refine ⟨?_, rfl, x.toBinary32, rfl, Binary64.toBinary32_nearest⟩
  intro type range hr hw
  obtain ⟨hleast, hmost⟩ := NumberType.wide_range hr hw
  have hcontains : range.contains (x.clamp range) = true := by
    rw [IntRange.contains_iff, Binary64.clamp, IntRange.clamp]
    split
    · exact ⟨hleast, hmost⟩
    · split
      · omega
      · split <;> omega
  rw [← Binary64.clamp_eq, ← read?_ofInteger hr hcontains]
  cases type with
  | i64 | u64 =>
    cases hr
    rfl
  | _ => cases hw

variable {options : SchemaOptions} {document : Idl.Document} {bindings : Bindings}
  {plan : StructPlan} {member : MemberPlan} {set : PlanSet} {context after : Context}
  {native : NativeStruct} {next : Option Handle} {properties : List (String × HostValue)}

theorem PlanSet.Coherent.decode_number (hs : set.Coherent) (hp : plan ∈ set.plans)
    (h : set.decode plan (.object properties) next context = (.ok native, after))
    (hm : member ∈ plan.members) (hn : member.marshal = .number type)
    (hg : member.given? properties = some (.number x)) :
    native.get? member.name = some (.ofDouble type x) := by
  have hc := hs.plans plan hp
  obtain ⟨field, hf, hname⟩ := hc.slot member hm
  have hdecoded := hs.decoded hp (.object properties) next context
  rw [h] at hdecoded
  cases hdecoded with
  | @ok given layout blocks object owned found reads =>
    cases object
    have hreads : (context.heap.extend blocks).Reads layout.native _ :=
      ⟨layout, rfl, (Heap.holds_extend context.heap blocks).perm found.symm, reads⟩
    have hget := set.get?_structImage hc hf (plan.rootChain next) (set.imageGiven properties)
    rw [set.fieldImage_member hc hm hname, set.imageGiven_eq, hg, hn, hname] at hget
    obtain ⟨value, hv⟩ := hreads.exists_slot hget
    obtain ⟨tree, rfl, -, himage⟩ := hreads.slot hv
    rw [hget, Option.some.injEq] at himage
    rw [hv, Tree.eq_of_image_value (isScalar_ofDouble type x) himage.symm]
    rfl

/-- The word of 32 bits that a host number is converted to is its integer part modulo `2 ^ 32`, in
either signedness, and zero for a number that is not finite. A number type of at most 32 bits takes
every host number as the one integer of the type that is congruent to it modulo the type's width,
and this is what a decoded structure has in the member's slot. -/
theorem host_numbers_wrap :
    (∀ x : Binary64, x.isFinite = true →
      (x.toUInt32.toNat : Int) = truncate x.value % 2 ^ 32 ∧
        IntRange.signed32.Wraps 32 (truncate x.value) x.toInt32.toInt) ∧
    (∀ x : Binary64, x.isFinite = false → x.toUInt32 = 0 ∧ x.toInt32 = 0) ∧
    (∀ (type : NumberType) (range : IntRange), type.range? = some range → type.isWide = false →
      ∀ (x : Binary64) (place : Place), ∃ value n,
        convertNumber type (.number x) place = .ok value ∧ type.read? value = some n ∧
          range.Wraps type.width x.integerPart n) ∧
    ∀ (options : SchemaOptions) (document : Idl.Document) (bindings : Bindings),
      Bindings.ofDocument options document = .ok bindings → Idl.DistinctMembers document →
      ∀ plan ∈ bindings.plans.plans, ∀ member ∈ plan.members, ∀ type range,
        member.marshal = .number type → type.range? = some range → type.isWide = false →
        ∀ properties next context native after x,
          bindings.plans.decode plan (.object properties) next context = (.ok native, after) →
          member.given? properties = some (.number x) →
            ∃ value n, native.get? member.name = some value ∧ type.read? value = some n ∧
              range.Wraps type.width x.integerPart n := by
  refine ⟨?_, ?_, ?_, ?_⟩
  · intro x hx
    refine ⟨Binary64.toNat_toUInt32 hx, ?_⟩
    obtain ⟨n, hn, hwraps⟩ := @wraps_ofDouble .i32 _ rfl rfl x
    cases hn
    rwa [Binary64.integerPart, if_pos hx] at hwraps
  · intro x hx
    have hword : x.toUInt32 = 0 := by rw [Binary64.toUInt32, hx, if_neg Bool.false_ne_true]
    exact ⟨hword, by rw [Binary64.toInt32, hword]; rfl⟩
  · intro type range hr hw x place
    obtain ⟨n, hn, hwraps⟩ := wraps_ofDouble hr hw x
    refine ⟨_, n, ?_, hn, hwraps⟩
    cases type <;> rfl
  · intro options document bindings hb hd plan hp member hm type range hk hr hw properties next
      context native after x h hg
    obtain ⟨n, hn, hwraps⟩ := wraps_ofDouble hr hw x
    have hslot := (Bindings.coherent hb hd).decode_number hp h hm hk hg
    exact ⟨_, n, hslot, hn, hwraps⟩

def lessThanMinusOne : Binary64 := ⟨0xbff8000000000000⟩

def labelBelowZero : List (String × HostValue) :=
  [("text", .string "a"), ("size", .number lessThanMinusOne)]

theorem lessThanMinusOne_integerPart : lessThanMinusOne.integerPart = -1 := by
  have hfinite : lessThanMinusOne.isFinite = true := by decide
  rw [Binary64.integerPart, if_pos hfinite, ← Binary64.trunc_eq]
  decide

theorem host_numbers_wrap_label : ∃ bindings native after value,
    Bindings.ofDocument .standard labelDocument = .ok bindings ∧
    Idl.DistinctMembers labelDocument ∧ labelPlan ∈ bindings.plans.plans ∧
    bindings.plans.decode labelPlan (.object labelBelowZero) none .empty = (.ok native, after) ∧
    lessThanMinusOne.isFinite = true ∧
    (lessThanMinusOne.toUInt32.toNat : Int) = truncate lessThanMinusOne.value % 2 ^ 32 ∧
    native.get? "size" = some value ∧ NumberType.u32.read? value = some 4294967295 ∧
    IntRange.unsigned32.Wraps 32 lessThanMinusOne.integerPart 4294967295 := by
  obtain ⟨schema, hb⟩ := label_bindings
  have hm : labelPlan ∈ labelPlans.plans := List.mem_singleton.mpr rfl
  obtain ⟨native, after, he⟩ : ∃ native after,
      labelPlans.decode labelPlan (.object labelBelowZero) none .empty = (.ok native, after) :=
    ⟨_, _, rfl⟩
  have hfinite : lessThanMinusOne.isFinite = true := by decide
  obtain ⟨hwords, -, -, hdecoded⟩ := host_numbers_wrap
  obtain ⟨value, n, hv, hn, hwraps⟩ := hdecoded _ _ _ hb label_distinct _ hm _
    (.tail _ (.head _)) .u32 _ rfl rfl rfl _ _ _ _ _ lessThanMinusOne he rfl
  obtain rfl : 4294967295 = n := by
    apply hwraps.unique
    · decide
    · rw [lessThanMinusOne_integerPart]
      decide
  exact ⟨_, native, after, value, hb, label_distinct, hm, he, hfinite, (hwords _ hfinite).1, hv, hn,
    hwraps⟩

end DescriptorMarshal
