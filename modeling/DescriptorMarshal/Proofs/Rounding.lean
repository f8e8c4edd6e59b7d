import DescriptorMarshal.Number.Decimal
import Mathlib.Algebra.Order.Field.Power
import Mathlib.Data.Nat.Digits.Lemmas
import Mathlib.Tactic.Linarith
import Mathlib.Tactic.NormNum
import Mathlib.Tactic.Positivity
import Mathlib.Tactic.Ring

/-!
Where rounding overflows. A ratio rounds to a finite double exactly when it is less than
`2 ^ 1024 - 2 ^ 970`, which is half a unit above the largest finite double; from there on it
rounds to infinity.
-/

namespace DescriptorMarshal

variable {num den k : Nat} {e : Int}

theorem le_divHalfEven (hd : 0 < den) (h : k * den ≤ num) : k ≤ divHalfEven num den := by
  have hk : k ≤ num / den := (Nat.le_div_iff_mul_le hd).mpr h
  unfold divHalfEven
  dsimp only
  split
  · exact hk
  · split <;> omega

/-- A quotient rounds to at most an odd number exactly below the half behind it. -/
theorem divHalfEven_le_iff (hd : 0 < den) (hk : k % 2 = 1) :
    divHalfEven num den ≤ k ↔ 2 * num < (2 * k + 1) * den := by
  have hnum := Nat.div_add_mod num den
  have hmod := Nat.mod_lt num hd
  unfold divHalfEven
  dsimp only
  generalize num / den = quotient at *
  generalize num % den = remainder at *
  subst hnum
  rcases Nat.lt_trichotomy quotient k with hlt | rfl | hgt
  · have hmul : (quotient + 1) * den ≤ k * den := Nat.mul_le_mul_right den hlt
    have hright : 2 * (den * quotient + remainder) < (2 * k + 1) * den := by
      nlinarith
    split
    · omega
    · split <;> omega
  · have hright : 2 * (den * quotient + remainder) < (2 * quotient + 1) * den ↔
        2 * remainder < den := by
      constructor <;> intro h <;> nlinarith
    rw [hright]
    split
    · omega
    · split <;> omega
  · have hmul : (k + 1) * den ≤ quotient * den := Nat.mul_le_mul_right den hgt
    have hright : ¬ 2 * (den * quotient + remainder) < (2 * k + 1) * den := by
      nlinarith
    split
    · omega
    · split <;> omega

theorem divHalfEven_le (hd : 0 < den) (h : num ≤ k * den) : divHalfEven num den ≤ k := by
  have hnum := Nat.div_add_mod num den
  have hk : num / den ≤ k := Nat.div_le_of_le_mul (by rwa [Nat.mul_comm] at h)
  unfold divHalfEven
  dsimp only
  rcases Nat.lt_or_eq_of_le hk with hlt | heq
  · split
    · omega
    · split <;> omega
  · have hmod : num % den = 0 := by
      rw [heq, Nat.mul_comm] at hnum
      omega
    rw [hmod, heq, Nat.mul_zero, if_pos hd]

theorem shift_ratio (num den : Nat) (scale : Int) :
    ((num <<< (-scale).toNat : Nat) : ℚ) / (den <<< scale.toNat : Nat) =
      (num : ℚ) / den / 2 ^ scale := by
  rw [Nat.shiftLeft_eq, Nat.shiftLeft_eq]
  push_cast
  obtain ⟨n, rfl | rfl⟩ := Int.eq_nat_or_neg scale
  · rw [Int.toNat_natCast, Int.toNat_neg_natCast, pow_zero, mul_one, zpow_natCast, div_div]
  · rw [neg_neg, Int.toNat_natCast, Int.toNat_neg_natCast, pow_zero, mul_one, zpow_neg,
      zpow_natCast, div_inv_eq_mul]
    ring

theorem log2Ratio_spec (hn : num ≠ 0) (hd : den ≠ 0) :
    (2 : ℚ) ^ log2Ratio num den ≤ num / den ∧ (num : ℚ) / den < 2 ^ (log2Ratio num den + 1) := by
  have hden : (0 : ℚ) < den := by exact_mod_cast Nat.pos_of_ne_zero hd
  have hnum : (0 : ℚ) < num := by exact_mod_cast Nat.pos_of_ne_zero hn
  have hn₁ : (2 : ℚ) ^ (num.log2 : Int) ≤ num := by exact_mod_cast Nat.log2_self_le hn
  have hn₂ : (num : ℚ) < 2 ^ ((num.log2 : Int) + 1) := by
    exact_mod_cast @Nat.lt_log2_self num
  have hd₁ : (2 : ℚ) ^ (den.log2 : Int) ≤ den := by exact_mod_cast Nat.log2_self_le hd
  have hd₂ : (den : ℚ) < 2 ^ ((den.log2 : Int) + 1) := by
    exact_mod_cast @Nat.lt_log2_self den
  have hguess : num <<< (-((num.log2 : Int) - den.log2)).toNat <
        den <<< ((num.log2 : Int) - den.log2).toNat ↔
      (num : ℚ) / den < 2 ^ ((num.log2 : Int) - den.log2) := by
    have hpos : (0 : ℚ) < 2 ^ ((num.log2 : Int) - den.log2) := by positivity
    have hshift : (0 : ℚ) < (den <<< ((num.log2 : Int) - den.log2).toNat : Nat) := by
      rw [Nat.shiftLeft_eq]
      positivity
    rw [← div_lt_one hpos, ← shift_ratio, div_lt_one hshift, Nat.cast_lt]
  -- the bits of the two parts leave two candidates
  have hlow : (2 : ℚ) ^ ((num.log2 : Int) - den.log2 - 1) ≤ num / den := by
    rw [sub_sub, zpow_sub₀ two_ne_zero]
    gcongr
  have hhigh : (num : ℚ) / den < 2 ^ ((num.log2 : Int) - den.log2 + 1) := by
    rw [show (num.log2 : Int) - den.log2 + 1 = num.log2 + 1 - den.log2 by ring,
      zpow_sub₀ two_ne_zero]
    gcongr
  unfold log2Ratio
  dsimp only
  split
  · next h => exact ⟨hlow, by rw [sub_add_cancel]; exact hguess.mp h⟩
  · next h => exact ⟨not_lt.mp fun hlt => h (hguess.mpr hlt), hhigh⟩

/-- The quotient that is rounded is the ratio in units of the last place. -/
theorem BinaryFormat.exists_scaled (format : BinaryFormat) (hn : num ≠ 0) (hd : den ≠ 0) :
    ∃ (scale : Int) (scaledNum scaledDen : Nat),
      scale = max (log2Ratio num den - format.fractionBits) format.minExponent ∧ 0 < scaledDen ∧
        (scaledNum : ℚ) / scaledDen = (num : ℚ) / den / 2 ^ scale ∧
          format.round num den = min ((scale - format.minExponent).toNat * 2 ^ format.fractionBits +
            divHalfEven scaledNum scaledDen) format.infinity := by
  refine ⟨_, _, _, rfl, ?_, shift_ratio num den _, ?_⟩
  · rw [Nat.shiftLeft_eq]
    positivity
  · unfold round
    rw [if_neg hn]
    show min _ _ = _
    rw [Nat.shiftLeft_eq]

theorem BinaryFormat.round_le_infinity (format : BinaryFormat) (num den : Nat) :
    format.round num den ≤ format.infinity := by
  unfold round
  split
  · exact Nat.zero_le _
  · exact Nat.min_le_right _ _

namespace Binary64

open BinaryFormat (binary64)

/-- Half a unit above the largest finite double. -/
def overflow : ℚ := 2 ^ 1024 - 2 ^ 970

theorem overflow_eq : overflow = (2 ^ 54 - 1) / 2 * 2 ^ (971 : Int) := by
  have hone : (2 : ℚ) ^ 1024 = 2 ^ 54 * 2 ^ 970 := by rw [← pow_add]
  have htwo : (2 : ℚ) ^ (971 : Int) = 2 ^ 970 * 2 := by rw [zpow_ofNat, ← pow_succ]
  rw [overflow, hone, htwo]
  generalize (2 : ℚ) ^ 970 = unit
  ring

theorem zpow_lt_overflow (h : e ≤ 1023) : (2 : ℚ) ^ e < overflow := by
  have hsplit : (2 : ℚ) ^ (1023 : Int) = 2 ^ 52 * 2 ^ (971 : Int) := by
    rw [zpow_ofNat, zpow_ofNat, ← pow_add]
  refine (zpow_le_zpow_right₀ one_le_two h).trans_lt ?_
  rw [overflow_eq, hsplit]
  exact mul_lt_mul_of_pos_right (by norm_num) (by positivity)

theorem overflow_le_zpow (h : 1024 ≤ e) : overflow ≤ (2 : ℚ) ^ e := by
  refine le_trans ?_ (zpow_le_zpow_right₀ one_le_two h)
  rw [overflow, zpow_ofNat]
  exact sub_le_self _ (by positivity)

theorem exists_scaled (hn : num ≠ 0) (hd : den ≠ 0) : ∃ (scale : Int) (scaledNum scaledDen : Nat),
    scale = max (log2Ratio num den - 52) (-1074) ∧ 0 < scaledDen ∧
      (scaledNum : ℚ) / scaledDen = (num : ℚ) / den / 2 ^ scale ∧
        binary64.round num den = min
          ((scale - -1074).toNat * 2 ^ 52 + divHalfEven scaledNum scaledDen) binary64.infinity :=
  binary64.exists_scaled hn hd

/-- A ratio rounds to a finite magnitude exactly below the overflow. -/
theorem round_lt_infinity (hd : den ≠ 0) :
    binary64.round num den < binary64.infinity ↔ (num : ℚ) / den < overflow := by
  by_cases hn : num = 0
  · rw [BinaryFormat.round, if_pos hn, hn, Nat.cast_zero, zero_div]
    exact iff_of_true (by decide) (one_pos.trans (zpow_lt_overflow (e := 0) (by norm_num)))
  obtain ⟨hlow, hhigh⟩ := log2Ratio_spec hn hd
  obtain ⟨scale, scaledNum, scaledDen, hscale, hpos, hratio, hround⟩ := exists_scaled hn hd
  have hinfinity : binary64.infinity = 2047 * 2 ^ 52 := rfl
  rw [hround, min_lt_iff, or_iff_left (lt_irrefl _), hinfinity]
  generalize log2Ratio num den = e at *
  generalize (num : ℚ) / den = q at *
  have hcast : (0 : ℚ) < scaledDen := by exact_mod_cast hpos
  have hunit : (0 : ℚ) < 2 ^ scale := by positivity
  rcases lt_trichotomy e 1023 with hlt | rfl | hgt
  · -- at most two units of the exponent, so at most the one before the last
    have hbelow : q / 2 ^ scale ≤ 2 ^ 53 := by
      rw [div_le_iff₀ hunit, ← zpow_natCast, ← zpow_add₀ two_ne_zero]
      exact hhigh.le.trans (zpow_le_zpow_right₀ one_le_two (by omega))
    rw [← hratio, div_le_iff₀ hcast] at hbelow
    have hscaled : divHalfEven scaledNum scaledDen ≤ 2 ^ 53 :=
      divHalfEven_le hpos (by exact_mod_cast hbelow)
    refine iff_of_true ?_ (hhigh.trans (zpow_lt_overflow (by omega)))
    have hsteps : (scale - -1074).toNat ≤ 2044 := by omega
    omega
  · obtain rfl : scale = 971 := by omega
    have hodd : divHalfEven scaledNum scaledDen ≤ 2 ^ 53 - 1 ↔ _ :=
      divHalfEven_le_iff hpos (by norm_num)
    have hleft : (971 - -1074 : Int).toNat * 2 ^ 52 + divHalfEven scaledNum scaledDen <
        2047 * 2 ^ 52 ↔ divHalfEven scaledNum scaledDen ≤ 2 ^ 53 - 1 := by
      have hsteps : (971 - -1074 : Int).toNat = 2045 := rfl
      omega
    have hright : q < overflow ↔ q / 2 ^ (971 : Int) < (2 ^ 54 - 1) / 2 := by
      rw [div_lt_iff₀ hunit, overflow_eq]
    rw [hleft, hodd, hright, ← hratio, div_lt_div_iff₀ hcast two_pos, mul_comm (scaledNum : ℚ)]
    norm_num
    exact_mod_cast Iff.rfl
  · have habove : 2 ^ 52 ≤ q / 2 ^ scale := by
      rw [le_div_iff₀ hunit, ← zpow_natCast, ← zpow_add₀ two_ne_zero]
      exact le_trans (zpow_le_zpow_right₀ one_le_two (by omega)) hlow
    rw [← hratio, le_div_iff₀ hcast] at habove
    have hscaled : 2 ^ 52 ≤ divHalfEven scaledNum scaledDen :=
      le_divHalfEven hpos (by exact_mod_cast habove)
    refine iff_of_false ?_ (not_lt.mpr ((overflow_le_zpow (by omega)).trans hlow))
    have hsteps : 2046 ≤ (scale - -1074).toNat := by omega
    omega

theorem round_le_infinity (num den : Nat) : binary64.round num den ≤ binary64.infinity :=
  binary64.round_le_infinity num den

theorem round_eq_infinity (hd : den ≠ 0) (h : overflow ≤ (num : ℚ) / den) :
    binary64.round num den = binary64.infinity :=
  Nat.le_antisymm (round_le_infinity num den)
    (not_lt.mp fun hlt => absurd ((round_lt_infinity hd).mp hlt) (not_lt.mpr h))

theorem magnitude_ofMagnitude {magnitude : Nat} (h : magnitude < binary64.signBit)
    (negative : Bool) : (ofMagnitude negative magnitude).magnitude = magnitude := by
  have hsign : binary64.signBit = 2 ^ 63 := rfl
  rw [hsign] at h
  unfold Binary64.magnitude ofMagnitude
  rw [hsign, UInt64.toNat_ofNat']
  cases negative with
  | false =>
    rw [if_neg Bool.false_ne_true]
    omega
  | true =>
    rw [if_pos rfl]
    omega

theorem isFinite_ofMagnitude {magnitude : Nat} (h : magnitude ≤ binary64.infinity)
    (negative : Bool) :
    (ofMagnitude negative magnitude).isFinite = true ↔ magnitude < binary64.infinity := by
  have hsign : binary64.infinity < binary64.signBit := by decide
  rw [isFinite, magnitude_ofMagnitude (h.trans_lt hsign), decide_eq_true_iff]

theorem isFinite_infinity (negative : Bool) : (infinity negative).isFinite = false := by
  cases negative <;> rfl

theorem isFinite_nan (negative : Bool) : (nan negative).isFinite = false := by
  cases negative <;> rfl

theorem isFinite_ofInt {n : Int} (h : n.natAbs ≤ 2 ^ 128) : (ofInt n).isFinite = true := by
  rw [ofInt, isFinite_ofMagnitude (round_le_infinity _ _), round_lt_infinity one_ne_zero,
    Nat.cast_one, div_one]
  have hle : (n.natAbs : ℚ) ≤ 2 ^ (128 : Int) := by exact_mod_cast h
  exact hle.trans_lt (zpow_lt_overflow (by norm_num))

end Binary64

end DescriptorMarshal
