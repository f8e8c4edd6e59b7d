import DescriptorMarshal.Number.Binary
import DescriptorMarshal.Proofs.Rounding

/-!
Rounding takes the nearest number of a format. In units of the last place the quotient is the whole
number nearest to the ratio. A number of the format is a whole number of these units, unless its own
unit is smaller; then it is below the binade of the ratio, and the first number of that binade is at
least as near.
-/

namespace DescriptorMarshal

variable {num den : Nat}

theorem divHalfEven_error (hd : 0 < den) :
    |(num : ℚ) / den - divHalfEven num den| ≤ 1 / 2 := by
  have hsplit := Nat.div_add_mod num den
  have hmod := Nat.mod_lt num hd
  have hbounds : 2 * num ≤ 2 * (den * divHalfEven num den) + den ∧
      2 * (den * divHalfEven num den) ≤ 2 * num + den := by
    unfold divHalfEven
    dsimp only
    generalize num / den = quotient at *
    generalize num % den = remainder at *
    split
    · omega
    · split
      · rw [Nat.mul_succ]
        omega
      · rcases Nat.mod_two_eq_zero_or_one quotient with h | h <;> rw [h]
        · rw [Nat.add_zero]
          omega
        · rw [Nat.mul_succ]
          omega
  have hpos : (0 : ℚ) < den := by exact_mod_cast hd
  have hupper : 2 * (num : ℚ) ≤ 2 * (den * divHalfEven num den) + den := by
    exact_mod_cast hbounds.1
  have hlower : 2 * (den * divHalfEven num den : ℚ) ≤ 2 * num + den := by
    exact_mod_cast hbounds.2
  rw [abs_le, le_sub_iff_add_le, sub_le_iff_le_add, le_div_iff₀ hpos, div_le_iff₀ hpos]
  constructor <;> linarith

/-- No integer is nearer to a quotient than the rounded one. -/
theorem divHalfEven_nearest (hd : 0 < den) (j : Int) :
    |(num : ℚ) / den - divHalfEven num den| ≤ |(num : ℚ) / den - j| := by
  have herror : |(num : ℚ) / den - divHalfEven num den| ≤ 1 / 2 := divHalfEven_error hd
  by_cases hj : j = divHalfEven num den
  · rw [hj, Int.cast_natCast]
  · have hapart : (1 : ℚ) ≤ |((divHalfEven num den : Int) - j : ℚ)| := by
      exact_mod_cast Int.one_le_abs (sub_ne_zero.mpr (Ne.symm hj))
    have htriangle := abs_sub_le (divHalfEven num den : ℚ) ((num : ℚ) / den) j
    rw [Int.cast_natCast] at hapart
    rw [abs_sub_comm (divHalfEven num den : ℚ) ((num : ℚ) / den)] at htriangle
    linarith

namespace BinaryFormat

variable {format : BinaryFormat} {magnitude significand : Nat} {exponent : Int}

/-- The number that a magnitude stands for. -/
def valueOf (format : BinaryFormat) (magnitude : Nat) : ℚ :=
  format.significand magnitude * 2 ^ format.exponent magnitude

/-- The significand is full, unless the exponent is the smallest one; the magnitude has the exponent
above the bits of the fraction and the leading bit added to it. -/
structure Normal (format : BinaryFormat) (magnitude significand : Nat) (exponent : Int) :
    Prop where
  least : format.minExponent ≤ exponent
  bound : significand < 2 * 2 ^ format.fractionBits
  leading : format.minExponent < exponent → 2 ^ format.fractionBits ≤ significand
  bits : magnitude =
    (exponent - format.minExponent).toNat * 2 ^ format.fractionBits + significand

theorem exponentField_eq (format : BinaryFormat) (magnitude : Nat) :
    format.exponentField magnitude = magnitude / 2 ^ format.fractionBits :=
  Nat.shiftRight_eq_div_pow _ _

theorem significand_eq (format : BinaryFormat) (magnitude : Nat) : format.significand magnitude =
    if magnitude / 2 ^ format.fractionBits = 0 then magnitude
    else magnitude % 2 ^ format.fractionBits + 2 ^ format.fractionBits := by
  rw [← exponentField_eq, BinaryFormat.significand, Nat.one_shiftLeft]

theorem exponent_eq (format : BinaryFormat) (magnitude : Nat) : format.exponent magnitude =
    format.minExponent + (magnitude / 2 ^ format.fractionBits - 1 : Nat) := by
  rw [← exponentField_eq, BinaryFormat.exponent]

theorem normal (format : BinaryFormat) (magnitude : Nat) :
    Normal format magnitude (format.significand magnitude) (format.exponent magnitude) := by
  have hpos : 0 < 2 ^ format.fractionBits := by positivity
  have hsplit := Nat.div_add_mod magnitude (2 ^ format.fractionBits)
  have hmod := Nat.mod_lt magnitude hpos
  rw [significand_eq, exponent_eq]
  cases hfield : magnitude / 2 ^ format.fractionBits with
  | zero =>
    rw [hfield, Nat.mul_zero] at hsplit
    rw [if_pos rfl]
    constructor
    · omega
    · omega
    · omega
    · simp
  | succ field =>
    rw [hfield, Nat.mul_succ, Nat.mul_comm] at hsplit
    have hsteps : (format.minExponent + (field : Nat) - format.minExponent).toNat = field := by
      omega
    rw [if_neg (Nat.succ_ne_zero field), Nat.add_sub_cancel]
    constructor
    · omega
    · omega
    · omega
    · rw [hsteps]
      omega

theorem Normal.valueOf_eq (h : Normal format magnitude significand exponent) :
    format.valueOf magnitude = significand * 2 ^ exponent := by
  obtain ⟨hleast, hbound, hleading, hbits⟩ := h
  rw [valueOf]
  have hpos : 0 < 2 ^ format.fractionBits := by positivity
  have hsignificand := format.significand_eq magnitude
  have hexponent := format.exponent_eq magnitude
  rcases Nat.lt_or_ge significand (2 ^ format.fractionBits) with hsmall | hlarge
  · -- below the leading bit only the smallest exponent is left
    obtain rfl : exponent = format.minExponent := by omega
    obtain rfl : magnitude = significand := by
      rw [hbits, sub_self, Int.toNat_zero, Nat.zero_mul, Nat.zero_add]
    rw [Nat.div_eq_of_lt hsmall] at hsignificand hexponent
    rw [hsignificand, hexponent, if_pos rfl, Nat.zero_sub, Nat.cast_zero, add_zero]
  · obtain ⟨rest, rfl⟩ := Nat.exists_eq_add_of_le hlarge
    obtain ⟨steps, rfl⟩ := Int.le.dest hleast
    have hrest : rest < 2 ^ format.fractionBits := by omega
    have hmagnitude : magnitude = 2 ^ format.fractionBits * (steps + 1) + rest := by
      rw [hbits, add_sub_cancel_left, Int.toNat_natCast]
      ring
    have hfield : magnitude / 2 ^ format.fractionBits = steps + 1 := by
      rw [hmagnitude, Nat.mul_add_div hpos, Nat.div_eq_of_lt hrest, Nat.add_zero]
    have hfraction : magnitude % 2 ^ format.fractionBits = rest := by
      rw [hmagnitude, Nat.mul_add_mod, Nat.mod_eq_of_lt hrest]
    rw [hfield, if_neg steps.succ_ne_zero, hfraction, Nat.add_comm] at hsignificand
    rw [hfield, Nat.add_sub_cancel] at hexponent
    rw [hsignificand, hexponent]

theorem valueOf_zero (format : BinaryFormat) : format.valueOf 0 = 0 := by
  rw [valueOf, significand_eq, Nat.zero_div, if_pos rfl, Nat.cast_zero, zero_mul]

theorem valueOf_nonneg (format : BinaryFormat) (magnitude : Nat) :
    0 ≤ format.valueOf magnitude := by
  unfold valueOf
  positivity

theorem valueOf_quotient {scale : Int} {quotient : Nat} (hleast : format.minExponent ≤ scale)
    (hmost : quotient ≤ 2 * 2 ^ format.fractionBits)
    (hleading : format.minExponent < scale → 2 ^ format.fractionBits ≤ quotient) :
    format.valueOf ((scale - format.minExponent).toNat * 2 ^ format.fractionBits + quotient) =
      quotient * 2 ^ scale := by
  rcases Nat.lt_or_eq_of_le hmost with hlt | rfl
  · exact Normal.valueOf_eq ⟨hleast, hlt, hleading, rfl⟩
  · -- a quotient that was rounded up to the next binade
    have hnormal : Normal format
        ((scale - format.minExponent).toNat * 2 ^ format.fractionBits +
          2 * 2 ^ format.fractionBits) (2 ^ format.fractionBits) (scale + 1) := by
      have hpos : 0 < 2 ^ format.fractionBits := by positivity
      have hsteps : (scale + 1 - format.minExponent).toNat =
          (scale - format.minExponent).toNat + 1 := by omega
      constructor
      · omega
      · omega
      · exact fun _ => le_rfl
      · rw [hsteps]
        ring
    rw [hnormal.valueOf_eq, zpow_add_one₀ two_ne_zero]
    push_cast
    ring

theorem abs_sub_first_le {q first v : ℚ} (hfirst : first ≤ q) (hv : v ≤ first) :
    |q - first| ≤ |q - v| := by
  rw [abs_of_nonneg (sub_nonneg.mpr hfirst), abs_of_nonneg (sub_nonneg.mpr (hv.trans hfirst))]
  linarith

/-- The quotient in units of the last place is between the whole numbers of units that the ratio is
between, and none of them is nearer to it. -/
theorem exists_quotient (format : BinaryFormat) (hn : num ≠ 0) (hd : den ≠ 0) :
    ∃ (scale : Int) (quotient : Nat),
      scale = max (log2Ratio num den - format.fractionBits) format.minExponent ∧
        format.round num den = min ((scale - format.minExponent).toNat * 2 ^ format.fractionBits +
          quotient) format.infinity ∧
        (∀ k : Nat, k * 2 ^ scale ≤ (num : ℚ) / den → k ≤ quotient) ∧
        (∀ k : Nat, (num : ℚ) / den ≤ k * 2 ^ scale → quotient ≤ k) ∧
        ∀ j : Int,
          |(num : ℚ) / den - quotient * 2 ^ scale| ≤ |(num : ℚ) / den - j * 2 ^ scale| := by
  obtain ⟨scale, scaledNum, scaledDen, hscale, hpos, hratio, hround⟩ := format.exists_scaled hn hd
  have hcast : (0 : ℚ) < scaledDen := by exact_mod_cast hpos
  have hunit : (0 : ℚ) < 2 ^ scale := by positivity
  refine ⟨scale, _, hscale, hround, ?_, ?_, ?_⟩
  · intro k hk
    rw [← le_div_iff₀ hunit, ← hratio, le_div_iff₀ hcast] at hk
    exact le_divHalfEven hpos (by exact_mod_cast hk)
  · intro k hk
    rw [← div_le_iff₀ hunit, ← hratio, div_le_iff₀ hcast] at hk
    exact divHalfEven_le hpos (by exact_mod_cast hk)
  · intro j
    rw [← div_mul_cancel₀ ((num : ℚ) / den) hunit.ne', ← hratio, ← sub_mul, ← sub_mul, abs_mul,
      abs_mul]
    exact mul_le_mul_of_nonneg_right (divHalfEven_nearest hpos j) (abs_nonneg _)

/-- No number of the format is nearer to a ratio than the one that it is rounded to. -/
theorem round_nearest (format : BinaryFormat) (hd : den ≠ 0)
    (hfinite : format.round num den < format.infinity) (other : Nat) :
    |(num : ℚ) / den - format.valueOf (format.round num den)| ≤
      |(num : ℚ) / den - format.valueOf other| := by
  by_cases hn : num = 0
  · rw [round, if_pos hn, hn, Nat.cast_zero, zero_div, valueOf_zero, sub_self, abs_zero]
    exact abs_nonneg _
  obtain ⟨hlow, hhigh⟩ := log2Ratio_spec hn hd
  obtain ⟨scale, quotient, hscale, hround, habove, hbelow, hnearest⟩ := format.exists_quotient hn hd
  rw [hround, min_lt_iff, or_iff_left (lt_irrefl _)] at hfinite
  rw [hround, min_eq_left hfinite.le]
  generalize (num : ℚ) / den = q at *
  generalize log2Ratio num den = e at *
  have hbinade : format.minExponent < scale →
      ((2 ^ format.fractionBits : Nat) : ℚ) * 2 ^ scale ≤ q := by
    intro hlt
    refine le_trans ?_ hlow
    rw [Nat.cast_pow, Nat.cast_ofNat, ← zpow_natCast, ← zpow_add₀ two_ne_zero]
    exact zpow_le_zpow_right₀ one_le_two (by omega)
  have hmost : quotient ≤ 2 * 2 ^ format.fractionBits := by
    apply hbelow
    refine hhigh.le.trans ?_
    rw [← pow_succ', Nat.cast_pow, Nat.cast_ofNat, ← zpow_natCast, ← zpow_add₀ two_ne_zero]
    exact zpow_le_zpow_right₀ one_le_two (by push_cast; omega)
  rw [valueOf_quotient (by omega) hmost fun hlt => habove _ (hbinade hlt)]
  obtain ⟨hleast, hbound, -, -⟩ := format.normal other
  rw [valueOf]
  generalize format.significand other = significand at *
  generalize format.exponent other = exponent at *
  rcases le_or_gt scale exponent with hle | hlt
  · obtain ⟨steps, rfl⟩ := Int.le.dest hle
    have hwhole := hnearest (significand * 2 ^ steps : Nat)
    rwa [Int.cast_natCast, Nat.cast_mul, Nat.cast_pow, Nat.cast_ofNat, mul_assoc,
      mul_comm (2 ^ steps), ← zpow_natCast, ← zpow_add₀ two_ne_zero] at hwhole
  · have hsmall : (significand : ℚ) * 2 ^ exponent ≤
        (2 ^ format.fractionBits : Nat) * 2 ^ scale := by
      have hcast : (significand : ℚ) ≤ 2 * (2 ^ format.fractionBits : Nat) := by
        exact_mod_cast hbound.le
      calc (significand : ℚ) * 2 ^ exponent
          ≤ 2 * (2 ^ format.fractionBits : Nat) * 2 ^ exponent :=
            mul_le_mul_of_nonneg_right hcast (by positivity)
        _ = (2 ^ format.fractionBits : Nat) * 2 ^ (exponent + 1) := by
            rw [zpow_add_one₀ two_ne_zero]
            ring
        _ ≤ (2 ^ format.fractionBits : Nat) * 2 ^ scale :=
            mul_le_mul_of_nonneg_left (zpow_le_zpow_right₀ one_le_two (by omega)) (by positivity)
    have hfirst := hnearest (2 ^ format.fractionBits : Nat)
    rw [Int.cast_natCast] at hfirst
    exact hfirst.trans (abs_sub_first_le (hbinade (by omega)) hsmall)

end BinaryFormat

end DescriptorMarshal
