import DescriptorMarshal.Proofs.Nearest

/-!
The numbers that doubles stand for. A magnitude counts its significand in units of its exponent, and
its bits are that pair written out. Rounding keeps the order of ratios and magnitudes, so it does
not change a ratio that a magnitude stands for, and it depends on nothing but the ratio. A decimal
is rounded like any ratio, whatever shortcut is taken for it.
-/

namespace DescriptorMarshal

open BinaryFormat (binary64)

namespace Binary64

def valueOf (magnitude : Nat) : ℚ :=
  binary64.significand magnitude * 2 ^ binary64.exponent magnitude

/-- The number that a finite double stands for. -/
def value (x : Binary64) : ℚ := if x.isNegative then -valueOf x.magnitude else valueOf x.magnitude

/-- The significand has 53 bits, unless the exponent is the smallest one; the magnitude has the
exponent above the lower 52 of them and the highest one added to it. -/
structure Normal (magnitude significand : Nat) (exponent : Int) : Prop where
  least : -1074 ≤ exponent
  bound : significand < 2 ^ 53
  leading : -1074 < exponent → 2 ^ 52 ≤ significand
  bits : magnitude = (exponent - -1074).toNat * 2 ^ 52 + significand

variable {magnitude significand num den n : Nat} {exponent unit : Int}

theorem normal (magnitude : Nat) :
    Normal magnitude (binary64.significand magnitude) (binary64.exponent magnitude) :=
  have ⟨hleast, hbound, hleading, hbits⟩ := binary64.normal magnitude
  ⟨hleast, hbound, hleading, hbits⟩

theorem Normal.valueOf_eq (h : Normal magnitude significand exponent) :
    valueOf magnitude = significand * 2 ^ exponent :=
  BinaryFormat.Normal.valueOf_eq ⟨h.least, h.bound, h.leading, h.bits⟩

theorem valueOf_nonneg (magnitude : Nat) : 0 ≤ valueOf magnitude :=
  binary64.valueOf_nonneg magnitude

theorem valueOf_eq_zero_iff : valueOf magnitude = 0 ↔ magnitude = 0 := by
  have hunit : (2 : ℚ) ^ binary64.exponent magnitude ≠ 0 := by positivity
  rw [valueOf, mul_eq_zero, or_iff_left hunit, Nat.cast_eq_zero]
  obtain ⟨hleast, -, hleading, hbits⟩ := normal magnitude
  omega

theorem abs_value (x : Binary64) : |x.value| = valueOf x.magnitude := by
  have hnonneg := valueOf_nonneg x.magnitude
  rw [value]
  cases x.isNegative with
  | false => exact abs_of_nonneg hnonneg
  | true => rw [if_pos rfl, abs_neg, abs_of_nonneg hnonneg]

theorem shift_value (count : Nat) (exponent : Int) :
    ((count <<< exponent.toNat : Nat) : ℚ) / (1 <<< (-exponent).toNat : Nat) =
      count * 2 ^ exponent := by
  have := shift_ratio count 1 (-exponent)
  rwa [neg_neg, Nat.cast_one, div_one, zpow_neg, div_inv_eq_mul] at this

theorem one_shiftLeft_ne_zero (count : Nat) : 1 <<< count ≠ 0 := by
  rw [Nat.one_shiftLeft]
  positivity

theorem exists_quotient (hn : num ≠ 0) (hd : den ≠ 0) : ∃ (scale : Int) (quotient : Nat),
    scale = max (log2Ratio num den - 52) (-1074) ∧
      binary64.round num den =
        min ((scale - -1074).toNat * 2 ^ 52 + quotient) binary64.infinity ∧
      (∀ k : Nat, k * 2 ^ scale ≤ (num : ℚ) / den → k ≤ quotient) ∧
      ∀ k : Nat, (num : ℚ) / den ≤ k * 2 ^ scale → quotient ≤ k := by
  obtain ⟨scale, quotient, hscale, hround, habove, hbelow, -⟩ := binary64.exists_quotient hn hd
  exact ⟨scale, quotient, hscale, hround, habove, hbelow⟩

/-- Rounding does not take a ratio below a magnitude that it is not below. -/
theorem le_round (hd : den ≠ 0) (hm : magnitude ≤ binary64.infinity)
    (h : valueOf magnitude ≤ num / den) : magnitude ≤ binary64.round num den := by
  by_cases hn : num = 0
  · subst hn
    rw [Nat.cast_zero, zero_div] at h
    rw [valueOf_eq_zero_iff.mp (le_antisymm h (valueOf_nonneg _))]
    exact Nat.zero_le _
  obtain ⟨hlow, hhigh⟩ := log2Ratio_spec hn hd
  obtain ⟨scale, quotient, hscale, hround, hquotient, -⟩ := exists_quotient hn hd
  obtain ⟨hleast, hbound, hleading, hbits⟩ := normal magnitude
  rw [hround, le_min_iff]
  refine ⟨?_, hm⟩
  rw [valueOf] at h
  generalize binary64.significand magnitude = significand at *
  generalize binary64.exponent magnitude = exponent at *
  generalize log2Ratio num den = e at *
  generalize (num : ℚ) / den = q at *
  rcases lt_trichotomy exponent scale with hlt | rfl | hgt
  · have hlead : 2 ^ 52 ≤ quotient := by
      apply hquotient
      refine le_trans ?_ hlow
      rw [Nat.cast_pow, ← zpow_natCast, Nat.cast_ofNat, ← zpow_add₀ two_ne_zero]
      exact zpow_le_zpow_right₀ one_le_two (by omega)
    omega
  · have hexact := hquotient significand h
    omega
  · have hlead : (2 : ℚ) ^ 52 ≤ significand := by exact_mod_cast hleading (by omega)
    have hsmall : (2 : ℚ) ^ (52 + exponent) ≤ q := by
      refine le_trans ?_ h
      rw [zpow_add₀ two_ne_zero]
      exact mul_le_mul_of_nonneg_right hlead (by positivity)
    have hexponent := (zpow_lt_zpow_iff_right₀ one_lt_two).mp (hsmall.trans_lt hhigh)
    omega

/-- Rounding does not take a ratio above a magnitude that it is not above. -/
theorem round_le (hd : den ≠ 0) (h : (num : ℚ) / den ≤ valueOf magnitude) :
    binary64.round num den ≤ magnitude := by
  by_cases hn : num = 0
  · rw [BinaryFormat.round, if_pos hn]
    exact Nat.zero_le _
  obtain ⟨hlow, hhigh⟩ := log2Ratio_spec hn hd
  obtain ⟨scale, quotient, hscale, hround, -, hquotient⟩ := exists_quotient hn hd
  obtain ⟨hleast, hbound, hleading, hbits⟩ := normal magnitude
  rw [hround]
  apply (min_le_left _ _).trans
  rw [valueOf] at h
  generalize binary64.significand magnitude = significand at *
  generalize binary64.exponent magnitude = exponent at *
  generalize log2Ratio num den = e at *
  generalize (num : ℚ) / den = q at *
  rcases lt_trichotomy exponent scale with hlt | rfl | hgt
  · have hsmall : q < 2 ^ (53 + exponent) := by
      refine h.trans_lt ?_
      rw [zpow_add₀ two_ne_zero]
      exact mul_lt_mul_of_pos_right (by exact_mod_cast hbound) (by positivity)
    have hexponent := (zpow_lt_zpow_iff_right₀ one_lt_two).mp (hlow.trans_lt hsmall)
    omega
  · have hexact := hquotient significand h
    omega
  · have hlead := hleading (by omega)
    have hfull : quotient ≤ 2 ^ 53 := by
      apply hquotient
      refine hhigh.le.trans ?_
      rw [Nat.cast_pow, ← zpow_natCast, Nat.cast_ofNat, ← zpow_add₀ two_ne_zero]
      exact zpow_le_zpow_right₀ one_le_two (by omega)
    omega

/-- What a magnitude stands for is rounded to it. -/
theorem round_exact (hd : den ≠ 0) (hm : magnitude ≤ binary64.infinity)
    (h : (num : ℚ) / den = valueOf magnitude) : binary64.round num den = magnitude :=
  Nat.le_antisymm (round_le hd h.le) (le_round hd hm h.ge)

theorem valueOf_lt {magnitude' : Nat} (h : magnitude < magnitude')
    (hm : magnitude' ≤ binary64.infinity) : valueOf magnitude < valueOf magnitude' := by
  by_contra hle
  have hvalue := shift_value (binary64.significand magnitude) (binary64.exponent magnitude)
  have hden := one_shiftLeft_ne_zero (-binary64.exponent magnitude).toNat
  have hsame := round_exact hden (h.le.trans hm) hvalue
  have hlarger := le_round hden hm ((not_lt.mp hle).trans hvalue.ge)
  omega

theorem divHalfEven_mul {factor : Nat} (hf : 0 < factor) (num den : Nat) :
    divHalfEven (factor * num) (factor * den) = divHalfEven num den := by
  have htwice : 2 * (factor * num % (factor * den)) = factor * (2 * (num % den)) := by
    rw [Nat.mul_mod_mul_left]
    ring
  unfold divHalfEven
  dsimp only
  rw [Nat.mul_div_mul_left _ _ hf, htwice]
  simp only [mul_lt_mul_iff_right₀ hf]

theorem divHalfEven_congr {num' den' : Nat} (hd : 0 < den) (hd' : 0 < den')
    (h : (num : ℚ) / den = (num' : ℚ) / den') : divHalfEven num den = divHalfEven num' den' := by
  rw [div_eq_div_iff (by positivity) (by positivity)] at h
  have hcross : den' * num = den * num' := by
    rw [mul_comm, mul_comm den]
    exact_mod_cast h
  calc divHalfEven num den
      = divHalfEven (den' * num) (den' * den) := (divHalfEven_mul hd' _ _).symm
    _ = divHalfEven (den * num') (den * den') := by rw [hcross, mul_comm den']
    _ = divHalfEven num' den' := divHalfEven_mul hd _ _

theorem log2Ratio_congr {num' den' : Nat} (hn : num ≠ 0) (hd : den ≠ 0) (hn' : num' ≠ 0)
    (hd' : den' ≠ 0) (h : (num : ℚ) / den = (num' : ℚ) / den') :
    log2Ratio num den = log2Ratio num' den' := by
  obtain ⟨hlow, hhigh⟩ := log2Ratio_spec hn hd
  obtain ⟨hlow', hhigh'⟩ := log2Ratio_spec hn' hd'
  rw [h] at hlow hhigh
  have hle := (zpow_lt_zpow_iff_right₀ one_lt_two).mp (hlow.trans_lt hhigh')
  have hge := (zpow_lt_zpow_iff_right₀ one_lt_two).mp (hlow'.trans_lt hhigh)
  omega

theorem round_congr {num' den' : Nat} (hd : den ≠ 0) (hd' : den' ≠ 0)
    (h : (num : ℚ) / den = (num' : ℚ) / den') :
    binary64.round num den = binary64.round num' den' := by
  by_cases hn : num = 0
  · have hn' : num' = 0 := by
      rw [hn, Nat.cast_zero, zero_div, eq_comm, div_eq_zero_iff, Nat.cast_eq_zero,
        Nat.cast_eq_zero] at h
      exact h.resolve_right hd'
    rw [BinaryFormat.round, BinaryFormat.round, if_pos hn, if_pos hn']
  · have hn' : num' ≠ 0 := by
      rintro rfl
      rw [Nat.cast_zero, zero_div, div_eq_zero_iff, Nat.cast_eq_zero, Nat.cast_eq_zero] at h
      exact h.elim hn hd
    obtain ⟨scale, scaledNum, scaledDen, hscale, hpos, hratio, hround⟩ := exists_scaled hn hd
    obtain ⟨scale', scaledNum', scaledDen', hscale', hpos', hratio', hround'⟩ :=
      exists_scaled hn' hd'
    obtain rfl : scale = scale' := by rw [hscale, hscale', log2Ratio_congr hn hd hn' hd' h]
    rw [hround, hround', divHalfEven_congr hpos hpos' (by rw [hratio, hratio', h])]

theorem round_eq_zero (hd : den ≠ 0) (h : (num : ℚ) / den < 2 ^ (-1075 : Int)) :
    binary64.round num den = 0 := by
  by_cases hn : num = 0
  · rw [BinaryFormat.round, if_pos hn]
  · obtain ⟨hlow, -⟩ := log2Ratio_spec hn hd
    obtain ⟨scale, scaledNum, scaledDen, hscale, hpos, hratio, hround⟩ := exists_scaled hn hd
    have hexponent := (zpow_lt_zpow_iff_right₀ one_lt_two).mp (hlow.trans_lt h)
    obtain rfl : scale = -1074 := by omega
    have hhalf : 2 * scaledNum < scaledDen := by
      have hcast : (0 : ℚ) < scaledDen := by exact_mod_cast hpos
      have hsplit : (2 : ℚ) ^ (-1075 : Int) = 2⁻¹ * 2 ^ (-1074 : Int) := by
        rw [show (-1075 : Int) = -1 + -1074 by norm_num, zpow_add₀ two_ne_zero, zpow_neg_one]
      rw [hsplit, ← div_lt_iff₀ (by positivity), ← hratio, div_lt_iff₀ hcast, inv_mul_eq_div,
        lt_div_iff₀ two_pos, mul_comm] at h
      exact_mod_cast h
    have hquotient : divHalfEven scaledNum scaledDen = 0 := by
      have hsmall : scaledNum < scaledDen := by omega
      rw [divHalfEven, Nat.mod_eq_of_lt hsmall, Nat.div_eq_of_lt hsmall, if_pos hhalf]
    rw [hround, hquotient]
    rfl

/-- A significand of 53 bits in any units that doubles have stands for a magnitude. -/
theorem exists_magnitude (k : Nat) (hn : n < 2 ^ 53) : ∃ magnitude,
    valueOf magnitude = n * 2 ^ (-1074 + k : Int) ∧ magnitude < (k + 2) * 2 ^ 52 := by
  induction k generalizing n with
  | zero =>
    have hnormal : Normal n n (-1074 + (0 : Nat)) := by constructor <;> omega
    refine ⟨n, hnormal.valueOf_eq, ?_⟩
    omega
  | succ k ih =>
    by_cases hlead : 2 ^ 52 ≤ n
    · have hnormal : Normal ((k + 1) * 2 ^ 52 + n) n (-1074 + (k + 1 : Nat)) := by
        constructor <;> omega
      exact ⟨_, hnormal.valueOf_eq, by omega⟩
    · obtain ⟨magnitude, hvalue, hbound⟩ := @ih (2 * n) (by omega)
      refine ⟨magnitude, ?_, hbound.trans (by omega)⟩
      have hunit : (-1074 + (k + 1 : Nat) : Int) = -1074 + k + 1 := by
        push_cast
        ring
      rw [hvalue, hunit, zpow_add_one₀ two_ne_zero]
      push_cast
      ring

theorem isNegative_ofMagnitude (h : magnitude < binary64.signBit) (negative : Bool) :
    (ofMagnitude negative magnitude).isNegative = negative := by
  have hsign : binary64.signBit = 2 ^ 63 := rfl
  rw [hsign] at h
  unfold isNegative ofMagnitude
  rw [hsign, UInt64.toNat_ofNat']
  cases negative with
  | false =>
    rw [if_neg Bool.false_ne_true, decide_eq_false_iff_not]
    omega
  | true =>
    rw [if_pos rfl, decide_eq_true_iff]
    omega

theorem ofMagnitude_magnitude (x : Binary64) : ofMagnitude x.isNegative x.magnitude = x := by
  have hsign : binary64.signBit = 2 ^ 63 := rfl
  have hbits := x.bits.toNat_lt
  have hnat : (if x.isNegative then binary64.signBit + x.magnitude else x.magnitude) =
      x.bits.toNat := by
    unfold isNegative magnitude
    rw [hsign]
    by_cases h : 2 ^ 63 ≤ x.bits.toNat
    · rw [decide_eq_true h, if_pos rfl]
      omega
    · rw [decide_eq_false h, if_neg Bool.false_ne_true]
      omega
  rw [ofMagnitude, hnat, UInt64.ofNat_toNat]

theorem value_ofMagnitude (h : magnitude < binary64.signBit) (negative : Bool) :
    (ofMagnitude negative magnitude).value =
      if negative then -valueOf magnitude else valueOf magnitude := by
  rw [value, isNegative_ofMagnitude h, magnitude_ofMagnitude h]

theorem ofMagnitude_round (hd : den ≠ 0) (hn : n < 2 ^ 53) (hleast : -1074 ≤ unit)
    (hmost : unit ≤ 971) (h : (num : ℚ) / den = n * 2 ^ unit) (negative : Bool) :
    (ofMagnitude negative (binary64.round num den)).isFinite = true ∧
      (ofMagnitude negative (binary64.round num den)).value =
        if negative then -(n * 2 ^ unit : ℚ) else n * 2 ^ unit := by
  obtain ⟨k, rfl⟩ : ∃ k : Nat, unit = -1074 + k := ⟨(unit + 1074).toNat, by omega⟩
  obtain ⟨magnitude, hvalue, hbound⟩ := exists_magnitude k hn
  have hinfinity : binary64.infinity = 2047 * 2 ^ 52 := rfl
  have hsign : binary64.infinity < binary64.signBit := by decide
  have hfinite : magnitude < binary64.infinity := by omega
  rw [round_exact hd hfinite.le (h.trans hvalue.symm), isFinite_ofMagnitude hfinite.le,
    value_ofMagnitude (hfinite.trans hsign), hvalue]
  exact ⟨hfinite, rfl⟩

end Binary64

namespace Decimal

def magnitude (d : Decimal) : ℚ := d.digits * 10 ^ d.exponent

variable {d : Decimal}

/-- The place of the first digit of a decimal tells its magnitude to a factor of ten. -/
theorem magnitude_bounds {places : Int} (h : d.digits ≠ 0)
    (hp : (Nat.toDigits 10 d.digits).length + d.exponent = places) :
    (10 : ℚ) ^ (places - 1) ≤ d.magnitude ∧ d.magnitude < 10 ^ places := by
  obtain ⟨length, hlength⟩ : ∃ length, (Nat.toDigits 10 d.digits).length = length + 1 :=
    Nat.exists_eq_succ_of_ne_zero Nat.length_toDigits_pos.ne'
  have hlow : 10 ^ length ≤ d.digits := by
    rcases Nat.eq_zero_or_pos length with rfl | hpos
    · exact Nat.one_le_iff_ne_zero.mpr h
    · have hlong : ¬ (Nat.toDigits 10 d.digits).length ≤ length := by omega
      rwa [Nat.length_toDigits_le_iff (by norm_num) hpos, not_lt] at hlong
  have hhigh : d.digits < 10 ^ (length + 1) :=
    (Nat.length_toDigits_le_iff (by norm_num) length.succ_pos).mp hlength.le
  have hpos : (0 : ℚ) < 10 ^ d.exponent := by positivity
  have hten : (10 : ℚ) ≠ 0 := by norm_num
  rw [hlength] at hp
  subst hp
  have hsplit : ((length + 1 : Nat) : Int) + d.exponent - 1 = length + d.exponent := by
    push_cast
    ring
  rw [magnitude, hsplit, zpow_add₀ hten, zpow_add₀ hten, zpow_natCast, zpow_natCast]
  constructor
  · exact mul_le_mul_of_nonneg_right (by exact_mod_cast hlow) hpos.le
  · exact mul_lt_mul_of_pos_right (by exact_mod_cast hhigh) hpos

theorem ratio_eq_magnitude (d : Decimal) :
    ((d.digits * tenTo d.exponent.toNat : Nat) : ℚ) / (tenTo (-d.exponent).toNat : Nat) =
      d.magnitude := by
  have hten : ∀ count, tenTo count = 10 ^ count := fun count => rfl
  rw [magnitude, hten, hten]
  push_cast
  obtain ⟨n, hn | hn⟩ := Int.eq_nat_or_neg d.exponent
  · rw [hn, Int.toNat_natCast, Int.toNat_neg_natCast, pow_zero, div_one, zpow_natCast]
  · rw [hn, neg_neg, Int.toNat_natCast, Int.toNat_neg_natCast, pow_zero, mul_one, zpow_neg,
      zpow_natCast, div_eq_mul_inv]

theorem zpow_ten_le_halfUnit : (10 : ℚ) ^ (-331 : Int) ≤ 2 ^ (-1075 : Int) := by
  rw [zpow_neg, zpow_neg]
  apply inv_anti₀ (by positivity)
  exact_mod_cast (by decide +kernel : 2 ^ 1075 ≤ 10 ^ 331)

theorem overflow_le_zpow_ten : Binary64.overflow ≤ 10 ^ (310 : Int) := by
  refine (Binary64.overflow_le_zpow le_rfl).trans ?_
  rw [zpow_ofNat, zpow_ofNat]
  exact_mod_cast (by decide +kernel : 2 ^ 1024 ≤ 10 ^ 310)

/-- No shortcut gives anything else than rounding. -/
theorem toBinary64_eq (d : Decimal) : d.toBinary64 = .ofMagnitude d.negative
    (binary64.round (d.digits * tenTo d.exponent.toNat) (tenTo (-d.exponent).toNat)) := by
  have hden : tenTo (-d.exponent).toNat ≠ 0 := pow_ne_zero _ (by norm_num)
  unfold toBinary64
  generalize hp : ((Nat.toDigits 10 d.digits).length : Int) + d.exponent = places
  dsimp only
  split
  · next hsmall =>
    congr 1
    symm
    by_cases hzero : d.digits = 0
    · rw [hzero, Nat.zero_mul]
      rfl
    · apply Binary64.round_eq_zero hden
      rw [ratio_eq_magnitude]
      calc d.magnitude
          < 10 ^ places := (magnitude_bounds hzero hp).2
        _ ≤ 10 ^ (-331 : Int) := zpow_le_zpow_right₀ (by norm_num) (by omega)
        _ ≤ 2 ^ (-1075 : Int) := zpow_ten_le_halfUnit
  · next hlarge =>
    obtain ⟨hne, -⟩ := not_or.mp hlarge
    split
    · next hhuge =>
      have hge : Binary64.overflow ≤ d.magnitude := by
        calc Binary64.overflow
            ≤ 10 ^ (310 : Int) := overflow_le_zpow_ten
          _ ≤ 10 ^ (places - 1) := zpow_le_zpow_right₀ (by norm_num) (by omega)
          _ ≤ d.magnitude := (magnitude_bounds hne hp).1
      rw [← ratio_eq_magnitude] at hge
      exact congrArg _ (Binary64.round_eq_infinity hden hge).symm
    · rfl

/-- A decimal has a finite double exactly below the overflow, and an infinite one from there on. -/
theorem toBinary64_finite (d : Decimal) :
    (d.toBinary64.isFinite = true ↔ d.magnitude < Binary64.overflow) ∧
      (Binary64.overflow ≤ d.magnitude → d.toBinary64 = .infinity d.negative) := by
  have hden : tenTo (-d.exponent).toNat ≠ 0 := pow_ne_zero _ (by norm_num)
  rw [toBinary64_eq, Binary64.isFinite_ofMagnitude (Binary64.round_le_infinity _ _),
    Binary64.round_lt_infinity hden, ratio_eq_magnitude]
  refine ⟨Iff.rfl, fun hge => ?_⟩
  rw [← ratio_eq_magnitude] at hge
  rw [Binary64.round_eq_infinity hden hge]
  rfl

theorem toBinary64_congr {d' : Decimal} (hn : d.negative = d'.negative)
    (hm : d.magnitude = d'.magnitude) : d.toBinary64 = d'.toBinary64 := by
  have hden : ∀ d : Decimal, tenTo (-d.exponent).toNat ≠ 0 := fun _ => pow_ne_zero _ (by norm_num)
  rw [toBinary64_eq, toBinary64_eq, hn, Binary64.round_congr (hden d) (hden d')]
  rw [ratio_eq_magnitude, ratio_eq_magnitude, hm]

end Decimal

end DescriptorMarshal
