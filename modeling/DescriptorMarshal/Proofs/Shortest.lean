import DescriptorMarshal.Number.Shortest
import DescriptorMarshal.Proofs.Literals

/-!
Doubles as text read back. Every grid point that is taken was read back first, and the exact
expansion is there if none is, so the shortest decimal of a double has this double as its nearest
one. A layout drops zeros at the end of the digits and places a point or an exponent among them, and
what it sets out is a decimal of the same magnitude.
-/

namespace DescriptorMarshal

open BinaryFormat (binary64)

namespace Binary64

variable {x : Binary64} {tie : Tie} {digits : Nat} {exponent : Int}

/-- The decimal reads as the double. -/
structure ReadsBack (x : Binary64) (d : Decimal) : Prop where
  negative : d.negative = x.isNegative
  nearest : d.toBinary64 = x

theorem ReadsBack.round {d : Decimal} (h : x.ReadsBack d) :
    binary64.round (d.digits * tenTo d.exponent.toNat) (tenTo (-d.exponent).toNat) =
      x.magnitude := by
  have hsign : binary64.infinity < binary64.signBit := by decide
  rw [← h.nearest, Decimal.toBinary64_eq,
    magnitude_ofMagnitude ((round_le_infinity _ _).trans_lt hsign)]

theorem readsBack_of_readsAs (h : x.readsAs digits exponent = true) :
    x.ReadsBack ⟨x.isNegative, digits, exponent⟩ := by
  refine ⟨rfl, ?_⟩
  have hsign : binary64.infinity < binary64.signBit := by decide
  rw [readsAs, beq_iff_eq, Decimal.toBinary64_eq,
    magnitude_ofMagnitude ((round_le_infinity _ _).trans_lt hsign)] at h
  rw [Decimal.toBinary64_eq, h, ofMagnitude_magnitude]

theorem readsBack_of_onGrid? (h : x.onGrid? tie exponent = some digits) :
    x.ReadsBack ⟨x.isNegative, digits, exponent⟩ := by
  apply readsBack_of_readsAs
  unfold onGrid? at h
  generalize x.ratioTo exponent = ratio at h
  obtain ⟨num, den⟩ := ratio
  dsimp only at h
  split at h
  · next hbelow habove =>
    cases h
    split
    · exact habove
    · exact hbelow
  · next hbelow _ =>
    cases h
    exact hbelow
  · next _ habove =>
    cases h
    exact habove
  · cases h

/-- In tens of the exponent, a double is a whole number of units. -/
theorem magnitude_expansion (x : Binary64) (negative : Bool) :
    Decimal.magnitude ⟨negative, (x.ratioTo (min 0 x.exponent)).1 /
      (x.ratioTo (min 0 x.exponent)).2, min 0 x.exponent⟩ = valueOf x.magnitude := by
  have hten : ∀ count, tenTo count = 10 ^ count := fun _ => rfl
  have hvalue : valueOf x.magnitude = x.significand * 2 ^ x.exponent := rfl
  rw [hvalue, Decimal.magnitude, ratioTo]
  dsimp only
  generalize x.significand = significand
  generalize x.exponent = exponent
  obtain ⟨k, rfl | rfl⟩ := Int.eq_nat_or_neg exponent
  · rw [min_eq_left (Int.natCast_nonneg k), neg_zero, Int.toNat_zero, Int.toNat_natCast,
      Int.toNat_neg_natCast, Nat.shiftLeft_zero, hten, pow_zero, Nat.mul_one, Nat.div_one,
      Nat.shiftLeft_eq, zpow_zero, mul_one, zpow_natCast]
    push_cast
    rfl
  · have hsplit : significand * 10 ^ k = significand * 5 ^ k * 2 ^ k := by
      rw [Nat.mul_assoc, ← Nat.mul_pow]
    have hpow : (10 : ℚ) ^ k = 5 ^ k * 2 ^ k := by
      rw [← mul_pow]
      norm_num
    rw [min_eq_right (by omega), neg_neg, Int.toNat_natCast, Int.toNat_neg_natCast,
      Nat.shiftLeft_zero, hten, hten, pow_zero, Nat.one_shiftLeft, hsplit,
      Nat.mul_div_cancel _ (by positivity), zpow_neg, zpow_neg, zpow_natCast, zpow_natCast, hpow]
    push_cast
    rw [mul_inv, mul_assoc, mul_inv_cancel_left₀ (by positivity)]

theorem readsBack_of_magnitude {d : Decimal} (hx : x.isFinite = true)
    (hn : d.negative = x.isNegative) (hm : d.magnitude = valueOf x.magnitude) : x.ReadsBack d := by
  refine ⟨hn, ?_⟩
  have hfinite : x.magnitude < binary64.infinity := of_decide_eq_true hx
  have hden : tenTo (-d.exponent).toNat ≠ 0 := pow_ne_zero _ (by norm_num)
  rw [← Decimal.ratio_eq_magnitude] at hm
  rw [Decimal.toBinary64_eq, round_exact hden hfinite.le hm, hn, ofMagnitude_magnitude]

theorem readsBack_searchGrids (hx : x.isFinite = true) (steps : Nat) (exponent : Int) :
    x.ReadsBack (x.searchGrids tie steps exponent) := by
  induction steps generalizing exponent with
  | zero => exact readsBack_of_magnitude hx rfl (magnitude_expansion x _)
  | succ steps ih =>
    rw [searchGrids]
    split
    · next digits hdigits => exact readsBack_of_onGrid? hdigits
    · exact ih _

theorem readsBack_shortest (hx : x.isFinite = true) (tie : Tie) : x.ReadsBack (x.shortest tie) :=
  readsBack_searchGrids hx _ _

end Binary64

theorem isDigit_eq (c : Char) : isDigit c = c.isDigit := by
  simp [isDigit, Char.isDigit, Char.le_def, UInt32.le_iff_toNat_le]

theorem natOfDigits_eq (digits : List Char) :
    natOfDigits digits = Nat.ofDigitChars 10 digits 0 := rfl

theorem all_isDigit_toDigits (n : Nat) : (Nat.toDigits 10 n).all isDigit = true := by
  rw [List.all_eq_true]
  intro c hc
  rw [isDigit_eq]
  exact Nat.isDigit_of_mem_toDigits (by norm_num) le_rfl hc

theorem digits_toDigits (n : Nat) :
    Literal.Digits 10 Literal.decimalValue? (Nat.toDigits 10 n) n := by
  rw [Literal.digits_decimal_iff]
  exact ⟨Nat.toDigits_ne_nil, all_isDigit_toDigits n, Nat.ofDigitChars_ten_toDigits⟩

theorem toList_toString (n : Int) : (toString n).toList =
    (if n < 0 then ['-'] else []) ++ Nat.toDigits 10 n.natAbs := by
  show n.repr.toList = _
  rw [Int.repr_eq_if]
  by_cases h : 0 ≤ n
  · have habs : n.toNat = n.natAbs := by omega
    rw [if_pos h, if_neg h.not_gt, Nat.repr_eq_ofList_toDigits, String.toList_ofList, habs]
    rfl
  · have habs : (-n).toNat = n.natAbs := by omega
    rw [if_neg h, if_pos (not_le.mp h), String.toList_append, Nat.repr_eq_ofList_toDigits,
      String.toList_ofList, String.toList_ofList, habs]

theorem natOfDigits_zeros_append (count : Nat) (digits : List Char) :
    natOfDigits (List.replicate count '0' ++ digits) = natOfDigits digits := by
  rw [natOfDigits_eq, Nat.ofDigitChars_append, Nat.ofDigitChars_replicate_zero, Nat.mul_zero,
    natOfDigits_eq]

theorem natOfDigits_append_zeros (digits : List Char) (count : Nat) :
    natOfDigits (digits ++ List.replicate count '0') = 10 ^ count * natOfDigits digits := by
  rw [natOfDigits_eq, Nat.ofDigitChars_append, Nat.ofDigitChars_replicate_zero, natOfDigits_eq]

theorem all_isDigit_zeros (count : Nat) : (List.replicate count '0').all isDigit = true := by
  rw [List.all_eq_true]
  intro c hc
  rw [List.eq_of_mem_replicate hc]
  rfl

theorem exists_zeros (digits : List Char) : ∃ count,
    digits = (digits.reverse.dropWhile (· == '0')).reverse ++ List.replicate count '0' := by
  refine ⟨(digits.reverse.takeWhile (· == '0')).length, ?_⟩
  have hzeros : digits.reverse.takeWhile (· == '0') =
      List.replicate (digits.reverse.takeWhile (· == '0')).length '0' := by
    rw [List.eq_replicate_iff]
    refine ⟨rfl, fun c hc => ?_⟩
    simpa using List.all_eq_true.mp List.all_takeWhile c hc
  rw [← List.reverse_replicate, ← hzeros, ← List.reverse_append, List.takeWhile_append_dropWhile,
    List.reverse_reverse]

/-- A decimal without its sign that has a point or an exponent. -/
structure Literal.Marked (negative : Bool) (text : List Char) (d : Decimal) : Prop where
  reads : Unsigned negative text d
  mark : ∃ c ∈ text, c = '.' ∨ c = 'e' ∨ c = 'E'

theorem Literal.Unsigned.negative_eq {negative : Bool} {text : List Char} {d : Decimal}
    (h : Unsigned negative text d) : d.negative = negative := by
  cases h
  rfl

namespace NumberLayout

variable {negative : Bool} {digits : List Char} {exponent : Int}

theorem whole_toString (n : Int) (sign : List Char) (hs : sign = [] ∨ 0 ≤ n ∧ sign = ['+']) :
    Literal.Whole (sign ++ (toString n).toList) n := by
  rw [toList_toString]
  have hdigits := digits_toDigits n.natAbs
  by_cases h : n < 0
  · obtain rfl : sign = [] := hs.resolve_right fun hplus => by omega
    have hwhole := Literal.Whole.mk .minus hdigits
    have hsigned : Literal.signed true n.natAbs = n := by
      show -(n.natAbs : Int) = n
      omega
    rw [hsigned] at hwhole
    rwa [if_pos h]
  · have hsigned : Literal.signed false n.natAbs = n := by
      show (n.natAbs : Int) = n
      omega
    rw [if_neg h, List.nil_append]
    rcases hs with rfl | ⟨-, rfl⟩
    · have hwhole := Literal.Whole.mk .none hdigits
      rwa [hsigned] at hwhole
    · have hwhole := Literal.Whole.mk .plus hdigits
      rwa [hsigned] at hwhole

theorem marked_point {whole fraction : List Char} {n : Nat}
    (h : Literal.Digits 10 Literal.decimalValue? (whole ++ fraction) n) (negative : Bool) :
    Literal.Marked negative (whole ++ '.' :: fraction) ⟨negative, n, -fraction.length⟩ := by
  have hread : Literal.Unsigned negative _ _ := .mk (.point whole fraction) h .none
  rw [List.append_nil, zero_sub] at hread
  exact ⟨hread, '.', by simp, .inl rfl⟩

theorem marked_exponent {mantissa whole fraction scale : List Char} {n : Nat} {e : Int}
    (hp : Literal.Mantissa mantissa whole fraction)
    (h : Literal.Digits 10 Literal.decimalValue? (whole ++ fraction) n)
    (he : Literal.Whole scale e) (negative : Bool) :
    Literal.Marked negative (mantissa ++ 'e' :: scale) ⟨negative, n, e - fraction.length⟩ :=
  ⟨.mk hp h (.mk (.inl rfl) he), 'e', by simp, .inr (.inl rfl)⟩

theorem marked_below (hall : digits.all isDigit = true) (zeros : Nat) (negative : Bool) : ∃ d,
      Literal.Marked negative ('0' :: '.' :: List.replicate zeros '0' ++ digits) d ∧
        d.magnitude = natOfDigits digits * 10 ^ (-(zeros + digits.length : Nat) : Int) := by
  have hspells : Literal.Digits 10 Literal.decimalValue?
      (['0'] ++ (List.replicate zeros '0' ++ digits)) (natOfDigits digits) := by
    rw [Literal.digits_decimal_iff]
    refine ⟨List.cons_ne_nil _ _, ?_, ?_⟩
    · rw [List.all_append, List.all_append, all_isDigit_zeros, hall]
      rfl
    · rw [← List.append_assoc]
      exact natOfDigits_zeros_append (zeros + 1) digits
  refine ⟨_, marked_point hspells negative, ?_⟩
  rw [Decimal.magnitude, List.length_append, List.length_replicate]

theorem marked_above (hne : digits ≠ []) (hall : digits.all isDigit = true) (split : Nat)
    (negative : Bool) : ∃ d, Literal.Marked negative
      (digits.take split ++ List.replicate (split - digits.length) '0' ++
        '.' :: (if (digits.drop split).isEmpty then ['0'] else digits.drop split)) d ∧
        d.magnitude = natOfDigits digits * 10 ^ (split - digits.length : Int) := by
  by_cases hlong : split < digits.length
  · have hdrop : digits.drop split ≠ [] := by
      rw [Ne, List.drop_eq_nil_iff]
      omega
    have hspells : Literal.Digits 10 Literal.decimalValue?
        (digits.take split ++ digits.drop split) (natOfDigits digits) := by
      rw [List.take_append_drop, Literal.digits_decimal_iff]
      exact ⟨hne, hall, rfl⟩
    have hfill : split - digits.length = 0 := by omega
    rw [hfill, List.replicate_zero, List.append_nil, List.isEmpty_eq_false_iff.mpr hdrop]
    refine ⟨_, marked_point hspells negative, ?_⟩
    have hlength : (-(digits.length - split : Nat) : Int) = split - digits.length := by omega
    rw [Decimal.magnitude, List.length_drop, hlength]
  · have htake : digits.take split = digits := List.take_of_length_le (by omega)
    have hdrop : digits.drop split = [] := List.drop_eq_nil_of_le (by omega)
    set zeros := split - digits.length with hzeros
    have hspells : Literal.Digits 10 Literal.decimalValue?
        (digits ++ List.replicate zeros '0' ++ ['0']) (10 ^ (zeros + 1) * natOfDigits digits) := by
      rw [List.append_assoc, ← List.replicate_succ', Literal.digits_decimal_iff]
      refine ⟨List.append_ne_nil_of_left_ne_nil hne _, ?_, natOfDigits_append_zeros _ _⟩
      rw [List.all_append, hall, all_isDigit_zeros]
      rfl
    rw [htake, hdrop]
    refine ⟨_, marked_point hspells negative, ?_⟩
    have hscale : (split - digits.length : Int) = zeros := by omega
    rw [Decimal.magnitude, hscale, zpow_natCast]
    push_cast
    rw [pow_succ]
    norm_num
    ring

theorem marked_scientific (hne : digits ≠ []) (hall : digits.all isDigit = true)
    {sign : List Char} (hs : sign = [] ∨ 0 ≤ exponent ∧ sign = ['+']) (negative : Bool) :
    ∃ d, Literal.Marked negative
      (digits.take 1 ++ (if (digits.drop 1).isEmpty then [] else '.' :: digits.drop 1) ++
        'e' :: sign ++ (toString exponent).toList) d ∧
        d.magnitude = natOfDigits digits * 10 ^ (exponent + 1 - digits.length) := by
  have hspells : Literal.Digits 10 Literal.decimalValue?
      (digits.take 1 ++ digits.drop 1) (natOfDigits digits) := by
    rw [List.take_append_drop, Literal.digits_decimal_iff]
    exact ⟨hne, hall, rfl⟩
  have hmantissa : Literal.Mantissa
      (digits.take 1 ++ (if (digits.drop 1).isEmpty then [] else '.' :: digits.drop 1))
        (digits.take 1) (digits.drop 1) := by
    cases digits.drop 1 with
    | nil =>
      rw [List.isEmpty_nil, if_pos rfl, List.append_nil]
      exact .whole _
    | cons c rest => exact .point _ _
  have hmarked := marked_exponent hmantissa hspells (whole_toString exponent sign hs) negative
  refine ⟨_, by simpa only [List.append_assoc, List.cons_append] using hmarked, ?_⟩
  have hpos := List.length_pos_of_ne_nil hne
  have hunits : exponent - (digits.length - 1 : Nat) = exponent + 1 - digits.length := by omega
  rw [Decimal.magnitude, List.length_drop, hunits]

theorem marked_place (layout : NumberLayout) (hne : digits ≠ [])
    (hall : digits.all isDigit = true) (exponent : Int) (negative : Bool) :
    ∃ d, Literal.Marked negative (layout.place digits exponent) d ∧
      d.magnitude = natOfDigits digits * 10 ^ (exponent + 1 - digits.length) := by
  unfold place
  split
  · split
    · next hneg =>
      obtain ⟨d, hmarked, hmagnitude⟩ :=
        marked_below hall (-exponent - 1).toNat negative
      have hscale : (-((-exponent - 1).toNat + digits.length : Nat) : Int) =
          exponent + 1 - digits.length := by omega
      exact ⟨d, hmarked, by rw [hmagnitude, hscale]⟩
    · next hpos =>
      obtain ⟨d, hmarked, hmagnitude⟩ := marked_above hne hall (exponent.toNat + 1) negative
      have hscale : ((exponent.toNat + 1 : Nat) - digits.length : Int) =
          exponent + 1 - digits.length := by omega
      exact ⟨d, hmarked, by rw [hmagnitude, hscale]⟩
  · apply marked_scientific hne hall
    split
    · next h => exact .inr ⟨h.2, rfl⟩
    · exact .inl rfl

variable {x : Binary64}

/-- The digits of a decimal without the zeros at their end, for a double that is not zero. -/
theorem exists_kept {d : Decimal} (hx : x.ReadsBack d) (hne : x.magnitude ≠ 0) : ∃ kept count,
    ((Nat.toDigits 10 d.digits).reverse.dropWhile (· == '0')).reverse = kept ∧ kept ≠ [] ∧
      kept.all isDigit = true ∧ (Nat.toDigits 10 d.digits).length = kept.length + count ∧
        d.digits = 10 ^ count * natOfDigits kept := by
  obtain ⟨count, hdigits⟩ := exists_zeros (Nat.toDigits 10 d.digits)
  generalize hkept : ((Nat.toDigits 10 d.digits).reverse.dropWhile (· == '0')).reverse = kept at *
  have hall := all_isDigit_toDigits d.digits
  have hvalue : natOfDigits (Nat.toDigits 10 d.digits) = d.digits := Nat.ofDigitChars_ten_toDigits
  rw [hdigits, natOfDigits_append_zeros] at hvalue
  rw [hdigits, List.all_append, Bool.and_eq_true] at hall
  refine ⟨kept, count, rfl, ?_, hall.1, ?_, hvalue.symm⟩
  · rintro rfl
    have hzero : d.digits = 0 := hvalue.symm
    have hsign : 0 < binary64.signBit := by decide
    apply hne
    rw [← hx.nearest, Decimal.toBinary64, if_pos (.inl hzero), Binary64.magnitude_ofMagnitude hsign]
  · rw [hdigits, List.length_append, List.length_replicate]

theorem marked_kept (layout : NumberLayout) {d : Decimal} (hx : x.ReadsBack d)
    (hne : x.magnitude ≠ 0) (negative : Bool) : ∃ d', Literal.Marked negative
      (layout.place ((Nat.toDigits 10 d.digits).reverse.dropWhile (· == '0')).reverse
        (d.exponent + (Nat.toDigits 10 d.digits).length - 1)) d' ∧ d'.magnitude = d.magnitude := by
  obtain ⟨kept, count, hkept, hnil, hall, hlength, hdigits⟩ := exists_kept hx hne
  rw [hkept, hlength]
  obtain ⟨d', hmarked, hmagnitude⟩ := marked_place layout hnil hall
    (d.exponent + (kept.length + count : Nat) - 1) negative
  refine ⟨d', hmarked, ?_⟩
  have hscale : d.exponent + (kept.length + count : Nat) - 1 + 1 - kept.length =
      d.exponent + count := by
    push_cast
    ring
  rw [hmagnitude, hscale, Decimal.magnitude, hdigits, zpow_add₀ (by norm_num), zpow_natCast]
  push_cast
  ring

/-- A finite double is set out as a decimal of which it is the nearest double: as zero, or as its
shortest decimal. -/
theorem exists_marked (layout : NumberLayout) (hx : x.isFinite = true) :
    ∃ literal d, (layout.render x).toList = (if x.isNegative then ['-'] else []) ++ literal ∧
      Literal.Marked x.isNegative literal d ∧ x.ReadsBack d ∧
        (x.magnitude ≠ 0 → d.magnitude = (x.shortest layout.tie).magnitude) := by
  have hnumber : x.isNaN = false := by
    rw [Binary64.isFinite, decide_eq_true_iff] at hx
    exact decide_eq_false (not_lt.mpr hx.le)
  have hsign : (if x.isNegative then "-" else "").toList = if x.isNegative then ['-'] else [] := by
    cases x.isNegative <;> rfl
  unfold render
  dsimp only
  rw [hnumber, if_neg Bool.false_ne_true]
  by_cases hzero : x.magnitude = 0
  · have hspells : Literal.Digits 10 Literal.decimalValue? (['0'] ++ ['0']) 0 := by
      rw [Literal.digits_decimal_iff]
      exact ⟨List.cons_ne_nil _ _, rfl, rfl⟩
    have hmarked := marked_point hspells x.isNegative
    refine ⟨_, _, ?_, hmarked, ?_, fun h => absurd hzero h⟩
    · rw [if_pos hzero, String.toList_append, hsign]
      rfl
    · apply Binary64.readsBack_of_magnitude hx rfl
      rw [Binary64.valueOf_eq_zero_iff.mpr hzero, Decimal.magnitude, Nat.cast_zero, zero_mul]
  · rw [if_neg hzero, if_pos hx]
    have hback := Binary64.readsBack_shortest hx layout.tie
    obtain ⟨d, hmarked, hmagnitude⟩ := marked_kept layout hback hzero x.isNegative
    have hnegative := hmarked.reads.negative_eq
    refine ⟨_, d, ?_, hmarked, ⟨hnegative, ?_⟩, fun _ => hmagnitude⟩
    · rw [String.toList_append, hsign, String.toList_ofList]
    · rw [Decimal.toBinary64_congr (hnegative.trans hback.negative.symm) hmagnitude, hback.nearest]

end NumberLayout

end DescriptorMarshal
