import DescriptorMarshal.Cpp.Literal
import DescriptorMarshal.Proofs.Numbers
import DescriptorMarshal.Proofs.Shortest

/-!
Number literals in C++. The function that resets a structure in C++ writes the same numbers as are
stored when it is reset here: in decimal, behind a minus or no sign, with the suffix of the type.
The digits have to fit the type that the suffix names without the minus, which those of the least
integer of 64 bits do not; and a floating literal has to be finite, and in single precision to stay
below its overflow.
-/

namespace DescriptorMarshal

open BinaryFormat (binary64)

namespace NumberType

def suffix : NumberType → List Char
  | .i64 => ['l', 'l']
  | .u64 => ['u', 'l', 'l']
  | .f32 => ['f']
  | _ => []

/-- The largest integer literal: that of `unsigned long long` or of `long long`, which is also the
widest type of a literal without a suffix. -/
def mostLiteral : NumberType → Nat
  | .u64 => 0xffffffffffffffff
  | _ => 0x7fffffffffffffff

/-- Half a unit above the largest finite number of a floating type. -/
def overflow : NumberType → ℚ
  | .f32 => 2 ^ 128 - 2 ^ 103
  | _ => Binary64.overflow

end NumberType

namespace Cpp

/-- Digits and the suffix. More digits behind a zero would be octal. -/
inductive IntegerLiteral (type : NumberType) : List Char → Nat → Prop where
  | mk {digits : List Char} {n : Nat} (spells : Literal.Digits 10 Literal.decimalValue? digits n)
    (base : digits.head? = some '0' → digits = ['0']) (fits : n ≤ type.mostLiteral) :
    IntegerLiteral type (digits ++ type.suffix) n

/-- Digits with a point or an exponent, and the suffix. -/
inductive FloatingLiteral (type : NumberType) (negative : Bool) : List Char → Decimal → Prop where
  | mk {text : List Char} {d : Decimal} (marked : Literal.Marked negative text d)
    (fits : d.magnitude < type.overflow) : FloatingLiteral type negative (text ++ type.suffix) d

inductive Minus : List Char → Bool → Prop where
  | none : Minus [] false
  | minus : Minus ['-'] true

/-- An integer literal behind a minus or no sign. -/
inductive WritesInteger (type : NumberType) : List Char → Int → Prop where
  | mk {sign literal : List Char} {negative : Bool} {n : Nat} (signs : Minus sign negative)
    (behind : IntegerLiteral type literal n) :
    WritesInteger type (sign ++ literal) (Literal.signed negative n)

/-- A floating literal behind a minus or no sign, and the double nearest to it. -/
inductive WritesFloat (type : NumberType) : List Char → Binary64 → Prop where
  | mk {sign literal : List Char} {negative : Bool} {d : Decimal} (signs : Minus sign negative)
    (behind : FloatingLiteral type negative literal d) :
    WritesFloat type (sign ++ literal) d.toBinary64

variable {type : NumberType} {sign literal text rest : List Char} {negative : Bool} {n : Nat}
  {i j : Int} {d : Decimal} {x y : Binary64}

theorem Minus.signs (h : Minus sign negative) : Literal.Sign sign negative := by
  cases h with
  | none => exact .none
  | minus => exact .minus

theorem minus_if (negative : Bool) : Minus (if negative then ['-'] else []) negative := by
  cases negative with
  | false => exact .none
  | true => exact .minus

theorem Minus.unique {sign' rest' : List Char} {negative' : Bool} (h : Minus sign negative)
    (h' : Minus sign' negative') (hb : Literal.Bare rest) (hb' : Literal.Bare rest')
    (he : sign ++ rest = sign' ++ rest') : negative = negative' ∧ rest = rest' := by
  have hsplit := Literal.splitSign_append h.signs hb
  rw [he, Literal.splitSign_append h'.signs hb', Prod.mk.injEq] at hsplit
  exact ⟨hsplit.1.symm, hsplit.2.symm⟩

theorem head_toDigits (n : Nat) (h : (Nat.toDigits 10 n).head? = some '0') :
    Nat.toDigits 10 n = ['0'] := by
  induction n using Nat.strongRecOn with
  | ind n ih =>
    by_cases hsmall : n < 10
    · rw [Nat.toDigits_of_lt_base hsmall] at h ⊢
      rw [List.head?_cons, Option.some.injEq] at h
      rw [h]
    · have hbase : 10 ≤ n := not_lt.mp hsmall
      rw [Nat.toDigits_of_base_le (by norm_num) hbase, List.head?_append_of_ne_nil _
        Nat.toDigits_ne_nil] at h
      have hzero := ih (n / 10) (by omega) h
      have hvalue := @Nat.ofDigitChars_ten_toDigits (n / 10)
      rw [hzero] at hvalue
      have : (0 : Nat) = n / 10 := hvalue
      omega

/-- An integer is written by the literal of its digits alone, and only if that fits. -/
theorem writesInteger_iff : WritesInteger type
    ((if i < 0 then ['-'] else []) ++ (Nat.toDigits 10 i.natAbs ++ type.suffix)) j ↔
      j = i ∧ i.natAbs ≤ type.mostLiteral := by
  have hsigned : Literal.signed (i < 0) i.natAbs = i := by
    unfold Literal.signed
    split
    · next h =>
      have := of_decide_eq_true h
      omega
    · next h =>
      have := of_decide_eq_false (Bool.not_eq_true _ ▸ h)
      omega
  have hminus : Minus (if i < 0 then ['-'] else []) (i < 0) := by
    simpa using minus_if (decide (i < 0))
  have hbare := (digits_toDigits i.natAbs).bare rfl rfl type.suffix
  generalize htext : (if i < 0 then ['-'] else []) ++ (Nat.toDigits 10 i.natAbs ++ type.suffix) =
    text
  constructor
  · rintro @⟨_, _, _, n, hsign, ⟨hspells, hbase, hfits⟩⟩
    obtain ⟨hnegative, hrest⟩ := hminus.unique hsign hbare (hspells.bare rfl rfl _) htext
    have hdigits := List.append_cancel_right hrest
    rw [Literal.digits_decimal_iff, ← hdigits] at hspells
    obtain rfl : i.natAbs = n := Nat.ofDigitChars_ten_toDigits.symm.trans hspells.2.2
    exact ⟨hnegative ▸ hsigned, hfits⟩
  · rintro ⟨rfl, hfits⟩
    have hwrites := WritesInteger.mk hminus
      (.mk (digits_toDigits j.natAbs) (head_toDigits j.natAbs) hfits)
    rwa [hsigned, htext] at hwrites

theorem toList_numberLiteral_integer {range : IntRange} (h : type.range? = some range) (i : Int) :
    (numberLiteral type (.integer i)).toList =
      (if i < 0 then ['-'] else []) ++ (Nat.toDigits 10 i.natAbs ++ type.suffix) := by
  have htext : ∀ suffix : String, ((DefaultValue.integer i).text ++ suffix).toList =
      (if i < 0 then ['-'] else []) ++ (Nat.toDigits 10 i.natAbs ++ suffix.toList) := by
    intro suffix
    rw [String.toList_append, DefaultValue.text, toList_toString, List.append_assoc]
  cases type with
  | f32 | f64 => cases h
  | i64 => exact htext "ll"
  | u64 => exact htext "ull"
  | _ =>
    rw [← String.append_empty (s := numberLiteral _ _)]
    exact htext ""

/-- Of the integers of a type, the least one of 64 bits alone is not written. -/
theorem fits_iff {range : IntRange} (h : type.range? = some range)
    (hi : range.contains i = true) :
    i.natAbs ≤ type.mostLiteral ↔ ¬ (type = .i64 ∧ i = -0x8000000000000000) := by
  rw [IntRange.contains_iff] at hi
  cases type with
  | f32 | f64 => cases h
  | i64 =>
    cases h
    simp only [IntRange.signed64, NumberType.mostLiteral, true_and] at hi ⊢
    omega
  | _ =>
    cases h
    simp only [IntRange.signed8, IntRange.signed16, IntRange.signed32, IntRange.unsigned8,
      IntRange.unsigned16, IntRange.unsigned32, IntRange.unsigned64, NumberType.mostLiteral,
      reduceCtorEq, false_and, not_false_iff, iff_true] at hi ⊢
    omega

theorem marked_bare (h : Literal.Marked negative literal d) (rest : List Char) :
    Literal.Bare (literal ++ rest) := by
  obtain ⟨c, behind, rfl, -⟩ := h.reads.exists_head
  intro first hfirst
  exact h.reads.bare first hfirst

theorem writesFloat_iff_of_marked (h : Literal.Marked negative literal d)
    (hs : Minus sign negative) :
    WritesFloat type (sign ++ (literal ++ type.suffix)) y ↔
      y = d.toBinary64 ∧ d.magnitude < type.overflow := by
  generalize htext : sign ++ (literal ++ type.suffix) = text
  constructor
  · rintro @⟨_, _, _, other, hsign, ⟨hmarked, hfits⟩⟩
    obtain ⟨rfl, hrest⟩ := hs.unique hsign (marked_bare h _) (marked_bare hmarked _) htext
    obtain rfl := List.append_cancel_right hrest
    have hread := Literal.readMagnitude?_iff.mpr hmarked.reads
    rw [Literal.readMagnitude?_iff.mpr h.reads, Option.some.injEq] at hread
    subst hread
    exact ⟨rfl, hfits⟩
  · rintro ⟨rfl, hfits⟩
    rw [← htext]
    exact .mk hs (.mk h hfits)

theorem not_writesFloat {c : Char} (hs : Minus sign negative) (hc : ¬ c.toNat < 65) :
    ¬ WritesFloat type (sign ++ c :: rest) y := by
  generalize htext : sign ++ c :: rest = text
  rintro @⟨_, _, _, other, hsign, ⟨hmarked, -⟩⟩
  have hbare : Literal.Bare (c :: rest) := by
    rintro _ ⟨⟩
    constructor <;> rintro rfl <;> exact hc (by decide)
  obtain ⟨-, hrest⟩ := hs.unique hsign hbare (marked_bare hmarked _) htext
  obtain ⟨first, behind, rfl, hfirst⟩ := hmarked.reads.exists_head
  rw [List.cons_append, List.cons.injEq] at hrest
  exact hc (hrest.1 ▸ Literal.lt_letters (hfirst.imp_right fun hpoint => .inr (.inr hpoint)))

theorem toList_numberLiteral_float (h : type.isFloat = true) (x : Binary64) :
    (numberLiteral type (.float x)).toList =
      (DefaultValue.numberLayout.render x).toList ++ type.suffix := by
  cases type with
  | f32 => exact String.toList_append
  | f64 => exact (List.append_nil _).symm
  | _ => cases h

/-- Infinities and not-a-number are written as words. -/
theorem not_writesFloat_of_infinite (h : type.isFloat = true) (hx : x.isFinite = false) :
    ¬ WritesFloat type (numberLiteral type (.float x)).toList y := by
  have hinfinity : binary64.infinity ≠ 0 := by decide
  have hzero : x.magnitude ≠ 0 := by
    intro hmagnitude
    rw [Binary64.isFinite, decide_eq_false_iff_not, hmagnitude] at hx
    exact hx (Nat.pos_of_ne_zero hinfinity)
  rw [toList_numberLiteral_float h, NumberLayout.render]
  dsimp only
  cases hn : x.isNaN with
  | true =>
    rw [if_pos rfl]
    exact not_writesFloat .none (c := 'N') (by decide)
  | false =>
    rw [if_neg Bool.false_ne_true, if_neg hzero, hx, if_neg Bool.false_ne_true]
    cases x.isNegative with
    | true => exact not_writesFloat .minus (c := 'i') (by decide)
    | false => exact not_writesFloat .none (c := 'i') (by decide)

/-- The bits of the double that is half a unit above the largest finite number of single
precision. -/
def singleOverflow : Nat := 0x47effffff0000000

theorem valueOf_singleOverflow : Binary64.valueOf singleOverflow = 2 ^ 128 - 2 ^ 103 := by
  have hnormal : Binary64.Normal singleOverflow (2 ^ 53 - 2 ^ 28) 75 := by
    constructor <;> decide
  rw [hnormal.valueOf_eq]
  norm_num

theorem shortest_singleOverflow (negative : Bool) :
    ((Binary64.ofMagnitude negative singleOverflow).shortest .up).magnitude <
      2 ^ 128 - 2 ^ 103 := by
  have hshortest : (Binary64.ofMagnitude negative singleOverflow).shortest .up =
      ⟨negative, 34028235677973366, 22⟩ := by
    cases negative <;> decide +kernel
  rw [hshortest, Decimal.magnitude]
  norm_num

theorem single_fits_iff (hb : x.ReadsBack d)
    (hs : x.magnitude ≠ 0 → d.magnitude = (x.shortest .up).magnitude) (hx : x.isFinite = true) :
    d.magnitude < 2 ^ 128 - 2 ^ 103 ↔ |x.value| ≤ 2 ^ 128 - 2 ^ 103 := by
  have hfinite : x.magnitude < binary64.infinity := of_decide_eq_true hx
  have hoverflow : singleOverflow ≤ binary64.infinity := by decide
  have hden : tenTo (-d.exponent).toNat ≠ 0 := pow_ne_zero _ (by norm_num)
  rw [Binary64.abs_value, ← valueOf_singleOverflow]
  constructor
  · intro h
    rw [← Decimal.ratio_eq_magnitude] at h
    have hle := Binary64.round_le hden h.le
    rw [hb.round] at hle
    rcases Nat.lt_or_eq_of_le hle with hlt | heq
    · exact (Binary64.valueOf_lt hlt hoverflow).le
    · rw [heq]
  · intro h
    by_contra hge
    rw [not_lt, ← Decimal.ratio_eq_magnitude] at hge
    have hle := Binary64.le_round hden hoverflow hge
    rw [hb.round] at hle
    rcases Nat.lt_or_eq_of_le hle with hlt | heq
    · exact absurd (Binary64.valueOf_lt hlt hfinite.le) (not_lt.mpr h)
    · have hne : x.magnitude ≠ 0 := by
        rw [← heq]
        decide
      have hsmall := shortest_singleOverflow x.isNegative
      rw [heq, Binary64.ofMagnitude_magnitude, ← hs hne, ← valueOf_singleOverflow,
        ← Decimal.ratio_eq_magnitude] at hsmall
      exact absurd hge (not_le.mpr hsmall)

/-- A floating default is written as itself, unless it is not finite or beyond its type. -/
theorem writesFloat_iff (h : type.isFloat = true) :
    WritesFloat type (numberLiteral type (.float x)).toList y ↔
      y = x ∧ x.isFinite = true ∧ (type = .f32 → |x.value| ≤ 2 ^ 128 - 2 ^ 103) := by
  cases hx : x.isFinite with
  | false =>
    exact iff_of_false (not_writesFloat_of_infinite h hx) fun hy => nomatch hy.2.1
  | true =>
    obtain ⟨literal, d, htext, hmarked, hback, hshortest⟩ :=
      DefaultValue.numberLayout.exists_marked hx
    rw [toList_numberLiteral_float h, htext, List.append_assoc,
      writesFloat_iff_of_marked hmarked (minus_if _), hback.nearest, and_iff_right rfl]
    apply and_congr_right'
    cases type with
    | f32 =>
      rw [← single_fits_iff hback hshortest hx]
      exact ⟨fun hfits _ => hfits, fun hfits => hfits rfl⟩
    | f64 =>
      have hfits := (Decimal.toBinary64_finite d).1
      rw [hback.nearest, hx, eq_self_iff_true, true_iff] at hfits
      exact iff_of_true hfits nofun
    | _ => cases h

end Cpp

variable {options : SchemaOptions} {document : Idl.Document} {bindings : Bindings}
  {plan : StructPlan} {field : FieldPlan} {type : NumberType} {default : DefaultValue}
  {before after : List FieldPlan}

theorem PlanSet.reset_number (set : PlanSet) (h : plan.fields = before ++ field :: after)
    (hl : ∀ other ∈ after, other.name ≠ field.name) (hi : field.init = .number type default) :
    (set.reset plan).get? field.name = some (.ofDefault type default) := by
  rw [PlanSet.reset, resetWithin_succ, h, List.foldl_append]
  apply get?_foldl_set _ _ (.inr ⟨field, List.mem_cons_self, rfl⟩)
  intro other ho hname
  rcases List.mem_cons.mp ho with rfl | ho
  · rw [hi]
    rfl
  · exact absurd hname (hl other ho)

theorem ofDefault_integer {range : IntRange} (hr : type.range? = some range) (n : Int) :
    NativeValue.ofDefault type (.integer n) = .ofInteger type n := by
  cases type with
  | f32 | f64 => cases hr
  | _ => rfl

theorem floating_cases (hf : type.isFloat = true)
    (h : default = .integer 0 ∨ (TypeKind.number type).Admits default) :
    ∃ x, default.toBinary64 = x ∧
      Cpp.numberLiteral type default = Cpp.numberLiteral type (.float x) := by
  rcases h with rfl | hadmits
  · refine ⟨.zero, rfl, ?_⟩
    cases type <;> first | rfl | cases hf
  · cases default with
    | float x => exact ⟨x, rfl, rfl⟩
    | integer n =>
      obtain ⟨range, hr, -⟩ := hadmits
      rw [NumberType.isFloat_of_range? hr] at hf
      cases hf
    | bool b => exact hadmits.elim

/-- In C++ a number field is reset by a literal of the number that it is reset to here: by the
literal of this integer, unless it is the least one of 64 bits, and in a floating type by one to
which the default is nearest, unless the default is not finite or beyond the type. -/
theorem reset_literals_iff (h : Bindings.ofDocument options document = .ok bindings)
    (hp : plan ∈ bindings.plans.plans) (hf : field ∈ plan.fields)
    (hi : field.init = .number type default) :
    (∀ before after, plan.fields = before ++ field :: after →
      (∀ other ∈ after, other.name ≠ field.name) →
        (bindings.plans.reset plan).get? field.name = some (.ofDefault type default)) ∧
    (∀ range, type.range? = some range → ∃ n,
      type.read? (.ofDefault type default) = some n ∧ range.contains n = true ∧
        ∀ m, Cpp.WritesInteger type (Cpp.numberLiteral type default).toList m ↔
          m = n ∧ ¬ (type = .i64 ∧ n = -0x8000000000000000)) ∧
    (type.isFloat = true →
      ∀ x, Cpp.WritesFloat type (Cpp.numberLiteral type default).toList x ↔
        x = default.toBinary64 ∧ x.isFinite = true ∧
          (type = .f32 → |x.value| ≤ 2 ^ 128 - 2 ^ 103)) := by
  refine ⟨fun before after hparts hlast => bindings.plans.reset_number hparts hlast hi, ?_, ?_⟩
  · intro range hr
    obtain ⟨n, rfl, hrange⟩ := Bindings.integer_in_range h hp hf hi hr
    refine ⟨n, ?_, hrange, fun m => ?_⟩
    · rw [ofDefault_integer hr]
      exact read?_ofInteger hr hrange
    · rw [Cpp.toList_numberLiteral_integer hr, Cpp.writesInteger_iff, Cpp.fits_iff hr hrange]
  · intro hfloat x
    obtain ⟨y, hy, htext⟩ := floating_cases hfloat (Bindings.number_admits h hp hf hi)
    rw [htext, Cpp.writesFloat_iff hfloat, hy]
    constructor
    · rintro ⟨rfl, hfits⟩
      exact ⟨rfl, hfits⟩
    · rintro ⟨rfl, hfits⟩
      exact ⟨rfl, hfits⟩

def gaugeMember (name type default : String) : Json :=
  .object [("name", .string name), ("type", .string type), ("default", .string default)]

def gaugeDocument : Idl.Document :=
  [("gauge", .object [("category", .string "structure"), ("members", .array [
    gaugeMember "most" "uint64_t" "18446744073709551615", gaugeMember "ratio" "float" "0.1",
    gaugeMember "least" "int64_t" "-9223372036854775808", gaugeMember "floor" "double" "-inf"])])]

def tenth : Binary64 := ⟨0x3fb999999999999a⟩

def gaugePlan : StructPlan where
  name := "WGPUGauge"
  externalName := "GPUGauge"
  extensible := false
  members := [⟨"most", .optional, .number .u64, .value, none, "uint64_t"⟩,
    ⟨"ratio", .optional, .number .f32, .value, none, "float"⟩,
    ⟨"least", .optional, .number .i64, .value, none, "int64_t"⟩,
    ⟨"floor", .optional, .number .f64, .value, none, "double"⟩]
  fields := [⟨"most", "uint64_t", .number .u64 (.integer 0xffffffffffffffff)⟩,
    ⟨"ratio", "float", .number .f32 (.float tenth)⟩,
    ⟨"least", "int64_t", .number .i64 (.integer (-0x8000000000000000))⟩,
    ⟨"floor", "double", .number .f64 (.float (.infinity true))⟩]

def gaugePlans : PlanSet := ⟨[gaugePlan], [], [("GPUGauge", "WGPUGauge")]⟩

theorem gauge_bindings : ∃ schema,
    Bindings.ofDocument .standard gaugeDocument = .ok ⟨schema, gaugePlans⟩ := by
  obtain ⟨schema, hs, hplans, htables⟩ : ∃ schema,
      assemble .standard gaugeDocument = .ok schema ∧
        schema.structures.mapM (buildPlan schema) = .ok gaugePlans.plans ∧
          (schema.enums ++ schema.bitmasks).map NameTable.ofValueSet = gaugePlans.tables :=
    ⟨_, rfl, rfl, rfl⟩
  have hcheck : checkEmbedding gaugePlans.plans = .ok () := by
    simp [checkEmbedding, Embedding.check, Embedding.walk, Embedding.enter, gaugePlans, gaugePlan,
      bind, Except.bind, pure, Except.pure]
  exact ⟨schema, Bindings.ofDocument_of_parts hs hplans htables rfl hcheck⟩

theorem reset_literals_gauge : ∃ bindings,
    Bindings.ofDocument .standard gaugeDocument = .ok bindings ∧
    gaugePlan ∈ bindings.plans.plans ∧
    (bindings.plans.reset gaugePlan).get? "most" = some (.u64 0xffffffffffffffff) ∧
    Cpp.numberLiteral .u64 (.integer 0xffffffffffffffff) = "18446744073709551615ull" ∧
    Cpp.WritesInteger .u64 "18446744073709551615ull".toList 0xffffffffffffffff ∧
    (bindings.plans.reset gaugePlan).get? "ratio" = some (.f32 tenth.toBinary32) ∧
    Cpp.numberLiteral .f32 (.float tenth) = "0.1f" ∧
    Cpp.WritesFloat .f32 "0.1f".toList tenth := by
  obtain ⟨schema, hb⟩ := gauge_bindings
  have hm : gaugePlan ∈ gaugePlans.plans := List.mem_singleton.mpr rfl
  have hmost : Cpp.numberLiteral .u64 (.integer 0xffffffffffffffff) =
      "18446744073709551615ull" := by decide +kernel
  have hratio : Cpp.numberLiteral .f32 (.float tenth) = "0.1f" := by decide +kernel
  have hsmall : |tenth.value| ≤ 2 ^ 128 - 2 ^ 103 := by
    rw [Binary64.abs_value, ← Cpp.valueOf_singleOverflow]
    exact (Binary64.valueOf_lt (by decide) (by decide)).le
  obtain ⟨hreset, hintegers, -⟩ := reset_literals_iff hb hm (.head _) rfl
  obtain ⟨n, hread, -, hwrites⟩ := hintegers _ rfl
  obtain rfl : 0xffffffffffffffff = n := by
    cases hread
    decide
  obtain ⟨hresetRatio, -, hfloats⟩ := reset_literals_iff hb hm (.tail _ (.head _)) rfl
  refine ⟨_, hb, hm, hreset [] _ rfl (by decide), hmost, ?_, hresetRatio [_] _ rfl (by decide),
    hratio, ?_⟩
  · rw [← hmost]
    exact (hwrites _).mpr ⟨rfl, by decide⟩
  · rw [← hratio]
    exact (hfloats rfl _).mpr ⟨rfl, by decide, fun _ => hsmall⟩

/-- The least integer of 64 bits is written with digits that do not fit, and an infinity as a
word. -/
theorem gauge_unwritten : ∃ bindings,
    Bindings.ofDocument .standard gaugeDocument = .ok bindings ∧
    gaugePlan ∈ bindings.plans.plans ∧
    (bindings.plans.reset gaugePlan).get? "least" = some (.i64 (-0x8000000000000000)) ∧
    Cpp.numberLiteral .i64 (.integer (-0x8000000000000000)) = "-9223372036854775808ll" ∧
    (∀ n, ¬ Cpp.WritesInteger .i64 "-9223372036854775808ll".toList n) ∧
    (bindings.plans.reset gaugePlan).get? "floor" = some (.f64 (.infinity true)) ∧
    Cpp.numberLiteral .f64 (.float (.infinity true)) = "-inf" ∧
    ∀ x, ¬ Cpp.WritesFloat .f64 "-inf".toList x := by
  obtain ⟨schema, hb⟩ := gauge_bindings
  have hleast : Cpp.numberLiteral .i64 (.integer (-0x8000000000000000)) =
      "-9223372036854775808ll" := by decide +kernel
  have hfloor : Cpp.numberLiteral .f64 (.float (.infinity true)) = "-inf" := by decide +kernel
  refine ⟨_, hb, List.mem_singleton.mpr rfl, rfl, hleast, fun n => ?_, rfl, hfloor, fun x => ?_⟩
  · rw [← hleast, @Cpp.toList_numberLiteral_integer .i64 _ rfl, Cpp.writesInteger_iff]
    rintro ⟨-, hfits⟩
    exact absurd hfits (by decide)
  · rw [← hfloor]
    exact Cpp.not_writesFloat_of_infinite rfl (Binary64.isFinite_infinity true)

end DescriptorMarshal
