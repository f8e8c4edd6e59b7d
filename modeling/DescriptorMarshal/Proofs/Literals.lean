import DescriptorMarshal.Proofs.Exactness
import DescriptorMarshal.Schema.Literal

/-!
Number literals. A text is meant to be a decimal integer, or hexadecimal digits after `0x`, or
another decimal that has a finite double. Reading takes every such text for the number that is
written. It also takes texts that stray from this: a sign between `0x` and the digits, a decimal too
large for a double, and the names of infinity and not-a-number after a minus.
-/

namespace DescriptorMarshal.Literal

/-- An optional sign, and whether it is a minus. -/
inductive Sign : List Char → Bool → Prop where
  | none : Sign [] false
  | plus : Sign ['+'] false
  | minus : Sign ['-'] true

def signed (negative : Bool) (n : Nat) : Int := if negative then -n else n

def decimalValue? (c : Char) : Option Nat :=
  if isDigit c then some (c.toNat - '0'.toNat) else none

/-- One or more digits, and the number they spell in a base, the last being its units. -/
def Digits (base : Nat) (value? : Char → Option Nat) (text : List Char) (n : Nat) : Prop :=
  text ≠ [] ∧ ∃ values, List.Forall₂ (fun c value => value? c = some value) text values ∧
    n = Nat.ofDigits base values.reverse

/-- A decimal integer. -/
inductive Whole : List Char → Int → Prop where
  | mk {sign digits : List Char} {negative : Bool} {n : Nat} (signs : Sign sign negative)
    (spells : Digits 10 decimalValue? digits n) : Whole (sign ++ digits) (signed negative n)

/-- Digits that may have a point among them, as those before it and those behind it. -/
inductive Mantissa : List Char → List Char → List Char → Prop where
  | whole (digits : List Char) : Mantissa digits digits []
  | point (whole fraction : List Char) : Mantissa (whole ++ '.' :: fraction) whole fraction

inductive Exponent : List Char → Int → Prop where
  | none : Exponent [] 0
  | mk {c : Char} {text : List Char} {n : Int} (letter : c = 'e' ∨ c = 'E')
    (behind : Whole text n) : Exponent (c :: text) n

/-- A decimal without its sign, which is told. -/
inductive Unsigned (negative : Bool) : List Char → Decimal → Prop where
  | mk {mantissa whole fraction exponent : List Char} {n : Nat} {e : Int}
    (parts : Mantissa mantissa whole fraction)
    (spells : Digits 10 decimalValue? (whole ++ fraction) n) (scale : Exponent exponent e) :
    Unsigned negative (mantissa ++ exponent) ⟨negative, n, e - fraction.length⟩

/-- A decimal, with a point and an exponent or without. -/
inductive Floating : List Char → Decimal → Prop where
  | mk {sign unsigned : List Char} {negative : Bool} {d : Decimal} (signs : Sign sign negative)
    (behind : Unsigned negative unsigned d) : Floating (sign ++ unsigned) d

/-- A decimal that is read as a double: no integer of 128 bits, and not led by a plus. -/
structure Read (text : List Char) (d : Decimal) : Prop where
  floating : Floating text d
  lead : ∃ c rest, text = c :: rest ∧ (isDigit c = true ∨ c = '-' ∨ c = '.')
  other : ∀ n, Whole text n → IntRange.signed128.contains n = false

/-- The number literals that are meant, with their numbers. -/
inductive Grammatical : List Char → DefaultValue → Prop where
  | decimal {text : List Char} {n : Int} (whole : Whole text n)
    (range : IntRange.signed128.contains n = true) : Grammatical text (.integer n)
  | hexadecimal {x : Char} {digits : List Char} {n : Nat} (letter : x = 'x' ∨ x = 'X')
    (spells : Digits 16 hexValue? digits n) (range : IntRange.signed128.contains n = true) :
    Grammatical ('0' :: x :: digits) (.integer n)
  | floating {text : List Char} {d : Decimal} (read : Read text d)
    (finite : d.magnitude < Binary64.overflow) : Grammatical text (.float d.toBinary64)

/-- The word for a double that is no number or infinite, in any mix of cases. -/
inductive Named (negative : Bool) : List Char → Binary64 → Prop where
  | infinity {word : List Char}
    (name : word.map Char.toLower = "inf".toList ∨ word.map Char.toLower = "infinity".toList) :
    Named negative word (.infinity negative)
  | nan {word : List Char} (name : word.map Char.toLower = "nan".toList) :
    Named negative word (.nan negative)

/-- The other texts that are read, with what they are read as. -/
inductive Stray : List Char → DefaultValue → Prop where
  | signed {x : Char} {sign digits : List Char} {negative : Bool} {n : Nat}
    (letter : x = 'x' ∨ x = 'X') (signs : Sign sign negative) (some : sign ≠ [])
    (spells : Digits 16 hexValue? digits n)
    (range : IntRange.signed128.contains (signed negative n) = true) :
    Stray ('0' :: x :: (sign ++ digits)) (.integer (signed negative n))
  | infinite {text : List Char} {d : Decimal} (read : Read text d)
    (infinite : Binary64.overflow ≤ d.magnitude) : Stray text (.float (.infinity d.negative))
  | named {word : List Char} {x : Binary64} (name : Named true word x) :
    Stray ('-' :: word) (.float x)

variable {text rest digits sign : List Char} {negative : Bool} {n : Nat} {i : Int} {d : Decimal}
  {c : Char} {v : DefaultValue} {base : Nat} {value? : Char → Option Nat}

theorem ofDigits_reverse (base : Nat) (values : List Nat) :
    Nat.ofDigits base values.reverse =
      values.foldl (fun value digit => base * value + digit) 0 := by
  rw [Nat.ofDigits_eq_foldr, List.foldr_reverse]
  congr 1
  funext value digit
  exact Nat.add_comm _ _

theorem mapM_eq_some_iff {α β : Type} {read? : α → Option β} {items : List α} {found : List β} :
    items.mapM read? = some found ↔
      List.Forall₂ (fun item value => read? item = some value) items found := by
  induction items generalizing found with
  | nil => simp [eq_comm]
  | cons item rest ih =>
    rw [List.mapM_cons]
    constructor
    · intro h
      obtain ⟨value, hvalue, h⟩ := Option.bind_eq_some_iff.mp h
      obtain ⟨values, hvalues, h⟩ := Option.bind_eq_some_iff.mp h
      cases h
      exact .cons hvalue (ih.mp hvalues)
    · rintro (_ | ⟨hvalue, hrest⟩)
      rw [hvalue, ih.mpr hrest]
      rfl

theorem digits_iff : Digits base value? text n ↔ text ≠ [] ∧
    (text.mapM value?).map (·.foldl (fun value digit => base * value + digit) 0) = some n := by
  simp only [Digits, Option.map_eq_some_iff, mapM_eq_some_iff, ofDigits_reverse, eq_comm (a := n)]

theorem readHexDigits?_iff : readHexDigits? text = some n ↔ Digits 16 hexValue? text n := by
  rw [digits_iff, readHexDigits?]
  split <;> simp_all

theorem mapM_decimalValue? (text : List Char) : text.mapM decimalValue? =
    if text.all isDigit then some (text.map fun c => c.toNat - '0'.toNat) else none := by
  induction text with
  | nil => rfl
  | cons c rest ih =>
    rw [List.mapM_cons, ih, decimalValue?, List.all_cons]
    cases isDigit c <;> cases rest.all isDigit <;> rfl

theorem digits_decimal_iff : Digits 10 decimalValue? text n ↔
    text ≠ [] ∧ text.all isDigit = true ∧ natOfDigits text = n := by
  rw [digits_iff, mapM_decimalValue?]
  split
  · next hall => simp only [Option.map_some, List.foldl_map, Option.some.injEq, hall, true_and,
      natOfDigits]
  · next hall => simp only [Option.map_none, reduceCtorEq, hall, false_and]

theorem readDigits?_iff : readDigits? text = some n ↔ Digits 10 decimalValue? text n := by
  rw [digits_decimal_iff, readDigits?]
  split <;> simp_all

/-- No sign in front. -/
def Bare (text : List Char) : Prop := ∀ c ∈ text.head?, c ≠ '+' ∧ c ≠ '-'

theorem Digits.exists_head (h : Digits base value? text n) :
    ∃ c behind value, text = c :: behind ∧ value? c = some value := by
  obtain ⟨hne, values, hvalues, -⟩ := h
  cases hvalues with
  | nil => exact absurd rfl hne
  | cons hvalue _ => exact ⟨_, _, _, rfl, hvalue⟩

theorem Digits.bare (h : Digits base value? text n) (hplus : value? '+' = none)
    (hminus : value? '-' = none) (rest : List Char) : Bare (text ++ rest) := by
  obtain ⟨c, behind, value, rfl, hvalue⟩ := h.exists_head
  rintro _ ⟨⟩
  constructor
  · rintro rfl
    rw [hplus] at hvalue
    cases hvalue
  · rintro rfl
    rw [hminus] at hvalue
    cases hvalue

theorem splitSign_append (h : Sign sign negative) (hb : Bare rest) :
    splitSign (sign ++ rest) = (negative, rest) := by
  cases h with
  | none =>
    rw [List.nil_append]
    unfold splitSign
    split
    · exact absurd rfl (hb '-' rfl).2
    · exact absurd rfl (hb '+' rfl).1
    · rfl
  | plus | minus => rfl

theorem exists_sign (text : List Char) :
    ∃ sign, Sign sign (splitSign text).1 ∧ text = sign ++ (splitSign text).2 := by
  unfold splitSign
  split
  · exact ⟨_, .minus, rfl⟩
  · exact ⟨_, .plus, rfl⟩
  · exact ⟨_, .none, rfl⟩

theorem map_signed (found : Option Nat) (negative : Bool) :
    ((do let n ← found; pure (n : Int)) : Option Int).map (fun n => if negative then -n else n) =
      found.map (signed negative) := by
  cases found <;> rfl

theorem readInteger?_iff : readInteger? text = some i ↔ Whole text i := by
  unfold readInteger?
  dsimp only
  rw [map_signed]
  constructor
  · intro h
    obtain ⟨n, hn, rfl⟩ := Option.map_eq_some_iff.mp h
    obtain ⟨sign, hsign, htext⟩ := exists_sign text
    have hwhole := Whole.mk hsign (readDigits?_iff.mp hn)
    rwa [← htext] at hwhole
  · rintro ⟨hsign, hdigits⟩
    have hbare := hdigits.bare rfl rfl []
    rw [List.append_nil] at hbare
    rw [splitSign_append hsign hbare, readDigits?_iff.mpr hdigits]
    rfl

theorem readDecimal?_iff : readDecimal? text = some i ↔
    Whole text i ∧ IntRange.signed128.contains i = true := by
  rw [readDecimal?, Option.filter_eq_some_iff, readInteger?_iff]

/-- Behind `0x` there may be a sign. -/
theorem readHex?_iff : readHex? text = some i ↔
    ∃ sign digits negative n, text = sign ++ digits ∧ Sign sign negative ∧
      Digits 16 hexValue? digits n ∧ i = signed negative n ∧
        IntRange.signed128.contains i = true := by
  unfold readHex?
  dsimp only
  rw [map_signed, Option.filter_eq_some_iff, Option.map_eq_some_iff]
  constructor
  · rintro ⟨⟨n, hn, rfl⟩, hrange⟩
    obtain ⟨sign, hsign, htext⟩ := exists_sign text
    exact ⟨sign, _, _, n, htext, hsign, readHexDigits?_iff.mp hn, rfl, hrange⟩
  · rintro ⟨sign, digits, negative, n, rfl, hsign, hdigits, rfl, hrange⟩
    have hbare := hdigits.bare rfl rfl []
    rw [List.append_nil] at hbare
    rw [splitSign_append hsign hbare]
    exact ⟨⟨n, readHexDigits?_iff.mpr hdigits, rfl⟩, hrange⟩

/-! ### Decimals -/

theorem readExponent?_iff : Decimal.readExponent? text = some i ↔ Exponent text i := by
  unfold Decimal.readExponent?
  split
  · constructor
    · rintro ⟨⟩
      exact .none
    · rintro ⟨⟩
      rfl
  · next c rest =>
    split
    · next hc =>
      rw [readInteger?_iff]
      exact ⟨.mk hc, fun h => by cases h; assumption⟩
    · next hc => exact ⟨nofun, fun h => by cases h; contradiction⟩

/-- No digit in front. -/
def Cut (text : List Char) : Prop := ∀ c ∈ text.head?, isDigit c = false

theorem Exponent.cut (h : Exponent text i) : Cut text := by
  cases h with
  | none => nofun
  | mk hc _ =>
    rintro _ ⟨⟩
    rcases hc with rfl | rfl <;> rfl

theorem spanDigits_append (h : digits.all isDigit = true) (hc : Cut rest) :
    spanDigits (digits ++ rest) = (digits, rest) := by
  induction digits with
  | nil =>
    cases rest with
    | nil => rfl
    | cons c behind => simp [spanDigits, hc c rfl]
  | cons c behind ih =>
    rw [List.all_cons, Bool.and_eq_true] at h
    have hbehind := ih h.2
    rw [spanDigits, Prod.mk.injEq] at hbehind ⊢
    simp [h.1, hbehind.1, hbehind.2]

theorem spanDigits_spec (text : List Char) : text = (spanDigits text).1 ++ (spanDigits text).2 ∧
    (spanDigits text).1.all isDigit = true ∧ Cut (spanDigits text).2 := by
  refine ⟨List.takeWhile_append_dropWhile.symm, List.all_takeWhile, fun c hc => ?_⟩
  have hhead : (text.dropWhile isDigit).head? = some c := hc
  have hdrop := List.head?_dropWhile_not isDigit text
  rw [hhead] at hdrop
  exact hdrop

theorem cut_point (rest : List Char) : Cut ('.' :: rest) := by
  rintro _ ⟨⟩
  rfl

theorem magnitude_parts (negative : Bool) {whole fraction : List Char}
    (hw : whole.all isDigit = true) (hf : fraction.all isDigit = true) :
    (if whole = [] ∧ fraction = [] then none
      else (Decimal.readExponent? rest).map fun exponent =>
        Decimal.mk negative (natOfDigits (whole ++ fraction)) (exponent - fraction.length)) =
        some d ↔
      ∃ n e, Digits 10 decimalValue? (whole ++ fraction) n ∧ Exponent rest e ∧
        d = ⟨negative, n, e - fraction.length⟩ := by
  have hall : (whole ++ fraction).all isDigit = true := by rw [List.all_append, hw, hf]; rfl
  split
  · next hnil =>
    refine ⟨nofun, ?_⟩
    rintro ⟨n, e, hspells, -⟩
    rw [hnil.1, hnil.2] at hspells
    exact absurd rfl hspells.1
  · next hsome =>
    have hne : whole ++ fraction ≠ [] := fun hnil => hsome (List.append_eq_nil_iff.mp hnil)
    rw [Option.map_eq_some_iff]
    constructor
    · rintro ⟨e, he, rfl⟩
      exact ⟨_, e, digits_decimal_iff.mpr ⟨hne, hall, rfl⟩, readExponent?_iff.mp he, rfl⟩
    · rintro ⟨n, e, hspells, he, rfl⟩
      rw [(digits_decimal_iff.mp hspells).2.2]
      exact ⟨e, readExponent?_iff.mpr he, rfl⟩

theorem readMagnitude?_iff : Decimal.readMagnitude? negative text = some d ↔
    Unsigned negative text d := by
  unfold Decimal.readMagnitude?
  dsimp only
  constructor
  · intro h
    obtain ⟨htext, hwhole, -⟩ := spanDigits_spec text
    generalize spanDigits text = split at *
    obtain ⟨whole, behind⟩ := split
    dsimp only at h htext hwhole
    subst htext
    split at h
    · next after =>
      obtain ⟨hafter, hfraction, -⟩ := spanDigits_spec after
      generalize spanDigits after = split at *
      obtain ⟨fraction, exponent⟩ := split
      dsimp only at h hafter hfraction
      subst hafter
      obtain ⟨n, e, hspells, hscale, rfl⟩ := (magnitude_parts negative hwhole hfraction).mp h
      have hread : Unsigned negative _ _ := .mk (.point whole fraction) hspells hscale
      rwa [List.append_assoc] at hread
    · obtain ⟨n, e, hspells, hscale, rfl⟩ := (magnitude_parts negative hwhole rfl).mp h
      exact .mk (.whole whole) hspells hscale
  · rintro ⟨hparts, hspells, hscale⟩
    obtain ⟨-, hall, -⟩ := digits_decimal_iff.mp hspells
    rw [List.all_append, Bool.and_eq_true] at hall
    have hread := (magnitude_parts negative hall.1 hall.2).mpr ⟨_, _, hspells, hscale, rfl⟩
    cases hparts with
    | whole digits =>
      rw [spanDigits_append hall.1 hscale.cut]
      cases hscale with
      | none => exact hread
      | mk hc _ => rcases hc with rfl | rfl <;> exact hread
    | point whole fraction =>
      rw [List.append_assoc, List.cons_append, spanDigits_append hall.1 (cut_point _)]
      simp only [spanDigits_append hall.2 hscale.cut]
      exact hread

variable {x : Binary64}

theorem readNamed?_iff : readNamed? negative text = some x ↔ Named negative text x := by
  unfold readNamed?
  dsimp only
  constructor
  · intro h
    split at h
    · next hname =>
      cases h
      exact .infinity hname
    · split at h
      · next hname =>
        cases h
        exact .nan hname
      · cases h
  · rintro (hname | hname)
    · rw [if_pos hname]
    · rw [hname]
      rfl

theorem lt_letters (h : isDigit c = true ∨ c = '+' ∨ c = '-' ∨ c = '.') : c.toNat < 65 := by
  rcases h with h | rfl | rfl | rfl
  · rw [isDigit, Bool.and_eq_true, decide_eq_true_iff, decide_eq_true_iff] at h
    exact Nat.lt_of_le_of_lt h.2 (by decide)
  · decide
  · decide
  · decide

theorem toLower_eq_self (h : c.toNat < 65) : c.toLower = c := by
  unfold Char.toLower
  rw [dif_neg]
  rintro ⟨hge, -⟩
  exact absurd (UInt32.le_iff_toNat_le.mp hge) (Nat.not_le.mpr h)

theorem head_of_toLower {lower : Char} {behind : List Char}
    (h : text.map Char.toLower = lower :: behind) (hl : ¬ lower.toNat < 65) :
    ∃ c rest, text = c :: rest ∧ ¬ c.toNat < 65 := by
  cases text with
  | nil => cases h
  | cons c rest =>
    rw [List.map_cons, List.cons.injEq] at h
    refine ⟨c, rest, rfl, fun hc => hl ?_⟩
    rwa [← h.1, toLower_eq_self hc]

theorem Named.exists_head (h : Named negative text x) :
    ∃ c rest, text = c :: rest ∧ ¬ c.toNat < 65 := by
  rcases h with (hname | hname) | hname <;>
    exact head_of_toLower (hname.trans rfl) (by decide)

theorem Named.bare (h : Named negative text x) : Bare text := by
  obtain ⟨c, rest, rfl, hc⟩ := h.exists_head
  rintro _ ⟨⟩
  exact ⟨fun hplus => hc (lt_letters (.inr (.inl hplus))),
    fun hminus => hc (lt_letters (.inr (.inr (.inl hminus))))⟩

theorem Unsigned.exists_head (h : Unsigned negative text d) :
    ∃ c rest, text = c :: rest ∧ (isDigit c = true ∨ c = '.') := by
  obtain @⟨mantissa, whole, fraction, exponent, n, e, hparts, hspells, -⟩ := h
  obtain ⟨hne, hall, -⟩ := digits_decimal_iff.mp hspells
  cases hparts with
  | whole =>
    cases mantissa with
    | nil => exact absurd rfl hne
    | cons c rest => exact ⟨c, _, rfl, .inl (List.all_eq_true.mp hall c List.mem_cons_self)⟩
  | point =>
    cases whole with
    | nil => exact ⟨'.', _, rfl, .inr rfl⟩
    | cons c rest => exact ⟨c, _, rfl, .inl (List.all_eq_true.mp hall c List.mem_cons_self)⟩

theorem Unsigned.bare (h : Unsigned negative text d) : Bare text := by
  obtain ⟨c, rest, rfl, hc⟩ := h.exists_head
  rintro _ ⟨⟩
  rcases hc with hc | rfl
  · constructor <;> rintro rfl <;> cases hc
  · decide

theorem Named.not_unsigned (h : Named negative text x) : ¬ Unsigned negative text d := by
  intro hread
  obtain ⟨c, rest, rfl, hc⟩ := h.exists_head
  obtain ⟨_, _, ⟨⟩, hlead⟩ := hread.exists_head
  exact hc (lt_letters (hlead.imp_right fun hpoint => .inr (.inr hpoint)))

/-- A floating literal is a decimal or a name behind a sign. -/
theorem readFloat?_iff : readFloat? text = some x ↔
    (∃ d, Floating text d ∧ x = d.toBinary64) ∨
      ∃ sign word negative, text = sign ++ word ∧ Sign sign negative ∧ Named negative word x := by
  unfold readFloat?
  dsimp only
  constructor
  · intro h
    obtain ⟨sign, hsign, htext⟩ := exists_sign text
    split at h
    · next d hd =>
      cases h
      have hfloating := Floating.mk hsign (readMagnitude?_iff.mp hd)
      rw [← htext] at hfloating
      exact .inl ⟨d, hfloating, rfl⟩
    · exact .inr ⟨sign, _, _, htext, hsign, readNamed?_iff.mp h⟩
  · rintro (⟨d, ⟨hsign, hread⟩, rfl⟩ | ⟨sign, word, negative, rfl, hsign, hname⟩)
    · rw [splitSign_append hsign hread.bare, readMagnitude?_iff.mpr hread]
    · rw [splitSign_append hsign hname.bare]
      cases hread : Decimal.readMagnitude? negative word with
      | some d => exact absurd (readMagnitude?_iff.mp hread) hname.not_unsigned
      | none => exact readNamed?_iff.mpr hname

/-! ### Numbers -/

/-- Behind a zero, only a point, an exponent or more digits go on with a decimal. -/
theorem readNumber?_of_decimal (h : ∀ x rest, text = '0' :: x :: rest → x ≠ 'x' ∧ x ≠ 'X') :
    readNumber? text =
      match readDecimal? text with
      | some n => some (.integer n)
      | none =>
        if text.head?.any fun c => isDigit c || c == '-' || c == '.' then
          (readFloat? text).map .float
        else none := by
  unfold readNumber?
  split
  · exact absurd rfl (h _ _ rfl).1
  · exact absurd rfl (h _ _ rfl).2
  · rfl

theorem Whole.not_hex (h : Whole text i) :
    ∀ x rest, text = '0' :: x :: rest → x ≠ 'x' ∧ x ≠ 'X' := by
  rintro x rest rfl
  have hread := readInteger?_iff.mpr h
  constructor <;>
  · rintro rfl
    cases hread

theorem Floating.not_hex (h : Floating text d) :
    ∀ x rest, text = '0' :: x :: rest → x ≠ 'x' ∧ x ≠ 'X' := by
  obtain ⟨hsign, hread⟩ := h
  cases hsign with
  | none =>
    rintro x rest rfl
    have hread := readMagnitude?_iff.mpr hread
    constructor <;>
    · rintro rfl
      cases hread
  | plus | minus => nofun

theorem lead_iff : (text.head?.any fun c => isDigit c || c == '-' || c == '.') = true ↔
    ∃ c rest, text = c :: rest ∧ (isDigit c = true ∨ c = '-' ∨ c = '.') := by
  cases text with
  | nil => exact ⟨nofun, nofun⟩
  | cons c rest => simp [or_assoc]

theorem hex_cases {letter : Char} (hl : letter = 'x' ∨ letter = 'X') (h : readHex? text = some i) :
    Grammatical ('0' :: letter :: text) (.integer i) ∨
      Stray ('0' :: letter :: text) (.integer i) := by
  obtain ⟨sign, digits, negative, n, rfl, hsign, hdigits, rfl, hrange⟩ := readHex?_iff.mp h
  by_cases hnil : sign = []
  · subst hnil
    cases hsign
    exact .inl (.hexadecimal hl hdigits hrange)
  · exact .inr (.signed hl hsign hnil hdigits hrange)

theorem float_cases (hd : readDecimal? text = none)
    (hlead : ∃ c rest, text = c :: rest ∧ (isDigit c = true ∨ c = '-' ∨ c = '.'))
    (h : readFloat? text = some x) : Grammatical text (.float x) ∨ Stray text (.float x) := by
  rcases readFloat?_iff.mp h with ⟨d, hfloating, rfl⟩ | ⟨sign, word, negative, rfl, hsign, hname⟩
  · have hread : Read text d := by
      refine ⟨hfloating, hlead, fun n hwhole => ?_⟩
      rw [← Bool.not_eq_true]
      intro hrange
      rw [readDecimal?_iff.mpr ⟨hwhole, hrange⟩] at hd
      cases hd
    rcases lt_or_ge d.magnitude Binary64.overflow with hlt | hge
    · exact .inl (.floating hread hlt)
    · rw [d.toBinary64_finite.2 hge]
      exact .inr (.infinite hread hge)
  · obtain ⟨c, rest, htext, hc⟩ := hlead
    cases hsign with
    | none =>
      obtain ⟨_, _, rfl, hletter⟩ := hname.exists_head
      cases htext
      exact absurd (lt_letters (hc.imp_right fun h => .inr h)) hletter
    | plus =>
      cases htext
      rcases hc with hc | hc | hc <;> cases hc
    | minus => exact .inr (.named hname)

theorem readNumber?_hex {letter : Char} (hl : letter = 'x' ∨ letter = 'X')
    (hs : Sign sign negative) (hd : Digits 16 hexValue? digits n)
    (hr : IntRange.signed128.contains (signed negative n) = true) :
    readNumber? ('0' :: letter :: (sign ++ digits)) = some (.integer (signed negative n)) := by
  have hread := readHex?_iff.mpr ⟨sign, digits, negative, n, rfl, hs, hd, rfl, hr⟩
  rcases hl with rfl | rfl <;>
    exact congrArg (Option.map DefaultValue.integer) hread

theorem Read.readNumber? (h : Read text d) :
    Literal.readNumber? text = some (.float d.toBinary64) := by
  have hd : readDecimal? text = none := by
    rw [Option.eq_none_iff_forall_ne_some]
    intro i hi
    obtain ⟨hwhole, hrange⟩ := readDecimal?_iff.mp hi
    rw [h.other i hwhole] at hrange
    cases hrange
  rw [readNumber?_of_decimal h.floating.not_hex, hd]
  dsimp only
  rw [if_pos (lead_iff.mpr h.lead), readFloat?_iff.mpr (.inl ⟨d, h.floating, rfl⟩)]
  rfl

theorem Named.readNumber? (h : Named true text x) :
    Literal.readNumber? ('-' :: text) = some (.float x) := by
  have hd : readDecimal? ('-' :: text) = none := by
    have hdigits : readDigits? text = none := by
      rw [Option.eq_none_iff_forall_ne_some]
      intro n hn
      obtain ⟨c, rest, rfl, hc⟩ := h.exists_head
      have hall := (digits_decimal_iff.mp (readDigits?_iff.mp hn)).2.1
      exact hc (lt_letters (.inl (List.all_eq_true.mp hall c List.mem_cons_self)))
    rw [readDecimal?, readInteger?, splitSign]
    dsimp only
    rw [hdigits]
    rfl
  have hhex : ∀ y rest, '-' :: text = '0' :: y :: rest → y ≠ 'x' ∧ y ≠ 'X' := by
    intro y rest hcons
    exact absurd (List.cons.inj hcons).1 (by decide)
  have hlead := lead_iff.mpr ⟨'-', text, rfl, .inr (.inl rfl)⟩
  rw [readNumber?_of_decimal hhex, hd]
  dsimp only
  have hread : readFloat? ('-' :: text) = some x :=
    readFloat?_iff.mpr (.inr ⟨['-'], text, true, rfl, .minus, h⟩)
  rw [if_pos hlead, hread]
  rfl

/-- A text is read as a number exactly when it is meant as the number, or strays. -/
theorem readNumber?_iff (text : List Char) (v : DefaultValue) :
    readNumber? text = some v ↔ Grammatical text v ∨ Stray text v := by
  constructor
  · intro h
    unfold readNumber? at h
    split at h
    · obtain ⟨i, hi, rfl⟩ := Option.map_eq_some_iff.mp h
      exact hex_cases (.inl rfl) hi
    · obtain ⟨i, hi, rfl⟩ := Option.map_eq_some_iff.mp h
      exact hex_cases (.inr rfl) hi
    · cases hd : readDecimal? text with
      | some i =>
        rw [hd] at h
        cases h
        obtain ⟨hwhole, hrange⟩ := readDecimal?_iff.mp hd
        exact .inl (.decimal hwhole hrange)
      | none =>
        rw [hd] at h
        dsimp only at h
        split at h
        · next hlead =>
          obtain ⟨x, hx, rfl⟩ := Option.map_eq_some_iff.mp h
          exact float_cases hd (lead_iff.mp hlead) hx
        · cases h
  · rintro (h | h)
    · cases h with
      | decimal hwhole hrange =>
        rw [readNumber?_of_decimal hwhole.not_hex, readDecimal?_iff.mpr ⟨hwhole, hrange⟩]
      | hexadecimal hletter hdigits hrange => exact readNumber?_hex hletter .none hdigits hrange
      | floating hread _ => exact hread.readNumber?
    · cases h with
      | signed hletter hsign _ hdigits hrange => exact readNumber?_hex hletter hsign hdigits hrange
      | infinite hread hge => rw [hread.readNumber?, Decimal.toBinary64_finite _ |>.2 hge]
      | named hname => exact hname.readNumber?

theorem Grammatical.isFinite (h : Grammatical text (.float x)) : x.isFinite = true := by
  cases h with
  | floating _ hlt => exact (Decimal.toBinary64_finite _).1.mpr hlt

theorem Grammatical.contains (h : Grammatical text (.integer i)) :
    IntRange.signed128.contains i = true := by
  cases h <;> assumption

theorem Stray.not_isFinite (h : Stray text (.float x)) : x.isFinite = false := by
  cases h with
  | infinite => exact Binary64.isFinite_infinity _
  | named hname =>
    cases hname with
    | infinity => exact Binary64.isFinite_infinity _
    | nan => exact Binary64.isFinite_nan _

theorem Stray.exists_sign (h : Stray text (.integer i)) : ∃ letter sign rest negative,
    text = '0' :: letter :: (sign ++ rest) ∧ (letter = 'x' ∨ letter = 'X') ∧
      Sign sign negative ∧ sign ≠ [] := by
  cases h with
  | signed hl hsign hsome => exact ⟨_, _, _, _, rfl, hl, hsign, hsome⟩

/-- A text that is meant as a number does not stray. -/
theorem Grammatical.not_stray {w : DefaultValue} (h : Grammatical text v) : ¬ Stray text w := by
  intro hs
  have hsame : v = w := Option.some.inj
    (((readNumber?_iff text v).mpr (.inl h)).symm.trans ((readNumber?_iff text w).mpr (.inr hs)))
  subst hsame
  cases v with
  | bool => cases h
  | float x =>
    have hfinite := h.isFinite
    rw [hs.not_isFinite] at hfinite
    cases hfinite
  | integer i =>
    obtain ⟨letter, sign, rest, negative, rfl, hl, hsign, hsome⟩ := hs.exists_sign
    cases h with
    | decimal hwhole =>
      obtain ⟨hlower, hupper⟩ := hwhole.not_hex _ _ rfl
      exact hl.elim hlower hupper
    | hexadecimal _ hdigits =>
      have hbare := hdigits.bare rfl rfl []
      rw [List.append_nil] at hbare
      cases hsign with
      | none => exact hsome rfl
      | plus => exact (hbare _ rfl).1 rfl
      | minus => exact (hbare _ rfl).2 rfl

end DescriptorMarshal.Literal
