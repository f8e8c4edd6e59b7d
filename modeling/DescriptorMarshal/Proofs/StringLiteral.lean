import DescriptorMarshal.Number.Decimal
import Mathlib.Data.List.Infix

/-!
String literals of C++, read as a compiler reads them: from behind the opening quote, with escape
sequences interpreted, to the first quote that is not escaped. Text that is put between quotes as
it is reads back as itself exactly when it has no character that means something else there.
-/

namespace DescriptorMarshal.Cpp

def shortEscape? : Char → Option UInt8
  | '"' => some 0x22
  | '\'' => some 0x27
  | '?' => some 0x3f
  | '\\' => some 0x5c
  | 'a' => some 0x07
  | 'b' => some 0x08
  | 'f' => some 0x0c
  | 'n' => some 0x0a
  | 'r' => some 0x0d
  | 't' => some 0x09
  | 'v' => some 0x0b
  | _ => none

def octalValue? (c : Char) : Option Nat :=
  if '0' ≤ c ∧ c ≤ '7' then some (c.toNat - '0'.toNat) else none

/-- A backslash at the end of a line joins the next line to it. -/
def joined : List Char → List Char
  | '\\' :: '\r' :: '\n' :: rest | '\\' :: '\n' :: rest | '\\' :: '\r' :: rest => joined rest
  | text => text

/-- The values of the digits in front, of at most so many characters, and what follows them. -/
def leadingDigits (value? : Char → Option Nat) : Nat → List Char → List Nat × List Char
  | 0, text => ([], text)
  | count + 1, text =>
    match joined text with
    | [] => ([], [])
    | c :: rest =>
      match value? c with
      | some value =>
        let (values, rest) := leadingDigits value? count rest
        (value :: values, rest)
      | none => ([], c :: rest)

def valueOf (base : Nat) (digits : List Nat) : Nat :=
  digits.foldl (fun value digit => base * value + digit) 0

/-- An escape that gives a byte by its number: one or more digits, of a value that fits. -/
def numberedByte? (base : Nat) : List Nat × List Char → Option (List UInt8 × List Char)
  | (digits, rest) =>
    if digits ≠ [] ∧ valueOf base digits < 256 then
      some ([UInt8.ofNat (valueOf base digits)], rest)
    else none

/-- An escape that gives a character by its code point, of a fixed number of digits. -/
def numberedChar? (count : Nat) : List Nat × List Char → Option (List UInt8 × List Char)
  | (digits, rest) =>
    if digits.length = count ∧ (valueOf 16 digits).isValidChar then
      some (String.utf8EncodeChar (Char.ofNat (valueOf 16 digits)), rest)
    else none

/-- The bytes of the escape sequence that a text starts with, its backslash left out. -/
def sequence? : List Char → Option (List UInt8 × List Char)
  | [] => none
  | c :: rest =>
    match shortEscape? c with
    | some byte => some ([byte], rest)
    | none =>
      if c = 'x' then numberedByte? 16 (leadingDigits hexValue? rest.length rest)
      else if c = 'u' then numberedChar? 4 (leadingDigits hexValue? 4 rest)
      else if c = 'U' then numberedChar? 8 (leadingDigits hexValue? 8 rest)
      else numberedByte? 8 (leadingDigits octalValue? 3 (c :: rest))

/-- The bytes that a backslash stands for with what is behind it, and what follows them. -/
def escape? : List Char → Option (List UInt8 × List Char)
  | '\r' :: '\n' :: rest | '\n' :: rest | '\r' :: rest => some ([], rest)
  | text => sequence? (joined text)

section

variable {value? : Char → Option Nat} {count base : Nat} {c : Char}
  {text rest taken others after : List Char} {digits : List Nat} {found : List UInt8}

/-- The text goes on with another one, behind characters that hold no quote. -/
def Past (text taken after : List Char) : Prop := text = taken ++ after ∧ '"' ∉ taken

theorem Past.refl (text : List Char) : Past text [] text := ⟨rfl, List.not_mem_nil⟩

theorem Past.cons (h : Past rest taken after) (hc : c ≠ '"') :
    Past (c :: rest) (c :: taken) after :=
  ⟨congrArg (c :: ·) h.1, List.not_mem_cons_of_ne_of_not_mem hc.symm h.2⟩

theorem Past.trans (h : Past text taken rest) (hr : Past rest others after) :
    Past text (taken ++ others) after := by
  refine ⟨?_, fun hmem => (List.mem_append.mp hmem).elim h.2 hr.2⟩
  rw [h.1, hr.1, List.append_assoc]

theorem past_joined (text : List Char) : ∃ taken, Past text taken (joined text) := by
  induction text using joined.induct with
  | case1 rest ih =>
    obtain ⟨taken, h⟩ := ih
    exact ⟨_, ((h.cons (by decide)).cons (by decide)).cons (by decide)⟩
  | case2 rest ih =>
    obtain ⟨taken, h⟩ := ih
    exact ⟨_, (h.cons (by decide)).cons (by decide)⟩
  | case3 rest hno ih =>
    obtain ⟨taken, h⟩ := ih
    rw [joined.eq_3 rest hno]
    exact ⟨_, (h.cons (by decide)).cons (by decide)⟩
  | case4 text hboth hline hreturn =>
    rw [joined.eq_4 text hboth hline hreturn]
    exact ⟨[], .refl text⟩

theorem past_leadingDigits (hno : value? '"' = none)
    (h : leadingDigits value? count text = (digits, after)) :
    ∃ taken, Past text taken after ∧ digits.length ≤ taken.length := by
  induction count generalizing text digits after with
  | zero =>
    cases h
    exact ⟨[], .refl text, Nat.le_refl 0⟩
  | succ count ih =>
    obtain ⟨taken, hjoined⟩ := past_joined text
    rw [leadingDigits] at h
    split at h
    case h_1 he =>
      cases h
      exact ⟨taken, he ▸ hjoined, Nat.zero_le _⟩
    case h_2 c rest he =>
      rw [he] at hjoined
      split at h
      case h_1 value hv =>
        generalize hd : leadingDigits value? count rest = split at h
        obtain ⟨values, tail⟩ := split
        cases h
        obtain ⟨others, hothers, hle⟩ := ih hd
        have hc : c ≠ '"' := by
          rintro rfl
          rw [hno] at hv
          cases hv
        refine ⟨taken ++ c :: others, hjoined.trans (hothers.cons hc), ?_⟩
        rw [List.length_append, List.length_cons, List.length_cons]
        omega
      case h_2 =>
        cases h
        exact ⟨taken, hjoined, Nat.zero_le _⟩

/-- What an escape takes: some characters in front of the text. They hold no quote and are no fewer
than its bytes, unless the escape is the one of a quote. -/
def Takes (text : List Char) (found : List UInt8) (after : List Char) : Prop :=
  ∃ taken, taken ≠ [] ∧ text = taken ++ after ∧
    (found = [0x22] ∨ '"' ∉ taken ∧ found.length ≤ taken.length)

theorem Past.takes (h : Past text taken after) (hne : taken ≠ [])
    (hle : found.length ≤ taken.length) : Takes text found after :=
  ⟨taken, hne, h.1, .inr ⟨h.2, hle⟩⟩

theorem Takes.behind (h : Takes rest found after) (hp : Past text taken rest) :
    Takes text found after := by
  obtain ⟨others, hne, rfl, hfound⟩ := h
  refine ⟨taken ++ others, List.append_ne_nil_of_right_ne_nil _ hne, ?_, ?_⟩
  · rw [hp.1, List.append_assoc]
  · refine hfound.imp id fun ⟨hquote, hle⟩ => ⟨?_, ?_⟩
    · exact fun hmem => (List.mem_append.mp hmem).elim hp.2 hquote
    · rw [List.length_append]
      exact Nat.le_add_left_of_le hle

theorem Takes.cons (h : Takes rest found after) (hc : c ≠ '"') : Takes (c :: rest) found after :=
  h.behind ((Past.refl rest).cons hc)

theorem takes_numberedByte (hno : value? '"' = none)
    (h : numberedByte? base (leadingDigits value? count text) = some (found, after)) :
    Takes text found after := by
  generalize hd : leadingDigits value? count text = split at h
  obtain ⟨digits, tail⟩ := split
  obtain ⟨taken, hpast, hlength⟩ := past_leadingDigits hno hd
  rw [numberedByte?] at h
  split at h
  case isTrue hdigits =>
    cases h
    have hpos : 0 < taken.length := (List.length_pos_iff.mpr hdigits.1).trans_le hlength
    exact hpast.takes (List.ne_nil_of_length_pos hpos) hpos
  case isFalse => cases h

theorem takes_numberedChar (hcount : 4 ≤ count)
    (h : numberedChar? count (leadingDigits hexValue? count text) = some (found, after)) :
    Takes text found after := by
  generalize hd : leadingDigits hexValue? count text = split at h
  obtain ⟨digits, tail⟩ := split
  obtain ⟨taken, hpast, hlength⟩ := past_leadingDigits rfl hd
  rw [numberedChar?] at h
  split at h
  case isTrue hdigits =>
    cases h
    have hle : 4 ≤ taken.length := hcount.trans (hdigits.1 ▸ hlength)
    refine hpast.takes (List.ne_nil_of_length_pos (by omega)) ?_
    rw [String.length_utf8EncodeChar]
    exact (Char.utf8Size_le_four _).trans hle
  case isFalse => cases h

theorem takes_one {byte : UInt8} (h : shortEscape? c = some byte) :
    Takes (c :: rest) [byte] rest := by
  refine ⟨[c], List.cons_ne_nil _ _, rfl, ?_⟩
  by_cases hc : c = '"'
  · subst hc
    cases h
    exact .inl rfl
  · exact .inr ⟨List.not_mem_cons_of_ne_of_not_mem (Ne.symm hc) List.not_mem_nil, Nat.le_refl 1⟩

theorem takes_sequence (h : sequence? text = some (found, after)) : Takes text found after := by
  cases text with
  | nil => cases h
  | cons c rest =>
    rw [sequence?] at h
    split at h
    case h_1 byte hshort =>
      cases h
      exact takes_one hshort
    case h_2 hshort =>
      have hc : c ≠ '"' := by
        rintro rfl
        cases hshort
      split at h
      case isTrue => exact (takes_numberedByte rfl h).cons hc
      split at h
      case isTrue => exact (takes_numberedChar (Nat.le_refl 4) h).cons hc
      split at h
      case isTrue => exact (takes_numberedChar (by decide) h).cons hc
      exact takes_numberedByte rfl h

theorem takes_escape (h : escape? text = some (found, after)) : Takes text found after := by
  unfold escape? at h
  split at h
  case h_1 =>
    cases h
    exact (((Past.refl after).cons (by decide)).cons (by decide)).takes (List.cons_ne_nil _ _)
      (Nat.zero_le _)
  case h_2 | h_3 =>
    cases h
    exact ((Past.refl after).cons (by decide)).takes (List.cons_ne_nil _ _) (Nat.zero_le _)
  case h_4 =>
    obtain ⟨taken, hjoined⟩ := past_joined text
    exact (takes_sequence h).behind hjoined

theorem length_after_escape (h : escape? text = some (found, after)) :
    after.length < text.length := by
  obtain ⟨taken, hne, rfl, -⟩ := takes_escape h
  rw [List.length_append]
  exact Nat.lt_add_of_pos_left (List.length_pos_iff.mpr hne)

end

/-- The bytes of a string literal, from the text behind its opening quote. A line break, or the end
of the text, stands before no closing quote. -/
def readLiteral? : List Char → Option (List UInt8)
  | [] => none
  | '"' :: _ => some []
  | '\n' :: _ | '\r' :: _ => none
  | '\\' :: rest =>
    match _h : escape? rest with
    | some (bytes, after) => (readLiteral? after).map (bytes ++ ·)
    | none => none
  | c :: rest => (readLiteral? rest).map (String.utf8EncodeChar c ++ ·)
termination_by text => text.length
decreasing_by
  · exact Nat.lt_succ_of_lt (length_after_escape _h)
  · exact Nat.lt_succ_self _

/-- A character that stands for itself in a string literal. -/
def Plain (c : Char) : Prop := c ≠ '"' ∧ c ≠ '\\' ∧ c ≠ '\n' ∧ c ≠ '\r'

instance (c : Char) : Decidable (Plain c) := inferInstanceAs (Decidable (_ ∧ _ ∧ _ ∧ _))

def textBytes (text : List Char) : List UInt8 := text.flatMap String.utf8EncodeChar

section

variable {c : Char} {text rest name taken after others : List Char}
  {found lead back : List UInt8}

theorem readLiteral?_plain (h : Plain c) (rest : List Char) :
    readLiteral? (c :: rest) = (readLiteral? rest).map (String.utf8EncodeChar c ++ ·) := by
  obtain ⟨hquote, hescape, hline, hreturn⟩ := h
  rw [readLiteral?]
  · exact hquote
  · exact hline
  · exact hreturn
  · exact hescape

theorem readLiteral?_escape (h : escape? rest = some (found, after)) :
    readLiteral? ('\\' :: rest) = (readLiteral? after).map (found ++ ·) := by
  rw [readLiteral?]
  split
  case h_1 bytes others he =>
    cases h.symm.trans he
    rfl
  case h_2 he => cases h.symm.trans he

theorem readLiteral?_of_plain (h : ∀ c ∈ name, Plain c) (rest : List Char) :
    readLiteral? (name ++ '"' :: rest) = some (textBytes name) := by
  induction name with
  | nil => rw [List.nil_append, readLiteral?]; rfl
  | cons c name ih =>
    rw [List.cons_append, readLiteral?_plain (h c List.mem_cons_self),
      ih fun d hd => h d (List.mem_cons_of_mem _ hd)]
    rfl

theorem readLiteral?_cut (h : ∀ c ∈ name, Plain c) (others rest : List Char) :
    readLiteral? ((name ++ '"' :: others) ++ rest) = some (textBytes name) := by
  rw [List.append_assoc, List.cons_append]
  exact readLiteral?_of_plain h _

theorem quote_not_mem_utf8EncodeChar (h : c ≠ '"') : 0x22 ∉ String.utf8EncodeChar c := by
  have hv : c.val.toNat ≠ 34 := fun hc => h (Char.ext (UInt32.toNat_inj.mp hc))
  -- Every byte of a longer encoding has its first bit set.
  have hall : ∀ byte ∈ String.utf8EncodeChar c, byte.toNat ≠ 34 := by
    unfold String.utf8EncodeChar
    simp only
    split_ifs <;>
      simp only [List.forall_mem_cons, List.not_mem_nil, false_imp_iff, implies_true, and_true,
        UInt8.toNat_ofNat'] <;> omega
  exact fun hmem => hall _ hmem rfl

theorem quote_not_mem_textBytes (h : '"' ∉ text) : 0x22 ∉ textBytes text := by
  intro hmem
  obtain ⟨c, hc, hmem⟩ := List.mem_flatMap.mp hmem
  exact quote_not_mem_utf8EncodeChar (fun heq => h (heq ▸ hc)) hmem

theorem textBytes_append (text rest : List Char) :
    textBytes (text ++ rest) = textBytes text ++ textBytes rest :=
  List.flatMap_append

theorem length_le_textBytes (text : List Char) : text.length ≤ (textBytes text).length := by
  induction text with
  | nil => exact Nat.le_refl 0
  | cons c rest ih =>
    have hc := c.utf8Size_pos
    unfold textBytes at ih ⊢
    rw [List.flatMap_cons, List.length_append, String.length_utf8EncodeChar, List.length_cons]
    omega

/-- Bytes read for some characters, no more than these have, leave bytes without a quote before
those of the other characters. -/
theorem exists_shift (hlead : 0x22 ∉ lead) (hquote : '"' ∉ taken)
    (h : found ++ back = lead ++ textBytes (taken ++ others))
    (hle : found.length ≤ (textBytes taken).length) :
    ∃ shift, 0x22 ∉ shift ∧ lead ++ textBytes taken = found ++ shift ∧
      back = shift ++ textBytes others := by
  rw [textBytes_append, ← List.append_assoc] at h
  obtain ⟨shift, hshift⟩ : found <+: lead ++ textBytes taken := by
    refine List.prefix_of_prefix_length_le ⟨back, h⟩ ⟨textBytes others, rfl⟩ ?_
    rw [List.length_append]
    exact Nat.le_add_left_of_le hle
  refine ⟨shift, fun hmem => ?_, hshift.symm, ?_⟩
  · have hmem := hshift ▸ List.mem_append_right found hmem
    exact (List.mem_append.mp hmem).elim hlead (quote_not_mem_textBytes hquote)
  · rw [← hshift, List.append_assoc] at h
    exact List.append_cancel_left h

theorem exists_after_taken (hquote : '"' ∉ taken) (h : name ++ '"' :: rest = taken ++ after) :
    ∃ others, name = taken ++ others ∧ after = others ++ '"' :: rest := by
  rcases List.append_eq_append_iff.mp h with ⟨extra, rfl, hextra⟩ | ⟨others, rfl, rfl⟩
  · cases extra with
    | nil => exact ⟨[], by rw [List.append_nil, List.append_nil], hextra.symm⟩
    | cons c extra =>
      cases hextra
      exact absurd (List.mem_append_right _ List.mem_cons_self) hquote
  · exact ⟨others, rfl, rfl⟩

/-- A name that reads as itself behind bytes without a quote has nothing before it and only plain
characters in it. The bytes in front stand for what earlier escapes were short of. -/
theorem plain_of_readLiteral? (hlead : 0x22 ∉ lead) (ht : text = name ++ '"' :: rest)
    (h : readLiteral? text = some (lead ++ textBytes name)) : lead = [] ∧ ∀ c ∈ name, Plain c := by
  induction text using readLiteral?.induct generalizing name lead with
  | case1 => cases name <;> cases ht
  | case2 tail =>
    rw [readLiteral?] at h
    obtain ⟨hnil, hname⟩ := List.append_eq_nil_iff.mp (Option.some.inj h).symm
    have hlength := length_le_textBytes name
    rw [hname, List.length_nil] at hlength
    cases List.eq_nil_of_length_eq_zero (Nat.le_zero.mp hlength)
    exact ⟨hnil, fun _ hmem => absurd hmem List.not_mem_nil⟩
  | case3 | case4 =>
    rw [readLiteral?] at h
    cases h
  | case5 tail found after hescape ih =>
    rw [readLiteral?_escape hescape] at h
    obtain ⟨bytes, hread, hbytes⟩ := Option.map_eq_some_iff.mp h
    cases name with
    | nil => cases ht
    | cons c name =>
      cases ht
      obtain ⟨taken, -, htaken, rfl | ⟨hquote, hle⟩⟩ := takes_escape hescape
      · -- A quote is read where the name has its backslash, or a byte that is no quote.
        cases lead with
        | nil => cases hbytes
        | cons byte lead =>
          cases hbytes
          exact absurd List.mem_cons_self hlead
      · obtain ⟨others, rfl, rfl⟩ := exists_after_taken hquote htaken
        have hslash : '"' ∉ '\\' :: taken :=
          List.not_mem_cons_of_ne_of_not_mem (by decide) hquote
        have hlength := length_le_textBytes ('\\' :: taken)
        rw [List.length_cons] at hlength
        obtain ⟨shift, hno, hshift, rfl⟩ := exists_shift hlead hslash hbytes (by omega)
        obtain ⟨rfl, -⟩ := ih hno rfl hread
        have := congrArg List.length hshift
        rw [List.length_append, List.append_nil] at this
        omega
  | case6 tail hnone =>
    rw [readLiteral?] at h
    split at h
    case h_1 he => cases hnone.symm.trans he
    case h_2 => cases h
  | case7 c tail hquote hline hreturn hslash ih =>
    cases name with
    | nil =>
      cases ht
      exact absurd rfl hquote
    | cons d name =>
      cases ht
      have hplain : Plain c := ⟨hquote, hslash, hline, hreturn⟩
      rw [readLiteral?_plain hplain] at h
      obtain ⟨bytes, hread, hbytes⟩ := Option.map_eq_some_iff.mp h
      have hone : '"' ∉ [c] :=
        List.not_mem_cons_of_ne_of_not_mem (Ne.symm hquote) List.not_mem_nil
      have htext : textBytes [c] = String.utf8EncodeChar c := List.flatMap_singleton _ _
      obtain ⟨shift, hno, hshift, rfl⟩ := exists_shift hlead hone hbytes (by rw [htext])
      obtain ⟨rfl, hall⟩ := ih hno rfl hread
      rw [htext, List.append_nil] at hshift
      exact ⟨List.append_left_eq_self.mp hshift, List.forall_mem_cons.mpr ⟨hplain, hall⟩⟩

/-- A name between quotes, put there as it is, reads as itself exactly when it is plain. -/
theorem readLiteral?_quoted_iff (name rest : List Char) :
    readLiteral? (name ++ '"' :: rest) = some (textBytes name) ↔ ∀ c ∈ name, Plain c :=
  ⟨fun h => (plain_of_readLiteral? List.not_mem_nil rfl h).2, fun h => readLiteral?_of_plain h rest⟩

end

end DescriptorMarshal.Cpp
