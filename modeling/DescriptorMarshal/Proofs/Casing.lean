import DescriptorMarshal.Proofs.Assembly

/-!
Casings of free text. A text spells its words, and only they matter for a casing: separators may
stand around them and repeat between them. Upper-casing makes no separators, so a text in camel case
is one word and keeps its casings. A length therefore names a sibling by any spelling of its words
and by its camel-cased name, as long as the text has no meaning of its own as a length.
-/

namespace DescriptorMarshal

def IsGap (gap : List Char) : Prop := ∀ c ∈ gap, isSeparator c = true

structure IsWord (word : List Char) : Prop where
  nonempty : word ≠ []
  letters : ∀ c ∈ word, isSeparator c = false

/-- The text does not go on with a word. -/
def Parted (text : List Char) : Prop := ∀ c ∈ text.head?, isSeparator c = true

/-- The words stand in the text in their order, with separators between them and maybe around. -/
inductive SpellsWords : List Char → List (List Char) → Prop where
  | blank {gap : List Char} (separators : IsGap gap) : SpellsWords gap []
  | word {gap word rest : List Char} {others : List (List Char)} (separators : IsGap gap)
    (first : IsWord word) (parted : Parted rest) (behind : SpellsWords rest others) :
    SpellsWords (gap ++ word ++ rest) (word :: others)

/-- A length names a sibling: by its words, however they are separated, or in camel case. -/
inductive NamesSibling (length name : String) : Prop where
  | words {parts : List (List Char)} (spells : SpellsWords length.toList parts)
    (same : SpellsWords name.toList parts)
  | camel (same : length = camelCase name)

/-- The text has a meaning of its own as a length: `strlen`, or a count. -/
def LengthSource.Reserved (text : String) : Prop :=
  text = "strlen" ∨ LengthSource.isCount text = true

variable {text rest gap word : List Char} {parts : List (List Char)} {c : Char}

def separatorRanges : List (Nat × Nat) := (0x5F, 0x5F) :: (0x2D, 0x2D) :: blankRanges

theorem isSeparator_iff : isSeparator c = true ↔
    ∃ range ∈ separatorRanges, range.1 ≤ c.toNat ∧ c.toNat ≤ range.2 := by
  have hunderscore : c = '_' ↔ 0x5F ≤ c.toNat ∧ c.toNat ≤ 0x5F := by
    rw [← Char.toNat_inj, show '_'.toNat = 0x5F from rfl]
    omega
  have hhyphen : c = '-' ↔ 0x2D ≤ c.toNat ∧ c.toNat ≤ 0x2D := by
    rw [← Char.toNat_inj, show '-'.toNat = 0x2D from rfl]
    omega
  simp only [isSeparator, isBlank, separatorRanges, List.exists_mem_cons_iff, Bool.or_eq_true,
    List.any_eq_true, Bool.and_eq_true, decide_eq_true_iff, beq_iff_eq, ← hunderscore, ← hhyphen]
  rw [or_assoc, or_comm, or_assoc]

theorem upperRuns_apart : ∀ run ∈ upperRuns, ∀ range ∈ separatorRanges,
    range.2 < run.upper ∨ run.upper + (run.last - run.first) < range.1 := by
  decide +kernel

theorem upperSequences_apart : ∀ row ∈ upperSequences, ∀ code ∈ row.2, ∀ range ∈ separatorRanges,
    range.2 < code ∨ code < range.1 := by
  decide +kernel

/-- A code point that is no character becomes the one of NUL. -/
theorem toNat_ofNat_cases (code : Nat) :
    (Char.ofNat code).toNat = code ∨ (Char.ofNat code).toNat = 0 := by
  by_cases hvalid : code.isValidChar
  · rw [Char.ofNat, dif_pos hvalid]
    exact .inl rfl
  · rw [Char.ofNat, dif_neg hvalid]
    exact .inr rfl

theorem isSeparator_ofNat {code : Nat}
    (h : ∀ range ∈ separatorRanges, range.2 < code ∨ code < range.1) :
    isSeparator (Char.ofNat code) = false := by
  rw [← Bool.not_eq_true, isSeparator_iff]
  rintro ⟨range, hr, hlow, hhigh⟩
  have hnull : ∀ range ∈ separatorRanges, 0 < range.1 := by decide
  have hpos := hnull range hr
  have hapart := h range hr
  rcases toNat_ofNat_cases code with hcode | hcode <;> omega

theorem isSeparator_of_mem_upperChar (hc : isSeparator c = false) :
    ∀ upper ∈ upperChar c, isSeparator upper = false := by
  intro upper hu
  unfold upperChar at hu
  dsimp only at hu
  split at hu
  · next run hrun =>
    have hcovers := List.find?_some hrun
    simp only [CaseRun.covers, Bool.and_eq_true, decide_eq_true_iff] at hcovers
    rw [List.mem_singleton.mp hu]
    refine isSeparator_ofNat fun range hr => ?_
    have := upperRuns_apart run (List.mem_of_find?_eq_some hrun) range hr
    omega
  · split at hu
    · next row hrow =>
      obtain ⟨code, hcode, rfl⟩ := List.mem_map.mp hu
      exact isSeparator_ofNat (upperSequences_apart row (List.mem_of_find?_eq_some hrow) code hcode)
    · rw [List.mem_singleton.mp hu]
      exact hc

def wordsIn (text : List Char) : List (List Char) := (pieces text).filter fun word => !word.isEmpty

theorem pieces_eq_splitOnP (text : List Char) : pieces text = text.splitOnP isSeparator := by
  induction text with
  | nil => rfl
  | cons c rest ih =>
    rw [pieces, ih, List.splitOnP_cons_eq_if_modifyHead]
    cases hrest : rest.splitOnP isSeparator with
    | nil => exact absurd hrest (List.splitOnP_ne_nil isSeparator rest)
    | cons word others => rfl

theorem wordsIn_of_separator (hc : isSeparator c = true) (rest : List Char) :
    wordsIn (c :: rest) = wordsIn rest := by
  simp [wordsIn, pieces, hc]

theorem wordsIn_gap (hg : IsGap gap) (rest : List Char) : wordsIn (gap ++ rest) = wordsIn rest := by
  induction gap with
  | nil => rfl
  | cons c others ih =>
    obtain ⟨hc, hothers⟩ := List.forall_mem_cons.mp hg
    rw [List.cons_append, wordsIn_of_separator hc, ih hothers]

theorem wordsIn_word (hw : IsWord word) (hr : Parted rest) :
    wordsIn (word ++ rest) = word :: wordsIn rest := by
  have hne : (!word.isEmpty) = true := by simpa using hw.nonempty
  have hword : pieces word = [word] := by
    rw [pieces_eq_splitOnP]
    exact List.splitOnP_eq_singleton hw.letters
  cases rest with
  | nil => simp [wordsIn, hword, hne, pieces]
  | cons c behind =>
    have hc : isSeparator c = true := hr c rfl
    rw [wordsIn_of_separator hc, wordsIn, pieces_eq_splitOnP, List.splitOnP_append_cons _ _ hc,
      ← pieces_eq_splitOnP, ← pieces_eq_splitOnP, hword]
    simp [wordsIn, hne]

theorem SpellsWords.wordsIn_eq (h : SpellsWords text parts) : wordsIn text = parts := by
  induction h with
  | blank hgap =>
    have hnil := wordsIn_gap hgap []
    rwa [List.append_nil] at hnil
  | word hgap hword hparted _ ih =>
    rw [List.append_assoc, wordsIn_gap hgap, wordsIn_word hword hparted, ih]

theorem SpellsWords.separator (hc : isSeparator c = true) (h : SpellsWords text parts) :
    SpellsWords (c :: text) parts := by
  cases h with
  | blank hgap => exact .blank (List.forall_mem_cons.mpr ⟨hc, hgap⟩)
  | word hgap hword hparted hbehind =>
    exact .word (List.forall_mem_cons.mpr ⟨hc, hgap⟩) hword hparted hbehind

theorem SpellsWords.letter (hc : isSeparator c = false) (h : SpellsWords text parts) :
    ∃ first others, SpellsWords (c :: text) (first :: others) := by
  have hone : IsWord [c] := ⟨List.cons_ne_nil _ _, List.forall_mem_singleton.mpr hc⟩
  have hnone : IsGap [] := nofun
  by_cases hparted : Parted text
  · exact ⟨[c], parts, .word hnone hone hparted h⟩
  · cases h with
    | blank hgap => exact absurd (fun d hd => hgap d (List.mem_of_mem_head? hd)) hparted
    | @word gap word rest others hgap hword hrest hbehind =>
      -- the text begins with a letter, so with the word itself
      obtain rfl : gap = [] := by
        cases gap with
        | nil => rfl
        | cons d gap =>
          refine absurd ?_ hparted
          rintro _ ⟨⟩
          exact hgap d List.mem_cons_self
      have hlonger : IsWord (c :: word) :=
        ⟨List.cons_ne_nil _ _, List.forall_mem_cons.mpr ⟨hc, hword.letters⟩⟩
      exact ⟨c :: word, others, .word hnone hlonger hrest hbehind⟩

theorem exists_spellsWords (text : List Char) : ∃ parts, SpellsWords text parts := by
  induction text with
  | nil => exact ⟨[], .blank nofun⟩
  | cons c rest ih =>
    obtain ⟨parts, h⟩ := ih
    cases hc : isSeparator c with
    | true => exact ⟨parts, h.separator hc⟩
    | false =>
      obtain ⟨first, others, hletter⟩ := h.letter hc
      exact ⟨first :: others, hletter⟩

/-- The words of a text are those that it spells. -/
theorem words_iff {text : String} : words text = parts ↔ SpellsWords text.toList parts := by
  constructor
  · rintro rfl
    obtain ⟨parts, h⟩ := exists_spellsWords text.toList
    rwa [show words text = parts from h.wordsIn_eq]
  · exact SpellsWords.wordsIn_eq

theorem SpellsWords.isWord (h : SpellsWords text parts) : ∀ word ∈ parts, IsWord word := by
  induction h with
  | blank => nofun
  | word _ hword _ _ ih => exact List.forall_mem_cons.mpr ⟨hword, ih⟩

theorem isWord_of_mem_words {text : String} (h : word ∈ words text) : IsWord word :=
  (words_iff.mp rfl).isWord word h

theorem words_of_isWord {text : String} (h : IsWord text.toList) : words text = [text.toList] := by
  refine words_iff.mpr ?_
  have hspells : SpellsWords ([] ++ text.toList ++ []) [text.toList] :=
    .word nofun h nofun (.blank nofun)
  rwa [List.nil_append, List.append_nil] at hspells

theorem capitalize_letters (hw : IsWord word) : ∀ c ∈ capitalize word, isSeparator c = false := by
  intro c hc
  cases word with
  | nil => exact absurd rfl hw.nonempty
  | cons first rest =>
    obtain ⟨hfirst, hrest⟩ := List.forall_mem_cons.mp hw.letters
    rcases List.mem_append.mp hc with hupper | hbehind
    · exact isSeparator_of_mem_upperChar hfirst c hupper
    · exact hrest c hbehind

theorem flatMap_capitalize_letters (hw : ∀ word ∈ parts, IsWord word) :
    ∀ c ∈ parts.flatMap capitalize, isSeparator c = false := by
  intro c hc
  obtain ⟨word, hm, hword⟩ := List.mem_flatMap.mp hc
  exact capitalize_letters (hw word hm) c hword

theorem pascalCase_letters (text : String) :
    ∀ c ∈ (pascalCase text).toList, isSeparator c = false := by
  rw [pascalCase, String.toList_ofList]
  exact flatMap_capitalize_letters fun _ => isWord_of_mem_words

/-- A text in camel case is the first word and the others behind it, capitalized. -/
theorem camelCase_cases (text : String) : words text = [] ∧ camelCase text = "" ∨
    ∃ first others, words text = first :: others ∧
      (camelCase text).toList = first ++ others.flatMap capitalize ∧
        IsWord (camelCase text).toList := by
  cases hwords : words text with
  | nil => exact .inl ⟨rfl, by rw [camelCase, hwords]⟩
  | cons first others =>
    have hall : ∀ word ∈ first :: others, IsWord word := by
      intro word hm
      rw [← hwords] at hm
      exact isWord_of_mem_words hm
    obtain ⟨hfirst, hothers⟩ := List.forall_mem_cons.mp hall
    have hcamel : (camelCase text).toList = first ++ others.flatMap capitalize := by
      rw [camelCase, hwords, String.toList_ofList]
    refine .inr ⟨first, others, rfl, hcamel, ?_, ?_⟩
    · rw [hcamel]
      exact List.append_ne_nil_of_left_ne_nil hfirst.nonempty _
    · rw [hcamel]
      intro c hc
      rcases List.mem_append.mp hc with hc | hc
      · exact hfirst.letters c hc
      · exact flatMap_capitalize_letters hothers c hc

theorem camelCase_letters (text : String) :
    ∀ c ∈ (camelCase text).toList, isSeparator c = false := by
  rcases camelCase_cases text with ⟨-, hempty⟩ | ⟨_, _, -, -, hword⟩
  · rw [hempty]
    nofun
  · exact hword.letters

theorem camelCase_of_isWord {text : String} (h : IsWord text.toList) : camelCase text = text := by
  rw [camelCase, words_of_isWord h]
  simp

theorem camelCase_camelCase (text : String) : camelCase (camelCase text) = camelCase text := by
  rcases camelCase_cases text with ⟨-, hempty⟩ | ⟨_, _, -, -, hword⟩
  · rw [hempty]
    rfl
  · exact camelCase_of_isWord hword

theorem pascalCase_camelCase (text : String) : pascalCase (camelCase text) = pascalCase text := by
  rcases camelCase_cases text with ⟨hnone, hempty⟩ | ⟨first, others, hwords, hcamel, hword⟩
  · rw [hempty, pascalCase, pascalCase, hnone]
    rfl
  · have hfirst : IsWord first := isWord_of_mem_words (by rw [hwords]; exact List.mem_cons_self)
    rw [pascalCase, words_of_isWord hword, pascalCase, hwords, hcamel]
    cases first with
    | nil => exact absurd rfl hfirst.nonempty
    | cons c rest => simp [capitalize]

/-! ### Lengths -/

open LengthSource (Reserved isCount)

theorem isDigit_eq_false (hc : isSeparator c = true) : isDigit c = false := by
  obtain ⟨range, hr, hlow, hhigh⟩ := isSeparator_iff.mp hc
  have hapart : ∀ range ∈ separatorRanges, range.2 < 0x30 ∨ 0x39 < range.1 := by decide
  have := hapart range hr
  rw [← Bool.not_eq_true, isDigit, Bool.and_eq_true, decide_eq_true_iff, decide_eq_true_iff]
  rintro ⟨hzero, hnine⟩
  have hzero : 0x30 ≤ c.toNat := hzero
  have hnine : c.toNat ≤ 0x39 := hnine
  omega

theorem exists_trim (text : List Char) :
    ∃ before after, text = before ++ trim text ++ after ∧ IsGap before ∧ IsGap after := by
  have hblank : ∀ {gap : List Char}, (∀ c ∈ gap, isBlank c = true) → IsGap gap := by
    intro gap h c hc
    rw [isSeparator, h c hc]
    rfl
  refine ⟨text.takeWhile isBlank,
    ((text.dropWhile isBlank).reverse.takeWhile isBlank).reverse, ?_, ?_, ?_⟩
  · rw [trim, List.append_assoc, ← List.reverse_append, List.takeWhile_append_dropWhile,
      List.reverse_reverse, List.takeWhile_append_dropWhile]
  · exact hblank fun c hc => List.all_eq_true.mp List.all_takeWhile c hc
  · exact hblank fun c hc =>
      List.all_eq_true.mp List.all_takeWhile c (List.mem_reverse.mp hc)

theorem trim_of_isWord (h : IsWord word) : trim word = word := by
  have hkeep : ∀ text : List Char, (∀ c ∈ text, c ∈ word) → text.dropWhile isBlank = text := by
    intro text hall
    cases text with
    | nil => rfl
    | cons c rest =>
      have hc := h.letters c (hall c List.mem_cons_self)
      simp only [isSeparator, Bool.or_eq_false_iff] at hc
      rw [List.dropWhile_cons_of_neg (by simp [hc.1.1])]
  rw [trim, hkeep word fun _ hc => hc, hkeep _ fun _ hc => List.mem_reverse.mp hc,
    List.reverse_reverse]

theorem isWord_of_isCount {text : String} (h : isCount text = true) :
    IsWord (trim text.toList) := by
  have hdigits : ∀ digits : List Char, (readDigits? digits).any (fun n =>
      IntRange.unsigned64.contains n) = true → IsWord digits := by
    intro digits hd
    unfold readDigits? at hd
    split at hd
    · next hall =>
      refine ⟨hall.1, fun c hc => ?_⟩
      rw [← Bool.not_eq_true]
      intro hseparator
      have hdigit := List.all_eq_true.mp hall.2 c hc
      rw [isDigit_eq_false hseparator] at hdigit
      cases hdigit
    · cases hd
  unfold LengthSource.isCount at h
  dsimp only at h
  split at h
  · next rest htrim =>
    rw [htrim]
    exact ⟨List.cons_ne_nil _ _, List.forall_mem_cons.mpr ⟨rfl, (hdigits rest h).letters⟩⟩
  · exact hdigits _ h

theorem camelCase_of_isCount {text : String} (h : isCount text = true) :
    (camelCase text).toList = trim text.toList := by
  obtain ⟨before, after, htext, hbefore, hafter⟩ := exists_trim text.toList
  have hspells : SpellsWords text.toList [trim text.toList] := by
    have hparted : Parted after := fun c hc => hafter c (List.mem_of_mem_head? hc)
    have := SpellsWords.word hbefore (isWord_of_isCount h) hparted (.blank hafter)
    rwa [← htext] at this
  rw [camelCase, words_iff.mpr hspells]
  simp

theorem isCount_camelCase {text : String} (h : isCount text = true) :
    isCount (camelCase text) = true := by
  rw [isCount, camelCase_of_isCount h, trim_of_isWord (isWord_of_isCount h)]
  exact h

theorem LengthSource.Reserved.camelCase {text : String} (h : Reserved text) :
    Reserved (DescriptorMarshal.camelCase text) := by
  rcases h with rfl | h
  · exact .inl (by decide)
  · exact .inr (isCount_camelCase h)

theorem ofJson?_of_not_reserved {text : String} (h : ¬ Reserved text) :
    LengthSource.ofJson? (some (.string text)) = some (.member (camelCase text)) := by
  obtain ⟨hstrlen, hcount⟩ := not_or.mp h
  simp [LengthSource.ofJson?, hstrlen, hcount]

theorem ofJson?_of_reserved {text : String} (h : Reserved text) :
    LengthSource.ofJson? (some (.string text)) =
      if text = "strlen" then some .strlen else none := by
  rcases h with rfl | h
  · rfl
  · simp [LengthSource.ofJson?, h]

/-- In camel case a length is read alike unless it has a meaning of its own there alone. -/
theorem ofJson?_camelCase_iff (text : String) :
    LengthSource.ofJson? (some (.string (camelCase text))) =
        LengthSource.ofJson? (some (.string text)) ↔
      (Reserved (camelCase text) → Reserved text) := by
  by_cases htext : Reserved text
  · refine iff_of_true ?_ fun _ => htext
    rw [ofJson?_of_reserved htext, ofJson?_of_reserved htext.camelCase]
    rcases htext with rfl | hcount
    · rfl
    · have hneither : ∀ other, isCount other = true → other ≠ "strlen" := by
        rintro _ h rfl
        exact absurd h (by decide)
      rw [if_neg (hneither _ hcount), if_neg (hneither _ (isCount_camelCase hcount))]
  · by_cases hcamel : Reserved (camelCase text)
    · refine iff_of_false ?_ fun h => htext (h hcamel)
      rw [ofJson?_of_reserved hcamel, ofJson?_of_not_reserved htext]
      split <;> nofun
    · refine iff_of_true ?_ fun h => absurd h hcamel
      rw [ofJson?_of_not_reserved hcamel, ofJson?_of_not_reserved htext, camelCase_camelCase]

theorem NamesSibling.camelCase {length name : String} (h : NamesSibling length name) :
    DescriptorMarshal.camelCase length = DescriptorMarshal.camelCase name := by
  cases h with
  | words hlength hname =>
    rw [DescriptorMarshal.camelCase, words_iff.mpr hlength, DescriptorMarshal.camelCase,
      words_iff.mpr hname]
  | camel hsame => rw [hsame, camelCase_camelCase]

theorem Resolver.resolve_length {resolver : Resolver} {owner name : String} {raw : Idl.Member}
    {type : TypeDescriptor} (h : resolver.resolve owner name raw = .ok type)
    (ha : type.isArray = true) :
    type.length = (LengthSource.ofJson? raw.length).bind (·.member?) := by
  unfold Resolver.resolve at h
  cases hc : resolver.classify? raw.typeName with
  | none => simp [hc] at h
  | some named =>
    cases hi : Indirection.ofText? raw.indirection with
    | none => simp [hc, hi] at h
    | some indirection =>
      cases hl : LengthSource.ofJson? raw.length with
      | none => simp [hc, hi, hl] at h
      | some length =>
        simp only [hc, hi, hl] at h
        split at h
        · cases h
        split at h
        · cases h
        split at h
        · cases h
        cases h
        exact if_pos ha

theorem Assembler.member_length {assembler : Assembler} {owner text : String}
    {raw sibling : Idl.Member} {member other : Member} (hl : raw.length = some (.string text))
    (hn : NamesSibling text sibling.name) (ht : ¬ Reserved text)
    (h : assembler.member owner raw = .ok member) (hs : assembler.member owner sibling = .ok other)
    (ha : member.type.isArray = true) : member.type.length = some other.name := by
  obtain ⟨-, type, hresolve, -, htype⟩ := member_parts h
  obtain ⟨hname, -⟩ := member_parts hs
  rw [htype] at ha ⊢
  rw [show ({ type with initialValue := _ } : TypeDescriptor).length = type.length from rfl,
    Resolver.resolve_length hresolve ha, hl, ofJson?_of_not_reserved ht, hn.camelCase, hname]
  rfl

/-- Camel case is stable and keeps the Pascal case, and no casing of the two has separators. The
casings depend on the words of a text alone, which are those that it spells. A length and its camel
case are read alike unless the latter alone is no name; and a length that is one names the sibling
whose words or camel-cased name it has. -/
theorem casing_stable :
    (∀ text, camelCase (camelCase text) = camelCase text ∧
      pascalCase (camelCase text) = pascalCase text) ∧
    (∀ text c, c ∈ (camelCase text).toList ∨ c ∈ (pascalCase text).toList →
      isSeparator c = false) ∧
    (∀ text parts, words text = parts ↔ SpellsWords text.toList parts) ∧
    (∀ first second parts, SpellsWords first.toList parts → SpellsWords second.toList parts →
      camelCase first = camelCase second ∧ pascalCase first = pascalCase second ∧
        upperSnakeCase first = upperSnakeCase second) ∧
    (∀ text, LengthSource.ofJson? (some (.string (camelCase text))) =
        LengthSource.ofJson? (some (.string text)) ↔
      (Reserved (camelCase text) → Reserved text)) ∧
    ∀ (assembler : Assembler) (owner text : String) (raw sibling : Idl.Member)
      (member other : Member), raw.length = some (.string text) →
      NamesSibling text sibling.name → ¬ Reserved text →
      assembler.member owner raw = .ok member → assembler.member owner sibling = .ok other →
      member.type.isArray = true → member.type.length = some other.name := by
  refine ⟨fun text => ⟨camelCase_camelCase text, pascalCase_camelCase text⟩, ?_, ?_, ?_,
    ofJson?_camelCase_iff, ?_⟩
  · rintro text c (hc | hc)
    · exact camelCase_letters text c hc
    · exact pascalCase_letters text c hc
  · exact fun _ _ => words_iff
  · intro first second parts hfirst hsecond
    have hwords : words first = words second :=
      (words_iff.mpr hfirst).trans (words_iff.mpr hsecond).symm
    rw [camelCase, camelCase, pascalCase, pascalCase, upperSnakeCase, upperSnakeCase, hwords]
    exact ⟨rfl, rfl, rfl⟩
  · exact fun _ _ _ _ _ _ _ => Assembler.member_length

def primitives : Assembler := ⟨[], ⟨⟨[], []⟩, .standard, []⟩⟩

def counterMember (name : String) : Idl.Member := .ofType name "uint32_t"

def bytesMember (length : String) : Idl.Member :=
  ⟨"data", "uint8_t", some "const*", some (.string length), false, none, false⟩

theorem casing_stable_itemCount : ∃ parts member other,
    SpellsWords "item_-count ".toList parts ∧ SpellsWords "item count".toList parts ∧
    camelCase "item_-count " = camelCase "item count" ∧
    NamesSibling "item_-count " "item count" ∧ ¬ Reserved "item_-count " ∧
    primitives.member "GPUTally" (bytesMember "item_-count ") = .ok member ∧
    primitives.member "GPUTally" (counterMember "item count") = .ok other ∧
    member.type.isArray = true ∧ member.type.length = some other.name := by
  obtain ⟨-, -, hspells, hspelled, -, hlength⟩ := casing_stable
  have hpadded := (hspells "item_-count " ["item".toList, "count".toList]).mp (by decide)
  have hplain := (hspells "item count" ["item".toList, "count".toList]).mp (by decide)
  have hnames : NamesSibling "item_-count " "item count" := .words hpadded hplain
  have hfree : ¬ Reserved "item_-count " := by
    rintro (h | h)
    · exact absurd h (by decide)
    · exact absurd h (by decide)
  exact ⟨_, _, _, hpadded, hplain, (hspelled _ _ _ hpadded hplain).1, hnames, hfree, rfl, rfl, rfl,
    hlength primitives "GPUTally" _ (bytesMember "item_-count ") (counterMember "item count") _ _
      rfl hnames hfree rfl rfl rfl⟩

def tallyDocument (counter length : String) : Idl.Document :=
  [("tally", .object [("category", .string "structure"), ("members", .array [
    .object [("name", .string counter), ("type", .string "uint32_t")],
    .object [("name", .string "data"), ("type", .string "uint8_t"),
      ("annotation", .string "const*"), ("length", .string length)]])])]

/-- The length names the sibling of the word, and the array is counted by it. -/
def FindsCounter (word length : String) : Prop :=
  NamesSibling length word ∧
    ∃ schema counter data, assemble .standard (tallyDocument word length) = .ok schema ∧
      schema.structures.map (·.members) = [[counter, data]] ∧
        counter.name = camelCase length ∧ data.type.length = some counter.name

/-- A sibling named `strlen` or by a number is found by another spelling of its word, but not in
camel case. -/
theorem tally_misread :
    FindsCounter "strlen" " strlen" ∧ NamesSibling "strlen" "strlen" ∧
    assemble .standard (tallyDocument "strlen" "strlen") =
      .error (.unsupportedShape "GPUTally" "data" .strlenOfOther) ∧
    FindsCounter "2" "2_" ∧ NamesSibling "2" "2" ∧
    assemble .standard (tallyDocument "2" "2") =
      .error (.unsupportedShape "GPUTally" "data" .fixedSizeArray) := by
  have hpadded : SpellsWords " strlen".toList ["strlen".toList] := words_iff.mp (by decide)
  have hplain : SpellsWords "strlen".toList ["strlen".toList] := words_iff.mp (by decide)
  have hended : SpellsWords "2_".toList ["2".toList] := words_iff.mp (by decide)
  have hdigit : SpellsWords "2".toList ["2".toList] := words_iff.mp (by decide)
  exact ⟨⟨.words hpadded hplain, _, _, _, rfl, rfl, rfl, rfl⟩, .words hplain hplain, rfl,
    ⟨.words hended hdigit, _, _, _, rfl, rfl, rfl, rfl⟩, .words hdigit hdigit, rfl⟩

end DescriptorMarshal
