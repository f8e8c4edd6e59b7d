import DescriptorMarshal.Proofs.Balance
import DescriptorMarshal.Proofs.StringLiteral

/-!
Names in rendered source. Each name of a table, and each member that a fill function asks its
object for, is put between quotes as it is. What a compiler reads there is the name exactly when
each of its characters is plain; no other statement spells a name in these ways.
-/

namespace DescriptorMarshal.Cpp

open Code

/-- Is the text an entry of a map, a case of a switch or a statement that asks an object for one of
its properties? Each has a name in its first string literal. -/
def spells (text : String) : Bool :=
  begins "\x7b " text && ends " \x7d," text || begins "case " text && ends "\";" text ||
    begins "if (!IsPresent(" text && ends ")) \x7b" text ||
    begins "if (IsSet(" text && ends ")) \x7b" text ||
    begins "Napi::Value value = obj.Get(" text && ends ");" text

def spelling? (text : String) : Option String := if spells text then some text else none

/-- A statement with a name in quotes. -/
structure Spelling where
  /-- What stands before the opening quote. -/
  head : String
  name : String
  /-- What stands behind the closing quote. -/
  tail : String

def Spelling.text (spelling : Spelling) : String :=
  spelling.head ++ quoted spelling.name ++ spelling.tail

def entrySpelling (entry : String × UInt32) : Spelling :=
  ⟨"\x7b ", entry.1, s!", {entry.2.toNat}" ++ " \x7d,"⟩

def caseSpelling (row : UInt32 × String) : Spelling :=
  ⟨s!"case {row.1.toNat}: return ", row.2, ";"⟩

def presenceSpelling (member : MemberPlan) : Spelling :=
  match member.presence with
  | .required => ⟨"if (!IsPresent(obj, ", member.name, ")) \x7b"⟩
  | .optional => ⟨"if (IsSet(obj, ", member.name, ")) \x7b"⟩

def valueSpelling (member : MemberPlan) : Spelling :=
  ⟨"Napi::Value value = obj.Get(", member.name, ");"⟩

def memberSpellings (member : MemberPlan) : List Spelling :=
  [presenceSpelling member, valueSpelling member]

def tableSpellings (table : NameTable) : List Spelling :=
  table.byName.map entrySpelling ++ table.byValue.map caseSpelling

/-- Every name of a set in the order of the source: tables first, then the members of each plan. -/
def spellings (set : PlanSet) : List Spelling :=
  set.tables.flatMap tableSpellings ++ set.plans.flatMap fun plan =>
    plan.members.flatMap memberSpellings

/-! ### Statements that spell none -/

def silent (first : List Char) : Bool :=
  differs ['\x7b', ' '] first && differs ['c', 'a', 's', 'e', ' '] first &&
    differs ['i', 'f', ' ', '(', '!', 'I'] first && differs ['i', 'f', ' ', '(', 'I'] first &&
    differs ['N', 'a', 'p', 'i', ':', ':', 'V', 'a', 'l', 'u', 'e', ' ', 'v'] first

/-- The code spells no name. -/
def Silent (code : Code) : Prop := Yields spelling? code []

section

variable {first : List Char} {text header message check expected location source target path
  name native map : String} {body code after : Code} {found : List String} {plan : StructPlan}
  {member : MemberPlan}

theorem Silent.nil : Silent [] := Yields.nil

theorem Silent.append (h : Silent code) (ha : Silent after) : Silent (code ++ after) :=
  Yields.append h ha

theorem spelling?_eq_none (ho : Opens first text) (h : silent first = true) :
    spelling? text = none := by
  unfold silent at h
  simp only [Bool.and_eq_true] at h
  obtain ⟨⟨⟨⟨hentry, hcase⟩, hpresent⟩, hset⟩, hget⟩ := h
  have hentry : begins "\x7b " text = false := begins_eq_false ho (by decide) hentry
  have hcase : begins "case " text = false := begins_eq_false ho (by decide) hcase
  have hpresent : begins "if (!IsPresent(" text = false := begins_eq_false ho (by decide) hpresent
  have hset : begins "if (IsSet(" text = false := begins_eq_false ho (by decide) hset
  have hget : begins "Napi::Value value = obj.Get(" text = false :=
    begins_eq_false ho (by decide) hget
  exact if_neg (by simp [spells, hentry, hcase, hpresent, hset, hget])

theorem silent_line (ho : Opens first text) (h : silent first = true) : Silent (line text) :=
  .skip (spelling?_eq_none ho h)

theorem spelling?_brace (ending : String) : spelling? ("\x7d" ++ ending) = none :=
  spelling?_eq_none (Opens.literal ['\x7d']).append rfl

theorem spells_block (ho : Opens first header) (h : silent first = true)
    (hb : Yields spelling? body found) : Yields spelling? (block header body) found :=
  hb.blockEnding (silent_line ho.append.append h) (spelling?_brace "")

theorem silent_failWith : Silent (failWith message location) :=
  silent_line (Opens.literal _).append.append.append.append rfl

theorem silent_require (hc : Opens first check)
    (h : silent (['i', 'f', ' ', '(', '!'] ++ first) = true) :
    Silent (require check expected location) := by
  have ho : Opens (['i', 'f', ' ', '(', '!'] ++ first) s!"if (!{check})" := (hc.after _).append
  exact spells_block ho h silent_failWith

theorem silent_requireAll {checks : List String} :
    Silent (requireAll checks expected location) :=
  silent_require (Opens.literal ['(']).append.append rfl

theorem Spot.silent_require (h : Spot source target location) (method expected : String) :
    Silent (require (source ++ method) expected location) := by
  rcases h.source with rfl | rfl
  · exact Cpp.silent_require (Opens.literal _).append rfl
  · exact Cpp.silent_require (Opens.literal _).append rfl

theorem silent_writeLength (plan : StructPlan) (member : MemberPlan) (count : String) :
    Silent (writeLength plan member count) := by
  unfold writeLength
  cases member.length with
  | none => exact .nil
  | some length => exact silent_line (Opens.literal _).append.append.append.append.append.append rfl

theorem silent_fillArray (elementType : String) (hb : Silent body) :
    Silent (fillArray plan member elementType body) := by
  have hcheck : Silent (require "value.IsArray()" "Array" (memberLocation member)) :=
    silent_require (Opens.literal _) rfl
  have harray : Silent (line "Napi::Array array = value.As<Napi::Array>();") :=
    silent_line (Opens.literal _) rfl
  have hlength : Silent (line "uint32_t length = array.Length();") :=
    silent_line (Opens.literal _) rfl
  have hallocate : Silent (line s!"auto* data = new {elementType}[length]();") :=
    silent_line (Opens.literal _).append.append rfl
  have hstore : Silent (line s!"descriptor.{member.name} = data;") :=
    silent_line (Opens.literal _).append.append rfl
  have hitem : Silent (line "Napi::Value item = array.Get(i);") :=
    silent_line (Opens.literal _) rfl
  have hloop : Silent (block "for (uint32_t i = 0; i < length; ++i)"
      (line "Napi::Value item = array.Get(i);" ++ body)) :=
    spells_block (Opens.literal _) rfl (hitem.append hb)
  exact (((((hcheck.append harray).append hlength).append hallocate).append hstore).append
    (silent_writeLength plan member "length")).append hloop

theorem silent_fillNested (nested source target path : String) :
    Silent (fillNested nested source target path) :=
  spells_block
    (Opens.literal _).append.append.append.append.append.append.append.append rfl
    (silent_line (Opens.literal _) rfl)

theorem silent_newElement {slot : String} (nested : String) (hs : Opens ['d'] slot) :
    Silent (newElement name nested slot) := by
  have hallocate : Silent (line (s!"auto* element = new {name}" ++ "\x7b\x7d;")) :=
    silent_line (Opens.literal _).append.append rfl
  have hstore : Silent (line s!"{slot} = element;") := silent_line hs.append rfl
  have hreset : Silent (line s!"Reset{nested}(*element);") :=
    silent_line (Opens.literal _).append.append rfl
  exact (hallocate.append hstore).append hreset

theorem silent_unwrapObject (className : String) (h : Spot source target location) :
    Silent (unwrapObject className source target location) :=
  silent_requireAll.append (silent_line h.target.append.append.append.append.append.append rfl)

theorem silent_lookUpName (map native : String) (h : Spot source target location) :
    Silent (lookUpName map native source target location) := by
  have hfind : Silent (line
      s!"auto found = {map}.find({source}.As<Napi::String>().Utf8Value());") :=
    silent_line (Opens.literal _).append.append.append.append rfl
  have hmissing : Silent (block s!"if (found == {map}.end())"
      (failWith s!"unknown value of '{map}' for " location)) :=
    spells_block (Opens.literal _).append.append rfl silent_failWith
  have hstore : Silent (line s!"{target} = static_cast<{native}>(found->second);") :=
    silent_line h.target.append.append.append rfl
  exact (((h.silent_require ".IsString()" "String").append hfind).append hmissing).append hstore

theorem silent_castBits (native : String) (h : Spot source target location) :
    Silent (castBits native source target location) :=
  (h.silent_require ".IsNumber()" "Number").append
    (silent_line h.target.append.append.append.append.append rfl)

theorem silent_readWide (getter native : String) (h : Spot "value" target location) :
    Silent (readWide getter native target location) := by
  have hbig : Silent (line "if (value.IsBigInt()) \x7b") := silent_line (Opens.literal _) rfl
  have hflag : Silent (line "bool lossless;") := silent_line (Opens.literal _) rfl
  have hget : Silent (line s!"{target} = value.As<Napi::BigInt>().{getter}(&lossless);") :=
    silent_line h.target.append.append.append rfl
  have hloss : Silent (block "if (!lossless)"
      (failWith s!"expected type 'BigInt within {native}' for " location)) :=
    spells_block (Opens.literal _) rfl silent_failWith
  have hnumber : Silent (line "\x7d else if (value.IsNumber()) \x7b") :=
    silent_line (Opens.literal _) rfl
  have hcast : Silent (line
      s!"{target} = static_cast<{native}>(value.As<Napi::Number>().DoubleValue());") :=
    silent_line h.target.append.append.append rfl
  have helse : Silent (line "\x7d else \x7b") := silent_line (Opens.literal _) rfl
  have hfail : Silent (failWith "expected type 'BigInt' for " location) := silent_failWith
  have hclose : Silent (line "\x7d") := silent_line (Opens.literal _) rfl
  exact (((((hbig.append ((hflag.append hget).append hloss).indent).append hnumber).append
    hcast.indent).append helse).append hfail.indent).append hclose

theorem silent_readNumber (type : NumberType) (native : String)
    (h : Spot "value" target location) : Silent (readNumber type native target location) := by
  have hcast : Silent (require "value.IsNumber()" "Number" location ++
      line (s!"{target} = static_cast<{native}>(value.As<Napi::Number>()." ++
        s!"{numberGetter type}());")) :=
    (h.silent_require ".IsNumber()" "Number").append
      (silent_line h.target.append.append.append.append rfl)
  cases type with
  | i64 | u64 => exact silent_readWide _ native h
  | f32 | f64 | i8 | i16 | i32 | u8 | u16 | u32 => exact hcast

theorem silent_bindBuffer (plan : StructPlan) (member : MemberPlan) (kind : Option ArrayKind) :
    Silent (bindBuffer plan member kind) := by
  have h := spot_member member
  cases kind with
  | some kind =>
    have harray : Silent (line "Napi::TypedArray array = value.As<Napi::TypedArray>();") :=
      silent_line (Opens.literal _) rfl
    have hbytes : Silent (line
        ("uint8_t* bytes = static_cast<uint8_t*>(array.ArrayBuffer().Data())" ++
          " + array.ByteOffset();")) :=
      silent_line (Opens.literal _).append rfl
    have hstore : Silent (line (s!"descriptor.{member.name} = " ++
        s!"reinterpret_cast<const {member.nativeType}*>(bytes);")) :=
      silent_line (Opens.literal _).append.append.append rfl
    exact (((silent_requireAll.append harray).append hbytes).append hstore).append
      (silent_writeLength plan member _)
  | none =>
    have hbuffer : Silent (line "Napi::ArrayBuffer buffer = value.As<Napi::ArrayBuffer>();") :=
      silent_line (Opens.literal _) rfl
    have hstore : Silent (line s!"descriptor.{member.name} = buffer.Data();") :=
      silent_line (Opens.literal _).append.append rfl
    exact (((h.silent_require ".IsArrayBuffer()" "ArrayBuffer").append hbuffer).append
      hstore).append (silent_writeLength plan member _)

theorem silent_marshalMember {set : PlanSet} (h : marshalMember set plan member = .ok code) :
    Silent code := by
  have hmember := spot_member member
  have helement := spot_element member
  unfold marshalMember at h
  cases hmarshal : member.marshal with
  | unwrap className =>
    rw [hmarshal] at h
    cases h
    exact silent_unwrapObject className hmember
  | unwrapArray className =>
    rw [hmarshal] at h
    cases h
    exact silent_fillArray _ (silent_unwrapObject className helement)
  | nested name byReference =>
    rw [hmarshal] at h
    obtain ⟨nested, -, h⟩ := ok_of_bind h
    cases h
    have hcheck := hmember.silent_require ".IsObject()" nested
    cases byReference with
    | false => exact hcheck.append (silent_fillNested _ _ _ _)
    | true =>
      exact hcheck.append ((silent_newElement nested hmember.target).append
        (silent_fillNested _ _ _ _))
  | nestedArray name ofPointers =>
    rw [hmarshal] at h
    obtain ⟨nested, -, h⟩ := ok_of_bind h
    cases h
    have hcheck := helement.silent_require ".IsObject()" nested
    cases ofPointers with
    | false =>
      have hreset : Silent (line s!"Reset{nested}(data[i]);") :=
        silent_line (Opens.literal _).append.append rfl
      exact silent_fillArray _ (hcheck.append (hreset.append (silent_fillNested _ _ _ _)))
    | true =>
      exact silent_fillArray _ (hcheck.append ((silent_newElement nested helement.target).append
        (silent_fillNested _ _ _ _)))
  | number type =>
    rw [hmarshal] at h
    cases h
    exact silent_readNumber type _ hmember
  | boolean =>
    rw [hmarshal] at h
    cases h
    have hstore : ∀ target : String, Opens ['d'] target →
        Silent (line s!"{target} = value.As<Napi::Boolean>().Value();") :=
      fun target ho => silent_line ho.append rfl
    exact (hmember.silent_require ".IsBoolean()" "Boolean").append (hstore _ hmember.target)
  | enumeration name =>
    rw [hmarshal] at h
    obtain ⟨table, -, h⟩ := ok_of_bind h
    cases h
    exact silent_lookUpName table _ hmember
  | enumerationArray name =>
    rw [hmarshal] at h
    obtain ⟨table, -, h⟩ := ok_of_bind h
    cases h
    exact silent_fillArray _ (silent_lookUpName table _ helement)
  | bitmask =>
    rw [hmarshal] at h
    cases h
    exact silent_castBits _ hmember
  | bitmaskArray =>
    rw [hmarshal] at h
    cases h
    exact silent_fillArray _ (silent_castBits _ helement)
  | string =>
    rw [hmarshal] at h
    cases h
    have hcopy : ∀ target : String, Opens ['d'] target →
        Silent (line s!"{target} = CopyString(value.As<Napi::String>());") :=
      fun target ho => silent_line ho.append rfl
    exact (hmember.silent_require ".IsString()" "String").append (hcopy _ hmember.target)
  | buffer kind =>
    rw [hmarshal] at h
    cases h
    exact silent_bindBuffer plan member kind

theorem silent_resetField {set : PlanSet} {field : FieldPlan}
    (h : resetField set field = .ok code) : Silent code := by
  have ho : Opens ['d'] ("descriptor." ++ field.name) := (Opens.literal _).append.shorten ⟨_, rfl⟩
  unfold resetField at h
  generalize "descriptor." ++ field.name = target at h ho
  cases hi : field.init with
  | null =>
    rw [hi] at h
    cases h
    exact silent_line ho.append rfl
  | bool | number =>
    rw [hi] at h
    cases h
    exact silent_line ho.append.append.append rfl
  | enumeration | bitmask =>
    rw [hi] at h
    cases h
    exact silent_line ho.append.append.append.append.append rfl
  | embedded name =>
    rw [hi] at h
    obtain ⟨nested, -, h⟩ := ok_of_bind h
    cases h
    exact silent_line (Opens.literal _).append.append.append.append rfl

theorem silent_releasePointer {field : String} (ho : Opens ['d'] field) (hb : Silent body) :
    Silent (releasePointer field body) := by
  have hheader : Opens ['i', 'f', ' ', '(', 'd'] s!"if ({field} != nullptr)" :=
    (ho.after ['i', 'f', ' ', '(']).append
  have hclear : Silent (line s!"{field} = nullptr;") := silent_line ho.append rfl
  exact spells_block hheader rfl (hb.append hclear)

theorem silent_forEachElement (length : LengthField) (hb : Silent body) :
    Silent (forEachElement length body) :=
  spells_block (Opens.literal _).append.append rfl hb

theorem silent_releaseMember (member : MemberPlan) (nested : Option String) :
    Silent (releaseMember member nested) := by
  have ho : Opens ['d'] ("descriptor." ++ member.name) :=
    (Opens.literal _).append.shorten ⟨_, rfl⟩
  have hdelete : Silent (line "delete[] data;") := silent_line (Opens.literal _) rfl
  unfold releaseMember
  dsimp only
  generalize "descriptor." ++ member.name = field at ho ⊢
  split
  case h_1 => exact silent_line (Opens.literal _).append.append.append.append rfl
  case h_2 nested _ =>
    have hbind : Silent (line s!"auto* element = const_cast<{member.nativeType}*>({field});") :=
      silent_line (Opens.literal _).append.append.append.append rfl
    have hdestroy : Silent (line s!"Destroy{nested}(*element);") :=
      silent_line (Opens.literal _).append.append rfl
    have hfree : Silent (line "delete element;") := silent_line (Opens.literal _) rfl
    exact silent_releasePointer ho ((hbind.append hdestroy).append hfree)
  case h_3 =>
    apply silent_releasePointer ho
    split
    case h_1 nested length _ =>
      have hbind : Silent (line s!"auto* data = const_cast<{member.nativeType}*>({field});") :=
        silent_line (Opens.literal _).append.append.append.append rfl
      have hdestroy : Silent (line s!"Destroy{nested}(data[i]);") :=
        silent_line (Opens.literal _).append.append rfl
      exact (hbind.append (silent_forEachElement length hdestroy)).append hdelete
    case h_2 => exact silent_line (Opens.literal _).append.append rfl
  case h_4 nested _ =>
    have hbind : Silent (line s!"auto** data = const_cast<{member.nativeType}**>({field});") :=
      silent_line (Opens.literal _).append.append.append.append rfl
    apply silent_releasePointer ho
    split
    case h_1 length _ =>
      have hdestroy : Silent (line s!"Destroy{nested}(*data[i]);") :=
        silent_line (Opens.literal _).append.append rfl
      have hfree : Silent (line "delete data[i];") := silent_line (Opens.literal _) rfl
      have hcheck : Silent (block "if (data[i] != nullptr)"
          (line s!"Destroy{nested}(*data[i]);" ++ line "delete data[i];")) :=
        spells_block (Opens.literal _) rfl (hdestroy.append hfree)
      exact (hbind.append (silent_forEachElement length hcheck)).append hdelete
    case h_2 => exact (hbind.append .nil).append hdelete
  case h_5 => exact .nil

end

/-! ### What a whole source spells -/

section

variable {α β : Type} {read : String → Option α} {items : List β} {parts : List Code}

theorem Yields.flatMap {f : β → Code} {g : β → List α}
    (h : ∀ item ∈ items, Yields read (f item) (g item)) :
    Yields read (items.flatMap f) (items.flatMap g) := by
  induction items with
  | nil => exact .nil
  | cons item rest ih =>
    rw [List.flatMap_cons, List.flatMap_cons]
    exact (h item List.mem_cons_self).append
      (ih fun other ho => h other (List.mem_cons_of_mem _ ho))

theorem Yields.flatten_mapM {f : β → Except RenderError Code} {g : β → List α}
    (hp : items.mapM f = .ok parts)
    (h : ∀ item part, f item = .ok part → Yields read part (g item)) :
    Yields read parts.flatten (items.flatMap g) := by
  have hall := (forall₂_of_mapM hp).imp h
  clear hp
  induction hall with
  | nil => exact .nil
  | cons hpart _ ih =>
    rw [List.flatten_cons, List.flatMap_cons]
    exact hpart.append ih

theorem Silent.flatMap {f : β → Code} (h : ∀ item ∈ items, Silent (f item)) :
    Silent (items.flatMap f) := by
  have := Yields.flatMap h
  rwa [List.flatMap_eq_nil_iff.mpr fun _ _ => rfl] at this

theorem Silent.flatten_mapM {f : β → Except RenderError Code} (hp : items.mapM f = .ok parts)
    (h : ∀ item part, f item = .ok part → Silent part) : Silent parts.flatten := by
  have := Yields.flatten_mapM hp h
  rwa [List.flatMap_eq_nil_iff.mpr fun _ _ => rfl] at this

end

section

variable {set : PlanSet} {plan : StructPlan} {member : MemberPlan} {table : NameTable}
  {spelling : Spelling} {code : Code}

theorem Silent.before {found : List String} {after : Code} (h : Silent code)
    (ha : Yields spelling? after found) : Yields spelling? (code ++ after) found :=
  Yields.append h ha

theorem Yields.behind {found : List String} {after : Code} (h : Yields spelling? code found)
    (hs : Silent after) : Yields spelling? (code ++ after) found := by
  have := Yields.append h hs
  rwa [List.append_nil] at this

theorem silent_gap : Silent gap := Yields.skip (by decide)

theorem silent_helpers : Silent helpers := by
  have hblock : ∀ (first : List Char) (body : Code), silent first = true → Silent body →
      Silent (block (String.ofList first) body) :=
    fun first body hs hb => spells_block (Opens.literal first) hs hb
  have hline : ∀ first : List Char, silent first = true → Silent (line (String.ofList first)) :=
    fun first hs => silent_line (Opens.literal first) hs
  refine Silent.append (Silent.append (Silent.append (Silent.append (Silent.append (Silent.append
    (Silent.append (Silent.append ?_ silent_gap) ?_) silent_gap) ?_) silent_gap) ?_) silent_gap) ?_
  · exact hblock _ _ rfl (((hline _ rfl).append (hline _ rfl)).append (hline _ rfl))
  · exact hblock _ _ rfl (hline _ rfl)
  · exact hblock _ _ rfl (hline _ rfl)
  · exact hblock _ _ rfl (hline _ rfl)
  · exact hblock _ _ rfl ((((hline _ rfl).append (hline _ rfl)).append (hline _ rfl)).append
      (hline _ rfl))

/-! ### Spellings in the source -/

theorem ends_eq_true {last : List Char} {text tail : String} (hc : Closes last text)
    (h : tail.toList <:+ last) : ends tail text = true :=
  List.isSuffixOf_iff_suffix.mpr (h.trans hc)

theorem found_entry (entry : String × UInt32) :
    spelling? (entrySpelling entry).text = some (entrySpelling entry).text := by
  have hb : begins "\x7b " (entrySpelling entry).text = true :=
    begins_eq_true (Opens.literal _).append.append (by decide)
  have he : ends " \x7d," (entrySpelling entry).text = true :=
    ends_eq_true (Closes.literal _ _).append (by decide)
  exact if_pos (by simp [spells, hb, he])

theorem found_case (row : UInt32 × String) :
    spelling? (caseSpelling row).text = some (caseSpelling row).text := by
  have hb : begins "case " (caseSpelling row).text = true :=
    begins_eq_true (Opens.literal _).append.append.append.append (by decide)
  have he : ends "\";" (caseSpelling row).text = true :=
    ends_eq_true ((Closes.literal _ ['"']).append.before [';']) (by decide)
  exact if_pos (by simp [spells, hb, he])

theorem found_presence (member : MemberPlan) :
    spelling? (presenceSpelling member).text = some (presenceSpelling member).text := by
  have he : ∀ front : String, ends ")) \x7b" (front ++ ")) \x7b") = true :=
    fun front => ends_eq_true (Closes.literal front _) (by decide)
  unfold presenceSpelling
  cases member.presence with
  | required =>
    have hb : ∀ rest tail : String,
        begins "if (!IsPresent(" ("if (!IsPresent(obj, " ++ rest ++ tail) = true :=
      fun rest tail => begins_eq_true (Opens.literal _).append.append (by decide)
    exact if_pos (by simp [spells, Spelling.text, hb, he])
  | optional =>
    have hb : ∀ rest tail : String,
        begins "if (IsSet(" ("if (IsSet(obj, " ++ rest ++ tail) = true :=
      fun rest tail => begins_eq_true (Opens.literal _).append.append (by decide)
    exact if_pos (by simp [spells, Spelling.text, hb, he])

theorem found_value (member : MemberPlan) :
    spelling? (valueSpelling member).text = some (valueSpelling member).text := by
  have hb : begins "Napi::Value value = obj.Get(" (valueSpelling member).text = true :=
    begins_eq_true (Opens.literal _).append.append (by decide)
  have he : ends ");" (valueSpelling member).text = true :=
    ends_eq_true (Closes.literal _ _) (by decide)
  exact if_pos (by simp [spells, hb, he])

theorem mapEntry_eq (entry : String × UInt32) :
    mapEntry entry = line (entrySpelling entry).text := by
  unfold mapEntry entrySpelling Spelling.text
  simp only [String.append_assoc, toString]

theorem defineTable_spells (table : NameTable) :
    Yields spelling? (defineTable table) ((tableSpellings table).map Spelling.text) := by
  have hkeys : Yields spelling? (table.byName.flatMap mapEntry)
      (table.byName.flatMap fun entry => [(entrySpelling entry).text]) :=
    Yields.flatMap fun entry _ => by
      rw [mapEntry_eq]
      exact .keep (found_entry entry)
  have hnames : Yields spelling? (table.byValue.flatMap switchCase)
      (table.byValue.flatMap fun row => [(caseSpelling row).text]) :=
    Yields.flatMap fun row _ => .keep (found_case row)
  have hheader : Silent (line
      (s!"std::unordered_map<std::string, uint32_t> {table.externalName} = " ++ "\x7b")) :=
    silent_line (Opens.literal _).append.append.append rfl
  have hswitch : Yields spelling? (block "switch (static_cast<uint32_t>(value))" _) _ :=
    spells_block (Opens.literal _) rfl hnames
  have hreturn : Silent (line "return \"\";") := silent_line (Opens.literal _) rfl
  have hfunction : Yields spelling?
      (block s!"std::string {table.externalName}ToString({table.declarationName} value)" _) _ :=
    spells_block (Opens.literal _).append.append.append.append rfl (hswitch.behind hreturn)
  have hmap := hkeys.blockEnding hheader (spelling?_brace ";")
  rw [tableSpellings, List.map_append, List.map_map, List.map_map, List.map_eq_flatMap,
    List.map_eq_flatMap]
  exact ((hmap.behind silent_gap).append hfunction).behind silent_gap

theorem append_closing (text : String) : text ++ "))" ++ " " ++ "\x7b" = text ++ ")) \x7b" := by
  rw [String.append_assoc, String.append_assoc]
  rfl

theorem fillMember_spells (h : fillMember set plan member = .ok code) :
    Yields spelling? code ((memberSpellings member).map Spelling.text) := by
  obtain ⟨body, hbody, h⟩ := ok_of_bind h
  cases h
  have hpresence := found_presence member
  have hvalue : Yields spelling?
      (line s!"Napi::Value value = obj.Get({quoted member.name});" ++ body)
      [(valueSpelling member).text] :=
    (Yields.keep (found_value member)).behind (silent_marshalMember hbody)
  unfold memberSpellings
  unfold presenceSpelling at hpresence ⊢
  cases hp : member.presence with
  | required =>
    rw [hp] at hpresence
    have hheader : Yields spelling?
        (line (s!"if (!IsPresent(obj, {quoted member.name}))" ++ " " ++ "\x7b")) _ :=
      .keep ((congrArg spelling? (append_closing _)).trans hpresence)
    have hfail : Silent (failWith "missing required member " (memberLocation member)) :=
      silent_failWith
    have hcheck := Yields.blockEnding hfail hheader (spelling?_brace "")
    have hopen : Silent (line ("" ++ "\x7b")) := .skip (by decide)
    exact (hcheck.append hvalue).blockEnding hopen (spelling?_brace "")
  | optional =>
    rw [hp] at hpresence
    have hheader : Yields spelling?
        (line (s!"if (IsSet(obj, {quoted member.name}))" ++ " " ++ "\x7b")) _ :=
      .keep ((congrArg spelling? (append_closing _)).trans hpresence)
    exact hvalue.blockEnding hheader (spelling?_brace "")

theorem defineFill_spells (h : defineFill set plan = .ok code) :
    Yields spelling? code ((plan.members.flatMap memberSpellings).map Spelling.text) := by
  obtain ⟨members, hmembers, h⟩ := ok_of_bind h
  cases h
  have hheader : Opens ['s'] (fillHeader plan) :=
    (Opens.literal _).append.append.append.shorten ⟨_, rfl⟩
  have henv : Silent (if plan.members.isEmpty then [] else line "Napi::Env env = obj.Env();") := by
    split
    · exact .nil
    · exact silent_line (Opens.literal _) rfl
  have hreturn : Silent (line "return true;") := silent_line (Opens.literal _) rfl
  have hparts := Yields.flatten_mapM hmembers fun _ _ => fillMember_spells
  have hbody := (henv.before hparts).behind hreturn
  rw [List.map_flatMap]
  exact (spells_block hheader rfl hbody).behind silent_gap

theorem silent_defineReset (h : defineReset set plan = .ok code) : Silent code := by
  obtain ⟨fields, hfields, h⟩ := ok_of_bind h
  cases h
  have hchain : Silent
      (if plan.extensible then line "descriptor.nextInChain = nullptr;" else []) := by
    split
    · exact silent_line (Opens.literal _) rfl
    · exact .nil
  have hbody := Silent.flatten_mapM hfields fun _ _ => silent_resetField
  have ho : Opens _ s!"static void Reset{plan.externalName}({plan.name}& descriptor)" :=
    (Opens.literal _).append.append.append.append
  exact (spells_block ho rfl (hchain.append hbody)).append silent_gap

theorem ends_eq_false {last back : List Char} {text tail : String} (hc : Closes last text)
    (h : differs back last.reverse = true) (hb : back.reverse <:+ tail.toList) :
    ends tail text = false := by
  rw [ends, ← Bool.not_eq_true, List.isSuffixOf_iff_suffix]
  exact fun hs => hc.not_suffix h (hb.trans hs)

/-- A declaration starts with the name of a type, which may be any text, but ends as no spelling
does. -/
theorem silent_declaration (type : String) : Silent (line s!"{type} descriptor;") := by
  have hc : Closes ['r', ';'] s!"{type} descriptor;" :=
    List.IsSuffix.trans ⟨[' ', 'd', 'e', 's', 'c', 'r', 'i', 'p', 't', 'o'], rfl⟩
      (Closes.literal type _)
  have hcomma : differs [','] ['r', ';'].reverse = true := rfl
  have hbrace : differs ['\x7b'] ['r', ';'].reverse = true := rfl
  have hquote : differs [';', '"'] ['r', ';'].reverse = true := rfl
  have hcall : differs [';', ')'] ['r', ';'].reverse = true := rfl
  exact .skip (if_neg (by simp [spells, ends_eq_false hc hcomma (by decide : _ <:+ " \x7d,".toList),
    ends_eq_false hc hbrace (by decide : _ <:+ ")) \x7b".toList),
    ends_eq_false hc hquote (by decide : _ <:+ "\";".toList),
    ends_eq_false hc hcall (by decide : _ <:+ ");".toList)]))

theorem silent_defineDecode (plan : StructPlan) : Silent (defineDecode plan) := by
  have hheader : Opens ['s'] (decodeHeader plan "") :=
    (Opens.literal _).append.append.append.append.shorten ⟨_, rfl⟩
  have hdeclare : Silent (line s!"{plan.name} descriptor;") := silent_declaration plan.name
  have hreset : Silent (line s!"Reset{plan.externalName}(descriptor);") :=
    silent_line (Opens.literal _).append.append rfl
  have hchain : Silent (if plan.extensible then
      line ("descriptor.nextInChain = " ++
        "reinterpret_cast<const WGPUChainedStruct*>(nextInChain);")
    else []) := by
    split
    · exact silent_line (Opens.literal _).append rfl
    · exact .nil
  have hreturn : Silent (line "return std::nullopt;") := silent_line (Opens.literal _) rfl
  have hfail : Silent (line
      s!"Fail(device, value.Env(), \"expected an object for '{plan.externalName}'\");") :=
    silent_line (Opens.literal _).append.append rfl
  have hobject : Silent (block "if (!value.IsObject())" _) :=
    spells_block (Opens.literal _) rfl (hfail.append hreturn)
  have hdestroy : Silent (line s!"Destroy{plan.externalName}(descriptor);") :=
    silent_line (Opens.literal _).append.append rfl
  have hfill : Silent (block
      (s!"if (!Fill{plan.externalName}(device, value.As<Napi::Object>(), descriptor, " ++
        s!"{quoted plan.externalName}, \"\"))") _) :=
    spells_block (Opens.literal _).append.append.append rfl (hdestroy.append hreturn)
  have hdone : Silent (line "return descriptor;") := silent_line (Opens.literal _) rfl
  have hbody :=
    ((((hdeclare.append hreset).append hchain).append hobject).append hfill).append hdone
  exact (spells_block hheader rfl hbody).append silent_gap

theorem silent_defineDestroy (h : defineDestroy set plan = .ok code) : Silent code := by
  obtain ⟨parts, hparts, h⟩ := ok_of_bind h
  cases h
  have hbody : Silent parts.flatten := by
    refine Silent.flatten_mapM hparts fun member part hpart => ?_
    unfold destroyMember at hpart
    cases hn : nestedName set member with
    | error fault =>
      rw [hn] at hpart
      cases hpart
    | ok nested =>
      rw [hn] at hpart
      cases hpart
      exact silent_releaseMember member nested
  have ho : Opens _ s!"void Destroy{plan.externalName}({plan.name}& descriptor)" :=
    (Opens.literal _).append.append.append.append
  exact (spells_block ho rfl hbody).append silent_gap

theorem silent_declareStatics (plan : StructPlan) : Silent (declareStatics plan) := by
  have hreset : Silent (line s!"static void Reset{plan.externalName}({plan.name}& descriptor);") :=
    silent_line (Opens.literal _).append.append.append.append rfl
  have hfill : Silent (line (fillHeader plan ++ ";")) :=
    silent_line (Opens.literal _).append.append.append.append rfl
  exact hreset.append hfill

theorem defineStructure_spells (h : defineStructure set plan = .ok code) :
    Yields spelling? code ((plan.members.flatMap memberSpellings).map Spelling.text) := by
  obtain ⟨reset, hreset, h⟩ := ok_of_bind h
  obtain ⟨fill, hfill, h⟩ := ok_of_bind h
  obtain ⟨destroy, hdestroy, h⟩ := ok_of_bind h
  cases h
  have hfront := (silent_defineReset hreset).before (defineFill_spells hfill)
  exact (hfront.behind (silent_defineDecode plan)).behind (silent_defineDestroy hdestroy)

theorem silent_include (file : String) : Silent (includeLocal file) :=
  silent_line (Opens.literal _).append rfl

/-- The source spells the names of its tables and members, in order, and none besides. -/
theorem sourceCode_spells (h : sourceCode set = .ok code) :
    Yields spelling? code ((spellings set).map Spelling.text) := by
  obtain ⟨structures, hstructures, h⟩ := ok_of_bind h
  cases h
  have hincludes : Silent ((wrapperClasses set.plans).flatMap fun className =>
      includeLocal (className ++ ".h")) :=
    Silent.flatMap fun className _ => silent_include _
  have hstring : Silent (includeSystem "cstring") :=
    silent_line (Opens.literal _).append.append rfl
  have htables := Yields.flatMap fun table (_ : table ∈ set.tables) => defineTable_spells table
  have hstatics : Silent (set.plans.flatMap declareStatics) :=
    Silent.flatMap fun plan _ => silent_declareStatics plan
  have hplans := Yields.flatten_mapM hstructures fun _ _ => defineStructure_spells
  have hfront := (silent_gap.append silent_helpers).append silent_gap
  have hbody := (((hfront.before htables).behind hstatics).behind silent_gap).append hplans
  have hheader : Opens ['n'] s!"namespace {namespaceName}" :=
    (Opens.literal _).append.shorten ⟨_, rfl⟩
  have hnamespace := spells_block hheader rfl hbody
  have hlead := ((((((silent_include headerFile).append silent_gap).append
    (silent_include "GPUDevice.h")).append hincludes).append silent_gap).append hstring).append
    silent_gap
  rw [spellings, List.map_append, List.map_flatMap, List.map_flatMap]
  exact hlead.before hnamespace

/-- A name in the source: what its statement has before the opening quote, and everything that the
source has behind it. -/
structure Opening where
  head : String
  text : List Char

def openingOf (text : String) (after : Code) : Opening where
  head := String.ofList (text.toList.takeWhile (· ≠ '"'))
  text := (text.toList.dropWhile (· ≠ '"')).drop 1 ++ '\n' :: (Code.render after).toList

def openings : Code → List Opening
  | [] => []
  | inner :: rest =>
    if spells inner.text then openingOf inner.text rest :: openings rest else openings rest

/-- The source has the opening where the spelling puts it, with the name as it is, and what is read
there is the name exactly when each of its characters is plain. -/
structure Spelled (source : String) (opening : Opening) (spelling : Spelling) : Prop where
  head : opening.head = spelling.head
  place : opening.head.toList ++ '"' :: opening.text <:+ source.toList
  text : ∃ rest, opening.text = spelling.name.toList ++ '"' :: (spelling.tail.toList ++ rest)
  reads : readLiteral? opening.text = some spelling.name.toUTF8.data.toList ↔
    ∀ c ∈ spelling.name.toList, Plain c

theorem quote_not_mem_toString (n : Nat) : '"' ∉ (toString n).toList := by
  intro h
  rw [Nat.toString_eq_repr, Nat.toList_repr] at h
  cases Nat.isDigit_of_mem_toDigits (by decide) (by decide) h

theorem quote_not_mem_head (h : spelling ∈ spellings set) : '"' ∉ spelling.head.toList := by
  rcases List.mem_append.mp h with h | h
  · obtain ⟨table, -, h⟩ := List.mem_flatMap.mp h
    rcases List.mem_append.mp h with h | h
    · obtain ⟨entry, -, rfl⟩ := List.mem_map.mp h
      exact (by decide : '"' ∉ "\x7b ".toList)
    · obtain ⟨row, -, rfl⟩ := List.mem_map.mp h
      have hcase : '"' ∉ "case ".toList := by decide
      have hreturn : '"' ∉ ": return ".toList := by decide
      show '"' ∉ (("case " ++ toString row.1.toNat) ++ ": return ").toList
      simp only [String.toList_append, List.mem_append, hcase, hreturn,
        quote_not_mem_toString, or_self, not_false_eq_true]
  · obtain ⟨plan, -, h⟩ := List.mem_flatMap.mp h
    obtain ⟨member, -, h⟩ := List.mem_flatMap.mp h
    unfold memberSpellings presenceSpelling at h
    rcases List.mem_cons.mp h with rfl | h
    · cases member.presence with
      | required => exact (by decide : '"' ∉ "if (!IsPresent(obj, ".toList)
      | optional => exact (by decide : '"' ∉ "if (IsSet(obj, ".toList)
    · cases List.mem_singleton.mp h
      exact (by decide : '"' ∉ "Napi::Value value = obj.Get(".toList)

theorem Spelling.toList_text (spelling : Spelling) :
    spelling.text.toList =
      spelling.head.toList ++ '"' :: (spelling.name.toList ++ '"' :: spelling.tail.toList) := by
  simp [Spelling.text, quoted]

theorem openingOf_text (h : '"' ∉ spelling.head.toList) (after : Code) :
    openingOf spelling.text after =
      ⟨spelling.head, spelling.name.toList ++
        '"' :: (spelling.tail.toList ++ '\n' :: (Code.render after).toList)⟩ := by
  have hne : ∀ c ∈ spelling.head.toList, decide (c ≠ '"') = true :=
    fun c hc => decide_eq_true fun heq => h (heq ▸ hc)
  rw [openingOf, Spelling.toList_text, List.takeWhile_append_of_pos hne,
    List.dropWhile_append_of_pos hne]
  simp

theorem utf8_eq_textBytes (text : String) : text.toUTF8.data.toList = textBytes text.toList := by
  have := @String.toByteArray_ofList text.toList
  rw [String.ofList_toList] at this
  show text.toByteArray.data.toList = _
  rw [this]
  simp [List.utf8Encode, textBytes]

theorem render_cons (inner : Line) (rest : Code) :
    Code.render (inner :: rest) = renderLine inner ++ Code.render rest :=
  String.join_cons

theorem Spelled.cons {inner : Line} {rest : Code} {opening : Opening}
    (h : Spelled (Code.render rest) opening spelling) :
    Spelled (Code.render (inner :: rest)) opening spelling := by
  refine ⟨h.head, h.place.trans ?_, h.text, h.reads⟩
  rw [render_cons, String.toList_append]
  exact List.suffix_append _ _

theorem spelled_line (hq : '"' ∉ spelling.head.toList) (depth : Nat) (rest : Code) :
    Spelled (Code.render (⟨depth, spelling.text⟩ :: rest)) (openingOf spelling.text rest)
      spelling := by
  rw [openingOf_text hq]
  refine ⟨rfl, ?_, ⟨_, rfl⟩, ?_⟩
  · have hne : spelling.text ≠ "" := by
      intro he
      have := Spelling.toList_text spelling
      rw [he] at this
      simp at this
    rw [render_cons, renderLine, if_neg hne]
    refine ⟨List.replicate (2 * depth) ' ', ?_⟩
    simp [Spelling.toList_text]
  · rw [utf8_eq_textBytes]
    exact readLiteral?_quoted_iff _ _

/-- Code that spells some names and none besides has these as its openings. -/
theorem spelled_of_yields {found : List Spelling}
    (hq : ∀ spelling ∈ found, '"' ∉ spelling.head.toList)
    (h : Yields spelling? code (found.map Spelling.text)) :
    List.Forall₂ (Spelled (Code.render code)) (openings code) found := by
  induction code generalizing found with
  | nil =>
    cases List.map_eq_nil_iff.mp h.symm
    exact .nil
  | cons inner rest ih =>
    unfold Yields at h ih
    rw [List.filterMap_cons] at h
    rw [openings]
    by_cases hs : spells inner.text = true
    · rw [spelling?, if_pos hs] at h
      rw [if_pos hs]
      cases found with
      | nil => cases h
      | cons spelling others =>
        obtain ⟨hfirst, hothers⟩ := List.cons.inj h
        obtain ⟨depth, text⟩ := inner
        cases hfirst
        exact .cons (spelled_line (hq _ List.mem_cons_self) depth rest)
          ((ih (fun other ho => hq other (List.mem_cons_of_mem _ ho)) hothers).imp
            fun _ _ => Spelled.cons)
    · rw [spelling?, if_neg hs] at h
      rw [if_neg hs]
      exact (ih hq h).imp fun _ _ => Spelled.cons

theorem sourceCode_spelled (h : sourceCode set = .ok code) :
    List.Forall₂ (Spelled (Code.render code)) (openings code) (spellings set) :=
  spelled_of_yields (fun _ => quote_not_mem_head) (sourceCode_spells h)

end

end Cpp

variable {set : PlanSet} {sources : Cpp.Sources}

/-- Every key and every name of a table, and every member that a fill function asks for, stands in
the rendered source between quotes, at the places of its openings and no other. There a compiler
reads the bytes of the name exactly when it has no quote, no backslash and no line break. -/
theorem names_spelled (h : Cpp.render set = .ok sources) :
    ∃ code, Cpp.sourceCode set = .ok code ∧ sources.source = Cpp.Code.render code ∧
      List.Forall₂ (Cpp.Spelled sources.source) (Cpp.openings code) (Cpp.spellings set) := by
  obtain ⟨code, hcode, h⟩ := ok_of_bind h
  cases h
  exact ⟨code, hcode, rfl, Cpp.sourceCode_spelled hcode⟩

def noteDocument : Idl.Document :=
  [("greeting", .object [("category", .string "enum"), ("values", .array [
    .object [("name", .string "say \"hi\""), ("value", .integer 1)]])]),
  ("note", .object [("category", .string "structure"), ("members", .array [
    .object [("name", .string "opening"), ("type", .string "greeting")]])])]

def greetings : NameTable :=
  ⟨"GPUGreeting", "WGPUGreeting", [("say \"hi\"", 1)], [(1, "say \"hi\"")]⟩

def notePlan : StructPlan where
  name := "WGPUNote"
  externalName := "GPUNote"
  extensible := false
  members := [⟨"opening", .required, .enumeration "WGPUGreeting", .value, none, "WGPUGreeting"⟩]
  fields := [⟨"opening", "WGPUGreeting", .enumeration 0⟩]

def notePlans : PlanSet :=
  ⟨[notePlan], [greetings], [("GPUGreeting", "WGPUGreeting"), ("GPUNote", "WGPUNote")]⟩

theorem note_bindings : ∃ schema,
    Bindings.ofDocument .standard noteDocument = .ok ⟨schema, notePlans⟩ := by
  obtain ⟨schema, hs, hplans, htables⟩ : ∃ schema,
      assemble .standard noteDocument = .ok schema ∧
        schema.structures.mapM (buildPlan schema) = .ok notePlans.plans ∧
          (schema.enums ++ schema.bitmasks).map NameTable.ofValueSet = notePlans.tables :=
    ⟨_, rfl, rfl, rfl⟩
  have hcheck : checkEmbedding notePlans.plans = .ok () := by
    simp [checkEmbedding, Embedding.check, Embedding.walk, Embedding.enter, notePlans, notePlan]
  exact ⟨schema, Bindings.ofDocument_of_parts hs hplans htables rfl hcheck⟩

theorem names_spelled_note : ∃ bindings sources code,
    Bindings.ofDocument .standard noteDocument = .ok bindings ∧
    Cpp.render bindings.plans = .ok sources ∧ sources.source = Cpp.Code.render code ∧
    List.Forall₂ (Cpp.Spelled sources.source) (Cpp.openings code) (Cpp.spellings notePlans) := by
  obtain ⟨schema, hb⟩ := note_bindings
  obtain ⟨sources, hr⟩ : ∃ sources, Cpp.render notePlans = .ok sources := ⟨_, rfl⟩
  obtain ⟨code, -, hsource, hspelled⟩ := names_spelled hr
  exact ⟨_, sources, code, hb, hr, hsource, hspelled⟩

/-- The key of the greeting is read as what stands before its own first quote. -/
theorem greeting_cut_short : ∃ bindings sources code opening rest,
    Bindings.ofDocument .standard noteDocument = .ok bindings ∧
    Cpp.render bindings.plans = .ok sources ∧ sources.source = Cpp.Code.render code ∧
    Cpp.openings code = opening :: rest ∧ opening.head = "\x7b " ∧
    bindings.plans.tables.flatMap (·.byName) = [("say \"hi\"", 1)] ∧
    Cpp.readLiteral? opening.text = some "say ".toUTF8.data.toList := by
  obtain ⟨schema, hb⟩ := note_bindings
  obtain ⟨code, hcode⟩ : ∃ code, Cpp.sourceCode notePlans = .ok code := ⟨_, rfl⟩
  have hr : Cpp.render notePlans = .ok ⟨(Cpp.headerCode notePlans).render, code.render⟩ := by
    rw [Cpp.render, hcode]
    rfl
  have hspelled : List.Forall₂ _ _ (Cpp.entrySpelling ("say \"hi\"", 1) :: _) :=
    Cpp.sourceCode_spelled hcode
  obtain ⟨opening, rest, hfirst, -, hopenings⟩ := List.forall₂_cons_right_iff.mp hspelled
  refine ⟨_, _, code, opening, rest, hb, hr, rfl, hopenings, hfirst.head, rfl, ?_⟩
  obtain ⟨after, htext⟩ := hfirst.text
  have hname : "say \"hi\"".toList = ['s', 'a', 'y', ' '] ++ '"' :: ['h', 'i', '"'] := by decide
  have hplain : ∀ c ∈ ['s', 'a', 'y', ' '], Cpp.Plain c := by simp [Cpp.Plain]
  have hcut : "say ".toList = ['s', 'a', 'y', ' '] := by decide
  rw [htext, Cpp.utf8_eq_textBytes, hcut]
  show Cpp.readLiteral? ("say \"hi\"".toList ++ _) = _
  rw [hname]
  exact Cpp.readLiteral?_cut hplain _ _

end DescriptorMarshal
