import DescriptorMarshal.Cpp.Fill
import DescriptorMarshal.Cpp.Release
import DescriptorMarshal.Native.Heap
import Mathlib.Data.List.Infix

/-!
Reading rendered statements back. A statement that takes a block from the heap, leads into a nested
structure or gives a block back is known by how its text starts or ends, whatever the names in it
are. What a function takes is read off its text, one lemma per way to put code together.
-/

namespace DescriptorMarshal.Cpp

open Code

section

variable {first last front back : List Char} {text rest lead : String}

/-- The text starts with these characters, whatever follows. -/
def Opens (first : List Char) (text : String) : Prop := first <+: text.toList

/-- The text ends with these characters, whatever stands before. -/
def Closes (last : List Char) (text : String) : Prop := last <:+ text.toList

-- A literal is `String.ofList` of its characters by definition, so this applies to it as it is.
theorem Opens.literal (first : List Char) : Opens first (String.ofList first) := by
  unfold Opens
  rw [String.toList_ofList]

theorem Opens.shorten {short : List Char} (h : Opens first text) (hs : short <+: first) :
    Opens short text :=
  hs.trans h

theorem Opens.append (h : Opens first text) : Opens first (text ++ rest) := by
  unfold Opens
  rw [String.toList_append]
  exact h.trans (List.prefix_append _ _)

theorem Opens.after (h : Opens first text) (front : List Char) :
    Opens (front ++ first) (String.ofList front ++ text) := by
  unfold Opens
  rw [String.toList_append, String.toList_ofList]
  exact (List.prefix_append_right_inj front).mpr h

theorem Closes.whole (last : List Char) : Closes last (String.ofList last) := by
  unfold Closes
  rw [String.toList_ofList]

theorem Closes.append (h : Closes last text) : Closes last (lead ++ text) := by
  unfold Closes
  rw [String.toList_append]
  exact h.trans (List.suffix_append _ _)

theorem Closes.literal (lead : String) (last : List Char) :
    Closes last (lead ++ String.ofList last) :=
  (Closes.whole last).append

theorem Closes.before (h : Closes last text) (back : List Char) :
    Closes (last ++ back) (text ++ String.ofList back) := by
  unfold Closes
  rw [String.toList_append, String.toList_ofList]
  obtain ⟨before, h⟩ := h
  exact ⟨before, by rw [← h, List.append_assoc]⟩

/-- No text starts with both. -/
def differs (first second : List Char) : Bool :=
  !first.isPrefixOf second && !second.isPrefixOf first

theorem Opens.not_prefix (h : Opens first text) (hd : differs front first = true) :
    ¬ front <+: text.toList := by
  intro hp
  unfold differs at hd
  rcases List.prefix_or_prefix_of_prefix hp h with hpre | hpre
  · rw [List.isPrefixOf_iff_prefix.mpr hpre] at hd
    cases hd
  · rw [List.isPrefixOf_iff_prefix.mpr hpre, Bool.not_true, Bool.and_false] at hd
    cases hd

theorem Closes.not_suffix (h : Closes last text) (hd : differs back last.reverse = true) :
    ¬ back.reverse <:+ text.toList := by
  intro hs
  have ho : Opens last.reverse (String.ofList text.toList.reverse) := by
    unfold Opens
    rw [String.toList_ofList]
    exact List.reverse_prefix.mpr h
  refine ho.not_prefix hd ?_
  rw [String.toList_ofList]
  have := List.reverse_prefix.mpr hs
  rwa [List.reverse_reverse] at this

def begins (head text : String) : Bool := head.toList.isPrefixOf text.toList

def ends (tail text : String) : Bool := tail.toList.isSuffixOf text.toList

theorem begins_eq_true {head : String} (ho : Opens first text) (h : head.toList <+: first) :
    begins head text = true :=
  List.isPrefixOf_iff_prefix.mpr (h.trans ho)

theorem begins_eq_false {head : String} (ho : Opens first text) (hf : front <+: head.toList)
    (h : differs front first = true) : begins head text = false := by
  rw [begins, ← Bool.not_eq_true, List.isPrefixOf_iff_prefix]
  exact fun hp => ho.not_prefix h (hf.trans hp)

end

section

variable {α : Type} {read : String → Option α} {code after : Code} {found others : List α}

/-- What can be read off the statements of the code, in order. -/
def Yields (read : String → Option α) (code : Code) (found : List α) : Prop :=
  code.filterMap (fun inner => read inner.text) = found

theorem Yields.nil : Yields read [] [] := rfl

theorem Yields.append (h : Yields read code found) (ho : Yields read after others) :
    Yields read (code ++ after) (found ++ others) := by
  unfold Yields at *
  rw [List.filterMap_append, h, ho]

theorem Yields.skip {text : String} (h : read text = none) : Yields read (line text) [] := by
  simp [Yields, line, h]

theorem Yields.keep {text : String} {value : α} (h : read text = some value) :
    Yields read (line text) [value] := by
  simp [Yields, line, h]

theorem Yields.indent (h : Yields read code found) : Yields read (indent code) found := by
  unfold Yields Code.indent at *
  rw [List.filterMap_map]
  exact h

theorem Yields.blockEnding {header ending : String} (h : Yields read code found)
    (hheader : Yields read (line (header ++ "\x7b")) others)
    (hending : read ("\x7d" ++ ending) = none) :
    Yields read (blockEnding header code ending) (others ++ found) := by
  have := (hheader.append h.indent).append (.skip hending)
  rwa [List.append_nil] at this

theorem Yields.flatten {parts : List Code} {founds : List (List α)}
    (h : List.Forall₂ (Yields read) parts founds) : Yields read parts.flatten founds.flatten := by
  induction h with
  | nil => exact .nil
  | cons hpart _ ih => exact hpart.append ih

end

/-! ### Statements that take -/

/-- The text of a statement that takes a block from the heap, binding it to a pointer or copying
a string into it, or that leads into a nested structure. -/
def taking? (text : String) : Option String :=
  if begins "auto* " text || begins "if (!Fill" text ||
    ends "CopyString(value.As<Napi::String>());" text then some text else none

/-- No statement that starts and ends so takes anything. Of the statement that copies a string, the
last five characters are enough to tell it apart. -/
def neutral (first last : List Char) : Bool :=
  differs ['a', 'u', 't', 'o', '*', ' '] first && differs [';', ')', ')', '(', '>'] last.reverse &&
    differs ['i', 'f', ' ', '(', '!', 'F', 'i', 'l', 'l'] first

section

variable {first last : List Char} {text header message check expected location source target path
  name native map : String} {body : Code} {found : List String} {plan : StructPlan}
  {member : MemberPlan}

theorem toList_auto : "auto* ".toList = ['a', 'u', 't', 'o', '*', ' '] := String.toList_ofList

theorem toList_fill : "if (!Fill".toList = ['i', 'f', ' ', '(', '!', 'F', 'i', 'l', 'l'] :=
  String.toList_ofList

theorem toList_copy : "CopyString(value.As<Napi::String>());".toList =
    ['C', 'o', 'p', 'y', 'S', 't', 'r', 'i', 'n', 'g', '(', 'v', 'a', 'l', 'u', 'e', '.', 'A', 's',
      '<', 'N', 'a', 'p', 'i', ':', ':', 'S', 't', 'r', 'i', 'n', 'g'] ++
      ['>', '(', ')', ')', ';'] :=
  String.toList_ofList

theorem taking?_eq_none (ho : Opens first text) (hc : Closes last text)
    (h : neutral first last = true) : taking? text = none := by
  unfold neutral at h
  rw [Bool.and_eq_true, Bool.and_eq_true] at h
  obtain ⟨⟨hauto, hcopy⟩, hfill⟩ := h
  have hbind : begins "auto* " text = false := begins_eq_false ho (by rw [toList_auto]) hauto
  have hlead : begins "if (!Fill" text = false := begins_eq_false ho (by rw [toList_fill]) hfill
  have hend : ends "CopyString(value.As<Napi::String>());" text = false := by
    rw [ends, ← Bool.not_eq_true, List.isSuffixOf_iff_suffix, toList_copy]
    exact fun hs => hc.not_suffix hcopy (List.IsSuffix.trans ⟨_, rfl⟩ hs)
  unfold taking?
  rw [hbind, hlead, hend]
  rfl

theorem plain_line (ho : Opens first text) (hc : Closes last text)
    (h : neutral first last = true) : Yields taking? (line text) [] :=
  .skip (taking?_eq_none ho hc h)

theorem taking?_brace : taking? ("\x7d" ++ "") = none := by
  rw [String.append_empty]
  exact taking?_eq_none (Opens.literal ['\x7d']) (Closes.whole ['\x7d']) rfl

theorem plain_block (ho : Opens first header) (h : neutral first ['\x7b'] = true)
    (hb : Yields taking? body found) : Yields taking? (block header body) found := by
  have hheader : Yields taking? (line (header ++ " " ++ "\x7b")) [] :=
    plain_line ho.append.append (Closes.literal _ ['\x7b']) h
  exact hb.blockEnding hheader taking?_brace

theorem plain_scope (hb : Yields taking? body found) : Yields taking? (scope body) found := by
  have hheader : Yields taking? (line ("" ++ "\x7b")) [] := by
    rw [String.empty_append]
    exact plain_line (Opens.literal ['\x7b']) (Closes.whole ['\x7b']) rfl
  exact hb.blockEnding hheader taking?_brace

theorem plain_failWith (hl : Closes ['"', ')'] location) :
    Yields taking? (failWith message location) [] :=
  plain_line (Opens.literal _).append.append.append.append (hl.append.before [')', ';']) rfl

theorem plain_require (hc : Opens first check) (hf : differs ['F', 'i', 'l', 'l'] first = true)
    (hl : Closes ['"', ')'] location) : Yields taking? (require check expected location) [] := by
  have ho : Opens (['i', 'f', ' ', '(', '!'] ++ first) s!"if (!{check})" := (hc.after _).append
  exact plain_block ho hf (plain_failWith hl)

theorem plain_requireAll {checks : List String} (hl : Closes ['"', ')'] location) :
    Yields taking? (requireAll checks expected location) [] :=
  plain_require (Opens.literal ['(']).append.append rfl hl

/-- Where statements read from and write to, and the place that their messages name. -/
structure Spot (source target location : String) : Prop where
  source : source = "value" ∨ source = "item"
  target : Opens ['d'] target
  location : Closes ['"', ')'] location

theorem spot_member (member : MemberPlan) :
    Spot "value" ("descriptor." ++ member.name) (memberLocation member) :=
  ⟨Or.inl rfl, (Opens.literal _).append.shorten ⟨_, rfl⟩,
    (Closes.literal _ ['"']).append.append.before [')']⟩

theorem spot_element (member : MemberPlan) : Spot "item" "data[i]" (elementLocation member) :=
  ⟨Or.inr rfl, (Opens.literal _).shorten ⟨_, rfl⟩,
    (Closes.literal _ ['"']).append.append.before [')']⟩

def newArray (type : String) : String := s!"auto* data = new {type}[length]();"

def newObject (type : String) : String := s!"auto* element = new {type}" ++ "\x7b\x7d;"

def intoNested (nested source target path : String) : String :=
  s!"if (!Fill{nested}(device, {source}.As<Napi::Object>(), {target}, root, {path}))" ++ " " ++
    "\x7b"

def copyText (target : String) : String := s!"{target} = CopyString(value.As<Napi::String>());"

theorem taking?_newArray (type : String) : taking? (newArray type) = some (newArray type) := by
  have hbind : begins "auto* " (newArray type) = true :=
    begins_eq_true (Opens.literal _).append.append (by rw [toList_auto]; decide)
  rw [taking?, hbind]
  rfl

theorem taking?_newObject (type : String) : taking? (newObject type) = some (newObject type) := by
  have hbind : begins "auto* " (newObject type) = true :=
    begins_eq_true (Opens.literal _).append.append (by rw [toList_auto]; decide)
  rw [taking?, hbind]
  rfl

theorem taking?_intoNested (nested source target path : String) :
    taking? (intoNested nested source target path) =
      some (intoNested nested source target path) := by
  have hlead : begins "if (!Fill" (intoNested nested source target path) = true := by
    have ho : Opens _ (intoNested nested source target path) :=
      (Opens.literal _).append.append.append.append.append.append.append.append.append.append
    exact begins_eq_true ho (by rw [toList_fill])
  rw [taking?, hlead, Bool.or_true, Bool.true_or]
  rfl

theorem taking?_copyText (target : String) :
    taking? (copyText target) = some (copyText target) := by
  have hend : ends "CopyString(value.As<Napi::String>());" (copyText target) = true := by
    have hc : Closes _ (copyText target) := Closes.literal target _
    rw [ends, List.isSuffixOf_iff_suffix, toList_copy]
    exact List.IsSuffix.trans ⟨[' ', '=', ' '], rfl⟩ hc
  rw [taking?, hend, Bool.or_true]
  rfl

theorem plain_writeLength {count : String} (hc : Closes last count)
    (h : neutral ['d', 'e', 's', 'c', 'r', 'i', 'p', 't', 'o', 'r', '.']
      (last ++ [')', ';']) = true) :
    Yields taking? (writeLength plan member count) [] := by
  unfold writeLength
  cases member.length with
  | none => exact .nil
  | some length =>
    exact plain_line (Opens.literal _).append.append.append.append.append.append
      (hc.append.before [')', ';']) h

theorem takes_fillArray (elementType : String) (hb : Yields taking? body found) :
    Yields taking? (fillArray plan member elementType body) (newArray elementType :: found) := by
  have hcheck : Yields taking? (require "value.IsArray()" "Array" (memberLocation member)) [] :=
    plain_require (Opens.literal _) rfl (spot_member member).location
  have harray : Yields taking? (line "Napi::Array array = value.As<Napi::Array>();") [] :=
    plain_line (Opens.literal _) (Closes.whole _) rfl
  have hlength : Yields taking? (line "uint32_t length = array.Length();") [] :=
    plain_line (Opens.literal _) (Closes.whole _) rfl
  have hstore : Yields taking? (line s!"descriptor.{member.name} = data;") [] :=
    plain_line (Opens.literal _).append.append (Closes.literal _ _) rfl
  have hcount : Yields taking? (writeLength plan member "length") [] :=
    plain_writeLength (Closes.whole _) rfl
  have hitem : Yields taking? (line "Napi::Value item = array.Get(i);") [] :=
    plain_line (Opens.literal _) (Closes.whole _) rfl
  have hloop : Yields taking? (block "for (uint32_t i = 0; i < length; ++i)"
      (line "Napi::Value item = array.Get(i);" ++ body)) found :=
    plain_block (Opens.literal _) rfl (hitem.append hb)
  have hallocate := Yields.keep (taking?_newArray elementType)
  exact (((((hcheck.append harray).append hlength).append hallocate).append hstore).append
    hcount).append hloop

theorem takes_fillNested (nested source target path : String) :
    Yields taking? (fillNested nested source target path)
      [intoNested nested source target path] := by
  have hbody : Yields taking? (line "return false;") [] :=
    plain_line (Opens.literal _) (Closes.whole _) rfl
  exact hbody.blockEnding (.keep (taking?_intoNested nested source target path)) taking?_brace

theorem takes_newElement {slot : String} (nested : String) (hs : Opens ['d'] slot) :
    Yields taking? (newElement name nested slot) [newObject name] := by
  have hstore : Yields taking? (line s!"{slot} = element;") [] :=
    plain_line hs.append (Closes.literal _ _) rfl
  have hreset : Yields taking? (line s!"Reset{nested}(*element);") [] :=
    plain_line (Opens.literal _).append.append (Closes.literal _ _) rfl
  exact ((Yields.keep (taking?_newObject name)).append hstore).append hreset

theorem plain_unwrapObject (className : String) (h : Spot source target location) :
    Yields taking? (unwrapObject className source target location) [] :=
  (plain_requireAll h.location).append
    (plain_line h.target.append.append.append.append.append.append (Closes.literal _ _) rfl)

theorem Spot.plain_require (h : Spot source target location) (method expected : String) :
    Yields taking? (require (source ++ method) expected location) [] := by
  rcases h.source with rfl | rfl
  · exact Cpp.plain_require (Opens.literal _).append rfl h.location
  · exact Cpp.plain_require (Opens.literal _).append rfl h.location

theorem plain_lookUpName (map native : String) (h : Spot source target location) :
    Yields taking? (lookUpName map native source target location) [] := by
  have hfind : Yields taking?
      (line s!"auto found = {map}.find({source}.As<Napi::String>().Utf8Value());") [] :=
    plain_line (Opens.literal _).append.append.append.append (Closes.literal _ _) rfl
  have hmissing : Yields taking? (block s!"if (found == {map}.end())"
      (failWith s!"unknown value of '{map}' for " location)) [] :=
    plain_block (Opens.literal _).append.append rfl (plain_failWith h.location)
  have hstore : Yields taking? (line s!"{target} = static_cast<{native}>(found->second);") [] :=
    plain_line h.target.append.append.append (Closes.literal _ _) rfl
  exact (((h.plain_require ".IsString()" "String").append hfind).append hmissing).append hstore

theorem plain_castBits (native : String) (h : Spot source target location) :
    Yields taking? (castBits native source target location) [] :=
  (h.plain_require ".IsNumber()" "Number").append
    (plain_line h.target.append.append.append.append.append (Closes.literal _ _) rfl)

theorem plain_readWide (getter native : String) (h : Spot "value" target location) :
    Yields taking? (readWide getter native target location) [] := by
  have hbig : Yields taking? (line "if (value.IsBigInt()) \x7b") [] :=
    plain_line (Opens.literal _) (Closes.whole _) rfl
  have hflag : Yields taking? (line "bool lossless;") [] :=
    plain_line (Opens.literal _) (Closes.whole _) rfl
  have hget : Yields taking?
      (line s!"{target} = value.As<Napi::BigInt>().{getter}(&lossless);") [] :=
    plain_line h.target.append.append.append (Closes.literal _ _) rfl
  have hloss : Yields taking? (block "if (!lossless)"
      (failWith s!"expected type 'BigInt within {native}' for " location)) [] :=
    plain_block (Opens.literal _) rfl (plain_failWith h.location)
  have hnumber : Yields taking? (line "\x7d else if (value.IsNumber()) \x7b") [] :=
    plain_line (Opens.literal _) (Closes.whole _) rfl
  have hcast : Yields taking? (line
      s!"{target} = static_cast<{native}>(value.As<Napi::Number>().DoubleValue());") [] :=
    plain_line h.target.append.append.append (Closes.literal _ _) rfl
  have helse : Yields taking? (line "\x7d else \x7b") [] :=
    plain_line (Opens.literal _) (Closes.whole _) rfl
  have hfail : Yields taking? (failWith "expected type 'BigInt' for " location) [] :=
    plain_failWith h.location
  have hclose : Yields taking? (line "\x7d") [] :=
    plain_line (Opens.literal _) (Closes.whole _) rfl
  exact (((((hbig.append ((hflag.append hget).append hloss).indent).append hnumber).append
    hcast.indent).append helse).append hfail.indent).append hclose

theorem plain_readNumber (type : NumberType) (native : String)
    (h : Spot "value" target location) :
    Yields taking? (readNumber type native target location) [] := by
  have hcast : ∀ last, Closes (last ++ ['(', ')', ')', ';']) (numberGetter type ++ "());") →
      neutral ['d'] (last ++ ['(', ')', ')', ';']) = true →
      Yields taking? (require "value.IsNumber()" "Number" location ++
        line (s!"{target} = static_cast<{native}>(value.As<Napi::Number>()." ++
          s!"{numberGetter type}());")) [] := by
    intro last hc hn
    exact (h.plain_require ".IsNumber()" "Number").append
      (plain_line h.target.append.append.append.append hc.append hn)
  cases type with
  | i64 | u64 => exact plain_readWide _ native h
  | f32 | f64 | i8 | i16 | i32 | u8 | u16 | u32 =>
    exact hcast _ ((Closes.whole _).before _) rfl

theorem plain_bindBuffer (plan : StructPlan) (member : MemberPlan) (kind : Option ArrayKind) :
    Yields taking? (bindBuffer plan member kind) [] := by
  have h := spot_member member
  cases kind with
  | some kind =>
    have harray : Yields taking?
        (line "Napi::TypedArray array = value.As<Napi::TypedArray>();") [] :=
      plain_line (Opens.literal _) (Closes.whole _) rfl
    have hbytes : Yields taking? (line
        ("uint8_t* bytes = static_cast<uint8_t*>(array.ArrayBuffer().Data())" ++
          " + array.ByteOffset();")) [] :=
      plain_line (Opens.literal _).append (Closes.literal _ _) rfl
    have hstore : Yields taking? (line (s!"descriptor.{member.name} = " ++
        s!"reinterpret_cast<const {member.nativeType}*>(bytes);")) [] :=
      plain_line (Opens.literal _).append.append.append (Closes.literal _ _).append rfl
    have hcount : Yields taking? (writeLength plan member "array.ElementLength()") [] :=
      plain_writeLength (Closes.whole _) rfl
    exact ((((plain_requireAll h.location).append harray).append hbytes).append hstore).append
      hcount
  | none =>
    have hbuffer : Yields taking?
        (line "Napi::ArrayBuffer buffer = value.As<Napi::ArrayBuffer>();") [] :=
      plain_line (Opens.literal _) (Closes.whole _) rfl
    have hstore : Yields taking? (line s!"descriptor.{member.name} = buffer.Data();") [] :=
      plain_line (Opens.literal _).append.append (Closes.literal _ _) rfl
    have hcount : Yields taking? (writeLength plan member "buffer.ByteLength()") [] :=
      plain_writeLength (Closes.whole _) rfl
    exact (((h.plain_require ".IsArrayBuffer()" "ArrayBuffer").append hbuffer).append
      hstore).append hcount

end

/-- The operation of a statement that gives a block back. -/
def operation? (text : String) : Option ReleaseKind :=
  if begins "delete[] " text then some .deleteArray
  else if begins "delete " text then some .delete
  else none

section

variable {first : List Char} {text header field : String} {body : Code}
  {found : List ReleaseKind}

theorem toList_deleteArray : "delete[] ".toList = ['d', 'e', 'l', 'e', 't', 'e', '[', ']', ' '] :=
  String.toList_ofList

theorem toList_delete : "delete ".toList = ['d', 'e', 'l', 'e', 't', 'e', ' '] :=
  String.toList_ofList

theorem operation?_eq_none (ho : Opens first text)
    (h : differs ['d', 'e', 'l'] first = true) : operation? text = none := by
  have harray : begins "delete[] " text = false :=
    begins_eq_false ho (by rw [toList_deleteArray]; exact ⟨_, rfl⟩) h
  have hsingle : begins "delete " text = false :=
    begins_eq_false ho (by rw [toList_delete]; exact ⟨_, rfl⟩) h
  rw [operation?, harray, hsingle]
  rfl

theorem operation?_deleteArray (ho : Opens first text)
    (h : ['d', 'e', 'l', 'e', 't', 'e', '[', ']', ' '] <+: first) :
    operation? text = some .deleteArray := by
  rw [operation?, begins_eq_true ho (by rwa [toList_deleteArray])]
  rfl

theorem operation?_delete (ho : Opens first text)
    (h : ['d', 'e', 'l', 'e', 't', 'e', ' '] <+: first) : operation? text = some .delete := by
  have hsingle : begins "delete " text = true := begins_eq_true ho (by rwa [toList_delete])
  have harray : begins "delete[] " text = false := by
    obtain ⟨rest, rfl⟩ := h
    exact begins_eq_false ho (by rw [toList_deleteArray]) rfl
  rw [operation?, harray, hsingle]
  rfl

theorem idle_line (ho : Opens first text) (h : differs ['d', 'e', 'l'] first = true) :
    Yields operation? (line text) [] :=
  .skip (operation?_eq_none ho h)

theorem idle_block (ho : Opens first header) (h : differs ['d', 'e', 'l'] first = true)
    (hb : Yields operation? body found) : Yields operation? (block header body) found := by
  have hending : operation? ("\x7d" ++ "") = none :=
    operation?_eq_none (Opens.literal ['\x7d']).append rfl
  exact hb.blockEnding (idle_line ho.append.append h) hending

theorem yields_releasePointer (hf : Opens ['d', 'e', 's'] field)
    (hb : Yields operation? body found) :
    Yields operation? (releasePointer field body) found := by
  have hclear : Yields operation? (line s!"{field} = nullptr;") [] := idle_line hf.append rfl
  have hbody := hb.append hclear
  rw [List.append_nil] at hbody
  exact idle_block (Opens.literal _).append.append rfl hbody

theorem yields_forEachElement (length : LengthField) (hb : Yields operation? body found) :
    Yields operation? (forEachElement length body) found :=
  idle_block (Opens.literal _).append.append rfl hb

end

end DescriptorMarshal.Cpp
