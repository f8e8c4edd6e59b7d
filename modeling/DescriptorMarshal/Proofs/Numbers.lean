import DescriptorMarshal.Proofs.Counting
import DescriptorMarshal.Proofs.Declaration
import DescriptorMarshal.Proofs.Nesting
import DescriptorMarshal.Proofs.Typing

/-!
Numbers in their C types. A number is stored in a word of 32 or 64 bits. Whether it was declared as
a default or came from the host, it lies in the range of the type that its field is declared with.
A number of elements is brought into its word only: in a length field of 8 or 16 bits it is out of
range as soon as the array has more elements than the type has values for.
-/

namespace DescriptorMarshal

namespace NumberType

/-- The integer that a word of this type's class stands for. -/
def read? : NumberType → NativeValue → Option Int
  | .i8, .i32 word | .i16, .i32 word | .i32, .i32 word => some word.toInt
  | .u8, .u32 word | .u16, .u32 word | .u32, .u32 word => some word.toNat
  | .i64, .i64 word => some word.toInt
  | .u64, .u64 word => some word.toNat
  | _, _ => none

/-- Is the type narrower than the word that it is stored in? -/
def isNarrow : NumberType → Bool
  | .i8 | .u8 | .i16 | .u16 => true
  | _ => false

end NumberType

variable {type : NumberType} {range : IntRange} {n : Int} {count : Nat} {value : NativeValue}

theorem NumberType.contains_zero (h : type.range? = some range) : range.contains 0 = true := by
  cases type with
  | f32 | f64 => cases h
  | _ =>
    cases h
    decide

theorem NumberType.contains_of_word (h : type.range? = some range) (hw : type.isNarrow = false)
    (hn : type.read? value = some n) : range.contains n = true := by
  rw [IntRange.contains_iff]
  cases type with
  | f32 | f64 => cases h
  | i8 | u8 | i16 | u16 => cases hw
  | i32 =>
    cases h
    cases value <;> cases hn
    next word =>
      have hlo := word.le_toInt
      have hhi := word.toInt_lt
      show -0x80000000 ≤ word.toInt ∧ word.toInt ≤ 0x7fffffff
      omega
  | u32 =>
    cases h
    cases value <;> cases hn
    next word =>
      have hhi := word.toNat_lt
      show (0 : Int) ≤ word.toNat ∧ (word.toNat : Int) ≤ 0xffffffff
      omega
  | i64 =>
    cases h
    cases value <;> cases hn
    next word =>
      have hlo := word.le_toInt
      have hhi := word.toInt_lt
      show -0x8000000000000000 ≤ word.toInt ∧ word.toInt ≤ 0x7fffffffffffffff
      omega
  | u64 =>
    cases h
    cases value <;> cases hn
    next word =>
      have hhi := word.toNat_lt
      show (0 : Int) ≤ word.toNat ∧ (word.toNat : Int) ≤ 0xffffffffffffffff
      omega

theorem read?_ofDouble (h : type.range? = some range) (x : Binary64) :
    ∃ n, type.read? (.ofDouble type x) = some n ∧ range.contains n = true := by
  obtain ⟨n, hn⟩ : ∃ n, type.read? (.ofDouble type x) = some n := by
    cases type with
    | f32 | f64 => cases h
    | _ => exact ⟨_, rfl⟩
  refine ⟨n, hn, ?_⟩
  cases hw : type.isNarrow with
  | false => exact NumberType.contains_of_word h hw hn
  | true =>
    rw [IntRange.contains_iff]
    cases type with
    | i8 =>
      cases h
      cases hn
      have hlo := x.toInt32.toInt8.le_toInt
      have hhi := x.toInt32.toInt8.toInt_lt
      rw [Int8.toInt_toInt32]
      show -0x80 ≤ x.toInt32.toInt8.toInt ∧ x.toInt32.toInt8.toInt ≤ 0x7f
      omega
    | i16 =>
      cases h
      cases hn
      have hlo := x.toInt32.toInt16.le_toInt
      have hhi := x.toInt32.toInt16.toInt_lt
      rw [Int16.toInt_toInt32]
      show -0x8000 ≤ x.toInt32.toInt16.toInt ∧ x.toInt32.toInt16.toInt ≤ 0x7fff
      omega
    | u8 =>
      cases h
      cases hn
      have hhi := x.toUInt32.toUInt8.toNat_lt
      rw [UInt8.toNat_toUInt32]
      show (0 : Int) ≤ x.toUInt32.toUInt8.toNat ∧ (x.toUInt32.toUInt8.toNat : Int) ≤ 0xff
      omega
    | u16 =>
      cases h
      cases hn
      have hhi := x.toUInt32.toUInt16.toNat_lt
      rw [UInt16.toNat_toUInt32]
      show (0 : Int) ≤ x.toUInt32.toUInt16.toNat ∧ (x.toUInt32.toUInt16.toNat : Int) ≤ 0xffff
      omega
    | _ => cases hw

theorem read?_ofInteger (h : type.range? = some range) (hn : range.contains n = true) :
    type.read? (.ofInteger type n) = some n := by
  rw [IntRange.contains_iff] at hn
  have signed : -2 ^ 31 ≤ n → n < 2 ^ 31 → (Int32.ofInt n).toInt = n := Int32.toInt_ofInt_of_le
  have unsigned : 0 ≤ n → n ≤ 0xffffffff → ((UInt32.ofInt n).toNat : Int) = n := by
    intro hlo hhi
    exact IntRange.toNat_ofInt (IntRange.contains_iff.mpr ⟨hlo, hhi⟩)
  cases type with
  | f32 | f64 => cases h
  | i8 | i16 | i32 =>
    cases h
    simp only [IntRange.signed8, IntRange.signed16, IntRange.signed32] at hn
    exact congrArg some (signed (by omega) (by omega))
  | u8 | u16 | u32 =>
    cases h
    simp only [IntRange.unsigned8, IntRange.unsigned16, IntRange.unsigned32] at hn
    exact congrArg some (unsigned (by omega) (by omega))
  | i64 =>
    cases h
    simp only [IntRange.signed64] at hn
    exact congrArg some (Int64.toInt_ofInt_of_le (by omega) (by omega))
  | u64 =>
    cases h
    simp only [IntRange.unsigned64] at hn
    have hword : ((UInt64.ofInt n).toNat : Int) = n := by
      rw [UInt64.ofInt, UInt64.toNat_ofNat']
      omega
    exact congrArg some hword

/-- A number of elements is stored in range, unless the type is narrow and has too few values. -/
theorem read?_ofCount (h : type.range? = some range) (count : Nat) :
    ∃ n, type.read? (.ofCount type count) = some n ∧
      (range.contains n = true ∨ type.isNarrow = true ∧ range.most < count) := by
  have hleast : range.least ≤ 0 := (IntRange.contains_iff.mp (NumberType.contains_zero h)).1
  by_cases hc : (count : Int) ≤ range.most
  · have hn : range.contains count = true := IntRange.contains_iff.mpr (by omega)
    exact ⟨count, read?_ofInteger h hn, .inl hn⟩
  · obtain ⟨n, hn⟩ : ∃ n, type.read? (.ofCount type count) = some n := by
      cases type with
      | f32 | f64 => cases h
      | _ => exact ⟨_, rfl⟩
    refine ⟨n, hn, ?_⟩
    cases hw : type.isNarrow with
    | true => exact .inr ⟨rfl, by omega⟩
    | false => exact .inl (NumberType.contains_of_word h hw hn)

theorem NumberType.isFloat_of_range? (h : type.range? = some range) : type.isFloat = false := by
  cases type with
  | f32 | f64 => cases h
  | _ => rfl

theorem TypeKind.Admits.in_range {default : DefaultValue}
    (h : TypeKind.Admits (.number type) default) (hr : type.range? = some range) :
    ∃ n, default = .integer n ∧ range.contains n = true := by
  cases default with
  | integer n =>
    obtain ⟨admitted, ha, hn⟩ := h
    rw [hr, Option.some.injEq] at ha
    exact ⟨n, rfl, ha ▸ hn⟩
  | float x =>
    have hfloat : type.isFloat = true := h
    rw [NumberType.isFloat_of_range? hr] at hfloat
    cases hfloat
  | bool b => exact h.elim

theorem Assembler.member_initial {assembler : Assembler} {owner : String} {raw : Idl.Member}
    {member : Member} {initial : DefaultValue} (h : assembler.member owner raw = .ok member)
    (hk : member.type.kind = .number type) (hi : member.type.initialValue = some initial) :
    (TypeKind.number type).Admits initial := by
  obtain ⟨hdefault, hinitial⟩ := member_default h
  rw [hi] at hinitial
  split at hinitial
  · cases hinitial
  rw [hk, TypeKind.zero?, Option.map_some, Option.some.injEq] at hinitial
  cases hd : member.default with
  | none =>
    rw [hinitial, hd, Option.getD_none]
    cases hfloat : type.isFloat with
    | true => exact hfloat
    | false =>
      obtain ⟨range, hr⟩ := NumberType.exists_range hfloat
      exact ⟨range, hr, NumberType.contains_zero hr⟩
  | some default =>
    obtain ⟨-, -, -, hadmits⟩ := hdefault default hd
    rwa [hinitial, hd, Option.getD_some, ← hk]

theorem fieldInitOf_number {owner : String} {member : Member} {isLength : Bool}
    {default : DefaultValue} (h : fieldInitOf owner member isLength = .ok (.number type default)) :
    member.type.kind = .number type ∧
      member.type.isReference = false ∧ member.type.isArray = false ∧
      (default = .integer 0 ∨ member.type.initialValue = some default) := by
  unfold fieldInitOf at h
  dsimp only at h
  split at h
  · cases h
  next hplain =>
  have hreference : member.type.isReference = false := by simpa using (not_or.mp hplain).1
  have harray : member.type.isArray = false := by simpa using (not_or.mp hplain).2
  split at h
  · next number hk =>
    split at h
    · cases h
      exact ⟨hk, hreference, harray, .inl rfl⟩
    · cases h
      refine ⟨hk, hreference, harray, ?_⟩
      cases member.type.initialValue with
      | none => exact .inl rfl
      | some initial => exact .inr rfl
  · cases h
  · cases hb : defaultBits owner member <;> rw [hb] at h <;> cases h
  · cases hb : defaultBits owner member <;> rw [hb] at h <;> cases h
  all_goals cases h

/-- Integer fields start in range and are marshaled as numbers of their own type. -/
structure StructPlan.Numeric (plan : StructPlan) : Prop where
  default : ∀ field ∈ plan.fields, ∀ type default range, field.init = .number type default →
    type.range? = some range → ∃ n, default = .integer n ∧ range.contains n = true
  member : ∀ field ∈ plan.fields, ∀ type default, field.init = .number type default →
    ∀ member ∈ plan.members, member.name = field.name → member.marshal = .number type

variable {options : SchemaOptions} {document : Idl.Document} {bindings : Bindings}
  {plan : StructPlan}

theorem Bindings.number_admits {field : FieldPlan} {default : DefaultValue}
    (h : ofDocument options document = .ok bindings) (hp : plan ∈ bindings.plans.plans)
    (hf : field ∈ plan.fields) (hi : field.init = .number type default) :
    default = .integer 0 ∨ (TypeKind.number type).Admits default := by
  obtain ⟨hs, -⟩ := ofDocument_parts h
  obtain ⟨node, hnode, hr, -, -⟩ := Bindings.exists_node h hp
  obtain ⟨assembler, hmade⟩ := exists_assembler hs
  obtain ⟨member, hm, -, hinit⟩ := (buildPlan_field hr).2 field hf
  rw [hi] at hinit
  obtain ⟨hk, -, -, hzero | hinitial⟩ := fieldInitOf_number hinit
  · exact .inl hzero
  · obtain ⟨owner, raw, hraw⟩ := hmade.exists_raw hnode hm
    exact .inr (Assembler.member_initial hraw hk hinitial)

theorem Bindings.integer_in_range {field : FieldPlan} {default : DefaultValue}
    (h : ofDocument options document = .ok bindings) (hp : plan ∈ bindings.plans.plans)
    (hf : field ∈ plan.fields) (hi : field.init = .number type default)
    (hr : type.range? = some range) : ∃ n, default = .integer n ∧ range.contains n = true := by
  rcases Bindings.number_admits h hp hf hi with hzero | hadmits
  · exact ⟨0, hzero, NumberType.contains_zero hr⟩
  · exact hadmits.in_range hr

theorem Bindings.numeric (h : ofDocument options document = .ok bindings)
    (hd : Idl.DistinctMembers document) (hp : plan ∈ bindings.plans.plans) : plan.Numeric := by
  obtain ⟨hs, -⟩ := ofDocument_parts h
  obtain ⟨node, hnode, hr, -, -⟩ := Bindings.exists_node h hp
  have hdistinct := assemble_distinct hs hd node hnode
  constructor
  · intro field hf type default range hi hrange
    exact Bindings.integer_in_range h hp hf hi hrange
  · intro field hf type default hi planned hplanned hname
    obtain ⟨member, hm, hfield, hinit⟩ := (buildPlan_field hr).2 field hf
    obtain ⟨other, ho, hbuilt, -⟩ := buildPlan_planned hr hplanned
    have hspec := memberPlanOf_built hbuilt
    have hsame : other = member := List.inj_on_of_nodup_map hdistinct ho hm
      (hspec.name.symm.trans (hname.trans hfield))
    rw [hi] at hinit
    obtain ⟨hk, hreference, harray, -⟩ := fieldInitOf_number hinit
    subst hsame
    exact hspec.rule.unique (.number hk harray hreference) (by rw [hk]; nofun)

variable {set : PlanSet} {heap : Heap} {native inner : NativeStruct} {field : FieldPlan}
  {default : DefaultValue} {input : HostValue} {next : Option Handle} {context after : Context}
  {properties : List (String × HostValue)}

theorem read?_initValue (set : PlanSet) (hn : plan.Numeric) (hf : field ∈ plan.fields)
    (hi : field.init = .number type default) (hr : type.range? = some range) :
    ∃ n, type.read? (set.initValue field.init) = some n ∧ range.contains n = true := by
  obtain ⟨n, rfl, hrange⟩ := hn.default field hf type default range hi hr
  have hvalue : set.initValue field.init = .ofInteger type n := by
    rw [hi]
    cases type with
    | f32 | f64 => cases hr
    | _ => rfl
  exact ⟨n, hvalue ▸ read?_ofInteger hr hrange, hrange⟩

theorem Conforms.number_in_range (h : Conforms set (.number type) input)
    (hr : type.range? = some range) :
    ∃ value n, set.imageOf input (.number type) = value.tree ∧ value.isScalar = true ∧
      type.read? value = some n ∧ range.contains n = true := by
  cases h with
  | @number _ x =>
    obtain ⟨n, hread, hn⟩ := read?_ofDouble hr x
    exact ⟨.ofDouble type x, n, rfl, set.isScalar_scalarOf (.number type) (.number x), hread, hn⟩
  | @signed n _ =>
    have hread : NumberType.read? .i64 (.i64 (.ofInt n)) = some (Int64.ofInt n).toInt := rfl
    exact ⟨_, _, rfl, rfl, hread, NumberType.contains_of_word hr rfl hread⟩
  | @unsigned n _ =>
    have hread : NumberType.read? .u64 (.u64 (.ofInt n)) = some (UInt64.ofInt n).toNat := rfl
    exact ⟨_, _, rfl, rfl, hread, NumberType.contains_of_word hr rfl hread⟩
  | array elements => cases elements

/-- An array that counts in the field has more elements than the range reaches, and the field holds
their number as far as its word does. -/
structure Heap.Overflows (heap : Heap) (plan : StructPlan) (native : NativeStruct) (name : String)
    (type : NumberType) (range : IntRange) (value : NativeValue) : Prop where
  narrow : type.isNarrow = true
  counted : ∃ member ∈ plan.members, member.CountsIn name ∧
    ∃ slot count, native.get? member.name = some slot ∧ heap.count? slot = some count ∧
      range.most < count ∧ value = .ofCount type count

theorem Heap.Reads.number (hs : set.Regular) (hp : plan ∈ set.plans) (hn : plan.Numeric)
    (ha : plan.Admits set properties)
    (h : heap.Reads native (set.structImage plan next (set.imageGiven properties)))
    (hf : field ∈ plan.fields) (hi : field.init = .number type default)
    (hr : type.range? = some range) :
    ∃ value n, native.get? field.name = some value ∧ type.read? value = some n ∧
      (range.contains n = true ∨ heap.Overflows plan native field.name type range value) := by
  have hc := hs.plans plan hp
  have hget := set.get?_structImage hc hf next (set.imageGiven properties)
  have holds : ∀ value : NativeValue, value.isScalar = true →
      set.fieldImage plan.members (set.imageGiven properties) field = value.tree →
        native.get? field.name = some value :=
    fun value hvalue hfield => h.scalar_slot hvalue (hfield ▸ hget)
  rcases set.fieldImage_cases plan.members (set.imageGiven properties) field with
    ⟨member, hm, hname, hfield⟩ | ⟨member, hm, length, count, hl, hname, hgiven, hfield⟩ | hfield
  · rw [PlanSet.imageGiven_eq] at hfield
    obtain ⟨input, hinput, himage⟩ := Option.map_eq_some_iff.mp hfield.symm
    have hconforms := ha member hm input hinput
    rw [hn.member field hf type default hi member hm hname] at himage hconforms
    obtain ⟨value, n, hmeans, hvalue, hread, hrange⟩ := hconforms.number_in_range hr
    exact ⟨value, n, holds value hvalue (himage.symm.trans hmeans), hread, .inl hrange⟩
  · have hlength := (hs.starts plan hp).counter member hm length hl field hf hname.symm
    rw [hi] at hlength
    cases hlength
    have hslot := holds _ (isScalar_ofCount length.type count) hfield
    obtain ⟨n, hread, hrange | ⟨hnarrow, hmost⟩⟩ := read?_ofCount hr count
    · exact ⟨_, n, hslot, hread, .inl hrange⟩
    · obtain ⟨array, harray, helements, -⟩ := h.array_slot hs hp hm hl
      rw [hgiven] at helements
      exact ⟨_, n, hslot, hread, .inr ⟨hnarrow, member, hm, ⟨length, hl, hname⟩, array, count,
        harray, helements, hmost, rfl⟩⟩
  · have hinit : (set.initValue field.init).isScalar = true := by
      apply PlanSet.isScalar_initValue
      rw [hi]
      nofun
    obtain ⟨n, hread, hrange⟩ := read?_initValue set hn hf hi hr
    exact ⟨_, n, holds _ hinit hfield, hread, .inl hrange⟩

/-- Every integer field of a reset structure, and of the structures in a decoded one at any depth,
holds a word of the class of its type, and an integer of its type unless it is a length field of 8
or 16 bits and its array has more elements than that. -/
theorem numbers_in_range (hb : Bindings.ofDocument options document = .ok bindings)
    (hd : Idl.DistinctMembers document) (hp : plan ∈ bindings.plans.plans) :
    (∀ field ∈ plan.fields, ∀ type default range, field.init = .number type default →
      type.range? = some range →
        ∃ value n, (bindings.plans.reset plan).get? field.name = some value ∧
          type.read? value = some n ∧ range.contains n = true) ∧
    ∀ input next context native after,
      bindings.plans.decode plan input next context = (.ok native, after) →
      ∀ inner, after.heap.Contains (.struct native) inner →
        ∃ owner ∈ bindings.plans.plans, inner.typeName = owner.name ∧
          ∀ field ∈ owner.fields, ∀ type default range, field.init = .number type default →
            type.range? = some range →
              ∃ value n, inner.get? field.name = some value ∧ type.read? value = some n ∧
                (range.contains n = true ∨
                  after.heap.Overflows owner inner field.name type range value) := by
  have hs := Bindings.regular hb hd
  constructor
  · intro field hf type default range hi hr
    obtain ⟨n, hread, hrange⟩ :=
      read?_initValue bindings.plans (Bindings.numeric hb hd hp) hf hi hr
    refine ⟨_, n, ?_, hread, hrange⟩
    have hkeys : (Entries.keys (bindings.plans.reset plan).fields).Nodup := by
      rw [hs.reset_eq hp, Entries.keys, List.map_map]
      exact (hs.plans plan hp).fields
    have hmem : (field.name, bindings.plans.initValue field.init) ∈
        (bindings.plans.reset plan).fields := by
      rw [hs.reset_eq hp]
      exact List.mem_map_of_mem hf
    exact Entries.get?_of_mem hkeys hmem
  · intro input next context native after h inner hc
    obtain ⟨owner, ho, chain, properties, hadmits, hreads⟩ := hs.decode_contains hp h hc
    refine ⟨owner, ho, hreads.shape.1, ?_⟩
    intro field hf type default range hi hr
    exact hreads.number hs ho (Bindings.numeric hb hd ho) hadmits hf hi hr

def blockDocument : Idl.Document :=
  [("block", .object [("category", .string "structure"), ("members", .array [
    .object [("name", .string "size"), ("type", .string "uint8_t")],
    .object [("name", .string "data"), ("type", .string "uint8_t"),
      ("annotation", .string "const*"), ("length", .string "size")]])])]

def blockPlan : StructPlan where
  name := "WGPUBlock"
  externalName := "GPUBlock"
  extensible := false
  members := [⟨"data", .required, .buffer (some .uint8), .borrowed, some ⟨"size", .u8⟩, "uint8_t"⟩]
  fields := [⟨"size", "uint8_t", .number .u8 (.integer 0)⟩, ⟨"data", "uint8_t", .null⟩]

def blockPlans : PlanSet := ⟨[blockPlan], [], [("GPUBlock", "WGPUBlock")]⟩

theorem block_distinct : Idl.DistinctMembers blockDocument := by
  have hnames : ∀ found ∈ [["size", "data"]], found.Nodup := by decide
  exact .of_names rfl hnames

theorem block_bindings : ∃ schema,
    Bindings.ofDocument .standard blockDocument = .ok ⟨schema, blockPlans⟩ := by
  obtain ⟨schema, hs, hplans, htables⟩ : ∃ schema,
      assemble .standard blockDocument = .ok schema ∧
        schema.structures.mapM (buildPlan schema) = .ok blockPlans.plans ∧
          (schema.enums ++ schema.bitmasks).map NameTable.ofValueSet = blockPlans.tables :=
    ⟨_, rfl, rfl, rfl⟩
  have hcheck : checkEmbedding blockPlans.plans = .ok () := by
    simp [checkEmbedding, Embedding.check, Embedding.walk, Embedding.enter, blockPlans, blockPlan,
      bind, Except.bind, pure, Except.pure]
  exact ⟨schema, Bindings.ofDocument_of_parts hs hplans htables rfl hcheck⟩

def blockInput (data : List UInt8) : HostValue := .object [("data", .typedArray .uint8 data)]

/-- A block has the number of its bytes in its length field, however many they are. -/
def blockOf (data : List UInt8) : NativeStruct :=
  ⟨"WGPUBlock", none, [("size", .u32 (.ofInt data.length)), ("data", .buffer ⟨data, some .uint8⟩)]⟩

theorem decode_block (data : List UInt8) :
    blockPlans.decode blockPlan (blockInput data) none .empty = (.ok (blockOf data), .empty) := by
  have hlength : BufferView.length ⟨data, some .uint8⟩ = data.length := Nat.div_one _
  rw [blockOf, ← hlength]
  rfl

theorem numbers_in_range_block : ∃ bindings native,
    Bindings.ofDocument .standard blockDocument = .ok bindings ∧
    Idl.DistinctMembers blockDocument ∧ blockPlan ∈ bindings.plans.plans ∧
    bindings.plans.decode blockPlan (blockInput [1, 2]) none .empty = (.ok native, .empty) ∧
    ∃ value n, native.get? "size" = some value ∧ NumberType.u8.read? value = some n ∧
      IntRange.unsigned8.contains n = true := by
  obtain ⟨schema, hb⟩ := block_bindings
  have hm : blockPlan ∈ blockPlans.plans := by decide
  obtain ⟨-, hdecoded⟩ := numbers_in_range hb block_distinct hm
  obtain ⟨owner, ho, -, hnumbers⟩ := hdecoded _ _ _ _ _ (decode_block [1, 2]) _ .here
  rw [List.mem_singleton.mp ho] at hnumbers
  obtain ⟨value, n, hv, hn, hrange⟩ := hnumbers _ (.head _) .u8 _ _ rfl rfl
  refine ⟨_, _, hb, block_distinct, hm, decode_block [1, 2], value, n, hv, hn, ?_⟩
  rcases hrange with hrange | hover
  · exact hrange
  · cases hv
    cases hn
    decide

/-- A block of 256 bytes tells their number in a field of one byte. -/
theorem block_overflows : ∃ bindings native,
    Bindings.ofDocument .standard blockDocument = .ok bindings ∧
    Idl.DistinctMembers blockDocument ∧
    bindings.plans.decode blockPlan (blockInput (List.replicate 256 0)) none .empty =
      (.ok native, .empty) ∧
    native.get? "size" = some (.u32 256) ∧ NumberType.u8.read? (.u32 256) = some 256 ∧
    NumberType.u8.range? = some .unsigned8 ∧ IntRange.unsigned8.contains 256 = false := by
  obtain ⟨schema, hb⟩ := block_bindings
  have hsize : (blockOf (List.replicate 256 0)).get? "size" = some (.u32 256) := by
    show some (NativeValue.u32 (.ofInt (List.replicate 256 (0 : UInt8)).length)) = _
    rw [List.length_replicate]
    rfl
  exact ⟨_, _, hb, block_distinct, decode_block _, hsize, rfl, rfl, rfl⟩

end DescriptorMarshal
