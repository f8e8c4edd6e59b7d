import DescriptorMarshal.Proofs.Literals
import DescriptorMarshal.Proofs.Records
import DescriptorMarshal.Proofs.Typing

/-!
Defaults that are numbers. The default of a number, of a member or an argument, is the number that
its literal is meant as, taken for a double by a floating type. So it is finite and was written as
a literal should be, unless it is one of the texts that stray.
-/

namespace DescriptorMarshal

namespace Json

/-- An integer has 64 bits, with a sign or without, and a double is finite. -/
inductive Scalar : Json → Prop where
  | null : Scalar .null
  | bool (value : Bool) : Scalar (.bool value)
  | integer {n : Int} (range : n.natAbs ≤ 2 ^ 64) : Scalar (.integer n)
  | double {x : Binary64} (finite : x.isFinite = true) : Scalar (.double x)

/-- Every number in the value is one that JSON text can have. -/
inductive Bounded : Json → Prop where
  | scalar {value : Json} (plain : Scalar value) : Bounded value
  | text (text : String) : Bounded (.string text)
  | array {items : List Json} (all : ∀ item ∈ items, Bounded item) : Bounded (.array items)
  | object {members : Entries Json} (all : ∀ entry ∈ members, Bounded entry.2) :
    Bounded (.object members)

end Json

/-- A number is written as it is meant, in JSON or as a literal in a text. -/
inductive Json.Spells : Json → DefaultValue → Prop where
  | integer (n : Int) : Spells (.integer n) (.integer n)
  | double (x : Binary64) : Spells (.double x) (.float x)
  | literal {text : String} {v : DefaultValue}
    (meant : Literal.Grammatical (trim text.toList) v) : Spells (.string text) v

/-- A text that is read as a number although it is not meant as one. -/
def Json.Strays (value : Json) : Prop :=
  ∃ text v, value = .string text ∧ Literal.Stray (trim text.toList) v

/-- What a literal is as a default: a floating type takes an integer for a double. -/
def TypeKind.takes : TypeKind → DefaultValue → DefaultValue
  | .number type, .integer n => if type.isFloat then .float (.ofInt n) else .integer n
  | _, literal => literal

/-- The default of the member is written as a number: always if the member is one, and for an enum
or bitmask if it reads as an integer. -/
def Member.Numeric (member : Member) (value : Json) : Prop :=
  (∃ type, member.type.kind = .number type) ∨
    (member.type.kind = .enumeration ∨ member.type.kind = .bitmask) ∧
      ∃ n, Literal.ofJson? value = some (.integer n)

/-- A member of a structure or an argument of a method, and the raw one it was made of. -/
inductive Schema.Carries (schema : Schema) (document : Idl.Document) (raw : Idl.Member)
    (member : Member) : Prop where
  | field {node : StructureNode} (declares : schema.Declares document raw node member)
  | argument {normalized : Idl.Normalized} {stub : Idl.Stub} {node : ObjectNode}
    {written : Idl.Method} {method : Method} (normalizes : Idl.normalize document = .ok normalized)
    (record : (stub, .object node) ∈ normalized.stubs.zip schema.nodes)
    (declares : (written, method) ∈ stub.record.methods.zip node.methods)
    (takes : (raw, member) ∈ written.args.zip method.args)

variable {options : SchemaOptions} {document : Idl.Document} {schema : Schema}
  {assembler : Assembler} {stub : Idl.Stub} {raw : Idl.Member} {member : Member} {value : Json}
  {type : TypeDescriptor} {default : DefaultValue}

namespace Json.Bounded

variable {fields : Entries Json} {key : String} {found : Json}

theorem item {items : List Json} (h : (Json.array items).Bounded) (hm : found ∈ items) :
    found.Bounded := by
  cases h with
  | scalar hplain => cases hplain
  | array hall => exact hall _ hm

theorem field (h : (Json.object fields).Bounded) (hg : fields.get? key = some found) :
    found.Bounded := by
  cases h with
  | scalar hplain => cases hplain
  | object hall => exact hall _ (Entries.mem_of_get? hg)

theorem get? (h : value.Bounded) (hg : value.get? key = some found) : found.Bounded := by
  cases value with
  | object fields => exact h.field hg
  | _ => cases hg

end Json.Bounded

namespace Idl

theorem exists_of_defaulted {α : Type} {read : Json → Option α} {given : Option Json}
    {found : List α} {item : α} (h : defaulted [] (listOf? read) given = some found)
    (hb : ∀ value ∈ given, value.Bounded) (hm : item ∈ found) :
    ∃ value : Json, value.Bounded ∧ read value = some item := by
  cases given with
  | none =>
    cases h
    cases hm
  | some value =>
    obtain ⟨items, hitems, hread⟩ := Option.bind_eq_some_iff.mp h
    cases value with
    | array values =>
      cases hitems
      obtain ⟨value, hv, hr⟩ := exists_of_mem_right (Literal.mapM_eq_some_iff.mp hread) hm
      exact ⟨value, (hb _ rfl).item hv, hr⟩
    | _ => cases hitems

theorem Member.ofFields?_default {name typeName indirection length isOptional given isInternal :
    Option Json}
    (h : ofFields? name typeName indirection length isOptional given isInternal = some raw)
    (hd : raw.default = some value) : given = some value := by
  unfold ofFields? at h
  simp only [Option.bind_eq_bind, Option.bind_eq_some_iff, Option.some.injEq] at h
  obtain ⟨_, -, _, -, _, -, _, -, _, -, default, hdefault, _, -, rfl⟩ := h
  subst hd
  unfold nullable at hdefault
  split at hdefault
  · cases hdefault
  · cases hdefault
  · cases hdefault
    rfl

theorem Member.ofJson?_default {written : Json} (h : ofJson? written = some raw)
    (hb : written.Bounded) (hd : raw.default = some value) : value.Bounded := by
  unfold ofJson? at h
  split at h
  · exact hb.field (ofFields?_default h hd)
  · cases ofFields?_default h hd
    exact hb.item (by simp)
  · cases ofFields?_default h hd
    exact hb.item (by simp)
  · cases h

def Record.Bounded (record : Record) : Prop :=
  ∀ raw, raw ∈ record.members ∨ (∃ method ∈ record.methods, raw ∈ method.args) →
    ∀ value, raw.default = some value → value.Bounded

theorem Method.exists_args {written : Json} {method : Method} (h : ofJson? written = some method)
    (hb : written.Bounded) : ∃ given : Option Json, (∀ value ∈ given, value.Bounded) ∧
      defaulted [] (listOf? Member.ofJson?) given = some method.args := by
  have hfields : ∀ name returns given : Option Json, ofFields? name returns given = some method →
      defaulted [] (listOf? Member.ofJson?) given = some method.args := by
    intro name returns given h
    unfold ofFields? at h
    simp only [Option.bind_eq_bind, Option.bind_eq_some_iff, Option.some.injEq] at h
    obtain ⟨_, -, _, -, args, hargs, rfl⟩ := h
    exact hargs
  unfold ofJson? at h
  split at h
  · exact ⟨_, fun _ => hb.field, hfields _ _ _ h⟩
  · exact ⟨none, fun _ hgiven => (Option.not_mem_none _ hgiven).elim, hfields _ _ _ h⟩
  · refine ⟨_, ?_, hfields _ _ _ h⟩
    rintro _ ⟨⟩
    exact hb.item (by simp)
  · cases h

theorem Record.ofJson?_bounded {written : Json} {record : Record}
    (h : ofJson? written = some record) (hb : written.Bounded) : record.Bounded := by
  unfold ofJson? at h
  simp only [Option.bind_eq_bind, Option.bind_eq_some_iff, Option.some.injEq] at h
  obtain ⟨_, -, _, -, methods, hmethods, members, hmembers, _, -, rfl⟩ := h
  rintro raw (hm | ⟨method, hmethod, hm⟩) value hd
  · obtain ⟨json, hjson, hread⟩ := exists_of_defaulted hmembers (fun _ => hb.get?) hm
    exact Member.ofJson?_default hread hjson hd
  · obtain ⟨json, hjson, hread⟩ := exists_of_defaulted hmethods (fun _ => hb.get?) hmethod
    obtain ⟨given, hgiven, hargs⟩ := Method.exists_args hread hjson
    obtain ⟨json, hjson, hread⟩ := exists_of_defaulted hargs hgiven hm
    exact Member.ofJson?_default hread hjson hd

theorem normalize_bounded {normalized : Normalized} (hb : (Json.object document).Bounded)
    (hn : normalize document = .ok normalized) (hs : stub ∈ normalized.stubs) :
    stub.record.Bounded := by
  obtain ⟨-, rfl⟩ := normalize_iff.mp hn
  obtain ⟨entry, he, hstub⟩ := List.mem_filterMap.mp hs
  obtain ⟨-, -, hread⟩ := stub?_spec hstub
  cases hb with
  | scalar hplain => cases hplain
  | object hall => exact Record.ofJson?_bounded hread (hall entry he)

end Idl

theorem Schema.Carries.bounded (h : schema.Carries document raw member)
    (hb : (Json.object document).Bounded) (hd : raw.default = some value) : value.Bounded := by
  cases h with
  | field hdeclares =>
    obtain ⟨normalized, stub, hn, hnode, hmember⟩ := hdeclares
    exact Idl.normalize_bounded hb hn (List.of_mem_zip hnode).1 raw
      (.inl (List.of_mem_zip hmember).1) value hd
  | argument hn hnode hmethod hmember =>
    exact Idl.normalize_bounded hb hn (List.of_mem_zip hnode).1 raw
      (.inr ⟨_, (List.of_mem_zip hmethod).1, (List.of_mem_zip hmember).1⟩) value hd

theorem Assembler.Made.carries (h : assembler.Made document schema)
    (hc : schema.Carries document raw member) :
    ∃ owner, assembler.member owner raw = .ok member := by
  cases hc with
  | field hdeclares => exact (h.declares hdeclares).2.2
  | @argument normalized stub node written method hn hnode hmethod hmember =>
    obtain ⟨normalized', hn', hstubs⟩ := h.stubs
    rw [hn, Except.ok.injEq] at hn'
    subst hn'
    have hmade : assembler.node stub = .ok (.object node) :=
      (List.forall₂_iff_zip.mp h.nodes).2 (hstubs ▸ hnode)
    obtain ⟨owner, hmethods⟩ := Assembler.node_methods hmade
    have hargs := (List.forall₂_iff_zip.mp (forall₂_of_mapM hmethods)).2 hmethod
    obtain ⟨-, -, hmembers⟩ := Assembler.method_parts hargs
    exact ⟨owner, (List.forall₂_iff_zip.mp (Assembler.members_forall₂ hmembers)).2 hmember⟩

/-- A default that is written as a number is the number it reads as. -/
theorem readDefault_takes {stubs : List Idl.Stub} {index : NodeIndex} {typeName : String}
    (h : readDefault stubs index typeName type value = .ok (some default))
    (hk : (∃ number, type.kind = .number number) ∨
      (type.kind = .enumeration ∨ type.kind = .bitmask) ∧
        ∃ n, Literal.ofJson? value = some (.integer n)) :
    ∃ v, Literal.ofJson? value = some v ∧ default = type.kind.takes v := by
  unfold readDefault at h
  dsimp only at h
  split at h
  · cases h
  split at h
  · cases h
  rcases hk with ⟨number, hk⟩ | ⟨hk, n, hn⟩
  · rw [hk] at h ⊢
    dsimp only at h
    split at h
    · cases h
    · next n hn =>
      refine ⟨_, hn, ?_⟩
      -- exactly the floating types have no range
      split at h
      · next hrange =>
        cases h
        cases number <;> first | rfl | cases hrange
      · next hrange =>
        split at h <;> cases h
        cases number <;> first | rfl | cases hrange
    · next hno hv =>
      split at h <;> cases h
      refine ⟨_, hv, ?_⟩
      cases default with
      | integer n => exact absurd rfl (hno n)
      | _ => rfl
  · refine ⟨_, hn, ?_⟩
    rcases hk with hk | hk <;>
    · rw [hk] at h ⊢
      rw [hn] at h
      cases h
      rfl

/-- A number that is read is written as it is meant exactly when it does not stray. -/
theorem Json.spells_iff {v : DefaultValue} (h : Literal.ofJson? value = some v) :
    value.Spells v ↔ ¬ value.Strays := by
  cases value with
  | string text =>
    have hread : Literal.readNumber? (trim text.toList) = some v := h
    constructor
    · rintro (_ | _ | hmeant) ⟨_, _, ⟨⟩, hstray⟩
      exact hmeant.not_stray hstray
    · intro hstrays
      refine .literal (((Literal.readNumber?_iff _ v).mp hread).resolve_right fun hstray => ?_)
      exact hstrays ⟨text, v, rfl, hstray⟩
  | integer n =>
    cases h
    exact iff_of_true (.integer n) nofun
  | double x =>
    cases h
    exact iff_of_true (.double x) nofun
  | _ => cases h

theorem Json.Spells.isFinite {x : Binary64} (h : value.Spells (.float x)) (hb : value.Bounded) :
    x.isFinite = true := by
  cases h with
  | double =>
    cases hb with
    | scalar hplain =>
      cases hplain
      assumption
  | literal hmeant => exact hmeant.isFinite

theorem Json.Spells.natAbs_le {n : Int} (h : value.Spells (.integer n)) (hb : value.Bounded) :
    n.natAbs ≤ 2 ^ 128 := by
  cases h with
  | integer =>
    cases hb with
    | scalar hplain =>
      cases hplain with
      | integer hrange => exact hrange.trans (by decide)
  | literal hmeant =>
    obtain ⟨hlow, hhigh⟩ := IntRange.contains_iff.mp hmeant.contains
    have hleast : IntRange.signed128.least = -2 ^ 127 := rfl
    have hmost : IntRange.signed128.most = 2 ^ 127 - 1 := rfl
    omega

theorem Json.Spells.takes_isFinite {v : DefaultValue} {kind : TypeKind} {x : Binary64}
    (h : value.Spells v) (hb : value.Bounded) (ht : kind.takes v = .float x) :
    x.isFinite = true := by
  unfold TypeKind.takes at ht
  split at ht
  · next type n =>
    split at ht <;> cases ht
    exact Binary64.isFinite_ofInt (h.natAbs_le hb)
  · cases ht
    exact h.isFinite hb

/-- A text is read as a number exactly when it is meant as the number, a decimal being finite, or
strays, and it does not do both. Where every number in a document is one that JSON text can have,
the default of a number is what its literal is read as, finite and written as it is meant unless the
literal strays. -/
theorem number_literals_iff (options : SchemaOptions) :
    (∀ text v, Literal.readNumber? text = some v ↔
      Literal.Grammatical text v ∨ Literal.Stray text v) ∧
    (∀ text v w, Literal.Grammatical text v → ¬ Literal.Stray text w) ∧
    (∀ text x, Literal.Grammatical text (.float x) → x.isFinite = true) ∧
    ∀ document schema raw member value default, (Json.object document).Bounded →
      assemble options document = .ok schema → schema.Carries document raw member →
      raw.default = some value → member.default = some default → member.Numeric value →
      ∃ v, Literal.ofJson? value = some v ∧ default = member.type.kind.takes v ∧
        ((value.Spells v ∧ ∀ x, default = .float x → x.isFinite = true) ↔ ¬ value.Strays) := by
  refine ⟨Literal.readNumber?_iff, fun _ _ _ => Literal.Grammatical.not_stray,
    fun _ _ => Literal.Grammatical.isFinite, ?_⟩
  intro document schema raw member value default hb hs hc hraw hdefault hnumeric
  obtain ⟨assembler, hmade⟩ := exists_assembler hs
  obtain ⟨owner, hmember⟩ := hmade.carries hc
  obtain ⟨-, type, -, hread, htype⟩ := Assembler.member_parts hmember
  have hkind : member.type.kind = type.kind := by rw [htype]
  rw [Member.Numeric, hkind] at hnumeric
  rw [hraw, hdefault] at hread
  obtain ⟨⟨⟩, -⟩ | ⟨_, ⟨⟩, hread⟩ := hread
  obtain ⟨v, hv, rfl⟩ := readDefault_takes hread hnumeric
  refine ⟨v, hv, by rw [hkind], ?_⟩
  rw [← Json.spells_iff hv]
  exact ⟨And.left, fun hspells =>
    ⟨hspells, fun x => hspells.takes_isFinite (hc.bounded hb hraw)⟩⟩

def limitMember (name type default : String) : Json :=
  .object [("name", .string name), ("type", .string type), ("default", .string default)]

/-- Defaults that are numbers, of which the last two are not meant as such. -/
def limitDocument : Idl.Document :=
  [("limit", .object [("category", .string "structure"), ("members", .array [
    limitMember "mask" "uint32_t" " 0x1F ", limitMember "scale" "float" "-2.5e3",
    limitMember "offset" "int32_t" "0x-5", limitMember "floor" "double" "-Infinity"])])]

def Schema.LimitDefault (schema : Schema) (type : NumberType) (text : String)
    (default : DefaultValue) : Prop :=
  ∃ raw member, schema.Carries limitDocument raw member ∧ raw.default = some (.string text) ∧
    member.type.kind = .number type ∧ member.default = some default

theorem limit_bounded : (Json.object limitDocument).Bounded := by
  have hmember : ∀ name type default, (limitMember name type default).Bounded := by
    intro name type default
    refine .object ?_
    simp only [List.forall_mem_cons]
    exact ⟨.text _, .text _, .text _, nofun⟩
  refine .object (List.forall_mem_singleton.mpr (.object ?_))
  simp only [List.forall_mem_cons]
  refine ⟨.text _, .array ?_, nofun⟩
  simp only [List.forall_mem_cons, hmember, true_and]
  exact nofun

theorem limit_assembled : ∃ schema, assemble .standard limitDocument = .ok schema ∧
    schema.LimitDefault .u32 " 0x1F " (.integer 31) ∧
    schema.LimitDefault .f32 "-2.5e3" (.float (.ofInt (-2500))) ∧
    schema.LimitDefault .i32 "0x-5" (.integer (-5)) ∧
    schema.LimitDefault .f64 "-Infinity" (.float (.infinity true)) := by
  refine ⟨_, rfl, ⟨_, _, .field ⟨_, _, rfl, .head _, .head _⟩, rfl, rfl, rfl⟩,
    ⟨_, _, .field ⟨_, _, rfl, .head _, .tail _ (.head _)⟩, rfl, rfl, rfl⟩,
    ⟨_, _, .field ⟨_, _, rfl, .head _, .tail _ (.tail _ (.head _))⟩, rfl, rfl, rfl⟩,
    ⟨_, _, .field ⟨_, _, rfl, .head _, .tail _ (.tail _ (.tail _ (.head _)))⟩, rfl, rfl, rfl⟩⟩

theorem number_literals_scale : ∃ schema raw member v,
    (Json.object limitDocument).Bounded ∧ assemble .standard limitDocument = .ok schema ∧
    schema.Carries limitDocument raw member ∧ raw.default = some (.string "-2.5e3") ∧
    member.default = some (.float (.ofInt (-2500))) ∧ member.Numeric (.string "-2.5e3") ∧
    Literal.ofJson? (.string "-2.5e3") = some v ∧ Json.Spells (.string "-2.5e3") v ∧
    (Binary64.ofInt (-2500)).isFinite = true := by
  obtain ⟨schema, hs, -, ⟨raw, member, hc, hraw, hkind, hdefault⟩, -⟩ := limit_assembled
  obtain ⟨-, -, -, hdefaults⟩ := number_literals_iff .standard
  have hnumeric : member.Numeric (.string "-2.5e3") := .inl ⟨_, hkind⟩
  obtain ⟨v, hv, -, hmeant⟩ :=
    hdefaults _ _ _ _ _ _ limit_bounded hs hc hraw hdefault hnumeric
  have hno : ¬ Json.Strays (.string "-2.5e3") := by
    rintro ⟨_, w, ⟨⟩, hstray⟩
    cases (Literal.readNumber?_iff _ w).mpr (.inr hstray)
    exact absurd hstray.not_isFinite (by decide)
  obtain ⟨hspells, hfinite⟩ := hmeant.mpr hno
  exact ⟨schema, raw, member, v, limit_bounded, hs, hc, hraw, hdefault, hnumeric, hv, hspells,
    hfinite _ rfl⟩

/-- Two texts that are not meant as numbers are read as such, and one default is infinite. -/
theorem limits_stray : ∃ schema, assemble .standard limitDocument = .ok schema ∧
    schema.LimitDefault .i32 "0x-5" (.integer (-5)) ∧
    schema.LimitDefault .f64 "-Infinity" (.float (.infinity true)) ∧
    (Binary64.infinity true).isFinite = false ∧
    Literal.readNumber? "0x-5".toList = some (.integer (-5)) ∧
    (∀ v, ¬ Literal.Grammatical "0x-5".toList v) ∧
    ∀ v, ¬ Literal.Grammatical "-Infinity".toList v := by
  obtain ⟨schema, hs, -, -, hoffset, hfloor⟩ := limit_assembled
  have hdigits : Literal.Digits 16 hexValue? ['5'] 5 := Literal.readHexDigits?_iff.mp rfl
  have hsigned : Literal.Stray "0x-5".toList (.integer (-5)) :=
    .signed (.inl rfl) .minus (by decide) hdigits rfl
  have hnamed : Literal.Stray "-Infinity".toList (.float (.infinity true)) :=
    .named (.infinity (.inr rfl))
  exact ⟨schema, hs, hoffset, hfloor, Binary64.isFinite_infinity true, rfl,
    fun v h => h.not_stray hsigned, fun v h => h.not_stray hnamed⟩

end DescriptorMarshal
