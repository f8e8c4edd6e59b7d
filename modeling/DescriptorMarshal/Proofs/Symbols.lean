import DescriptorMarshal.Proofs.Constants
import DescriptorMarshal.Proofs.Independence
import DescriptorMarshal.Proofs.Slots

/-!
Symbolic defaults. A default of an enum or bitmask that reads as an integer is that integer; any
other string is the name of a value. A member whose default is a name starts from the integer that
the name denotes, and for an enum leaving the member out and passing the name decode alike.
-/

namespace DescriptorMarshal

def TypeKind.constant (kind : TypeKind) (bits : UInt32) : NativeValue :=
  match kind with
  | .bitmask => .bitmask bits
  | _ => .enumeration bits

/-- No other member of the structure has the name of the member. -/
def StructureNode.Alone (node : StructureNode) (member : Member) : Prop :=
  ∀ other ∈ node.members, other.name = member.name → other = member

theorem StructureNode.Alone.of_head {node : StructureNode} {member : Member} {rest : List Member}
    {name : String} {names : List String} (h : node.members = member :: rest)
    (hname : member.name = name) (hrest : rest.map (·.name) = names) (hn : name ∉ names) :
    node.Alone member := by
  intro other ho hsame
  rw [h] at ho
  rcases List.mem_cons.mp ho with rfl | ho
  · rfl
  · have hmem : other.name ∈ rest.map (·.name) := List.mem_map_of_mem ho
    rw [hrest, hsame, hname] at hmem
    exact absurd hmem hn

/-- The own field of a member starts from a constant, and so does its slot unless other members
share it. The fields of a plan stand in the order of the members. -/
structure StructPlan.StartsAt (set : PlanSet) (plan : StructPlan) (node : StructureNode)
    (member : Member) (bits : UInt32) : Prop where
  field : ∃ field, (member, field) ∈ node.members.zip plan.fields ∧ field.name = member.name ∧
    set.initValue field.init = member.type.kind.constant bits
  slot : node.Alone member →
    (set.reset plan).get? member.name = some (member.type.kind.constant bits)

variable {set : PlanSet} {plan : StructPlan} {schema : Schema} {node : StructureNode}
  {member : Member} {type : TypeDescriptor} {name text owner : String} {bits : UInt32} {n : Int}

/-- The integer that a default reads as, or else that of the constant it names. -/
theorem readDefault_symbol {stubs : List Idl.Stub} {index : NodeIndex} {typeName : String}
    {default : Option DefaultValue} (hc : type.IsConstant) (ha : type.isArray = false)
    (hne : text ≠ "undefined")
    (h : readDefault stubs index typeName type (.string text) = .ok default) :
    (∃ n, Literal.ofJson? (.string text) = some (.integer n) ∧ default = some (.integer n)) ∨
      (∀ n, Literal.ofJson? (.string text) ≠ some (.integer n)) ∧
        ∃ entry stub constant, index.get? typeName = some entry ∧
          stubs[entry.position]? = some stub ∧
            findConstant? stub.record.values text = some constant ∧
              default = some (.integer constant.value) := by
  have hdefined : ¬ (Json.string? (.string text) = some "undefined" ∨
      type.isReference = true ∧ Json.string? (.string text) = some "nullptr") := by
    rintro (hundefined | ⟨hreference, -⟩)
    · exact hne (Option.some.inj hundefined)
    · rw [hc.reference] at hreference
      cases hreference
  have hplain : ¬ (type.isArray = true ∨ type.isReference = true) := by
    rw [ha, hc.reference]
    exact fun h => h.elim nofun nofun
  unfold readDefault at h
  rw [if_neg hdefined, if_neg hplain] at h
  rcases hc.kind with hk | hk <;>
  · rw [hk] at h
    dsimp only at h
    split at h
    · next hn =>
      cases h
      exact .inl ⟨_, hn, rfl⟩
    · cases h
    · next name hname hno =>
      cases hname
      split at h
      · next constant hconstant =>
        cases h
        obtain ⟨entry, hentry, hfound⟩ := Option.bind_eq_some_iff.mp hconstant
        obtain ⟨stub, hstub, hfound⟩ := Option.bind_eq_some_iff.mp hfound
        exact .inr ⟨hno, entry, stub, constant, hentry, hstub, hfound, rfl⟩
      · cases h

theorem defaultBits_integer (hd : member.default = some (.integer n))
    (h : defaultBits owner member = .ok bits) : (bits.toNat : Int) = n := by
  unfold defaultBits at h
  rw [hd] at h
  dsimp only at h
  split at h
  · next hrange =>
    cases h
    exact IntRange.toNat_ofInt hrange
  · cases h

/-- A constant starts from its default, whatever nested structures start from. -/
theorem fieldInitOf_constant {isLength : Bool} {init : FieldInit} (hc : member.type.IsConstant)
    (ha : member.type.isArray = false) (hd : member.default = some (.integer n))
    (h : fieldInitOf owner member isLength = .ok init) :
    ∃ bits : UInt32, (bits.toNat : Int) = n ∧
      ∀ plans fresh, init.value plans fresh = member.type.kind.constant bits := by
  have hplain : ¬ (member.type.isReference = true ∨ member.type.isArray = true) := by
    rw [ha, hc.reference]
    exact fun h => h.elim nofun nofun
  unfold fieldInitOf at h
  rw [if_neg hplain] at h
  cases hb : defaultBits owner member with
  | error fault =>
    rcases hc.kind with hk | hk <;>
    · rw [hk] at h
      simp only [hb] at h
      cases h
  | ok bits =>
    refine ⟨bits, defaultBits_integer hd hb, ?_⟩
    rcases hc.kind with hk | hk <;>
    · rw [hk] at h
      simp only [hb] at h
      cases h
      rw [hk]
      intro plans fresh
      rfl

theorem buildPlan_startsAt (h : buildPlan schema node = .ok plan) (hm : member ∈ node.members)
    (hc : member.type.IsConstant) (ha : member.type.isArray = false)
    (hd : member.default = some (.integer n)) (set : PlanSet) :
    ∃ bits : UInt32, (bits.toNat : Int) = n ∧ plan.StartsAt set node member bits := by
  obtain ⟨hlength, hzip⟩ := List.forall₂_iff_zip.mp (buildPlan_zip h)
  rw [← List.map_fst_zip (Nat.le_of_eq hlength)] at hm
  obtain ⟨⟨own, field⟩, hpair, hown⟩ := List.mem_map.mp hm
  obtain rfl : member = own := hown.symm
  obtain ⟨hname, hinit⟩ := hzip hpair
  obtain ⟨bits, hbits, hvalue⟩ := fieldInitOf_constant hc ha hd hinit
  refine ⟨bits, hbits, ⟨field, hpair, hname, hvalue _ _⟩, ?_⟩
  intro halone
  rw [PlanSet.reset, resetWithin_succ]
  apply get?_foldl_set _ _ (.inr ⟨field, (List.of_mem_zip hpair).2, hname⟩)
  -- a field of this name is that of the member, and starts from the same constant
  intro other ho hother
  obtain ⟨owner, howner, hthis, hsame⟩ := (buildPlan_field h).2 other ho
  have hmem : owner = member := halone owner howner (hthis.symm.trans hother)
  subst hmem
  rw [hinit, Except.ok.injEq] at hsame
  rw [← hsame]
  exact hvalue _ _

theorem Entries.put_eq_self {α : Type} {entries : Entries α} {key : String} {value : α}
    (h : entries.get? key = some value) : entries.put key value = entries := by
  induction entries with
  | nil => cases h
  | cons entry rest ih =>
    obtain ⟨other, old⟩ := entry
    rw [get?] at h
    rw [put]
    split at h
    · next hk =>
      cases h
      rw [if_pos hk, hk]
    · next hk => rw [if_neg hk, ih h]

theorem NativeStruct.set_eq_self {native : NativeStruct} {value : NativeValue}
    (h : native.get? name = some value) : native.set name value = native := by
  rw [NativeStruct.set, Entries.put_eq_self h]
  cases native
  rfl

/-- Where a plan has a member of the name, it takes the text for a constant; and the slot of the
name is no length field. -/
structure StructPlan.Takes (set : PlanSet) (plan : StructPlan) (name text : String)
    (bits : UInt32) : Prop where
  member : ∀ member ∈ plan.members, member.name = name → member.presence = .optional ∧
    ∃ enumeration table, member.marshal = .enumeration enumeration ∧
      set.tableOf? enumeration = some table ∧ table.value? text = some bits
  length : ∀ member ∈ plan.members, ∀ length, member.length = some length → length.name ≠ name

/-- Two objects that are the same but for the name, which has the text in one of them and is missing
in the other, are decoded alike; and a structure that is decoded has the constant in that slot. -/
def StructPlan.TakesAsOmitted (set : PlanSet) (plan : StructPlan) (name text : String)
    (bits : UInt32) : Prop :=
  ∀ given omitted : Entries HostValue, given.get? name = some (.string text) →
    omitted.get? name = none → (∀ key, key ≠ name → given.get? key = omitted.get? key) →
      ∀ next context,
        set.decode plan (.object given) next context =
            set.decode plan (.object omitted) next context ∧
          ∀ native after, set.decode plan (.object omitted) next context = (.ok native, after) →
            native.get? name = some (.enumeration bits)

section

variable {given omitted : Entries HostValue} {planned : MemberPlan} {place : Place} {heap : Heap}
  {native : NativeStruct}

theorem convertName_value {table : NameTable} (ht : set.tableOf? name = some table)
    (hv : table.value? text = some bits) (place : Place) :
    set.convertName name (.string text) place = .ok (.enumeration bits) := by
  simp only [PlanSet.convertName, ht, hv]

namespace StructPlan.Takes

theorem fillProperty_given (ht : plan.Takes set name text bits) (hm : planned ∈ plan.members)
    (hname : planned.name = name) (hg : given.get? name = some (.string text)) :
    set.fillProperty given planned place heap native =
      ⟨heap, native.set name (.enumeration bits), none⟩ := by
  obtain ⟨-, enumeration, table, hmarshal, htable, hvalue⟩ := ht.member planned hm hname
  have hgiven : planned.given? given = some (.string text) :=
    MemberPlan.given?_iff.mpr ⟨hname ▸ hg, nofun, nofun⟩
  have hstruct : planned.marshal.structName? = none := by rw [hmarshal]; rfl
  rw [PlanSet.fillProperty_eq, hgiven]
  dsimp only
  rw [fillValue_plain hstruct, PlanSet.fillPlain, hmarshal]
  dsimp only
  rw [convertName_value htable hvalue, fillConverted, hname]

theorem fillProperty_omitted (ht : plan.Takes set name text bits) (hm : planned ∈ plan.members)
    (hname : planned.name = name) (ho : omitted.get? name = none) :
    set.fillProperty omitted planned place heap native = ⟨heap, native, none⟩ := by
  have hgiven : planned.given? omitted = none := by
    rw [MemberPlan.given?, hname, ho]
    rfl
  rw [PlanSet.fillProperty_eq, hgiven]
  dsimp only
  rw [fillAbsent, (ht.member planned hm hname).1]

theorem fillProperty_keeps (ht : plan.Takes set name text bits) (hm : planned ∈ plan.members)
    (ho : omitted.get? name = none) (hslot : native.get? name = some (.enumeration bits)) :
    (set.fillProperty omitted planned place heap native).native.get? name =
      some (.enumeration bits) := by
  by_cases hname : planned.name = name
  · rw [ht.fillProperty_omitted hm hname ho]
    exact hslot
  · rw [fillProperty_leaves omitted name (Ne.symm hname), hslot]
    rintro ⟨length, hl, hlength⟩
    exact ht.length planned hm length hl hlength

theorem fillProperty_same (ht : plan.Takes set name text bits) (hm : planned ∈ plan.members)
    (hg : given.get? name = some (.string text)) (ho : omitted.get? name = none)
    (hother : ∀ key, key ≠ name → given.get? key = omitted.get? key)
    (hslot : native.get? name = some (.enumeration bits)) :
    set.fillProperty given planned place heap native =
      set.fillProperty omitted planned place heap native := by
  by_cases hname : planned.name = name
  · rw [ht.fillProperty_given hm hname hg, ht.fillProperty_omitted hm hname ho,
      NativeStruct.set_eq_self hslot]
  · rw [PlanSet.fillProperty_eq, PlanSet.fillProperty_eq, MemberPlan.given?, MemberPlan.given?,
      hother planned.name hname]

theorem fillMembers_same (ht : plan.Takes set name text bits)
    (hg : given.get? name = some (.string text)) (ho : omitted.get? name = none)
    (hother : ∀ key, key ≠ name → given.get? key = omitted.get? key) (place : Place) (heap : Heap)
    (hslot : native.get? name = some (.enumeration bits)) :
    fillMembers (fun member => set.fillProperty given member place) plan.members heap native =
        fillMembers (fun member => set.fillProperty omitted member place) plan.members heap native ∧
      (fillMembers (fun member => set.fillProperty omitted member place) plan.members heap
        native).native.get? name = some (.enumeration bits) :=
  fillMembers_congr_of (fun native => native.get? name = some (.enumeration bits))
    (fun _ hm _ _ hnative => ht.fillProperty_same hm hg ho hother hnative)
    (fun _ hm _ _ hnative => ht.fillProperty_keeps hm ho hnative) heap native hslot

/-- A name is taken as its omission when the slot starts from the constant. -/
theorem takesAsOmitted (ht : plan.Takes set name text bits)
    (hslot : (set.reset plan).get? name = some (.enumeration bits)) :
    plan.TakesAsOmitted set name text bits := by
  intro given omitted hg ho hother next context
  have hstart : (if plan.extensible then { set.reset plan with nextInChain := next }
      else set.reset plan).get? name = some (.enumeration bits) := by
    split <;> exact hslot
  obtain ⟨hsame, hkept⟩ :=
    ht.fillMembers_same hg ho hother ⟨plan.externalName, ""⟩ context.heap hstart
  dsimp only at hsame hkept
  constructor
  · simp only [PlanSet.decode, hsame]
  · intro native after h
    simp only [PlanSet.decode] at h
    split at h
    · cases h
      exact hkept
    · cases h

end StructPlan.Takes

end

variable {options : SchemaOptions} {document : Idl.Document} {bindings : Bindings}
  {assembler : Assembler} {raw : Idl.Member} {values : ValueSet}

theorem Assembler.Made.default_symbol (h : assembler.Made document schema)
    (hr : assembler.member owner raw = .ok member) (hc : member.type.IsConstant)
    (hd : raw.default = some (.string text)) (hne : text ≠ "undefined")
    (hv : schema.valueSet? member.type.nativeType = some values) :
    (∀ n, Literal.ofJson? (.string text) = some (.integer n) →
        member.default = some (.integer n)) ∧
      ((∀ n, Literal.ofJson? (.string text) ≠ some (.integer n)) → ∀ bits,
        values.Denotes text bits → member.default = some (.integer bits.toNat)) := by
  have hgives := member_gives hr
  obtain ⟨entry, stub, isBitmask, hentry, hstub, hall⟩ := h.exists_record hgives hc hv
  obtain ⟨-, type, -, hdefault, htype⟩ := member_parts hr
  have harray := hc.isArray hgives.toResolved
  rw [htype] at hc harray
  obtain ⟨hnone, -⟩ | ⟨value, hvalue, hread⟩ := hdefault
  · rw [hnone] at hd
    cases hd
  rw [hd, Option.some.injEq] at hvalue
  subst hvalue
  obtain ⟨n, hn, hdefault⟩ | ⟨hno, entry', stub', constant, hentry', hstub', hfound, hdefault⟩ :=
    readDefault_symbol ⟨hc.reference, hc.kind⟩ harray hne hread
  · constructor
    · intro n' hn'
      rw [hn, Option.some.injEq, DefaultValue.integer.injEq] at hn'
      rw [hdefault, hn']
    · intro hno
      exact absurd hn (hno n)
  · refine ⟨fun n hn => absurd hn (hno n), ?_⟩
    intro _ bits hdenotes
    rw [hentry, Option.some.injEq] at hentry'
    subst hentry'
    rw [hstub, Option.some.injEq] at hstub'
    subst hstub'
    -- the constant and the value that it was assembled to are the first that go by the name
    have hsame := findConstant?_eq hall text
    obtain ⟨value, hvalue, hbits⟩ := Option.map_eq_some_iff.mp hdenotes.first
    rw [hfound, hvalue, Option.map_some, Option.map_some, Option.some.injEq] at hsame
    rw [hdefault, hsame, hbits]

theorem buildPlan_takes {table : NameTable} (h : buildPlan schema node = .ok plan)
    (halone : node.Alone member) (hk : member.type.kind = .enumeration)
    (ha : member.type.isArray = false) (hpresence : member.type.presence = .optional)
    (ht : set.tableOf? member.type.nativeType = some table) (hv : table.value? text = some bits) :
    plan.Takes set member.name text bits := by
  constructor
  · intro planned hm hname
    obtain ⟨owner, howner, hplanned, -⟩ := buildPlan_planned h hm
    have hbuilt := memberPlanOf_built hplanned
    have hmember : owner = member := halone owner howner (hbuilt.name.symm.trans hname)
    subst hmember
    have hmarshal := hbuilt.rule.unique (.enumeration hk ha) (by rw [hk]; nofun)
    exact ⟨hbuilt.presence.trans hpresence, _, table, hmarshal, ht, hv⟩
  · intro planned hm length hl hname
    obtain ⟨owner, -, hplanned, -⟩ := buildPlan_planned h hm
    obtain ⟨-, -, -, counter, hcounter, hcountername, hnumber⟩ :=
      (memberPlanOf_spec hplanned).2.2 length hl
    have hmember : counter = member := halone counter hcounter (hcountername.trans hname)
    rw [hmember, hk] at hnumber
    cases hnumber

/-- A default of an enum or bitmask member that names a declared value: the member starts from the
integer that the name reads as, if it does; otherwise, if the name denotes one integer, the member
starts from it, the values and their table give it for the name, and for an enum member that has no
namesake leaving it out and passing the name decode alike. -/
theorem symbolic_default (hb : Bindings.ofDocument options document = .ok bindings)
    (hm : bindings.schema.Declares document raw node member) (hc : member.type.IsConstant)
    (hd : raw.default = some (.string text)) (hne : text ≠ "undefined")
    (hv : bindings.schema.valueSet? member.type.nativeType = some values)
    (hn : text ∈ values.values.map (·.name)) (hp : plan ∈ bindings.plans.plans)
    (ho : plan.name = node.header.declarationName) :
    (∀ n, Literal.ofJson? (.string text) = some (.integer n) →
      ∃ bits : UInt32, (bits.toNat : Int) = n ∧
        plan.StartsAt bindings.plans node member bits) ∧
    ((∀ n, Literal.ofJson? (.string text) ≠ some (.integer n)) → ∀ bits,
      values.Denotes text bits →
        plan.StartsAt bindings.plans node member bits ∧ values.valueOf? text = some bits ∧
        (∃ table, bindings.plans.tableOf? member.type.nativeType = some table ∧
          table.value? text = some bits) ∧
        (member.type.kind = .enumeration → node.Alone member →
          plan.TakesAsOmitted bindings.plans member.name text bits)) := by
  obtain ⟨hs, hbuild⟩ := Bindings.ofDocument_parts hb
  obtain ⟨assembler, hmade⟩ := exists_assembler hs
  obtain ⟨hnode, hmember, owner, hr⟩ := hmade.declares hm
  have hgives := Assembler.member_gives hr
  have harray := hc.isArray hgives.toResolved
  have hpresence : member.type.presence = .optional := by
    rw [hgives.presence, hd, Option.isSome_some, Bool.or_true, if_pos rfl]
  obtain ⟨hliteral, hsymbol⟩ := hmade.default_symbol hr hc hd hne hv
  -- the plan of this name is built from the node of this name
  obtain ⟨node', hnode', hbuilt, -, -⟩ := Bindings.exists_node hb hp
  have hsame : node' = node := List.inj_on_of_nodup_map (assemble_sound hs).names hnode' hnode
    ((buildPlan_parts hbuilt).1.symm.trans ho)
  subst hsame
  constructor
  · intro n hn
    exact buildPlan_startsAt hbuilt hmember hc harray (hliteral n hn) bindings.plans
  · intro hno bits hdenotes
    obtain ⟨_, _, isBitmask, -, -, hall⟩ := hmade.exists_record hgives hc hv
    have htable := PlanSet.tableOf?_valueSet hs hbuild hv
    have hvalue := hdenotes.value? hn
    obtain ⟨start, hstart, hstarts⟩ :=
      buildPlan_startsAt hbuilt hmember hc harray (hsymbol hno bits hdenotes) bindings.plans
    have hbits : start = bits := UInt32.toNat_inj.mp (Int.ofNat_inj.mp hstart)
    subst hbits
    refine ⟨hstarts, hdenotes.valueOf? (.of_assembled hall) hn, ⟨_, htable, hvalue⟩, ?_⟩
    intro hk halone
    have htakes := buildPlan_takes hbuilt halone hk harray hpresence htable hvalue
    have hslot := hstarts.slot halone
    rw [hk] at hslot
    exact htakes.takesAsOmitted hslot

def shadeValue (name : String) (value : Int) : Json :=
  .object [("name", .string name), ("value", .integer value)]

def shadeMember (name default : String) : Json :=
  .object [("name", .string name), ("type", .string "shade"), ("default", .string default)]

/-- An enum with a name that reads as an integer, a name that another one is spelled as, and a name
for two integers; and members with these defaults, the last with a namesake. -/
def paintDocument : Idl.Document :=
  [("shade", .object [("category", .string "enum"), ("values", .array [
    shadeValue "7" 1, shadeValue "dark red" 2, shadeValue "DARK_RED" 3, shadeValue "plain" 4,
    shadeValue "plain" 5])]),
  ("paint", .object [("category", .string "structure"), ("members", .array [
    shadeMember "words" "dark red", shadeMember "digit" "7", shadeMember "capitals" "DARK_RED",
    shadeMember "repeated" "plain", shadeMember "a b" "dark red",
    .object [("name", .string "aB"), ("type", .string "uint32_t"), ("default", .integer 0)]])])]

def shades : ValueSet :=
  ⟨⟨"shade", "WGPUShade", "GPUShade"⟩, [⟨"7", "7", 1⟩, ⟨"dark red", "dark red", 2⟩,
    ⟨"DARK_RED", "DARK_RED", 3⟩, ⟨"plain", "plain", 4⟩, ⟨"plain", "plain", 5⟩]⟩

def shadeMemberPlan (name : String) : MemberPlan :=
  ⟨name, .optional, .enumeration "WGPUShade", .value, none, "WGPUShade"⟩

def paintPlan : StructPlan where
  name := "WGPUPaint"
  externalName := "GPUPaint"
  extensible := false
  members := [shadeMemberPlan "words", shadeMemberPlan "digit", shadeMemberPlan "capitals",
    shadeMemberPlan "repeated", shadeMemberPlan "aB",
    ⟨"aB", .optional, .number .u32, .value, none, "uint32_t"⟩]
  fields := [⟨"words", "WGPUShade", .enumeration 2⟩, ⟨"digit", "WGPUShade", .enumeration 7⟩,
    ⟨"capitals", "WGPUShade", .enumeration 2⟩, ⟨"repeated", "WGPUShade", .enumeration 4⟩,
    ⟨"aB", "WGPUShade", .enumeration 2⟩, ⟨"aB", "uint32_t", .number .u32 (.integer 0)⟩]

def paintPlans : PlanSet :=
  ⟨[paintPlan], [.ofValueSet shades], [("GPUShade", "WGPUShade"), ("GPUPaint", "WGPUPaint")]⟩

structure PaintWords (schema : Schema) (raw : Idl.Member) (node : StructureNode) (member : Member) :
    Prop where
  declares : schema.Declares paintDocument raw node member
  default : raw.default = some (.string "dark red")
  owner : paintPlan.name = node.header.declarationName
  name : member.name = "words"
  constant : member.type.IsConstant
  kind : member.type.kind = .enumeration
  values : schema.valueSet? member.type.nativeType = some shades
  alone : node.Alone member

theorem paint_bindings : ∃ schema raw node member,
    Bindings.ofDocument .standard paintDocument = .ok ⟨schema, paintPlans⟩ ∧
    PaintWords schema raw node member := by
  obtain ⟨schema, hs, hplans, htables, raw, node, member, hwords⟩ : ∃ schema,
      assemble .standard paintDocument = .ok schema ∧
        schema.structures.mapM (buildPlan schema) = .ok paintPlans.plans ∧
          (schema.enums ++ schema.bitmasks).map NameTable.ofValueSet = paintPlans.tables ∧
            ∃ raw node member, PaintWords schema raw node member := by
    have hnames : "words" ∉ ["digit", "capitals", "repeated", "aB", "aB"] := by decide
    exact ⟨_, rfl, rfl, rfl, _, _, _, ⟨_, _, rfl, .tail _ (.head _), .head _⟩, rfl, rfl, rfl,
      ⟨rfl, .inl rfl⟩, rfl, rfl, .of_head rfl rfl rfl hnames⟩
  have hcheck : checkEmbedding paintPlans.plans = .ok () := by
    simp [checkEmbedding, Embedding.check, Embedding.walk, Embedding.enter, paintPlans, paintPlan]
  exact ⟨schema, raw, node, member,
    Bindings.ofDocument_of_parts hs hplans htables rfl hcheck, hwords⟩

theorem shades_denotes : shades.Denotes "dark red" 2 := by
  constructor
  · rfl
  · decide

/-- A paint with its words given, and one without. -/
def paintGiven : Entries HostValue := [("digit", .string "7"), ("words", .string "dark red")]

def paintOmitted : Entries HostValue := [("digit", .string "7")]

theorem symbolic_default_paint : ∃ bindings,
    Bindings.ofDocument .standard paintDocument = .ok bindings ∧
    (bindings.plans.reset paintPlan).get? "words" = some (.enumeration 2) ∧
    shades.valueOf? "dark red" = some 2 ∧
    bindings.plans.decode paintPlan (.object paintGiven) none .empty =
      bindings.plans.decode paintPlan (.object paintOmitted) none .empty := by
  obtain ⟨schema, raw, node, member, hb, hwords⟩ := paint_bindings
  have hn : "dark red" ∈ shades.values.map (·.name) := by decide
  have hp : paintPlan ∈ paintPlans.plans := List.mem_singleton_self _
  have hliteral : Literal.ofJson? (.string "dark red") = none := rfl
  have hno : ∀ n, Literal.ofJson? (.string "dark red") ≠ some (.integer n) := by
    rw [hliteral]
    exact fun _ => nofun
  obtain ⟨-, hsymbol⟩ := symbolic_default hb hwords.declares hwords.constant hwords.default
    (by decide) hwords.values hn hp hwords.owner
  obtain ⟨hstarts, hvalue, -, htaken⟩ := hsymbol hno 2 shades_denotes
  have hslot := hstarts.slot hwords.alone
  have htaken := htaken hwords.kind hwords.alone
  rw [hwords.name, hwords.kind] at hslot
  rw [hwords.name] at htaken
  have hother : ∀ key, key ≠ "words" → paintGiven.get? key = paintOmitted.get? key := by
    intro key hk
    simp only [paintGiven, paintOmitted, Entries.get?, if_neg (Ne.symm hk)]
  exact ⟨_, hb, hslot, hvalue, (htaken _ _ rfl rfl hother none .empty).1⟩

/-- A default that reads as an integer is not the name that it is, one of two spellings is the first
of both, a repeated name is the first of the repeated, and a slot with a namesake is that of the
namesake; where the table gives the value of the name. -/
theorem paint_misnamed : ∃ bindings table,
    Bindings.ofDocument .standard paintDocument = .ok bindings ∧
    bindings.plans.tableOf? "WGPUShade" = some table ∧
    (bindings.plans.reset paintPlan).get? "digit" = some (.enumeration 7) ∧
    table.value? "7" = some 1 ∧
    (bindings.plans.reset paintPlan).get? "capitals" = some (.enumeration 2) ∧
    table.value? "DARK_RED" = some 3 ∧
    (bindings.plans.reset paintPlan).get? "repeated" = some (.enumeration 4) ∧
    table.value? "plain" = some 5 ∧
    (bindings.plans.reset paintPlan).get? "aB" = some (.u32 0) ∧
    table.value? "dark red" = some 2 := by
  obtain ⟨schema, -, -, -, hb, -⟩ := paint_bindings
  exact ⟨_, _, hb, rfl, rfl, rfl, rfl, rfl, rfl, rfl, rfl, rfl⟩

end DescriptorMarshal
