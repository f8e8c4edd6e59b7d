import DescriptorMarshal.Proofs.Coherence

/-!
Complete plans. Whatever the members of a document are called, its plans own what their marshaling
operations allocate, name only plans and tables that are there, and count every array in an
integer field.
-/

namespace DescriptorMarshal

variable {resolver : Resolver} {assembler : Assembler} {owner name : String} {raw : Idl.Member}
  {type : TypeDescriptor} {member : Member} {members : List Member} {stub : Idl.Stub}

/-- A type whose kind is a category of records is named after a record of that category. -/
def TypeDescriptor.Refers (index : NodeIndex) (type : TypeDescriptor) : Prop :=
  ∀ category, type.kind = kindOfCategory category →
    ∃ entry ∈ index.entries, entry.category = category ∧ entry.declarationName = type.nativeType

theorem kindOfCategory_injective {first second : Idl.Category}
    (h : kindOfCategory first = kindOfCategory second) : first = second := by
  cases first <;> cases second <;> first | rfl | cases h

theorem Resolver.classify?_refers {typeName : String} {named : NamedType} {category : Idl.Category}
    (h : resolver.classify? typeName = some named) (hk : named.kind = kindOfCategory category) :
    ∃ entry, resolver.index.get? typeName = some entry ∧ entry.category = category ∧
      entry.declarationName = named.nativeType := by
  unfold Resolver.classify? at h
  split at h
  · cases h
    cases category <;> cases hk
  split at h
  · cases h
    cases category <;> cases hk
  · cases h
    cases category <;> cases hk
  · cases h
    cases category <;> cases hk
  split at h
  · cases h
    cases category <;> cases hk
  · obtain ⟨entry, he, hn⟩ := Option.map_eq_some_iff.mp h
    subst hn
    exact ⟨entry, he, kindOfCategory_injective hk, rfl⟩

theorem Resolver.Gives.refers (h : resolver.Gives raw type) : type.Refers resolver.index := by
  intro category hk
  obtain ⟨named, hc, hkind, hnative⟩ := h.named
  obtain ⟨entry, he, hcategory, hname⟩ := classify?_refers hc (hkind.symm.trans hk)
  exact ⟨entry, NodeIndex.mem_of_get? he, hcategory, hname.trans hnative.symm⟩

theorem ok_of_forM {ε α : Type} {f : α → Except ε Unit} {items : List α}
    (h : items.forM f = .ok ()) : ∀ item ∈ items, f item = .ok () := by
  induction items with
  | nil => nofun
  | cons item rest ih =>
    have hstep : (f item >>= fun _ => rest.forM f) = .ok () := h
    obtain ⟨_, hf, hrest⟩ := ok_of_bind hstep
    intro other ho
    rcases List.mem_cons.mp ho with rfl | ho
    · exact hf
    · exact ih hrest other ho

theorem counter_of_checkLengths (h : checkLengths owner members = .ok ()) (hm : member ∈ members)
    (ha : member.type.isArray = true) :
    ∃ length, member.type.length = some length ∧ hasCounter members length = true := by
  have hone := ok_of_forM h member (List.mem_filter.mpr ⟨hm, ha⟩)
  split at hone
  · cases hone
  · next length hl =>
    split at hone
    · next hc => exact ⟨length, hl, hc⟩
    · cases hone

/-- What the members of an assembled structure can be relied on for, besides their flags. -/
structure StructureNode.Grounded (index : NodeIndex) (node : StructureNode) : Prop where
  refers : ∀ member ∈ node.members, member.type.Refers index
  string : ∀ member ∈ node.members, member.type.kind = .string →
    member.type.isReference = true ∧ member.type.isArray = false
  counter : ∀ member ∈ node.members, member.type.isArray = true →
    ∃ length, member.type.length = some length ∧ hasCounter node.members length = true

theorem Assembler.members_grounded {header : NodeHeader} {extensible : Bool}
    {fields : List Idl.Member} (h : assembler.members owner fields = .ok members) :
    StructureNode.Grounded assembler.resolver.index ⟨header, extensible, members⟩ := by
  have hall := members_forall₂ h
  have hgives : ∀ member ∈ members, ∃ raw, assembler.resolver.Gives raw member.type := by
    intro member hm
    obtain ⟨raw, -, hr⟩ := exists_of_mem_right hall hm
    exact ⟨raw, member_gives hr⟩
  obtain ⟨members', -, h⟩ := ok_of_bind h
  obtain ⟨_, hc, h⟩ := ok_of_bind h
  cases h
  refine ⟨?_, ?_, fun member hm => counter_of_checkLengths hc hm⟩
  · intro member hm
    obtain ⟨raw, hgives⟩ := hgives member hm
    exact hgives.refers
  · intro member hm
    obtain ⟨raw, hgives⟩ := hgives member hm
    exact hgives.string

theorem Assembler.node_grounded {node : SchemaNode} (h : assembler.node stub = .ok node) :
    node.category = stub.category ∧
      ∀ inner, node = .struct inner → inner.Grounded assembler.resolver.index := by
  unfold Assembler.node at h
  cases hc : stub.category with
  | enumeration | bitmask | object =>
    simp only [hc] at h
    obtain ⟨_, -, h⟩ := ok_of_bind h
    cases h
    exact ⟨rfl, nofun⟩
  | struct =>
    simp only [hc] at h
    obtain ⟨members, hm, h⟩ := ok_of_bind h
    cases h
    refine ⟨rfl, ?_⟩
    intro inner he
    cases he
    exact members_grounded hm

variable {options : SchemaOptions} {document : Idl.Document} {schema : Schema}

theorem assemble_grounded (h : assemble options document = .ok schema) :
    (∀ entry ∈ schema.index.entries, ∃ node ∈ schema.nodes, node.category = entry.category ∧
        node.header.declarationName = entry.declarationName) ∧
      ∀ node ∈ schema.structures, node.Grounded schema.index := by
  obtain ⟨normalized, -, h⟩ := ok_of_bind h
  obtain ⟨index, hi, h⟩ := ok_of_bind h
  obtain ⟨nodes, hnodes, h⟩ := ok_of_bind h
  cases h
  have hall := forall₂_of_mapM hnodes
  constructor
  · intro entry he
    obtain ⟨stub, hs, hentry⟩ := (NodeIndex.build_iff.mp hi).mem_iff.mp he
    obtain ⟨node, hn, hr⟩ := exists_of_mem_left hall (List.mem_of_getElem? hs)
    rw [hentry]
    exact ⟨node, hn, (Assembler.node_grounded hr).1, (Assembler.node_assembled hr).name⟩
  · intro node hn
    obtain ⟨stub, -, hr⟩ := exists_of_mem_right hall (mem_structures.mp hn)
    exact (Assembler.node_grounded hr).2 node rfl

theorem exists_node (h : assemble options document = .ok schema) {node : StructureNode}
    (hn : node ∈ schema.structures) (hm : member ∈ node.members) {category : Idl.Category}
    (hk : member.type.kind = kindOfCategory category) :
    ∃ other ∈ schema.nodes, other.category = category ∧
      other.header.declarationName = member.type.nativeType := by
  obtain ⟨hlisted, hgrounded⟩ := assemble_grounded h
  obtain ⟨entry, he, hc, hd⟩ := (hgrounded node hn).refers member hm category hk
  obtain ⟨other, ho, hoc, hod⟩ := hlisted entry he
  exact ⟨other, ho, hoc.trans hc, hod.trans hd⟩

/-! ### Operations -/

namespace Marshal

def enumerationName? : Marshal → Option String
  | .enumeration name | .enumerationArray name => some name
  | _ => none

theorem eq_of_structName? {marshal : Marshal} {name : String}
    (h : marshal.structName? = some name) :
    (∃ byReference, marshal = .nested name byReference) ∨
      ∃ ofPointers, marshal = .nestedArray name ofPointers := by
  cases marshal with
  | nested inner byReference =>
    cases h
    exact Or.inl ⟨byReference, rfl⟩
  | nestedArray inner ofPointers =>
    cases h
    exact Or.inr ⟨ofPointers, rfl⟩
  | _ => cases h

theorem eq_of_enumerationName? {marshal : Marshal} {name : String}
    (h : marshal.enumerationName? = some name) :
    marshal = .enumeration name ∨ marshal = .enumerationArray name := by
  cases marshal with
  | enumeration inner =>
    cases h
    exact Or.inl rfl
  | enumerationArray inner =>
    cases h
    exact Or.inr rfl
  | _ => cases h

theorem releases_of_structName? {marshal : Marshal} {name : String}
    (h : marshal.structName? = some name) : marshal.ownership.releases = true := by
  rcases eq_of_structName? h with ⟨byReference, rfl⟩ | ⟨ofPointers, rfl⟩
  · cases byReference <;> rfl
  · cases ofPointers <;> rfl

def isCounted : Marshal → Bool
  | .unwrapArray _ | .nestedArray _ _ | .enumerationArray _ | .bitmaskArray => true
  | .buffer kind => kind.isSome
  | _ => false

def isPointer : Marshal → Bool
  | .number _ | .boolean | .enumeration _ | .bitmask | .nested _ false => false
  | _ => true

end Marshal

variable {marshal : Marshal}

theorem MarshalRule.isArray (h : MarshalRule schema type marshal) (hc : marshal.isCounted = true) :
    type.isArray = true := by
  cases h with
  | unwrapArray _ array | nestedArray _ array | numberArray _ array | enumerationArray _ array
  | bitmaskArray _ array => exact array
  | _ => cases hc

theorem MarshalRule.enumerationName {name : String} (h : MarshalRule schema type marshal)
    (hn : marshal.enumerationName? = some name) :
    type.kind = kindOfCategory .enumeration ∧ type.nativeType = name := by
  cases h with
  | enumeration kind | enumerationArray kind =>
    cases hn
    exact ⟨kind, rfl⟩
  | _ => cases hn

/-- Pointers start as null, and structures stored in place as themselves. -/
theorem MarshalRule.start {init : FieldInit} {isLength : Bool}
    (h : MarshalRule schema member.type marshal)
    (hi : fieldInitOf owner member isLength = .ok init) :
    (marshal.isPointer = true → init = .null) ∧
      ∀ name, marshal = .nested name false → init = .embedded name := by
  have hnull : member.type.isReference = true ∨ member.type.isArray = true → init = .null := by
    intro hp
    unfold fieldInitOf at hi
    rw [if_pos hp, Except.ok.injEq] at hi
    exact hi.symm
  have hplain : (member.type.kind = .object ∨ member.type.kind = .string) → init = .null := by
    intro hk
    unfold fieldInitOf at hi
    dsimp only at hi
    split at hi
    · cases hi
      rfl
    · rcases hk with hk | hk <;> rw [hk] at hi <;> cases hi <;> rfl
  cases h with
  | nested kind array known =>
    constructor
    · intro hp
      apply hnull
      cases hr : member.type.isReference with
      | true => exact Or.inl rfl
      | false =>
        rw [hr] at hp
        cases hp
    · intro name he
      rw [Marshal.nested.injEq] at he
      unfold fieldInitOf at hi
      simp only [he.2, array, kind, Bool.false_eq_true, or_self, if_false, Except.ok.injEq] at hi
      rw [← hi, he.1]
  | unwrap kind => exact ⟨fun _ => hplain (Or.inl kind), nofun⟩
  | string kind => exact ⟨fun _ => hplain (Or.inr kind), nofun⟩
  | bytes kind reference => exact ⟨fun _ => hnull (Or.inl reference), nofun⟩
  | unwrapArray _ array | nestedArray _ array | numberArray _ array | enumerationArray _ array
  | bitmaskArray _ array => exact ⟨fun _ => hnull (Or.inr array), nofun⟩
  | _ => exact ⟨nofun, nofun⟩

theorem marshalOf_array (h : marshalOf schema owner member = .ok marshal)
    (ha : member.type.isArray = true) (hs : member.type.kind ≠ .string) :
    marshal.isCounted = true ∨ marshal = .buffer none := by
  have hrule := marshalOf_rule h
  cases hrule with
  | boolean kind =>
    unfold marshalOf at h
    simp only [kind, ha, if_true] at h
    split at h <;> cases h
  | string kind => exact absurd kind hs
  | bytes => exact Or.inr rfl
  | unwrapArray | nestedArray | numberArray | enumerationArray | bitmaskArray => exact Or.inl rfl
  | unwrap _ array | nested _ array | number _ array | enumeration _ array | bitmask _ array =>
    rw [ha] at array
    cases array

/-! ### Planned members -/

variable {node : StructureNode} {planned : MemberPlan} {plan : StructPlan}

theorem lengthFieldOf_spec {length : LengthField}
    (h : lengthFieldOf node member name = .ok length) :
    length.name = name ∧ length.type.isFloat = false ∧
      ∃ counter ∈ node.members, counter.name = name ∧ counter.type.kind = .number length.type := by
  unfold lengthFieldOf at h
  split at h
  · next number hn =>
    split at h
    · cases h
    · next hf =>
      cases h
      obtain ⟨counter, hc, hk⟩ := Option.bind_eq_some_iff.mp hn
      have hname : counter.name = name := by simpa using List.find?_some hc
      refine ⟨rfl, by simpa using hf, counter, List.mem_of_find?_eq_some hc, hname, ?_⟩
      unfold TypeDescriptor.numberType? at hk
      split at hk
      · next hkind =>
        cases hk
        exact hkind
      · cases hk
  · cases h

theorem memberPlanOf_spec (h : memberPlanOf schema node member = .ok planned) :
    marshalOf schema node.header.externalName member = .ok planned.marshal ∧
      (∀ name, member.type.isArray = true → member.type.length = some name →
        ∃ length, planned.length = some length) ∧
      ∀ length, planned.length = some length → member.type.isArray = true ∧
        member.type.length = some length.name ∧ length.type.isFloat = false ∧
        ∃ counter ∈ node.members, counter.name = length.name ∧
          counter.type.kind = .number length.type := by
  obtain ⟨marshal, hm, h⟩ := ok_of_bind h
  dsimp only at h
  split at h
  · next name hname =>
    split at h
    · next harray =>
      obtain ⟨length, hl, h⟩ := ok_of_bind h
      cases h
      cases hf : lengthFieldOf node member name with
      | error => rw [hf] at hl; cases hl
      | ok field =>
        rw [hf] at hl
        cases hl
        refine ⟨hm, fun _ _ _ => ⟨field, rfl⟩, ?_⟩
        intro length he
        cases he
        obtain ⟨hfield, hfloat, hcounter⟩ := lengthFieldOf_spec hf
        subst hfield
        exact ⟨harray, hname, hfloat, hcounter⟩
    · next harray =>
      cases h
      exact ⟨hm, fun _ ha => absurd ha harray, nofun⟩
  · next hnone =>
    cases h
    refine ⟨hm, ?_, nofun⟩
    intro name _ hname
    rw [hnone] at hname
    cases hname

theorem fieldAndMemberOf_parts {field : FieldPlan} {planned? : Option MemberPlan}
    (h : fieldAndMemberOf schema node member = .ok (field, planned?)) :
    field.name = member.name ∧
      fieldInitOf node.header.externalName member (node.isLengthMember member.name) =
        .ok field.init ∧
      ∀ planned, planned? = some planned → memberPlanOf schema node member = .ok planned := by
  obtain ⟨init, hi, h⟩ := ok_of_bind h
  dsimp only at h
  split at h
  · cases h
    refine ⟨rfl, hi, ?_⟩
    intro _ ho
    cases ho
  · obtain ⟨planned, hp, h⟩ := ok_of_bind h
    cases h
    refine ⟨rfl, hi, ?_⟩
    intro other ho
    cases ho
    exact hp

theorem buildPlan_planned (h : buildPlan schema node = .ok plan) (hm : planned ∈ plan.members) :
    ∃ member ∈ node.members, memberPlanOf schema node member = .ok planned ∧
      ∃ field ∈ plan.fields, field.name = member.name ∧
        fieldInitOf node.header.externalName member (node.isLengthMember member.name) =
          .ok field.init := by
  obtain ⟨-, parts, hall, hfields, hmembers⟩ := buildPlan_parts h
  rw [hmembers, List.mem_filterMap] at hm
  obtain ⟨⟨field, planned?⟩, hpart, he⟩ := hm
  obtain ⟨member, hmember, hr⟩ := exists_of_mem_right hall hpart
  obtain ⟨hname, hinit, hplanned⟩ := fieldAndMemberOf_parts hr
  exact ⟨member, hmember, hplanned planned he, field, hfields ▸ List.mem_map_of_mem hpart, hname,
    hinit⟩

/-- The fields of a plan are those of the members of the structure, one by one. -/
theorem buildPlan_zip (h : buildPlan schema node = .ok plan) :
    List.Forall₂ (fun member field => field.name = member.name ∧
      fieldInitOf node.header.externalName member (node.isLengthMember member.name) =
        .ok field.init) node.members plan.fields := by
  obtain ⟨-, parts, hall, hfields, -⟩ := buildPlan_parts h
  rw [hfields, List.forall₂_map_right_iff]
  refine hall.imp ?_
  rintro member ⟨field, planned?⟩ hr
  obtain ⟨hname, hinit, -⟩ := fieldAndMemberOf_parts hr
  exact ⟨hname, hinit⟩

theorem buildPlan_field (h : buildPlan schema node = .ok plan) :
    (∀ member ∈ node.members, ∃ field ∈ plan.fields, field.name = member.name ∧
        fieldInitOf node.header.externalName member (node.isLengthMember member.name) =
          .ok field.init) ∧
      ∀ field ∈ plan.fields, ∃ member ∈ node.members, field.name = member.name ∧
        fieldInitOf node.header.externalName member (node.isLengthMember member.name) =
          .ok field.init :=
  ⟨fun _ hm => exists_of_mem_left (buildPlan_zip h) hm,
    fun _ hf => exists_of_mem_right (buildPlan_zip h) hf⟩

theorem fieldInitOf_embedded {isLength : Bool} (h : fieldInitOf owner member isLength =
    .ok (.embedded name)) : member.type.kind = kindOfCategory .struct ∧
      member.type.nativeType = name := by
  unfold fieldInitOf at h
  dsimp only at h
  split at h
  · cases h
  split at h
  · split at h <;> cases h
  · cases h
  · cases hb : defaultBits owner member <;> rw [hb] at h <;> cases h
  · cases hb : defaultBits owner member <;> rw [hb] at h <;> cases h
  · next hk =>
    cases h
    exact ⟨hk, rfl⟩
  all_goals cases h

/-- A member whose marshaling nothing stands in the way of. -/
structure MemberPlan.Complete (set : PlanSet) (plan : StructPlan) (member : MemberPlan) :
    Prop where
  ownership : member.ownership = member.marshal.ownership
  struct : ∀ name, member.marshal.structName? = some name →
    ∃ nested, set.planOf? name = some nested
  enumeration : ∀ name, member.marshal.enumerationName? = some name →
    ∃ table, set.tableOf? name = some table
  counted : member.marshal.isCounted = true → ∃ length, member.length = some length
  length : ∀ length, member.length = some length →
    length.name ∈ plan.fields.map (·.name) ∧ length.type.isFloat = false

structure StructPlan.Complete (set : PlanSet) (plan : StructPlan) : Prop where
  members : ∀ member ∈ plan.members, member.Complete set plan
  embedded : ∀ field ∈ plan.fields, ∀ name, field.init = .embedded name →
    ∃ nested, set.planOf? name = some nested

variable {set : PlanSet} {bindings : Bindings}

theorem PlanSet.tables_eq (h : PlanSet.build schema = .ok set) :
    set.tables = (schema.enums ++ schema.bitmasks).map NameTable.ofValueSet := by
  obtain ⟨plans, -, h⟩ := ok_of_bind h
  dsimp only at h
  obtain ⟨_, -, h⟩ := ok_of_bind h
  cases h
  rfl

theorem PlanSet.exists_table {inner : ValueSet} (h : PlanSet.build schema = .ok set)
    (hm : .enumeration inner ∈ schema.nodes) :
    ∃ table, set.tableOf? inner.header.declarationName = some table := by
  have henum : inner ∈ schema.enums := List.mem_filterMap.mpr ⟨_, hm, rfl⟩
  have htable : NameTable.ofValueSet inner ∈ set.tables := by
    rw [tables_eq h]
    exact List.mem_map_of_mem (List.mem_append_left _ henum)
  apply Option.isSome_iff_exists.mp
  exact List.find?_isSome.mpr ⟨_, htable, by simp [NameTable.ofValueSet]⟩

theorem PlanSet.exists_plan {inner : StructureNode} (h : PlanSet.build schema = .ok set)
    (hm : .struct inner ∈ schema.nodes) :
    ∃ nested, set.planOf? inner.header.declarationName = some nested := by
  obtain ⟨nested, hn, hr⟩ := exists_of_mem_left (build_parts h).1 (mem_structures.mpr hm)
  apply Option.isSome_iff_exists.mp
  exact List.find?_isSome.mpr ⟨nested, hn, by simp [(buildPlan_parts hr).1]⟩

theorem Bindings.exists_node (h : ofDocument options document = .ok bindings)
    (hp : plan ∈ bindings.plans.plans) :
    ∃ node ∈ bindings.schema.structures, buildPlan bindings.schema node = .ok plan ∧
      node.Grounded bindings.schema.index ∧ ∀ member ∈ node.members, member.type.Resolved := by
  obtain ⟨hs, hb⟩ := ofDocument_parts h
  obtain ⟨node, hn, hr⟩ := exists_of_mem_right (PlanSet.build_parts hb).1 hp
  exact ⟨node, hn, hr, (assemble_grounded hs).2 node hn, (assemble_sound hs).types node hn⟩

theorem Bindings.complete (h : ofDocument options document = .ok bindings)
    (hp : plan ∈ bindings.plans.plans) : plan.Complete bindings.plans := by
  obtain ⟨hs, hb⟩ := ofDocument_parts h
  obtain ⟨node, hn, hr, hgrounded, htypes⟩ := Bindings.exists_node h hp
  constructor
  · intro planned hm
    obtain ⟨member, hmember, hplanned, -⟩ := buildPlan_planned hr hm
    obtain ⟨hmarshal, hcounted, hlength⟩ := memberPlanOf_spec hplanned
    have hrule := marshalOf_rule hmarshal
    refine ⟨?_, fun name => closed h plan hp planned hm name, ?_, ?_, ?_⟩
    · rw [(memberPlanOf_built hplanned).ownership]
      exact hrule.ownership (htypes member hmember)
    · intro name hname
      obtain ⟨hk, rfl⟩ := hrule.enumerationName hname
      obtain ⟨other, ho, hc, hd⟩ := DescriptorMarshal.exists_node hs hn hmember hk
      rw [← hd]
      cases other with
      | enumeration inner => exact PlanSet.exists_table hb ho
      | _ => cases hc
    · intro hc
      have harray := hrule.isArray hc
      obtain ⟨name, hname, -⟩ := hgrounded.counter member hmember harray
      exact hcounted name harray hname
    · intro length hl
      obtain ⟨-, -, hfloat, counter, hcounter, hname, -⟩ := hlength length hl
      refine ⟨?_, hfloat⟩
      rw [buildPlan_fields hr, ← hname]
      exact List.mem_map_of_mem hcounter
  · intro field hf name hi
    obtain ⟨member, hmember, -, hinit⟩ := (buildPlan_field hr).2 field hf
    rw [hi] at hinit
    obtain ⟨hk, rfl⟩ := fieldInitOf_embedded hinit
    obtain ⟨other, ho, hc, hd⟩ := DescriptorMarshal.exists_node hs hn hmember hk
    rw [← hd]
    cases other with
    | struct inner => exact PlanSet.exists_plan hb ho
    | _ => cases hc

theorem Bindings.exists_field (h : ofDocument options document = .ok bindings)
    (hp : plan ∈ bindings.plans.plans) (hm : planned ∈ plan.members) :
    ∃ field ∈ plan.fields, field.name = planned.name ∧
      (planned.marshal.isPointer = true → field.init = .null) ∧
      ∀ name, planned.marshal = .nested name false → field.init = .embedded name := by
  obtain ⟨node, -, hr, -, -⟩ := Bindings.exists_node h hp
  obtain ⟨member, -, hplanned, field, hf, hname, hinit⟩ := buildPlan_planned hr hm
  have hbuilt := memberPlanOf_built hplanned
  exact ⟨field, hf, hname.trans hbuilt.name.symm, hbuilt.rule.start hinit⟩

/-- What fields start from that members point from, nest in or count in. -/
structure StructPlan.Starts (plan : StructPlan) : Prop where
  pointer : ∀ member ∈ plan.members, member.marshal.isPointer = true →
    ∀ field ∈ plan.fields, field.name = member.name → field.init = .null
  inPlace : ∀ member ∈ plan.members, ∀ name, member.marshal = .nested name false →
    ∀ field ∈ plan.fields, field.name = member.name → field.init = .embedded name
  counter : ∀ member ∈ plan.members, ∀ length, member.length = some length →
    ∀ field ∈ plan.fields, field.name = length.name → field.init = .number length.type (.integer 0)
  array : ∀ member ∈ plan.members, ∀ length, member.length = some length →
    member.marshal.isCounted = true ∨ member.marshal = .buffer none

theorem hasCounter_spec (h : hasCounter members name = true) :
    ∃ counter ∈ members, counter.name = name ∧ counter.type.isReference = false := by
  obtain ⟨counter, hc, hcounter⟩ := List.any_eq_true.mp h
  simp only [Bool.and_eq_true, beq_iff_eq, Bool.not_eq_true'] at hcounter
  exact ⟨counter, hc, hcounter.1⟩

theorem fieldInitOf_counter {number : NumberType} (hr : member.type.Resolved)
    (hk : member.type.kind = .number number) (hreference : member.type.isReference = false) :
    fieldInitOf owner member true = .ok (.number number (.integer 0)) := by
  unfold fieldInitOf
  simp [hk, hreference, hr.not_array hreference]

theorem Bindings.starts (h : ofDocument options document = .ok bindings)
    (hd : Idl.DistinctMembers document) (hp : plan ∈ bindings.plans.plans) : plan.Starts := by
  obtain ⟨hs, -⟩ := ofDocument_parts h
  obtain ⟨node, hn, hr, hgrounded, htypes⟩ := Bindings.exists_node h hp
  have hdistinct := assemble_distinct hs hd node hn
  have hfields : (plan.fields.map (·.name)).Nodup := buildPlan_fields hr ▸ hdistinct
  -- names are distinct, so the field of a member is the one that was built for it
  have only : ∀ planned ∈ plan.members, ∀ field ∈ plan.fields, field.name = planned.name →
      (planned.marshal.isPointer = true → field.init = .null) ∧
        ∀ name, planned.marshal = .nested name false → field.init = .embedded name := by
    intro planned hm field hf hname
    obtain ⟨other, ho, hother, hstart⟩ := exists_field h hp hm
    rwa [List.inj_on_of_nodup_map hfields hf ho (hname.trans hother.symm)]
  refine ⟨fun planned hm hpointer field hf hname => (only planned hm field hf hname).1 hpointer,
    fun planned hm name hi field hf hname => (only planned hm field hf hname).2 name hi, ?_, ?_⟩
  · intro planned hm length hl field hf hname
    obtain ⟨member, hmember, hplanned, -⟩ := buildPlan_planned hr hm
    obtain ⟨harray, hlength, -, counter, hc, hcounter, hk⟩ :=
      (memberPlanOf_spec hplanned).2.2 length hl
    obtain ⟨found, hfound, hhas⟩ := hgrounded.counter member hmember harray
    rw [hlength, Option.some.injEq] at hfound
    subst hfound
    obtain ⟨plain, hplain, hsame, hreference⟩ := hasCounter_spec hhas
    rw [List.inj_on_of_nodup_map hdistinct hplain hc (hsame.trans hcounter.symm)] at hreference
    obtain ⟨owner, ho, honame, hinit⟩ := (buildPlan_field hr).2 field hf
    have hsame : owner = counter := List.inj_on_of_nodup_map hdistinct ho hc
      (honame.symm.trans (hname.trans hcounter.symm))
    subst hsame
    have hcounts : node.isLengthMember owner.name = true :=
      List.any_eq_true.mpr ⟨member, hmember, by simp [harray, hlength, hcounter]⟩
    rw [hcounts, fieldInitOf_counter (htypes owner ho) hk hreference, Except.ok.injEq] at hinit
    exact hinit.symm
  · intro planned hm length hl
    obtain ⟨member, hmember, hplanned, -⟩ := buildPlan_planned hr hm
    obtain ⟨hmarshal, -, hlength⟩ := memberPlanOf_spec hplanned
    have harray := (hlength length hl).1
    refine marshalOf_array hmarshal harray ?_
    intro hstring
    have := (hgrounded.string member hmember hstring).2
    rw [harray] at this
    cases this

/-- Coherent plans whose fields start as their members need. -/
structure PlanSet.Regular (set : PlanSet) : Prop extends set.Coherent where
  starts : ∀ plan ∈ set.plans, plan.Starts

theorem Bindings.regular (h : ofDocument options document = .ok bindings)
    (hd : Idl.DistinctMembers document) : bindings.plans.Regular :=
  { Bindings.coherent h hd with starts := fun _ hp => Bindings.starts h hd hp }

end DescriptorMarshal
