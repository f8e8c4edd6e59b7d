import DescriptorMarshal.Generator
import DescriptorMarshal.Proofs.Assembly
import DescriptorMarshal.Proofs.Embedding

/-!
What the plans of a document can be relied on for. A coherent set of plans has a slot for every
member and for every length, owns what its marshaling operations allocate, and finds the plans
its members name.
-/

namespace DescriptorMarshal

namespace Marshal

def ownership : Marshal → Ownership
  | .unwrap _ | .buffer _ => .borrowed
  | .number _ | .boolean | .enumeration _ | .bitmask => .value
  | .nested _ false => .embedded
  | .nested _ true => .owned
  | .nestedArray _ true => .arrayOfPointersOwned
  | .nestedArray _ false | .unwrapArray _ | .enumerationArray _ | .bitmaskArray | .string =>
    .arrayOwned

def structName? : Marshal → Option String
  | .nested name _ | .nestedArray name _ => some name
  | _ => none

end Marshal

structure StructPlan.Coherent (plan : StructPlan) : Prop where
  fields : (plan.fields.map (·.name)).Nodup
  members : (plan.members.map (·.name)).Nodup
  ownership : ∀ member ∈ plan.members, member.ownership = member.marshal.ownership
  slot : ∀ member ∈ plan.members, ∃ field ∈ plan.fields, field.name = member.name
  embedded : ∀ member ∈ plan.members, ∀ field ∈ plan.fields, field.name = member.name →
    ∀ name, field.init = .embedded name → member.marshal = .nested name false
  length : ∀ member ∈ plan.members, ∀ length, member.length = some length →
    length.name ∈ plan.fields.map (·.name) ∧ length.name ∉ plan.members.map (·.name)

/-- Every plan that a member names is there. -/
def PlanSet.Closed (set : PlanSet) : Prop :=
  ∀ plan ∈ set.plans, ∀ member ∈ plan.members, ∀ name, member.marshal.structName? = some name →
    ∃ nested, set.planOf? name = some nested

structure PlanSet.Coherent (set : PlanSet) : Prop where
  closed : set.Closed
  within : ∀ plan ∈ set.plans, Embedding.Within set.plans set.plans.length plan
  plans : ∀ plan ∈ set.plans, plan.Coherent

theorem PlanSet.planOf?_mem {set : PlanSet} {name : String} {plan : StructPlan}
    (h : set.planOf? name = some plan) : plan ∈ set.plans :=
  List.mem_of_find?_eq_some h

theorem PlanSet.nestedPlan?_eq_bind {set : PlanSet} {marshal : Marshal} :
    set.nestedPlan? marshal = marshal.structName?.bind set.planOf? := by
  cases marshal <;> rfl

variable {schema : Schema} {owner : String} {member : Member} {marshal : Marshal}

/-- The rules by which a type is marshaled. -/
inductive MarshalRule (schema : Schema) (type : TypeDescriptor) : Marshal → Prop where
  | unwrap {className} (kind : type.kind = .object) (array : type.isArray = false) :
    MarshalRule schema type (.unwrap className)
  | unwrapArray {className} (kind : type.kind = .object) (array : type.isArray = true) :
    MarshalRule schema type (.unwrapArray className)
  | nested (kind : type.kind = .struct) (array : type.isArray = false)
    (known : (schema.structure? type.nativeType).isSome = true) :
    MarshalRule schema type (.nested type.nativeType type.isReference)
  | nestedArray (kind : type.kind = .struct) (array : type.isArray = true)
    (known : (schema.structure? type.nativeType).isSome = true) :
    MarshalRule schema type (.nestedArray type.nativeType type.isArrayOfPointers)
  | number {number} (kind : type.kind = .number number) (array : type.isArray = false)
    (reference : type.isReference = false) : MarshalRule schema type (.number number)
  | numberArray {number} (kind : type.kind = .number number) (array : type.isArray = true) :
    MarshalRule schema type (.buffer (some number.arrayKind))
  | boolean (kind : type.kind = .boolean) : MarshalRule schema type .boolean
  | enumeration (kind : type.kind = .enumeration) (array : type.isArray = false) :
    MarshalRule schema type (.enumeration type.nativeType)
  | enumerationArray (kind : type.kind = .enumeration) (array : type.isArray = true) :
    MarshalRule schema type (.enumerationArray type.nativeType)
  | bitmask (kind : type.kind = .bitmask) (array : type.isArray = false) :
    MarshalRule schema type .bitmask
  | bitmaskArray (kind : type.kind = .bitmask) (array : type.isArray = true) :
    MarshalRule schema type .bitmaskArray
  | string (kind : type.kind = .string) : MarshalRule schema type .string
  | bytes (kind : type.kind = .void) (reference : type.isReference = true) :
    MarshalRule schema type (.buffer none)

theorem marshalOf_rule (h : marshalOf schema owner member = .ok marshal) :
    MarshalRule schema member.type marshal := by
  unfold marshalOf at h
  dsimp only at h
  split at h
  · cases h
  split at h
  next hk =>
    split at h
    next ha =>
      cases h
      exact .unwrapArray hk ha
    next ha =>
      split at h
      · cases h
      · cases h
        exact .unwrap hk (by simpa using ha)
  next hk =>
    split at h
    · cases h
    next hknown =>
    have hknown : (schema.structure? member.type.nativeType).isSome = true := by
      simpa [Option.isSome_iff_ne_none] using hknown
    split at h
    next ha =>
      cases h
      exact .nestedArray hk ha hknown
    next ha =>
      cases h
      exact .nested hk (by simpa using ha) hknown
  next number hk =>
    split at h
    next ha =>
      cases h
      exact .numberArray hk ha
    next ha =>
      split at h
      · cases h
      next hr =>
        cases h
        exact .number hk (by simpa using ha) (by simp_all)
  next hk =>
    split at h
    · cases h
    split at h
    · cases h
    · cases h
      exact .boolean hk
  next hk =>
    split at h
    next ha =>
      cases h
      exact .enumerationArray hk ha
    next ha =>
      split at h
      · cases h
      · cases h
        exact .enumeration hk (by simpa using ha)
  next hk =>
    split at h
    next ha =>
      cases h
      exact .bitmaskArray hk ha
    next ha =>
      split at h
      · cases h
      · cases h
        exact .bitmask hk (by simpa using ha)
  next hk =>
    split at h
    · cases h
      exact .string hk
    · cases h
  next hk =>
    split at h
    next hr =>
      cases h
      exact .bytes hk hr
    · cases h
  · cases h

/-- A type is marshaled in one way, but for the class of an object: two rules are for types of other
kinds, or for arrays and for what is no array. -/
theorem MarshalRule.unique {type : TypeDescriptor} {other : Marshal}
    (h : MarshalRule schema type marshal) (ho : MarshalRule schema type other)
    (hk : type.kind ≠ .object) : marshal = other := by
  cases h <;> cases ho <;> simp_all

theorem MarshalRule.ownership {type : TypeDescriptor} (h : MarshalRule schema type marshal)
    (hr : type.Resolved) : type.ownership = marshal.ownership := by
  rw [hr.ownership]
  cases h with
  | nested kind array known =>
    have hp : type.isArrayOfPointers = false := hr.not_array_of_pointers array
    cases hf : type.isReference <;> simp [ownershipOf, Marshal.ownership, kind, array, hp]
  | nestedArray kind array known =>
    cases hp : type.isArrayOfPointers <;> simp [ownershipOf, Marshal.ownership, kind, array]
  | numberArray kind array =>
    simp [ownershipOf, Marshal.ownership, kind, hr.reference_of_array array]
  | _ => simp [ownershipOf, Marshal.ownership, *]

theorem MarshalRule.known {type : TypeDescriptor} {name : String}
    (h : MarshalRule schema type marshal) (hn : marshal.structName? = some name) :
    (schema.structure? name).isSome = true := by
  cases h with
  | nested _ _ known | nestedArray _ _ known =>
    cases hn
    exact known
  | _ => cases hn

theorem MarshalRule.embedded {name : String} {isLength : Bool}
    (h : MarshalRule schema member.type marshal)
    (hi : fieldInitOf owner member isLength = .ok (.embedded name)) :
    marshal = .nested name false := by
  unfold fieldInitOf at hi
  dsimp only at hi
  split at hi
  · cases hi
  next hplain =>
  obtain ⟨hr, ha⟩ := not_or.mp hplain
  cases h with
  | nested kind array known =>
    simp only [kind, Except.ok.injEq, FieldInit.embedded.injEq] at hi
    rw [← hi, eq_false_of_ne_true hr]
  | nestedArray kind array known => exact absurd array ha
  | number kind =>
    simp only [kind] at hi
    split at hi <;> cases hi
  | enumeration kind | bitmask kind =>
    simp only [kind] at hi
    cases hb : defaultBits owner member <;> rw [hb] at hi <;> cases hi
  | numberArray _ array | unwrapArray _ array | enumerationArray _ array | bitmaskArray _ array =>
    exact absurd array ha
  | unwrap kind | boolean kind | string kind | bytes kind =>
    simp [kind] at hi

variable {node : StructureNode} {plan : StructPlan}

/-- How a marshaled member, its plan and its field belong together. -/
structure MemberPlan.Built (schema : Schema) (node : StructureNode) (member : Member)
    (planned : MemberPlan) : Prop where
  name : planned.name = member.name
  presence : planned.presence = member.type.presence
  rule : MarshalRule schema member.type planned.marshal
  ownership : planned.ownership = member.type.ownership
  length : ∀ length, planned.length = some length →
    member.type.isArray = true ∧ member.type.length = some length.name ∧
      ∃ counter ∈ node.members, counter.name = length.name

theorem memberPlanOf_built {planned : MemberPlan}
    (h : memberPlanOf schema node member = .ok planned) : planned.Built schema node member := by
  obtain ⟨marshal, hm, h⟩ := ok_of_bind h
  have hrule := marshalOf_rule hm
  dsimp only at h
  split at h
  · next name hname =>
    split at h
    · next harray =>
      obtain ⟨length, hl, h⟩ := ok_of_bind h
      cases h
      refine ⟨rfl, rfl, hrule, rfl, ?_⟩
      intro found hfound
      subst hfound
      unfold lengthFieldOf at hl
      split at hl
      · next type htype =>
        split at hl
        · cases hl
        · cases hl
          obtain ⟨counter, hcounter, -⟩ := Option.bind_eq_some_iff.mp htype
          exact ⟨harray, hname, counter, List.mem_of_find?_eq_some hcounter,
            by simpa using List.find?_some hcounter⟩
      · cases hl
    · cases h
      exact ⟨rfl, rfl, hrule, rfl, nofun⟩
  · cases h
    exact ⟨rfl, rfl, hrule, rfl, nofun⟩

theorem fieldAndMemberOf_spec {field : FieldPlan} {planned? : Option MemberPlan}
    (h : fieldAndMemberOf schema node member = .ok (field, planned?)) :
    field.name = member.name ∧
      (∃ isLength, fieldInitOf node.header.externalName member isLength = .ok field.init) ∧
      ∀ planned, planned? = some planned →
        planned.Built schema node member ∧ node.isLengthMember member.name = false := by
  obtain ⟨init, hi, h⟩ := ok_of_bind h
  dsimp only at h
  split at h
  · cases h
    refine ⟨rfl, ⟨_, hi⟩, ?_⟩
    intro _ ho
    cases ho
  · next hplain =>
    obtain ⟨planned, hp, h⟩ := ok_of_bind h
    cases h
    refine ⟨rfl, ⟨_, hi⟩, ?_⟩
    intro other ho
    cases ho
    exact ⟨memberPlanOf_built hp, by simpa using (not_or.mp hplain).2⟩

theorem buildPlan_parts (h : buildPlan schema node = .ok plan) :
    plan.name = node.header.declarationName ∧
      ∃ parts, List.Forall₂ (fun member part => fieldAndMemberOf schema node member = .ok part)
          node.members parts ∧
        plan.fields = parts.map (·.1) ∧ plan.members = parts.filterMap (·.2) := by
  obtain ⟨parts, hp, h⟩ := ok_of_bind h
  cases h
  exact ⟨rfl, parts, forall₂_of_mapM hp, rfl, rfl⟩

theorem buildPlan_member (h : buildPlan schema node = .ok plan) {planned : MemberPlan}
    (hm : planned ∈ plan.members) :
    ∃ member ∈ node.members, ∃ field ∈ plan.fields, field.name = member.name ∧
      (∃ isLength, fieldInitOf node.header.externalName member isLength = .ok field.init) ∧
      planned.Built schema node member ∧ node.isLengthMember member.name = false := by
  obtain ⟨-, parts, hall, hfields, hmembers⟩ := buildPlan_parts h
  rw [hmembers, List.mem_filterMap] at hm
  obtain ⟨⟨field, planned?⟩, hpart, he⟩ := hm
  obtain ⟨member, hmember, hr⟩ := exists_of_mem_right hall hpart
  dsimp only at he
  subst he
  obtain ⟨hname, hinit, hbuilt⟩ := fieldAndMemberOf_spec hr
  exact ⟨member, hmember, field, hfields ▸ List.mem_map_of_mem hpart, hname, hinit,
    hbuilt planned rfl⟩

theorem buildPlan_fields (h : buildPlan schema node = .ok plan) :
    plan.fields.map (·.name) = node.members.map (·.name) := by
  obtain ⟨-, parts, hall, hfields, -⟩ := buildPlan_parts h
  rw [hfields, List.map_map]
  exact map_eq_of_forall₂ hall fun member part hr => (fieldAndMemberOf_spec hr).1

theorem buildPlan_members (h : buildPlan schema node = .ok plan) :
    (plan.members.map (·.name)).Sublist (node.members.map (·.name)) := by
  obtain ⟨-, parts, hall, -, hmembers⟩ := buildPlan_parts h
  rw [hmembers]
  clear h hmembers
  generalize node.members = members at hall ⊢
  induction hall with
  | nil => exact List.Sublist.slnil
  | @cons member part rest parts hr _ ih =>
    obtain ⟨field, _ | planned⟩ := part
    · exact ih.cons _
    · have hb := ((fieldAndMemberOf_spec hr).2.2 planned rfl).1
      rw [@List.filterMap_cons_some _ _ (fun part => part.2) (field, some planned) parts _ rfl,
        List.map_cons, List.map_cons, hb.name]
      exact ih.cons_cons _

theorem buildPlan_coherent (h : buildPlan schema node = .ok plan)
    (hd : (node.members.map (·.name)).Nodup)
    (ht : ∀ member ∈ node.members, member.type.Resolved) : plan.Coherent := by
  have hfields : (plan.fields.map (·.name)).Nodup := buildPlan_fields h ▸ hd
  refine ⟨hfields, hd.sublist (buildPlan_members h), ?_, ?_, ?_, ?_⟩
  · intro planned hm
    obtain ⟨member, hmember, -, -, -, -, hb, -⟩ := buildPlan_member h hm
    rw [hb.ownership]
    exact hb.rule.ownership (ht member hmember)
  · intro planned hm
    obtain ⟨member, -, field, hfield, hname, -, hb, -⟩ := buildPlan_member h hm
    exact ⟨field, hfield, hname.trans hb.name.symm⟩
  · intro planned hm other ho hother name hi
    obtain ⟨member, -, field, hfield, hname, ⟨isLength, hinit⟩, hb, -⟩ := buildPlan_member h hm
    have hsame : other = field :=
      List.inj_on_of_nodup_map hfields ho hfield (hother.trans (hb.name.trans hname.symm))
    subst hsame
    rw [hi] at hinit
    exact hb.rule.embedded hinit
  · intro planned hm length hl
    obtain ⟨member, hmember, -, -, -, -, hb, -⟩ := buildPlan_member h hm
    obtain ⟨harray, hlength, counter, hcounter, hcname⟩ := hb.length length hl
    constructor
    · rw [buildPlan_fields h, ← hcname]
      exact List.mem_map_of_mem hcounter
    · -- a field that counts an array is no member
      intro hin
      obtain ⟨counted, hc, hcn⟩ := List.mem_map.mp hin
      obtain ⟨other, -, -, -, -, -, hother, hnot⟩ := buildPlan_member h hc
      have hyes : node.isLengthMember other.name = true :=
        List.any_eq_true.mpr ⟨member, hmember, by simp [harray, hlength, ← hother.name, hcn]⟩
      rw [hnot] at hyes
      cases hyes

variable {set : PlanSet} {options : SchemaOptions} {document : Idl.Document}
  {bindings : Bindings}

theorem PlanSet.build_parts (h : PlanSet.build schema = .ok set) :
    List.Forall₂ (fun node plan => buildPlan schema node = .ok plan) schema.structures set.plans ∧
      checkEmbedding set.plans = .ok () := by
  obtain ⟨plans, hp, h⟩ := ok_of_bind h
  dsimp only at h
  obtain ⟨_, hc, h⟩ := ok_of_bind h
  cases h
  exact ⟨forall₂_of_mapM hp, hc⟩

theorem PlanSet.build_names (h : PlanSet.build schema = .ok set) (hs : schema.Sound) :
    (set.plans.map (·.name)).Nodup := by
  rw [map_eq_of_forall₂ (build_parts h).1 fun node plan hr => (buildPlan_parts hr).1]
  exact hs.names

theorem PlanSet.build_closed (h : PlanSet.build schema = .ok set) (hs : schema.Sound) :
    set.Closed := by
  intro plan hplan planned hm name hname
  obtain ⟨node, -, hr⟩ := exists_of_mem_right (build_parts h).1 hplan
  obtain ⟨member, -, -, -, -, -, hb, -⟩ := buildPlan_member hr hm
  obtain ⟨other, ho⟩ := Option.isSome_iff_exists.mp (hb.rule.known hname)
  obtain ⟨hin, hon⟩ := hs.found name other ho
  obtain ⟨nested, hnested, hr⟩ := exists_of_mem_left (build_parts h).1 hin
  refine ⟨nested, ?_⟩
  rw [← hon, ← (buildPlan_parts hr).1]
  exact findPlan?_of_mem (build_names h hs) hnested

theorem Bindings.ofDocument_parts (h : Bindings.ofDocument options document = .ok bindings) :
    assemble options document = .ok bindings.schema ∧
      PlanSet.build bindings.schema = .ok bindings.plans := by
  obtain ⟨schema, hs, h⟩ := ok_of_bind h
  obtain ⟨set, hp, h⟩ := ok_of_bind h
  cases h
  exact ⟨hs, hp⟩

theorem Bindings.closed (h : Bindings.ofDocument options document = .ok bindings) :
    bindings.plans.Closed :=
  have ⟨hs, hp⟩ := ofDocument_parts h
  PlanSet.build_closed hp (assemble_sound hs)

theorem Bindings.coherent (h : Bindings.ofDocument options document = .ok bindings)
    (hd : Idl.DistinctMembers document) : bindings.plans.Coherent := by
  obtain ⟨hs, hp⟩ := ofDocument_parts h
  have hsound := assemble_sound hs
  obtain ⟨hall, hcheck⟩ := PlanSet.build_parts hp
  refine ⟨PlanSet.build_closed hp hsound, ?_, ?_⟩
  · intro plan hplan
    exact Embedding.within_of_checkEmbedding (PlanSet.build_names hp hsound) hcheck hplan
  · intro plan hplan
    obtain ⟨node, hnode, hr⟩ := exists_of_mem_right hall hplan
    exact buildPlan_coherent hr (assemble_distinct hs hd node hnode) (hsound.types node hnode)

theorem Idl.DistinctMembers.of_names {names : List (List String)}
    (h : (Idl.normalize document).map (fun normalized => normalized.stubs.map fun stub =>
      stub.record.members.map fun member => camelCase member.name) = .ok names)
    (hd : ∀ found ∈ names, found.Nodup) : Idl.DistinctMembers document := by
  intro normalized hn stub hs _
  rw [hn, Except.map, Except.ok.injEq] at h
  subst h
  exact hd _ (List.mem_map_of_mem hs)

theorem Bindings.ofDocument_of_parts (hs : assemble options document = .ok schema)
    (hplans : schema.structures.mapM (buildPlan schema) = .ok set.plans)
    (htables : (schema.enums ++ schema.bitmasks).map NameTable.ofValueSet = set.tables)
    (hnames : Entries.ofList
      (set.tables.map (fun table => (table.externalName, table.declarationName)) ++
        set.plans.map fun plan => (plan.externalName, plan.name)) = set.byExternal)
    (hcheck : checkEmbedding set.plans = .ok ()) :
    ofDocument options document = .ok ⟨schema, set⟩ := by
  have hset : PlanSet.build schema = .ok set := by
    rw [PlanSet.build, hplans, htables]
    show (checkEmbedding set.plans >>= fun _ => _) = _
    rw [hcheck, hnames]
    rfl
  rw [ofDocument, hs]
  show (PlanSet.build schema >>= fun _ => _) = _
  rw [hset]
  rfl

def labelDocument : Idl.Document :=
  [("label", .object [("category", .string "structure"), ("members", .array [
    .object [("name", .string "text"), ("type", .string "char"),
      ("annotation", .string "const*"), ("length", .string "strlen")],
    .object [("name", .string "size"), ("type", .string "uint32_t")]])])]

def labelPlan : StructPlan where
  name := "WGPULabel"
  externalName := "GPULabel"
  extensible := false
  members := [⟨"text", .required, .string, .arrayOwned, none, "char"⟩,
    ⟨"size", .required, .number .u32, .value, none, "uint32_t"⟩]
  fields := [⟨"text", "char", .null⟩, ⟨"size", "uint32_t", .number .u32 (.integer 0)⟩]

def labelPlans : PlanSet := ⟨[labelPlan], [], [("GPULabel", "WGPULabel")]⟩

def labelWhole : HostValue := .object [("text", .string "a"), ("size", .number ⟨0⟩)]

/-- A label whose second member is missing, so that it fails when its text is already there. -/
def labelPart : HostValue := .object [("text", .string "a")]

theorem label_distinct : Idl.DistinctMembers labelDocument := by
  have hnames : ∀ found ∈ [["text", "size"]], found.Nodup := by decide
  exact .of_names rfl hnames

theorem label_bindings : ∃ schema,
    Bindings.ofDocument .standard labelDocument = .ok ⟨schema, labelPlans⟩ := by
  obtain ⟨schema, hs, hplans, htables⟩ : ∃ schema,
      assemble .standard labelDocument = .ok schema ∧
        schema.structures.mapM (buildPlan schema) = .ok labelPlans.plans ∧
          (schema.enums ++ schema.bitmasks).map NameTable.ofValueSet = labelPlans.tables :=
    ⟨_, rfl, rfl, rfl⟩
  have hcheck : checkEmbedding labelPlans.plans = .ok () := by
    simp [checkEmbedding, Embedding.check, Embedding.walk, Embedding.enter, labelPlans, labelPlan]
  exact ⟨schema, Bindings.ofDocument_of_parts hs hplans htables rfl hcheck⟩

/-- Labels in two arrays, both counted by one field. -/
def pairDocument : Idl.Document :=
  labelDocument ++ [("pair", .object [("category", .string "structure"), ("members", .array [
    .object [("name", .string "count"), ("type", .string "uint32_t")],
    .object [("name", .string "first"), ("type", .string "label"),
      ("annotation", .string "const*"), ("length", .string "count"), ("optional", .bool true)],
    .object [("name", .string "second"), ("type", .string "label"),
      ("annotation", .string "const*"), ("length", .string "count"), ("optional", .bool true)]])])]

def pairMember (name : String) : MemberPlan :=
  ⟨name, .optional, .nestedArray "WGPULabel" false, .arrayOwned, some ⟨"count", .u32⟩, "WGPULabel"⟩

def pairPlan : StructPlan where
  name := "WGPUPair"
  externalName := "GPUPair"
  extensible := false
  members := [pairMember "first", pairMember "second"]
  fields := [⟨"count", "uint32_t", .number .u32 (.integer 0)⟩, ⟨"first", "WGPULabel", .null⟩,
    ⟨"second", "WGPULabel", .null⟩]

def pairPlans : PlanSet :=
  ⟨[labelPlan, pairPlan], [], [("GPULabel", "WGPULabel"), ("GPUPair", "WGPUPair")]⟩

theorem pair_distinct : Idl.DistinctMembers pairDocument := by
  have hnames : ∀ found ∈ [["text", "size"], ["count", "first", "second"]], found.Nodup := by
    decide
  exact .of_names rfl hnames

theorem pair_bindings : ∃ schema,
    Bindings.ofDocument .standard pairDocument = .ok ⟨schema, pairPlans⟩ := by
  obtain ⟨schema, hs, hplans, htables⟩ : ∃ schema,
      assemble .standard pairDocument = .ok schema ∧
        schema.structures.mapM (buildPlan schema) = .ok pairPlans.plans ∧
          (schema.enums ++ schema.bitmasks).map NameTable.ofValueSet = pairPlans.tables :=
    ⟨_, rfl, rfl, rfl⟩
  have hcheck : checkEmbedding pairPlans.plans = .ok () := by
    simp [checkEmbedding, Embedding.check, Embedding.walk, Embedding.enter, pairPlans, pairPlan,
      labelPlan, bind, Except.bind, pure, Except.pure]
  exact ⟨schema, Bindings.ofDocument_of_parts hs hplans htables rfl hcheck⟩

def pairLabels (count : Nat) : HostValue := .array (List.replicate count labelWhole)

def pairSingle : HostValue := .object [("first", pairLabels 1)]

def pairDouble : HostValue := .object [("first", pairLabels 2), ("second", pairLabels 1)]

def labelSeven : HostValue :=
  .object [("text", .string "b"), ("size", .number ⟨0x401c000000000000⟩)]

def pairNull : HostValue := .object [("first", .array [labelWhole, labelSeven]), ("second", .null)]

/-- A pair whose second label has null for a size, which a label is required to have. -/
def pairBroken : HostValue := .object [("second", .null),
  ("first", .array [labelWhole, .object [("text", .string "b"), ("size", .null)]])]

end DescriptorMarshal
