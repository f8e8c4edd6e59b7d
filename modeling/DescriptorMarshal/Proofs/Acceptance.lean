import DescriptorMarshal.Proofs.Cycles
import DescriptorMarshal.Proofs.Typing

/-!
Which schemas have plans. A structure is planned exactly when each member that is marshaled has a
shape with a rule, when the defaults of its enums and bitmasks fit their bits, and when no structure
lies within itself. A refusal names a member at fault, and a plan drops no member.
-/

namespace DescriptorMarshal

variable {options : SchemaOptions} {document : Idl.Document} {schema : Schema}
  {node : StructureNode} {member : Member} {owner name : String} {e : SchemaError}

def TypeDescriptor.supported (type : TypeDescriptor) : Bool :=
  match type.kind with
  | .object | .number _ | .enumeration | .bitmask =>
    !type.isReference && !type.isArray || type.isArray && !type.isArrayOfPointers
  | .boolean => !type.isReference
  | .struct | .string => true
  | .void => type.isReference && !type.isArrayOfPointers
  | .function => false

/-- A structure that is part of the one it is a member of. -/
structure TypeDescriptor.InPlace (type : TypeDescriptor) : Prop where
  kind : type.kind = .struct
  reference : type.isReference = false
  array : type.isArray = false

/-- The default, if there is one, is an integer of 32 bits. -/
def Member.DefaultFits (member : Member) : Prop :=
  ∀ value, member.default = some value →
    ∃ n, value = .integer n ∧ IntRange.unsigned32.contains n = true

def Member.Fits (member : Member) : Prop :=
  (member.type.kind = .enumeration ∨ member.type.kind = .bitmask) →
    member.type.isReference = false → member.type.isArray = false → member.DefaultFits

def StructureNode.marshals (node : StructureNode) (member : Member) : Bool :=
  !member.isInternal && !node.isLengthMember member.name

def Schema.Embeds (schema : Schema) (outer inner : String) : Prop :=
  ∃ node ∈ schema.structures, ∃ member ∈ node.members, node.header.declarationName = outer ∧
    member.type.InPlace ∧ member.type.nativeType = inner

/-- A schema that plans can be made of. -/
structure Schema.Encodable (schema : Schema) : Prop where
  shapes : ∀ node ∈ schema.structures, ∀ member ∈ node.members, node.marshals member = true →
    member.type.supported = true
  defaults : ∀ node ∈ schema.structures, ∀ member ∈ node.members, member.Fits
  layout : ∀ name, ¬ Relation.TransGen schema.Embeds name name

/-- A member that a plan can be made with. -/
structure StructureNode.Accepts (node : StructureNode) (member : Member) : Prop where
  shape : node.marshals member = true → member.type.supported = true
  default : member.Fits

/-- What is said of a member that a plan cannot be made with. -/
inductive StructureNode.Refuses (node : StructureNode) (member : Member) : SchemaError → Prop where
  | shape (marshaled : node.marshals member = true) (unsupported : member.type.supported = false)
      (shape : Unsupported) :
      Refuses node member (.unsupportedShape node.header.externalName member.name shape)
  | default (unfit : ¬ member.Fits) (value : String) (fault : DefaultFault) :
      Refuses node member (.defaultValue node.header.externalName member.name value fault)

/-- What is said of a schema that plans cannot be made of. -/
inductive Schema.Refuses (schema : Schema) : SchemaError → Prop where
  | member {node : StructureNode} {member : Member} {e : SchemaError}
      (owner : node ∈ schema.structures) (mem : member ∈ node.members)
      (fault : node.Refuses member e) : Refuses schema e
  | layout {node : StructureNode} {member : Member} (owner : node ∈ schema.structures)
      (mem : member ∈ node.members) (inPlace : member.type.InPlace)
      (back : Relation.ReflTransGen schema.Embeds member.type.nativeType
        node.header.declarationName) :
      Refuses schema (.unsupportedShape node.header.externalName member.name .selfEmbedding)

/-- What a plan keeps of its structure: all members as fields, and those that are marshaled as
members, each by the rule for its shape. -/
structure StructureNode.Planned (schema : Schema) (node : StructureNode) (plan : StructPlan) :
    Prop where
  name : plan.name = node.header.declarationName
  externalName : plan.externalName = node.header.externalName
  extensible : plan.extensible = node.extensible
  fields : plan.fields.map (fun field => (field.name, field.nativeType)) =
    node.members.map fun member => (member.name, member.type.nativeType)
  members : List.Forall₂ (fun member planned => planned.Built schema node member)
    (node.members.filter node.marshals) plan.members

/-! ### One member -/

theorem Schema.Closed.byDeclaration? {naming : Naming} {found : SchemaNode}
    (hc : schema.Closed naming document) (hf : found ∈ schema.nodes) :
    schema.byDeclaration? found.header.declarationName = some found := by
  obtain ⟨position, hposition⟩ := List.mem_iff_getElem?.mp hf
  exact Option.bind_eq_some_iff.mpr ⟨_, hc.declarationName position found hposition, hposition⟩

theorem Schema.Closed.structure? {naming : Naming} {type : TypeDescriptor}
    (hc : schema.Closed naming document) (hn : schema.Names type) (hk : type.kind = .struct) :
    ∃ inner, .struct inner ∈ schema.nodes ∧ inner.header.declarationName = type.nativeType ∧
      schema.structure? type.nativeType = some inner := by
  obtain ⟨found, hf, hcategory, hunique⟩ := hn .struct hk
  have hname : found.header.declarationName = type.nativeType := (hunique found hf).mpr rfl
  cases found with
  | struct inner =>
    refine ⟨inner, hf, hname, ?_⟩
    unfold Schema.structure?
    rw [← hname, hc.byDeclaration? hf]
  | _ => cases hcategory

theorem marshalOf_cases (owner : String) (hc : member.type.Consistent)
    (hs : member.type.kind = .struct → (schema.structure? member.type.nativeType).isSome = true) :
    (member.type.supported = true ∧ ∃ marshal, marshalOf schema owner member = .ok marshal) ∨
      (member.type.supported = false ∧
        ∃ shape, marshalOf schema owner member =
          .error (.unsupportedShape owner member.name shape)) := by
  have hpointers := hc.not_array_of_pointers
  unfold marshalOf TypeDescriptor.supported
  dsimp only
  cases hk : member.type.kind with
  | struct =>
    -- a structure has a rule in every form, and a node
    obtain ⟨inner, hi⟩ := Option.isSome_iff_exists.mp (hs hk)
    refine Or.inl ⟨rfl, ?_⟩
    cases member.type.isArray <;> simp [hi]
  | string =>
    obtain ⟨-, ha⟩ := hc.string hk
    exact Or.inl ⟨rfl, by simp [hpointers ha, hc.dynamic.mpr hk]⟩
  | function => exact Or.inr ⟨rfl, by cases member.type.isArrayOfPointers <;> simp⟩
  | void =>
    cases hr : member.type.isReference <;> cases member.type.isArrayOfPointers <;> simp
  | boolean =>
    cases hr : member.type.isReference with
    | false =>
      have ha : member.type.isArray = false := hc.not_array hr
      exact Or.inl ⟨rfl, by simp [ha, hpointers ha]⟩
    | true =>
      refine Or.inr ⟨rfl, ?_⟩
      cases member.type.isArray <;> cases member.type.isArrayOfPointers <;> simp
  | object | number | enumeration | bitmask =>
    cases ha : member.type.isArray with
    | false => cases member.type.isReference <;> simp [hpointers ha]
    | true => cases member.type.isReference <;> cases member.type.isArrayOfPointers <;> simp

theorem defaultBits_cases (owner : String) (member : Member) :
    (member.DefaultFits ∧ ∃ bits, defaultBits owner member = .ok bits) ∨
      (¬ member.DefaultFits ∧ ∃ value fault,
        defaultBits owner member = .error (.defaultValue owner member.name value fault)) := by
  unfold defaultBits Member.DefaultFits
  cases hd : member.default with
  | none => exact Or.inl ⟨nofun, _, rfl⟩
  | some value =>
    cases value with
    | integer n =>
      cases hn : IntRange.unsigned32.contains n with
      | true =>
        refine Or.inl ⟨?_, _, if_pos hn⟩
        rintro value ⟨⟩
        exact ⟨n, rfl, hn⟩
      | false =>
        refine Or.inr ⟨?_, _, _, if_neg (by simp [hn])⟩
        intro h
        obtain ⟨m, hm, hin⟩ := h _ rfl
        cases hm
        rw [hn] at hin
        cases hin
    | _ =>
      refine Or.inr ⟨?_, _, _, rfl⟩
      intro h
      obtain ⟨n, hn, -⟩ := h _ rfl
      cases hn

theorem fieldInitOf_cases (owner : String) (member : Member) (isLength : Bool) :
    (member.Fits ∧ ∃ init, fieldInitOf owner member isLength = .ok init) ∨
      (¬ member.Fits ∧ ∃ value fault, fieldInitOf owner member isLength =
        .error (.defaultValue owner member.name value fault)) := by
  unfold fieldInitOf Member.Fits
  dsimp only
  by_cases hp : member.type.isReference = true ∨ member.type.isArray = true
  · rw [if_pos hp]
    refine Or.inl ⟨?_, _, rfl⟩
    intro _ hr ha
    simp [hr, ha] at hp
  · rw [if_neg hp]
    obtain ⟨hr, ha⟩ : member.type.isReference = false ∧ member.type.isArray = false := by
      simpa using hp
    cases hk : member.type.kind with
    | enumeration | bitmask =>
      obtain ⟨hfits, bits, hb⟩ | ⟨hnot, value, fault, hb⟩ := defaultBits_cases owner member
      · exact Or.inl ⟨fun _ _ _ => hfits, _, by rw [hb]; rfl⟩
      · exact Or.inr ⟨fun h => hnot (h (by simp) hr ha), value, fault, by rw [hb]; rfl⟩
    | number => cases isLength <;> simp
    | _ => simp

theorem StructureNode.member?_of_mem (hd : (node.members.map (·.name)).Nodup)
    (hm : member ∈ node.members) : node.member? member.name = some member := by
  apply (find?_key_iff ?_).mpr ⟨hm, rfl⟩
  exact fun _ hfirst _ hsecond => List.inj_on_of_nodup_map hd hfirst hsecond

/-- With names of their own, the counter that is found is the counter that was checked. -/
theorem lengthFieldOf_counter {counter : Member} {number : NumberType} {range : IntRange}
    (hd : (node.members.map (·.name)).Nodup) (hm : counter ∈ node.members)
    (hk : counter.type.kind = .number number) (hr : number.range? = some range) :
    lengthFieldOf node member counter.name = .ok ⟨counter.name, number⟩ := by
  have hinteger : number.isFloat = false := by cases number <;> first | rfl | cases hr
  have hnumber : counter.type.numberType? = some number := by
    unfold TypeDescriptor.numberType?
    rw [hk]
  have hfound : (node.member? counter.name).bind (·.type.numberType?) = some number := by
    rw [StructureNode.member?_of_mem hd hm]
    exact hnumber
  unfold lengthFieldOf
  simp [hfound, hinteger]

theorem memberPlanOf_cases (hd : (node.members.map (·.name)).Nodup)
    (ht : member.WellTyped schema node.members)
    (hs : member.type.kind = .struct → (schema.structure? member.type.nativeType).isSome = true) :
    (member.type.supported = true ∧ ∃ planned, memberPlanOf schema node member = .ok planned) ∨
      (member.type.supported = false ∧
        ∃ shape, memberPlanOf schema node member =
          .error (.unsupportedShape node.header.externalName member.name shape)) := by
  obtain ⟨hsupported, marshal, hm⟩ | ⟨hnot, shape, hm⟩ :=
    marshalOf_cases node.header.externalName ht.type hs
  · refine Or.inl ⟨hsupported, ?_⟩
    unfold memberPlanOf
    rw [hm]
    cases ha : member.type.isArray with
    | false =>
      cases member.type.length <;> exact ⟨_, rfl⟩
    | true =>
      obtain ⟨counter, hc, -, hl, -, number, range, hk, hr⟩ := ht.counted ha
      have hlength : lengthFieldOf node member counter.name = .ok ⟨counter.name, number⟩ :=
        lengthFieldOf_counter hd hc hk hr
      rw [hl]
      simp only [if_true, hlength]
      exact ⟨_, rfl⟩
  · refine Or.inr ⟨hnot, shape, ?_⟩
    unfold memberPlanOf
    rw [hm]
    rfl

theorem fieldAndMemberOf_eq {init : FieldInit}
    (hi : fieldInitOf node.header.externalName member (node.isLengthMember member.name) =
      .ok init) :
    fieldAndMemberOf schema node member =
      if node.marshals member then
        (memberPlanOf schema node member).map fun planned =>
          (⟨member.name, member.type.nativeType, init⟩, some planned)
      else .ok (⟨member.name, member.type.nativeType, init⟩, none) := by
  unfold fieldAndMemberOf StructureNode.marshals
  dsimp only
  rw [hi]
  cases member.isInternal <;> cases node.isLengthMember member.name <;>
    cases memberPlanOf schema node member <;> rfl

theorem fieldAndMemberOf_cases (hd : (node.members.map (·.name)).Nodup)
    (ht : member.WellTyped schema node.members)
    (hs : member.type.kind = .struct → (schema.structure? member.type.nativeType).isSome = true) :
    (node.Accepts member ∧ ∃ part, fieldAndMemberOf schema node member = .ok part) ∨
      ∃ e, node.Refuses member e ∧ fieldAndMemberOf schema node member = .error e := by
  obtain ⟨hfits, init, hi⟩ | ⟨hnot, value, fault, hi⟩ :=
    fieldInitOf_cases node.header.externalName member (node.isLengthMember member.name)
  · rw [fieldAndMemberOf_eq hi]
    cases hm : node.marshals member with
    | false => exact Or.inl ⟨⟨by simp [hm], hfits⟩, _, rfl⟩
    | true =>
      obtain ⟨hsupported, planned, hp⟩ | ⟨hnot, shape, hp⟩ := memberPlanOf_cases hd ht hs
      · exact Or.inl ⟨⟨fun _ => hsupported, hfits⟩, _, by rw [hp]; rfl⟩
      · exact Or.inr ⟨_, .shape hm hnot shape, by rw [hp]; rfl⟩
  · refine Or.inr ⟨_, .default hnot value fault, ?_⟩
    unfold fieldAndMemberOf
    dsimp only
    rw [hi]
    rfl

theorem StructureNode.Refuses.not_accepts (h : node.Refuses member e) : ¬ node.Accepts member := by
  intro haccepts
  cases h with
  | shape marshaled unsupported =>
    rw [haccepts.shape marshaled] at unsupported
    cases unsupported
  | default unfit => exact unfit haccepts.default

/-! ### One structure -/

structure StructureNode.Ready (schema : Schema) (node : StructureNode) : Prop where
  distinct : (node.members.map (·.name)).Nodup
  typed : ∀ member ∈ node.members, member.WellTyped schema node.members
  found : ∀ member ∈ node.members, member.type.kind = .struct →
    (schema.structure? member.type.nativeType).isSome = true

theorem buildPlan_accepts (hr : node.Ready schema) :
    (∃ plan, buildPlan schema node = .ok plan) ↔ ∀ member ∈ node.members, node.Accepts member := by
  have hparts : (∃ plan, buildPlan schema node = .ok plan) ↔
      ∃ parts, node.members.mapM (fieldAndMemberOf schema node) = .ok parts := by
    constructor
    · rintro ⟨plan, h⟩
      obtain ⟨parts, hp, -⟩ := ok_of_bind h
      exact ⟨parts, hp⟩
    · rintro ⟨parts, hp⟩
      unfold buildPlan
      rw [hp]
      exact ⟨_, rfl⟩
  rw [hparts, exists_mapM_iff]
  refine forall₂_congr fun member hm => ?_
  obtain ⟨haccepts, hpart⟩ | ⟨e, hrefuses, he⟩ :=
    fieldAndMemberOf_cases hr.distinct (hr.typed member hm) (hr.found member hm)
  · exact iff_of_true hpart haccepts
  · refine iff_of_false ?_ hrefuses.not_accepts
    rintro ⟨part, hpart⟩
    rw [he] at hpart
    cases hpart

theorem buildPlan_refuses (hr : node.Ready schema) (h : buildPlan schema node = .error e) :
    ∃ member ∈ node.members, node.Refuses member e := by
  obtain hparts | ⟨parts, -, h⟩ := error_of_bind h
  · obtain ⟨member, hm, he⟩ := exists_of_mapM_error hparts
    obtain ⟨-, part, hpart⟩ | ⟨other, hrefuses, hother⟩ :=
      fieldAndMemberOf_cases hr.distinct (hr.typed member hm) (hr.found member hm)
    · rw [he] at hpart
      cases hpart
    · rw [he] at hother
      cases hother
      exact ⟨member, hm, hrefuses⟩
  · cases h

structure StructureNode.Part (schema : Schema) (node : StructureNode) (member : Member)
    (part : FieldPlan × Option MemberPlan) : Prop where
  field : (part.1.name, part.1.nativeType) = (member.name, member.type.nativeType)
  dropped : node.marshals member = false → part.2 = none
  kept : node.marshals member = true →
    ∃ planned, part.2 = some planned ∧ planned.Built schema node member

theorem fieldAndMemberOf_part {part : FieldPlan × Option MemberPlan}
    (h : fieldAndMemberOf schema node member = .ok part) : node.Part schema member part := by
  obtain ⟨init, hi, -⟩ := ok_of_bind h
  rw [fieldAndMemberOf_eq hi] at h
  cases hm : node.marshals member with
  | false =>
    rw [hm] at h
    cases h
    exact ⟨rfl, fun _ => rfl, by simp [hm]⟩
  | true =>
    cases hp : memberPlanOf schema node member with
    | error =>
      rw [hm, hp] at h
      cases h
    | ok planned =>
      rw [hm, hp] at h
      cases h
      exact ⟨rfl, by simp [hm], fun _ => ⟨planned, rfl, memberPlanOf_built hp⟩⟩

theorem forall₂_kept {members : List Member} {parts : List (FieldPlan × Option MemberPlan)}
    (h : List.Forall₂ (node.Part schema) members parts) :
    List.Forall₂ (fun member planned => planned.Built schema node member)
      (members.filter node.marshals) (parts.filterMap (·.2)) := by
  induction h with
  | nil => exact .nil
  | @cons member part members parts hpart _ ih =>
    obtain ⟨field, planned?⟩ := part
    cases hm : node.marshals member with
    | false =>
      have hnone : planned? = none := hpart.dropped hm
      subst hnone
      rw [List.filter_cons_of_neg (by simp [hm])]
      exact ih
    | true =>
      obtain ⟨planned, hsome, hbuilt⟩ := hpart.kept hm
      dsimp only at hsome
      subst hsome
      rw [List.filter_cons_of_pos hm]
      exact .cons hbuilt ih

theorem buildPlan_keeps {plan : StructPlan} (h : buildPlan schema node = .ok plan) :
    node.Planned schema plan := by
  obtain ⟨parts, hparts, h⟩ := ok_of_bind h
  cases h
  have hall : List.Forall₂ (node.Part schema) node.members parts :=
    (forall₂_of_mapM hparts).imp fun _ _ => fieldAndMemberOf_part
  refine ⟨rfl, rfl, rfl, ?_, forall₂_kept hall⟩
  rw [List.map_map]
  exact map_eq_of_forall₂ hall fun member part hpart => hpart.field

theorem fieldInitOf_embedded_iff {isLength : Bool} :
    fieldInitOf owner member isLength = .ok (.embedded name) ↔
      member.type.InPlace ∧ member.type.nativeType = name := by
  constructor
  · intro h
    obtain ⟨hk, hname⟩ := fieldInitOf_embedded h
    refine ⟨?_, hname⟩
    unfold fieldInitOf at h
    dsimp only at h
    split at h
    · cases h
    · next hplain =>
      obtain ⟨hr, ha⟩ := not_or.mp hplain
      exact ⟨hk, by simpa using hr, by simpa using ha⟩
  · rintro ⟨hplace, rfl⟩
    unfold fieldInitOf
    simp [hplace.kind, hplace.reference, hplace.array]

variable {plans : List StructPlan}

theorem edge_iff {naming : Naming} (hclosed : schema.Closed naming document)
    (htyped : schema.WellTyped) (hn : (plans.map (·.name)).Nodup)
    (hall : List.Forall₂ (fun node plan => buildPlan schema node = .ok plan) schema.structures
      plans) {outer inner : String} :
    Embedding.Edge plans outer inner ↔ schema.Embeds outer inner := by
  constructor
  · rintro ⟨plan, nested, field, hf, hp, hi, -⟩
    obtain ⟨node, hnode, hr⟩ := exists_of_mem_right hall (List.mem_of_find?_eq_some hp)
    obtain ⟨member, hm, -, hinit⟩ := (buildPlan_field hr).2 field hf
    rw [hi] at hinit
    obtain ⟨hplace, hname⟩ := fieldInitOf_embedded_iff.mp hinit
    exact ⟨node, hnode, member, hm, (buildPlan_parts hr).1.symm.trans (findPlan?_name hp), hplace,
      hname⟩
  · rintro ⟨node, hnode, member, hm, rfl, hplace, rfl⟩
    obtain ⟨plan, hplan, hr⟩ := exists_of_mem_left hall hnode
    obtain ⟨field, hf, -, hinit⟩ := (buildPlan_field hr).1 member hm
    obtain ⟨target, htarget, hname, -⟩ :=
      hclosed.structure? (htyped.structures node hnode member hm).names hplace.kind
    obtain ⟨nested, hnested, hrn⟩ := exists_of_mem_left hall (mem_structures.mpr htarget)
    rw [fieldInitOf_embedded_iff.mpr ⟨hplace, rfl⟩, Except.ok.injEq] at hinit
    refine ⟨plan, nested, field, hf, ?_, hinit.symm, ?_⟩
    · rw [← (buildPlan_parts hr).1]
      exact findPlan?_of_mem hn hplan
    · rw [← hname, ← (buildPlan_parts hrn).1]
      exact findPlan?_of_mem hn hnested

/-! ### All structures -/

theorem PlanSet.exists_build_iff : (∃ set, PlanSet.build schema = .ok set) ↔
    ∃ plans, schema.structures.mapM (buildPlan schema) = .ok plans ∧
      checkEmbedding plans = .ok () := by
  constructor
  · rintro ⟨set, h⟩
    obtain ⟨plans, hp, h⟩ := ok_of_bind h
    obtain ⟨_, hc, -⟩ := ok_of_bind h
    exact ⟨plans, hp, hc⟩
  · rintro ⟨plans, hp, hc⟩
    unfold PlanSet.build
    rw [hp]
    show ∃ set, (checkEmbedding plans >>= fun _ => _) = Except.ok set
    rw [hc]
    exact ⟨_, rfl⟩

theorem PlanSet.build_error (h : PlanSet.build schema = .error e) :
    schema.structures.mapM (buildPlan schema) = .error e ∨
      ∃ plans, schema.structures.mapM (buildPlan schema) = .ok plans ∧
        checkEmbedding plans = .error e := by
  obtain hp | ⟨plans, hp, h⟩ := error_of_bind h
  · exact Or.inl hp
  · obtain hc | ⟨_, -, h⟩ := error_of_bind h
    · exact Or.inr ⟨plans, hp, hc⟩
    · cases h

section Assembled

variable (h : assemble options document = .ok schema)
include h

theorem planned_names
    (hall : List.Forall₂ (fun node plan => buildPlan schema node = .ok plan) schema.structures
      plans) : (plans.map (·.name)).Nodup := by
  rw [map_eq_of_forall₂ hall fun node plan hr => (buildPlan_parts hr).1]
  exact (assemble_sound h).names

theorem edge_eq
    (hall : List.Forall₂ (fun node plan => buildPlan schema node = .ok plan) schema.structures
      plans) : Embedding.Edge plans = schema.Embeds :=
  funext₂ fun _ _ => propext <|
    edge_iff (assemble_closed h) (assemble_wellTyped h) (planned_names h hall) hall

variable (hd : ∀ node ∈ schema.structures, (node.members.map (·.name)).Nodup)
include hd

theorem structures_ready (hm : node ∈ schema.structures) : node.Ready schema := by
  have htyped := (assemble_wellTyped h).structures node hm
  refine ⟨hd node hm, htyped, ?_⟩
  intro member hmember hk
  obtain ⟨inner, -, -, hfound⟩ := (assemble_closed h).structure? (htyped member hmember).names hk
  rw [hfound]
  rfl

theorem build_iff_encodable : (∃ set, PlanSet.build schema = .ok set) ↔ schema.Encodable := by
  have hplanned : (∃ plans, schema.structures.mapM (buildPlan schema) = .ok plans) ↔
      ∀ node ∈ schema.structures, ∀ member ∈ node.members, node.Accepts member := by
    rw [exists_mapM_iff]
    exact forall₂_congr fun node hn => buildPlan_accepts (structures_ready h hd hn)
  have hlayout : ∀ plans, schema.structures.mapM (buildPlan schema) = .ok plans →
      (checkEmbedding plans = .ok () ↔ ∀ name, ¬ Relation.TransGen schema.Embeds name name) := by
    intro plans hp
    have hall := forall₂_of_mapM hp
    rw [Embedding.checkEmbedding_iff (planned_names h hall), Embedding.Acyclic, edge_eq h hall]
  rw [PlanSet.exists_build_iff]
  constructor
  · rintro ⟨plans, hp, hc⟩
    have haccepts := hplanned.mp ⟨plans, hp⟩
    exact ⟨fun node hn member hm => (haccepts node hn member hm).shape,
      fun node hn member hm => (haccepts node hn member hm).default, (hlayout plans hp).mp hc⟩
  · intro hencodable
    obtain ⟨plans, hp⟩ := hplanned.mpr fun node hn member hm =>
      ⟨hencodable.shapes node hn member hm, hencodable.defaults node hn member hm⟩
    exact ⟨plans, hp, (hlayout plans hp).mpr hencodable.layout⟩

theorem build_refuses (he : PlanSet.build schema = .error e) : schema.Refuses e := by
  obtain hp | ⟨plans, hp, hc⟩ := PlanSet.build_error he
  · obtain ⟨node, hn, hb⟩ := exists_of_mapM_error hp
    obtain ⟨member, hm, hrefuses⟩ := buildPlan_refuses (structures_ready h hd hn) hb
    exact .member hn hm hrefuses
  · have hall := forall₂_of_mapM hp
    obtain ⟨plan, field, hcycle, rfl⟩ :=
      Embedding.onCycle_of_checkEmbedding (planned_names h hall) hc
    obtain ⟨node, hn, hr⟩ := exists_of_mem_right hall (List.mem_of_find?_eq_some hcycle.found)
    obtain ⟨member, hm, hname, hinit⟩ := (buildPlan_field hr).2 field hcycle.mem
    obtain ⟨inner, hi, -, hback⟩ := hcycle.back
    rw [hi] at hinit
    obtain ⟨hplace, rfl⟩ := fieldInitOf_embedded_iff.mp hinit
    rw [edge_eq h hall, (buildPlan_parts hr).1] at hback
    rw [hname, (buildPlan_keeps hr).externalName]
    exact .layout hn hm hplace hback

/-- An assembled schema whose structures have distinct members is planned exactly when it can be.
If it is not, then a member is named that stands in the way; if it is, then each plan has all
members of its structure. -/
theorem planned_iff_encodable :
    ((∃ set, PlanSet.build schema = .ok set) ↔ schema.Encodable) ∧
      (∀ e, PlanSet.build schema = .error e → schema.Refuses e) ∧
        ∀ set, PlanSet.build schema = .ok set →
          List.Forall₂ (fun node plan => node.Planned schema plan) schema.structures set.plans := by
  refine ⟨build_iff_encodable h hd, fun e => build_refuses h hd, ?_⟩
  intro set hs
  exact (PlanSet.build_parts hs).1.imp fun _ _ => buildPlan_keeps

end Assembled

theorem planned_iff_encodable_scene : ∃ schema set,
    assemble .standard sceneDocument = .ok schema ∧
    (∀ node ∈ schema.structures, (node.members.map (·.name)).Nodup) ∧
    schema.Encodable ∧ PlanSet.build schema = .ok set ∧
    set.plans.map (fun plan => (plan.name, plan.members.map (·.name))) =
      [("WGPULayer", ["label", "ops", "firstOp", "level", "shown", "below"]),
        ("WGPUFrame", ["top"])] := by
  obtain ⟨schema, hs, hdistinct, hshapes, hdefaults, hparts, hmembers⟩ : ∃ schema,
      assemble .standard sceneDocument = .ok schema ∧
      (schema.structures.all fun node => (node.members.map (·.name)).Nodup) = true ∧
      (schema.structures.all fun node => node.members.all fun member =>
        !node.marshals member || member.type.supported) = true ∧
      (schema.structures.flatMap fun node => (node.members.filter fun member =>
        member.type.kind == .enumeration || member.type.kind == .bitmask).map (·.default)) =
          [none, some (.integer 1)] ∧
      (schema.structures.flatMap fun node => (node.members.filter fun member =>
        member.type.kind == .struct && !member.type.isReference).map fun member =>
          (node.header.declarationName, member.type.nativeType)) = [("WGPUFrame", "WGPULayer")] ∧
      schema.structures.map (fun node => (node.header.declarationName,
        (node.members.filter node.marshals).map (·.name))) =
          [("WGPULayer", ["label", "ops", "firstOp", "level", "shown", "below"]),
            ("WGPUFrame", ["top"])] := ⟨_, rfl, rfl, rfl, rfl, rfl, rfl⟩
  have hdistinct : ∀ node ∈ schema.structures, (node.members.map (·.name)).Nodup := by
    simpa using hdistinct
  have hembeds : ∀ outer inner, schema.Embeds outer inner →
      outer = "WGPUFrame" ∧ inner = "WGPULayer" := by
    rintro outer inner ⟨node, hn, member, hm, rfl, hplace, rfl⟩
    have hpair : (node.header.declarationName, member.type.nativeType) ∈
        [("WGPUFrame", "WGPULayer")] := by
      rw [← hparts, List.mem_flatMap]
      refine ⟨node, hn, List.mem_map.mpr ⟨member, List.mem_filter.mpr ⟨hm, ?_⟩, rfl⟩⟩
      simp [hplace.kind, hplace.reference]
    simpa using hpair
  have hencodable : schema.Encodable := by
    refine ⟨?_, ?_, ?_⟩
    · intro node hn member hm hmarshals
      have := List.all_eq_true.mp (List.all_eq_true.mp hshapes node hn) member hm
      simpa [hmarshals] using this
    · intro node hn member hm hk _ _ value hv
      have hmem : member.default ∈ [none, some (.integer 1)] := by
        rw [← hdefaults, List.mem_flatMap]
        refine ⟨node, hn, List.mem_map.mpr ⟨member, List.mem_filter.mpr ⟨hm, ?_⟩, rfl⟩⟩
        simpa using hk
      rw [hv] at hmem
      have hone : value = .integer 1 := by simpa using hmem
      exact ⟨1, hone, by decide⟩
    · intro name hcycle
      obtain ⟨_, hfirst, -⟩ := Relation.TransGen.head'_iff.mp hcycle
      obtain ⟨_, -, hlast⟩ := Relation.TransGen.tail'_iff.mp hcycle
      have hframe := (hembeds _ _ hfirst).1
      rw [(hembeds _ _ hlast).2] at hframe
      exact absurd hframe (by decide)
  obtain ⟨hiff, -, hkeeps⟩ := planned_iff_encodable hs hdistinct
  obtain ⟨set, hset⟩ := hiff.mpr hencodable
  refine ⟨schema, set, hs, hdistinct, hencodable, hset, ?_⟩
  rw [← hmembers]
  refine map_eq_of_forall₂ (hkeeps set hset) fun node plan hp => ?_
  rw [hp.name, map_eq_of_forall₂ hp.members fun member planned hb => hb.name]

end DescriptorMarshal
