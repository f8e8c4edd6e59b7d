import DescriptorMarshal.Proofs.Depth

/-!
One slot per field. The fields of a plan have names of their own exactly when the members of every
structure of the document do, which nothing checks; then a structure has one slot per field, and
filling one member leaves the slots of the others alone.
-/

namespace DescriptorMarshal

variable {set : PlanSet} {plan : StructPlan} {member : MemberPlan} {native after : NativeStruct}
  {input : HostValue} {place : Place} {heap : Heap}

/-- Only the slot of the member and its length field may differ. -/
def MemberPlan.Leaves (member : MemberPlan) (native after : NativeStruct) : Prop :=
  ∀ name, name ≠ member.name → ¬ (∃ length, member.length = some length ∧ length.name = name) →
    after.get? name = native.get? name

namespace MemberPlan.Leaves

theorem refl (member : MemberPlan) (native : NativeStruct) : member.Leaves native native :=
  fun _ _ _ => rfl

theorem write (member : MemberPlan) (native : NativeStruct) (value : NativeValue) :
    member.Leaves native (native.set member.name value) := by
  intro name hn _
  exact Entries.get?_put_of_ne _ value (Ne.symm hn)

theorem setLength (h : member.Leaves native after) (count : Nat) :
    member.Leaves native (member.setLength after count) := by
  intro name hn hl
  rw [← h name hn hl]
  unfold MemberPlan.setLength
  cases hlength : member.length with
  | none => rfl
  | some length =>
    apply Entries.get?_put_of_ne
    intro he
    exact hl ⟨length, hlength, he⟩

end MemberPlan.Leaves

open MemberPlan (Leaves)

theorem fillConverted_leaves (converted : Except DecodeError NativeValue) :
    member.Leaves native (fillConverted member.name converted heap native).native := by
  cases converted with
  | ok value => exact Leaves.write member native value
  | error error => exact Leaves.refl member native

theorem fillArray_leaves (zero : NativeValue)
    (convert : HostValue → Place → Except DecodeError NativeValue) :
    member.Leaves native (fillArray member zero convert input place heap native).native := by
  cases input with
  | array items => exact (Leaves.write member native _).setLength _
  | _ => exact Leaves.refl member native

theorem fillPlain_leaves :
    member.Leaves native (set.fillPlain member input place heap native).native := by
  unfold PlanSet.fillPlain
  cases member.marshal with
  | unwrap | number | boolean | enumeration | bitmask => exact fillConverted_leaves _
  | unwrapArray | enumerationArray | bitmaskArray => exact fillArray_leaves _ _
  | string =>
    cases input with
    | string text => exact Leaves.write member native _
    | _ => exact Leaves.refl member native
  | buffer kind =>
    dsimp only
    cases convertBuffer kind input place with
    | ok view => exact (Leaves.write member native _).setLength _
    | error error => exact Leaves.refl member native
  | nested | nestedArray => exact Leaves.refl member native

theorem fillValue_leaves :
    member.Leaves native (set.fillValue input member place heap native).native := by
  cases hmarshal : member.marshal with
  | nested name byReference =>
    cases hn : set.planOf? name with
    | none =>
      cases input <;> simp only [PlanSet.fillValue, hmarshal, hn] <;>
        exact Leaves.refl member native
    | some plan =>
      cases input with
      | object properties =>
        simp only [PlanSet.fillValue, hmarshal, hn]
        cases byReference <;> exact Leaves.write member native _
      | _ =>
        simp only [PlanSet.fillValue, hmarshal, hn]
        exact Leaves.refl member native
  | nestedArray name ofPointers =>
    cases hn : set.planOf? name with
    | none =>
      cases input <;> simp only [PlanSet.fillValue, hmarshal, hn] <;>
        exact Leaves.refl member native
    | some plan =>
      cases input with
      | array items =>
        simp only [PlanSet.fillValue, hmarshal, hn]
        exact (Leaves.write member native _).setLength _
      | _ =>
        simp only [PlanSet.fillValue, hmarshal, hn]
        exact Leaves.refl member native
  | _ =>
    rw [fillValue_plain (by rw [hmarshal]; rfl)]
    exact fillPlain_leaves

theorem fillProperty_leaves (properties : List (String × HostValue)) :
    member.Leaves native (set.fillProperty properties member place heap native).native := by
  rw [PlanSet.fillProperty_eq]
  cases member.given? properties with
  | some input => exact fillValue_leaves
  | none =>
    unfold fillAbsent
    cases member.presence <;> exact Leaves.refl member native

variable {options : SchemaOptions} {document : Idl.Document} {schema : Schema}
  {bindings : Bindings}

theorem exists_structure {normalized : Idl.Normalized} {stub : Idl.Stub}
    (h : assemble options document = .ok schema)
    (hn : Idl.normalize document = .ok normalized) (hs : stub ∈ normalized.stubs)
    (hc : stub.category = .struct) :
    ∃ node ∈ schema.structures,
      node.members.map (·.name) = stub.record.members.map fun raw => camelCase raw.name := by
  obtain ⟨normalized', hn', h⟩ := ok_of_bind h
  rw [hn, Except.ok.injEq] at hn'
  subst hn'
  obtain ⟨index, -, h⟩ := ok_of_bind h
  obtain ⟨nodes, hnodes, h⟩ := ok_of_bind h
  cases h
  obtain ⟨node, hm, hr⟩ := exists_of_mem_left (forall₂_of_mapM hnodes) hs
  have hcategory := (Assembler.node_grounded hr).1
  rw [hc] at hcategory
  cases node with
  | struct inner =>
    exact ⟨inner, mem_structures.mpr hm, ((Assembler.node_assembled hr).struct inner rfl).names⟩
  | _ => cases hcategory

theorem Bindings.distinct_iff (h : ofDocument options document = .ok bindings) :
    Idl.DistinctMembers document ↔
      ∀ plan ∈ bindings.plans.plans, (plan.fields.map (·.name)).Nodup := by
  constructor
  · intro hd plan hp
    exact ((coherent h hd).plans plan hp).fields
  · intro hall normalized hn stub hs hc
    obtain ⟨hassemble, hbuild⟩ := ofDocument_parts h
    obtain ⟨node, hnode, hnames⟩ := exists_structure hassemble hn hs hc
    obtain ⟨plan, hp, hr⟩ := exists_of_mem_left (PlanSet.build_parts hbuild).1 hnode
    rw [← hnames, ← buildPlan_fields hr]
    exact hall plan hp

/-- A structure of the plan has one slot per field, in the order of the fields, and no two members
share a slot. -/
structure StructPlan.OneSlotPerField (set : PlanSet) (plan : StructPlan) : Prop where
  names : (plan.fields.map (·.name)).Nodup
  reset : Entries.keys (set.reset plan).fields = plan.fields.map (·.name)
  decoded : ∀ input next context native after,
    set.decode plan input next context = (.ok native, after) →
      Entries.keys native.fields = plan.fields.map (·.name) ∧
        ∀ inner, after.heap.Contains (.struct native) inner → ∃ owner ∈ set.plans,
          inner.typeName = owner.name ∧ Entries.keys inner.fields = owner.fields.map (·.name)
  apart : plan.members.Pairwise fun first second => ∀ properties place heap native,
    (set.fillProperty properties first place heap native).native.get? second.name =
        native.get? second.name ∧
      (set.fillProperty properties second place heap native).native.get? first.name =
        native.get? first.name

theorem PlanSet.Regular.oneSlotPerField (hs : set.Regular) (hp : plan ∈ set.plans) :
    plan.OneSlotPerField set := by
  have hc := hs.plans plan hp
  refine ⟨hc.fields, ?_, ?_, ?_⟩
  · rw [hs.reset_eq hp, Entries.keys, List.map_map]
    rfl
  · intro input next context native after h
    have hmeans := hs.decode_means hp h
    refine ⟨hmeans.shape.2, ?_⟩
    intro inner hinner
    obtain ⟨owner, ho, hr⟩ := hmeans.contains hs hp hinner
    exact ⟨owner, ho, hr.shape⟩
  · -- a field that counts an array is the slot of no member
    have apart : ∀ first ∈ plan.members, ∀ second ∈ plan.members, first.name ≠ second.name →
        ∀ properties place heap native,
          (set.fillProperty properties first place heap native).native.get? second.name =
            native.get? second.name := by
      intro first hf second hsecond hne properties place heap native
      apply fillProperty_leaves properties second.name (Ne.symm hne)
      rintro ⟨length, hl, hname⟩
      apply (hc.length first hf length hl).2
      rw [hname]
      exact List.mem_map_of_mem hsecond
    refine List.Pairwise.imp_of_mem ?_ (List.pairwise_map.mp hc.members)
    intro first second hf hsecond hne properties place heap native
    exact ⟨apart first hf second hsecond hne properties place heap native,
      apart second hsecond first hf (Ne.symm hne) properties place heap native⟩

/-- Structures have one slot per field exactly for documents in which no two members of a structure
camel-case to the same name. -/
theorem one_slot_per_field_iff (hb : Bindings.ofDocument options document = .ok bindings) :
    Idl.DistinctMembers document ↔
      ∀ plan ∈ bindings.plans.plans, plan.OneSlotPerField bindings.plans := by
  constructor
  · intro hd plan hp
    exact (Bindings.regular hb hd).oneSlotPerField hp
  · intro hall
    exact (Bindings.distinct_iff hb).mpr fun plan hp => (hall plan hp).names

theorem one_slot_per_field_iff_label : ∃ bindings,
    Bindings.ofDocument .standard labelDocument = .ok bindings ∧
    labelPlan.OneSlotPerField bindings.plans := by
  obtain ⟨schema, hb⟩ := label_bindings
  exact ⟨_, hb, (one_slot_per_field_iff hb).mp label_distinct labelPlan List.mem_cons_self⟩

def twinDocument : Idl.Document :=
  [("twin", .object [("category", .string "structure"), ("members", .array [
    .object [("name", .string "a b"), ("type", .string "char"),
      ("annotation", .string "const*"), ("length", .string "strlen")],
    .object [("name", .string "aB"), ("type", .string "char"),
      ("annotation", .string "const*"), ("length", .string "strlen")]])])]

def twinMember : MemberPlan := ⟨"aB", .required, .string, .arrayOwned, none, "char"⟩

def twinPlan : StructPlan where
  name := "WGPUTwin"
  externalName := "GPUTwin"
  extensible := false
  members := [twinMember, twinMember]
  fields := [⟨"aB", "char", .null⟩, ⟨"aB", "char", .null⟩]

def twinPlans : PlanSet := ⟨[twinPlan], [], [("GPUTwin", "WGPUTwin")]⟩

def twinWhole : HostValue := .object [("aB", .string "x")]

theorem twin_bindings : ∃ schema,
    Bindings.ofDocument .standard twinDocument = .ok ⟨schema, twinPlans⟩ := by
  obtain ⟨schema, hs, hplans, htables⟩ : ∃ schema,
      assemble .standard twinDocument = .ok schema ∧
        schema.structures.mapM (buildPlan schema) = .ok twinPlans.plans ∧
          (schema.enums ++ schema.bitmasks).map NameTable.ofValueSet = twinPlans.tables :=
    ⟨_, rfl, rfl, rfl⟩
  have hcheck : checkEmbedding twinPlans.plans = .ok () := by
    simp [checkEmbedding, Embedding.check, Embedding.walk, Embedding.enter, twinPlans, twinPlan]
  exact ⟨schema, Bindings.ofDocument_of_parts hs hplans htables rfl hcheck⟩

/-- Destroying a twin takes the one slot twice, the second time after it was cleared. -/
theorem destroy_twin (id : BlockId) (heap : Heap) (bytes : List UInt8)
    (h : heap.get? id = some (.cString bytes)) :
    twinPlans.destroy twinPlan ⟨"WGPUTwin", none, [("aB", .pointer id)]⟩ heap =
      (heap.free id .deleteArray).2 := by
  let cleared : NativeStruct := ⟨"WGPUTwin", none, [("aB", .null)]⟩
  have hslot : twinPlans.releaseStep (.slot twinMember (.pointer id)) heap =
      ([], (heap.free id .deleteArray).2) := by
    simp [PlanSet.releaseStep, twinMember, Heap.free, h, HeapBlock.releaseKind]
  calc twinPlans.releaseAll [.fields [twinMember, twinMember] _] heap
      = twinPlans.releaseAll [.slot twinMember (.pointer id), .fields [twinMember] cleared] heap :=
        releaseAll_cons _ _ _ _
    _ = twinPlans.releaseAll [.fields [twinMember] cleared] (heap.free id .deleteArray).2 := by
        rw [releaseAll_cons, hslot, List.nil_append]
    _ = twinPlans.releaseAll [.slot twinMember .null, .fields [] cleared]
          (heap.free id .deleteArray).2 := releaseAll_cons _ _ _ _
    _ = twinPlans.releaseAll [.fields [] cleared] (heap.free id .deleteArray).2 :=
        releaseAll_cons _ _ _ _
    _ = twinPlans.releaseAll [] (heap.free id .deleteArray).2 := releaseAll_cons _ _ _ _
    _ = (heap.free id .deleteArray).2 := by rw [PlanSet.releaseAll]

/-- Two fields share one slot. Of the two strings copied for them the structure keeps one, so
destroying it leaves the other. -/
theorem twin_leaks : ∃ bindings native after,
    Bindings.ofDocument .standard twinDocument = .ok bindings ∧ twinPlan ∈ bindings.plans.plans ∧
    ¬ (twinPlan.fields.map (·.name)).Nodup ∧
    Entries.keys (bindings.plans.reset twinPlan).fields = ["aB"] ∧
    bindings.plans.decode twinPlan twinWhole none .empty = (.ok native, after) ∧
    after.heap.live = 2 ∧ (bindings.plans.destroy twinPlan native after.heap).live = 1 := by
  obtain ⟨schema, hb⟩ := twin_bindings
  obtain ⟨after, he, hget, hlive, hfree⟩ : ∃ after,
      twinPlans.decode twinPlan twinWhole none .empty =
          (.ok ⟨"WGPUTwin", none, [("aB", .pointer ⟨2⟩)]⟩, after) ∧
        after.heap.get? ⟨2⟩ = some (.cString (Heap.cStringBytes "x")) ∧ after.heap.live = 2 ∧
          (after.heap.free ⟨2⟩ .deleteArray).2.live = 1 := ⟨_, rfl, rfl, rfl, rfl⟩
  refine ⟨_, _, after, hb, List.mem_cons_self, by decide, rfl, he, hlive, ?_⟩
  rw [destroy_twin ⟨2⟩ after.heap _ hget, hfree]

end DescriptorMarshal
