import DescriptorMarshal.Cpp.Release
import DescriptorMarshal.Proofs.Counting
import DescriptorMarshal.Proofs.Independence
import DescriptorMarshal.Proofs.Ownership

/-!
Arms that no run reaches. Ownership is settled when a type is resolved, the operation when a plan is
built, and the tables when plans are put together; they agree for every document, so the arms for a
plan, a table or a release rule that is not there are dead.
-/

namespace DescriptorMarshal

variable {set : PlanSet} {plan : StructPlan} {member : MemberPlan} {native : NativeStruct}
  {before heap : Heap} {nested : Option String}

theorem Cpp.block_ne_nil (header : String) (body : Code) : Cpp.Code.block header body ≠ [] := by
  unfold Cpp.Code.block Cpp.Code.blockEnding Cpp.Code.line
  rw [List.append_assoc]
  exact List.cons_ne_nil _ _

theorem Cpp.nestedName_eq_elim : Cpp.nestedName set member =
    member.marshal.structName?.elim (.ok none) fun name =>
      (Cpp.structureName set name).map some := by
  unfold Cpp.nestedName
  cases member.marshal <;> rfl

theorem Cpp.nestedName_spec {name : String} (h : Cpp.nestedName set member = .ok nested)
    (hn : member.marshal.structName? = some name) :
    ∃ external, Cpp.structureName set name = .ok external ∧ nested = some external := by
  rw [Cpp.nestedName_eq_elim, hn, Option.elim_some] at h
  cases hs : Cpp.structureName set name with
  | error e =>
    rw [hs] at h
    cases h
  | ok external =>
    rw [hs] at h
    cases h
    exact ⟨external, rfl, rfl⟩

theorem Cpp.releaseMember_ne_nil (ho : member.ownership = member.marshal.ownership)
    (hr : member.ownership.releases = true) (h : Cpp.nestedName set member = .ok nested) :
    Cpp.releaseMember member nested ≠ [] := by
  rw [ho] at hr
  unfold Cpp.releaseMember
  cases hmarshal : member.marshal with
  | nested name byReference =>
    obtain ⟨external, -, rfl⟩ := Cpp.nestedName_spec h (by rw [hmarshal]; rfl)
    rw [ho, hmarshal]
    cases byReference with
    | false => exact List.cons_ne_nil _ _
    | true => exact Cpp.block_ne_nil _ _
  | nestedArray name ofPointers =>
    obtain ⟨external, -, rfl⟩ := Cpp.nestedName_spec h (by rw [hmarshal]; rfl)
    rw [ho, hmarshal]
    cases ofPointers <;> exact Cpp.block_ne_nil _ _
  | unwrapArray | enumerationArray | bitmaskArray | string =>
    rw [ho, hmarshal]
    exact Cpp.block_ne_nil _ _
  | _ =>
    rw [hmarshal] at hr
    cases hr

/-- A structure reads the same in any heap that has the blocks it owns. -/
theorem Heap.Means.of_owns (h : before.Means set plan native)
    (hb : ∀ id, before.Owns native id → heap.get? id = before.get? id) :
    heap.Means set plan native := by
  obtain ⟨next, properties, layout, rfl, hh, hi⟩ := h
  refine ⟨next, properties, layout, rfl, ?_, hi⟩
  intro entry he
  rw [hb entry.1 ((owns_iff hh).mpr (List.mem_map_of_mem he))]
  exact hh entry he

variable {options : SchemaOptions} {document : Idl.Document} {bindings : Bindings}

/-- The plans of every document are complete. Resets and decodes come out the same whatever the set
would answer for a name it does not have, so none of them depends on such an answer; the release
block of an owning member is never empty; and when members have names of their own, destroying a
reset structure in any heap, or a decoded one in any heap that still has its blocks, comes to no
slot without a rule. -/
theorem fallbacks_unreached (hb : Bindings.ofDocument options document = .ok bindings) :
    (∀ plan ∈ bindings.plans.plans, plan.Complete bindings.plans) ∧
    (∀ plan ∈ bindings.plans.plans, ∀ plans tables,
      (bindings.plans.adding plans tables).reset plan = bindings.plans.reset plan ∧
      ∀ input next context, (bindings.plans.adding plans tables).decode plan input next context =
        bindings.plans.decode plan input next context) ∧
    (∀ plan ∈ bindings.plans.plans, ∀ member ∈ plan.owningMembers, ∀ nested,
      Cpp.nestedName bindings.plans member = .ok nested →
        Cpp.releaseMember member nested ≠ []) ∧
    (Idl.DistinctMembers document → ∀ plan ∈ bindings.plans.plans,
      (∀ heap agenda left,
        bindings.plans.Releasing [.fields plan.owningMembers (bindings.plans.reset plan)] heap
            agenda left →
          ∀ task ∈ agenda, task.Handled) ∧
      ∀ input next context native after,
        bindings.plans.decode plan input next context = (.ok native, after) →
        ∀ heap, (∀ id, after.heap.Owns native id → heap.get? id = after.heap.get? id) →
          ∀ agenda left,
            bindings.plans.Releasing [.fields plan.owningMembers native] heap agenda left →
              ∀ task ∈ agenda, task.Handled) := by
  have hs := Bindings.complete_set hb
  refine ⟨hs.plans, ?_, ?_, ?_⟩
  · intro plan hp plans tables
    exact ⟨reset_adding hs hp, decode_adding hs hp⟩
  · intro plan hp member hm nested hn
    obtain ⟨hmember, hreleases⟩ := List.mem_filter.mp hm
    have hcomplete := (hs.plans plan hp).members member hmember
    exact Cpp.releaseMember_ne_nil hcomplete.ownership hreleases hn
  · intro hd plan hp
    have hregular := Bindings.regular hb hd
    constructor
    · intro heap agenda left hrun
      exact (hregular.reset_means hp).handled hregular hp hrun
    · intro input next context native after hdecode heap howns agenda left hrun
      have hmeans := (hregular.decode_means hp hdecode).of_owns howns
      exact hmeans.handled hregular hp hrun

theorem fallbacks_unreached_pair : ∃ bindings native after,
    Bindings.ofDocument .standard pairDocument = .ok bindings ∧
    pairPlan.Complete bindings.plans ∧
    bindings.plans.decode pairPlan pairDouble none .empty = (.ok native, after) ∧
    ∀ agenda left,
      bindings.plans.Releasing [.fields pairPlan.owningMembers native] after.heap agenda left →
        ∀ task ∈ agenda, task.Handled := by
  obtain ⟨schema, hb⟩ := pair_bindings
  have hm : pairPlan ∈ pairPlans.plans := by decide
  obtain ⟨native, after, he⟩ : ∃ native after,
      pairPlans.decode pairPlan pairDouble none .empty = (.ok native, after) := ⟨_, _, rfl⟩
  obtain ⟨hcomplete, -, -, hhandled⟩ := fallbacks_unreached hb
  exact ⟨_, native, after, hb, hcomplete pairPlan hm, he,
    (hhandled pair_distinct pairPlan hm).2 _ _ _ native after he after.heap fun _ _ => rfl⟩

end DescriptorMarshal
