import DescriptorMarshal.Proofs.Filling

/-!
A decode either hands out a structure or leaves no trace but its error. A failed decode destroys
the structure as far as it was filled; since that owns exactly the blocks allocated so far, the
heap is as it was before.
-/

namespace DescriptorMarshal

variable {set : PlanSet} {plan : StructPlan} {value : HostValue} {next : Option Handle}
  {context : Context}

def StructPlan.rootChain (plan : StructPlan) (next : Option Handle) : Option Handle :=
  if plan.extensible then next else none

/-- `after` is `heap` after `count` blocks were allocated and released again. -/
structure Heap.Undone (heap : Heap) (count : Nat) (after : Heap) : Prop where
  get? : ∀ id, after.get? id = heap.get? id
  live : after.live = heap.live
  faults : after.faults = heap.faults
  allocations : after.allocations = heap.allocations + count
  frees : after.frees = heap.frees + count

theorem Heap.Released.undone {heap after : Heap} {blocks : List HeapBlock}
    (h : Released (heap.extend blocks) ((numbered heap.slots.length blocks).map Prod.fst) after) :
    heap.Undone blocks.length after where
  get? id := by
    rw [h.get?]
    split
    · next hm =>
      obtain ⟨⟨_, block⟩, he, rfl⟩ := List.mem_map.mp hm
      exact (get?_of_length_lt (number_of_mem_numbered he).1).symm
    · next hm =>
      apply Option.ext
      intro block
      rw [get?_extend_eq_some_iff]
      exact or_iff_left fun he => hm (List.mem_map_of_mem he)
  live := by
    have hl := h.live
    rw [live_extend, List.length_map, length_numbered] at hl
    omega
  faults := h.faults
  allocations := h.allocations
  frees := by
    rw [h.frees, List.length_map, length_numbered]
    rfl

/-- How a decode ends: with a structure whose layout is what the heap was extended with, or with
an error and the heap as it was. -/
inductive Decoded (set : PlanSet) (plan : StructPlan) (value : HostValue) (next : Option Handle)
    (context : Context) : Except DecodeError NativeStruct × Context → Prop where
  | ok {properties layout blocks}
    (object : value = .object properties)
    (owned : OwnedStruct set plan layout)
    (found : layout.blocks.Perm (Heap.numbered context.heap.slots.length blocks))
    (reads : layout.image =
      set.structImage plan (plan.rootChain next) (set.imageGiven properties)) :
    Decoded set plan value next context
      (.ok layout.native, { context with heap := context.heap.extend blocks })
  | error {error count heap} (undone : context.heap.Undone count heap) :
    Decoded set plan value next context
      (.error error, ⟨heap, context.errors ++ [error]⟩)

theorem PlanSet.Coherent.decoded (hs : set.Coherent) (hp : plan ∈ set.plans) (value : HostValue)
    (next : Option Handle) (context : Context) :
    Decoded set plan value next context (set.decode plan value next context) := by
  cases value with
  | object properties =>
    have hstart : (if plan.extensible then { set.reset plan with nextInChain := next }
        else set.reset plan) = { set.reset plan with nextInChain := plan.rootChain next } := by
      unfold StructPlan.rootChain
      split
      · rfl
      · exact (hs.reset_next hp).symm
    have hfilled := @root_filled set plan properties hs hp ⟨plan.externalName, ""⟩ context.heap
      (plan.rootChain next)
    simp only [PlanSet.decode, hstart]
    generalize fillMembers _ plan.members context.heap _ = filled at hfilled ⊢
    cases hfilled with
    | @intro layout blocks error? owned found reads =>
      cases error? with
      | none => exact .ok rfl owned found (reads rfl)
      | some error =>
        have hids := found.map Prod.fst
        have hreleased := destroy_released owned
          ((Heap.holds_extend context.heap blocks).perm found.symm)
          (hids.nodup_iff.mpr (Heap.nodup_numbered _ _))
        exact .error (hreleased.perm hids).undone
  | _ =>
    have hundone : context.heap.Undone 0 context.heap := ⟨fun _ => rfl, rfl, rfl, rfl, rfl⟩
    exact .error hundone

variable {options : SchemaOptions} {document : Idl.Document} {bindings : Bindings}

/-- A failed decode is atomic: the live blocks and their contents are the same, no fault is
recorded, all that was allocated is released, and the error is reported once. A decode that
succeeds reports nothing. -/
theorem decode_atomic (hb : Bindings.ofDocument options document = .ok bindings)
    (hd : Idl.DistinctMembers document) (hp : plan ∈ bindings.plans.plans) (value : HostValue)
    (next : Option Handle) (context : Context) :
    (∀ error after, bindings.plans.decode plan value next context = (.error error, after) →
      (∀ id, after.heap.get? id = context.heap.get? id) ∧
      after.heap.faults = context.heap.faults ∧
      (∃ count, after.heap.allocations = context.heap.allocations + count ∧
        after.heap.frees = context.heap.frees + count) ∧
      after.errors = context.errors ++ [error]) ∧
    (∀ native after, bindings.plans.decode plan value next context = (.ok native, after) →
      after.errors = context.errors) := by
  have h := (Bindings.coherent hb hd).decoded hp value next context
  constructor
  · intro error after he
    rw [he] at h
    cases h with
    | error undone =>
      exact ⟨undone.get?, undone.faults, ⟨_, undone.allocations, undone.frees⟩, rfl⟩
  · intro native after he
    rw [he] at h
    cases h
    rfl

theorem decode_atomic_label : ∃ bindings after,
    Bindings.ofDocument .standard labelDocument = .ok bindings ∧
    bindings.plans.decode labelPlan labelPart none .empty =
      (.error (.missing "GPULabel" "size"), after) ∧
    (∀ id, after.heap.get? id = Heap.empty.get? id) ∧ after.heap.faults = [] ∧
    after.errors = [.missing "GPULabel" "size"] := by
  obtain ⟨schema, hb⟩ := label_bindings
  have hm : labelPlan ∈ labelPlans.plans := List.mem_singleton.mpr rfl
  have he : labelPlans.decode labelPlan labelPart none .empty =
      (.error (.missing "GPULabel" "size"),
        (labelPlans.decode labelPlan labelPart none .empty).2) := Prod.ext rfl rfl
  obtain ⟨hget, hfaults, -, herrors⟩ :=
    (decode_atomic hb label_distinct hm labelPart none .empty).1 _ _ he
  exact ⟨_, _, hb, he, hget, hfaults, herrors⟩

end DescriptorMarshal
