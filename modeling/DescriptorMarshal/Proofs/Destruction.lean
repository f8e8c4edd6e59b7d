import DescriptorMarshal.Proofs.Agenda
import Mathlib.Data.List.MinMax
import Mathlib.Logic.Function.Iterate
import Mathlib.Order.Nat

/-!
Destroying whatever is given. A structure that no decode made may hold pointers that dangle, that
several of its slots share, that lead to blocks of another kind or around a cycle through the heap.
Destroying it comes to an end all the same, within a number of rounds that grows with the sizes of
heap and structure only, and all it does is take blocks away, each once, and record what was
refused.
-/

namespace DescriptorMarshal

variable {set : PlanSet} {plan : StructPlan} {task : ReleaseTask} {agenda : List ReleaseTask}
  {heap before middle after : Heap} {id : BlockId} {removed more : List BlockId}
  {found others : List HeapFault} {limit : Nat}

namespace Heap

/-- A fault that a release can have recorded on the way from one heap to a later one: there was no
block, or it was one of another kind, which is gone all the same. -/
inductive Explains (before after : Heap) : HeapFault → Prop where
  | unknown {id : BlockId} (dead : after.get? id = none) :
    Explains before after (.unknownAllocation id)
  | mismatched {id : BlockId} {used : ReleaseKind} {block : HeapBlock}
    (live : before.get? id = some block) (wrong : used ≠ block.releaseKind)
    (gone : after.get? id = none) :
    Explains before after (.mismatchedRelease id used block.releaseKind)

/-- `after` is `before` without the blocks `removed`, and with the faults `found` at the end. -/
structure Reduced (before : Heap) (removed : List BlockId) (found : List HeapFault)
    (after : Heap) : Prop where
  get? : ∀ id, after.get? id = if id ∈ removed then none else before.get? id
  once : removed.Nodup
  lived : ∀ id ∈ removed, (before.get? id).isSome
  slots : after.slots.length = before.slots.length
  allocations : after.allocations = before.allocations
  frees : after.frees = before.frees + removed.length
  live : after.live + removed.length = before.live
  faults : after.faults = before.faults ++ found
  explained : ∀ fault ∈ found, before.Explains after fault

namespace Reduced

theorem refl (heap : Heap) : heap.Reduced [] [] heap := by
  constructor <;> simp

theorem get?_eq (h : before.Reduced removed found after) {block : HeapBlock}
    (hb : after.get? id = some block) : before.get? id = some block := by
  rw [h.get?] at hb
  split at hb
  · cases hb
  · exact hb

theorem dead (h : before.Reduced removed found after) (hd : before.get? id = none) :
    after.get? id = none := by
  rw [h.get?, hd, ite_self]

theorem trans (h : before.Reduced removed found middle) (k : middle.Reduced more others after) :
    before.Reduced (removed ++ more) (found ++ others) after where
  get? id := by
    rw [k.get?, h.get?]
    by_cases hm : id ∈ more <;> by_cases hr : id ∈ removed <;> simp [hm, hr]
  once := by
    apply List.nodup_append'.mpr
    refine ⟨h.once, k.once, ?_⟩
    intro id hr hm
    have hgone : middle.get? id = none := by rw [h.get?, if_pos hr]
    have hlived := k.lived id hm
    rw [hgone] at hlived
    cases hlived
  lived id hid := by
    rcases List.mem_append.mp hid with hr | hm
    · exact h.lived id hr
    · obtain ⟨block, hb⟩ := Option.isSome_iff_exists.mp (k.lived id hm)
      exact Option.isSome_iff_exists.mpr ⟨block, h.get?_eq hb⟩
  slots := k.slots.trans h.slots
  allocations := k.allocations.trans h.allocations
  frees := by rw [k.frees, h.frees, List.length_append, Nat.add_assoc]
  live := by
    have := h.live
    have := k.live
    rw [List.length_append]
    omega
  faults := by rw [k.faults, h.faults, List.append_assoc]
  explained fault hf := by
    rcases List.mem_append.mp hf with hf | hf
    · cases h.explained fault hf with
      | unknown dead => exact .unknown (k.dead dead)
      | mismatched live wrong gone => exact .mismatched live wrong (k.dead gone)
    · cases k.explained fault hf with
      | unknown dead => exact .unknown dead
      | mismatched live wrong gone => exact .mismatched (h.get?_eq live) wrong gone

theorem of_removed {block : HeapBlock} (hb : heap.get? id = some block)
    (he : ∀ fault ∈ found, heap.Explains (heap.setSlot id none) fault) :
    heap.Reduced [id] found
      { heap.setSlot id none with
        frees := heap.frees + 1
        faults := heap.faults ++ found } := by
  obtain ⟨h0, hle⟩ := number_of_get? hb
  constructor
  · intro other
    show (heap.setSlot id none).get? other = _
    by_cases ho : other = id
    · subst ho
      rw [get?_setSlot_self none h0 hle, if_pos (List.mem_singleton_self _)]
    · rw [get?_setSlot_of_ne none h0 ho, if_neg (by simpa using ho)]
  · exact List.nodup_singleton id
  · intro other ho
    rw [List.mem_singleton.mp ho, hb]
    rfl
  · exact List.length_set
  · rfl
  · rfl
  · exact live_setSlot_none hb
  · rfl
  · intro fault hf
    cases he fault hf with
    | unknown dead => exact .unknown dead
    | mismatched live wrong gone => exact .mismatched live wrong gone

end Reduced

/-- A release takes one block away or none, and records at most one fault. -/
theorem free_reduced (heap : Heap) (id : BlockId) (kind : ReleaseKind) :
    ∃ removed found, heap.Reduced removed found (heap.free id kind).2 := by
  unfold free
  cases hb : heap.get? id with
  | none =>
    refine ⟨[], [.unknownAllocation id], ?_⟩
    constructor <;> try simp
    · intro other
      rfl
    · rfl
    · exact .unknown hb
  | some block =>
    obtain ⟨h0, hle⟩ := number_of_get? hb
    dsimp only
    split
    · refine ⟨[id], [], ?_⟩
      have hremoved : heap.Reduced [id] [] _ := .of_removed hb nofun
      rwa [List.append_nil] at hremoved
    · next hkind =>
      refine ⟨[id], _, .of_removed hb ?_⟩
      intro fault hf
      rw [List.mem_singleton.mp hf]
      exact .mismatched hb (Ne.symm hkind) (get?_setSlot_self none h0 hle)

end Heap

theorem releaseStep_reduced (set : PlanSet) (task : ReleaseTask) (heap : Heap) :
    ∃ removed found, heap.Reduced removed found (set.releaseStep task heap).2 := by
  rcases releaseStep_heap set task heap with hsame | ⟨id, kind, hfree⟩
  · rw [hsame]
    exact ⟨[], [], .refl heap⟩
  · rw [hfree]
    exact heap.free_reduced id kind

/-- Any agenda, worked off, only takes blocks away. -/
theorem releaseAll_reduced (set : PlanSet) (agenda : List ReleaseTask) (heap : Heap) :
    ∃ removed found, heap.Reduced removed found (set.releaseAll agenda heap) := by
  induction agenda, heap using PlanSet.releaseAll.induct set with
  | case1 heap =>
    rw [PlanSet.releaseAll]
    exact ⟨[], [], .refl heap⟩
  | case2 heap task rest next ih =>
    obtain ⟨removed, found, hstep⟩ := releaseStep_reduced set task heap
    obtain ⟨more, others, hrest⟩ := ih
    rw [releaseAll_cons]
    exact ⟨removed ++ more, found ++ others, hstep.trans hrest⟩

/-- One round of the loop: the first task is taken up, and what is left of it comes first. -/
def PlanSet.round (set : PlanSet) : List ReleaseTask × Heap → List ReleaseTask × Heap
  | ([], heap) => ([], heap)
  | (task :: rest, heap) =>
    ((set.releaseStep task heap).1 ++ rest, (set.releaseStep task heap).2)

def PlanSet.width (set : PlanSet) : Nat :=
  (set.plans.map fun plan => plan.owningMembers.length).foldr max 0

theorem PlanSet.length_owningMembers_le {marshal : Marshal}
    (h : set.nestedPlan? marshal = some plan) : plan.owningMembers.length ≤ set.width :=
  List.le_max_of_le (List.mem_map_of_mem (nestedPlan?_mem h)) (Nat.le_refl _)

namespace ReleaseTask

/-- The rounds that an agenda can take. What is lighter by one may open a structure, whose members
are two rounds each. -/
def cost (limit : Nat) (agenda : List ReleaseTask) : Nat :=
  (2 * limit + 2) * weightOf agenda + roundsOf agenda

theorem cost_append (limit : Nat) (agenda rest : List ReleaseTask) :
    cost limit (agenda ++ rest) = cost limit agenda + cost limit rest := by
  unfold cost
  rw [weightOf_append, roundsOf_append, Nat.mul_add]
  omega

/-- A block that a task is to release holds no wider structure than the set has. -/
def Within (limit : Nat) : ReleaseTask → Prop
  | fields _ _ | slot _ _ => True
  | block nested _ => ∀ plan, nested = some plan → plan.owningMembers.length ≤ limit

theorem cost_nestedIn_le {nested : Option StructPlan}
    (h : ∀ plan, nested = some plan → plan.owningMembers.length ≤ limit) (value : NativeValue) :
    cost limit (nestedIn nested value) ≤ (2 * limit + 2) * value.weight := by
  unfold nestedIn
  split
  · next plan native =>
    have := h plan rfl
    simp only [cost, weightOf, roundsOf, weight, rounds, NativeValue.weight, Nat.mul_add]
    omega
  · exact Nat.zero_le _

theorem cost_flatMap_nestedIn_le {nested : Option StructPlan}
    (h : ∀ plan, nested = some plan → plan.owningMembers.length ≤ limit)
    (items : List NativeValue) :
    cost limit (items.flatMap (nestedIn nested)) ≤ (2 * limit + 2) * weightOfValues items := by
  induction items with
  | nil => exact Nat.zero_le _
  | cons item rest ih =>
    have := cost_nestedIn_le h item
    rw [List.flatMap_cons, cost_append, weightOfValues, Nat.mul_add]
    omega

theorem cost_blocks_le (limit : Nat) (nested : Option StructPlan) (items : List NativeValue) :
    cost limit ((items.filterMap NativeValue.pointer?).map (block nested)) ≤
      (2 * limit + 2) * weightOfValues items := by
  induction items with
  | nil => exact Nat.zero_le _
  | cons item rest ih =>
    rw [weightOfValues, Nat.mul_add]
    cases item with
    | pointer target =>
      have hone : cost limit [block nested target] = 1 := rfl
      have hcons : (NativeValue.pointer target :: rest).filterMap NativeValue.pointer? =
          target :: rest.filterMap NativeValue.pointer? := rfl
      have hweight : (NativeValue.pointer target).weight = 1 := rfl
      rw [hcons, List.map_cons, ← List.singleton_append, cost_append, hone, hweight]
      omega
    | _ =>
      rw [List.filterMap_cons_none rfl]
      omega

theorem cost_released {kind : ReleaseKind} {block : HeapBlock} {tasks : List ReleaseTask}
    (hf : heap.free id kind = (.ok block, after))
    (hc : cost limit tasks ≤ (2 * limit + 2) * block.weight) :
    (2 * limit + 2) * after.weight + cost limit tasks < (2 * limit + 2) * heap.weight := by
  rw [← Heap.weight_free_ok hf, Nat.mul_add, Nat.mul_add]
  omega

theorem cost_refused {kind : ReleaseKind} {result : Except HeapFault HeapBlock}
    (hf : heap.free id kind = (result, after)) (limit : Nat) :
    (2 * limit + 2) * after.weight + cost limit [] ≤ (2 * limit + 2) * heap.weight := by
  have hweight := heap.weight_free_le id kind
  rw [hf] at hweight
  exact Nat.mul_le_mul_left _ hweight

end ReleaseTask

open ReleaseTask in
/-- Every round brings the heap and the agenda nearer to the end. -/
theorem releaseStep_cost (hw : set.width ≤ limit) (ht : task.Within limit) (heap : Heap) :
    (2 * limit + 2) * (set.releaseStep task heap).2.weight +
        cost limit (set.releaseStep task heap).1 <
      (2 * limit + 2) * heap.weight + cost limit [task] := by
  have hnested : ∀ marshal plan, set.nestedPlan? marshal = some plan →
      plan.owningMembers.length ≤ limit :=
    fun marshal plan hp => (PlanSet.length_owningMembers_le hp).trans hw
  cases task with
  | fields members native =>
    cases members with
    | nil => simp [PlanSet.releaseStep, cost, weightOf, roundsOf, rounds]
    | cons member members =>
      have hweight := native.weight_take member.name
      simp only [PlanSet.releaseStep, cost, weightOf, roundsOf, rounds, weight, List.length_cons,
        ← hweight, Nat.mul_add]
      omega
  | block nested id =>
    have hone : cost limit [block nested id] = 1 := rfl
    rw [hone]
    simp only [PlanSet.releaseStep]
    split
    · next value after hf =>
      exact Nat.lt_succ_of_lt (cost_released hf (cost_nestedIn_le ht value))
    · next hf => exact Nat.lt_succ_of_le (cost_refused hf limit)
  | slot member value =>
    have hslot : cost limit [slot member value] = (2 * limit + 2) * value.weight + 1 := rfl
    have hvalue := cost_nestedIn_le (hnested member.marshal) value
    rw [hslot, ← Nat.add_assoc]
    simp only [PlanSet.releaseStep]
    split
    · exact Nat.lt_succ_of_le (Nat.add_le_add_left hvalue _)
    · next id _ =>
      have hone : cost limit [block (set.nestedPlan? member.marshal) id] = 1 := rfl
      have hweight : (NativeValue.pointer id).weight = 1 := rfl
      rw [hone, hweight]
      dsimp only
      omega
    · split
      · next items after hf =>
        have := cost_released hf (cost_flatMap_nestedIn_le (hnested member.marshal) items)
        exact Nat.lt_succ_of_lt (Nat.lt_add_right _ this)
      · next hf => exact Nat.lt_succ_of_le (Nat.le_add_right_of_le (cost_refused hf limit))
    · split
      · next items after hf =>
        have := cost_released hf (cost_blocks_le limit (set.nestedPlan? member.marshal) items)
        exact Nat.lt_succ_of_lt (Nat.lt_add_right _ this)
      · next hf => exact Nat.lt_succ_of_le (Nat.le_add_right_of_le (cost_refused hf limit))
    · exact Nat.lt_succ_of_le (Nat.le_add_right _ _)

theorem releaseStep_within (hw : set.width ≤ limit) (ht : task.Within limit) :
    ∀ next ∈ (set.releaseStep task heap).1, next.Within limit := by
  intro next hn
  cases releaseStep_spawns hn with
  | block | behind => exact fun plan hp => (PlanSet.length_owningMembers_le hp).trans hw
  | _ => trivial

/-- So many rounds end a destroy of the structure on the heap. -/
def PlanSet.roundsToDestroy (set : PlanSet) (plan : StructPlan) (native : NativeStruct)
    (heap : Heap) : Nat :=
  (2 * set.width + 2) * (native.weight + heap.weight) + (2 * plan.owningMembers.length + 1)

theorem iterate_round (hw : set.width ≤ limit) (ht : ∀ task ∈ agenda, task.Within limit)
    {rounds : Nat} (hr : (2 * limit + 2) * heap.weight + ReleaseTask.cost limit agenda ≤ rounds) :
    (set.round)^[rounds] (agenda, heap) = ([], set.releaseAll agenda heap) := by
  induction rounds generalizing agenda heap with
  | zero =>
    cases agenda with
    | nil => rw [PlanSet.releaseAll, Function.iterate_zero, id]
    | cons task rest =>
      have hstep := releaseStep_cost hw (ht task List.mem_cons_self) heap
      rw [← List.singleton_append, ReleaseTask.cost_append] at hr
      omega
  | succ rounds ih =>
    rw [Function.iterate_succ_apply]
    cases agenda with
    | nil =>
      have hdone : set.round ([], heap) = ([], heap) := rfl
      rw [hdone, Function.iterate_fixed hdone, PlanSet.releaseAll]
    | cons task rest =>
      have hstep := releaseStep_cost hw (ht task List.mem_cons_self) heap
      rw [releaseAll_cons]
      apply ih
      · intro next hn
        rcases List.mem_append.mp hn with hn | hn
        · exact releaseStep_within hw (ht task List.mem_cons_self) next hn
        · exact ht next (List.mem_cons_of_mem _ hn)
      · rw [← List.singleton_append, ReleaseTask.cost_append] at hr
        rw [ReleaseTask.cost_append]
        omega

/-- Destroying is total and only ever removes blocks: of whatever structure, with whatever plan and
on whatever heap, it ends in so many rounds, and the heap it leaves is the one it was given less
some of its blocks, each counted as released once, with the faults of refused releases added. -/
theorem destroy_total (set : PlanSet) (plan : StructPlan) (native : NativeStruct) (heap : Heap) :
    (∀ rounds, set.roundsToDestroy plan native heap ≤ rounds →
      (set.round)^[rounds] ([.fields plan.owningMembers native], heap) =
        ([], set.destroy plan native heap)) ∧
    ∃ removed found, heap.Reduced removed found (set.destroy plan native heap) := by
  constructor
  · intro rounds hr
    apply iterate_round (Nat.le_refl set.width)
    · intro task ht
      rw [List.mem_singleton.mp ht]
      trivial
    · have hcost : ReleaseTask.cost set.width [.fields plan.owningMembers native] =
          (2 * set.width + 2) * native.weight + (2 * plan.owningMembers.length + 1) := rfl
      rw [PlanSet.roundsToDestroy, Nat.mul_add] at hr
      omega
  · exact releaseAll_reduced set _ heap

end DescriptorMarshal
