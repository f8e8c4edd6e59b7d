import DescriptorMarshal.Codec.Release
import DescriptorMarshal.Proofs.Layout

/-!
Destroying a structure releases exactly the blocks of its layout, each once and with the operation
that matches it. `Owned` says of a layout that it is as the plan expects it: every pointer stands in
the slot of an owning member and leads to a block of the kind that the member's ownership names.
-/

namespace DescriptorMarshal

open Heap (Released)

mutual

/-- A slot that a destructor with this ownership can follow. -/
inductive Owned (set : PlanSet) : Ownership → Option StructPlan → Tree BlockId → Prop where
  | scalar {ownership nested value} : Owned set ownership nested (.scalar value)
  | embedded {plan value} (h : OwnedStruct set plan value) :
    Owned set .embedded (some plan) (.struct value)
  | owned {plan id value} (h : OwnedStruct set plan value) :
    Owned set .owned (some plan) (.single id value)
  | array {nested id items} (h : ∀ item ∈ items, Owned set .embedded nested item) :
    Owned set .arrayOwned nested (.array id items)
  | pointers {nested id items} (h : ∀ item ∈ items, Owned set .owned nested item) :
    Owned set .arrayOfPointersOwned nested (.array id items)
  | cString {nested id bytes} : Owned set .arrayOwned nested (.cString id bytes)

/-- A structure in which every block hangs on an owning member. -/
inductive OwnedStruct (set : PlanSet) : StructPlan → Layout → Prop where
  | fields {plan value}
    (members : (plan.owningMembers.map (·.name)).Nodup)
    (names : value.names.Nodup)
    (slots : ∀ entry ∈ value.fields, ∀ member ∈ plan.owningMembers, member.name = entry.1 →
      Owned set member.ownership (set.nestedPlan? member.marshal) entry.2)
    (others : ∀ entry ∈ value.fields, entry.1 ∉ plan.owningMembers.map (·.name) →
      entry.2.blocks = []) :
    OwnedStruct set plan value

end

/-- Working the tasks off releases the blocks and nothing else, whatever comes after them. -/
def Releases (set : PlanSet) (tasks : List ReleaseTask) (blocks : List (BlockId × HeapBlock)) :
    Prop :=
  ∀ heap rest, heap.Holds blocks → (blocks.map Prod.fst).Nodup →
    ∃ after, Released heap (blocks.map Prod.fst) after ∧
      set.releaseAll (tasks ++ rest) heap = set.releaseAll rest after

variable {set : PlanSet} {tasks : List ReleaseTask} {blocks : List (BlockId × HeapBlock)}

theorem releaseAll_cons (set : PlanSet) (task : ReleaseTask) (rest : List ReleaseTask)
    (heap : Heap) :
    set.releaseAll (task :: rest) heap =
      set.releaseAll ((set.releaseStep task heap).1 ++ rest) (set.releaseStep task heap).2 := by
  rw [PlanSet.releaseAll]

namespace Releases

theorem nil (set : PlanSet) : Releases set [] [] :=
  fun heap _ _ _ => ⟨heap, Released.refl heap, rfl⟩

theorem perm {blocks' : List (BlockId × HeapBlock)} (h : Releases set tasks blocks)
    (hp : blocks.Perm blocks') : Releases set tasks blocks' := by
  intro heap rest hh hn
  have hid := hp.map Prod.fst
  obtain ⟨after, hr, he⟩ := h heap rest (hh.perm hp.symm) (hid.nodup_iff.mpr hn)
  exact ⟨after, hr.perm hid, he⟩

theorem append {tasks' : List ReleaseTask} {blocks' : List (BlockId × HeapBlock)}
    (h : Releases set tasks blocks) (k : Releases set tasks' blocks') :
    Releases set (tasks ++ tasks') (blocks ++ blocks') := by
  intro heap rest hh hn
  rw [List.map_append] at hn
  obtain ⟨hn1, hn2, hd⟩ := List.nodup_append.mp hn
  obtain ⟨middle, hm, he⟩ := h heap (tasks' ++ rest)
    (fun entry hb => hh entry (List.mem_append_left _ hb)) hn1
  have hh' : middle.Holds blocks' := by
    intro entry hb
    have hid : entry.1 ∉ blocks.map Prod.fst := fun hx =>
      hd _ hx _ (List.mem_map_of_mem hb) rfl
    rw [hm.get?, if_neg hid]
    exact hh entry (List.mem_append_right _ hb)
  obtain ⟨after, ha, he'⟩ := k middle rest hh' hn2
  refine ⟨after, ?_, ?_⟩
  · rw [List.map_append]
    exact hm.trans ha
  · rw [List.append_assoc, he, he']

theorem flatMap {α : Type} {items : List α} {work : α → List ReleaseTask}
    {found : α → List (BlockId × HeapBlock)}
    (h : ∀ item ∈ items, Releases set (work item) (found item)) :
    Releases set (items.flatMap work) (items.flatMap found) := by
  induction items with
  | nil => exact nil set
  | cons item rest ih =>
    rw [List.flatMap_cons, List.flatMap_cons]
    exact (h item List.mem_cons_self).append
      (ih fun other ho => h other (List.mem_cons_of_mem _ ho))

theorem of_step {task : ReleaseTask} (hs : ∀ heap, set.releaseStep task heap = (tasks, heap))
    (h : Releases set tasks blocks) : Releases set [task] blocks := by
  intro heap rest hh hn
  obtain ⟨after, hr, he⟩ := h heap rest hh hn
  refine ⟨after, hr, ?_⟩
  rw [List.singleton_append, releaseAll_cons, hs]
  exact he

theorem of_free {task : ReleaseTask} {id : BlockId} {block : HeapBlock}
    (hs : ∀ heap after, heap.free id block.releaseKind = (.ok block, after) →
      set.releaseStep task heap = (tasks, after))
    (h : Releases set tasks blocks) : Releases set [task] ((id, block) :: blocks) := by
  intro heap rest hh hn
  obtain ⟨hid, hn⟩ := List.nodup_cons.mp hn
  obtain ⟨middle, hf, hm⟩ := Heap.free_released (hh (id, block) List.mem_cons_self)
  have hh' : middle.Holds blocks := by
    intro entry hb
    have hne : entry.1 ≠ id := fun he => hid (List.mem_map.mpr ⟨entry, hb, he⟩)
    rw [hm.get?, if_neg (by simpa using hne)]
    exact hh entry (List.mem_cons_of_mem _ hb)
  obtain ⟨after, ha, he⟩ := h middle rest hh' hn
  refine ⟨after, hm.trans ha, ?_⟩
  rw [List.singleton_append, releaseAll_cons, hs heap middle hf]
  exact he

end Releases

open ReleaseTask (nestedIn)

def ReleaseTask.blockBehind (nested : Option StructPlan) (value : NativeValue) :
    List ReleaseTask :=
  (value.pointer?.map (.block nested)).toList

theorem filterMap_pointer?_map_block (nested : Option StructPlan) (values : List NativeValue) :
    (values.filterMap NativeValue.pointer?).map (.block nested) =
      values.flatMap (ReleaseTask.blockBehind nested) := by
  induction values with
  | nil => rfl
  | cons value rest ih =>
    rw [List.flatMap_cons, ← ih, ReleaseTask.blockBehind]
    cases value <;> rfl

theorem nestedIn_of_isScalar (nested : Option StructPlan) {value : NativeValue}
    (h : value.isScalar = true) : nestedIn nested value = [] := by
  cases value with
  | struct | pointer => cases h
  | _ => cases nested <;> rfl

theorem releaseStep_slot_of_isScalar (set : PlanSet) (member : MemberPlan) {value : NativeValue}
    (h : value.isScalar = true) (heap : Heap) :
    set.releaseStep (.slot member value) heap = ([], heap) := by
  have hn := nestedIn_of_isScalar (set.nestedPlan? member.marshal) h
  simp only [PlanSet.releaseStep]
  split
  · rw [hn]
  · cases h
  · cases h
  · cases h
  · rfl

/-- What destroying a slot does, by what the slot is expected to hold. -/
structure SlotReleases (set : PlanSet) (tree : Tree BlockId) : Prop where
  inPlace : ∀ nested, Owned set .embedded nested tree →
    Releases set (nestedIn nested tree.native) tree.blocks
  behind : ∀ nested, Owned set .owned nested tree →
    Releases set (ReleaseTask.blockBehind nested tree.native) tree.blocks
  slot : ∀ member, Owned set member.ownership (set.nestedPlan? member.marshal) tree →
    Releases set [.slot member tree.native] tree.blocks

/-- A property of tasks and what they come to that can be carried along the walk through the
members of a structure. -/
structure Walkable {β : Type} (set : PlanSet) (P : List ReleaseTask → List β → Prop) : Prop where
  nil : P [] []
  perm : ∀ {tasks found found'}, P tasks found → found.Perm found' → P tasks found'
  append : ∀ {tasks tasks' found found'}, P tasks found → P tasks' found' →
    P (tasks ++ tasks') (found ++ found')
  of_step : ∀ {task tasks found}, (∀ heap, set.releaseStep task heap = (tasks, heap)) →
    P tasks found → P [task] found

theorem Walkable.of_isScalar {β : Type} {P : List ReleaseTask → List β → Prop}
    (h : Walkable set P) (member : MemberPlan) {value : NativeValue} (hv : value.isScalar = true) :
    P [.slot member value] [] :=
  h.of_step (releaseStep_slot_of_isScalar set member hv) h.nil

/-- The walk over the owning members. The invariant is that everything still in the structure hangs
on a member that the walk has not come to. -/
theorem Walkable.fields {β : Type} {P : List ReleaseTask → List β → Prop} (h : Walkable set P)
    (content : Tree BlockId → List β) (hnull : content (.scalar ⟨.null, rfl⟩) = [])
    {members : List MemberPlan} {value : Layout} (hm : (members.map (·.name)).Nodup)
    (hn : value.names.Nodup)
    (hs : ∀ entry ∈ value.fields, ∀ member ∈ members, member.name = entry.1 →
      P [.slot member entry.2.native] (content entry.2))
    (ho : ∀ entry ∈ value.fields, entry.1 ∉ members.map (·.name) → content entry.2 = []) :
    P [.fields members value.native] (value.fields.flatMap fun entry => content entry.2) := by
  induction members generalizing value with
  | nil =>
    have hc : (value.fields.flatMap fun entry => content entry.2) = [] :=
      List.flatMap_eq_nil_iff.mpr fun entry he => ho entry he nofun
    rw [hc]
    exact h.of_step (fun _ => rfl) h.nil
  | cons member members ih =>
    obtain ⟨hnew, hm⟩ := List.nodup_cons.mp hm
    cases hg : Entries.get? value.fields member.name with
    | none =>
      have htake : value.native.take member.name = (.null, value.native) := by
        rw [NativeStruct.take, StructTree.native_get?, hg]
        rfl
      have hrest : P [.fields members value.native]
          (value.fields.flatMap fun entry => content entry.2) := by
        refine ih hm hn (fun entry he other h => hs entry he other (List.mem_cons_of_mem _ h)) ?_
        intro entry he hx
        apply ho entry he
        intro hy
        rcases List.mem_cons.mp hy with hy | hy
        · have := Entries.get?_of_mem hn he
          rw [hy, hg] at this
          cases this
        · exact hx hy
      refine h.of_step (fun heap => by rw [PlanSet.releaseStep, htake]) ?_
      exact h.append (h.of_isScalar member rfl) hrest
    | some tree =>
      have hmem := Entries.mem_of_get? hg
      let null : Tree BlockId := .scalar ⟨.null, rfl⟩
      have htake : value.native.take member.name =
          (tree.native, (value.put member.name null).native) := by
        rw [NativeStruct.take, StructTree.native_get?, hg, StructTree.native_put]
        rfl
      have hput := Entries.flatMap_put_perm content null hg
      rw [hnull, List.append_nil] at hput
      have hrest : P [.fields members (value.put member.name null).native]
          ((value.put member.name null).fields.flatMap fun entry => content entry.2) := by
        refine ih hm ?_ ?_ ?_
        · rwa [StructTree.names_put_of_mem null (Entries.mem_keys_of_mem hmem)]
        · intro entry he other ho hname
          rcases Entries.mem_put hn he with rfl | ⟨he, _⟩
          · rw [hnull]
            exact h.of_isScalar other rfl
          · exact hs entry he other (List.mem_cons_of_mem _ ho) hname
        · intro entry he hx
          rcases Entries.mem_put hn he with rfl | ⟨he, hne⟩
          · exact hnull
          · apply ho entry he
            intro hy
            rcases List.mem_cons.mp hy with hy | hy
            · exact hne hy
            · exact hx hy
      refine h.of_step (fun heap => by rw [PlanSet.releaseStep, htake]) ?_
      exact h.perm (h.append (hs _ hmem member List.mem_cons_self rfl) hrest)
        (List.perm_append_comm.trans hput)

theorem walkable_releases (set : PlanSet) : Walkable set (Releases set) where
  nil := .nil set
  perm := .perm
  append := .append
  of_step := .of_step

theorem OwnedStruct.releases {plan : StructPlan} {value : Layout} (h : OwnedStruct set plan value)
    (hs : ∀ entry ∈ value.fields, SlotReleases set entry.2) :
    Releases set [.fields plan.owningMembers value.native] value.blocks := by
  obtain ⟨members, names, slots, others⟩ := h
  rw [StructTree.blocks_eq]
  refine (walkable_releases set).fields Tree.blocks rfl members names ?_ others
  intro entry he member hm hname
  exact (hs entry he).slot member (slots entry he member hm hname)

theorem OwnedStruct.releases_single {plan : StructPlan} {value : Layout}
    (h : OwnedStruct set plan value) (hs : ∀ entry ∈ value.fields, SlotReleases set entry.2)
    (id : BlockId) : Releases set [.block (some plan) id] (Tree.single id value).blocks := by
  refine .of_free ?_ (h.releases hs)
  intro heap after hf
  simp only [HeapBlock.releaseKind] at hf
  simp only [PlanSet.releaseStep, hf]
  rfl

theorem slotReleases_scalar (set : PlanSet) (value : Scalar) :
    SlotReleases set (.scalar value) := by
  constructor
  · intro nested _
    rw [Tree.native_scalar, nestedIn_of_isScalar nested value.2]
    exact .nil set
  · intro nested _
    have hp : value.1.pointer? = none := by
      obtain ⟨value, hv⟩ := value
      cases value with
      | struct | pointer => cases hv
      | _ => rfl
    rw [Tree.native_scalar, ReleaseTask.blockBehind, hp]
    exact .nil set
  · intro member _
    exact .of_step (releaseStep_slot_of_isScalar set member value.2) (.nil set)

/-- Destroying a slot releases the blocks of its tree. The induction is on the tree, so it does not
matter that the agenda is worked off by a loop of its own. -/
theorem slotReleases (set : PlanSet) (tree : Tree BlockId) : SlotReleases set tree := by
  induction tree using Tree.induct with
  | scalar value => exact slotReleases_scalar set value
  | struct value ih =>
    constructor
    · intro nested h
      cases h with
      | embedded h => exact h.releases ih
    · intro _ h
      cases h
    · intro member h
      generalize hp : set.nestedPlan? member.marshal = nested at h
      generalize hown : member.ownership = ownership at h
      cases h with
      | embedded h =>
        refine .of_step ?_ (h.releases ih)
        intro heap
        simp only [PlanSet.releaseStep, hown, hp]
        rfl
  | single id value ih =>
    constructor
    · intro _ h
      cases h
    · intro nested h
      cases h with
      | owned h => exact h.releases_single ih id
    · intro member h
      generalize hp : set.nestedPlan? member.marshal = nested at h
      generalize hown : member.ownership = ownership at h
      cases h with
      | owned h =>
        refine .of_step ?_ (h.releases_single ih id)
        intro heap
        simp only [PlanSet.releaseStep, hown, hp, Tree.native_single]
  | array id items ih =>
    constructor
    · intro _ h
      cases h
    · intro _ h
      cases h
    · intro member h
      generalize hp : set.nestedPlan? member.marshal = nested at h
      generalize hown : member.ownership = ownership at h
      rw [Tree.blocks_array, Tree.native_array]
      cases h with
      | array h =>
        refine .of_free ?_
          (Releases.flatMap fun item hi => (ih item hi).inPlace nested (h item hi))
        intro heap after hf
        simp only [HeapBlock.releaseKind] at hf
        simp only [PlanSet.releaseStep, hown, hp, hf, List.flatMap_map]
      | pointers h =>
        refine .of_free ?_
          (Releases.flatMap fun item hi => (ih item hi).behind nested (h item hi))
        intro heap after hf
        simp only [HeapBlock.releaseKind] at hf
        simp only [PlanSet.releaseStep, hown, hp, hf, filterMap_pointer?_map_block,
          List.flatMap_map]
  | cString id bytes =>
    constructor
    · intro _ h
      cases h
    · intro _ h
      cases h
    · intro member h
      generalize hp : set.nestedPlan? member.marshal = nested at h
      generalize hown : member.ownership = ownership at h
      rw [Tree.blocks_cString, Tree.native_cString]
      cases h with
      | cString =>
        refine .of_free ?_ (.nil set)
        intro heap after hf
        simp only [HeapBlock.releaseKind] at hf
        simp only [PlanSet.releaseStep, hown, hf]

/-- Destroying a structure that is as its plan expects it releases exactly its blocks. -/
theorem destroy_released {plan : StructPlan} {value : Layout} {heap : Heap}
    (h : OwnedStruct set plan value) (hh : heap.Holds value.blocks)
    (hn : (value.blocks.map Prod.fst).Nodup) :
    Released heap (value.blocks.map Prod.fst) (set.destroy plan value.native heap) := by
  have hr := h.releases fun entry _ => slotReleases set entry.2
  obtain ⟨after, ha, he⟩ := hr heap [] hh hn
  rw [List.append_nil, PlanSet.releaseAll] at he
  rw [PlanSet.destroy, he]
  exact ha

end DescriptorMarshal
