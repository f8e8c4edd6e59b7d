import DescriptorMarshal.Proofs.Lifetime
import DescriptorMarshal.Proofs.Ownership

/-!
Copies of structures that were destroyed. Destroying a structure comes down to releasing the slots
of its owning pointers, those of structures in place included, one after the other. The first
destroy leaves all of these ids dead, and they stay dead whatever is done afterwards; so every
release that a second destroy of a copy asks for is refused, and the walk goes no further.
-/

namespace DescriptorMarshal

namespace PlanSet

variable (set : PlanSet)

mutual

/-- The owning pointers in a slot of this ownership. -/
def owningPointersIn : NativeValue → Ownership → Option StructPlan → List BlockId
  | .struct native, .embedded, some plan => owningPointers native plan
  | .pointer target, .owned, _ | .pointer target, .arrayOwned, _
  | .pointer target, .arrayOfPointersOwned, _ => [target]
  | _, _, _ => []

/-- The owning pointers that a structure holds, itself or in structures embedded in it. -/
def owningPointers : NativeStruct → StructPlan → List BlockId
  | ⟨_, _, fields⟩, plan => owningPointersOf fields plan

def owningPointersOf : List (String × NativeValue) → StructPlan → List BlockId
  | [], _ => []
  | (name, value) :: rest, plan =>
    (match plan.owningMembers.find? fun member => member.name == name with
      | some member => owningPointersIn value member.ownership (set.nestedPlan? member.marshal)
      | none => []) ++ owningPointersOf rest plan

end

end PlanSet

section

variable {set : PlanSet} {plan : StructPlan} {member : MemberPlan} {heap : Heap} {id : BlockId}
  {value : Layout} {tree : Tree BlockId} {tasks rest : List ReleaseTask} {ids : List BlockId}

theorem pointers_eq_nil (h : tree.blocks = []) : tree.native.pointers = [] := by
  have hperm := tree.pointers_perm
  rw [h] at hperm
  exact (List.append_eq_nil_iff.mp hperm.eq_nil).1

theorem pointers_native (value : Layout) :
    value.native.pointers = value.fields.flatMap fun entry => entry.2.native.pointers := by
  rw [NativeStruct.pointers_eq, StructTree.native_eq, List.flatMap_map]

theorem mem_blocks_of_mem_pointers (h : id ∈ value.native.pointers) :
    ∃ block, (id, block) ∈ value.blocks := by
  have hperm := Tree.pointers_perm (.struct value)
  have hid : id ∈ value.blocks.map Prod.fst := hperm.subset (List.mem_append_left _ h)
  obtain ⟨⟨_, block⟩, hmem, rfl⟩ := List.mem_map.mp hid
  exact ⟨block, hmem⟩

theorem owningPointersIn_of_isScalar (ownership : Ownership) (nested : Option StructPlan)
    {value : NativeValue} (h : value.isScalar = true) :
    set.owningPointersIn value ownership nested = [] := by
  cases value with
  | struct | pointer => cases h
  | _ => unfold PlanSet.owningPointersIn; rfl

theorem owningPointersOf_eq (fields : List (String × NativeValue)) :
    set.owningPointersOf fields plan = fields.flatMap fun entry =>
      match plan.owningMembers.find? fun member => member.name == entry.1 with
      | some member =>
        set.owningPointersIn entry.2 member.ownership (set.nestedPlan? member.marshal)
      | none => [] := by
  induction fields with
  | nil => rfl
  | cons entry rest ih => rw [PlanSet.owningPointersOf, ih, List.flatMap_cons]

/-- All pointers in a structure that is as its plan expects it are owning ones, if this is so of
its slots. -/
theorem OwnedStruct.owningPointers_of_slots (h : OwnedStruct set plan value)
    (hs : ∀ entry ∈ value.fields, ∀ ownership nested, Owned set ownership nested entry.2 →
      set.owningPointersIn entry.2.native ownership nested = entry.2.native.pointers) :
    set.owningPointers value.native plan = value.native.pointers := by
  obtain ⟨members, names, slots, others⟩ := h
  rw [pointers_native, StructTree.native_eq, PlanSet.owningPointers, owningPointersOf_eq,
    List.flatMap_map]
  apply List.flatMap_congr
  intro entry he
  dsimp only
  cases hfind : plan.owningMembers.find? fun member => member.name == entry.1 with
  | some member =>
    have hname : member.name = entry.1 := by simpa using List.find?_some hfind
    exact hs entry he _ _ (slots entry he member (List.mem_of_find?_eq_some hfind) hname)
  | none =>
    have hout : entry.1 ∉ plan.owningMembers.map (·.name) := by
      intro hin
      obtain ⟨member, hm, hname⟩ := List.mem_map.mp hin
      have hno := List.find?_eq_none.mp hfind member hm
      exact hno (by simpa using hname)
    exact (pointers_eq_nil (others entry he hout)).symm

theorem Owned.owningPointersIn_eq (tree : Tree BlockId) : ∀ ownership nested,
    Owned set ownership nested tree →
      set.owningPointersIn tree.native ownership nested = tree.native.pointers := by
  induction tree using Tree.induct with
  | scalar value =>
    intro ownership nested _
    rw [Tree.native_scalar, owningPointersIn_of_isScalar ownership nested value.2,
      NativeValue.pointers_of_isScalar value.2]
  | struct value ih =>
    intro ownership nested h
    cases h with
    | embedded h =>
      rw [Tree.native_struct, PlanSet.owningPointersIn, NativeValue.pointers]
      exact h.owningPointers_of_slots ih
  | single id value _ =>
    intro ownership nested h
    cases h
    rfl
  | array id items _ =>
    intro ownership nested h
    cases h <;> rfl
  | cString id bytes =>
    intro ownership nested h
    cases h
    rfl

theorem OwnedStruct.owningPointers_eq (h : OwnedStruct set plan value) :
    set.owningPointers value.native plan = value.native.pointers :=
  h.owningPointers_of_slots fun entry _ => Owned.owningPointersIn_eq entry.2

theorem releaseAll_append (set : PlanSet) (tasks rest : List ReleaseTask) (heap : Heap) :
    set.releaseAll (tasks ++ rest) heap = set.releaseAll rest (set.releaseAll tasks heap) := by
  induction tasks, heap using PlanSet.releaseAll.induct set with
  | case1 heap => rw [PlanSet.releaseAll, List.nil_append]
  | case2 heap task others next ih =>
    rw [List.cons_append, releaseAll_cons, releaseAll_cons, ← List.append_assoc]
    exact ih

/-- A slot with a pointer that destroying it follows. -/
structure PointerSlot where
  member : MemberPlan
  target : BlockId
  follows : member.ownership.Matches (.pointer target)

def PointerSlot.task (slot : PointerSlot) : ReleaseTask := .slot slot.member (.pointer slot.target)

/-- On any heap, working the tasks off comes down to releasing slots with these pointers. -/
def Visits (set : PlanSet) (tasks : List ReleaseTask) (ids : List BlockId) : Prop :=
  ∃ slots : List PointerSlot, (slots.map PointerSlot.target).Perm ids ∧
    ∀ heap, set.releaseAll tasks heap = set.releaseAll (slots.map PointerSlot.task) heap

theorem walkable_visits (set : PlanSet) : Walkable set (Visits set) where
  nil := ⟨[], .refl _, fun _ => rfl⟩
  perm := by
    rintro tasks found found' ⟨slots, hslots, hwork⟩ hperm
    exact ⟨slots, hslots.trans hperm, hwork⟩
  append := by
    rintro tasks tasks' found found' ⟨slots, hslots, hwork⟩ ⟨slots', hslots', hwork'⟩
    refine ⟨slots ++ slots', ?_, ?_⟩
    · rw [List.map_append]
      exact hslots.append hslots'
    · intro heap
      rw [releaseAll_append, hwork, hwork', List.map_append, releaseAll_append]
  of_step := by
    rintro task tasks found hstep ⟨slots, hslots, hwork⟩
    refine ⟨slots, hslots, ?_⟩
    intro heap
    rw [releaseAll_cons, hstep, List.append_nil, hwork]

theorem visits_pointer (h : member.ownership.Matches (.pointer id)) :
    Visits set [.slot member (.pointer id)] [id] :=
  ⟨[⟨member, id, h⟩], .refl _, fun _ => rfl⟩

structure SlotVisits (set : PlanSet) (tree : Tree BlockId) : Prop where
  inPlace : ∀ nested, Owned set .embedded nested tree →
    Visits set (ReleaseTask.nestedIn nested tree.native) tree.native.pointers
  slot : ∀ member, Owned set member.ownership (set.nestedPlan? member.marshal) tree →
    Visits set [.slot member tree.native] tree.native.pointers

theorem OwnedStruct.visits (h : OwnedStruct set plan value)
    (hs : ∀ entry ∈ value.fields, SlotVisits set entry.2) :
    Visits set [.fields plan.owningMembers value.native] value.native.pointers := by
  obtain ⟨members, names, slots, others⟩ := h
  rw [pointers_native]
  refine (walkable_visits set).fields (fun tree => tree.native.pointers) rfl members names ?_ ?_
  · intro entry he member hm hname
    exact (hs entry he).slot member (slots entry he member hm hname)
  · intro entry he hout
    exact pointers_eq_nil (others entry he hout)

theorem slotVisits (set : PlanSet) (tree : Tree BlockId) : SlotVisits set tree := by
  have hwalk := walkable_visits set
  induction tree using Tree.induct with
  | scalar value =>
    constructor
    · intro nested _
      rw [Tree.native_scalar, nestedIn_of_isScalar nested value.2,
        NativeValue.pointers_of_isScalar value.2]
      exact hwalk.nil
    · intro member _
      rw [Tree.native_scalar, NativeValue.pointers_of_isScalar value.2]
      exact hwalk.of_isScalar member value.2
  | struct value ih =>
    constructor
    · intro nested h
      cases h with
      | embedded h => exact h.visits ih
    · intro member h
      generalize hp : set.nestedPlan? member.marshal = nested at h
      generalize hown : member.ownership = ownership at h
      cases h with
      | embedded h =>
        refine hwalk.of_step ?_ (h.visits ih)
        intro heap
        simp only [PlanSet.releaseStep, hown, hp]
        rfl
  | single id value _ =>
    constructor
    · intro _ h
      cases h
    · intro member h
      generalize set.nestedPlan? member.marshal = nested at h
      generalize hown : member.ownership = ownership at h
      cases h with
      | owned => exact visits_pointer (by rw [hown]; trivial)
  | array id items _ =>
    constructor
    · intro _ h
      cases h
    · intro member h
      generalize set.nestedPlan? member.marshal = nested at h
      generalize hown : member.ownership = ownership at h
      cases h <;> exact visits_pointer (by rw [hown]; trivial)
  | cString id bytes =>
    constructor
    · intro _ h
      cases h
    · intro member h
      generalize set.nestedPlan? member.marshal = nested at h
      generalize hown : member.ownership = ownership at h
      cases h with
      | cString => exact visits_pointer (by rw [hown]; trivial)

/-- Destroying a structure that is as its plan expects it comes down to releasing its pointers,
whatever has become of the heap since. -/
theorem OwnedStruct.visits_destroy (h : OwnedStruct set plan value) :
    Visits set [.fields plan.owningMembers value.native] value.native.pointers :=
  h.visits fun entry _ => slotVisits set entry.2

theorem Heap.free_of_none (h : heap.get? id = none) (kind : ReleaseKind) :
    heap.free id kind = (.error (.unknownAllocation id),
      { heap with faults := heap.faults ++ [.unknownAllocation id] }) := by
  rw [Heap.free, h]

theorem Heap.get?_free_self (heap : Heap) (id : BlockId) (kind : ReleaseKind) :
    (heap.free id kind).2.get? id = none := by
  unfold Heap.free
  cases hg : heap.get? id with
  | none => exact hg
  | some block =>
    obtain ⟨h0, hle⟩ := Heap.number_of_get? hg
    have hself := Heap.get?_setSlot_self none h0 hle
    dsimp only
    split <;> exact hself

theorem releaseAll_dead (set : PlanSet) (agenda : List ReleaseTask) (h : heap.get? id = none) :
    (set.releaseAll agenda heap).get? id = none := by
  induction agenda, heap using PlanSet.releaseAll.induct set with
  | case1 heap => rwa [PlanSet.releaseAll]
  | case2 heap task rest next ih =>
    rw [releaseAll_cons]
    apply ih
    cases hg : (set.releaseStep task heap).2.get? id with
    | none => rfl
    | some block =>
      rw [releaseStep_get? hg] at h
      cases h

theorem releaseStep_block (set : PlanSet) (nested : Option StructPlan) (id : BlockId)
    (heap : Heap) :
    ∃ rest, set.releaseStep (.block nested id) heap = (rest, (heap.free id .delete).2) ∧
      (heap.get? id = none → rest = []) := by
  simp only [PlanSet.releaseStep]
  split
  · next value after hf =>
    refine ⟨_, by rw [hf], ?_⟩
    intro hdead
    rw [Heap.free_of_none hdead] at hf
    cases hf
  · next result after hf => exact ⟨[], by rw [hf], fun _ => rfl⟩

theorem releaseStep_array (set : PlanSet) (id : BlockId) (heap : Heap)
    (h : member.ownership = .arrayOwned ∨ member.ownership = .arrayOfPointersOwned) :
    ∃ rest, set.releaseStep (.slot member (.pointer id)) heap =
        (rest, (heap.free id .deleteArray).2) ∧
      (heap.get? id = none → rest = []) := by
  rcases hf : heap.free id .deleteArray with ⟨result, after⟩
  rcases h with hown | hown <;>
  · simp only [PlanSet.releaseStep, hown, hf]
    cases result with
    | error fault => exact ⟨[], rfl, fun _ => rfl⟩
    | ok block =>
      cases block with
      | array items =>
        refine ⟨_, rfl, ?_⟩
        intro hdead
        rw [Heap.free_of_none hdead] at hf
        cases hf
      | _ => exact ⟨[], rfl, fun _ => rfl⟩

/-- A slot with a pointer is released by releasing the block behind it; only if that block was
live is there anything left to do. -/
theorem PointerSlot.releaseAll_task (set : PlanSet) (slot : PointerSlot) (heap : Heap) :
    ∃ kind rest, set.releaseAll [slot.task] heap =
        set.releaseAll rest (heap.free slot.target kind).2 ∧
      (heap.get? slot.target = none → rest = []) := by
  obtain ⟨member, target, follows⟩ := slot
  have harray : member.ownership = .arrayOwned ∨ member.ownership = .arrayOfPointersOwned →
      ∃ kind rest, set.releaseAll [.slot member (.pointer target)] heap =
          set.releaseAll rest (heap.free target kind).2 ∧
        (heap.get? target = none → rest = []) := by
    intro hown
    obtain ⟨rest, hstep, hdead⟩ := releaseStep_array set target heap hown
    refine ⟨.deleteArray, rest, ?_, hdead⟩
    rw [releaseAll_cons, hstep, List.append_nil]
  cases hown : member.ownership with
  | owned =>
    have hopen : set.releaseStep (.slot member (.pointer target)) heap =
        ([.block (set.nestedPlan? member.marshal) target], heap) := by
      simp only [PlanSet.releaseStep, hown]
    obtain ⟨rest, hstep, hdead⟩ :=
      releaseStep_block set (set.nestedPlan? member.marshal) target heap
    refine ⟨.delete, rest, ?_, hdead⟩
    rw [PointerSlot.task, releaseAll_cons, hopen, List.append_nil, releaseAll_cons, hstep,
      List.append_nil]
  | arrayOwned => exact harray (.inl hown)
  | arrayOfPointersOwned => exact harray (.inr hown)
  | _ =>
    rw [hown] at follows
    cases follows

/-- After the tasks are worked off, on whatever heap, no pointer that they visit leads anywhere. -/
theorem Visits.dead (h : Visits set tasks ids) (heap : Heap) :
    ∀ id ∈ ids, (set.releaseAll tasks heap).get? id = none := by
  obtain ⟨slots, hslots, hwork⟩ := h
  intro id hid
  rw [hwork]
  have hmem : id ∈ slots.map PointerSlot.target := hslots.symm.subset hid
  clear hwork hslots hid
  induction slots generalizing heap with
  | nil => cases hmem
  | cons slot rest ih =>
    rw [List.map_cons, ← List.singleton_append, releaseAll_append]
    rcases List.mem_cons.mp hmem with rfl | hmem
    · obtain ⟨kind, left, hleft, -⟩ := slot.releaseAll_task set heap
      rw [hleft]
      exact releaseAll_dead set _ (releaseAll_dead set _ (Heap.get?_free_self heap _ kind))
    · exact ih _ hmem

/-- The heap after releases of these ids were refused. -/
def Heap.refusing (heap : Heap) (ids : List BlockId) : Heap :=
  { heap with faults := heap.faults ++ ids.map .unknownAllocation }

/-- Where no pointer that the tasks visit leads anywhere, working them off does nothing to the heap
but record one refused release for each. -/
theorem Visits.refused (h : Visits set tasks ids) (hdead : ∀ id ∈ ids, heap.get? id = none) :
    ∃ refused, refused.Perm ids ∧ set.releaseAll tasks heap = heap.refusing refused := by
  obtain ⟨slots, hslots, hwork⟩ := h
  refine ⟨_, hslots, ?_⟩
  rw [hwork]
  replace hdead : ∀ id ∈ slots.map PointerSlot.target, heap.get? id = none :=
    fun id hid => hdead id (hslots.subset hid)
  clear hwork hslots
  induction slots generalizing heap with
  | nil =>
    rw [List.map_nil, PlanSet.releaseAll]
    simp only [Heap.refusing, List.map_nil, List.append_nil]
  | cons slot rest ih =>
    obtain ⟨kind, left, hleft, hnone⟩ := slot.releaseAll_task set heap
    have htarget := hdead slot.target List.mem_cons_self
    rw [hnone htarget, Heap.free_of_none htarget, PlanSet.releaseAll] at hleft
    have hone : set.releaseAll [slot.task] heap = heap.refusing [slot.target] := hleft
    have hrest := @ih (heap.refusing [slot.target])
      fun id hid => hdead id (List.mem_cons_of_mem _ hid)
    rw [List.map_cons, ← List.singleton_append, releaseAll_append, hone, hrest]
    simp only [Heap.refusing, List.map_cons, List.map_nil, List.append_assoc, List.singleton_append]

end

variable {options : SchemaOptions} {document : Idl.Document} {bindings : Bindings}
  {plan : StructPlan} {value : HostValue} {next : Option Handle} {context decoded : Context}
  {native : NativeStruct}

/-- A stale copy of a structure frees nothing. The structure was decoded and destroyed, and
anything may have been done to the context between and since; destroying the copy then leaves every
block as it is and records one refused release for each owning pointer in the copy. -/
theorem destroy_stale (hb : Bindings.ofDocument options document = .ok bindings)
    (hd : Idl.DistinctMembers document) (hp : plan ∈ bindings.plans.plans)
    (h : bindings.plans.decode plan value next context = (.ok native, decoded))
    (between later : List Operation) {stale : Context}
    (hstale : stale = decoded.run (between ++ .destroy bindings.plans plan native :: later)) :
    ∃ refused : List BlockId, refused.Perm (bindings.plans.owningPointers native plan) ∧
      bindings.plans.destroy plan native stale.heap =
        { stale.heap with faults := stale.heap.faults ++ refused.map .unknownAllocation } := by
  have hdecoded := (Bindings.coherent hb hd).decoded hp value next context
  rw [h] at hdecoded
  cases hdecoded with
  | @ok properties layout blocks object owned found reads =>
    have hvisits := owned.visits_destroy
    rw [owned.owningPointers_eq]
    refine hvisits.refused ?_
    intro id hid
    subst hstale
    let decoded : Context := { context with heap := context.heap.extend blocks }
    obtain ⟨block, hblock⟩ := mem_blocks_of_mem_pointers hid
    have hgiven : id.number ≤ decoded.heap.slots.length := by
      rw [Heap.length_slots_extend]
      exact (Heap.number_of_mem_numbered (found.mem_iff.mp hblock)).2
    have hbetween := decoded.run_later between
    have hdestroy := releaseAll_later bindings.plans [.fields plan.owningMembers layout.native]
      (decoded.run between).heap
    have hdead := hvisits.dead (decoded.run between).heap id hid
    rw [Context.run_append]
    exact (Context.run_later _ later).released id
      (Nat.le_trans hgiven (hbetween.trans hdestroy).slots) hdead

/-- A label is decoded and destroyed, and another one decoded; the copy of the first has one pointer
to be refused. -/
theorem destroy_stale_label : ∃ bindings native decoded stale,
    Bindings.ofDocument .standard labelDocument = .ok bindings ∧
    bindings.plans.decode labelPlan labelWhole none .empty = (.ok native, decoded) ∧
    stale = decoded.run ([] ++ .destroy bindings.plans labelPlan native ::
      [.decode bindings.plans labelPlan labelWhole none]) ∧
    ∃ refused : List BlockId, refused.Perm [⟨1⟩] ∧
      bindings.plans.destroy labelPlan native stale.heap =
        { stale.heap with faults := stale.heap.faults ++ refused.map .unknownAllocation } := by
  obtain ⟨schema, hb⟩ := label_bindings
  have hm : labelPlan ∈ labelPlans.plans := List.mem_singleton.mpr rfl
  obtain ⟨native, decoded, he, hpointers⟩ : ∃ native decoded,
      labelPlans.decode labelPlan labelWhole none .empty = (.ok native, decoded) ∧
        labelPlans.owningPointers native labelPlan = [⟨1⟩] := ⟨_, _, rfl, rfl⟩
  obtain ⟨refused, hrefused, hdestroy⟩ := destroy_stale hb label_distinct hm he []
    [.decode labelPlans labelPlan labelWhole none] rfl
  refine ⟨_, native, decoded, _, hb, he, rfl, refused, ?_, hdestroy⟩
  rw [← hpointers]
  exact hrefused

end DescriptorMarshal
