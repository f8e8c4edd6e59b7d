import DescriptorMarshal.Proofs.Depth

/-!
The run of a destroy, step by step. Every task that comes onto the agenda is spawned by one that
was on it, out of blocks that are as they were when the run began. So whatever slot the run of a
destroy comes to, it holds null or what the member's ownership says.
-/

namespace DescriptorMarshal

variable {set : PlanSet} {plan : StructPlan} {member : MemberPlan} {heap before after : Heap}
  {native : NativeStruct} {value : NativeValue} {task next : ReleaseTask}
  {agenda rest : List ReleaseTask} {marshal : Marshal}

/-- What a task can put on the agenda when it is taken up. -/
inductive ReleaseTask.Spawns (set : PlanSet) (heap : Heap) : ReleaseTask → ReleaseTask → Prop where
  | slot {member members native} :
    Spawns set heap (.fields (member :: members) native)
      (.slot member (native.take member.name).1)
  | fields {member members native} :
    Spawns set heap (.fields (member :: members) native)
      (.fields members (native.take member.name).2)
  | single {plan id inner} (read : heap.get? id = some (.single (.struct inner))) :
    Spawns set heap (.block (some plan) id) (.fields plan.owningMembers inner)
  | inPlace {member plan inner} (ownership : member.ownership = .embedded)
    (nested : set.nestedPlan? member.marshal = some plan) :
    Spawns set heap (.slot member (.struct inner)) (.fields plan.owningMembers inner)
  | block {member id} (ownership : member.ownership = .owned) :
    Spawns set heap (.slot member (.pointer id)) (.block (set.nestedPlan? member.marshal) id)
  | item {member plan id items inner} (ownership : member.ownership = .arrayOwned)
    (nested : set.nestedPlan? member.marshal = some plan)
    (read : heap.get? id = some (.array items)) (mem : .struct inner ∈ items) :
    Spawns set heap (.slot member (.pointer id)) (.fields plan.owningMembers inner)
  | behind {member id items target} (ownership : member.ownership = .arrayOfPointersOwned)
    (read : heap.get? id = some (.array items)) (mem : .pointer target ∈ items) :
    Spawns set heap (.slot member (.pointer id))
      (.block (set.nestedPlan? member.marshal) target)

theorem Heap.get?_of_free {id : BlockId} {kind : ReleaseKind} {block : HeapBlock}
    (h : heap.free id kind = (.ok block, after)) : heap.get? id = some block := by
  unfold Heap.free at h
  cases hg : heap.get? id with
  | none =>
    rw [hg] at h
    cases h
  | some found =>
    rw [hg] at h
    dsimp only at h
    split at h <;> cases h
    rfl

theorem Heap.get?_free {id other : BlockId} {kind : ReleaseKind} {block : HeapBlock}
    (h : (heap.free id kind).2.get? other = some block) : heap.get? other = some block := by
  unfold Heap.free at h
  cases hg : heap.get? id with
  | none =>
    rw [hg] at h
    exact h
  | some found =>
    rw [hg] at h
    have hset : (heap.setSlot id none).get? other = some block := by
      dsimp only at h
      split at h <;> exact h
    obtain ⟨h0, hle⟩ := number_of_get? hg
    by_cases ho : other = id
    · rw [ho, get?_setSlot_self none h0 hle] at hset
      cases hset
    · rwa [get?_setSlot_of_ne none h0 ho] at hset

theorem ReleaseTask.mem_nestedIn {nested : Option StructPlan}
    (h : next ∈ ReleaseTask.nestedIn nested value) :
    ∃ plan inner, nested = some plan ∧ value = .struct inner ∧
      next = .fields plan.owningMembers inner := by
  unfold ReleaseTask.nestedIn at h
  split at h
  · exact ⟨_, _, rfl, rfl, List.mem_singleton.mp h⟩
  · cases h

theorem releaseStep_spawns (h : next ∈ (set.releaseStep task heap).1) :
    task.Spawns set heap next := by
  cases task with
  | fields members native =>
    cases members with
    | nil => cases h
    | cons member members =>
      rcases List.mem_cons.mp h with rfl | h
      · exact .slot
      · rw [List.mem_singleton.mp h]
        exact .fields
  | block nested id =>
    simp only [PlanSet.releaseStep] at h
    split at h
    · next value heap' hf =>
      obtain ⟨plan, inner, rfl, rfl, rfl⟩ := ReleaseTask.mem_nestedIn h
      exact .single (Heap.get?_of_free hf)
    · cases h
  | slot member value =>
    simp only [PlanSet.releaseStep] at h
    split at h
    · next hown =>
      obtain ⟨plan, inner, hn, rfl, rfl⟩ := ReleaseTask.mem_nestedIn h
      exact .inPlace hown hn
    · next id hown =>
      rw [List.mem_singleton.mp h]
      exact .block hown
    · next id hown =>
      split at h
      · next items heap' hf =>
        obtain ⟨value, hmem, h⟩ := List.mem_flatMap.mp h
        obtain ⟨plan, inner, hn, rfl, rfl⟩ := ReleaseTask.mem_nestedIn h
        exact .item hown hn (Heap.get?_of_free hf) hmem
      · cases h
    · next id hown =>
      split at h
      · next items heap' hf =>
        obtain ⟨target, ht, rfl⟩ := List.mem_map.mp h
        obtain ⟨value, hmem, hv⟩ := List.mem_filterMap.mp ht
        have hpointer : value = .pointer target := by
          cases value with
          | pointer => exact congrArg NativeValue.pointer (Option.some.inj hv)
          | _ => cases hv
        rw [hpointer] at hmem
        exact .behind hown (Heap.get?_of_free hf) hmem
      · cases h
    · cases h

theorem releaseStep_heap (set : PlanSet) (task : ReleaseTask) (heap : Heap) :
    (set.releaseStep task heap).2 = heap ∨
      ∃ id kind, (set.releaseStep task heap).2 = (heap.free id kind).2 := by
  cases task with
  | fields members native => cases members <;> exact .inl rfl
  | block nested id =>
    refine .inr ⟨id, .delete, ?_⟩
    simp only [PlanSet.releaseStep]
    split <;> next hf => exact (congrArg Prod.snd hf).symm
  | slot member value =>
    simp only [PlanSet.releaseStep]
    split
    · exact .inl rfl
    · exact .inl rfl
    · next id _ =>
      refine .inr ⟨id, .deleteArray, ?_⟩
      split <;> next hf => exact (congrArg Prod.snd hf).symm
    · next id _ =>
      refine .inr ⟨id, .deleteArray, ?_⟩
      split <;> next hf => exact (congrArg Prod.snd hf).symm
    · exact .inl rfl

theorem releaseStep_get? {id : BlockId} {block : HeapBlock}
    (h : (set.releaseStep task heap).2.get? id = some block) : heap.get? id = some block := by
  rcases releaseStep_heap set task heap with hsame | ⟨target, kind, hfree⟩
  · rwa [hsame] at h
  · rw [hfree] at h
    exact Heap.get?_free h

/-- The states that the run from an agenda passes through. -/
inductive PlanSet.Releasing (set : PlanSet) (agenda : List ReleaseTask) (heap : Heap) :
    List ReleaseTask → Heap → Prop where
  | start : Releasing set agenda heap agenda heap
  | step {task : ReleaseTask} {rest : List ReleaseTask} {after : Heap}
    (h : Releasing set agenda heap (task :: rest) after) :
    Releasing set agenda heap ((set.releaseStep task after).1 ++ rest)
      (set.releaseStep task after).2

/-- The run is that of the loop: it comes to an empty agenda with the heap that the loop returns. -/
theorem releasing_releaseAll (set : PlanSet) (agenda : List ReleaseTask) (heap : Heap) :
    set.Releasing agenda heap [] (set.releaseAll agenda heap) := by
  have hrun : ∀ current after, set.Releasing agenda heap current after →
      set.Releasing agenda heap [] (set.releaseAll current after) := by
    intro current after
    induction current, after using PlanSet.releaseAll.induct set with
    | case1 after =>
      intro h
      rwa [PlanSet.releaseAll]
    | case2 after task rest next ih =>
      intro h
      rw [releaseAll_cons]
      exact ih h.step
  exact hrun agenda heap .start

/-- Is there a rule by which a slot of this ownership releases the value? -/
def Ownership.Matches : Ownership → NativeValue → Prop
  | .embedded, .struct _ => True
  | .owned, .pointer _ | .arrayOwned, .pointer _ | .arrayOfPointersOwned, .pointer _ => True
  | _, _ => False

/-- Does the task leave nothing behind for want of a rule? -/
def ReleaseTask.Handled : ReleaseTask → Prop
  | .slot member value => value = .null ∨ member.ownership.Matches value
  | .fields _ _ | .block _ _ => True

/-- A task on parts of structures that read as their plans say, in the heap before the run. -/
inductive ReleaseTask.Fits (set : PlanSet) (before : Heap) : ReleaseTask → Prop where
  | fields {plan : StructPlan} {inner native : NativeStruct} {members : List MemberPlan}
    (plans : plan ∈ set.plans) (means : before.Means set plan inner)
    (owning : ∀ member ∈ members, member ∈ plan.owningMembers)
    (left : ∀ name value, native.get? name = some value →
      value = .null ∨ inner.get? name = some value) :
    Fits set before (.fields members native)
  | slot {member : MemberPlan} {value : NativeValue}
    (ownership : member.ownership = member.marshal.ownership)
    (releases : member.ownership.releases = true) (fits : before.Fits set member.marshal value) :
    Fits set before (.slot member value)
  | block {nested : Option StructPlan} {id : BlockId}
    (means : ∀ plan, nested = some plan → plan ∈ set.plans ∧
      ∀ inner, before.get? id = some (.single (.struct inner)) → before.Means set plan inner) :
    Fits set before (.block nested id)

theorem Marshal.ownership_of_element? {element : Marshal} (h : marshal.element? = some element) :
    marshal.ownership = .arrayOwned ∧ element.ownership ≠ .owned ∨
      marshal.ownership = .arrayOfPointersOwned ∧ element.ownership = .owned := by
  cases marshal with
  | nestedArray name ofPointers =>
    cases h
    cases ofPointers <;> simp [Marshal.ownership]
  | unwrapArray | enumerationArray | bitmaskArray =>
    cases h
    refine Or.inl ⟨rfl, ?_⟩
    intro ho
    cases ho
  | _ => cases h

theorem ReleaseTask.Fits.handled (h : task.Fits set before) : task.Handled := by
  cases h with
  | fields => trivial
  | block => trivial
  | @slot member value ownership releases fits =>
    show value = .null ∨ member.ownership.Matches value
    generalize member.marshal = marshal at ownership fits
    rw [ownership] at releases ⊢
    cases fits with
    | scalar scalar null => exact Or.inl (null releases)
    | nested => exact Or.inr trivial
    | reference => exact Or.inr trivial
    | string => exact Or.inr trivial
    | array elements =>
      rcases Marshal.ownership_of_element? elements with ⟨h, -⟩ | ⟨h, -⟩ <;>
        exact Or.inr (by rw [h]; trivial)

namespace PlanSet

theorem nestedPlan?_mem (h : set.nestedPlan? marshal = some plan) : plan ∈ set.plans := by
  cases marshal with
  | nested | nestedArray => exact planOf?_mem h
  | _ => cases h

theorem nestedPlan?_element {element : Marshal} (he : marshal.element? = some element)
    (h : set.nestedPlan? marshal = some plan) : set.nestedPlan? element = some plan := by
  cases marshal with
  | nestedArray =>
    cases he
    exact h
  | nested => cases he
  | _ => cases h

end PlanSet

namespace Heap.Fits

variable {inner : NativeStruct} {id : BlockId}

theorem means_of_struct (h : before.Fits set marshal (.struct inner))
    (hn : set.nestedPlan? marshal = some plan) : before.Means set plan inner := by
  cases h with
  | scalar scalar => cases scalar
  | nested found means =>
    have hsame := found.symm.trans hn
    rw [Option.some.injEq] at hsame
    rwa [← hsame]

theorem means_of_pointer (h : before.Fits set marshal (.pointer id))
    (ho : marshal.ownership = .owned) (hn : set.nestedPlan? marshal = some plan)
    (hr : before.get? id = some (.single (.struct inner))) : before.Means set plan inner := by
  cases h with
  | scalar scalar => cases scalar
  | reference found read means =>
    have hsame := found.symm.trans hn
    rw [Option.some.injEq] at hsame
    rw [hr] at read
    cases read
    rwa [← hsame]
  | array elements =>
    rcases Marshal.ownership_of_element? elements with ⟨h, -⟩ | ⟨h, -⟩ <;> rw [h] at ho <;> cases ho
  | string => cases ho

theorem items {values : List NativeValue} (h : before.Fits set marshal (.pointer id))
    (hn : set.nestedPlan? marshal = some plan) (hr : before.get? id = some (.array values)) :
    ∃ element, set.nestedPlan? element = some plan ∧
      (marshal.ownership = .arrayOfPointersOwned → element.ownership = .owned) ∧
      ∀ value ∈ values, before.Fits set element value := by
  cases h with
  | scalar scalar => cases scalar
  | reference found read =>
    rw [hr] at read
    cases read
  | string => cases hn
  | array elements read items =>
    rw [hr] at read
    cases read
    refine ⟨_, PlanSet.nestedPlan?_element elements hn, ?_, items⟩
    intro ho
    rcases Marshal.ownership_of_element? elements with ⟨h, -⟩ | ⟨-, h⟩
    · rw [h] at ho
      cases ho
    · exact h

end Heap.Fits

/-- Whatever a fitting task spawns fits, as long as the heap has only blocks it had before. -/
theorem ReleaseTask.Fits.spawns (hs : set.Regular)
    (hb : ∀ id block, heap.get? id = some block → before.get? id = some block)
    (h : task.Fits set before) (hn : task.Spawns set heap next) : next.Fits set before := by
  cases hn with
  | @slot member members native =>
    cases h with
    | @fields plan inner _ _ plans means owning left =>
      obtain ⟨hmember, hreleases⟩ := List.mem_filter.mp (owning member List.mem_cons_self)
      refine .slot ((hs.plans plan plans).ownership member hmember) hreleases ?_
      unfold NativeStruct.take
      cases hg : native.get? member.name with
      | none => exact .scalar rfl fun _ => rfl
      | some value =>
        rcases left member.name value hg with hnull | hvalue
        · rw [hnull]
          exact .scalar rfl fun _ => rfl
        · exact means.slot hs plans hmember hvalue
  | @fields member members native =>
    cases h with
    | @fields plan inner _ _ plans means owning left =>
      refine .fields plans means (fun other ho => owning other (List.mem_cons_of_mem _ ho)) ?_
      intro name value hv
      unfold NativeStruct.take at hv
      cases hg : native.get? member.name with
      | none =>
        rw [hg] at hv
        exact left name value hv
      | some found =>
        rw [hg] at hv
        -- the slot that was taken is null from now on, every other is as it was
        by_cases hname : member.name = name
        · subst hname
          rw [NativeStruct.get?, NativeStruct.set, Entries.get?_put_self] at hv
          exact Or.inl (Option.some.inj hv).symm
        · rw [NativeStruct.get?, NativeStruct.set, Entries.get?_put_of_ne _ _ hname] at hv
          exact left name value hv
  | @single plan id inner read =>
    cases h with
    | block means =>
      obtain ⟨plans, hmeans⟩ := means plan rfl
      exact .fields plans (hmeans inner (hb id _ read)) (fun _ ho => ho) fun _ _ hv => Or.inr hv
  | @inPlace member plan inner ownership nested =>
    cases h with
    | slot same releases fits =>
      exact .fields (PlanSet.nestedPlan?_mem nested) (fits.means_of_struct nested)
        (fun _ ho => ho) fun _ _ hv => Or.inr hv
  | @block member id ownership =>
    cases h with
    | slot same releases fits =>
      refine .block fun plan hplan => ⟨PlanSet.nestedPlan?_mem hplan, ?_⟩
      intro inner hr
      exact fits.means_of_pointer (same.symm.trans ownership) hplan hr
  | @item member plan id items inner ownership nested read mem =>
    cases h with
    | slot same releases fits =>
      obtain ⟨element, helement, -, hitems⟩ := fits.items nested (hb id _ read)
      exact .fields (PlanSet.nestedPlan?_mem nested) ((hitems _ mem).means_of_struct helement)
        (fun _ ho => ho) fun _ _ hv => Or.inr hv
  | @behind member id items target ownership read mem =>
    cases h with
    | slot same releases fits =>
      refine .block fun plan hplan => ⟨PlanSet.nestedPlan?_mem hplan, ?_⟩
      intro inner hr
      obtain ⟨element, helement, howned, hitems⟩ := fits.items hplan (hb id _ read)
      exact (hitems _ mem).means_of_pointer (howned (same.symm.trans ownership)) helement hr

/-- What holds of every state of a run: no block is there that was not there before, and every task
fits. -/
structure RunFits (set : PlanSet) (before : Heap) (agenda : List ReleaseTask) (heap : Heap) :
    Prop where
  blocks : ∀ id block, heap.get? id = some block → before.get? id = some block
  tasks : ∀ task ∈ agenda, task.Fits set before

theorem RunFits.step (hs : set.Regular) (h : RunFits set before (task :: rest) heap) :
    RunFits set before ((set.releaseStep task heap).1 ++ rest) (set.releaseStep task heap).2 where
  blocks := fun id block hg => h.blocks id block (releaseStep_get? hg)
  tasks := by
    intro next hn
    rcases List.mem_append.mp hn with hn | hn
    · exact (h.tasks task List.mem_cons_self).spawns hs h.blocks (releaseStep_spawns hn)
    · exact h.tasks next (List.mem_cons_of_mem _ hn)

theorem PlanSet.Releasing.fits (hs : set.Regular) (hr : set.Releasing agenda before rest after)
    (h : ∀ task ∈ agenda, task.Fits set before) : RunFits set before rest after := by
  induction hr with
  | start => exact ⟨fun _ _ hg => hg, h⟩
  | step _ ih => exact ih.step hs

/-- Destroying a structure that reads as its plan says comes to no slot that it has no rule for. -/
theorem Heap.Means.handled (hs : set.Regular) (hp : plan ∈ set.plans)
    (h : before.Means set plan native)
    (hr : set.Releasing [.fields plan.owningMembers native] before rest after) :
    ∀ task ∈ rest, task.Handled := by
  have hroot : ReleaseTask.Fits set before (.fields plan.owningMembers native) :=
    .fields hp h (fun _ ho => ho) fun _ _ hv => Or.inr hv
  intro task ht
  refine ((hr.fits hs ?_).tasks task ht).handled
  intro root hroot'
  rwa [List.mem_singleton.mp hroot']

end DescriptorMarshal
