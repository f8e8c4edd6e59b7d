import DescriptorMarshal.Native.Heap
import Mathlib.Data.List.Nodup

/-!
How decoding and destroying change a heap. A decode only appends blocks, with the ids that come
next; a destructor only takes blocks away. Both are stated through the map `Heap.get?`.
-/

namespace DescriptorMarshal.Heap

/-- The heap after `blocks` were allocated one after the other. -/
def extend (heap : Heap) (blocks : List HeapBlock) : Heap :=
  { heap with
    slots := heap.slots ++ blocks.map some
    allocations := heap.allocations + blocks.length }

/-- Blocks with the ids that follow the first `start` ones. -/
def numbered : (start : Nat) → List HeapBlock → List (BlockId × HeapBlock)
  | _, [] => []
  | start, block :: rest => (⟨start + 1⟩, block) :: numbered (start + 1) rest

variable {heap : Heap} {id : BlockId} {block : HeapBlock} {blocks : List HeapBlock}

theorem alloc_eq (heap : Heap) (block : HeapBlock) :
    heap.alloc block = (⟨heap.slots.length + 1⟩, heap.extend [block]) := rfl

@[simp] theorem extend_nil (heap : Heap) : heap.extend [] = heap := by
  simp [extend]

@[simp] theorem extend_extend (heap : Heap) (first second : List HeapBlock) :
    (heap.extend first).extend second = heap.extend (first ++ second) := by
  simp [extend, Nat.add_assoc]

@[simp] theorem length_slots_extend (heap : Heap) (blocks : List HeapBlock) :
    (heap.extend blocks).slots.length = heap.slots.length + blocks.length := by
  simp [extend]

theorem live_extend (heap : Heap) (blocks : List HeapBlock) :
    (heap.extend blocks).live = heap.live + blocks.length := by
  simp [live, extend, List.countP_append, List.countP_map, Function.comp_def]

theorem number_of_get? (h : heap.get? id = some block) :
    0 < id.number ∧ id.number ≤ heap.slots.length := by
  obtain ⟨_ | slot⟩ := id
  · cases h
  · have hs : heap.slots[slot]? = some (some block) := Option.join_eq_some_iff.mp h
    have := (List.getElem?_eq_some_iff.mp hs).1
    exact ⟨Nat.succ_pos slot, this⟩

theorem live_eq_zero (h : ∀ id, heap.get? id = none) : heap.live = 0 := by
  apply List.countP_eq_zero.mpr
  intro slot hs hsome
  obtain ⟨index, hi⟩ := List.mem_iff_getElem?.mp hs
  obtain ⟨block, rfl⟩ := Option.isSome_iff_exists.mp hsome
  have hg : heap.get? ⟨index + 1⟩ = some block := Option.join_eq_some_iff.mpr hi
  rw [h] at hg
  cases hg

theorem get?_of_length_lt (h : heap.slots.length < id.number) : heap.get? id = none := by
  by_contra hn
  obtain ⟨block, hb⟩ := Option.ne_none_iff_exists'.mp hn
  have := (number_of_get? hb).2
  omega

theorem get?_extend_of_le (h : id.number ≤ heap.slots.length) :
    (heap.extend blocks).get? id = heap.get? id := by
  obtain ⟨_ | slot⟩ := id
  · rfl
  · have hs : slot < heap.slots.length := h
    simp only [get?, extend, List.getElem?_append_left hs]

theorem get?_extend_of_get? (h : heap.get? id = some block) :
    (heap.extend blocks).get? id = some block :=
  (get?_extend_of_le (number_of_get? h).2).trans h

theorem get?_extend_next (heap : Heap) (block : HeapBlock) (blocks : List HeapBlock) :
    (heap.extend (block :: blocks)).get? ⟨heap.slots.length + 1⟩ = some block := by
  simp [get?, extend]

theorem number_of_mem_numbered {start : Nat} (h : (id, block) ∈ numbered start blocks) :
    start < id.number ∧ id.number ≤ start + blocks.length := by
  induction blocks generalizing start with
  | nil => cases h
  | cons first rest ih =>
    simp only [List.length_cons]
    rcases List.mem_cons.mp h with h | h
    · cases h
      exact ⟨Nat.lt_succ_self start, by simp⟩
    · have := ih h
      omega

theorem numbered_append (start : Nat) (first second : List HeapBlock) :
    numbered start (first ++ second) =
      numbered start first ++ numbered (start + first.length) second := by
  induction first generalizing start with
  | nil => rfl
  | cons block rest ih =>
    simp only [List.cons_append, numbered, ih, List.length_cons]
    rw [Nat.add_right_comm, Nat.add_assoc]

@[simp] theorem length_numbered (start : Nat) (blocks : List HeapBlock) :
    (numbered start blocks).length = blocks.length := by
  induction blocks generalizing start with
  | nil => rfl
  | cons block rest ih => simp [numbered, ih]

theorem nodup_numbered (start : Nat) (blocks : List HeapBlock) :
    ((numbered start blocks).map Prod.fst).Nodup := by
  induction blocks generalizing start with
  | nil => exact List.nodup_nil
  | cons block rest ih =>
    refine List.nodup_cons.mpr ⟨?_, ih (start + 1)⟩
    intro h
    obtain ⟨entry, he, hid⟩ := List.mem_map.mp h
    have := (number_of_mem_numbered he).1
    rw [hid] at this
    simp at this

theorem get?_extend_numbered (h : (id, block) ∈ numbered heap.slots.length blocks) :
    (heap.extend blocks).get? id = some block := by
  induction blocks generalizing heap with
  | nil => cases h
  | cons head rest ih =>
    rcases List.mem_cons.mp h with h | h
    · cases h
      exact get?_extend_next heap _ rest
    · have := @ih (heap.extend [head]) (by simpa using h)
      simpa using this

theorem get?_extend_eq_some_iff :
    (heap.extend blocks).get? id = some block ↔
      heap.get? id = some block ∨ (id, block) ∈ numbered heap.slots.length blocks := by
  constructor
  · intro h
    by_cases hle : id.number ≤ heap.slots.length
    · exact Or.inl (by rwa [get?_extend_of_le hle] at h)
    · right
      have hlt := (number_of_get? h).2
      rw [length_slots_extend] at hlt
      induction blocks generalizing heap with
      | nil => simp at hlt; omega
      | cons head rest ih =>
        by_cases hnext : id.number = heap.slots.length + 1
        · have hid : id = ⟨heap.slots.length + 1⟩ := by cases id; simpa using hnext
          subst hid
          rw [get?_extend_next] at h
          cases h
          exact List.mem_cons_self
        · apply List.mem_cons_of_mem _
          have := @ih (heap.extend [head]) (by simpa using h)
            (by simp; omega) (by simp at hlt ⊢; omega)
          simpa using this
  · rintro (h | h)
    · exact get?_extend_of_get? h
    · exact get?_extend_numbered h

/-- Are the blocks live, with exactly these contents? -/
def Holds (heap : Heap) (blocks : List (BlockId × HeapBlock)) : Prop :=
  ∀ entry ∈ blocks, heap.get? entry.1 = some entry.2

theorem Holds.perm {first second : List (BlockId × HeapBlock)} (h : heap.Holds first)
    (hp : first.Perm second) : heap.Holds second :=
  fun entry he => h entry (hp.mem_iff.mpr he)

theorem holds_extend (heap : Heap) (blocks : List HeapBlock) :
    (heap.extend blocks).Holds (numbered heap.slots.length blocks) :=
  fun _ he => get?_extend_numbered he

theorem setSlot_extend_next (heap : Heap) (block new : HeapBlock) (blocks : List HeapBlock) :
    (heap.extend (block :: blocks)).setSlot ⟨heap.slots.length + 1⟩ (some new) =
      heap.extend (new :: blocks) := by
  simp [setSlot, extend]

theorem storeElement_extend_next (heap : Heap) (items : List NativeValue)
    (blocks : List HeapBlock) (index : Nat) (value : NativeValue) :
    (heap.extend (.array items :: blocks)).storeElement ⟨heap.slots.length + 1⟩ index value =
      heap.extend (.array (items.set index value) :: blocks) := by
  simp only [storeElement, get?_extend_next]
  exact setSlot_extend_next heap _ _ blocks

theorem store_extend_next (heap : Heap) (old value : NativeValue) (blocks : List HeapBlock) :
    (heap.extend (.single old :: blocks)).store ⟨heap.slots.length + 1⟩ value =
      heap.extend (.single value :: blocks) := by
  simp only [store, get?_extend_next]
  exact setSlot_extend_next heap _ _ blocks

theorem get?_setSlot_self (slot : Option HeapBlock) (h0 : 0 < id.number)
    (h : id.number ≤ heap.slots.length) : (heap.setSlot id slot).get? id = slot := by
  obtain ⟨_ | number⟩ := id
  · cases h0
  · have hs : number < heap.slots.length := h
    simp [get?, setSlot, hs]

theorem get?_setSlot_of_ne {other : BlockId} (slot : Option HeapBlock) (h0 : 0 < id.number)
    (h : other ≠ id) : (heap.setSlot id slot).get? other = heap.get? other := by
  obtain ⟨_ | number⟩ := id
  · cases h0
  obtain ⟨_ | number'⟩ := other
  · rfl
  · have : number ≠ number' := fun hn => h (by rw [hn])
    simp [get?, setSlot, this]

/-- `after` is `heap` without the blocks `ids`, each released once and as it has to be. -/
structure Released (heap : Heap) (ids : List BlockId) (after : Heap) : Prop where
  get? : ∀ id, after.get? id = if id ∈ ids then none else heap.get? id
  slots : after.slots.length = heap.slots.length
  allocations : after.allocations = heap.allocations
  frees : after.frees = heap.frees + ids.length
  live : after.live + ids.length = heap.live
  faults : after.faults = heap.faults

theorem Released.refl (heap : Heap) : Released heap [] heap := by
  constructor <;> simp

theorem Released.trans {first second after : Heap} {ids rest : List BlockId}
    (h : Released first ids second) (k : Released second rest after) :
    Released first (ids ++ rest) after where
  get? id := by
    rw [k.get?, h.get?]
    by_cases hr : id ∈ rest <;> by_cases hi : id ∈ ids <;> simp [hr, hi]
  slots := k.slots.trans h.slots
  allocations := k.allocations.trans h.allocations
  frees := by rw [k.frees, h.frees, List.length_append, Nat.add_assoc]
  live := by
    have := h.live
    have := k.live
    simp only [List.length_append]
    omega
  faults := k.faults.trans h.faults

theorem Released.perm {after : Heap} {ids ids' : List BlockId} (h : Released heap ids after)
    (hp : ids.Perm ids') : Released heap ids' after where
  get? id := by rw [h.get?]; simp [hp.mem_iff]
  slots := h.slots
  allocations := h.allocations
  frees := by rw [h.frees, hp.length_eq]
  live := by rw [← h.live, hp.length_eq]
  faults := h.faults

theorem live_setSlot_none (h : heap.get? id = some block) :
    (heap.setSlot id none).live + 1 = heap.live := by
  obtain ⟨_ | slot⟩ := id
  · cases h
  have hs : heap.slots[slot]? = some (some block) := Option.join_eq_some_iff.mp h
  obtain ⟨hlt, hb⟩ := List.getElem?_eq_some_iff.mp hs
  have hc := List.countP_set (p := Option.isSome) (l := heap.slots) (i := slot)
    (a := (none : Option HeapBlock)) hlt
  have hpos : 0 < heap.slots.countP Option.isSome :=
    List.countP_pos_iff.mpr ⟨some block, List.mem_of_getElem? hs, rfl⟩
  simp only [hb, Option.isSome_some, Option.isSome_none] at hc
  simp only [live, setSlot, Nat.add_sub_cancel]
  rw [hc]
  simp
  omega

theorem free_released (h : heap.get? id = some block) :
    ∃ after, heap.free id block.releaseKind = (.ok block, after) ∧
      Released heap [id] after := by
  obtain ⟨h0, hle⟩ := number_of_get? h
  refine ⟨{ heap.setSlot id none with frees := heap.frees + 1 }, by simp [free, h], ?_⟩
  constructor
  · intro other
    show (heap.setSlot id none).get? other = _
    by_cases ho : other = id
    · subst ho
      rw [get?_setSlot_self none h0 hle]
      simp
    · rw [get?_setSlot_of_ne none h0 ho]
      simp [ho]
  · simp [setSlot]
  · rfl
  · rfl
  · exact live_setSlot_none h
  · rfl

end DescriptorMarshal.Heap
