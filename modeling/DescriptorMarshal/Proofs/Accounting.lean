import DescriptorMarshal.Proofs.Lifetime
import Mathlib.Data.List.Induction

/-!
The accounts of the heap over whole runs of its operations, with any ids, indices and kinds. The
counters, the faults and the live blocks are at every moment what the calls and their replies say;
an id is given out once and taken back at most once; and a live block keeps its shape.
-/

namespace DescriptorMarshal

theorem toList_loop_eq (bytes : ByteArray) (index : Nat) (found : List UInt8) :
    ByteArray.toList.loop bytes index found = found.reverse ++ bytes.data.toList.drop index := by
  induction hn : bytes.size - index generalizing index found with
  | zero =>
    rw [ByteArray.toList.loop, if_neg (by omega), List.drop_eq_nil_of_le, List.append_nil]
    have hsize : bytes.data.toList.length = bytes.size := Array.length_toList
    omega
  | succ count ih =>
    have hlt : index < bytes.size := by omega
    have hindex : index < bytes.data.toList.length := hlt
    have hget : bytes.get! index = bytes.data.toList[index] :=
      getElem!_pos bytes.data index hlt
    rw [ByteArray.toList.loop, if_pos hlt, ih _ _ (by omega), List.drop_eq_getElem_cons hindex,
      hget, List.reverse_cons, List.append_assoc]
    rfl

theorem toList_eq_data (bytes : ByteArray) : bytes.toList = bytes.data.toList :=
  toList_loop_eq bytes 0 []

namespace HeapBlock

/-- The same constructor, with as many elements in an array and the same bytes in a string. -/
def Like : HeapBlock → HeapBlock → Prop
  | single _, single _ => True
  | array items, array others => items.length = others.length
  | cString bytes, cString others => bytes = others
  | _, _ => False

theorem Like.refl (block : HeapBlock) : block.Like block := by
  cases block with
  | single value => trivial
  | array items => exact Eq.refl items.length
  | cString bytes => exact Eq.refl bytes

theorem Like.trans {first second third : HeapBlock} (h : first.Like second)
    (k : second.Like third) : first.Like third := by
  cases first <;> cases second <;> try exact h.elim
  all_goals cases third <;> try exact k.elim
  · trivial
  · exact Eq.trans h k
  · exact Eq.trans h k

end HeapBlock

namespace Heap

variable {heap : Heap} {id : BlockId} {text : String}

theorem cString?_of_get? (h : heap.get? id = some (.cString (cStringBytes text))) :
    heap.cString? id = some text := by
  have hlast : (cStringBytes text).getLast? = some 0 := List.getLast?_concat
  have hbody : (cStringBytes text).dropLast = text.toUTF8.data.toList := by
    rw [cStringBytes, List.dropLast_concat, toList_eq_data]
  unfold cString?
  rw [h]
  dsimp only
  rw [if_pos hlast, hbody, Array.toArray_toList]
  exact dif_pos text.isValidUTF8

inductive Call where
  | alloc (block : HeapBlock)
  | allocCString (text : String)
  | store (id : BlockId) (value : NativeValue)
  | storeElement (id : BlockId) (index : Nat) (value : NativeValue)
  | free (id : BlockId) (kind : ReleaseKind)

inductive Reply where
  | allocated (id : BlockId)
  | stored
  | released (result : Except HeapFault HeapBlock)

def perform (heap : Heap) : Call → Reply × Heap
  | .alloc block => (.allocated (heap.alloc block).1, (heap.alloc block).2)
  | .allocCString text => (.allocated (heap.allocCString text).1, (heap.allocCString text).2)
  | .store id value => (.stored, heap.store id value)
  | .storeElement id index value => (.stored, heap.storeElement id index value)
  | .free id kind => (.released (heap.free id kind).1, (heap.free id kind).2)

def Call.id? : Call → Option BlockId
  | alloc _ | allocCString _ => none
  | store id _ | storeElement id _ _ | free id _ => some id

def Call.block? : Call → Option HeapBlock
  | alloc block => some block
  | allocCString text => some (.cString (cStringBytes text))
  | _ => none

structure Event where
  call : Call
  reply : Reply

namespace Event

def allocated? (event : Event) : Option BlockId :=
  match event.reply with
  | .allocated id => some id
  | _ => none

/-- The block that was taken away, with the right kind of release or with a wrong one. -/
def removed? (event : Event) : Option BlockId :=
  match event.reply with
  | .released (.ok _) | .released (.error (.mismatchedRelease ..)) => event.call.id?
  | _ => none

def fault? (event : Event) : Option HeapFault :=
  match event.reply with
  | .released (.error fault) => some fault
  | _ => none

end Event

structure Ledger where
  heap : Heap
  events : List Event

namespace Ledger

def blank : Ledger := ⟨.empty, []⟩

def call (ledger : Ledger) (call : Call) : Ledger :=
  ⟨(ledger.heap.perform call).2, ledger.events ++ [⟨call, (ledger.heap.perform call).1⟩]⟩

def run (ledger : Ledger) (calls : List Call) : Ledger := calls.foldl Ledger.call ledger

def allocated (ledger : Ledger) : List BlockId := ledger.events.filterMap Event.allocated?

def removed (ledger : Ledger) : List BlockId := ledger.events.filterMap Event.removed?

/-- The heap is what the calls and their replies say. -/
structure Exact (ledger : Ledger) : Prop where
  allocations : ledger.heap.allocations = ledger.allocated.length
  frees : ledger.heap.frees = ledger.removed.length
  balance : ledger.heap.allocations = ledger.heap.frees + ledger.heap.live
  fresh : ledger.allocated.Nodup
  once : ledger.removed.Nodup
  live : ∀ id, (∃ block, ledger.heap.get? id = some block) ↔
    id ∈ ledger.allocated ∧ id ∉ ledger.removed
  faults : ledger.heap.faults = ledger.events.filterMap Event.fault?
  texts : ∀ text id, ⟨.allocCString text, .allocated id⟩ ∈ ledger.events →
    id ∉ ledger.removed → ledger.heap.cString? id = some text

/-- Later calls bring no id back, change the shape of no block and only change blocks they name. -/
structure Keeps (ledger : Ledger) (later : List Call) : Prop where
  gone : ∀ id ∈ ledger.removed, (ledger.run later).heap.get? id = none
  shape : ∀ id block now, ledger.heap.get? id = some block →
    (ledger.run later).heap.get? id = some now → block.Like now
  untouched : ∀ id block, ledger.heap.get? id = some block →
    (∀ call ∈ later, call.id? ≠ some id) → (ledger.run later).heap.get? id = some block

end Ledger

/-! ### One call -/

variable {after : Heap} {block now old : HeapBlock} {call : Call} {reply : Reply}

/-- All that a call can do: it allocates a block, leaves the heap alone, overwrites a block by one
of its shape, is refused for want of a block, or takes a block away. -/
inductive Performed (heap : Heap) : Call → Reply → Heap → Prop where
  | allocated {call : Call} {block : HeapBlock} (new : call.block? = some block) :
    Performed heap call (.allocated ⟨heap.slots.length + 1⟩) (heap.extend [block])
  | passed {call : Call} : Performed heap call .stored heap
  | stored {call : Call} {id : BlockId} {old now : HeapBlock} (named : call.id? = some id)
    (live : heap.get? id = some old) (like : old.Like now) :
    Performed heap call .stored (heap.setSlot id (some now))
  | refused {id : BlockId} {kind : ReleaseKind} (dead : heap.get? id = none) :
    Performed heap (.free id kind) (.released (.error (.unknownAllocation id)))
      { heap with faults := heap.faults ++ [.unknownAllocation id] }
  | removed {id : BlockId} {kind : ReleaseKind} {old : HeapBlock}
    {result : Except HeapFault HeapBlock} (live : heap.get? id = some old)
    (taken : Event.removed? ⟨.free id kind, .released result⟩ = some id) :
    Performed heap (.free id kind) (.released result)
      { heap.setSlot id none with
        frees := heap.frees + 1
        faults := heap.faults ++ (Event.fault? ⟨.free id kind, .released result⟩).toList }

/-- The same ids lead to a block, though its contents may differ, and the counters are the same. -/
structure SameBlocks (before after : Heap) : Prop where
  slots : after.slots.length = before.slots.length
  allocations : after.allocations = before.allocations
  frees : after.frees = before.frees
  live : after.live = before.live
  isSome : ∀ id, (after.get? id).isSome = (before.get? id).isSome

theorem SameBlocks.refl (heap : Heap) : heap.SameBlocks heap := ⟨rfl, rfl, rfl, rfl, fun _ => rfl⟩

theorem live_setSlot_some (h : heap.get? id = some old) (block : HeapBlock) :
    (heap.setSlot id (some block)).live = heap.live := by
  obtain ⟨_ | slot⟩ := id
  · cases h
  have hs : heap.slots[slot]? = some (some old) := Option.join_eq_some_iff.mp h
  obtain ⟨hlt, hold⟩ := List.getElem?_eq_some_iff.mp hs
  have hcount := List.countP_set (p := Option.isSome) (l := heap.slots) (i := slot)
    (a := some block) hlt
  have hpos : 0 < heap.slots.countP Option.isSome :=
    List.countP_pos_iff.mpr ⟨some old, List.mem_of_getElem? hs, rfl⟩
  rw [hold] at hcount
  simp only [live, setSlot, Nat.add_sub_cancel, hcount, Option.isSome_some, if_true]
  omega

theorem setSlot_sameBlocks (h : heap.get? id = some old) (block : HeapBlock) :
    heap.SameBlocks (heap.setSlot id (some block)) where
  slots := List.length_set
  allocations := rfl
  frees := rfl
  live := live_setSlot_some h block
  isSome other := by
    obtain ⟨h0, hle⟩ := number_of_get? h
    by_cases ho : other = id
    · subst ho
      rw [get?_setSlot_self _ h0 hle, h]
      rfl
    · rw [get?_setSlot_of_ne _ h0 ho]

theorem perform_performed (heap : Heap) (call : Call) :
    Performed heap call (heap.perform call).1 (heap.perform call).2 := by
  cases call with
  | alloc block => exact .allocated rfl
  | allocCString text => exact .allocated rfl
  | store id value =>
    simp only [perform, store]
    split
    · next hlive => exact .stored rfl hlive trivial
    · exact .passed
  | storeElement id index value =>
    simp only [perform, storeElement]
    split
    · next items hlive => exact .stored rfl hlive (List.length_set).symm
    · exact .passed
  | free id kind =>
    simp only [perform, free]
    cases hlive : heap.get? id with
    | none => exact .refused hlive
    | some block =>
      dsimp only
      split
      · have hfault : Event.fault? ⟨.free id kind, .released (.ok block)⟩ = none := rfl
        have hremoved := @Performed.removed heap id kind block (.ok block) hlive rfl
        rwa [hfault, Option.toList_none, List.append_nil] at hremoved
      · exact .removed hlive rfl

theorem perform_later (heap : Heap) (call : Call) : heap.Later (heap.perform call).2 := by
  cases call with
  | alloc block => exact .alloc heap block
  | allocCString text => exact .alloc heap _
  | store id value => exact .store heap id value
  | storeElement id index value => exact .storeElement heap id index value
  | free id kind => exact .free heap id kind

namespace Performed

theorem block_after (h : Performed heap call reply after) (hb : heap.get? id = some block) :
    (after.get? id = none ∨ ∃ now, after.get? id = some now ∧ block.Like now) ∧
      (call.id? ≠ some id → after.get? id = some block) := by
  have same : ∀ {after : Heap}, after.get? id = some block →
      (after.get? id = none ∨ ∃ now, after.get? id = some now ∧ block.Like now) ∧
        (call.id? ≠ some id → after.get? id = some block) :=
    fun hsame => ⟨Or.inr ⟨block, hsame, .refl block⟩, fun _ => hsame⟩
  cases h with
  | allocated new => exact same (get?_extend_of_get? hb)
  | passed => exact same hb
  | refused dead => exact same hb
  | @stored _ named old now hnamed live like =>
    obtain ⟨h0, hle⟩ := number_of_get? live
    by_cases hid : id = named
    · subst hid
      rw [live, Option.some.injEq] at hb
      subst hb
      exact ⟨Or.inr ⟨now, get?_setSlot_self _ h0 hle, like⟩, fun hne => absurd hnamed hne⟩
    · exact same ((get?_setSlot_of_ne _ h0 hid).trans hb)
  | @removed named kind old result live taken =>
    obtain ⟨h0, hle⟩ := number_of_get? live
    by_cases hid : id = named
    · subst hid
      exact ⟨Or.inl (get?_setSlot_self none h0 hle), fun hne => absurd rfl hne⟩
    · exact same ((get?_setSlot_of_ne none h0 hid).trans hb)

end Performed

/-! ### Runs -/

namespace Ledger

variable {ledger : Ledger}

theorem run_append (ledger : Ledger) (first second : List Call) :
    ledger.run (first ++ second) = (ledger.run first).run second :=
  List.foldl_append

theorem run_later (ledger : Ledger) (calls : List Call) :
    ledger.heap.Later (ledger.run calls).heap := by
  induction calls generalizing ledger with
  | nil => exact .refl ledger.heap
  | cons call rest ih => exact (perform_later ledger.heap call).trans (ih (ledger.call call))

theorem filterMap_concat {α : Type} (read : Event → Option α) (events : List Event)
    (event : Event) :
    (events ++ [event]).filterMap read = events.filterMap read ++ (read event).toList := by
  rw [List.filterMap_append]
  cases hread : read event <;> simp [hread]

theorem allocated_concat_none {event : Event} (h : event.allocated? = none) (after heap : Heap)
    (events : List Event) :
    allocated ⟨after, events ++ [event]⟩ = allocated ⟨heap, events⟩ := by
  rw [allocated, filterMap_concat, h]
  exact List.append_nil _

theorem removed_concat_none {event : Event} (h : event.removed? = none) (after heap : Heap)
    (events : List Event) :
    removed ⟨after, events ++ [event]⟩ = removed ⟨heap, events⟩ := by
  rw [removed, filterMap_concat, h]
  exact List.append_nil _

/-- The invariant of a run from an empty heap: the ids given out are those of the slots, and they
lead to a block until they are taken back. -/
structure Sound (ledger : Ledger) : Prop where
  ids : ledger.allocated = (List.range ledger.heap.slots.length).map fun slot => ⟨slot + 1⟩
  allocations : ledger.heap.allocations = ledger.heap.slots.length
  frees : ledger.heap.frees = ledger.removed.length
  balance : ledger.heap.allocations = ledger.heap.frees + ledger.heap.live
  once : ledger.removed.Nodup
  known : ∀ id ∈ ledger.removed, id ∈ ledger.allocated
  live : ∀ id, (ledger.heap.get? id).isSome ↔ id ∈ ledger.allocated ∧ id ∉ ledger.removed
  faults : ledger.heap.faults = ledger.events.filterMap Event.fault?

theorem Sound.number_le (h : ledger.Sound) (hm : id ∈ ledger.allocated) :
    id.number ≤ ledger.heap.slots.length := by
  rw [h.ids, List.mem_map] at hm
  obtain ⟨slot, hslot, rfl⟩ := hm
  exact List.mem_range.mp hslot

theorem blank_sound : blank.Sound where
  ids := rfl
  allocations := rfl
  frees := rfl
  balance := rfl
  once := List.nodup_nil
  known := nofun
  live := by
    rintro ⟨_ | slot⟩ <;> exact ⟨nofun, nofun⟩
  faults := rfl

variable {events : List Event}

theorem Sound.allocated (h : Sound ⟨heap, events⟩) (call : Call) (block : HeapBlock) :
    Sound ⟨heap.extend [block], events ++ [⟨call, .allocated ⟨heap.slots.length + 1⟩⟩]⟩ := by
  have hallocated : Ledger.allocated
      ⟨heap.extend [block], events ++ [⟨call, .allocated ⟨heap.slots.length + 1⟩⟩]⟩ =
        Ledger.allocated ⟨heap, events⟩ ++ [⟨heap.slots.length + 1⟩] :=
    filterMap_concat _ _ _
  have hremoved : Ledger.removed
      ⟨heap.extend [block], events ++ [⟨call, .allocated ⟨heap.slots.length + 1⟩⟩]⟩ = _ :=
    removed_concat_none rfl _ heap events
  have hlength : (heap.extend [block]).slots.length = heap.slots.length + 1 :=
    length_slots_extend heap [block]
  constructor
  · rw [hallocated, h.ids, hlength, List.range_succ, List.map_append]
    rfl
  · rw [hlength]
    exact congrArg (· + 1) h.allocations
  · rw [hremoved]
    exact h.frees
  · have hbalance := h.balance
    show heap.allocations + 1 = heap.frees + (heap.extend [block]).live
    rw [live_extend, List.length_singleton, ← Nat.add_assoc]
    exact congrArg (· + 1) hbalance
  · rw [hremoved]
    exact h.once
  · intro id hm
    rw [hremoved] at hm
    rw [hallocated]
    exact List.mem_append_left _ (h.known id hm)
  · intro id
    rw [hallocated, hremoved, List.mem_append, List.mem_singleton, Option.isSome_iff_exists]
    simp only [get?_extend_eq_some_iff, numbered, List.mem_singleton, Prod.mk.injEq]
    constructor
    · rintro ⟨found, hold | ⟨rfl, -⟩⟩
      · have hlive := (h.live id).mp (Option.isSome_iff_exists.mpr ⟨found, hold⟩)
        exact ⟨Or.inl hlive.1, hlive.2⟩
      · refine ⟨Or.inr rfl, ?_⟩
        intro hm
        have hle := h.number_le (h.known _ hm)
        exact absurd hle (Nat.not_succ_le_self _)
    · rintro ⟨hold | rfl, hkept⟩
      · obtain ⟨found, hfound⟩ := Option.isSome_iff_exists.mp ((h.live id).mpr ⟨hold, hkept⟩)
        exact ⟨found, Or.inl hfound⟩
      · exact ⟨block, Or.inr ⟨rfl, rfl⟩⟩
  · exact h.faults.trans ((filterMap_concat _ _ _).trans (List.append_nil _)).symm

theorem Sound.passed {event : Event} (h : Sound ⟨heap, events⟩) (hs : heap.SameBlocks after)
    (ha : event.allocated? = none) (hr : event.removed? = none)
    (hf : after.faults = heap.faults ++ event.fault?.toList) :
    Sound ⟨after, events ++ [event]⟩ := by
  have hallocated := allocated_concat_none ha after heap events
  have hremoved := removed_concat_none hr after heap events
  constructor
  · rw [hallocated, h.ids, hs.slots]
  · exact hs.allocations.trans (h.allocations.trans hs.slots.symm)
  · rw [hremoved]
    exact hs.frees.trans h.frees
  · show after.allocations = after.frees + after.live
    rw [hs.allocations, hs.frees, hs.live]
    exact h.balance
  · rw [hremoved]
    exact h.once
  · rw [hallocated, hremoved]
    exact h.known
  · intro id
    rw [hallocated, hremoved, ← h.live, hs.isSome]
  · rw [filterMap_concat]
    exact hf.trans (congrArg (· ++ _) h.faults)

theorem Sound.removed {event : Event} (h : Sound ⟨heap, events⟩) (hb : heap.get? id = some block)
    (ha : event.allocated? = none) (hr : event.removed? = some id) :
    Sound ⟨{ heap.setSlot id none with
      frees := heap.frees + 1
      faults := heap.faults ++ event.fault?.toList }, events ++ [event]⟩ := by
  generalize hafter : { heap.setSlot id none with
    frees := heap.frees + 1
    faults := heap.faults ++ event.fault?.toList : Heap } = after
  have hallocated := allocated_concat_none ha after heap events
  have hremoved : Ledger.removed ⟨after, events ++ [event]⟩ =
      Ledger.removed ⟨heap, events⟩ ++ [id] := by
    rw [Ledger.removed, filterMap_concat, hr]
    rfl
  have hlive := (h.live id).mp (Option.isSome_iff_exists.mpr ⟨block, hb⟩)
  obtain ⟨h0, hle⟩ := number_of_get? hb
  subst hafter
  constructor
  · rw [hallocated, h.ids]
    exact congrArg (fun length => (List.range length).map _) List.length_set.symm
  · exact h.allocations.trans List.length_set.symm
  · rw [hremoved, List.length_append]
    exact congrArg (· + 1) h.frees
  · have hbalance : heap.allocations = heap.frees + heap.live := h.balance
    have hcount := live_setSlot_none hb
    show heap.allocations = heap.frees + 1 + (heap.setSlot id none).live
    omega
  · rw [hremoved]
    refine List.nodup_append.mpr ⟨h.once, List.nodup_singleton id, ?_⟩
    rintro other hother found hfound rfl
    rw [List.mem_singleton.mp hfound] at hother
    exact hlive.2 hother
  · intro other hm
    rw [hallocated]
    rcases List.mem_append.mp (hremoved ▸ hm) with hm | hm
    · exact h.known other hm
    · exact List.mem_singleton.mp hm ▸ hlive.1
  · intro other
    rw [hallocated, hremoved, List.mem_append, List.mem_singleton, not_or]
    show ((heap.setSlot id none).get? other).isSome ↔ _
    by_cases ho : other = id
    · subst ho
      rw [get?_setSlot_self none h0 hle]
      exact ⟨nofun, fun hkept => absurd rfl hkept.2.2⟩
    · rw [get?_setSlot_of_ne none h0 ho, h.live]
      exact ⟨fun hkept => ⟨hkept.1, hkept.2, ho⟩, fun hkept => ⟨hkept.1, hkept.2.1⟩⟩
  · rw [filterMap_concat]
    exact congrArg (· ++ _) h.faults

theorem Sound.performed (h : Sound ⟨heap, events⟩) (hp : heap.Performed call reply after) :
    Sound ⟨after, events ++ [⟨call, reply⟩]⟩ := by
  cases hp with
  | allocated new => exact h.allocated call _
  | passed => exact h.passed (.refl heap) rfl rfl (List.append_nil _).symm
  | stored named live like =>
    exact h.passed (setSlot_sameBlocks live _) rfl rfl (List.append_nil _).symm
  | refused dead => exact h.passed ⟨rfl, rfl, rfl, rfl, fun _ => rfl⟩ rfl rfl rfl
  | removed live taken => exact h.removed live rfl taken

theorem run_sound (calls : List Call) : (blank.run calls).Sound := by
  induction calls using List.reverseRecOn with
  | nil => exact blank_sound
  | append_singleton calls call ih =>
    rw [run_append]
    exact ih.performed (perform_performed _ call)

theorem run_shape (h : ledger.heap.get? id = some block) (calls : List Call) :
    (ledger.run calls).heap.get? id = none ∨
      ∃ now, (ledger.run calls).heap.get? id = some now ∧ block.Like now := by
  induction calls generalizing ledger block with
  | nil => exact Or.inr ⟨block, h, .refl block⟩
  | cons call rest ih =>
    have hle := (number_of_get? h).2
    have hstep := perform_performed ledger.heap call
    rcases (hstep.block_after h).1 with hgone | ⟨middle, hmiddle, hlike⟩
    · refine Or.inl ((run_later (ledger.call call) rest).released id ?_ hgone)
      exact Nat.le_trans hle (perform_later ledger.heap call).slots
    · refine (@ih middle (ledger.call call) hmiddle).imp_right ?_
      rintro ⟨now, hnow, hshape⟩
      exact ⟨now, hnow, hlike.trans hshape⟩

theorem run_untouched (h : ledger.heap.get? id = some block) (calls : List Call)
    (hc : ∀ call ∈ calls, call.id? ≠ some id) : (ledger.run calls).heap.get? id = some block := by
  induction calls generalizing ledger with
  | nil => exact h
  | cons call rest ih =>
    have hstep := perform_performed ledger.heap call
    have hmiddle := (hstep.block_after h).2 (hc call List.mem_cons_self)
    exact @ih (ledger.call call) hmiddle fun other ho => hc other (List.mem_cons_of_mem _ ho)

theorem run_keeps (calls later : List Call) : (blank.run calls).Keeps later where
  gone id hid := by
    have hsound := run_sound calls
    have hdead : (blank.run calls).heap.get? id = none := by
      by_contra hlive
      exact ((hsound.live id).mp (Option.isSome_iff_ne_none.mpr hlive)).2 hid
    exact (run_later _ later).released id (hsound.number_le (hsound.known id hid)) hdead
  shape id block now h hnow := by
    rcases run_shape h later with hgone | ⟨found, hfound, hlike⟩
    · rw [hgone] at hnow
      cases hnow
    · rw [hfound, Option.some.injEq] at hnow
      exact hnow ▸ hlike
  untouched _ _ h hc := run_untouched h later hc

/-- A block that was made from a text holds its bytes for as long as it is live. -/
theorem run_text (calls : List Call)
    (hm : ⟨.allocCString text, .allocated id⟩ ∈ (blank.run calls).events)
    (h : (blank.run calls).heap.get? id = some block) : block = .cString (cStringBytes text) := by
  induction calls using List.reverseRecOn generalizing block with
  | nil => cases hm
  | append_singleton calls call ih =>
    rw [run_append] at hm h
    rcases List.mem_append.mp hm with hm | hm
    · have hid : id ∈ (blank.run calls).allocated := List.mem_filterMap.mpr ⟨_, hm, rfl⟩
      have hle := (run_sound calls).number_le hid
      cases hbefore : (blank.run calls).heap.get? id with
      | none =>
        have hgone := (perform_later (blank.run calls).heap call).released id hle hbefore
        cases hgone.symm.trans h
      | some middle =>
        have hmiddle := ih hm hbefore
        subst hmiddle
        have hstep := perform_performed (blank.run calls).heap call
        rcases (hstep.block_after hbefore).1 with hgone | ⟨now, hnow, hlike⟩
        · cases hgone.symm.trans h
        · cases hnow.symm.trans h
          cases block with
          | cString bytes => exact congrArg HeapBlock.cString (Eq.symm hlike)
          | single _ | array _ => exact hlike.elim
    · have hevent := List.mem_singleton.mp hm
      rw [Event.mk.injEq] at hevent
      obtain ⟨rfl, hreply⟩ := hevent
      cases hreply
      cases (get?_extend_next (blank.run calls).heap _ []).symm.trans h
      rfl

theorem run_exact (calls : List Call) : (blank.run calls).Exact := by
  have h := run_sound calls
  constructor
  · rw [h.allocations, h.ids, List.length_map, List.length_range]
  · exact h.frees
  · exact h.balance
  · rw [h.ids]
    refine List.Nodup.map ?_ List.nodup_range
    intro first second he
    exact Nat.succ.inj (congrArg BlockId.number he)
  · exact h.once
  · intro id
    rw [← Option.isSome_iff_exists]
    exact h.live id
  · exact h.faults
  · intro text id hm hkept
    have hid : id ∈ (blank.run calls).allocated := List.mem_filterMap.mpr ⟨_, hm, rfl⟩
    obtain ⟨block, hb⟩ := Option.isSome_iff_exists.mp ((h.live id).mpr ⟨hid, hkept⟩)
    have hbytes := run_text calls hm hb
    exact cString?_of_get? (hbytes ▸ hb)

/-- After any calls on an empty heap, the heap is what the calls and their replies say, and it
stays so whatever is called next: no id comes back and no live block changes its shape. -/
theorem accounting_exact (calls later : List Call) :
    (blank.run calls).Exact ∧ (blank.run calls).Keeps later :=
  ⟨run_exact calls, run_keeps calls later⟩

end Ledger

end Heap

end DescriptorMarshal
