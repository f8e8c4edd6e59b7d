import DescriptorMarshal.Native.Heap

/-!
A measure of native values and heaps. Releasing a block takes its weight and one more from the
heap, so whatever walks a heap by releasing it comes to an end.
-/

namespace DescriptorMarshal

mutual

def NativeValue.weight : NativeValue → Nat
  | .null => 0
  | .struct value => value.weight + 1
  | _ => 1

def NativeStruct.weight : NativeStruct → Nat
  | ⟨_, _, fields⟩ => weightOfFields fields

def weightOfFields : List (String × NativeValue) → Nat
  | [] => 0
  | (_, value) :: rest => value.weight + weightOfFields rest

end

def weightOfValues : List NativeValue → Nat
  | [] => 0
  | value :: rest => value.weight + weightOfValues rest

def HeapBlock.weight : HeapBlock → Nat
  | .single value => value.weight
  | .array items => weightOfValues items
  | .cString _ => 0

def weightOfSlots : List (Option HeapBlock) → Nat
  | [] => 0
  | none :: rest => weightOfSlots rest
  | some block :: rest => block.weight + 1 + weightOfSlots rest

def Heap.weight (heap : Heap) : Nat := weightOfSlots heap.slots

theorem weightOfFields_put_null {fields : List (String × NativeValue)} {name : String}
    {value : NativeValue} (found : Entries.get? fields name = some value) :
    value.weight + weightOfFields (Entries.put fields name .null) = weightOfFields fields := by
  induction fields with
  | nil => cases found
  | cons entry rest ih =>
    obtain ⟨key, old⟩ := entry
    by_cases h : key = name
    · simp only [Entries.get?, h, if_true, Option.some.injEq] at found
      simp [Entries.put, h, weightOfFields, NativeValue.weight, found]
    · simp only [Entries.get?, h, if_false] at found
      have := ih found
      simp only [Entries.put, h, if_false, weightOfFields]
      omega

theorem NativeStruct.weight_take (native : NativeStruct) (name : String) :
    (native.take name).1.weight + (native.take name).2.weight = native.weight := by
  obtain ⟨typeName, next, fields⟩ := native
  cases found : Entries.get? fields name with
  | none => simp [NativeStruct.take, NativeStruct.get?, found, NativeValue.weight]
  | some value =>
    simpa [NativeStruct.take, NativeStruct.get?, found, NativeStruct.set, NativeStruct.weight]
      using weightOfFields_put_null found

theorem weightOfSlots_set_none {slots : List (Option HeapBlock)} {slot : Nat} {block : HeapBlock}
    (found : slots[slot]?.join = some block) :
    weightOfSlots (slots.set slot none) + block.weight + 1 = weightOfSlots slots := by
  induction slots generalizing slot with
  | nil => simp at found
  | cons first rest ih =>
    cases slot with
    | zero =>
      simp only [List.getElem?_cons_zero, Option.join_some] at found
      subst found
      simp only [List.set_cons_zero, weightOfSlots]
      omega
    | succ slot =>
      have := ih (by simpa using found)
      cases first <;> simp only [List.set_cons_succ, weightOfSlots] <;> omega

theorem Heap.weight_setSlot_none {heap : Heap} {id : BlockId} {block : HeapBlock}
    (found : heap.get? id = some block) :
    (heap.setSlot id none).weight + block.weight + 1 = heap.weight := by
  obtain ⟨_ | slot⟩ := id
  · cases found
  · exact weightOfSlots_set_none found

theorem Heap.weight_free_ok {heap heap' : Heap} {id : BlockId} {kind : ReleaseKind}
    {block : HeapBlock} (freed : heap.free id kind = (.ok block, heap')) :
    heap'.weight + block.weight + 1 = heap.weight := by
  unfold Heap.free at freed
  split at freed
  · cases freed
  · next found =>
    dsimp only at freed
    split at freed
    · obtain ⟨rfl, rfl⟩ := freed
      exact Heap.weight_setSlot_none found
    · cases freed

theorem Heap.weight_free_le (heap : Heap) (id : BlockId) (kind : ReleaseKind) :
    (heap.free id kind).2.weight ≤ heap.weight := by
  unfold Heap.free
  split
  · exact Nat.le_refl _
  · next found =>
    have := Heap.weight_setSlot_none found
    dsimp only
    split
    · show (heap.setSlot id none).weight ≤ _; omega
    · show (heap.setSlot id none).weight ≤ _; omega

end DescriptorMarshal
