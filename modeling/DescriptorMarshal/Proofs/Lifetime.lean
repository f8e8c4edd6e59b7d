import DescriptorMarshal.Proofs.Agenda

/-!
The lifetime of heap blocks. An id is given out once: whatever is done to the heap, and whatever is
decoded and destroyed on it with any plans, an id whose block was released never leads to a block
again.
-/

namespace DescriptorMarshal

/-- A later state of a heap: ids that were given out are not given out again, and a block that was
released does not come back. -/
structure Heap.Later (before after : Heap) : Prop where
  slots : before.slots.length ≤ after.slots.length
  released : ∀ id, id.number ≤ before.slots.length → before.get? id = none → after.get? id = none

def Fill.Later (fill : Fill) : Prop :=
  ∀ (heap : Heap) (native : NativeStruct), heap.Later (fill heap native).heap

section

variable {set : PlanSet} {heap before middle after : Heap} {id : BlockId}

namespace Heap.Later

theorem refl (heap : Heap) : heap.Later heap := ⟨Nat.le_refl _, fun _ _ h => h⟩

theorem trans (h : before.Later middle) (k : middle.Later after) : before.Later after where
  slots := Nat.le_trans h.slots k.slots
  released id hle hget :=
    k.released id (Nat.le_trans hle h.slots) (h.released id hle hget)

theorem alloc (heap : Heap) (block : HeapBlock) : heap.Later (heap.alloc block).2 where
  slots := by
    rw [Heap.alloc_eq, Heap.length_slots_extend]
    exact Nat.le_add_right _ _
  released id hle hget := by
    rw [Heap.alloc_eq, Heap.get?_extend_of_le hle]
    exact hget

theorem setSlot {old : HeapBlock} (h : heap.get? id = some old) (block : Option HeapBlock) :
    heap.Later (heap.setSlot id block) where
  slots := by
    have hlength : (heap.setSlot id block).slots.length = heap.slots.length := List.length_set
    exact Nat.le_of_eq hlength.symm
  released other _ hget := by
    have hne : other ≠ id := by
      rintro rfl
      rw [h] at hget
      cases hget
    rw [Heap.get?_setSlot_of_ne block (Heap.number_of_get? h).1 hne]
    exact hget

theorem store (heap : Heap) (id : BlockId) (value : NativeValue) :
    heap.Later (heap.store id value) := by
  unfold Heap.store
  split
  · next hget => exact setSlot hget _
  · exact refl heap

theorem storeElement (heap : Heap) (id : BlockId) (index : Nat) (value : NativeValue) :
    heap.Later (heap.storeElement id index value) := by
  unfold Heap.storeElement
  split
  · next hget => exact setSlot hget _
  · exact refl heap

theorem free (heap : Heap) (id : BlockId) (kind : ReleaseKind) :
    heap.Later (heap.free id kind).2 := by
  unfold Heap.free
  cases hget : heap.get? id with
  | none => exact ⟨Nat.le_refl _, fun _ _ h => h⟩
  | some block =>
    have hremoved := setSlot hget none
    dsimp only
    split
    · exact ⟨hremoved.slots, hremoved.released⟩
    · exact ⟨hremoved.slots, hremoved.released⟩

end Heap.Later

theorem releaseStep_later (set : PlanSet) (task : ReleaseTask) (heap : Heap) :
    heap.Later (set.releaseStep task heap).2 := by
  rcases releaseStep_heap set task heap with hsame | ⟨id, kind, hfree⟩
  · rw [hsame]
    exact .refl heap
  · rw [hfree]
    exact .free heap id kind

theorem releaseAll_later (set : PlanSet) (agenda : List ReleaseTask) (heap : Heap) :
    heap.Later (set.releaseAll agenda heap) := by
  induction agenda, heap using PlanSet.releaseAll.induct set with
  | case1 heap =>
    rw [PlanSet.releaseAll]
    exact .refl heap
  | case2 heap task rest next ih =>
    rw [releaseAll_cons]
    exact (releaseStep_later set task heap).trans ih

theorem fillConverted_later (name : String) (converted : Except DecodeError NativeValue) :
    Fill.Later (fillConverted name converted) := by
  intro heap native
  cases converted <;> exact .refl heap

theorem fillElements_later (convert : HostValue → Place → Except DecodeError NativeValue)
    (place : Place) (id : BlockId) (items : List HostValue) (index : Nat) (heap : Heap) :
    heap.Later (fillElements convert place id items index heap).1 := by
  induction items generalizing index heap with
  | nil => exact .refl heap
  | cons item rest ih =>
    rw [fillElements]
    cases convert item (place.element index) with
    | ok value => exact (Heap.Later.storeElement heap id index value).trans (ih _ _)
    | error error => exact .refl heap

theorem fillArray_later (member : MemberPlan) (zero : NativeValue)
    (convert : HostValue → Place → Except DecodeError NativeValue) (input : HostValue)
    (place : Place) : Fill.Later (fillArray member zero convert input place) := by
  intro heap native
  cases input with
  | array items => exact (Heap.Later.alloc heap _).trans (fillElements_later _ _ _ _ _ _)
  | _ => exact .refl heap

theorem fillAbsent_later (member : MemberPlan) (place : Place) :
    Fill.Later (fillAbsent member place) := by
  intro heap native
  unfold fillAbsent
  cases member.presence <;> exact .refl heap

theorem fillPlain_later (set : PlanSet) (member : MemberPlan) (input : HostValue) (place : Place) :
    Fill.Later (set.fillPlain member input place) := by
  intro heap native
  unfold PlanSet.fillPlain
  cases member.marshal with
  | unwrap | number | boolean | enumeration | bitmask => exact fillConverted_later _ _ heap native
  | unwrapArray | enumerationArray | bitmaskArray => exact fillArray_later _ _ _ _ _ heap native
  | string =>
    cases input with
    | string text => exact .alloc heap _
    | _ => exact .refl heap
  | buffer kind =>
    dsimp only
    cases convertBuffer kind input place <;> exact .refl heap
  | nested | nestedArray => exact .refl heap

theorem fillMembers_later {fill : MemberPlan → Fill} (h : ∀ member, (fill member).Later)
    (members : List MemberPlan) : Fill.Later (fillMembers fill members) := by
  intro heap native
  induction members generalizing heap native with
  | nil => exact .refl heap
  | cons member rest ih =>
    rw [fillMembers]
    cases (fill member heap native).error? with
    | none => exact (h member heap native).trans (ih _ _)
    | some error => exact h member heap native

structure FillsLater (set : PlanSet) (input : HostValue) : Prop where
  value : ∀ member place, Fill.Later (set.fillValue input member place)
  item : ∀ plan ofPointers id index place heap,
    Heap.Later heap (set.fillItem input plan ofPointers id index place heap).1

theorem fillProperties_later {properties : List (String × HostValue)}
    (h : ∀ entry ∈ properties, FillsLater set entry.2) (place : Place) (plan : StructPlan) :
    Fill.Later (fillMembers (fun inner => set.fillProperty properties inner place)
      plan.members) := by
  apply fillMembers_later
  intro member heap native
  rw [PlanSet.fillProperty_eq]
  cases hgiven : member.given? properties with
  | none => exact fillAbsent_later member _ heap native
  | some input => exact (h _ (MemberPlan.mem_of_given? hgiven)).value member _ heap native

theorem fillItems_later {items : List HostValue} (h : ∀ item ∈ items, FillsLater set item)
    (plan : StructPlan) (ofPointers : Bool) (id : BlockId) (index : Nat) (place : Place)
    (heap : Heap) :
    heap.Later (set.fillItems items plan ofPointers id index place heap).1 := by
  induction items generalizing index heap with
  | nil => exact .refl heap
  | cons item rest ih =>
    have hitem := (h item List.mem_cons_self).item plan ofPointers id index (place.element index)
      heap
    rw [PlanSet.fillItems]
    split
    · next middle hfill =>
      rw [hfill] at hitem
      exact hitem.trans (ih (fun other ho => h other (List.mem_cons_of_mem _ ho)) _ _)
    · next middle error hfill =>
      rw [hfill] at hitem
      exact hitem

theorem fillsLater (set : PlanSet) (input : HostValue) : FillsLater set input := by
  induction input using HostValue.induct with
  | object properties ih =>
    have hmembers := fillProperties_later ih
    constructor
    · intro member place heap native
      cases hmarshal : member.marshal with
      | nested name byReference =>
        simp only [PlanSet.fillValue, hmarshal]
        cases set.planOf? name with
        | none => exact .refl heap
        | some plan =>
          cases byReference with
          | false => exact hmembers place plan heap _
          | true =>
            exact ((Heap.Later.alloc heap _).trans (hmembers place plan _ _)).trans (.store _ _ _)
      | nestedArray name ofPointers =>
        simp only [PlanSet.fillValue, hmarshal]
        cases set.planOf? name <;> exact .refl heap
      | _ =>
        rw [fillValue_plain (by rw [hmarshal]; rfl)]
        exact fillPlain_later set member _ place heap native
    · intro plan ofPointers id index place heap
      rw [PlanSet.fillItem]
      cases ofPointers with
      | false => exact (hmembers place plan heap _).trans (.storeElement _ _ _ _)
      | true =>
        exact (((Heap.Later.alloc heap _).trans (.storeElement _ _ _ _)).trans
          (hmembers place plan _ _)).trans (.store _ _ _)
  | array items ih =>
    constructor
    · intro member place heap native
      cases hmarshal : member.marshal with
      | nested name byReference =>
        simp only [PlanSet.fillValue, hmarshal]
        cases set.planOf? name <;> exact .refl heap
      | nestedArray name ofPointers =>
        simp only [PlanSet.fillValue, hmarshal]
        cases set.planOf? name with
        | none => exact .refl heap
        | some plan =>
          exact (Heap.Later.alloc heap _).trans (fillItems_later ih plan ofPointers _ _ _ _)
      | _ =>
        rw [fillValue_plain (by rw [hmarshal]; rfl)]
        exact fillPlain_later set member _ place heap native
    · intro plan ofPointers id index place heap
      exact .refl heap
  | other value ho ha =>
    constructor
    · intro member place heap native
      cases hmarshal : member.marshal with
      | nested name | nestedArray name =>
        cases value with
        | object properties => exact absurd rfl (ho properties)
        | array items => exact absurd rfl (ha items)
        | _ =>
          simp only [PlanSet.fillValue, hmarshal]
          cases set.planOf? name <;> exact .refl heap
      | _ =>
        rw [fillValue_plain (by rw [hmarshal]; rfl)]
        exact fillPlain_later set member _ place heap native
    · intro plan ofPointers id index place heap
      cases value with
      | object properties => exact absurd rfl (ho properties)
      | _ => exact .refl heap

theorem decode_later (set : PlanSet) (plan : StructPlan) (input : HostValue)
    (next : Option Handle) (context : Context) :
    context.heap.Later (set.decode plan input next context).2.heap := by
  cases input with
  | object properties =>
    have hmembers : ∀ place (owner : StructPlan), Fill.Later (fillMembers
        (fun inner => set.fillProperty properties inner place) owner.members) :=
      fillProperties_later fun entry _ => fillsLater set entry.2
    unfold PlanSet.decode
    dsimp only
    split
    · exact hmembers _ plan _ _
    · exact (hmembers _ plan _ _).trans (releaseAll_later set _ _)
  | _ => exact .refl context.heap

end

/-- An operation on a context: one of its heap, or a decode or destroy with any plan. -/
inductive Operation where
  | alloc (block : HeapBlock)
  | allocCString (text : String)
  | store (id : BlockId) (value : NativeValue)
  | storeElement (id : BlockId) (index : Nat) (value : NativeValue)
  | free (id : BlockId) (kind : ReleaseKind)
  | decode (set : PlanSet) (plan : StructPlan) (input : HostValue) (next : Option Handle)
  | destroy (set : PlanSet) (plan : StructPlan) (native : NativeStruct)

namespace Context

def perform (context : Context) : Operation → Context
  | .alloc block => { context with heap := (context.heap.alloc block).2 }
  | .allocCString text => { context with heap := (context.heap.allocCString text).2 }
  | .store id value => { context with heap := context.heap.store id value }
  | .storeElement id index value =>
    { context with heap := context.heap.storeElement id index value }
  | .free id kind => { context with heap := (context.heap.free id kind).2 }
  | .decode set plan input next => (set.decode plan input next context).2
  | .destroy set plan native => { context with heap := set.destroy plan native context.heap }

def run (context : Context) (operations : List Operation) : Context :=
  operations.foldl perform context

theorem run_append (context : Context) (first second : List Operation) :
    context.run (first ++ second) = (context.run first).run second :=
  List.foldl_append

theorem perform_later (context : Context) (operation : Operation) :
    context.heap.Later (context.perform operation).heap := by
  cases operation with
  | alloc block => exact .alloc context.heap block
  | allocCString text => exact .alloc context.heap _
  | store id value => exact .store context.heap id value
  | storeElement id index value => exact .storeElement context.heap id index value
  | free id kind => exact .free context.heap id kind
  | decode set plan input next => exact decode_later set plan input next context
  | destroy set plan native => exact releaseAll_later set _ context.heap

/-- Whatever is done to a context, no id is given out twice and no released block comes back. -/
theorem run_later (context : Context) (operations : List Operation) :
    context.heap.Later (context.run operations).heap := by
  induction operations generalizing context with
  | nil => exact .refl context.heap
  | cons operation rest ih => exact (context.perform_later operation).trans (ih _)

end Context

end DescriptorMarshal
