import DescriptorMarshal.Proofs.Accounting
import Mathlib.Algebra.GroupWithZero.Nat

/-!
How much a decode allocates. The number of blocks that a host value calls for is defined by
recursion on the value and the plan, without a heap: one for a string, one for an array however
short, one for a structure behind a pointer, and none for what stands in place or is left out. A
decode that succeeds allocates exactly that many and releases none.
-/

namespace DescriptorMarshal

namespace PlanSet

variable (set : PlanSet)

mutual

/-- The blocks that a value calls for in the slot of a member. -/
def blocksFor : HostValue → Marshal → Nat
  | .object properties, .nested name byReference =>
    match set.planOf? name with
    | some plan => (if byReference then 1 else 0) +
        (plan.members.map fun member => blocksGiven properties member).sum
    | none => 0
  | .array items, .nestedArray name ofPointers =>
    match set.planOf? name with
    | some plan => 1 + (if ofPointers then items.length else 0) + blocksInItems items plan
    | none => 0
  | .array _, .unwrapArray _ | .array _, .enumerationArray _ | .array _, .bitmaskArray => 1
  | .string _, .string => 1
  | _, _ => 0

def blocksGiven : List (String × HostValue) → MemberPlan → Nat
  | [], _ => 0
  | (key, input) :: rest, member =>
    if key = member.name then
      if member.accepts input then blocksFor input member.marshal else 0
    else blocksGiven rest member

def blocksInside : HostValue → StructPlan → Nat
  | .object properties, plan => (plan.members.map fun member => blocksGiven properties member).sum
  | _, _ => 0

def blocksInItems : List HostValue → StructPlan → Nat
  | [], _ => 0
  | item :: rest, plan => blocksInside item plan + blocksInItems rest plan

end

theorem blocksGiven_eq (properties : List (String × HostValue)) (member : MemberPlan) :
    set.blocksGiven properties member =
      ((member.given? properties).map fun input => set.blocksFor input member.marshal).getD 0 := by
  induction properties with
  | nil => rfl
  | cons entry rest ih =>
    obtain ⟨key, input⟩ := entry
    rw [blocksGiven, MemberPlan.given?_cons]
    by_cases hk : key = member.name
    · rw [if_pos hk, if_pos hk]
      cases member.accepts input <;> rfl
    · rw [if_neg hk, if_neg hk, ih]

theorem blocksFor_nested {name : String} {plan : StructPlan} (h : set.planOf? name = some plan)
    (properties : List (String × HostValue)) (byReference : Bool) :
    set.blocksFor (.object properties) (.nested name byReference) =
      (if byReference then 1 else 0) + set.blocksInside (.object properties) plan := by
  rw [blocksFor, h, blocksInside]

theorem blocksFor_nestedArray {name : String} {plan : StructPlan}
    (h : set.planOf? name = some plan) (items : List HostValue) (ofPointers : Bool) :
    set.blocksFor (.array items) (.nestedArray name ofPointers) =
      1 + (if ofPointers then items.length else 0) + set.blocksInItems items plan := by
  rw [blocksFor, h]

end PlanSet

variable {set : PlanSet} {plan : StructPlan} {member : MemberPlan} {input : HostValue}
  {place : Place} {heap before middle after : Heap} {id : BlockId} {native : NativeStruct}
  {properties : List (String × HostValue)}

/-- `after` has so many blocks more than `before`, and otherwise the same accounts. -/
structure Heap.Grows (before : Heap) (count : Nat) (after : Heap) : Prop where
  slots : after.slots.length = before.slots.length + count
  allocations : after.allocations = before.allocations + count
  live : after.live = before.live + count
  frees : after.frees = before.frees
  faults : after.faults = before.faults

namespace Heap.Grows

theorem refl (heap : Heap) : heap.Grows 0 heap := ⟨rfl, rfl, rfl, rfl, rfl⟩

theorem trans {count more : Nat} (h : before.Grows count middle) (k : middle.Grows more after) :
    before.Grows (count + more) after where
  slots := by rw [k.slots, h.slots, Nat.add_assoc]
  allocations := by rw [k.allocations, h.allocations, Nat.add_assoc]
  live := by rw [k.live, h.live, Nat.add_assoc]
  frees := k.frees.trans h.frees
  faults := k.faults.trans h.faults

theorem alloc (heap : Heap) (block : HeapBlock) : heap.Grows 1 (heap.alloc block).2 where
  slots := length_slots_extend heap [block]
  allocations := rfl
  live := live_extend heap [block]
  frees := rfl
  faults := rfl

theorem setSlot {old : HeapBlock} (h : heap.get? id = some old) (block : HeapBlock) :
    heap.Grows 0 (heap.setSlot id (some block)) where
  slots := List.length_set
  allocations := rfl
  live := live_setSlot_some h block
  frees := rfl
  faults := rfl

theorem store (heap : Heap) (id : BlockId) (value : NativeValue) :
    heap.Grows 0 (heap.store id value) := by
  unfold Heap.store
  split
  · next hget => exact setSlot hget _
  · exact refl heap

theorem storeElement (heap : Heap) (id : BlockId) (index : Nat) (value : NativeValue) :
    heap.Grows 0 (heap.storeElement id index value) := by
  unfold Heap.storeElement
  split
  · next hget => exact setSlot hget _
  · exact refl heap

end Heap.Grows

/-- A way to fill a structure that allocates so many blocks whenever it comes to its end. -/
def Fill.Allocates (fill : Fill) (count : Nat) : Prop :=
  ∀ (heap : Heap) (native : NativeStruct), (fill heap native).error? = none →
    heap.Grows count (fill heap native).heap

theorem fillConverted_allocates (name : String) (converted : Except DecodeError NativeValue) :
    Fill.Allocates (fillConverted name converted) 0 := by
  intro heap native _
  cases converted <;> exact .refl heap

theorem fillElements_grows (convert : HostValue → Place → Except DecodeError NativeValue)
    (place : Place) (id : BlockId) (items : List HostValue) (index : Nat) (heap : Heap) :
    heap.Grows 0 (fillElements convert place id items index heap).1 := by
  induction items generalizing index heap with
  | nil => exact .refl heap
  | cons item rest ih =>
    rw [fillElements]
    cases convert item (place.element index) with
    | ok value => exact (Heap.Grows.storeElement heap id index value).trans (ih _ _)
    | error error => exact .refl heap

theorem fillArray_allocates {zero : NativeValue}
    {convert : HostValue → Place → Except DecodeError NativeValue} {items : List HostValue} :
    Fill.Allocates (fillArray member zero convert (.array items) place) 1 := by
  intro heap native _
  exact (Heap.Grows.alloc heap _).trans (fillElements_grows convert place _ items 0 _)

theorem fillPlain_allocates (hn : member.marshal.structName? = none) :
    Fill.Allocates (set.fillPlain member input place) (set.blocksFor input member.marshal) := by
  intro heap native h
  unfold PlanSet.fillPlain at h ⊢
  cases hmarshal : member.marshal with
  | nested | nestedArray =>
    rw [hmarshal] at hn
    cases hn
  | unwrap | number | boolean | enumeration | bitmask =>
    have hcount : set.blocksFor input member.marshal = 0 := by
      rw [hmarshal]
      cases input <;> rfl
    rw [hmarshal] at hcount h
    rw [hcount]
    exact fillConverted_allocates _ _ heap native h
  | unwrapArray | enumerationArray | bitmaskArray =>
    rw [hmarshal] at h
    cases input with
    | array items => exact fillArray_allocates heap native h
    | _ => cases h
  | string =>
    rw [hmarshal] at h
    cases input with
    | string text => exact .alloc heap _
    | _ => cases h
  | buffer kind =>
    have hcount : set.blocksFor input (.buffer kind) = 0 := by cases input <;> rfl
    rw [hcount]
    dsimp only
    cases convertBuffer kind input place <;> exact .refl heap

theorem fillMembers_allocates {fill : MemberPlan → Fill} {count : MemberPlan → Nat}
    (h : ∀ member, (fill member).Allocates (count member)) (members : List MemberPlan) :
    Fill.Allocates (fillMembers fill members) (members.map count).sum := by
  intro heap native hfilled
  induction members generalizing heap native with
  | nil => exact .refl heap
  | cons member rest ih =>
    rw [fillMembers] at hfilled ⊢
    rw [List.map_cons, List.sum_cons]
    cases herror : (fill member heap native).error? with
    | none =>
      rw [herror] at hfilled
      exact (h member heap native herror).trans (ih _ _ hfilled)
    | some error =>
      rw [herror] at hfilled
      rw [hfilled] at herror
      cases herror

/-- What filling from a host value allocates, in the slot of a member and as an item. -/
structure FillAllocates (set : PlanSet) (input : HostValue) : Prop where
  value : ∀ member place,
    Fill.Allocates (set.fillValue input member place) (set.blocksFor input member.marshal)
  item : ∀ plan ofPointers id index place heap,
    (set.fillItem input plan ofPointers id index place heap).2 = none →
      heap.Grows ((if ofPointers then 1 else 0) + set.blocksInside input plan)
        (set.fillItem input plan ofPointers id index place heap).1

theorem fillProperty_allocates (h : ∀ entry ∈ properties, FillAllocates set entry.2)
    (member : MemberPlan) (place : Place) :
    Fill.Allocates (set.fillProperty properties member place)
      (set.blocksGiven properties member) := by
  intro heap native
  rw [PlanSet.fillProperty_eq, PlanSet.blocksGiven_eq]
  cases hgiven : member.given? properties with
  | none =>
    intro _
    unfold fillAbsent
    cases member.presence <;> exact .refl heap
  | some input =>
    exact (h _ (MemberPlan.mem_of_given? hgiven)).value member _ heap native

theorem fillProperties_allocates (h : ∀ entry ∈ properties, FillAllocates set entry.2)
    (place : Place) (plan : StructPlan) :
    Fill.Allocates
      (fillMembers (fun inner => set.fillProperty properties inner place) plan.members)
      (set.blocksInside (.object properties) plan) := by
  rw [PlanSet.blocksInside]
  exact fillMembers_allocates (fun member => fillProperty_allocates h member place) plan.members

theorem fillItems_allocates {items : List HostValue} (h : ∀ item ∈ items, FillAllocates set item)
    {ofPointers : Bool} {index : Nat}
    (hf : (set.fillItems items plan ofPointers id index place heap).2 = none) :
    heap.Grows ((if ofPointers then items.length else 0) + set.blocksInItems items plan)
      (set.fillItems items plan ofPointers id index place heap).1 := by
  induction items generalizing index heap with
  | nil =>
    rw [List.length_nil, ite_self]
    exact .refl heap
  | cons item rest ih =>
    have hitem := (h item List.mem_cons_self).item plan ofPointers id index (place.element index)
      heap
    rw [PlanSet.fillItems] at hf ⊢
    split at hf
    · next middle hfill =>
      rw [hfill] at hitem
      have hrest := ih (fun other ho => h other (List.mem_cons_of_mem _ ho)) hf
      have hgrows := (hitem rfl).trans hrest
      rw [PlanSet.blocksInItems, List.length_cons]
      cases ofPointers with
      | false => simpa using hgrows
      | true =>
        have hcount : 1 + set.blocksInside item plan + (rest.length + set.blocksInItems rest plan) =
            rest.length + 1 + (set.blocksInside item plan + set.blocksInItems rest plan) := by omega
        rw [if_pos rfl, if_pos rfl, hcount] at hgrows
        exact hgrows
    · cases hf

theorem fillValue_allocates_plain (hn : member.marshal.structName? = none) :
    Fill.Allocates (set.fillValue input member place) (set.blocksFor input member.marshal) := by
  intro heap native h
  rw [fillValue_plain hn] at h ⊢
  exact fillPlain_allocates hn heap native h

theorem fillNested_allocates (h : ∀ entry ∈ properties, FillAllocates set entry.2) {name : String}
    {byReference : Bool} (hm : member.marshal = .nested name byReference) :
    Fill.Allocates (set.fillValue (.object properties) member place)
      (set.blocksFor (.object properties) member.marshal) := by
  intro heap native hf
  have hmembers := fillProperties_allocates h
  simp only [PlanSet.fillValue, hm] at hf ⊢
  cases hplan : set.planOf? name with
  | none =>
    rw [hplan] at hf
    cases hf
  | some plan =>
    simp only [hplan] at hf ⊢
    rw [set.blocksFor_nested hplan]
    cases byReference with
    | false =>
      simp only [Bool.false_eq_true, if_false, Nat.zero_add] at hf ⊢
      exact hmembers place plan heap _ hf
    | true =>
      simp only [if_true] at hf ⊢
      have hfilled := (Heap.Grows.alloc heap _).trans (hmembers place plan _ _ hf)
      exact hfilled.trans (.store _ _ _)

theorem fillNestedArray_allocates {items : List HostValue}
    (h : ∀ item ∈ items, FillAllocates set item) {name : String} {ofPointers : Bool}
    (hm : member.marshal = .nestedArray name ofPointers) :
    Fill.Allocates (set.fillValue (.array items) member place)
      (set.blocksFor (.array items) member.marshal) := by
  intro heap native hf
  simp only [PlanSet.fillValue, hm] at hf ⊢
  cases hplan : set.planOf? name with
  | none =>
    rw [hplan] at hf
    cases hf
  | some plan =>
    simp only [hplan] at hf ⊢
    rw [set.blocksFor_nestedArray hplan, Nat.add_assoc]
    exact (Heap.Grows.alloc heap _).trans (fillItems_allocates h hf)

theorem fillItem_allocates (h : ∀ entry ∈ properties, FillAllocates set entry.2)
    {ofPointers : Bool} {index : Nat}
    (hf : (set.fillItem (.object properties) plan ofPointers id index place heap).2 = none) :
    heap.Grows ((if ofPointers then 1 else 0) + set.blocksInside (.object properties) plan)
      (set.fillItem (.object properties) plan ofPointers id index place heap).1 := by
  have hmembers := fillProperties_allocates h
  rw [PlanSet.fillItem] at hf ⊢
  cases ofPointers with
  | false =>
    simp only [Bool.false_eq_true, if_false, Nat.zero_add] at hf ⊢
    exact (hmembers place plan heap _ hf).trans (.storeElement _ _ _ _)
  | true =>
    simp only [if_true] at hf ⊢
    have hplaced := (Heap.Grows.storeElement _ _ _ _).trans (hmembers place plan _ _ hf)
    rw [Nat.zero_add] at hplaced
    exact ((Heap.Grows.alloc heap _).trans hplaced).trans (.store _ _ _)

theorem fillAllocates (set : PlanSet) (input : HostValue) : FillAllocates set input := by
  induction input using HostValue.induct with
  | object properties ih =>
    constructor
    · intro member place
      cases hmarshal : member.marshal with
      | nested => exact hmarshal ▸ fillNested_allocates ih hmarshal
      | nestedArray name =>
        intro heap native h
        simp only [PlanSet.fillValue, hmarshal] at h
        cases hplan : set.planOf? name <;> rw [hplan] at h <;> cases h
      | _ =>
        refine hmarshal ▸ fillValue_allocates_plain ?_
        rw [hmarshal]
        rfl
    · intro plan ofPointers id index place heap
      exact fillItem_allocates ih
  | array items ih =>
    constructor
    · intro member place
      cases hmarshal : member.marshal with
      | nested name =>
        intro heap native h
        simp only [PlanSet.fillValue, hmarshal] at h
        cases hplan : set.planOf? name <;> rw [hplan] at h <;> cases h
      | nestedArray => exact hmarshal ▸ fillNestedArray_allocates ih hmarshal
      | _ =>
        refine hmarshal ▸ fillValue_allocates_plain ?_
        rw [hmarshal]
        rfl
    · intro plan ofPointers id index place heap h
      cases h
  | other value ho ha =>
    constructor
    · intro member place
      cases hmarshal : member.marshal with
      | nested name | nestedArray name =>
        intro heap native h
        cases value with
        | object properties => exact absurd rfl (ho properties)
        | array items => exact absurd rfl (ha items)
        | _ =>
          simp only [PlanSet.fillValue, hmarshal] at h
          cases hplan : set.planOf? name <;> rw [hplan] at h <;> cases h
      | _ =>
        refine hmarshal ▸ fillValue_allocates_plain ?_
        rw [hmarshal]
        rfl
    · intro plan ofPointers id index place heap h
      cases value with
      | object properties => exact absurd rfl (ho properties)
      | _ => cases h

/-- A decode that succeeds allocates exactly the blocks that the value calls for, all of which stay
live, and releases none. -/
theorem decode_allocates {next : Option Handle} {context context' : Context}
    (h : set.decode plan input next context = (.ok native, context')) :
    context.heap.Grows (set.blocksInside input plan) context'.heap := by
  cases input with
  | object properties =>
    have hinner : ∀ entry ∈ properties, FillAllocates set entry.2 :=
      fun entry _ => fillAllocates set entry.2
    have hmembers := fillProperties_allocates hinner ⟨plan.externalName, ""⟩ plan
    unfold PlanSet.decode at h
    dsimp only at h
    split at h
    · next herror =>
      cases h
      exact hmembers _ _ herror
    · cases h
  | _ => cases h

def shelfDocument : Idl.Document :=
  labelDocument ++ [("shelf", .object [("category", .string "structure"), ("members", .array [
    .object [("name", .string "cover"), ("type", .string "label")],
    .object [("name", .string "note"), ("type", .string "label"),
      ("annotation", .string "const*"), ("optional", .bool true)],
    .object [("name", .string "length"), ("type", .string "uint32_t")],
    .object [("name", .string "books"), ("type", .string "label"),
      ("annotation", .string "const*"), ("length", .string "length")],
    .object [("name", .string "cards"), ("type", .string "label"),
      ("annotation", .string "const*const*"), ("length", .string "length")]])])]

def shelfPlan : StructPlan where
  name := "WGPUShelf"
  externalName := "GPUShelf"
  extensible := false
  members := [⟨"cover", .required, .nested "WGPULabel" false, .embedded, none, "WGPULabel"⟩,
    ⟨"note", .optional, .nested "WGPULabel" true, .owned, none, "WGPULabel"⟩,
    ⟨"books", .required, .nestedArray "WGPULabel" false, .arrayOwned, some ⟨"length", .u32⟩,
      "WGPULabel"⟩,
    ⟨"cards", .required, .nestedArray "WGPULabel" true, .arrayOfPointersOwned,
      some ⟨"length", .u32⟩, "WGPULabel"⟩]
  fields := [⟨"cover", "WGPULabel", .embedded "WGPULabel"⟩, ⟨"note", "WGPULabel", .null⟩,
    ⟨"length", "uint32_t", .number .u32 (.integer 0)⟩, ⟨"books", "WGPULabel", .null⟩,
    ⟨"cards", "WGPULabel", .null⟩]

def shelfPlans : PlanSet :=
  ⟨[labelPlan, shelfPlan], [], [("GPULabel", "WGPULabel"), ("GPUShelf", "WGPUShelf")]⟩

theorem shelf_bindings : ∃ schema,
    Bindings.ofDocument .standard shelfDocument = .ok ⟨schema, shelfPlans⟩ := by
  obtain ⟨schema, hs, hplans, htables⟩ : ∃ schema,
      assemble .standard shelfDocument = .ok schema ∧
        schema.structures.mapM (buildPlan schema) = .ok shelfPlans.plans ∧
          (schema.enums ++ schema.bitmasks).map NameTable.ofValueSet = shelfPlans.tables :=
    ⟨_, rfl, rfl, rfl⟩
  have hcheck : checkEmbedding shelfPlans.plans = .ok () := by
    simp [checkEmbedding, Embedding.check, Embedding.walk, Embedding.enter, Embedding.isOpen,
      shelfPlans, shelfPlan, labelPlan, bind, Except.bind, pure, Except.pure]
  exact ⟨schema, Bindings.ofDocument_of_parts hs hplans htables rfl hcheck⟩

def shelfWhole : HostValue := .object [("cover", labelWhole),
  ("books", .array [labelWhole, labelWhole]), ("cards", .array [labelWhole, labelWhole])]

/-- One block for the text of the cover, three for the books and five for the cards. -/
theorem shelf_allocates : ∃ bindings native after,
    Bindings.ofDocument .standard shelfDocument = .ok bindings ∧
    bindings.plans.decode shelfPlan shelfWhole none .empty = (.ok native, after) ∧
    after.heap.allocations = 9 ∧ after.heap.live = 9 ∧ after.heap.frees = 0 := by
  obtain ⟨schema, hb⟩ := shelf_bindings
  obtain ⟨native, after, he⟩ : ∃ native after,
      shelfPlans.decode shelfPlan shelfWhole none .empty = (.ok native, after) := ⟨_, _, rfl⟩
  have hgrows := decode_allocates he
  have hcount : shelfPlans.blocksInside shelfWhole shelfPlan = 9 := rfl
  rw [hcount] at hgrows
  exact ⟨_, native, after, hb, he, hgrows.allocations, hgrows.live, hgrows.frees⟩

end DescriptorMarshal
