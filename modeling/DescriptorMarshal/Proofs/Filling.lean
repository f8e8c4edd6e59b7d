import DescriptorMarshal.Proofs.Attachment

/-!
What filling does, for every marshaling operation and every host value. All blocks are allocated
behind those that were there, and every later write goes to a block of the value that is being
filled; the heap before it is never touched.
-/

namespace DescriptorMarshal

variable {set : PlanSet} {plan : StructPlan} {member : MemberPlan} {layout : Layout}
  {heap : Heap} {input : HostValue} {place : Place} {value : NativeValue}

/-- Does the slot of a member hold the value itself? -/
def Marshal.isPlain : Marshal → Bool
  | .unwrap _ | .number _ | .boolean | .enumeration _ | .bitmask | .buffer _ => true
  | _ => false

theorem isScalar_ofDouble (type : NumberType) (x : Binary64) :
    (NativeValue.ofDouble type x).isScalar = true := by
  cases type <;> rfl

namespace PlanSet

theorem isScalar_scalarOf (set : PlanSet) (marshal : Marshal) (input : HostValue) :
    (set.scalarOf marshal input).isScalar = true := by
  unfold scalarOf
  split
  all_goals first | rfl | exact isScalar_ofDouble _ _

theorem imageOf_of_isPlain {marshal : Marshal} (h : marshal.isPlain = true) :
    set.imageOf input marshal = (set.scalarOf marshal input).tree := by
  cases marshal <;> cases h <;> cases input <;> rfl

end PlanSet

theorem convertWrapped_ok {className : String}
    (h : convertWrapped className input place = .ok value) :
    value = set.scalarOf (.unwrap className) input := by
  unfold convertWrapped at h
  split at h
  · split at h <;> cases h
    rfl
  · cases h

theorem convertName_ok {name : String} (h : set.convertName name input place = .ok value) :
    value = set.scalarOf (.enumeration name) input := by
  unfold PlanSet.convertName at h
  split at h
  · split at h
    · next table htable =>
      split at h
      · next bits hbits =>
        cases h
        simp [PlanSet.scalarOf, htable, hbits]
      · cases h
    · cases h
  · cases h

theorem convertBits_ok (h : convertBits input place = .ok value) :
    value = set.scalarOf .bitmask input := by
  unfold convertBits at h
  split at h <;> cases h
  rfl

theorem convertBoolean_ok (h : convertBoolean input place = .ok value) :
    value = set.scalarOf .boolean input := by
  unfold convertBoolean at h
  split at h <;> cases h
  rfl

theorem convertNumber_ok {type : NumberType} (h : convertNumber type input place = .ok value) :
    value = set.scalarOf (.number type) input := by
  unfold convertNumber at h
  split at h
  · cases h
    rfl
  · split at h <;> cases h
    rfl
  · split at h <;> cases h
    rfl
  · cases h

theorem convertBuffer_ok {kind : Option ArrayKind} {view : BufferView}
    (h : convertBuffer kind input place = .ok view) :
    .buffer view = set.scalarOf (.buffer kind) input := by
  unfold convertBuffer at h
  split at h
  · split at h <;> cases h
    rfl
  · cases h
    rfl
  · cases h
  · cases h

/-- What a member expects of the plans around it. -/
structure MemberPlan.Sound (set : PlanSet) (member : MemberPlan) : Prop where
  ownership : member.ownership = member.marshal.ownership
  closed : ∀ name, member.marshal.structName? = some name →
    ∃ nested, set.planOf? name = some nested

theorem PlanSet.Coherent.sound (hs : set.Coherent) (hp : plan ∈ set.plans)
    (hm : member ∈ plan.members) : member.Sound set :=
  ⟨(hs.plans plan hp).ownership member hm, hs.closed plan hp member hm⟩

namespace MemberFilled

variable {given : Option (Tree Unit)}

theorem of_scalar (hv : value.isScalar = true) (hg : given = some value.tree) :
    MemberFilled set member given heap layout
      ⟨heap, (layout.attach member value.tree).native, none⟩ := by
  have ht : (value.tree : Tree BlockId) = .scalar ⟨value, hv⟩ := NativeValue.tree_of_isScalar hv
  have := @MemberFilled.attached set member given heap layout value.tree [] none
    (by rw [ht]; exact .scalar) (by rw [ht]; exact List.Perm.refl _)
    (fun _ => by rw [hg, NativeValue.image_tree])
  rwa [Heap.extend_nil] at this

end MemberFilled

theorem count?_scalarOf {marshal : Marshal} (hb : ∀ kind, marshal ≠ .buffer kind) :
    ((set.scalarOf marshal input).tree : Tree BlockId).count? = none := by
  unfold PlanSet.scalarOf
  split
  case h_8 | h_9 => exact (hb _ rfl).elim
  case h_2 type x => cases type <;> rfl
  all_goals rfl

theorem fillConverted_filled {marshal : Marshal} {converted : Except DecodeError NativeValue}
    (hm : marshal.isPlain = true) (hb : ∀ kind, marshal ≠ .buffer kind)
    (hc : ∀ value, converted = .ok value → value = set.scalarOf marshal input) :
    MemberFilled set member (some (set.imageOf input marshal)) heap layout
      (fillConverted member.name converted heap layout.native) := by
  cases converted with
  | error error => exact .refused
  | ok value =>
    obtain rfl := hc value rfl
    have hv := set.isScalar_scalarOf marshal input
    have := @MemberFilled.of_scalar set member layout heap _ _ hv
      (congrArg some (PlanSet.imageOf_of_isPlain hm))
    rwa [StructTree.native_attach, count?_scalarOf hb,
      NativeValue.native_tree _ (NativeValue.pointers_of_isScalar hv)] at this

theorem fillBuffer_filled {kind : Option ArrayKind} {view : BufferView}
    (hc : .buffer view = set.scalarOf (.buffer kind) input) :
    MemberFilled set member (some (set.imageOf input (.buffer kind))) heap layout
      ⟨heap, member.setLength (layout.native.set member.name (.buffer view)) view.length,
        none⟩ := by
  have := @MemberFilled.of_scalar set member layout heap (.buffer view) _ rfl
    (congrArg some ((PlanSet.imageOf_of_isPlain rfl).trans (by rw [← hc])))
  rwa [StructTree.native_attach] at this

/-! ### Arrays of converted values -/

theorem set_append_replicate (done : List NativeValue) (count : Nat) (zero value : NativeValue) :
    (done ++ List.replicate (count + 1) zero).set done.length value =
      (done ++ [value]) ++ List.replicate count zero := by
  rw [List.set_append_right _ _ (Nat.le_refl _), Nat.sub_self, List.replicate_succ,
    List.set_cons_zero, List.append_assoc, List.singleton_append]

/-- Converting items into a block whose first elements are `done`. The block is the last one
allocated, so nothing else is written to. -/
theorem fillElements_spec {convert : HostValue → Place → Except DecodeError NativeValue}
    {element : Marshal} {zero : NativeValue} (hz : zero.isScalar = true)
    (hc : ∀ input place value, convert input place = .ok value →
      value = set.scalarOf element input)
    (items : List HostValue) (done : List NativeValue) :
    ∃ rest error?, fillElements convert place ⟨heap.slots.length + 1⟩ items done.length
        (heap.extend [.array (done ++ List.replicate items.length zero)]) =
          (heap.extend [.array (done ++ rest)], error?) ∧
      rest.length = items.length ∧ (∀ value ∈ rest, value.isScalar = true) ∧
      (error? = none → rest = items.map (set.scalarOf element)) := by
  induction items generalizing done with
  | nil => exact ⟨[], none, rfl, rfl, nofun, fun _ => rfl⟩
  | cons item items ih =>
    rw [fillElements]
    cases hi : convert item (place.element done.length) with
    | error error =>
      refine ⟨List.replicate (items.length + 1) zero, some error, rfl, by simp, ?_, nofun⟩
      intro value hv
      rwa [List.eq_of_mem_replicate hv]
    | ok value =>
      obtain rfl := hc item _ value hi
      obtain ⟨rest, error?, he, hlen, hs, hr⟩ := ih (done ++ [set.scalarOf element item])
      refine ⟨set.scalarOf element item :: rest, error?, ?_, by simp [hlen], ?_, ?_⟩
      · rw [List.length_append, List.length_singleton] at he
        dsimp only
        rw [Heap.storeElement_extend_next, List.length_cons, set_append_replicate, he,
          List.append_assoc, List.singleton_append]
      · intro value hv
        rcases List.mem_cons.mp hv with rfl | hv
        · exact set.isScalar_scalarOf element item
        · exact hs value hv
      · intro h
        rw [hr h, List.map_cons]

theorem MemberFilled.of_array {items : List (Tree BlockId)} {more : List HeapBlock}
    {error? : Option DecodeError} {given : Option (Tree Unit)}
    (ho : Owned set member.ownership (set.nestedPlan? member.marshal)
      (.array ⟨heap.slots.length + 1⟩ items))
    (hf : (items.flatMap Tree.blocks).Perm (Heap.numbered (heap.slots.length + 1) more))
    (hg : error? = none → given = some (.array () (items.map Tree.image))) :
    MemberFilled set member given heap layout
      ⟨heap.extend (.array (items.map Tree.native) :: more),
        member.setLength (layout.native.set member.name (.pointer ⟨heap.slots.length + 1⟩))
          items.length, error?⟩ := by
  have := @MemberFilled.attached set member given heap layout _
    (.array (items.map Tree.native) :: more) error? ho
    (by rw [Tree.blocks_array]; exact hf.cons _)
    (fun h => by rw [Tree.image_array, hg h])
  rwa [StructTree.native_attach] at this

theorem native_map_tree {values : List NativeValue} (h : ∀ value ∈ values, value.isScalar = true) :
    (values.map NativeValue.tree : List (Tree BlockId)).map Tree.native = values := by
  rw [List.map_map]
  have hnative : ∀ value ∈ values, (value.tree : Tree BlockId).native = value := by
    intro value hv
    exact NativeValue.native_tree value (NativeValue.pointers_of_isScalar (h value hv))
  exact (List.map_congr_left hnative).trans (List.map_id _)

theorem blocks_map_tree (values : List NativeValue) :
    (values.map NativeValue.tree : List (Tree BlockId)).flatMap Tree.blocks = [] := by
  apply List.flatMap_eq_nil_iff.mpr
  intro tree ht
  obtain ⟨value, -, rfl⟩ := List.mem_map.mp ht
  exact NativeValue.blocks_tree value

theorem fillArray_filled (zero : NativeValue)
    {convert : HostValue → Place → Except DecodeError NativeValue} {marshal element : Marshal}
    (hz : zero.isScalar = true)
    (hc : ∀ input place value, convert input place = .ok value →
      value = set.scalarOf element input)
    (he : marshal.element? = some element) (hp : element.isPlain = true)
    (ho : member.ownership = .arrayOwned) :
    MemberFilled set member (some (set.imageOf input marshal)) heap layout
      (fillArray member zero convert input place heap layout.native) := by
  cases input with
  | array items =>
    obtain ⟨values, error?, hfill, hlen, hs, hr⟩ := @fillElements_spec set heap place convert
      element zero hz hc items []
    rw [List.nil_append, List.nil_append, List.length_nil] at hfill
    have howned : Owned set member.ownership (set.nestedPlan? member.marshal)
        (.array ⟨heap.slots.length + 1⟩ (values.map NativeValue.tree)) := by
      rw [ho]
      refine .array ?_
      intro tree ht
      obtain ⟨value, hv, rfl⟩ := List.mem_map.mp ht
      rw [NativeValue.tree_of_isScalar (hs value hv)]
      exact .scalar
    have hfound : ((values.map NativeValue.tree : List (Tree BlockId)).flatMap Tree.blocks).Perm
        (Heap.numbered (heap.slots.length + 1) []) := by
      rw [blocks_map_tree]
      exact List.Perm.refl _
    have hreads : error? = none → some (set.imageOf (.array items) marshal) =
        some (.array () ((values.map NativeValue.tree : List (Tree BlockId)).map Tree.image)) := by
      intro h
      rw [PlanSet.imageOf, he]
      dsimp only
      rw [PlanSet.imagesOf_eq, hr h, List.map_map, List.map_map]
      refine congrArg (fun items => some (Tree.array () items)) (List.map_congr_left ?_)
      intro item _
      rw [PlanSet.imageOf_of_isPlain hp]
      exact (NativeValue.image_tree _).symm
    have hfilled := @MemberFilled.of_array set member layout heap _ [] error? _ howned hfound hreads
    rw [native_map_tree hs, List.length_map, hlen] at hfilled
    simp only [fillArray, MemberPlan.attach, Heap.alloc_eq, List.length_replicate, hfill]
    exact hfilled
  | _ => exact .refused

theorem fillPlain_filled (hm : member.Sound set) (hn : member.marshal.structName? = none) :
    MemberFilled set member (some (set.imageOf input member.marshal)) heap layout
      (set.fillPlain member input place heap layout.native) := by
  have ho := hm.ownership
  unfold PlanSet.fillPlain
  cases hmarshal : member.marshal with
  | nested | nestedArray =>
    rw [hmarshal] at hn
    cases hn
  | unwrap className => exact fillConverted_filled rfl nofun fun _ => convertWrapped_ok
  | number type => exact fillConverted_filled rfl nofun fun _ => convertNumber_ok
  | boolean => exact fillConverted_filled rfl nofun fun _ => convertBoolean_ok
  | enumeration name => exact fillConverted_filled rfl nofun fun _ => convertName_ok
  | bitmask => exact fillConverted_filled rfl nofun fun _ => convertBits_ok
  | unwrapArray className =>
    exact fillArray_filled .null rfl (fun _ _ _ => convertWrapped_ok) rfl rfl
      (by rw [ho, hmarshal]; rfl)
  | enumerationArray name =>
    exact fillArray_filled (.enumeration 0) rfl (fun _ _ _ => convertName_ok) rfl rfl
      (by rw [ho, hmarshal]; rfl)
  | bitmaskArray =>
    exact fillArray_filled (.bitmask 0) rfl (fun _ _ _ => convertBits_ok) rfl rfl
      (by rw [ho, hmarshal]; rfl)
  | string =>
    cases input with
    | string text =>
      have := @MemberFilled.attached set member (some (set.imageOf (.string text) .string)) heap
        layout (.cString ⟨heap.slots.length + 1⟩ (Heap.cStringBytes text))
        [.cString (Heap.cStringBytes text)] none
        (by rw [ho, hmarshal]; exact .cString) (List.Perm.refl _) (fun _ => rfl)
      rwa [StructTree.native_attach] at this
    | _ => exact .refused
  | buffer kind =>
    dsimp only
    cases hc : convertBuffer kind input place with
    | ok view => exact fillBuffer_filled (convertBuffer_ok hc)
    | error error => exact .refused

/-! ### Structures -/

theorem PlanSet.Coherent.reset_next (hs : set.Coherent) (hp : plan ∈ set.plans) :
    { set.reset plan with nextInChain := none } = set.reset plan := by
  rw [hs.reset_eq hp]

theorem PlanSet.fillProperty_eq (set : PlanSet) (properties : List (String × HostValue))
    (member : MemberPlan) (place : Place) (heap : Heap) (native : NativeStruct) :
    set.fillProperty properties member place heap native =
      match member.given? properties with
      | some input => set.fillValue input member (place.member member.name) heap native
      | none => fillAbsent member (place.member member.name) heap native := by
  induction properties with
  | nil =>
    rw [fillProperty]
    rfl
  | cons entry rest ih =>
    obtain ⟨key, input⟩ := entry
    rw [fillProperty, MemberPlan.given?_cons]
    by_cases hk : key = member.name
    · rw [if_pos hk, if_pos hk]
      cases member.accepts input <;> rfl
    · rw [if_neg hk, if_neg hk, ih]

def PropertiesFill (set : PlanSet) (properties : List (String × HostValue)) : Prop :=
  ∀ plan ∈ set.plans, ∀ place heap next,
    StructFilled set plan (set.structImage plan next (set.imageGiven properties)) heap
      (fillMembers (fun inner => set.fillProperty properties inner place) plan.members heap
        { set.reset plan with nextInChain := next })

/-- What filling from a host value does to the slot of a member and to a structure. -/
structure Fills (set : PlanSet) (input : HostValue) : Prop where
  slot : ∀ member, member.Sound set → ∀ place heap layout, Pending set member layout →
    MemberFilled set member (some (set.imageOf input member.marshal)) heap layout
      (set.fillValue input member place heap layout.native)
  struct : ∀ properties, input = .object properties → PropertiesFill set properties

theorem fillProperty_filled {properties : List (String × HostValue)}
    (h : ∀ entry ∈ properties, Fills set entry.2) (hm : member.Sound set)
    (hp : Pending set member layout) :
    MemberFilled set member (set.imageGiven properties member) heap layout
      (set.fillProperty properties member place heap layout.native) := by
  rw [set.fillProperty_eq, set.imageGiven_eq]
  cases hg : member.given? properties with
  | some input => exact (h _ (MemberPlan.mem_of_given? hg)).slot member hm _ heap layout hp
  | none =>
    dsimp only [Option.map_none]
    unfold fillAbsent
    cases member.presence with
    | optional => exact .unchanged fun _ => rfl
    | required => exact .refused

theorem properties_fill {properties : List (String × HostValue)} (hs : set.Coherent)
    (h : ∀ entry ∈ properties, Fills set entry.2) : PropertiesFill set properties :=
  fun _ hp _ heap next => hs.fillMembers_reset hp next heap fun _ hm _ _ =>
    fillProperty_filled h (hs.sound hp hm)

theorem StructFilled.stored {image : Image} {fresh : NativeValue} {filled : Filled}
    (h : StructFilled set plan image (heap.extend [.single fresh]) filled) :
    ∃ layout more, OwnedStruct set plan layout ∧
      filled.heap.store ⟨heap.slots.length + 1⟩ (.struct filled.native) =
        heap.extend (.single (.struct layout.native) :: more) ∧
      (Tree.single ⟨heap.slots.length + 1⟩ layout).blocks.Perm
        (Heap.numbered heap.slots.length (.single (.struct layout.native) :: more)) ∧
      (filled.error? = none → layout.image = image) := by
  cases h with
  | @intro layout more error? owned found reads =>
    refine ⟨layout, more, owned, ?_, ?_, reads⟩
    · rw [Heap.extend_extend, List.singleton_append, Heap.store_extend_next]
    · rw [Heap.length_slots_extend, List.length_singleton] at found
      exact found.cons _

/-! ### Arrays of structures -/

def PlanSet.zeroItem (set : PlanSet) (plan : StructPlan) (ofPointers : Bool) : Tree BlockId :=
  if ofPointers then NativeValue.null.tree else .struct (set.resetLayout plan none)

def itemOwnership (ofPointers : Bool) : Ownership := if ofPointers then .owned else .embedded

variable {ofPointers : Bool} {blocks : List HeapBlock} {item : HostValue} {name : String}

namespace PlanSet.Coherent

theorem native_zeroItem (hs : set.Coherent) (hp : plan ∈ set.plans) :
    (set.zeroItem plan ofPointers).native =
      if ofPointers then .null else .struct (set.reset plan) := by
  cases ofPointers with
  | true => rfl
  | false =>
    simp only [zeroItem, Bool.false_eq_true, if_false, Tree.native_struct]
    rw [hs.native_resetLayout hp, hs.reset_next hp]

theorem owned_zeroItem (hs : set.Coherent) (hp : plan ∈ set.plans) :
    Owned set (itemOwnership ofPointers) (some plan) (set.zeroItem plan ofPointers) := by
  cases ofPointers with
  | true => exact .scalar
  | false => exact .embedded (hs.owned_resetLayout hp none)

theorem owned_zeroItems (hs : set.Coherent) (hp : plan ∈ set.plans)
    (count : Nat) : ∀ tree ∈ List.replicate count (set.zeroItem plan ofPointers),
      Owned set (itemOwnership ofPointers) (some plan) tree := by
  intro tree ht
  rw [List.eq_of_mem_replicate ht]
  exact hs.owned_zeroItem hp

end PlanSet.Coherent

theorem PlanSet.blocks_zeroItem (set : PlanSet) (plan : StructPlan) (ofPointers : Bool) :
    (set.zeroItem plan ofPointers).blocks = [] := by
  cases ofPointers with
  | true => rfl
  | false => exact set.blocks_resetLayout plan none

theorem PlanSet.blocks_zeroItems (set : PlanSet) (plan : StructPlan) (ofPointers : Bool)
    (count : Nat) :
    (List.replicate count (set.zeroItem plan ofPointers)).flatMap Tree.blocks = [] := by
  apply List.flatMap_eq_nil_iff.mpr
  intro tree ht
  rw [List.eq_of_mem_replicate ht, set.blocks_zeroItem]

/-- What filling one element of the array block that `heap` was extended with does. -/
inductive ItemFilled (set : PlanSet) (plan : StructPlan) (ofPointers : Bool) (image : Tree Unit)
    (heap : Heap) (values : List NativeValue) (blocks : List HeapBlock) (index : Nat) :
    Heap × Option DecodeError → Prop where
  | intro {tree : Tree BlockId} {more error?}
    (owned : Owned set (itemOwnership ofPointers) (some plan) tree)
    (found : tree.blocks.Perm (Heap.numbered (heap.slots.length + 1 + blocks.length) more))
    (reads : error? = none → tree.image = image) :
    ItemFilled set plan ofPointers image heap values blocks index
      (heap.extend (.array (values.set index tree.native) :: (blocks ++ more)), error?)

theorem ItemFilled.refused {values : List NativeValue} {index : Nat} {image : Tree Unit}
    (hs : set.Coherent) (hp : plan ∈ set.plans)
    (hv : values[index]? = some (set.zeroItem plan ofPointers).native) (error : DecodeError) :
    ItemFilled set plan ofPointers image heap values blocks index
      (heap.extend (.array values :: blocks), some error) := by
  have hsame : values.set index (set.zeroItem plan ofPointers).native = values := by
    obtain ⟨hlt, hget⟩ := List.getElem?_eq_some_iff.mp hv
    rw [← hget, List.set_getElem_self]
  have hfound : (set.zeroItem plan ofPointers).blocks.Perm
      (Heap.numbered (heap.slots.length + 1 + blocks.length) []) := by
    rw [set.blocks_zeroItem]
    exact List.Perm.refl _
  have := @ItemFilled.intro set plan ofPointers image heap values blocks index _ [] (some error)
    (hs.owned_zeroItem hp) hfound nofun
  rwa [hsame, List.append_nil] at this

theorem fillItem_inPlace {properties : List (String × HostValue)} {values : List NativeValue}
    {index : Nat} (hs : set.Coherent) (hn : set.planOf? name = some plan)
    (hi : PropertiesFill set properties) :
    ItemFilled set plan false (set.imageOf (.object properties) (.nested name false)) heap values
      blocks index (set.fillItem (.object properties) plan false ⟨heap.slots.length + 1⟩ index
        place (heap.extend (.array values :: blocks))) := by
  have hp := PlanSet.planOf?_mem hn
  have hfilled := hi plan hp place
    (heap.extend (.array values :: blocks)) none
  rw [hs.reset_next hp] at hfilled
  rw [PlanSet.fillItem, if_neg Bool.false_ne_true]
  dsimp only
  generalize fillMembers _ plan.members _ (set.reset plan) = filled at hfilled ⊢
  cases hfilled with
  | @intro layout more error? owned found reads =>
    rw [Heap.extend_extend, List.cons_append, Heap.storeElement_extend_next]
    refine @ItemFilled.intro set plan false _ heap values blocks index (.struct layout) more error?
      (.embedded owned) ?_ ?_
    · rw [Heap.length_slots_extend, List.length_cons] at found
      rw [Tree.blocks_struct, Nat.add_right_comm]
      exact found
    · intro h
      rw [Tree.image_struct, reads h, set.imageOf_nested hn]
      rfl

theorem fillItem_pointed {properties : List (String × HostValue)} {values : List NativeValue}
    {index : Nat} (hs : set.Coherent) (hn : set.planOf? name = some plan)
    (hi : PropertiesFill set properties) :
    ItemFilled set plan true (set.imageOf (.object properties) (.nested name true)) heap values
      blocks index (set.fillItem (.object properties) plan true ⟨heap.slots.length + 1⟩ index
        place (heap.extend (.array values :: blocks))) := by
  have hp := PlanSet.planOf?_mem hn
  let element : BlockId := ⟨(heap.extend (.array values :: blocks)).slots.length + 1⟩
  let heap' := heap.extend (.array (values.set index (.pointer element)) :: blocks)
  have hlen : heap'.slots.length = (heap.extend (.array values :: blocks)).slots.length := by
    simp [heap']
  have hpointed : ((heap.extend (.array values :: blocks)).extend
      [.single (.struct (set.reset plan))]).storeElement ⟨heap.slots.length + 1⟩ index
        (.pointer element) = heap'.extend [.single (.struct (set.reset plan))] := by
    rw [Heap.extend_extend, List.cons_append, Heap.storeElement_extend_next,
      Heap.extend_extend, List.cons_append]
  have hstored := (hi plan hp place
    (heap'.extend [.single (.struct (set.reset plan))]) none).stored
  rw [hs.reset_next hp, hlen] at hstored
  obtain ⟨layout, more, howned, hstore, hfound, hreads⟩ := hstored
  rw [PlanSet.fillItem, if_pos rfl]
  simp only [Heap.alloc_eq]
  rw [hpointed, hstore, Heap.extend_extend, List.cons_append]
  refine @ItemFilled.intro set plan true _ heap values blocks index (.single element layout)
    (.single (.struct layout.native) :: more) _ (.owned howned) ?_ ?_
  · have hstart : (heap.extend (.array values :: blocks)).slots.length =
        heap.slots.length + 1 + blocks.length := by
      rw [Heap.length_slots_extend, List.length_cons, Nat.add_right_comm]
      rfl
    rw [← hstart]
    exact hfound
  · intro h
    rw [Tree.image_single, hreads h, set.imageOf_nested hn]
    rfl

theorem fillItem_filled {values : List NativeValue} {index : Nat} (hs : set.Coherent)
    (hn : set.planOf? name = some plan) (hi : Fills set item)
    (hv : values[index]? = some (set.zeroItem plan ofPointers).native) :
    ItemFilled set plan ofPointers (set.imageOf item (.nested name ofPointers)) heap values blocks
      index (set.fillItem item plan ofPointers ⟨heap.slots.length + 1⟩ index place
        (heap.extend (.array values :: blocks))) := by
  cases item with
  | object properties =>
    cases ofPointers with
    | false => exact fillItem_inPlace hs hn (hi.struct properties rfl)
    | true => exact fillItem_pointed hs hn (hi.struct properties rfl)
  | _ => exact .refused hs (PlanSet.planOf?_mem hn) hv _

/-- Filling the elements behind `done`. The block that holds the elements is found under the same
id all the time, and what the elements lead to is allocated behind it. -/
theorem fillItems_filled (hs : set.Coherent) (hn : set.planOf? name = some plan)
    {items : List HostValue} (h : ∀ item ∈ items, Fills set item) (done : List (Tree BlockId))
    (blocks : List HeapBlock) :
    ∃ rest more error?,
      set.fillItems items plan ofPointers ⟨heap.slots.length + 1⟩ done.length place
          (heap.extend (.array (done.map Tree.native ++
            List.replicate items.length (set.zeroItem plan ofPointers).native) :: blocks)) =
        (heap.extend (.array ((done ++ rest).map Tree.native) :: (blocks ++ more)), error?) ∧
      rest.length = items.length ∧
      (∀ tree ∈ rest, Owned set (itemOwnership ofPointers) (some plan) tree) ∧
      (rest.flatMap Tree.blocks).Perm
        (Heap.numbered (heap.slots.length + 1 + blocks.length) more) ∧
      (error? = none → rest.map Tree.image =
        items.map fun item => set.imageOf item (.nested name ofPointers)) := by
  induction items generalizing done blocks with
  | nil =>
    refine ⟨[], [], none, ?_, rfl, nofun, List.Perm.refl _, fun _ => rfl⟩
    simp [PlanSet.fillItems]
  | cons item items ih =>
    rw [PlanSet.fillItems]
    have hv : (done.map Tree.native ++ List.replicate (items.length + 1)
        (set.zeroItem plan ofPointers).native)[done.length]? =
          some (set.zeroItem plan ofPointers).native := by
      simp
    have hitem := @fillItem_filled set plan heap (place.element done.length) ofPointers blocks item
      name _ done.length hs hn (h item List.mem_cons_self) hv
    have hset : ∀ value, (done.map Tree.native ++ List.replicate (items.length + 1)
        (set.zeroItem plan ofPointers).native).set done.length value =
          (done.map Tree.native ++ [value]) ++
            List.replicate items.length (set.zeroItem plan ofPointers).native := by
      intro value
      have := set_append_replicate (done.map Tree.native) items.length
        (set.zeroItem plan ofPointers).native value
      rwa [List.length_map] at this
    rw [List.length_cons]
    generalize set.fillItem item plan ofPointers _ _ _ _ = filled at hitem ⊢
    cases hitem with
    | @intro tree more error? owned found reads =>
      rw [hset]
      cases error? with
      | some error =>
        refine ⟨tree :: List.replicate items.length (set.zeroItem plan ofPointers), more,
          some error, ?_, by simp, ?_, ?_, nofun⟩
        · simp
        · intro other ho
          rcases List.mem_cons.mp ho with rfl | ho
          · exact owned
          · exact hs.owned_zeroItems (PlanSet.planOf?_mem hn) _ other ho
        · rw [List.flatMap_cons, set.blocks_zeroItems, List.append_nil]
          exact found
      | none =>
        obtain ⟨rest, later, error?, hfill, hlen, howned, hfound, hreads⟩ := ih
          (fun other ho => h other (List.mem_cons_of_mem _ ho)) (done ++ [tree]) (blocks ++ more)
        refine ⟨tree :: rest, more ++ later, error?, ?_, by simp [hlen], ?_, ?_, ?_⟩
        · simp only [List.map_append, List.map_cons, List.map_nil, List.length_append,
            List.length_singleton, List.append_assoc, List.singleton_append] at hfill ⊢
          exact hfill
        · intro other ho
          rcases List.mem_cons.mp ho with rfl | ho
          · exact owned
          · exact howned other ho
        · rw [List.flatMap_cons, Heap.numbered_append]
          apply found.append
          rwa [List.length_append, ← Nat.add_assoc] at hfound
        · intro he
          rw [List.map_cons, List.map_cons, reads rfl, hreads he]

theorem fillValue_plain {native : NativeStruct} (hn : member.marshal.structName? = none) :
    set.fillValue input member place heap native =
      set.fillPlain member input place heap native := by
  cases hm : member.marshal with
  | nested | nestedArray =>
    rw [hm] at hn
    cases hn
  | _ => cases input <;> simp only [PlanSet.fillValue, hm]

theorem fillValue_inPlace {properties : List (String × HostValue)} {native : NativeStruct}
    (hmarshal : member.marshal = .nested name false) (hn : set.planOf? name = some plan)
    (hstart : ∀ value, native.get? member.name = some (.struct value) → value = set.reset plan) :
    set.fillValue (.object properties) member place heap native =
      let filled := fillMembers (fun inner => set.fillProperty properties inner place)
        plan.members heap (set.reset plan)
      ⟨filled.heap, native.set member.name (.struct filled.native), filled.error?⟩ := by
  simp only [PlanSet.fillValue, hmarshal, hn, Bool.false_eq_true, if_false]
  cases hg : native.get? member.name with
  | none => rfl
  | some value =>
    cases value with
    | struct value => rw [hstart value hg]
    | _ => rfl

theorem Pending.starts (hs : set.Coherent) (hn : set.planOf? name = some plan)
    (hmarshal : member.marshal = .nested name false) (hp : Pending set member layout)
    (value : NativeStruct) (hv : layout.native.get? member.name = some (.struct value)) :
    value = set.reset plan := by
  obtain ⟨init, hg, hi⟩ := hp
  rw [StructTree.native_get?, hg, Option.map_some, Option.some.injEq] at hv
  by_cases he : ∃ other, init = .embedded other
  · obtain ⟨other, rfl⟩ := he
    have hname := hmarshal.symm.trans (hi other rfl)
    rw [Marshal.nested.injEq] at hname
    rw [← hname.1, PlanSet.initValue_embedded hn, NativeValue.tree, Tree.native_struct,
      NativeStruct.native_tree _ (hs.pointers_reset plan (PlanSet.planOf?_mem hn)),
      NativeValue.struct.injEq] at hv
    exact hv.symm
  · have hscalar : (set.initValue init).isScalar = true :=
      PlanSet.isScalar_initValue fun other ho => he ⟨other, ho⟩
    rw [NativeValue.native_tree _ (NativeValue.pointers_of_isScalar hscalar)] at hv
    rw [hv] at hscalar
    cases hscalar

theorem fillValue_nested {properties : List (String × HostValue)} {byReference : Bool}
    (hs : set.Coherent) (hm : member.Sound set)
    (hmarshal : member.marshal = .nested name byReference)
    (h : PropertiesFill set properties) (hp : Pending set member layout) :
    MemberFilled set member (some (set.imageOf (.object properties) (.nested name byReference)))
      heap layout (set.fillValue (.object properties) member place heap layout.native) := by
  obtain ⟨plan, hn⟩ := hm.closed name (by rw [hmarshal]; rfl)
  have hplan := PlanSet.planOf?_mem hn
  have hstruct := h plan hplan place
  have howner : member.ownership = itemOwnership byReference := by
    rw [hm.ownership, hmarshal]
    cases byReference <;> rfl
  have hnested : set.nestedPlan? member.marshal = some plan := by
    rw [hmarshal]
    exact hn
  cases byReference with
  | false =>
    have hfilled := hstruct heap none
    rw [hs.reset_next hplan] at hfilled
    rw [fillValue_inPlace hmarshal hn (hp.starts hs hn hmarshal)]
    dsimp only
    generalize fillMembers _ plan.members heap (set.reset plan) = filled at hfilled ⊢
    cases hfilled with
    | @intro inner blocks error? owned found reads =>
      have howned : Owned set member.ownership (set.nestedPlan? member.marshal)
          (.struct inner) := by
        rw [howner, hnested]
        exact .embedded owned
      have hreads : error? = none →
          some (set.imageOf (.object properties) (.nested name false)) =
            some (Tree.struct inner).image := by
        intro he
        rw [Tree.image_struct, reads he, set.imageOf_nested hn]
        rfl
      have hfilled := @MemberFilled.attached set member _ heap layout (.struct inner) blocks error?
        howned found hreads
      rwa [StructTree.native_attach] at hfilled
  | true =>
    have hstored := (hstruct (heap.extend [.single (.struct (set.reset plan))]) none).stored
    rw [hs.reset_next hplan] at hstored
    obtain ⟨inner, more, owned, hstore, found, reads⟩ := hstored
    simp only [PlanSet.fillValue, hmarshal, hn, if_true, Heap.alloc_eq]
    rw [hstore]
    have howned : Owned set member.ownership (set.nestedPlan? member.marshal)
        (.single ⟨heap.slots.length + 1⟩ inner) := by
      rw [howner, hnested]
      exact .owned owned
    generalize (fillMembers _ plan.members _ _).error? = error? at reads ⊢
    have hreads : error? = none →
        some (set.imageOf (.object properties) (.nested name true)) =
          some (Tree.single (⟨heap.slots.length + 1⟩ : BlockId) inner).image := by
      intro he
      rw [Tree.image_single, reads he, set.imageOf_nested hn]
      rfl
    have hfilled := @MemberFilled.attached set member _ heap layout _ _ error? howned found hreads
    rwa [StructTree.native_attach] at hfilled

theorem fillValue_nestedArray {items : List HostValue} (hs : set.Coherent) (hm : member.Sound set)
    (hmarshal : member.marshal = .nestedArray name ofPointers)
    (h : ∀ item ∈ items, Fills set item) :
    MemberFilled set member (some (set.imageOf (.array items) (.nestedArray name ofPointers)))
      heap layout (set.fillValue (.array items) member place heap layout.native) := by
  obtain ⟨plan, hn⟩ := hm.closed name (by rw [hmarshal]; rfl)
  have hplan := PlanSet.planOf?_mem hn
  obtain ⟨trees, more, error?, hfill, hlen, howned, hfound, hreads⟩ :=
    @fillItems_filled set plan heap place ofPointers name hs hn items h [] []
  have hnested : set.nestedPlan? member.marshal = some plan := by
    rw [hmarshal]
    exact hn
  have howner : Owned set member.ownership (set.nestedPlan? member.marshal)
      (.array ⟨heap.slots.length + 1⟩ trees) := by
    rw [hm.ownership, hnested, hmarshal]
    cases ofPointers with
    | false => exact .array howned
    | true => exact .pointers howned
  have hfilled := @MemberFilled.of_array set member layout heap trees more error?
    (some (set.imageOf (.array items) (.nestedArray name ofPointers))) howner hfound
    (fun he => by
      rw [hreads he, PlanSet.imageOf]
      simp only [Marshal.element?, PlanSet.imagesOf_eq])
  rw [List.map_nil, List.nil_append, List.nil_append, List.nil_append, List.length_nil,
    hs.native_zeroItem hplan] at hfill
  simp only [PlanSet.fillValue, hmarshal, hn, MemberPlan.attach, Heap.alloc_eq,
    List.length_replicate, hfill]
  rwa [hlen] at hfilled

/-- Filling from any host value: the induction is on the value, over all members and places. -/
theorem fills (hs : set.Coherent) (input : HostValue) : Fills set input := by
  have plain : ∀ {input : HostValue} {member : MemberPlan} {place heap} {layout : Layout},
      member.Sound set → member.marshal.structName? = none →
      MemberFilled set member (some (set.imageOf input member.marshal)) heap layout
        (set.fillValue input member place heap layout.native) := by
    intro input member place heap layout hm hn
    rw [fillValue_plain hn]
    exact fillPlain_filled hm hn
  induction input using HostValue.induct with
  | object properties ih =>
    have hstruct := properties_fill hs ih
    constructor
    · intro member hm place heap layout hp
      cases hmarshal : member.marshal with
      | nested name byReference => exact fillValue_nested hs hm hmarshal hstruct hp
      | nestedArray name ofPointers =>
        obtain ⟨plan, hn⟩ := hm.closed name (by rw [hmarshal]; rfl)
        simp only [PlanSet.fillValue, hmarshal, hn]
        exact .refused
      | _ => exact hmarshal ▸ plain hm (by rw [hmarshal]; rfl)
    · intro other ho
      cases ho
      exact hstruct
  | array items ih =>
    refine ⟨?_, nofun⟩
    intro member hm place heap layout hp
    cases hmarshal : member.marshal with
    | nested name byReference =>
      obtain ⟨plan, hn⟩ := hm.closed name (by rw [hmarshal]; rfl)
      simp only [PlanSet.fillValue, hmarshal, hn]
      exact .refused
    | nestedArray name ofPointers => exact fillValue_nestedArray hs hm hmarshal ih
    | _ => exact hmarshal ▸ plain hm (by rw [hmarshal]; rfl)
  | other value ho ha =>
    refine ⟨?_, fun properties h => absurd h (ho properties)⟩
    intro member hm place heap layout hp
    cases hmarshal : member.marshal with
    | nested name _ | nestedArray name _ =>
      obtain ⟨plan, hn⟩ := hm.closed name (by rw [hmarshal]; rfl)
      cases value with
      | object properties => exact absurd rfl (ho properties)
      | array items => exact absurd rfl (ha items)
      | _ =>
        simp only [PlanSet.fillValue, hmarshal, hn]
        exact .refused
    | _ => exact hmarshal ▸ plain hm (by rw [hmarshal]; rfl)

theorem root_filled {properties : List (String × HostValue)} (hs : set.Coherent)
    (hp : plan ∈ set.plans) (place : Place) (heap : Heap) (next : Option Handle) :
    StructFilled set plan (set.structImage plan next (set.imageGiven properties)) heap
      (fillMembers (fun inner => set.fillProperty properties inner place) plan.members heap
        { set.reset plan with nextInChain := next }) :=
  (fills hs (.object properties)).struct properties rfl plan hp place heap next

end DescriptorMarshal
