import DescriptorMarshal.Proofs.Atomicity

/-!
Reading a structure back. Following its pointers in the heap, a decoded structure reads as what
the host value means, and as nothing else.
-/

namespace DescriptorMarshal

/-- Following its pointers in the heap, the structure reads as `image`. -/
def Heap.Reads (heap : Heap) (native : NativeStruct) (image : Image) : Prop :=
  ∃ layout : Layout, layout.native = native ∧ heap.Holds layout.blocks ∧ layout.image = image

theorem eq_of_map_eq {α β : Type} {f : α → β} {first second : List α}
    (h : first.map f = second.map f)
    (hi : ∀ a ∈ first, ∀ b ∈ second, f a = f b → a = b) : first = second := by
  induction first generalizing second with
  | nil => exact (List.map_eq_nil_iff.mp h.symm).symm
  | cons a rest ih =>
    cases second with
    | nil => cases h
    | cons b others =>
      rw [List.map_cons, List.map_cons, List.cons.injEq] at h
      rw [hi a List.mem_cons_self b List.mem_cons_self h.1,
        ih h.2 fun x hx y hy => hi x (List.mem_cons_of_mem _ hx) y (List.mem_cons_of_mem _ hy)]

theorem Heap.Holds.head_eq {heap : Heap} {id : BlockId} {first second : HeapBlock}
    {rest others : List (BlockId × HeapBlock)} (hf : heap.Holds ((id, first) :: rest))
    (hs : heap.Holds ((id, second) :: others)) : first = second :=
  Option.some.inj ((hf _ List.mem_cons_self).symm.trans (hs _ List.mem_cons_self))

theorem Heap.Holds.tail {heap : Heap} {entry : BlockId × HeapBlock}
    {rest : List (BlockId × HeapBlock)} (h : heap.Holds (entry :: rest)) : heap.Holds rest :=
  fun other ho => h other (List.mem_cons_of_mem _ ho)

theorem StructTree.eq_of_native {heap : Heap} {value other : Layout}
    (hn : value.native = other.native) (hf : heap.Holds value.blocks)
    (hs : heap.Holds other.blocks)
    (ih : ∀ entry ∈ value.fields, ∀ second : Tree BlockId, entry.2.native = second.native →
      heap.Holds entry.2.blocks → heap.Holds second.blocks → entry.2 = second) :
    value = other := by
  obtain ⟨typeName, chain, fields⟩ := value
  obtain ⟨typeName', chain', fields'⟩ := other
  rw [native_eq, native_eq, NativeStruct.mk.injEq] at hn
  rw [blocks_eq] at hf hs
  obtain ⟨rfl, rfl, hmap⟩ := hn
  refine congrArg (StructTree.mk typeName chain) (eq_of_map_eq hmap ?_)
  intro entry he other ho h
  rw [Prod.mk.injEq] at h
  apply Prod.ext h.1
  apply ih entry he other.2 h.2
  · intro block hb
    exact hf block (List.mem_flatMap.mpr ⟨entry, he, hb⟩)
  · intro block hb
    exact hs block (List.mem_flatMap.mpr ⟨other, ho, hb⟩)

theorem Tree.eq_of_native_scalar {tree : Tree BlockId} {value : Scalar}
    (h : tree.native = value.1) : tree = .scalar value := by
  obtain ⟨value, hv⟩ := value
  cases tree with
  | scalar other => exact congrArg Tree.scalar (Subtype.ext h)
  | _ =>
    subst h
    cases hv

theorem Tree.eq_of_native_pointer {tree : Tree BlockId} {id : BlockId}
    (h : tree.native = .pointer id) :
    (∃ value, tree = .single id value) ∨ (∃ items, tree = .array id items) ∨
      ∃ bytes, tree = .cString id bytes := by
  cases tree with
  | scalar value =>
    obtain ⟨value, hv⟩ := value
    cases h
    cases hv
  | struct value => cases h
  | single id' value =>
    cases h
    exact Or.inl ⟨value, rfl⟩
  | array id' items =>
    cases h
    exact Or.inr (Or.inl ⟨items, rfl⟩)
  | cString id' bytes =>
    cases h
    exact Or.inr (Or.inr ⟨bytes, rfl⟩)

/-- One heap holds one tree at most under the same value. A pointer leads to one block, and the
kind of the block decides the kind of the tree. -/
theorem Tree.eq_of_native {heap : Heap} (first second : Tree BlockId)
    (hn : first.native = second.native) (hf : heap.Holds first.blocks)
    (hs : heap.Holds second.blocks) : first = second := by
  induction first using Tree.induct generalizing second with
  | scalar value => exact (eq_of_native_scalar hn.symm).symm
  | struct value ih =>
    cases second with
    | struct other =>
      rw [native_struct, native_struct, NativeValue.struct.injEq] at hn
      rw [StructTree.eq_of_native hn hf hs ih]
    | scalar other => exact eq_of_native_scalar hn
    | _ => cases hn
  | single id value ih =>
    rcases eq_of_native_pointer hn.symm with ⟨other, rfl⟩ | ⟨others, rfl⟩ | ⟨bytes, rfl⟩
    · have hsame := hf.head_eq hs
      rw [HeapBlock.single.injEq, NativeValue.struct.injEq] at hsame
      rw [StructTree.eq_of_native hsame hf.tail hs.tail ih]
    · rw [blocks_array] at hs
      cases hf.head_eq hs
    · cases hf.head_eq hs
  | array id items ih =>
    rw [blocks_array] at hf
    rcases eq_of_native_pointer hn.symm with ⟨other, rfl⟩ | ⟨others, rfl⟩ | ⟨bytes, rfl⟩
    · cases hf.head_eq hs
    · rw [blocks_array] at hs
      have hsame := hf.head_eq hs
      rw [HeapBlock.array.injEq] at hsame
      refine congrArg (Tree.array id) (eq_of_map_eq hsame ?_)
      intro item hi other ho h
      apply ih item hi other h
      · intro block hb
        exact hf.tail block (List.mem_flatMap.mpr ⟨item, hi, hb⟩)
      · intro block hb
        exact hs.tail block (List.mem_flatMap.mpr ⟨other, ho, hb⟩)
    · cases hf.head_eq hs
  | cString id bytes =>
    rcases eq_of_native_pointer hn.symm with ⟨other, rfl⟩ | ⟨others, rfl⟩ | ⟨bytes', rfl⟩
    · cases hf.head_eq hs
    · rw [blocks_array] at hs
      cases hf.head_eq hs
    · cases hf.head_eq hs
      rfl

theorem Heap.Reads.unique {heap : Heap} {native : NativeStruct} {first second : Image}
    (h : heap.Reads native first) (k : heap.Reads native second) : first = second := by
  obtain ⟨layout, hn, hh, rfl⟩ := h
  obtain ⟨other, hn', hh', rfl⟩ := k
  have := Tree.eq_of_native (.struct layout) (.struct other)
    (congrArg NativeValue.struct (hn.trans hn'.symm)) hh hh'
  rw [Tree.struct.injEq] at this
  rw [this]

variable {options : SchemaOptions} {document : Idl.Document} {bindings : Bindings}
  {plan : StructPlan} {value : HostValue} {next : Option Handle} {context after : Context}
  {native : NativeStruct}

/-- A decode that succeeds means what the host value says: the value is an object, and what the
structure reads as is the tree given by the object's properties. -/
theorem decode_reads (hb : Bindings.ofDocument options document = .ok bindings)
    (hd : Idl.DistinctMembers document) (hp : plan ∈ bindings.plans.plans)
    (h : bindings.plans.decode plan value next context = (.ok native, after)) :
    ∃ properties, value = .object properties ∧
      ∀ image, after.heap.Reads native image ↔
        image = bindings.plans.structImage plan (if plan.extensible then next else none)
          (bindings.plans.imageGiven properties) := by
  have hs := (Bindings.coherent hb hd).decoded hp value next context
  rw [h] at hs
  cases hs with
  | @ok properties layout blocks object owned found reads =>
    have hreads : (context.heap.extend blocks).Reads layout.native layout.image :=
      ⟨layout, rfl, (Heap.holds_extend context.heap blocks).perm found.symm, rfl⟩
    rw [reads] at hreads
    exact ⟨properties, object, fun image => ⟨fun hi => hi.unique hreads, fun hi => hi ▸ hreads⟩⟩

theorem decode_reads_pair : ∃ bindings native after,
    Bindings.ofDocument .standard pairDocument = .ok bindings ∧
    Idl.DistinctMembers pairDocument ∧ pairPlan ∈ bindings.plans.plans ∧
    bindings.plans.decode pairPlan pairNull none .empty = (.ok native, after) ∧
    after.heap.Reads native ⟨"WGPUPair", none,
      [("count", .scalar ⟨.u32 2, rfl⟩),
        ("first", .array () [
          .struct ⟨"WGPULabel", none,
            [("text", .cString () [97, 0]), ("size", .scalar ⟨.u32 0, rfl⟩)]⟩,
          .struct ⟨"WGPULabel", none,
            [("text", .cString () [98, 0]), ("size", .scalar ⟨.u32 7, rfl⟩)]⟩]),
        ("second", .scalar ⟨.null, rfl⟩)]⟩ := by
  obtain ⟨schema, hb⟩ := pair_bindings
  have hm : pairPlan ∈ pairPlans.plans := by decide
  obtain ⟨native, after, he⟩ : ∃ native after,
      pairPlans.decode pairPlan pairNull none .empty = (.ok native, after) := ⟨_, _, rfl⟩
  obtain ⟨properties, hv, hreads⟩ := decode_reads hb pair_distinct hm he
  cases hv
  refine ⟨_, native, after, hb, pair_distinct, hm, he, (hreads _).mpr ?_⟩
  have hfirst : Heap.cStringBytes "a" = [97, 0] := by decide +kernel
  have hsecond : Heap.cStringBytes "b" = [98, 0] := by decide +kernel
  rw [← hfirst, ← hsecond]
  rfl

end DescriptorMarshal
