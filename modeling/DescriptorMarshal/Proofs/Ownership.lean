import DescriptorMarshal.Proofs.Layout
import Mathlib.Data.List.Perm.Basic

/-!
Which blocks a structure owns: those that following its pointers leads to. They are the blocks of
its layout, and each of them hangs on exactly one pointer.
-/

namespace DescriptorMarshal

/-- Following pointers in the heap leads from `starts` to the live block `id`. -/
inductive Heap.Reaches (heap : Heap) (starts : List BlockId) : BlockId → Prop where
  | start {id block} (mem : id ∈ starts) (live : heap.get? id = some block) : Reaches heap starts id
  | follow {id block id' block'} (reached : Reaches heap starts id)
    (read : heap.get? id = some block) (mem : id' ∈ block.pointers)
    (live : heap.get? id' = some block') : Reaches heap starts id'

/-- Does destroying the structure lead to the block? -/
def Heap.Owns (heap : Heap) (native : NativeStruct) (id : BlockId) : Prop :=
  heap.Reaches native.pointers id

theorem pointers_flatMap_perm {α : Type} {items : List α} {native : α → NativeValue}
    {blocks : α → List (BlockId × HeapBlock)}
    (h : ∀ item ∈ items, ((native item).pointers ++
      (blocks item).flatMap fun entry => entry.2.pointers).Perm ((blocks item).map Prod.fst)) :
    (items.flatMap (fun item => (native item).pointers) ++
      (items.flatMap blocks).flatMap fun entry => entry.2.pointers).Perm
        ((items.flatMap blocks).map Prod.fst) := by
  rw [List.flatMap_assoc, List.map_flatMap]
  exact (List.flatMap_append_perm items _ _).trans (List.Perm.flatMap_left items h)

theorem StructTree.pointers_perm {value : Layout}
    (h : ∀ entry ∈ value.fields,
      (entry.2.native.pointers ++ entry.2.blocks.flatMap fun entry => entry.2.pointers).Perm
        (entry.2.blocks.map Prod.fst)) :
    (value.native.pointers ++ value.blocks.flatMap fun entry => entry.2.pointers).Perm
      (value.blocks.map Prod.fst) := by
  have hperm := pointers_flatMap_perm h
  rwa [NativeStruct.pointers_eq, native_eq, blocks_eq, List.flatMap_map]

theorem Tree.pointers_perm (tree : Tree BlockId) :
    (tree.native.pointers ++ tree.blocks.flatMap fun entry => entry.2.pointers).Perm
      (tree.blocks.map Prod.fst) := by
  induction tree using Tree.induct with
  | scalar value =>
    rw [native_scalar, NativeValue.pointers_of_isScalar value.2]
    exact List.Perm.refl _
  | struct value ih => exact StructTree.pointers_perm ih
  | single id value ih =>
    rw [native_single, blocks_single, List.flatMap_cons, List.map_cons]
    exact (StructTree.pointers_perm ih).cons id
  | array id items ih =>
    rw [native_array, blocks_array, List.flatMap_cons, List.map_cons]
    have hperm := pointers_flatMap_perm ih
    rw [← List.flatMap_map (f := Tree.native)] at hperm
    exact hperm.cons id
  | cString id bytes => exact List.Perm.refl _

/-- A value whose pointers are reached has its blocks reached. -/
def Heap.Covers (heap : Heap) (starts pointers : List BlockId)
    (blocks : List (BlockId × HeapBlock)) : Prop :=
  heap.Holds blocks →
    (∀ id ∈ pointers, ∀ block, heap.get? id = some block → heap.Reaches starts id) →
    ∀ entry ∈ blocks, heap.Reaches starts entry.1

theorem StructTree.reaches {heap : Heap} {starts : List BlockId} {value : Layout}
    (h : ∀ entry ∈ value.fields, heap.Covers starts entry.2.native.pointers entry.2.blocks) :
    heap.Covers starts value.native.pointers value.blocks := by
  intro hh hr entry he
  rw [blocks_eq] at hh he
  obtain ⟨field, hf, he⟩ := List.mem_flatMap.mp he
  refine h field hf ?_ ?_ entry he
  · intro other ho
    exact hh other (List.mem_flatMap.mpr ⟨field, hf, ho⟩)
  · intro id hid
    apply hr id
    rw [NativeStruct.pointers_eq, native_eq, List.flatMap_map]
    exact List.mem_flatMap.mpr ⟨field, hf, hid⟩

theorem Tree.reaches {heap : Heap} {starts : List BlockId} (tree : Tree BlockId) :
    heap.Covers starts tree.native.pointers tree.blocks := by
  induction tree using Tree.induct with
  | scalar value =>
    intro _ _ entry he
    cases he
  | struct value ih => exact StructTree.reaches ih
  | single id value ih =>
    intro hh hr entry he
    have hlive := hh _ List.mem_cons_self
    have hid := hr id List.mem_cons_self _ hlive
    rcases List.mem_cons.mp he with rfl | he
    · exact hid
    · refine StructTree.reaches ih ?_ ?_ entry he
      · intro other ho
        exact hh other (List.mem_cons_of_mem _ ho)
      · intro next hn block hb
        exact .follow hid hlive hn hb
  | array id items ih =>
    intro hh hr entry he
    rw [blocks_array] at hh he
    have hlive := hh _ List.mem_cons_self
    have hid := hr id List.mem_cons_self _ hlive
    rcases List.mem_cons.mp he with rfl | he
    · exact hid
    · obtain ⟨item, hi, he⟩ := List.mem_flatMap.mp he
      refine ih item hi ?_ ?_ entry he
      · intro other ho
        exact hh other (List.mem_cons_of_mem _ (List.mem_flatMap.mpr ⟨item, hi, ho⟩))
      · intro next hn block hb
        refine .follow hid hlive ?_ hb
        rw [HeapBlock.pointers, List.flatMap_map]
        exact List.mem_flatMap.mpr ⟨item, hi, hn⟩
  | cString id bytes =>
    intro hh hr entry he
    have hlive := hh _ List.mem_cons_self
    rw [List.mem_singleton.mp he]
    exact hr id List.mem_cons_self _ hlive

/-- A structure owns exactly the blocks of its layout. -/
theorem owns_iff {heap : Heap} {layout : Layout} {id : BlockId}
    (hh : heap.Holds layout.blocks) :
    heap.Owns layout.native id ↔ id ∈ layout.blocks.map Prod.fst := by
  have hperm := Tree.pointers_perm (.struct layout)
  rw [Tree.native_struct, Tree.blocks_struct, NativeValue.pointers] at hperm
  constructor
  · intro h
    induction h with
    | start mem live => exact hperm.mem_iff.mp (List.mem_append_left _ mem)
    | follow _ read mem live ih =>
      obtain ⟨⟨_, block⟩, he, rfl⟩ := List.mem_map.mp ih
      rw [hh _ he, Option.some.injEq] at read
      subst read
      exact hperm.mem_iff.mp (List.mem_append_right _ (List.mem_flatMap.mpr ⟨_, he, mem⟩))
  · intro h
    obtain ⟨entry, he, rfl⟩ := List.mem_map.mp h
    refine Tree.reaches (.struct layout) hh ?_ entry he
    intro id hid block hb
    exact .start hid hb

theorem Heap.mem_blocks {heap : Heap} {id : BlockId} {block : HeapBlock} :
    (id, block) ∈ heap.blocks ↔ heap.get? id = some block := by
  unfold blocks
  rw [List.mem_filterMap]
  constructor
  · rintro ⟨⟨slot, index⟩, hm, he⟩
    obtain ⟨found, hs, he⟩ := Option.map_eq_some_iff.mp he
    dsimp only at hs
    subst hs
    cases he
    have := (List.mem_zipIdx_iff_getElem?).mp hm
    simp [get?, this]
  · intro h
    obtain ⟨h0, -⟩ := number_of_get? h
    obtain ⟨_ | number⟩ := id
    · cases h0
    · have hs : heap.slots[number]? = some (some block) := Option.join_eq_some_iff.mp h
      exact ⟨(some block, number), List.mem_zipIdx_iff_getElem?.mpr hs, rfl⟩

theorem Heap.nodup_blocks (heap : Heap) : heap.blocks.Nodup := by
  have hn : heap.slots.zipIdx.Nodup := by
    apply List.Nodup.of_map Prod.snd
    rw [List.zipIdx_map_snd]
    exact List.nodup_range'
  refine List.Nodup.filterMap ?_ hn
  rintro ⟨slot, index⟩ ⟨slot', index'⟩ entry he he'
  obtain ⟨block, hs, rfl⟩ := Option.map_eq_some_iff.mp he
  obtain ⟨block', hs', he'⟩ := Option.map_eq_some_iff.mp he'
  cases he'
  exact Prod.ext (hs.trans hs'.symm) rfl

end DescriptorMarshal
