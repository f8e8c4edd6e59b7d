import DescriptorMarshal.Proofs.HeapGrowth
import Mathlib.Data.List.Perm.Basic
import Mathlib.Data.List.Flatten

/-!
Native structures as trees. Following its pointers turns a structure into a tree whose inner nodes
are nested structures and heap blocks. A layout labels each block with its id and so determines
the structure and the blocks it leads to; an image forgets the ids.
-/

namespace DescriptorMarshal

namespace Entries

variable {α β : Type}

theorem keys_put_of_mem {entries : Entries α} {key : String} (value : α)
    (h : key ∈ keys entries) : keys (put entries key value) = keys entries := by
  rw [keys_put, if_pos h]

/-- Without repeated keys, an entry after an overwrite is the new one or an old one of another
key. -/
theorem mem_put {entries : Entries α} {key : String} {value : α} {entry : String × α}
    (hn : (keys entries).Nodup) (h : entry ∈ put entries key value) :
    entry = (key, value) ∨ entry ∈ entries ∧ entry.1 ≠ key := by
  induction entries with
  | nil => exact Or.inl (List.mem_singleton.mp h)
  | cons head rest ih =>
    obtain ⟨hh, hr⟩ := List.nodup_cons.mp hn
    by_cases hk : head.1 = key
    · simp only [put, hk, if_true] at h
      rcases List.mem_cons.mp h with h | h
      · exact Or.inl h
      · refine Or.inr ⟨List.mem_cons_of_mem _ h, fun he => hh ?_⟩
        rw [hk, ← he]
        exact mem_keys_of_mem h
    · simp only [put, hk, if_false] at h
      rcases List.mem_cons.mp h with h | h
      · exact Or.inr ⟨h ▸ List.mem_cons_self, by rw [h]; exact hk⟩
      · rcases ih hr h with h | ⟨h, hne⟩
        · exact Or.inl h
        · exact Or.inr ⟨List.mem_cons_of_mem _ h, hne⟩

theorem get?_map (f : α → β) (entries : Entries α) (key : String) :
    get? (entries.map fun entry => (entry.1, f entry.2)) key = (get? entries key).map f := by
  induction entries with
  | nil => rfl
  | cons entry rest ih =>
    by_cases hk : entry.1 = key <;> simp [get?, hk, ih]

theorem map_put (f : α → β) (entries : Entries α) (key : String) (value : α) :
    (put entries key value).map (fun entry => (entry.1, f entry.2)) =
      put (entries.map fun entry => (entry.1, f entry.2)) key (f value) := by
  induction entries with
  | nil => rfl
  | cons entry rest ih =>
    by_cases hk : entry.1 = key <;> simp [put, hk, ih]

theorem flatMap_put_perm (f : α → List β) {entries : Entries α} {key : String} {old : α}
    (value : α) (h : get? entries key = some old) :
    ((put entries key value).flatMap (fun entry => f entry.2) ++ f old).Perm
      (entries.flatMap (fun entry => f entry.2) ++ f value) := by
  induction entries with
  | nil => cases h
  | cons entry rest ih =>
    by_cases hk : entry.1 = key
    · simp only [get?, hk, if_true, Option.some.injEq] at h
      subst h
      simp only [put, hk, if_true, List.flatMap_cons, List.append_assoc]
      calc (f value ++ (rest.flatMap (fun entry => f entry.2) ++ f entry.2)).Perm
            ((rest.flatMap (fun entry => f entry.2) ++ f entry.2) ++ f value) :=
              List.perm_append_comm
        _ |>.Perm ((f entry.2 ++ rest.flatMap (fun entry => f entry.2)) ++ f value) :=
              List.perm_append_comm.append_right _
        _ = f entry.2 ++ (rest.flatMap (fun entry => f entry.2) ++ f value) :=
              List.append_assoc _ _ _
    · simp only [get?, hk, if_false] at h
      simp only [put, hk, if_false, List.flatMap_cons, List.append_assoc]
      exact (ih h).append_left _

end Entries

/-- Is the value neither a structure nor a pointer? -/
def NativeValue.isScalar : NativeValue → Bool
  | .struct _ | .pointer _ => false
  | _ => true

abbrev Scalar := { value : NativeValue // value.isScalar = true }

mutual

/-- What a slot holds, with pointers followed. Every block carries a label. -/
inductive Tree (α : Type) where
  | scalar (value : Scalar)
  | struct (value : StructTree α)
  | single (label : α) (value : StructTree α)
  | array (label : α) (items : List (Tree α))
  | cString (label : α) (bytes : List UInt8)

structure StructTree (α : Type) where
  typeName : String
  nextInChain : Option Handle
  fields : List (String × Tree α)

end

/-- A tree that knows the id of each of its blocks. -/
abbrev Layout := StructTree BlockId

/-- A tree in which it does not matter where a block is. -/
abbrev Image := StructTree Unit

section

set_option linter.unusedSectionVars false

variable {α : Type} {P : Tree α → Prop}
  (scalar : ∀ value, P (.scalar value))
  (struct : ∀ value : StructTree α, (∀ entry ∈ value.fields, P entry.2) → P (.struct value))
  (single : ∀ label, ∀ value : StructTree α, (∀ entry ∈ value.fields, P entry.2) →
    P (.single label value))
  (array : ∀ label, ∀ items : List (Tree α), (∀ item ∈ items, P item) → P (.array label items))
  (cString : ∀ label bytes, P (.cString label bytes))

include scalar struct single array cString

mutual

/-- Induction over trees, with the hypothesis at every field and at every item. -/
theorem Tree.induct : ∀ tree, P tree
  | .scalar value => scalar value
  | .struct ⟨typeName, next, fields⟩ => struct ⟨typeName, next, fields⟩ (Tree.induct_fields fields)
  | .single label ⟨typeName, next, fields⟩ =>
    single label ⟨typeName, next, fields⟩ (Tree.induct_fields fields)
  | .array label items => array label items (Tree.induct_items items)
  | .cString label bytes => cString label bytes

theorem Tree.induct_fields : ∀ fields : List (String × Tree α), ∀ entry ∈ fields, P entry.2
  | [], _, h => nomatch h
  | (_, tree) :: rest, entry, h => by
    have here := Tree.induct tree
    have later := Tree.induct_fields rest
    rcases List.mem_cons.mp h with rfl | h
    · exact here
    · exact later entry h

theorem Tree.induct_items : ∀ items : List (Tree α), ∀ item ∈ items, P item
  | [], _, h => nomatch h
  | tree :: rest, item, h => by
    have here := Tree.induct tree
    have later := Tree.induct_items rest
    rcases List.mem_cons.mp h with rfl | h
    · exact here
    · exact later item h

end

end

mutual

def Tree.native : Tree BlockId → NativeValue
  | .scalar value => value.1
  | .struct value => .struct value.native
  | .single id _ | .array id _ | .cString id _ => .pointer id

def StructTree.native : Layout → NativeStruct
  | ⟨typeName, next, fields⟩ => ⟨typeName, next, nativeFields fields⟩

def nativeFields : List (String × Tree BlockId) → List (String × NativeValue)
  | [] => []
  | (name, tree) :: rest => (name, tree.native) :: nativeFields rest

end

mutual

/-- The blocks that the slot leads to, each before those it leads to itself. -/
def Tree.blocks : Tree BlockId → List (BlockId × HeapBlock)
  | .scalar _ => []
  | .struct value => value.blocks
  | .single id value => (id, .single (.struct value.native)) :: value.blocks
  | .array id items => (id, .array (items.map Tree.native)) :: blocksOfItems items
  | .cString id bytes => [(id, .cString bytes)]

def StructTree.blocks : Layout → List (BlockId × HeapBlock)
  | ⟨_, _, fields⟩ => blocksOfFields fields

def blocksOfFields : List (String × Tree BlockId) → List (BlockId × HeapBlock)
  | [] => []
  | (_, tree) :: rest => tree.blocks ++ blocksOfFields rest

def blocksOfItems : List (Tree BlockId) → List (BlockId × HeapBlock)
  | [] => []
  | tree :: rest => tree.blocks ++ blocksOfItems rest

end

mutual

def Tree.image {α : Type} : Tree α → Tree Unit
  | .scalar value => .scalar value
  | .struct value => .struct value.image
  | .single _ value => .single () value.image
  | .array _ items => .array () (imageItems items)
  | .cString _ bytes => .cString () bytes

def StructTree.image {α : Type} : StructTree α → Image
  | ⟨typeName, next, fields⟩ => ⟨typeName, next, imageFields fields⟩

def imageFields {α : Type} : List (String × Tree α) → List (String × Tree Unit)
  | [] => []
  | (name, tree) :: rest => (name, tree.image) :: imageFields rest

def imageItems {α : Type} : List (Tree α) → List (Tree Unit)
  | [] => []
  | tree :: rest => tree.image :: imageItems rest

end

theorem nativeFields_eq (fields : List (String × Tree BlockId)) :
    nativeFields fields = fields.map fun entry => (entry.1, entry.2.native) := by
  induction fields with
  | nil => rfl
  | cons entry rest ih => rw [nativeFields, ih, List.map_cons]

theorem blocksOfFields_eq (fields : List (String × Tree BlockId)) :
    blocksOfFields fields = fields.flatMap fun entry => entry.2.blocks := by
  induction fields with
  | nil => rfl
  | cons entry rest ih => rw [blocksOfFields, ih, List.flatMap_cons]

theorem blocksOfItems_eq (items : List (Tree BlockId)) :
    blocksOfItems items = items.flatMap Tree.blocks := by
  induction items with
  | nil => rfl
  | cons item rest ih => rw [blocksOfItems, ih, List.flatMap_cons]

theorem imageFields_eq {α : Type} (fields : List (String × Tree α)) :
    imageFields fields = fields.map fun entry => (entry.1, entry.2.image) := by
  induction fields with
  | nil => rfl
  | cons entry rest ih => rw [imageFields, ih, List.map_cons]

theorem imageItems_eq {α : Type} (items : List (Tree α)) :
    imageItems items = items.map Tree.image := by
  induction items with
  | nil => rfl
  | cons item rest ih => rw [imageItems, ih, List.map_cons]

namespace Tree

@[simp] theorem native_scalar (value : Scalar) : (scalar value).native = value.1 := rfl
@[simp] theorem native_struct (value : Layout) : (struct value).native = .struct value.native := rfl
@[simp] theorem native_single (id : BlockId) (value : Layout) :
    (single id value).native = .pointer id := rfl
@[simp] theorem native_array (id : BlockId) (items : List (Tree BlockId)) :
    (array id items).native = .pointer id := rfl
@[simp] theorem native_cString (id : BlockId) (bytes : List UInt8) :
    (cString id bytes).native = .pointer id := rfl

@[simp] theorem blocks_struct (value : Layout) : (struct value).blocks = value.blocks := rfl
@[simp] theorem blocks_single (id : BlockId) (value : Layout) :
    (single id value).blocks = (id, .single (.struct value.native)) :: value.blocks := rfl
@[simp] theorem blocks_array (id : BlockId) (items : List (Tree BlockId)) :
    (array id items).blocks =
      (id, .array (items.map native)) :: items.flatMap blocks := by
  rw [blocks, blocksOfItems_eq]
@[simp] theorem blocks_cString (id : BlockId) (bytes : List UInt8) :
    (cString id bytes).blocks = [(id, .cString bytes)] := rfl

variable {α : Type}

@[simp] theorem image_scalar (value : Scalar) :
    (scalar value : Tree α).image = scalar value := rfl
@[simp] theorem image_struct (value : StructTree α) :
    (struct value).image = struct value.image := rfl
@[simp] theorem image_single (label : α) (value : StructTree α) :
    (single label value).image = single () value.image := rfl
@[simp] theorem image_array (label : α) (items : List (Tree α)) :
    (array label items).image = array () (items.map image) := by
  rw [image, imageItems_eq]
@[simp] theorem image_cString (label : α) (bytes : List UInt8) :
    (cString label bytes).image = cString () bytes := rfl

end Tree

namespace StructTree

variable {α : Type}

theorem native_eq (value : Layout) :
    value.native = ⟨value.typeName, value.nextInChain,
      value.fields.map fun entry => (entry.1, entry.2.native)⟩ := by
  obtain ⟨typeName, next, fields⟩ := value
  rw [native, nativeFields_eq]

theorem blocks_eq (value : Layout) :
    value.blocks = value.fields.flatMap fun entry => entry.2.blocks := by
  obtain ⟨typeName, next, fields⟩ := value
  rw [blocks, blocksOfFields_eq]

theorem image_eq (value : StructTree α) :
    value.image = ⟨value.typeName, value.nextInChain,
      value.fields.map fun entry => (entry.1, entry.2.image)⟩ := by
  obtain ⟨typeName, next, fields⟩ := value
  rw [image, imageFields_eq]

def put (value : StructTree α) (name : String) (tree : Tree α) : StructTree α :=
  { value with fields := Entries.put value.fields name tree }

def names (value : StructTree α) : List String := Entries.keys value.fields

theorem native_put (value : Layout) (name : String) (tree : Tree BlockId) :
    (value.put name tree).native = value.native.set name tree.native := by
  simp only [native_eq, put, NativeStruct.set, Entries.map_put Tree.native]

theorem native_get? (value : Layout) (name : String) :
    value.native.get? name = (Entries.get? value.fields name).map Tree.native := by
  simp only [native_eq, NativeStruct.get?, Entries.get?_map Tree.native]

theorem image_put (value : StructTree α) (name : String) (tree : Tree α) :
    (value.put name tree).image = value.image.put name tree.image := by
  simp only [image_eq, put, Entries.map_put Tree.image]

theorem names_put_of_mem {value : StructTree α} {name : String} (tree : Tree α)
    (h : name ∈ value.names) : (value.put name tree).names = value.names :=
  Entries.keys_put_of_mem tree h

theorem blocks_put_perm {value : Layout} {name : String} {old : Tree BlockId}
    (tree : Tree BlockId) (h : Entries.get? value.fields name = some old) :
    ((value.put name tree).blocks ++ old.blocks).Perm (value.blocks ++ tree.blocks) := by
  simp only [blocks_eq, put]
  exact Entries.flatMap_put_perm Tree.blocks tree h

end StructTree

mutual

/-- A value as a tree. A pointer, which leads out of the value, reads as null. -/
def NativeValue.tree {α : Type} : NativeValue → Tree α
  | .struct value => .struct value.tree
  | value => if h : value.isScalar = true then .scalar ⟨value, h⟩ else .scalar ⟨.null, rfl⟩

def NativeStruct.tree {α : Type} : NativeStruct → StructTree α
  | ⟨typeName, next, fields⟩ => ⟨typeName, next, treeFields fields⟩

def treeFields {α : Type} : List (String × NativeValue) → List (String × Tree α)
  | [] => []
  | (name, value) :: rest => (name, value.tree) :: treeFields rest

end

mutual

/-- The pointers in a value, those in structures stored in place included. -/
def NativeValue.pointers : NativeValue → List BlockId
  | .struct value => value.pointers
  | .pointer target => [target]
  | _ => []

def NativeStruct.pointers : NativeStruct → List BlockId
  | ⟨_, _, fields⟩ => pointersOfFields fields

def pointersOfFields : List (String × NativeValue) → List BlockId
  | [] => []
  | (_, value) :: rest => value.pointers ++ pointersOfFields rest

end

def HeapBlock.pointers : HeapBlock → List BlockId
  | .single value => value.pointers
  | .array items => items.flatMap NativeValue.pointers
  | .cString _ => []

theorem treeFields_eq {α : Type} (fields : List (String × NativeValue)) :
    (treeFields fields : List (String × Tree α)) =
      fields.map fun entry => (entry.1, entry.2.tree) := by
  induction fields with
  | nil => rfl
  | cons entry rest ih => rw [treeFields, ih, List.map_cons]

theorem pointersOfFields_eq (fields : List (String × NativeValue)) :
    pointersOfFields fields = fields.flatMap fun entry => entry.2.pointers := by
  induction fields with
  | nil => rfl
  | cons entry rest ih => rw [pointersOfFields, ih, List.flatMap_cons]

section

set_option linter.unusedSectionVars false

variable {P : NativeValue → Prop}
  (struct : ∀ value : NativeStruct, (∀ entry ∈ value.fields, P entry.2) → P (.struct value))
  (other : ∀ value : NativeValue, (∀ inner, value ≠ .struct inner) → P value)

include struct other

mutual

/-- Induction over values, with the hypothesis at every field of a structure stored in place. -/
theorem NativeValue.induct : ∀ value, P value
  | .struct ⟨typeName, next, fields⟩ =>
    struct ⟨typeName, next, fields⟩ (NativeValue.induct_fields fields)
  | .null => other _ nofun
  | .bool _ => other _ nofun
  | .i32 _ => other _ nofun
  | .u32 _ => other _ nofun
  | .i64 _ => other _ nofun
  | .u64 _ => other _ nofun
  | .f32 _ => other _ nofun
  | .f64 _ => other _ nofun
  | .enumeration _ => other _ nofun
  | .bitmask _ => other _ nofun
  | .handle _ => other _ nofun
  | .pointer _ => other _ nofun
  | .buffer _ => other _ nofun

theorem NativeValue.induct_fields :
    ∀ fields : List (String × NativeValue), ∀ entry ∈ fields, P entry.2
  | [], _, h => nomatch h
  | (_, value) :: rest, entry, h => by
    have here := NativeValue.induct value
    have later := NativeValue.induct_fields rest
    rcases List.mem_cons.mp h with rfl | h
    · exact here
    · exact later entry h

end

end

namespace NativeValue

variable {α : Type}

theorem pointers_of_isScalar {value : NativeValue} (h : value.isScalar = true) :
    value.pointers = [] := by
  cases value with
  | struct | pointer => cases h
  | _ => rfl

theorem tree_of_isScalar {value : NativeValue} (h : value.isScalar = true) :
    (value.tree : Tree α) = .scalar ⟨value, h⟩ := by
  cases value with
  | struct | pointer => cases h
  | _ => rfl

end NativeValue

namespace NativeStruct

variable {α : Type}

theorem tree_eq (value : NativeStruct) :
    (value.tree : StructTree α) = ⟨value.typeName, value.nextInChain,
      value.fields.map fun entry => (entry.1, entry.2.tree)⟩ := by
  obtain ⟨typeName, next, fields⟩ := value
  rw [tree, treeFields_eq]

theorem pointers_eq (value : NativeStruct) :
    value.pointers = value.fields.flatMap fun entry => entry.2.pointers := by
  obtain ⟨typeName, next, fields⟩ := value
  rw [pointers, pointersOfFields_eq]

end NativeStruct

theorem NativeValue.native_tree (value : NativeValue) (h : value.pointers = []) :
    (value.tree : Tree BlockId).native = value := by
  induction value using NativeValue.induct with
  | struct value ih =>
    have hp : ∀ entry ∈ value.fields, entry.2.pointers = [] := by
      rw [NativeValue.pointers, NativeStruct.pointers_eq] at h
      exact List.flatMap_eq_nil_iff.mp h
    rw [NativeValue.tree, Tree.native_struct, StructTree.native_eq, NativeStruct.tree_eq,
      List.map_map]
    congr 1
    obtain ⟨typeName, next, fields⟩ := value
    congr 1
    refine (List.map_congr_left ?_).trans (List.map_id fields)
    intro entry he
    show (entry.1, (entry.2.tree : Tree BlockId).native) = entry
    rw [ih entry he (hp entry he)]
  | other value hn =>
    have hs : value.isScalar = true := by
      cases value with
      | struct inner => exact absurd rfl (hn inner)
      | pointer => cases h
      | _ => rfl
    rw [tree_of_isScalar hs, Tree.native_scalar]

theorem NativeValue.blocks_tree (value : NativeValue) :
    (value.tree : Tree BlockId).blocks = [] := by
  induction value using NativeValue.induct with
  | struct value ih =>
    rw [NativeValue.tree, Tree.blocks_struct, StructTree.blocks_eq, NativeStruct.tree_eq]
    apply List.flatMap_eq_nil_iff.mpr
    intro entry he
    obtain ⟨field, hf, rfl⟩ := List.mem_map.mp he
    exact ih field hf
  | other value hn =>
    cases value with
    | struct inner => exact absurd rfl (hn inner)
    | _ => rfl

theorem NativeValue.image_tree {α : Type} (value : NativeValue) :
    (value.tree : Tree α).image = value.tree := by
  induction value using NativeValue.induct with
  | struct value ih =>
    rw [NativeValue.tree, NativeValue.tree, Tree.image_struct, StructTree.image_eq,
      NativeStruct.tree_eq, NativeStruct.tree_eq, List.map_map]
    congr 2
    apply List.map_congr_left
    intro entry he
    rw [Function.comp_apply, ih entry he]
  | other value hn =>
    cases value with
    | struct inner => exact absurd rfl (hn inner)
    | _ => rfl

namespace NativeStruct

variable {α : Type}

theorem native_tree (value : NativeStruct) (h : value.pointers = []) :
    (value.tree : Layout).native = value := by
  have := NativeValue.native_tree (.struct value) h
  rwa [NativeValue.tree, Tree.native_struct, NativeValue.struct.injEq] at this

theorem blocks_tree (value : NativeStruct) : (value.tree : Layout).blocks = [] :=
  NativeValue.blocks_tree (.struct value)

theorem image_tree (value : NativeStruct) :
    (value.tree : StructTree α).image = value.tree := by
  have := NativeValue.image_tree (α := α) (.struct value)
  rwa [NativeValue.tree, NativeValue.tree, Tree.image_struct, Tree.struct.injEq] at this

end NativeStruct

end DescriptorMarshal
