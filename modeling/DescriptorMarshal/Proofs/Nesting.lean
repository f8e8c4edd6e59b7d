import DescriptorMarshal.Proofs.Conformance
import DescriptorMarshal.Proofs.Depth

/-!
What is given at any depth. A structure that a decoded one leads to reads as its plan says for some
properties, and each of these conforms to the member that it is given for: a host value with a
wrong one anywhere is not decoded.
-/

namespace DescriptorMarshal

/-- A tree leads to a structure, in place or through blocks. -/
inductive Tree.LeadsTo {α : Type} : Tree α → StructTree α → Prop where
  | here {value} : LeadsTo (.struct value) value
  | field {value inner entry} (mem : entry ∈ StructTree.fields value) (h : LeadsTo entry.2 inner) :
    LeadsTo (.struct value) inner
  | single {label value inner} (h : LeadsTo (.struct value) inner) :
    LeadsTo (.single label value) inner
  | item {label items item inner} (mem : item ∈ items) (h : LeadsTo item inner) :
    LeadsTo (.array label items) inner

/-- Does every property that is given for a member conform to it? -/
def StructPlan.Admits (set : PlanSet) (plan : StructPlan)
    (properties : List (String × HostValue)) : Prop :=
  ∀ member ∈ plan.members, ∀ input, member.given? properties = some input →
    Conforms set member.marshal input

/-- A tree in which every structure reads as one of a plan for which conforming properties are
given. -/
inductive Tree.Admitted (set : PlanSet) : Tree Unit → Prop where
  | scalar {value} : Admitted set (.scalar value)
  | cString {bytes} : Admitted set (.cString () bytes)
  | struct {plan next properties} (mem : plan ∈ set.plans) (admits : plan.Admits set properties) :
    Admitted set (.struct (set.structImage plan next (set.imageGiven properties)))
  | single {plan next properties} (mem : plan ∈ set.plans) (admits : plan.Admits set properties) :
    Admitted set (.single () (set.structImage plan next (set.imageGiven properties)))
  | array {items} (all : ∀ item ∈ items, Admitted set item) : Admitted set (.array () items)

variable {set : PlanSet} {plan : StructPlan} {member : MemberPlan} {heap : Heap}
  {native inner : NativeStruct} {value : NativeValue} {tree : Tree BlockId} {marshal : Marshal}
  {input : HostValue} {properties : List (String × HostValue)}

theorem Tree.eq_of_native_struct (h : tree.native = .struct native) :
    ∃ value, tree = .struct value ∧ value.native = native := by
  cases tree with
  | scalar value =>
    obtain ⟨value, hv⟩ := value
    subst h
    cases hv
  | struct value =>
    cases h
    exact ⟨value, rfl, rfl⟩
  | _ => cases h

theorem Heap.Contains.leadsTo (h : heap.Contains value inner) (hn : tree.native = value)
    (hh : heap.Holds tree.blocks) :
    ∃ layout, tree.LeadsTo layout ∧ layout.native = inner ∧ heap.Holds layout.blocks := by
  induction h generalizing tree with
  | here =>
    obtain ⟨layout, rfl, hlayout⟩ := Tree.eq_of_native_struct hn
    exact ⟨layout, .here, hlayout, hh⟩
  | @field native inner name value slot _ ih =>
    obtain ⟨layout, rfl, rfl⟩ := Tree.eq_of_native_struct hn
    rw [StructTree.native_get?] at slot
    obtain ⟨item, hitem, hvalue⟩ := Option.map_eq_some_iff.mp slot
    have hmem := Entries.mem_of_get? hitem
    have hblocks : heap.Holds item.blocks := by
      intro block hb
      apply hh
      rw [Tree.blocks_struct, StructTree.blocks_eq]
      exact List.mem_flatMap.mpr ⟨_, hmem, hb⟩
    obtain ⟨found, hfound, hrest⟩ := ih hvalue hblocks
    exact ⟨found, .field hmem hfound, hrest⟩
  | @single id value inner read _ ih =>
    rcases Tree.eq_of_native_pointer hn with ⟨layout, rfl⟩ | ⟨items, rfl⟩ | ⟨bytes, rfl⟩
    · have hsame := read.symm.trans (hh _ List.mem_cons_self)
      rw [Option.some.injEq, HeapBlock.single.injEq] at hsame
      obtain ⟨found, hfound, hrest⟩ := @ih (.struct layout) hsame.symm hh.tail
      exact ⟨found, .single hfound, hrest⟩
    · rw [Tree.blocks_array] at hh
      cases read.symm.trans (hh _ List.mem_cons_self)
    · cases read.symm.trans (hh _ List.mem_cons_self)
  | @item id items item inner read mem _ ih =>
    rcases Tree.eq_of_native_pointer hn with ⟨layout, rfl⟩ | ⟨trees, rfl⟩ | ⟨bytes, rfl⟩
    · cases read.symm.trans (hh _ List.mem_cons_self)
    · rw [Tree.blocks_array] at hh
      have hsame := read.symm.trans (hh _ List.mem_cons_self)
      rw [Option.some.injEq, HeapBlock.array.injEq] at hsame
      subst hsame
      obtain ⟨found, hmem, hitem⟩ := List.mem_map.mp mem
      have hblocks : heap.Holds found.blocks := by
        intro block hb
        exact hh.tail block (List.mem_flatMap.mpr ⟨found, hmem, hb⟩)
      obtain ⟨layout, hlayout, hrest⟩ := ih hitem hblocks
      exact ⟨layout, .item hmem hlayout, hrest⟩
    · cases read.symm.trans (hh _ List.mem_cons_self)

theorem Tree.LeadsTo.image {α : Type} {tree : Tree α} {value : StructTree α}
    (h : tree.LeadsTo value) : tree.image.LeadsTo value.image := by
  induction h with
  | here => exact .here
  | @field value inner entry mem _ ih =>
    have hmem : (entry.1, entry.2.image) ∈ value.image.fields := by
      rw [StructTree.image_eq]
      exact List.mem_map.mpr ⟨entry, mem, rfl⟩
    rw [Tree.image_struct]
    exact .field hmem ih
  | single _ ih =>
    rw [Tree.image_single]
    exact .single ih
  | item mem _ ih =>
    rw [Tree.image_array]
    exact .item (List.mem_map_of_mem mem) ih

theorem StructPlan.admits_nil (set : PlanSet) (plan : StructPlan) : plan.Admits set [] := by
  intro member _ input hgiven
  cases hgiven

theorem ConformsTo.admits (h : ConformsTo set plan properties) : plan.Admits set properties :=
  h.given

namespace Tree.Admitted

theorem of_isScalar (h : value.isScalar = true) : Admitted set value.tree := by
  rw [NativeValue.tree_of_isScalar h]
  exact .scalar

theorem of_conforms (h : Conforms set marshal input) :
    Admitted set (set.imageOf input marshal) := by
  induction h with
  | @array marshal element items elements _ ih =>
    rw [PlanSet.imageOf]
    simp only [elements, PlanSet.imagesOf_eq]
    apply Admitted.array
    intro item hi
    obtain ⟨value, hv, rfl⟩ := List.mem_map.mp hi
    exact ih value hv
  | @struct name byReference plan properties known given _ _ =>
    rw [PlanSet.imageOf_nested set known]
    have hmem := PlanSet.planOf?_mem known
    cases byReference with
    | false => exact .struct hmem given
    | true => exact .single hmem given
  | string => exact .cString
  | _ => exact of_isScalar (set.isScalar_scalarOf _ _)

theorem of_init (hs : set.Coherent) (init : FieldInit) :
    Admitted set (set.initValue init).tree := by
  cases init with
  | embedded name =>
    cases hn : set.planOf? name with
    | none =>
      rw [PlanSet.initValue_embedded_none hn]
      exact .scalar
    | some nested =>
      have hmem := PlanSet.planOf?_mem hn
      have himage : ((set.reset nested).tree : Image) =
          set.structImage nested none (set.imageGiven []) := hs.image_reset hmem
      rw [PlanSet.initValue_embedded hn, NativeValue.tree, himage]
      exact .struct hmem (nested.admits_nil set)
  | _ =>
    apply of_isScalar
    apply PlanSet.isScalar_initValue
    intro name hinit
    cases hinit

theorem of_field (hs : set.Coherent) (h : plan.Admits set properties) (field : FieldPlan) :
    Admitted set (set.fieldImage plan.members (set.imageGiven properties) field) := by
  rcases set.fieldImage_cases plan.members (set.imageGiven properties) field with
    ⟨member, hm, -, hfield⟩ | ⟨_, -, length, count, -, -, -, hfield⟩ | hfield
  · rw [PlanSet.imageGiven_eq] at hfield
    obtain ⟨input, hinput, himage⟩ := Option.map_eq_some_iff.mp hfield.symm
    rw [← himage]
    exact of_conforms (h member hm input hinput)
  · rw [hfield]
    exact of_isScalar (isScalar_ofCount length.type count)
  · rw [hfield]
    exact of_init hs field.init

theorem of_entry {next : Option Handle} {entry : String × Tree Unit} (hs : set.Coherent)
    (h : plan.Admits set properties)
    (he : entry ∈ (set.structImage plan next (set.imageGiven properties)).fields) :
    Admitted set entry.2 := by
  obtain ⟨field, -, rfl⟩ := List.mem_map.mp he
  exact of_field hs h field

theorem leadsTo {tree : Tree Unit} {image : Image} (hs : set.Coherent) (h : tree.Admitted set)
    (hl : tree.LeadsTo image) :
    ∃ plan ∈ set.plans, ∃ next properties, plan.Admits set properties ∧
      image = set.structImage plan next (set.imageGiven properties) := by
  induction hl with
  | here =>
    cases h with
    | struct mem admits => exact ⟨_, mem, _, _, admits, rfl⟩
  | field mem _ ih =>
    cases h with
    | struct _ admits => exact ih (of_entry hs admits mem)
  | single _ ih =>
    cases h with
    | single mem admits => exact ih (.struct mem admits)
  | item mem _ ih =>
    cases h with
    | array all => exact ih (all _ mem)

end Tree.Admitted

variable {next : Option Handle} {context after : Context}

theorem PlanSet.Coherent.decode_admitted (hs : set.Coherent) (hp : plan ∈ set.plans)
    (h : set.decode plan input next context = (.ok native, after)) :
    ∃ properties, plan.Admits set properties ∧
      after.heap.Reads native
        (set.structImage plan (plan.rootChain next) (set.imageGiven properties)) := by
  have hrefusal := decode_refusal hs.closed hp input next context
  have hdecoded := hs.decoded hp input next context
  rw [h] at hrefusal hdecoded
  cases hdecoded with
  | @ok properties layout blocks object owned found reads =>
    obtain ⟨given, hgiven, hconforms⟩ :=
      (conformsTo_iff_firstViolation? plan input).mpr hrefusal.symm
    cases object.symm.trans hgiven
    exact ⟨properties, hconforms.admits, layout, rfl,
      (Heap.holds_extend context.heap blocks).perm found.symm, reads⟩

/-- Every structure that a decoded one leads to reads as one of its plan for which conforming
properties are given. -/
theorem PlanSet.Coherent.decode_contains (hs : set.Coherent) (hp : plan ∈ set.plans)
    (h : set.decode plan input next context = (.ok native, after))
    (hc : after.heap.Contains (.struct native) inner) :
    ∃ owner ∈ set.plans, ∃ next properties, owner.Admits set properties ∧
      after.heap.Reads inner (set.structImage owner next (set.imageGiven properties)) := by
  obtain ⟨properties, hadmits, layout, hnative, hholds, himage⟩ := hs.decode_admitted hp h
  have hstruct : (Tree.struct layout).native = .struct native := congrArg _ hnative
  obtain ⟨found, hfound, hinner, hblocks⟩ := hc.leadsTo hstruct hholds
  have hleads := hfound.image
  rw [Tree.image_struct, himage] at hleads
  obtain ⟨owner, ho, chain, given, hgiven, hsame⟩ :=
    Tree.Admitted.leadsTo hs (.struct hp hadmits) hleads
  exact ⟨owner, ho, chain, given, hgiven, found, hinner, hblocks, hsame⟩

end DescriptorMarshal
