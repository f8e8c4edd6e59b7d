import DescriptorMarshal.Proofs.Completeness
import DescriptorMarshal.Proofs.Reading

/-!
Decoded structures at any depth. Whatever structure a decoded one leads to, in place or through
pointers, it belongs to a plan and reads as that plan says for some properties. So what holds of
every structure that reads so holds at every depth.
-/

namespace DescriptorMarshal

/-- The structure reads, in this heap, as one of the plan for which some properties are given. -/
def Heap.Means (heap : Heap) (set : PlanSet) (plan : StructPlan) (native : NativeStruct) : Prop :=
  ∃ next properties, heap.Reads native (set.structImage plan next (set.imageGiven properties))

/-- What a slot may hold through which a member is marshaled so. -/
inductive Heap.Fits (heap : Heap) (set : PlanSet) : Marshal → NativeValue → Prop where
  | scalar {marshal value} (scalar : value.isScalar = true)
    (null : marshal.ownership.releases = true → value = .null) : Fits heap set marshal value
  | nested {name plan inner} (found : set.planOf? name = some plan)
    (means : heap.Means set plan inner) : Fits heap set (.nested name false) (.struct inner)
  | reference {name plan id inner} (found : set.planOf? name = some plan)
    (read : heap.get? id = some (.single (.struct inner))) (means : heap.Means set plan inner) :
    Fits heap set (.nested name true) (.pointer id)
  | array {marshal element id items} (elements : marshal.element? = some element)
    (read : heap.get? id = some (.array items))
    (items : ∀ item ∈ items, Fits heap set element item) : Fits heap set marshal (.pointer id)
  | string {id bytes} (read : heap.get? id = some (.cString bytes)) :
    Fits heap set .string (.pointer id)

/-- Following pointers in the heap, the value leads to the structure. -/
inductive Heap.Contains (heap : Heap) : NativeValue → NativeStruct → Prop where
  | here {native} : Contains heap (.struct native) native
  | field {native inner : NativeStruct} {name value} (slot : native.get? name = some value)
    (h : Contains heap value inner) : Contains heap (.struct native) inner
  | single {id value inner} (read : heap.get? id = some (.single value))
    (h : Contains heap value inner) : Contains heap (.pointer id) inner
  | item {id items item inner} (read : heap.get? id = some (.array items)) (mem : item ∈ items)
    (h : Contains heap item inner) : Contains heap (.pointer id) inner

variable {set : PlanSet} {plan : StructPlan} {member : MemberPlan} {heap : Heap}
  {native inner : NativeStruct} {value : NativeValue} {image : Image} {name : String}
  {tree : Tree BlockId} {marshal : Marshal} {input : HostValue}
  {given : MemberPlan → Option (Tree Unit)} {next : Option Handle}

namespace Tree

theorem eq_of_image_scalar {value : Scalar} (h : tree.image = .scalar value) :
    tree = .scalar value := by
  cases tree with
  | scalar other =>
    cases h
    rfl
  | _ => simp at h

theorem eq_of_image_struct (h : tree.image = .struct image) :
    ∃ value, tree = .struct value ∧ value.image = image := by
  cases tree with
  | struct value =>
    cases h
    exact ⟨value, rfl, rfl⟩
  | _ => simp at h

theorem eq_of_image_single (h : tree.image = .single () image) :
    ∃ id value, tree = .single id value ∧ value.image = image := by
  cases tree with
  | single id value =>
    cases h
    exact ⟨id, value, rfl, rfl⟩
  | _ => simp at h

theorem eq_of_image_array {items : List (Tree Unit)} (h : tree.image = .array () items) :
    ∃ id trees, tree = .array id trees ∧ trees.map Tree.image = items := by
  cases tree with
  | array id trees =>
    rw [image_array] at h
    cases h
    exact ⟨id, trees, rfl, rfl⟩
  | _ => simp at h

theorem eq_of_image_cString {bytes : List UInt8} (h : tree.image = .cString () bytes) :
    ∃ id, tree = .cString id bytes := by
  cases tree with
  | cString id other =>
    cases h
    exact ⟨id, rfl⟩
  | _ => simp at h

theorem eq_of_image_value (hv : value.isScalar = true) (h : tree.image = value.tree) :
    tree = .scalar ⟨value, hv⟩ := by
  rw [NativeValue.tree_of_isScalar hv] at h
  exact eq_of_image_scalar h

end Tree

theorem Heap.Reads.slot (h : heap.Reads native image) (hg : native.get? name = some value) :
    ∃ tree : Tree BlockId, tree.native = value ∧ heap.Holds tree.blocks ∧
      Entries.get? image.fields name = some tree.image := by
  obtain ⟨layout, rfl, hh, rfl⟩ := h
  rw [StructTree.native_get?] at hg
  obtain ⟨tree, ht, rfl⟩ := Option.map_eq_some_iff.mp hg
  refine ⟨tree, rfl, ?_, ?_⟩
  · intro block hb
    apply hh
    rw [StructTree.blocks_eq]
    exact List.mem_flatMap.mpr ⟨_, Entries.mem_of_get? ht, hb⟩
  · rw [StructTree.image_eq, Entries.get?_map Tree.image, ht]
    rfl

theorem Heap.Reads.exists_slot {item : Tree Unit} (h : heap.Reads native image)
    (hg : Entries.get? image.fields name = some item) : ∃ value, native.get? name = some value := by
  obtain ⟨layout, rfl, -, rfl⟩ := h
  rw [StructTree.image_eq, Entries.get?_map Tree.image] at hg
  obtain ⟨tree, ht, -⟩ := Option.map_eq_some_iff.mp hg
  exact ⟨tree.native, by rw [StructTree.native_get?, ht]; rfl⟩

theorem Heap.Reads.scalar_slot (h : heap.Reads native image) (hs : value.isScalar = true)
    (hg : Entries.get? image.fields name = some value.tree) : native.get? name = some value := by
  obtain ⟨found, hfound⟩ := h.exists_slot hg
  obtain ⟨tree, rfl, -, hi⟩ := h.slot hfound
  rw [hg, Option.some.injEq] at hi
  rw [hfound, Tree.eq_of_image_value hs hi.symm]
  rfl

theorem Heap.Reads.shape (h : heap.Reads native image) :
    native.typeName = image.typeName ∧ Entries.keys native.fields = image.names := by
  obtain ⟨layout, rfl, -, rfl⟩ := h
  rw [StructTree.native_eq, StructTree.image_eq, StructTree.names, Entries.keys, Entries.keys,
    List.map_map, List.map_map]
  exact ⟨rfl, rfl⟩

namespace PlanSet

theorem names_structImage (set : PlanSet) (plan : StructPlan) (next : Option Handle)
    (given : MemberPlan → Option (Tree Unit)) :
    (set.structImage plan next given).names = plan.fields.map (·.name) := by
  rw [StructTree.names, Entries.keys, structImage, List.map_map]
  rfl

theorem get?_structImage {field : FieldPlan} (hp : plan.Coherent) (hf : field ∈ plan.fields)
    (next : Option Handle) (given : MemberPlan → Option (Tree Unit)) :
    Entries.get? (set.structImage plan next given).fields field.name =
      some (set.fieldImage plan.members given field) := by
  have hn : (Entries.keys (set.structImage plan next given).fields).Nodup := by
    rw [← StructTree.names, names_structImage]
    exact hp.fields
  exact Entries.get?_of_mem hn (List.mem_map.mpr ⟨field, hf, rfl⟩)

theorem exists_field_of_get? {item : Tree Unit}
    (h : Entries.get? (set.structImage plan next given).fields name = some item) :
    ∃ field ∈ plan.fields, field.name = name ∧ item = set.fieldImage plan.members given field := by
  obtain ⟨field, hf, he⟩ := List.mem_map.mp (Entries.mem_of_get? h)
  cases he
  exact ⟨field, hf, rfl, rfl⟩

end PlanSet

theorem StructPlan.find?_member {field : FieldPlan} (hp : plan.Coherent)
    (hm : member ∈ plan.members) (hname : field.name = member.name) :
    plan.members.find? (fun other => other.name == field.name) = some member := by
  apply (find?_key_iff ?_).mpr ⟨hm, hname.symm⟩
  exact fun _ hfirst _ hsecond => List.inj_on_of_nodup_map hp.members hfirst hsecond

theorem PlanSet.fieldImage_member {field : FieldPlan} (hp : plan.Coherent)
    (hm : member ∈ plan.members) (hname : field.name = member.name) :
    set.fieldImage plan.members given field =
      (given member).getD (set.initValue field.init).tree := by
  unfold fieldImage
  rw [StructPlan.find?_member hp hm hname]

/-- The number of elements is that of the last member that counts in the field and is given. -/
theorem PlanSet.exists_counted {members : List MemberPlan} {value : NativeValue}
    (h : countGiven members given name = some value) :
    ∃ before member after length count, members = before ++ member :: after ∧
      member.length = some length ∧ length.name = name ∧
      (given member).bind Tree.count? = some count ∧ value = .ofCount length.type count ∧
      ∀ later ∈ after, ∀ shared, later.length = some shared → shared.name = name →
        (given later).bind Tree.count? = none := by
  obtain ⟨after, member, before, hsplit, he, hlater⟩ := List.findSome?_eq_some_iff.mp h
  have hmembers : members = before.reverse ++ member :: after.reverse := by
    rw [← List.reverse_reverse members, hsplit]
    simp
  split at he
  · next length count hl hc =>
    split at he
    · next hname =>
      cases he
      refine ⟨_, member, _, length, count, hmembers, hl, hname, hc, rfl, ?_⟩
      intro later hm shared hs hn
      have hnone := hlater later (List.mem_reverse.mp hm)
      cases hg : (given later).bind Tree.count? with
      | none => rfl
      | some _ => simp [hs, hg, hn] at hnone
    · cases he
  · cases he

theorem PlanSet.not_counted {members : List MemberPlan} {length : LengthField}
    (h : countGiven members given name = none) (hm : member ∈ members)
    (hl : member.length = some length) (hn : length.name = name) :
    (given member).bind Tree.count? = none := by
  have hnone := List.findSome?_eq_none_iff.mp h member (List.mem_reverse.mpr hm)
  cases hc : (given member).bind Tree.count? with
  | none => rfl
  | some _ => simp [hl, hc, hn] at hnone

/-- What any field reads as: a given member, a number of elements, or what the field starts from. -/
theorem PlanSet.fieldImage_cases (set : PlanSet) (members : List MemberPlan)
    (given : MemberPlan → Option (Tree Unit)) (field : FieldPlan) :
    (∃ member ∈ members, member.name = field.name ∧
        some (set.fieldImage members given field) = given member) ∨
      (∃ member ∈ members, ∃ length count, member.length = some length ∧
        length.name = field.name ∧ (given member).bind Tree.count? = some count ∧
          set.fieldImage members given field = (NativeValue.ofCount length.type count).tree) ∨
      set.fieldImage members given field = (set.initValue field.init).tree := by
  unfold fieldImage
  cases hf : members.find? fun member => member.name == field.name with
  | some member =>
    cases hg : given member with
    | none => exact Or.inr (Or.inr (by simp only [hg]; rfl))
    | some item =>
      have hname : member.name = field.name := by simpa using List.find?_some hf
      exact Or.inl ⟨member, List.mem_of_find?_eq_some hf, hname, by simp only [hg]; rfl⟩
  | none =>
    cases hc : countGiven members given field.name with
    | none => exact Or.inr (Or.inr rfl)
    | some value =>
      obtain ⟨before, member, after, length, count, hsplit, hl, hname, hgiven, rfl, -⟩ :=
        exists_counted hc
      have hm : member ∈ members := hsplit ▸ List.mem_append_right _ List.mem_cons_self
      exact Or.inr (Or.inl ⟨member, hm, length, count, hl, hname, hgiven, rfl⟩)

theorem PlanSet.scalarOf_of_releases (h : marshal.ownership.releases = true) :
    set.scalarOf marshal input = .null := by
  cases marshal with
  | nested | nestedArray | unwrapArray | enumerationArray | bitmaskArray | string =>
    cases input <;> rfl
  | _ => cases h

namespace Heap

theorem Fits.of_value (hv : value.isScalar = true)
    (hn : marshal.ownership.releases = true → value = .null) (hi : tree.image = value.tree) :
    heap.Fits set marshal tree.native := by
  rw [Tree.eq_of_image_value hv hi]
  exact .scalar hv hn

theorem Fits.of_null (hi : tree.image = NativeValue.null.tree) :
    heap.Fits set marshal tree.native :=
  .of_value rfl (fun _ => rfl) hi

theorem Fits.of_struct {properties : List (String × HostValue)} (hh : heap.Holds tree.blocks)
    (hn : set.planOf? name = some plan)
    (hi : tree.image = .struct (set.structImage plan none (set.imageGiven properties))) :
    heap.Fits set (.nested name false) tree.native := by
  obtain ⟨value, rfl, himage⟩ := Tree.eq_of_image_struct hi
  exact .nested hn ⟨none, properties, value, rfl, hh, himage⟩

theorem Fits.of_single {properties : List (String × HostValue)} (hh : heap.Holds tree.blocks)
    (hn : set.planOf? name = some plan)
    (hi : tree.image = .single () (set.structImage plan none (set.imageGiven properties))) :
    heap.Fits set (.nested name true) tree.native := by
  obtain ⟨id, value, rfl, himage⟩ := Tree.eq_of_image_single hi
  exact .reference hn (hh _ List.mem_cons_self) ⟨none, properties, value, rfl, hh.tail, himage⟩

/-- A tree that reads as what a host value means fits the slot it was given for. -/
theorem fits_of_imageOf (hh : heap.Holds tree.blocks)
    (hi : tree.image = set.imageOf input marshal) : heap.Fits set marshal tree.native := by
  induction input using HostValue.induct generalizing marshal tree with
  | object properties =>
    cases marshal with
    | nested name byReference =>
      cases hn : set.planOf? name with
      | none =>
        rw [PlanSet.imageOf] at hi
        simp only [hn] at hi
        exact .of_null hi
      | some plan =>
        rw [PlanSet.imageOf_nested set hn] at hi
        cases byReference with
        | false => exact .of_struct hh hn hi
        | true => exact .of_single hh hn hi
    | _ => exact .of_null hi
  | array items ih =>
    rw [PlanSet.imageOf] at hi
    cases he : marshal.element? with
    | none =>
      simp only [he] at hi
      exact .of_null hi
    | some element =>
      simp only [he, PlanSet.imagesOf_eq] at hi
      obtain ⟨id, trees, rfl, himages⟩ := Tree.eq_of_image_array hi
      rw [Tree.blocks_array] at hh
      refine .array he (hh _ List.mem_cons_self) ?_
      intro value hv
      obtain ⟨item, hitem, rfl⟩ := List.mem_map.mp hv
      have hmem : item.image ∈ items.map fun item => set.imageOf item element :=
        himages ▸ List.mem_map_of_mem hitem
      obtain ⟨input, hinput, himage⟩ := List.mem_map.mp hmem
      refine ih input hinput ?_ himage.symm
      intro block hb
      exact hh.tail block (List.mem_flatMap.mpr ⟨item, hitem, hb⟩)
  | other value ho ha =>
    by_cases hstring : ∃ text, value = .string text ∧ marshal = .string
    · obtain ⟨text, rfl, rfl⟩ := hstring
      obtain ⟨id, rfl⟩ := Tree.eq_of_image_cString hi
      exact .string (hh _ List.mem_cons_self)
    · have hscalar : set.imageOf value marshal = (set.scalarOf marshal value).tree := by
        cases value with
        | object properties => exact absurd rfl (ho properties)
        | array items => exact absurd rfl (ha items)
        | string text =>
          cases marshal with
          | string => exact absurd ⟨text, rfl, rfl⟩ hstring
          | _ => rfl
        | _ => rfl
      rw [hscalar] at hi
      exact .of_value (set.isScalar_scalarOf marshal value) PlanSet.scalarOf_of_releases hi

end Heap

/-- May the field of a member that is marshaled so start like this? -/
def FieldInit.Suits (marshal : Marshal) : FieldInit → Prop
  | .embedded name => marshal = .nested name false
  | .null => True
  | _ => marshal.ownership.releases = false

theorem Marshal.isPointer_of_releases (h : marshal.ownership.releases = true) :
    marshal.isPointer = true ∨ ∃ name, marshal = .nested name false := by
  cases marshal with
  | nested name byReference => cases byReference <;> simp [Marshal.isPointer]
  | number | boolean | enumeration | bitmask | unwrap | buffer => cases h
  | _ => exact Or.inl rfl

theorem PlanSet.Regular.suits {field : FieldPlan} (hs : set.Regular) (hp : plan ∈ set.plans)
    (hm : member ∈ plan.members) (hf : field ∈ plan.fields) (hname : field.name = member.name) :
    field.init.Suits member.marshal := by
  have hstarts := hs.starts plan hp
  have howning : member.marshal.ownership.releases = true →
      field.init = .null ∨ ∃ name, field.init = .embedded name := by
    intro hr
    rcases Marshal.isPointer_of_releases hr with hpointer | ⟨name, hn⟩
    · exact Or.inl (hstarts.pointer member hm hpointer field hf hname)
    · exact Or.inr ⟨name, hstarts.inPlace member hm name hn field hf hname⟩
  cases hi : field.init with
  | embedded name => exact (hs.plans plan hp).embedded member hm field hf hname name hi
  | null => trivial
  | _ =>
    show member.marshal.ownership.releases = false
    rw [hi] at howning
    rw [← Bool.not_eq_true]
    intro hr
    rcases howning hr with h | ⟨name, h⟩ <;> cases h

namespace Heap

theorem Means.shape (h : heap.Means set plan native) :
    native.typeName = plan.name ∧ Entries.keys native.fields = plan.fields.map (·.name) := by
  obtain ⟨next, properties, hr⟩ := h
  have hshape := hr.shape
  rwa [PlanSet.names_structImage] at hshape

theorem fits_of_init {init : FieldInit} (hs : set.Regular) (hh : heap.Holds tree.blocks)
    (hi : tree.image = (set.initValue init).tree) (h : init.Suits marshal) :
    heap.Fits set marshal tree.native := by
  cases init with
  | embedded name =>
    cases h
    cases hn : set.planOf? name with
    | none =>
      rw [PlanSet.initValue_embedded_none hn] at hi
      exact .of_null hi
    | some nested =>
      rw [PlanSet.initValue_embedded hn, NativeValue.tree,
        hs.image_reset (PlanSet.planOf?_mem hn)] at hi
      have himage : tree.image = .struct (set.structImage nested none (set.imageGiven [])) := hi
      exact Fits.of_struct hh hn himage
  | null => exact .of_null hi
  | _ =>
    refine .of_value (PlanSet.isScalar_initValue ?_) ?_ hi
    · intro name he
      cases he
    · intro hr
      rw [show marshal.ownership.releases = false from h] at hr
      cases hr

/-- The slot of a member holds what its marshaling puts there, or what its field starts from. -/
theorem Means.slot (hs : set.Regular) (hp : plan ∈ set.plans) (h : heap.Means set plan native)
    (hm : member ∈ plan.members) (hg : native.get? member.name = some value) :
    heap.Fits set member.marshal value := by
  obtain ⟨next, properties, hr⟩ := h
  obtain ⟨tree, rfl, hh, hi⟩ := hr.slot hg
  obtain ⟨field, hf, hname, hi⟩ := PlanSet.exists_field_of_get? hi
  rw [PlanSet.fieldImage_member (hs.plans plan hp) hm hname, PlanSet.imageGiven_eq] at hi
  cases hgiven : member.given? properties with
  | some input =>
    rw [hgiven] at hi
    exact fits_of_imageOf hh hi
  | none =>
    rw [hgiven] at hi
    exact fits_of_init hs hh hi (hs.suits hp hm hf hname)

theorem Means.field (hs : set.Regular) (h : heap.Means set plan native)
    (hg : native.get? name = some value) : ∃ marshal, heap.Fits set marshal value := by
  obtain ⟨next, properties, hr⟩ := h
  obtain ⟨tree, rfl, hh, hi⟩ := hr.slot hg
  obtain ⟨field, -, -, hi⟩ := PlanSet.exists_field_of_get? hi
  rcases set.fieldImage_cases plan.members (set.imageGiven properties) field with
    ⟨member, -, -, hfield⟩ | ⟨_, -, length, count, -, -, -, hfield⟩ | hfield
  · rw [← hi, PlanSet.imageGiven_eq] at hfield
    obtain ⟨input, -, himage⟩ := Option.map_eq_some_iff.mp hfield.symm
    exact ⟨member.marshal, fits_of_imageOf hh himage.symm⟩
  · rw [hfield] at hi
    exact ⟨.boolean, .of_value (isScalar_ofCount length.type count) nofun hi⟩
  · rw [hfield] at hi
    cases hinit : field.init with
    | embedded inner => exact ⟨.nested inner false, fits_of_init hs hh hi (by rw [hinit]; rfl)⟩
    | null => exact ⟨.boolean, fits_of_init hs hh hi (by rw [hinit]; trivial)⟩
    | _ => exact ⟨.boolean, fits_of_init hs hh hi (by rw [hinit]; rfl)⟩

/-- What a fitting slot leads to is read by some plan. The induction follows the pointers; a block
that is read as one kind is not read as another. -/
theorem Fits.contains (hs : set.Regular) (h : heap.Fits set marshal value)
    (hc : heap.Contains value inner) : ∃ plan ∈ set.plans, heap.Means set plan inner := by
  induction hc generalizing marshal with
  | here =>
    cases h with
    | scalar hv => cases hv
    | nested found means => exact ⟨_, PlanSet.planOf?_mem found, means⟩
  | field slot _ ih =>
    cases h with
    | scalar hv => cases hv
    | nested found means =>
      obtain ⟨marshal, hfits⟩ := means.field hs slot
      exact ih hfits
  | single read _ ih =>
    cases h with
    | scalar hv => cases hv
    | reference found other means =>
      rw [read] at other
      cases other
      exact ih (.nested found means)
    | array _ other | string other =>
      rw [read] at other
      cases other
  | item read mem _ ih =>
    cases h with
    | scalar hv => cases hv
    | array _ other items =>
      rw [read] at other
      cases other
      exact ih (items _ mem)
    | reference _ other | string other =>
      rw [read] at other
      cases other

theorem Means.contains (hs : set.Regular) (hp : plan ∈ set.plans)
    (h : heap.Means set plan native) (hc : heap.Contains (.struct native) inner) :
    ∃ plan ∈ set.plans, heap.Means set plan inner := by
  cases hc with
  | here => exact ⟨plan, hp, h⟩
  | field slot hc =>
    obtain ⟨marshal, hfits⟩ := h.field hs slot
    exact hfits.contains hs hc

end Heap

variable {options : SchemaOptions} {document : Idl.Document} {bindings : Bindings}
  {input : HostValue} {context after : Context}

theorem PlanSet.Coherent.decode_means (hs : set.Coherent) (hp : plan ∈ set.plans)
    (h : set.decode plan input next context = (.ok native, after)) :
    after.heap.Means set plan native := by
  have hd := hs.decoded hp input next context
  rw [h] at hd
  cases hd with
  | @ok properties layout blocks object owned found reads =>
    exact ⟨_, properties, layout, rfl, (Heap.holds_extend context.heap blocks).perm found.symm,
      reads⟩

theorem PlanSet.Coherent.reset_means (hs : set.Coherent) (hp : plan ∈ set.plans) :
    heap.Means set plan (set.reset plan) := by
  have hnative := NativeStruct.native_tree _ (hs.pointers_reset plan hp)
  refine ⟨none, [], (set.reset plan).tree, hnative, ?_, ?_⟩
  · rw [NativeStruct.blocks_tree]
    nofun
  · rw [NativeStruct.image_tree, hs.image_reset hp]
    rfl

end DescriptorMarshal
