import DescriptorMarshal.Proofs.Declaration
import DescriptorMarshal.Proofs.Lookup

/-!
The values of enums and bitmasks by name. Three lookups take a name to an integer: a default is the
first value declared under either of two spellings, a node gives the first under its host name or
as written, and a table the last under its host name. They come to one integer for a name that
denotes one.
-/

namespace DescriptorMarshal

/-- Does the value go by the name, as written or in upper snake case? -/
def NamedValue.goesBy (value : NamedValue) (name : String) : Bool :=
  value.textName == name || upperSnakeCase value.textName == name

/-- The first value that goes by the name, and every value that the host knows by it, have one
integer. -/
structure ValueSet.Denotes (set : ValueSet) (name : String) (bits : UInt32) : Prop where
  first : (set.values.find? fun value => value.goesBy name).map (·.value) = some bits
  host : ∀ value ∈ set.values, value.name = name → value.value = bits

/-- A value as it is assembled from the constant of a record. -/
structure NamedValue.Assembled (isBitmask : Bool) (constant : Idl.Constant) (value : NamedValue) :
    Prop where
  name : value.name = if isBitmask then upperSnakeCase constant.name else constant.name
  textName : value.textName = constant.name
  value : (value.value.toNat : Int) = constant.value

variable {isBitmask : Bool} {constants : List Idl.Constant} {values : List NamedValue}
  {set other : ValueSet} {name owner : String} {bits : UInt32}

theorem assembleValues_forall₂ (h : assembleValues owner isBitmask constants = .ok values) :
    List.Forall₂ (NamedValue.Assembled isBitmask) constants values := by
  refine (forall₂_of_mapM h).imp ?_
  intro constant value hvalue
  split at hvalue
  · next hrange =>
    cases hvalue
    exact ⟨rfl, rfl, IntRange.toNat_ofInt hrange⟩
  · cases hvalue

theorem exists_find? {α : Type} (p : α → Bool) {items : List α} {item : α} (hm : item ∈ items)
    (hp : p item = true) :
    ∃ found, items.find? p = some found ∧ found ∈ items ∧ p found = true := by
  obtain ⟨found, hf⟩ := Option.isSome_iff_exists.mp (List.find?_isSome.mpr ⟨item, hm, hp⟩)
  exact ⟨found, hf, List.mem_of_find?_eq_some hf, List.find?_some hf⟩

theorem find?_congr {α : Type} {p q : α → Bool} {items : List α}
    (h : ∀ item ∈ items, p item = q item) : items.find? p = items.find? q := by
  induction items with
  | nil => rfl
  | cons item rest ih =>
    rw [List.find?_cons, List.find?_cons, h item List.mem_cons_self,
      ih fun other ho => h other (List.mem_cons_of_mem _ ho)]

/-- A default is the first value that goes by its name. -/
theorem findConstant?_eq (h : List.Forall₂ (NamedValue.Assembled isBitmask) constants values)
    (name : String) :
    (findConstant? constants name).map (·.value) =
      (values.find? fun value => value.goesBy name).map fun value => (value.value.toNat : Int) := by
  induction h with
  | nil => rfl
  | @cons constant value _ _ hr _ ih =>
    have hgoes : value.goesBy name =
        (constant.name == name || upperSnakeCase constant.name == name) := by
      rw [NamedValue.goesBy, hr.textName]
    rw [findConstant?, List.find?_cons, List.find?_cons, hgoes]
    cases constant.name == name || upperSnakeCase constant.name == name with
    | true => exact congrArg some hr.value.symm
    | false => exact ih

/-- The host names of a set are all of one spelling. -/
def ValueSet.Spelled (set : ValueSet) (isBitmask : Bool) : Prop :=
  ∀ value ∈ set.values,
    value.name = if isBitmask then upperSnakeCase value.textName else value.textName

theorem ValueSet.Spelled.of_assembled
    (h : List.Forall₂ (NamedValue.Assembled isBitmask) constants set.values) :
    set.Spelled isBitmask := by
  intro value hv
  obtain ⟨constant, -, hr⟩ := exists_of_mem_right h hv
  rw [hr.name, hr.textName]

theorem ValueSet.Denotes.valueOf? (h : set.Denotes name bits) (hs : set.Spelled isBitmask)
    (hn : name ∈ set.values.map (·.name)) : set.valueOf? name = some bits := by
  rw [ValueSet.valueOf?]
  cases isBitmask with
  | true =>
    -- either name of a bitmask value is a spelling that it goes by
    have hsame : ∀ value ∈ set.values,
        (value.name == name || value.textName == name) = value.goesBy name := by
      intro value hv
      rw [hs value hv, NamedValue.goesBy, Bool.or_comm]
      rfl
    rw [find?_congr hsame, h.first]
  | false =>
    obtain ⟨known, hknown, hname⟩ := List.mem_map.mp hn
    have hgoes : (known.name == name || known.textName == name) = true := by simp [hname]
    obtain ⟨value, hfound, hmem, hvalue⟩ :=
      exists_find? (fun value => value.name == name || value.textName == name) hknown hgoes
    have htext : value.name = value.textName := hs value hmem
    have hhost : value.name = name := by simpa [← htext] using hvalue
    rw [hfound, Option.map_some, h.host value hmem hhost]

theorem ValueSet.Denotes.value? (h : set.Denotes name bits)
    (hn : name ∈ set.values.map (·.name)) : (NameTable.ofValueSet set).value? name = some bits := by
  rw [NameTable.value?, NameTable.ofValueSet, Entries.get?_ofList]
  obtain ⟨known, hknown, hname⟩ := List.mem_map.mp hn
  have hput : (known.name, known.value) ∈
      (set.values.map fun value => (value.name, value.value)).reverse :=
    List.mem_reverse.mpr (List.mem_map_of_mem hknown)
  have hkey : (known.name == name) = true := by simp [hname]
  obtain ⟨entry, hfound, hmem, hentry⟩ :=
    exists_find? (fun entry => entry.1 == name) hput hkey
  obtain ⟨value, hvalue, rfl⟩ := List.mem_map.mp (List.mem_reverse.mp hmem)
  rw [hfound, Option.map_some, h.host value hvalue (by simpa using hentry)]

variable {options : SchemaOptions} {document : Idl.Document} {schema : Schema}
  {assembler : Assembler} {stub : Idl.Stub} {raw : Idl.Member} {type : TypeDescriptor}

/-- One value of an enum or bitmask, in place. -/
structure TypeDescriptor.IsConstant (type : TypeDescriptor) : Prop where
  reference : type.isReference = false
  kind : type.kind = .enumeration ∨ type.kind = .bitmask

theorem TypeDescriptor.IsConstant.isArray (h : type.IsConstant) (hr : type.Resolved) :
    type.isArray = false :=
  hr.not_array h.reference

theorem TypeDescriptor.IsConstant.category (h : type.IsConstant) :
    ∃ category, type.kind = kindOfCategory category := by
  rcases h.kind with hk | hk
  · exact ⟨.enumeration, hk⟩
  · exact ⟨.bitmask, hk⟩

theorem Assembler.node_values {node : SchemaNode} (h : assembler.node stub = .ok node)
    (hn : node = .enumeration set ∨ node = .bitmask set) :
    ∃ isBitmask,
      List.Forall₂ (NamedValue.Assembled isBitmask) stub.record.values set.values := by
  unfold Assembler.node at h
  cases hc : stub.category with
  | enumeration | bitmask =>
    simp only [hc] at h
    obtain ⟨values, hv, h⟩ := ok_of_bind h
    cases h
    rcases hn with hn | hn <;> cases hn
    exact ⟨_, assembleValues_forall₂ hv⟩
  | object | struct =>
    simp only [hc] at h
    obtain ⟨_, -, h⟩ := ok_of_bind h
    cases h
    rcases hn with hn | hn <;> cases hn

theorem valueSet?_parts (h : schema.valueSet? name = some set) :
    ∃ node, schema.byDeclaration? name = some node ∧
      (node = .enumeration set ∨ node = .bitmask set) := by
  unfold Schema.valueSet? at h
  split at h
  · next hnode =>
    cases h
    exact ⟨_, hnode, .inl rfl⟩
  · next hnode =>
    cases h
    exact ⟨_, hnode, .inr rfl⟩
  · cases h

theorem Assembler.Made.exists_record (h : assembler.Made document schema)
    (hg : assembler.resolver.Gives raw type) (hc : type.IsConstant)
    (hv : schema.valueSet? type.nativeType = some set) :
    ∃ entry stub isBitmask, assembler.resolver.index.get? raw.typeName = some entry ∧
      assembler.stubs[entry.position]? = some stub ∧
        List.Forall₂ (NamedValue.Assembled isBitmask) stub.record.values set.values := by
  obtain ⟨named, hnamed, hkind, hnative⟩ := hg.named
  obtain ⟨category, hcategory⟩ := hc.category
  obtain ⟨entry, he, -, hname⟩ := Resolver.classify?_refers hnamed (hkind.symm.trans hcategory)
  obtain ⟨node, hnode, hset⟩ := valueSet?_parts hv
  obtain ⟨other, hother, hat⟩ := Option.bind_eq_some_iff.mp hnode
  -- the entry of the type name and that of the declaration name are one
  have hmem : entry ∈ schema.index.entries := h.index ▸ NodeIndex.mem_of_get? he
  have hfound := h.lists.byDeclaration?_iff.mpr ⟨hmem, hname.trans hnative.symm⟩
  rw [hfound, Option.some.injEq] at hother
  subst hother
  obtain ⟨stub, hs, -⟩ := h.lists.mem_iff.mp hmem
  obtain ⟨hi, rfl⟩ := List.getElem?_eq_some_iff.mp hs
  obtain ⟨hj, rfl⟩ := List.getElem?_eq_some_iff.mp hat
  obtain ⟨isBitmask, hall⟩ := Assembler.node_values (h.nodes.get hi hj) hset
  exact ⟨_, _, isBitmask, he, hs, hall⟩

theorem mem_valueSets :
    set ∈ schema.enums ++ schema.bitmasks ↔
      ∃ node ∈ schema.nodes, node = .enumeration set ∨ node = .bitmask set := by
  rw [List.mem_append, Schema.enums, Schema.bitmasks, List.mem_filterMap, List.mem_filterMap]
  constructor
  · rintro (⟨node, hm, he⟩ | ⟨node, hm, he⟩) <;> cases node <;> cases he
    · exact ⟨_, hm, .inl rfl⟩
    · exact ⟨_, hm, .inr rfl⟩
  · rintro ⟨_, hm, rfl | rfl⟩
    · exact .inl ⟨_, hm, rfl⟩
    · exact .inr ⟨_, hm, rfl⟩

theorem valueSet?_mem (hs : assemble options document = .ok schema)
    (h : schema.valueSet? name = some set) :
    set ∈ schema.enums ++ schema.bitmasks ∧ set.header.declarationName = name := by
  obtain ⟨node, hnode, hset⟩ := valueSet?_parts h
  obtain ⟨hmem, hname⟩ := byDeclaration?_spec hs hnode
  refine ⟨mem_valueSets.mpr ⟨node, hmem, hset⟩, ?_⟩
  rcases hset with rfl | rfl <;> exact hname

theorem valueSet_unique (hs : assemble options document = .ok schema)
    (hm : set ∈ schema.enums ++ schema.bitmasks) (ho : other ∈ schema.enums ++ schema.bitmasks)
    (hn : other.header.declarationName = set.header.declarationName) : other = set := by
  obtain ⟨node, hnode, hset⟩ := mem_valueSets.mp hm
  obtain ⟨node', hnode', hother⟩ := mem_valueSets.mp ho
  have hsame : node' = node := by
    refine List.inj_on_of_nodup_map (assemble_nodup hs) hnode' hnode ?_
    rcases hset with rfl | rfl <;> rcases hother with rfl | rfl <;> exact hn
  subst hsame
  rcases hset with rfl | rfl <;> rcases hother with hother | hother <;> cases hother <;> rfl

theorem PlanSet.tableOf?_of_mem {plans : PlanSet} (hs : assemble options document = .ok schema)
    (hb : PlanSet.build schema = .ok plans) (hm : set ∈ schema.enums ++ schema.bitmasks) :
    plans.tableOf? set.header.declarationName = some (.ofValueSet set) := by
  have hlisted : NameTable.ofValueSet set ∈ plans.tables := by
    rw [tables_eq hb]
    exact List.mem_map_of_mem hm
  obtain ⟨table, hfound, htable, hkey⟩ :=
    exists_find? (fun table => table.declarationName == set.header.declarationName) hlisted
      (beq_self_eq_true _)
  rw [tables_eq hb] at htable
  obtain ⟨other, hother, rfl⟩ := List.mem_map.mp htable
  rw [tableOf?, hfound, valueSet_unique hs hm hother (by simpa [NameTable.ofValueSet] using hkey)]

theorem PlanSet.tableOf?_valueSet {plans : PlanSet} (hs : assemble options document = .ok schema)
    (hb : PlanSet.build schema = .ok plans) (hv : schema.valueSet? name = some set) :
    plans.tableOf? name = some (.ofValueSet set) := by
  obtain ⟨hmem, rfl⟩ := valueSet?_mem hs hv
  exact tableOf?_of_mem hs hb hmem

end DescriptorMarshal
