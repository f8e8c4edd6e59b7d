import DescriptorMarshal.Schema.Assemble
import Mathlib.Data.List.Forall2
import Mathlib.Data.List.Induction
import Mathlib.Data.List.Nodup

/-!
What an assembled schema can be relied on for: structures have names of their own and are found by
them, their members are the members of the document's records, and the flags of a resolved type
fit together.
-/

namespace DescriptorMarshal

section Steps

variable {ε α β : Type}

theorem ok_of_bind {x : Except ε α} {f : α → Except ε β} {b : β} (h : (x >>= f) = .ok b) :
    ∃ a, x = .ok a ∧ f a = .ok b := by
  cases x with
  | error e => cases h
  | ok a => exact ⟨a, rfl, h⟩

theorem forall₂_of_mapM {f : α → Except ε β} {items : List α} {results : List β}
    (h : items.mapM f = .ok results) :
    List.Forall₂ (fun item result => f item = .ok result) items results := by
  induction items generalizing results with
  | nil =>
    rw [List.mapM_nil] at h
    cases h
    exact .nil
  | cons item rest ih =>
    rw [List.mapM_cons] at h
    obtain ⟨result, hf, h⟩ := ok_of_bind h
    obtain ⟨results, hr, h⟩ := ok_of_bind h
    cases h
    exact .cons hf (ih hr)

theorem exists_of_mem_right {R : α → β → Prop} {items : List α} {results : List β}
    (h : List.Forall₂ R items results) {result : β} (hm : result ∈ results) :
    ∃ item ∈ items, R item result := by
  induction h with
  | nil => cases hm
  | cons hr _ ih =>
    rcases List.mem_cons.mp hm with rfl | hm
    · exact ⟨_, List.mem_cons_self, hr⟩
    · obtain ⟨item, hi, hr⟩ := ih hm
      exact ⟨item, List.mem_cons_of_mem _ hi, hr⟩

theorem exists_of_mem_left {R : α → β → Prop} {items : List α} {results : List β}
    (h : List.Forall₂ R items results) {item : α} (hm : item ∈ items) :
    ∃ result ∈ results, R item result :=
  exists_of_mem_right h.flip hm

theorem map_eq_of_forall₂ {γ : Type} {R : α → β → Prop} {f : α → γ} {g : β → γ}
    {items : List α} {results : List β} (h : List.Forall₂ R items results)
    (hr : ∀ item result, R item result → g result = f item) : results.map g = items.map f := by
  induction h with
  | nil => rfl
  | cons hhead _ ih => rw [List.map_cons, List.map_cons, hr _ _ hhead, ih]

theorem find?_key_iff {key : α → String} {items : List α} {item : α} {wanted : String}
    (hd : ∀ first ∈ items, ∀ second ∈ items, key first = key second → first = second) :
    items.find? (fun other => key other == wanted) = some item ↔
      item ∈ items ∧ key item = wanted := by
  constructor
  · intro h
    exact ⟨List.mem_of_find?_eq_some h, by simpa using List.find?_some h⟩
  · rintro ⟨hm, rfl⟩
    have hsome : (items.find? fun other => key other == key item).isSome = true :=
      List.find?_isSome.mpr ⟨item, hm, by simp⟩
    obtain ⟨found, hf⟩ := Option.isSome_iff_exists.mp hsome
    have hkey : key found = key item := by simpa using List.find?_some hf
    rw [hf, hd found (List.mem_of_find?_eq_some hf) item hm hkey]

end Steps

/-- How the flags of a resolved type fit together. -/
structure TypeDescriptor.Resolved (type : TypeDescriptor) : Prop where
  ownership : type.ownership =
    ownershipOf type.kind type.isArray type.isReference type.isArrayOfPointers
  reference_of_array : type.isArray = true → type.isReference = true
  array_of_pointers : type.isArrayOfPointers = true → type.isArray = true

namespace TypeDescriptor.Resolved

variable {type : TypeDescriptor}

theorem not_array (h : type.Resolved) (hr : type.isReference = false) : type.isArray = false := by
  rw [← Bool.not_eq_true]
  intro ha
  rw [h.reference_of_array ha] at hr
  cases hr

theorem not_array_of_pointers (h : type.Resolved) (ha : type.isArray = false) :
    type.isArrayOfPointers = false := by
  rw [← Bool.not_eq_true]
  intro hp
  rw [h.array_of_pointers hp] at ha
  cases ha

end TypeDescriptor.Resolved

/-- What the resolved type of a member takes over from its declaration. -/
structure Resolver.Gives (resolver : Resolver) (raw : Idl.Member) (type : TypeDescriptor) : Prop
    extends type.Resolved where
  named : ∃ named, resolver.classify? raw.typeName = some named ∧ type.kind = named.kind ∧
    type.nativeType = named.nativeType
  string : type.kind = .string → type.isReference = true ∧ type.isArray = false
  presence : type.presence = if raw.isOptional || raw.default.isSome then .optional else .required

theorem Resolver.resolve_gives {resolver : Resolver} {owner name : String} {raw : Idl.Member}
    {type : TypeDescriptor} (h : resolver.resolve owner name raw = .ok type) :
    resolver.Gives raw type := by
  unfold Resolver.resolve at h
  cases hc : resolver.classify? raw.typeName with
  | none => simp [hc] at h
  | some named =>
    cases hi : Indirection.ofText? raw.indirection with
    | none => simp [hc, hi] at h
    | some indirection =>
      cases hl : LengthSource.ofJson? raw.length with
      | none => simp [hc, hi, hl] at h
      | some length =>
        simp only [hc, hi, hl] at h
        split at h
        · cases h
        next hstring =>
        split at h
        · cases h
        split at h
        · cases h
        cases h
        -- the only string that passes is one that is no array of pointers
        refine ⟨⟨rfl, ?_, ?_⟩, ⟨named, hc, rfl, rfl⟩, ?_, rfl⟩
        · intro ha
          cases indirection <;> simp_all
        · intro hp
          cases hk : named.kind <;> simp_all
        · intro hk
          dsimp only at hk
          simp only [hk, beq_self_eq_true, true_and, not_not] at hstring
          exact ⟨hstring.2.1, by simp [hk]⟩

theorem Assembler.member_parts {assembler : Assembler} {owner : String} {raw : Idl.Member}
    {member : Member} (h : assembler.member owner raw = .ok member) :
    member.name = camelCase raw.name ∧
      ∃ type, assembler.resolver.resolve owner (camelCase raw.name) raw = .ok type ∧
        (raw.default = none ∧ member.default = none ∨
          ∃ value, raw.default = some value ∧
            readDefault assembler.stubs assembler.resolver.index raw.typeName type value =
              .ok member.default) ∧
        member.type = { type with
          initialValue := if type.isReference || type.isArray then none
            else initialOf type.kind member.default } := by
  obtain ⟨type, ht, h⟩ := ok_of_bind h
  dsimp only at h
  split at h
  · next hnone =>
    cases h
    exact ⟨rfl, type, ht, .inl ⟨hnone, rfl⟩, rfl⟩
  · next value hsome =>
    split at h
    · next default hread =>
      cases h
      exact ⟨rfl, type, ht, .inr ⟨value, hsome, hread⟩, rfl⟩
    · cases h

theorem Assembler.member_gives {assembler : Assembler} {owner : String} {raw : Idl.Member}
    {member : Member} (h : assembler.member owner raw = .ok member) :
    assembler.resolver.Gives raw member.type := by
  obtain ⟨-, type, ht, -, htype⟩ := member_parts h
  have hgives := Resolver.resolve_gives ht
  rw [htype]
  exact ⟨⟨hgives.ownership, hgives.reference_of_array, hgives.array_of_pointers⟩, hgives.named,
    hgives.string, hgives.presence⟩

theorem Assembler.members_forall₂ {assembler : Assembler} {owner : String}
    {raw : List Idl.Member} {members : List Member}
    (h : assembler.members owner raw = .ok members) :
    List.Forall₂ (fun item member => assembler.member owner item = .ok member) raw members := by
  obtain ⟨members', hm, h⟩ := ok_of_bind h
  obtain ⟨_, -, h⟩ := ok_of_bind h
  cases h
  exact forall₂_of_mapM hm

structure StructureNode.Assembled (stub : Idl.Stub) (node : StructureNode) : Prop where
  category : stub.category = .struct
  names : node.members.map (·.name) = stub.record.members.map fun raw => camelCase raw.name
  types : ∀ member ∈ node.members, member.type.Resolved

structure SchemaNode.Assembled (naming : Naming) (stub : Idl.Stub) (node : SchemaNode) :
    Prop where
  name : node.header.declarationName = naming.declarationName stub.textName
  struct : ∀ inner, node = .struct inner → inner.Assembled stub

theorem Assembler.node_assembled {assembler : Assembler} {stub : Idl.Stub} {node : SchemaNode}
    (h : assembler.node stub = .ok node) : node.Assembled assembler.resolver.naming stub := by
  unfold Assembler.node at h
  cases hc : stub.category with
  | enumeration | bitmask | object =>
    simp only [hc] at h
    obtain ⟨_, -, h⟩ := ok_of_bind h
    cases h
    exact ⟨rfl, nofun⟩
  | struct =>
    simp only [hc] at h
    obtain ⟨members, hm, h⟩ := ok_of_bind h
    cases h
    have hall := Assembler.members_forall₂ hm
    refine ⟨rfl, ?_⟩
    intro inner he
    cases he
    refine ⟨hc, map_eq_of_forall₂ hall fun raw member hr => (member_parts hr).1, ?_⟩
    intro member hi
    obtain ⟨raw, -, hr⟩ := exists_of_mem_right hall hi
    exact (member_gives hr).toResolved

namespace NodeIndex

def entryAt (naming : Naming) (position : Nat) (stub : Idl.Stub) : IndexEntry where
  textName := stub.textName
  position := position
  category := stub.category
  declarationName := naming.declarationName stub.textName
  externalName := naming.externalName stub.textName

def declarationNames (naming : Naming) (stubs : List Idl.Stub) : List String :=
  stubs.map fun stub => naming.declarationName stub.textName

/-- Each record under both of its names, at its own position. -/
def indexOf (naming : Naming) (stubs : List Idl.Stub) : NodeIndex where
  byTextName := stubs.mapIdx fun position stub => (stub.textName, entryAt naming position stub)
  textNames := stubs.map fun stub => (naming.declarationName stub.textName, stub.textName)

variable {naming : Naming} {index : NodeIndex} {init stubs : List Idl.Stub} {last : Idl.Stub}
  {e : SchemaError} {first : String}

theorem entries_indexOf (naming : Naming) (stubs : List Idl.Stub) :
    (indexOf naming stubs).entries = stubs.mapIdx (entryAt naming) := by
  rw [entries, indexOf]
  exact List.ext_getElem? fun i => by simp [Function.comp_def]

theorem keys_textNames (naming : Naming) (stubs : List Idl.Stub) :
    Entries.keys (indexOf naming stubs).textNames = declarationNames naming stubs := by
  rw [Entries.keys, indexOf, List.map_map]
  rfl

theorem keys_byTextName (naming : Naming) (stubs : List Idl.Stub) :
    Entries.keys (indexOf naming stubs).byTextName = stubs.map (·.textName) := by
  rw [Entries.keys, indexOf]
  exact List.ext_getElem? fun i => by simp [Function.comp_def]

theorem add_indexOf (h : naming.declarationName last.textName ∉ declarationNames naming init) :
    add naming (indexOf naming init) last init.length = .ok (indexOf naming (init ++ [last])) := by
  rw [← keys_textNames] at h
  -- a repeated text name would repeat the declaration name
  have hnew : last.textName ∉ Entries.keys (indexOf naming init).byTextName := by
    rw [keys_byTextName]
    intro hm
    obtain ⟨stub, hs, hname⟩ := List.mem_map.mp hm
    rw [keys_textNames] at h
    exact h (List.mem_map.mpr ⟨stub, hs, congrArg naming.declarationName hname⟩)
  unfold add
  simp only [Entries.get?_of_notMem h, Entries.put_eq_append hnew, Entries.put_eq_append h]
  simp [indexOf, entryAt, List.mapIdx_append]

theorem add_clash (h : (indexOf naming init).textNames.get?
    (naming.declarationName last.textName) = some first) (position : Nat) :
    add naming (indexOf naming init) last position =
      .error (.duplicateName (naming.declarationName last.textName) first last.textName) := by
  unfold add
  simp only [h]

theorem build_concat (naming : Naming) (init : List Idl.Stub) (last : Idl.Stub) :
    build naming (init ++ [last]) =
      build naming init >>= fun index => add naming index last init.length := by
  rw [build, List.zipIdx_append, List.foldlM_append, Nat.zero_add]
  exact congrArg _ (funext fun index => bind_pure _)

theorem mem_of_get? {name : String} {entry : IndexEntry} (h : index.get? name = some entry) :
    entry ∈ index.entries :=
  List.mem_map_of_mem (Entries.mem_of_get? h)

/-- The index of records with declaration names of their own. -/
structure Lists (naming : Naming) (index : NodeIndex) (stubs : List Idl.Stub) : Prop where
  eq : index = indexOf naming stubs
  distinct : (declarationNames naming stubs).Nodup

/-- The index is built exactly when no two records derive one declaration name. -/
theorem build_iff : build naming stubs = .ok index ↔ Lists naming index stubs := by
  induction stubs using List.reverseRecOn generalizing index with
  | nil => exact ⟨fun h => ⟨(Except.ok.inj h).symm, List.nodup_nil⟩, fun h => h.eq ▸ rfl⟩
  | append_singleton init last ih =>
    have hnames : (declarationNames naming (init ++ [last])).Nodup ↔
        (declarationNames naming init).Nodup ∧
          naming.declarationName last.textName ∉ declarationNames naming init := by
      rw [declarationNames, List.map_append, List.nodup_append_comm]
      exact List.nodup_cons.trans and_comm
    rw [build_concat]
    constructor
    · intro h
      obtain ⟨before, hb, ha⟩ := ok_of_bind h
      obtain ⟨rfl, hinit⟩ := ih.mp hb
      cases hf : (indexOf naming init).textNames.get? (naming.declarationName last.textName) with
      | some first =>
        rw [add_clash hf] at ha
        cases ha
      | none =>
        have hnew : naming.declarationName last.textName ∉ declarationNames naming init := by
          intro hm
          rw [← keys_textNames] at hm
          obtain ⟨first, hfirst⟩ := Entries.get?_of_mem_keys hm
          cases hf.symm.trans hfirst
        rw [add_indexOf hnew] at ha
        exact ⟨(Except.ok.inj ha).symm, hnames.mpr ⟨hinit, hnew⟩⟩
    · rintro ⟨rfl, hdistinct⟩
      obtain ⟨hinit, hnew⟩ := hnames.mp hdistinct
      rw [ih.mpr ⟨rfl, hinit⟩]
      exact add_indexOf hnew

namespace Lists

variable {entry : IndexEntry} {stub : Idl.Stub} {name : String} {position : Nat}

theorem entries (h : Lists naming index stubs) :
    index.entries = stubs.mapIdx (entryAt naming) := by
  rw [h.eq, entries_indexOf]

theorem mem_iff (h : Lists naming index stubs) : entry ∈ index.entries ↔
    ∃ stub, stubs[entry.position]? = some stub ∧ entry = entryAt naming entry.position stub := by
  rw [h.entries, List.mem_mapIdx]
  constructor
  · rintro ⟨i, hi, rfl⟩
    exact ⟨stubs[i], List.getElem?_eq_getElem hi, rfl⟩
  · rintro ⟨stub, hs, he⟩
    obtain ⟨hi, rfl⟩ := List.getElem?_eq_some_iff.mp hs
    exact ⟨entry.position, hi, he.symm⟩

theorem entryAt_mem (h : Lists naming index stubs) (hs : stubs[position]? = some stub) :
    entryAt naming position stub ∈ index.entries :=
  h.mem_iff.mpr ⟨stub, hs, rfl⟩

theorem nodup (h : Lists naming index stubs) :
    (index.entries.map (·.declarationName)).Nodup := by
  have hnames : index.entries.map (·.declarationName) = declarationNames naming stubs := by
    rw [h.entries]
    exact List.ext_getElem? fun i => by simp [declarationNames, entryAt, Function.comp_def]
  rw [hnames]
  exact h.distinct

theorem get?_iff (h : Lists naming index stubs) :
    index.get? name = some entry ↔ entry ∈ index.entries ∧ entry.textName = name := by
  have hkeys : (Entries.keys index.byTextName).Nodup := by
    rw [h.eq, keys_byTextName]
    apply List.Nodup.of_map naming.declarationName
    rw [List.map_map]
    exact h.distinct
  constructor
  · intro hfound
    refine ⟨mem_of_get? hfound, ?_⟩
    have hmem := Entries.mem_of_get? hfound
    rw [h.eq, indexOf, List.mem_mapIdx] at hmem
    obtain ⟨i, hi, he⟩ := hmem
    cases he
    rfl
  · rintro ⟨hm, rfl⟩
    obtain ⟨⟨key, found⟩, hentry, rfl⟩ := List.mem_map.mp hm
    have hfound := Entries.get?_of_mem hkeys hentry
    rw [h.eq, indexOf, List.mem_mapIdx] at hentry
    obtain ⟨i, hi, he⟩ := hentry
    cases he
    exact hfound

theorem textNames_get? (h : Lists naming index stubs) (hs : stub ∈ stubs) :
    index.textNames.get? (naming.declarationName stub.textName) = some stub.textName := by
  have hkeys : (Entries.keys index.textNames).Nodup := by
    rw [h.eq, keys_textNames]
    exact h.distinct
  have hmem : (naming.declarationName stub.textName, stub.textName) ∈ index.textNames := by
    rw [h.eq, indexOf]
    exact List.mem_map_of_mem hs
  exact Entries.get?_of_mem hkeys hmem

theorem byDeclaration?_iff (h : Lists naming index stubs) :
    index.byDeclaration? name = some entry ↔
      entry ∈ index.entries ∧ entry.declarationName = name := by
  rw [byDeclaration?, Option.bind_eq_some_iff]
  constructor
  · rintro ⟨textName, hname, hentry⟩
    obtain ⟨hm, rfl⟩ := h.get?_iff.mp hentry
    refine ⟨hm, ?_⟩
    have hmem := Entries.mem_of_get? hname
    rw [h.eq, indexOf, List.mem_map] at hmem
    obtain ⟨stub, -, hstub⟩ := hmem
    obtain ⟨rfl, htext⟩ := Prod.mk.inj hstub
    obtain ⟨other, -, hother⟩ := h.mem_iff.mp hm
    rw [hother] at htext ⊢
    exact congrArg naming.declarationName htext.symm
  · rintro ⟨hm, rfl⟩
    refine ⟨entry.textName, ?_, h.get?_iff.mpr ⟨hm, rfl⟩⟩
    obtain ⟨stub, hs, hentry⟩ := h.mem_iff.mp hm
    rw [hentry]
    exact h.textNames_get? (List.mem_of_getElem? hs)

end Lists

end NodeIndex

namespace Idl

/-- No two members of one structure have names that camel-case to the same. -/
def DistinctMembers (document : Document) : Prop :=
  ∀ normalized, normalize document = .ok normalized →
    ∀ stub ∈ normalized.stubs, stub.category = .struct →
      (stub.record.members.map fun member => camelCase member.name).Nodup

end Idl

structure Schema.Sound (schema : Schema) : Prop where
  names : (schema.structures.map (·.header.declarationName)).Nodup
  found : ∀ name node, schema.structure? name = some node →
    node ∈ schema.structures ∧ node.header.declarationName = name
  types : ∀ node ∈ schema.structures, ∀ member ∈ node.members, member.type.Resolved

theorem mem_structures {schema : Schema} {node : StructureNode} :
    node ∈ schema.structures ↔ .struct node ∈ schema.nodes := by
  unfold Schema.structures
  rw [List.mem_filterMap]
  constructor
  · rintro ⟨other, hm, he⟩
    cases other with
    | struct inner =>
      cases he
      exact hm
    | _ => cases he
  · exact fun hm => ⟨_, hm, rfl⟩

variable {options : SchemaOptions} {document : Idl.Document} {schema : Schema}

theorem assemble_nodes (h : assemble options document = .ok schema) :
    ∃ normalized, Idl.normalize document = .ok normalized ∧
      List.Forall₂ (fun stub node => node.Assembled options.naming stub) normalized.stubs
        schema.nodes ∧
      NodeIndex.Lists options.naming schema.index normalized.stubs := by
  obtain ⟨normalized, hn, h⟩ := ok_of_bind h
  obtain ⟨index, hi, h⟩ := ok_of_bind h
  obtain ⟨nodes, hnodes, h⟩ := ok_of_bind h
  cases h
  exact ⟨normalized, hn, (forall₂_of_mapM hnodes).imp fun _ _ => Assembler.node_assembled,
    NodeIndex.build_iff.mp hi⟩

theorem structures_sublist (nodes : List SchemaNode) (naming : Naming) (index : NodeIndex) :
    ((Schema.structures ⟨naming, nodes, index⟩).map (·.header.declarationName)).Sublist
      (nodes.map (·.header.declarationName)) := by
  induction nodes with
  | nil => exact List.Sublist.slnil
  | cons node rest ih =>
    cases node with
    | struct inner => exact ih.cons_cons _
    | _ => exact ih.cons _

theorem assemble_names (h : assemble options document = .ok schema) :
    schema.nodes.map (·.header.declarationName) =
      schema.index.entries.map (·.declarationName) := by
  obtain ⟨normalized, -, hall, hlists⟩ := assemble_nodes h
  rw [map_eq_of_forall₂ hall fun _ _ hr => hr.name, hlists.entries]
  exact List.ext_getElem? fun i => by simp [NodeIndex.entryAt, Function.comp_def]

theorem assemble_nodup (h : assemble options document = .ok schema) :
    (schema.nodes.map (·.header.declarationName)).Nodup := by
  obtain ⟨normalized, -, -, hlists⟩ := assemble_nodes h
  rw [assemble_names h]
  exact hlists.nodup

theorem byDeclaration?_spec (h : assemble options document = .ok schema) {name : String}
    {node : SchemaNode} (hn : schema.byDeclaration? name = some node) :
    node ∈ schema.nodes ∧ node.header.declarationName = name := by
  obtain ⟨normalized, -, -, hlists⟩ := assemble_nodes h
  obtain ⟨entry, hfound, hnode⟩ := Option.bind_eq_some_iff.mp hn
  obtain ⟨hentry, hname⟩ := hlists.byDeclaration?_iff.mp hfound
  -- an entry stands at its own position, and so does its node
  have hat : schema.index.entries[entry.position]? = some entry := by
    obtain ⟨stub, hs, he⟩ := hlists.mem_iff.mp hentry
    rw [hlists.entries, List.getElem?_mapIdx, hs, Option.map_some, ← he]
  have hsame := congrArg (·[entry.position]?) (assemble_names h)
  simp only [List.getElem?_map, hnode, hat, Option.map_some, Option.some.injEq] at hsame
  exact ⟨List.mem_of_getElem? hnode, hsame.trans hname⟩

theorem assemble_sound (h : assemble options document = .ok schema) : schema.Sound := by
  obtain ⟨normalized, -, hall, -⟩ := assemble_nodes h
  refine ⟨?_, ?_, ?_⟩
  · exact (assemble_nodup h).sublist
      (structures_sublist schema.nodes schema.naming schema.index)
  · intro name node hs
    unfold Schema.structure? at hs
    split at hs
    · next inner hfound =>
      cases hs
      obtain ⟨hm, hname⟩ := byDeclaration?_spec h hfound
      exact ⟨mem_structures.mpr hm, hname⟩
    · cases hs
  · intro node hm member hmember
    obtain ⟨stub, -, hr⟩ := exists_of_mem_right hall (mem_structures.mp hm)
    exact (hr.struct node rfl).types member hmember

theorem assemble_distinct (h : assemble options document = .ok schema)
    (hd : Idl.DistinctMembers document) :
    ∀ node ∈ schema.structures, (node.members.map (·.name)).Nodup := by
  obtain ⟨normalized, hn, hall, -⟩ := assemble_nodes h
  intro node hm
  obtain ⟨stub, hs, hr⟩ := exists_of_mem_right hall (mem_structures.mp hm)
  have ha := hr.struct node rfl
  rw [ha.names]
  exact hd normalized hn stub hs ha.category

end DescriptorMarshal
