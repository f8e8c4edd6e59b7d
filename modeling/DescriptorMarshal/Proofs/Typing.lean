import DescriptorMarshal.Proofs.Constants
import DescriptorMarshal.Proofs.Records

/-!
Assembled schemas are closed and well typed. The nodes are the kept records of the document, in its
order, and the index finds each by either name. Every type that names a record names exactly one
node, of the category that its kind says; every array is counted by a plain integer beside it; and
every default is one that its member's kind admits.
-/

namespace DescriptorMarshal

variable {options : SchemaOptions} {document : Idl.Document} {schema : Schema}
  {assembler : Assembler} {resolver : Resolver} {stub : Idl.Stub} {raw : Idl.Member}
  {member : Member} {members : List Member} {type : TypeDescriptor} {owner name : String}

structure Member.Of (raw : Idl.Member) (member : Member) : Prop where
  name : member.name = camelCase raw.name
  isInternal : member.isInternal = raw.isInternal

/-- What a node holds is what its record declares, in the same order. -/
def SchemaNode.Holds (record : Idl.Record) : SchemaNode → Prop
  | .enumeration set => List.Forall₂ (NamedValue.Assembled false) record.values set.values
  | .bitmask set => List.Forall₂ (NamedValue.Assembled true) record.values set.values
  | .object node => List.Forall₂ (fun raw method => method.name = camelCase raw.name ∧
      List.Forall₂ Member.Of raw.args method.args) record.methods node.methods
  | .struct node => node.extensible = record.extensible ∧
      List.Forall₂ Member.Of record.members node.members

structure SchemaNode.Of (naming : Naming) (stub : Idl.Stub) (node : SchemaNode) : Prop where
  header : node.header = ⟨stub.textName, naming.declarationName stub.textName,
    naming.externalName stub.textName⟩
  category : node.category = stub.category
  holds : node.Holds stub.record

theorem Assembler.member_of (h : assembler.member owner raw = .ok member) : member.Of raw := by
  refine ⟨(member_parts h).1, ?_⟩
  obtain ⟨type, -, h⟩ := ok_of_bind h
  dsimp only at h
  split at h
  · cases h
    rfl
  · split at h
    · cases h
      rfl
    · cases h

theorem Assembler.members_of {fields : List Idl.Member}
    (h : assembler.members owner fields = .ok members) :
    List.Forall₂ Member.Of fields members :=
  (members_forall₂ h).imp fun _ _ => member_of

theorem Assembler.method_parts {raw : Idl.Method} {method : Method}
    (h : assembler.method owner raw = .ok method) :
    method.name = camelCase raw.name ∧
      assembler.resolver.resolve owner (camelCase raw.name)
        (.ofType raw.name (raw.returns.getD "void")) = .ok method.returns ∧
      assembler.members owner raw.args = .ok method.args := by
  obtain ⟨returns, hr, h⟩ := ok_of_bind h
  obtain ⟨args, ha, h⟩ := ok_of_bind h
  cases h
  exact ⟨rfl, hr, ha⟩

theorem Assembler.node_of {node : SchemaNode} (h : assembler.node stub = .ok node) :
    node.Of assembler.resolver.naming stub := by
  unfold Assembler.node at h
  cases hc : stub.category with
  | enumeration | bitmask =>
    simp only [hc] at h
    obtain ⟨values, hv, h⟩ := ok_of_bind h
    cases h
    exact ⟨rfl, hc.symm, assembleValues_forall₂ hv⟩
  | object =>
    simp only [hc] at h
    obtain ⟨methods, hm, h⟩ := ok_of_bind h
    cases h
    refine ⟨rfl, hc.symm, (forall₂_of_mapM hm).imp ?_⟩
    intro raw method hr
    obtain ⟨hname, -, hargs⟩ := method_parts hr
    exact ⟨hname, members_of hargs⟩
  | struct =>
    simp only [hc] at h
    obtain ⟨members, hm, h⟩ := ok_of_bind h
    cases h
    exact ⟨rfl, hc.symm, rfl, members_of hm⟩

def SchemaNode.entry (position : Nat) (node : SchemaNode) : IndexEntry where
  textName := node.header.textName
  position := position
  category := node.category
  declarationName := node.header.declarationName
  externalName := node.header.externalName

theorem SchemaNode.Of.entry {naming : Naming} {node : SchemaNode} (h : node.Of naming stub)
    (position : Nat) : node.entry position = NodeIndex.entryAt naming position stub := by
  unfold SchemaNode.entry NodeIndex.entryAt
  rw [h.header, h.category]

theorem mapIdx_eq_of_forall₂ {α β γ : Type} {R : α → β → Prop} {f : Nat → α → γ}
    {g : Nat → β → γ} {items : List α} {results : List β} (h : List.Forall₂ R items results)
    (hr : ∀ i item result, R item result → f i item = g i result) :
    items.mapIdx f = results.mapIdx g := by
  induction h generalizing f g with
  | nil => rfl
  | cons hhead _ ih =>
    rw [List.mapIdx_cons, List.mapIdx_cons, hr 0 _ _ hhead, ih fun i => hr (i + 1)]

/-- The nodes are the records that were kept, in document order, and the index has an entry for
each of them and no other, which both of its names find. -/
structure Schema.Closed (naming : Naming) (document : Idl.Document) (schema : Schema) :
    Prop where
  nodes : List.Forall₂ (SchemaNode.Of naming) (document.filterMap Idl.stub?) schema.nodes
  entries : schema.index.entries = schema.nodes.mapIdx SchemaNode.entry
  distinct : (schema.nodes.map (·.header.declarationName)).Nodup
  textName : ∀ (position : Nat) node, schema.nodes[position]? = some node →
    schema.index.get? node.header.textName = some (node.entry position)
  declarationName : ∀ (position : Nat) node, schema.nodes[position]? = some node →
    schema.index.byDeclaration? node.header.declarationName = some (node.entry position)

theorem assemble_closed (h : assemble options document = .ok schema) :
    schema.Closed options.naming document := by
  obtain ⟨-, -, hnodes, -, hindex⟩ := assemble_iff.mp h
  have hlists := assemblerOf_lists h
  rw [← hindex] at hlists
  have hall : List.Forall₂ (SchemaNode.Of options.naming) (document.filterMap Idl.stub?)
      schema.nodes :=
    (forall₂_of_mapM hnodes).imp fun _ _ => Assembler.node_of
  have hentries : schema.index.entries = schema.nodes.mapIdx SchemaNode.entry := by
    rw [hlists.entries]
    exact mapIdx_eq_of_forall₂ hall fun position stub node hn => (hn.entry position).symm
  have hentry : ∀ (position : Nat) node, schema.nodes[position]? = some node →
      node.entry position ∈ schema.index.entries := by
    intro position node hn
    obtain ⟨hi, rfl⟩ := List.getElem?_eq_some_iff.mp hn
    rw [hentries]
    exact List.mem_mapIdx.mpr ⟨position, hi, rfl⟩
  refine ⟨hall, hentries, assemble_nodup h, ?_, ?_⟩
  · intro position node hn
    exact hlists.get?_iff.mpr ⟨hentry position node hn, rfl⟩
  · intro position node hn
    exact hlists.byDeclaration?_iff.mpr ⟨hentry position node hn, rfl⟩

/-- How the parts of a resolved type fit together. Strings are pointers to characters, and an array
is what has a length. -/
structure TypeDescriptor.Consistent (type : TypeDescriptor) : Prop extends type.Resolved where
  length : type.isArray = true ↔ ∃ counter, type.length = some counter
  dynamic : type.isDynamicLength = true ↔ type.kind = .string
  string : type.kind = .string → type.isReference = true ∧ type.isArray = false

theorem Resolver.resolve_consistent (h : resolver.resolve owner name raw = .ok type) :
    type.Consistent := by
  have hgives := resolve_gives h
  unfold Resolver.resolve at h
  cases hc : resolver.classify? raw.typeName with
  | none => simp [hc] at h
  | some named =>
    cases hi : Indirection.ofText? raw.indirection with
    | none => simp [hc, hi] at h
    | some indirection =>
      cases hl : LengthSource.ofJson? raw.length with
      | none => simp [hc, hi, hl] at h
      | some length =>
        simp only [hc, hi, hl] at h
        split at h
        · cases h
        split at h
        · cases h
        split at h
        · cases h
        next hmissing =>
        cases h
        refine ⟨hgives.toResolved, ?_, beq_iff_eq, hgives.string⟩
        -- an array without a counter would be one of pointers, which the last check refuses
        dsimp only
        rw [← Option.isSome_iff_exists]
        split
        · next harray =>
          refine iff_of_true harray ?_
          cases hcounter : length.member? with
          | some counter => rfl
          | none => simp_all
        · next harray => exact iff_of_false harray (by simp)

theorem Resolver.resolve_bare (hi : raw.indirection = none)
    (h : resolver.resolve owner name raw = .ok type) : type.isReference = false := by
  unfold Resolver.resolve at h
  cases hc : resolver.classify? raw.typeName with
  | none => simp [hc] at h
  | some named =>
    cases hl : LengthSource.ofJson? raw.length with
    | none => simp [hc, hi, hl, Indirection.ofText?] at h
    | some length =>
      simp only [hc, hi, hl, Indirection.ofText?] at h
      split at h
      · cases h
      split at h
      · cases h
      split at h
      · cases h
      cases h
      rfl

/-- The node that a type names is the only one of its declaration name, and of the category that
the kind of the type says. -/
def Schema.Names (schema : Schema) (type : TypeDescriptor) : Prop :=
  ∀ category, type.kind = kindOfCategory category →
    ∃ node ∈ schema.nodes, node.category = category ∧
      ∀ other ∈ schema.nodes, other.header.declarationName = type.nativeType ↔ other = node

theorem Schema.Closed.names {naming : Naming} (h : schema.Closed naming document)
    (hr : type.Refers schema.index) : schema.Names type := by
  intro category hk
  obtain ⟨entry, he, hc, hd⟩ := hr category hk
  rw [h.entries, List.mem_mapIdx] at he
  obtain ⟨position, hlt, rfl⟩ := he
  refine ⟨schema.nodes[position], List.getElem_mem hlt, hc, ?_⟩
  intro other ho
  rw [← hd]
  constructor
  · exact List.inj_on_of_nodup_map h.distinct ho (List.getElem_mem hlt)
  · rintro rfl
    rfl

/-- The defaults that a plain member of a kind can have. -/
def TypeKind.Admits : TypeKind → DefaultValue → Prop
  | .boolean, .bool _ => True
  | .number type, .integer n => ∃ range, type.range? = some range ∧ range.contains n = true
  | .number type, .float _ => type.isFloat = true
  | .enumeration, .integer _ | .bitmask, .integer _ => True
  | _, _ => False

def TypeKind.zero? : TypeKind → Option DefaultValue
  | .number type => some (if type.isFloat then .float .zero else .integer 0)
  | .boolean => some (.bool false)
  | _ => none

theorem Literal.ofJson?_cases {value : Json} {literal : DefaultValue}
    (h : Literal.ofJson? value = some literal) :
    (∃ n, literal = .integer n) ∨ ∃ x, literal = .float x := by
  unfold Literal.ofJson? at h
  split at h
  · cases h
    exact .inl ⟨_, rfl⟩
  · cases h
    exact .inr ⟨_, rfl⟩
  · unfold Literal.readNumber? at h
    split at h
    · obtain ⟨n, -, rfl⟩ := Option.map_eq_some_iff.mp h
      exact .inl ⟨n, rfl⟩
    · obtain ⟨n, -, rfl⟩ := Option.map_eq_some_iff.mp h
      exact .inl ⟨n, rfl⟩
    · split at h
      · cases h
        exact .inl ⟨_, rfl⟩
      · split at h
        · obtain ⟨x, -, rfl⟩ := Option.map_eq_some_iff.mp h
          exact .inr ⟨x, rfl⟩
        · cases h
  · cases h

theorem readDefault_admits {stubs : List Idl.Stub} {index : NodeIndex} {typeName : String}
    {value : Json} {default : DefaultValue}
    (h : readDefault stubs index typeName type value = .ok (some default)) :
    type.isArray = false ∧ type.isReference = false ∧ type.kind.Admits default := by
  unfold readDefault at h
  dsimp only at h
  split at h
  · cases h
  split at h
  · cases h
  next hplain =>
  obtain ⟨ha, hr⟩ := not_or.mp hplain
  refine ⟨by simpa using ha, by simpa using hr, ?_⟩
  split at h
  · next hk =>
    rw [hk]
    split at h <;> cases h <;> trivial
  · next number hk =>
    rw [hk]
    split at h
    · cases h
    · next n _ =>
      split at h
      · next hrange =>
        cases h
        cases number <;> first | rfl | cases hrange
      · next range hrange =>
        split at h
        · next hcontains =>
          cases h
          exact ⟨range, hrange, hcontains⟩
        · cases h
    · next literal hnot hliteral =>
      split at h
      · next hfloat =>
        cases h
        rcases Literal.ofJson?_cases hliteral with ⟨n, rfl⟩ | ⟨x, rfl⟩
        · exact absurd rfl (hnot n)
        · exact hfloat
      · cases h
  · next hk =>
    rw [hk]
    split at h
    · cases h
      trivial
    · cases h
    · split at h <;> cases h
      trivial
  · next hk =>
    rw [hk]
    split at h
    · cases h
      trivial
    · cases h
    · split at h <;> cases h
      trivial
  · cases h

/-- What a member can be relied on for, among those declared with it. -/
structure Member.WellTyped (schema : Schema) (siblings : List Member) (member : Member) :
    Prop where
  type : member.type.Consistent
  names : schema.Names member.type
  counted : member.type.isArray = true → ∃ counter ∈ siblings, counter ≠ member ∧
    member.type.length = some counter.name ∧ counter.type.isReference = false ∧
      ∃ number range, counter.type.kind = .number number ∧ number.range? = some range
  default : ∀ value, member.default = some value → member.type.presence = .optional ∧
    member.type.isArray = false ∧ member.type.isReference = false ∧
      member.type.kind.Admits value
  initial : member.type.initialValue =
    if member.type.isReference then none else member.type.kind.zero?.map member.default.getD

/-- Arguments are as members are, and the result is a bare type. -/
structure Method.WellTyped (schema : Schema) (method : Method) : Prop where
  args : ∀ arg ∈ method.args, arg.WellTyped schema method.args
  returns : method.returns.Consistent
  names : schema.Names method.returns
  bare : method.returns.isReference = false

structure Schema.WellTyped (schema : Schema) : Prop where
  structures : ∀ node ∈ schema.structures, ∀ member ∈ node.members,
    member.WellTyped schema node.members
  methods : ∀ node ∈ schema.objects, ∀ method ∈ node.methods, method.WellTyped schema

theorem NumberType.exists_range {number : NumberType} (h : number.isFloat = false) :
    ∃ range, number.range? = some range := by
  cases number <;> first | exact ⟨_, rfl⟩ | cases h

theorem counted_of_hasCounter (h : hasCounter members name = true)
    (hr : member.type.isReference = true) : ∃ counter ∈ members, counter ≠ member ∧
      counter.name = name ∧ counter.type.isReference = false ∧
        ∃ number range, counter.type.kind = .number number ∧ number.range? = some range := by
  obtain ⟨counter, hc, hcounter⟩ := List.any_eq_true.mp h
  simp only [Bool.and_eq_true, beq_iff_eq, Bool.not_eq_true'] at hcounter
  obtain ⟨⟨hname, hplain⟩, hnumber⟩ := hcounter
  refine ⟨counter, hc, ?_, hname, hplain, ?_⟩
  · rintro rfl
    rw [hplain] at hr
    cases hr
  · unfold TypeDescriptor.numberType? at hnumber
    split at hnumber
    · next number hk =>
      have hinteger : number.isFloat = false := by simpa using hnumber
      obtain ⟨range, hrange⟩ := NumberType.exists_range hinteger
      exact ⟨number, range, hk, hrange⟩
    · cases hnumber

/-- A default makes its member optional and is what it starts from. -/
theorem Assembler.member_default (h : assembler.member owner raw = .ok member) :
    (∀ value, member.default = some value → member.type.presence = .optional ∧
      member.type.isArray = false ∧ member.type.isReference = false ∧
        member.type.kind.Admits value) ∧
      member.type.initialValue =
        if member.type.isReference then none
        else member.type.kind.zero?.map member.default.getD := by
  have hgives := member_gives h
  obtain ⟨-, type, ht, hdefault, htype⟩ := member_parts h
  constructor
  · intro value hv
    obtain ⟨-, hnone⟩ | ⟨json, hjson, hread⟩ := hdefault
    · rw [hnone] at hv
      cases hv
    · rw [hv] at hread
      have hpresence : member.type.presence = .optional := by
        rw [hgives.presence, hjson]
        simp
      refine ⟨hpresence, ?_⟩
      rw [htype]
      exact readDefault_admits hread
  · rw [htype]
    dsimp only
    cases hr : type.isReference with
    | true => rfl
    | false =>
      rw [(Resolver.resolve_gives ht).not_array hr]
      unfold initialOf TypeKind.zero?
      cases type.kind <;> rfl

theorem Assembler.members_wellTyped {naming : Naming} {fields : List Idl.Member}
    (hc : schema.Closed naming document) (hi : assembler.resolver.index = schema.index)
    (h : assembler.members owner fields = .ok members) :
    ∀ member ∈ members, member.WellTyped schema members := by
  intro member hm
  obtain ⟨raw, -, hr⟩ := exists_of_mem_right (members_forall₂ h) hm
  obtain ⟨-, type, ht, -, htype⟩ := member_parts hr
  obtain ⟨hdefault, hinitial⟩ := member_default hr
  have hconsistent : member.type.Consistent := by
    have := Resolver.resolve_consistent ht
    rw [htype]
    exact ⟨⟨this.ownership, this.reference_of_array, this.array_of_pointers⟩, this.length,
      this.dynamic, this.string⟩
  refine ⟨hconsistent, hc.names (hi ▸ (member_gives hr).refers), ?_, hdefault, hinitial⟩
  intro harray
  obtain ⟨members', -, h⟩ := ok_of_bind h
  obtain ⟨_, hlengths, h⟩ := ok_of_bind h
  cases h
  obtain ⟨length, hlength, hhas⟩ := counter_of_checkLengths hlengths hm harray
  obtain ⟨counter, hcounter, hne, rfl, hplain⟩ :=
    counted_of_hasCounter hhas (hconsistent.reference_of_array harray)
  exact ⟨counter, hcounter, hne, hlength, hplain⟩

theorem Assembler.method_wellTyped {naming : Naming} {raw : Idl.Method} {method : Method}
    (hc : schema.Closed naming document) (hi : assembler.resolver.index = schema.index)
    (h : assembler.method owner raw = .ok method) : method.WellTyped schema := by
  obtain ⟨-, hreturns, hargs⟩ := method_parts h
  refine ⟨members_wellTyped hc hi hargs, Resolver.resolve_consistent hreturns,
    hc.names (hi ▸ (Resolver.resolve_gives hreturns).refers), ?_⟩
  exact Resolver.resolve_bare rfl hreturns

theorem Assembler.node_members {node : StructureNode}
    (h : assembler.node stub = .ok (.struct node)) :
    ∃ owner, assembler.members owner stub.record.members = .ok node.members := by
  unfold Assembler.node at h
  cases hc : stub.category with
  | enumeration | bitmask | object =>
    simp only [hc] at h
    obtain ⟨_, -, h⟩ := ok_of_bind h
    cases h
  | struct =>
    simp only [hc] at h
    obtain ⟨members, hm, h⟩ := ok_of_bind h
    cases h
    exact ⟨_, hm⟩

theorem Assembler.node_methods {node : ObjectNode}
    (h : assembler.node stub = .ok (.object node)) :
    ∃ owner, stub.record.methods.mapM (assembler.method owner) = .ok node.methods := by
  unfold Assembler.node at h
  cases hc : stub.category with
  | enumeration | bitmask | struct =>
    simp only [hc] at h
    obtain ⟨_, -, h⟩ := ok_of_bind h
    cases h
  | object =>
    simp only [hc] at h
    obtain ⟨methods, hm, h⟩ := ok_of_bind h
    cases h
    exact ⟨_, hm⟩

theorem mem_objects {node : ObjectNode} :
    node ∈ schema.objects ↔ .object node ∈ schema.nodes := by
  unfold Schema.objects
  rw [List.mem_filterMap]
  constructor
  · rintro ⟨other, hm, he⟩
    cases other with
    | object inner =>
      cases he
      exact hm
    | _ => cases he
  · exact fun hm => ⟨_, hm, rfl⟩

theorem assemble_wellTyped (h : assemble options document = .ok schema) : schema.WellTyped := by
  have hclosed := assemble_closed h
  obtain ⟨-, -, hnodes, -, hindex⟩ := assemble_iff.mp h
  have hall := forall₂_of_mapM hnodes
  constructor
  · intro node hn member hm
    obtain ⟨stub, -, hr⟩ := exists_of_mem_right hall (mem_structures.mp hn)
    obtain ⟨owner, hmembers⟩ := Assembler.node_members hr
    exact Assembler.members_wellTyped hclosed hindex.symm hmembers member hm
  · intro node hn method hm
    obtain ⟨stub, -, hr⟩ := exists_of_mem_right hall (mem_objects.mp hn)
    obtain ⟨owner, hmethods⟩ := Assembler.node_methods hr
    obtain ⟨raw, -, hmethod⟩ := exists_of_mem_right (forall₂_of_mapM hmethods) hm
    exact Assembler.method_wellTyped hclosed hindex.symm hmethod

/-- Assembling gives a schema in which every name leads to its own node and every type, counter and
default is what the plans take it for. -/
theorem assembled_closed_wellTyped (h : assemble options document = .ok schema) :
    schema.Closed options.naming document ∧ schema.WellTyped :=
  ⟨assemble_closed h, assemble_wellTyped h⟩

/-- An enum, a bitmask, an object whose method takes an array of pointers, a structure that counts,
defaults and points to itself, and one that has it as a part. -/
def sceneDocument : Idl.Document :=
  [("_comment", .string "remark"),
    ("load op", .object [("category", .string "enum"), ("values", .array [
      .object [("name", .string "clear"), ("value", .integer 0)],
      .object [("name", .string "load"), ("value", .integer 1)]])]),
    ("done", .object [("category", .string "callback")]),
    ("layer usage", .object [("category", .string "bitmask"), ("values", .array [
      .object [("name", .string "map read"), ("value", .integer 1)]])]),
    ("queue", .object [("category", .string "object"), ("methods", .array [
      .object [("name", .string "submit"), ("returns", .string "load op"), ("args", .array [
        .object [("name", .string "count"), ("type", .string "uint32_t")],
        .object [("name", .string "layers"), ("type", .string "layer"),
          ("annotation", .string "const*const*"), ("length", .string "count")]])]])]),
    ("layer", .object [("category", .string "structure"), ("members", .array [
      .object [("name", .string "label"), ("type", .string "char"),
        ("annotation", .string "const*"), ("length", .string "strlen")],
      .object [("name", .string "op count"), ("type", .string "uint16_t")],
      .object [("name", .string "ops"), ("type", .string "load op"),
        ("annotation", .string "const*"), ("length", .string "op count")],
      .object [("name", .string "first op"), ("type", .string "load op"),
        ("default", .string "load")],
      .object [("name", .string "level"), ("type", .string "int8_t"),
        ("default", .string "0x7f")],
      .object [("name", .string "shown"), ("type", .string "bool"), ("default", .bool true)],
      .object [("name", .string "below"), ("type", .string "layer"),
        ("annotation", .string "const*"), ("default", .string "nullptr")],
      .object [("name", .string "on done"), ("type", .string "done"),
        ("isInternalProperty", .bool true)]])]),
    ("frame", .object [("category", .string "structure"), ("members", .array [
      .object [("name", .string "top"), ("type", .string "layer")]])])]

theorem assembled_closed_wellTyped_scene : ∃ schema layer,
    assemble .standard sceneDocument = .ok schema ∧
    schema.Closed .standard sceneDocument ∧ schema.WellTyped ∧
    schema.nodes.map (·.header.declarationName) =
      ["WGPULoadOp", "WGPULayerUsage", "WGPUQueue", "WGPULayer", "WGPUFrame"] ∧
    schema.structure? "WGPULayer" = some layer ∧
    layer.members.map (fun member => (member.name, member.type.kind.name, member.default)) =
      [("label", "string", none), ("opCount", "number", none), ("ops", "enum", none),
        ("firstOp", "enum", some (.integer 1)), ("level", "number", some (.integer 127)),
        ("shown", "boolean", some (.bool true)), ("below", "structure", none),
        ("onDone", "function", none)] := by
  obtain ⟨schema, hs⟩ : ∃ schema, assemble .standard sceneDocument = .ok schema := ⟨_, rfl⟩
  obtain ⟨hclosed, htyped⟩ := assembled_closed_wellTyped hs
  cases hs
  exact ⟨_, _, rfl, hclosed, htyped, rfl, rfl, rfl⟩

end DescriptorMarshal
