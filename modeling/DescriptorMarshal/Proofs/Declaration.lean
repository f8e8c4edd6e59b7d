import DescriptorMarshal.Proofs.Completeness

/-!
Members back to their declarations. Every node of a schema is assembled from the record at its
position, and every member of a structure from the raw member at its position there.
-/

namespace DescriptorMarshal

variable {options : SchemaOptions} {document : Idl.Document} {schema : Schema}
  {assembler : Assembler} {stub : Idl.Stub} {raw : Idl.Member} {member : Member}

/-- The raw member of a record of the document, and the member of the node that it became. -/
def Schema.Declares (schema : Schema) (document : Idl.Document) (raw : Idl.Member)
    (node : StructureNode) (member : Member) : Prop :=
  ∃ normalized stub, Idl.normalize document = .ok normalized ∧
    (stub, .struct node) ∈ normalized.stubs.zip schema.nodes ∧
      (raw, member) ∈ stub.record.members.zip node.members

/-- What the nodes of a schema were assembled with. -/
structure Assembler.Made (assembler : Assembler) (document : Idl.Document) (schema : Schema) :
    Prop where
  stubs : ∃ normalized, Idl.normalize document = .ok normalized ∧
    assembler.stubs = normalized.stubs
  index : assembler.resolver.index = schema.index
  lists : NodeIndex.Lists assembler.resolver.naming schema.index assembler.stubs
  nodes : List.Forall₂ (fun stub node => assembler.node stub = .ok node) assembler.stubs
    schema.nodes

theorem exists_assembler (h : assemble options document = .ok schema) :
    ∃ assembler : Assembler, assembler.Made document schema := by
  obtain ⟨normalized, hn, h⟩ := ok_of_bind h
  obtain ⟨index, hi, h⟩ := ok_of_bind h
  obtain ⟨nodes, hnodes, h⟩ := ok_of_bind h
  cases h
  exact ⟨_, ⟨normalized, hn, rfl⟩, rfl, NodeIndex.build_iff.mp hi, forall₂_of_mapM hnodes⟩

theorem Assembler.node_struct {node : StructureNode}
    (h : assembler.node stub = .ok (.struct node)) :
    ∃ owner, List.Forall₂ (fun raw member => assembler.member owner raw = .ok member)
      stub.record.members node.members := by
  unfold Assembler.node at h
  cases hc : stub.category with
  | enumeration | bitmask | object =>
    simp only [hc] at h
    obtain ⟨_, -, h⟩ := ok_of_bind h
    cases h
  | struct =>
    simp only [hc] at h
    obtain ⟨members, hm, h⟩ := ok_of_bind h
    cases h
    exact ⟨_, members_forall₂ hm⟩

theorem Assembler.Made.exists_raw (h : assembler.Made document schema) {node : StructureNode}
    (hn : node ∈ schema.structures) (hm : member ∈ node.members) :
    ∃ owner raw, assembler.member owner raw = .ok member := by
  obtain ⟨stub, -, hr⟩ := exists_of_mem_right h.nodes (mem_structures.mp hn)
  obtain ⟨owner, hall⟩ := node_struct hr
  obtain ⟨raw, -, hraw⟩ := exists_of_mem_right hall hm
  exact ⟨owner, raw, hraw⟩

theorem Assembler.Made.declares (h : assembler.Made document schema) {node : StructureNode}
    (hd : schema.Declares document raw node member) :
    node ∈ schema.structures ∧ member ∈ node.members ∧
      ∃ owner, assembler.member owner raw = .ok member := by
  obtain ⟨normalized, stub, hn, hnode, hmember⟩ := hd
  obtain ⟨normalized', hn', hstubs⟩ := h.stubs
  rw [hn, Except.ok.injEq] at hn'
  subst hn'
  have hmade : assembler.node stub = .ok (.struct node) :=
    (List.forall₂_iff_zip.mp h.nodes).2 (hstubs ▸ hnode)
  obtain ⟨owner, hall⟩ := node_struct hmade
  exact ⟨mem_structures.mpr (List.of_mem_zip hnode).2, (List.of_mem_zip hmember).2, owner,
    (List.forall₂_iff_zip.mp hall).2 hmember⟩

end DescriptorMarshal
