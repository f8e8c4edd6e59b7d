import DescriptorMarshal.Proofs.Acceptance
import DescriptorMarshal.Proofs.Counting

/-!
Records are independent of order and of unrelated records. What is assembled from a record depends
on the records it names and on nothing else of the document: a document that has more of them, in
any order, gives the same nodes, plans and tables, and others besides.
-/

namespace DescriptorMarshal

variable {options : SchemaOptions} {document extended : Idl.Document} {schema schema' : Schema}
  {before after : Assembler} {owner name typeName : String} {raw : Idl.Member} {stub : Idl.Stub}
  {type : TypeDescriptor}

def Assembler.record? (assembler : Assembler) (typeName : String) : Option Idl.Stub :=
  (assembler.resolver.index.get? typeName).bind fun entry => assembler.stubs[entry.position]?

/-- What type names mean to one assembler, they mean to another. -/
structure Assembler.Extends (before after : Assembler) : Prop where
  naming : after.resolver.naming = before.resolver.naming
  classify : ∀ typeName named, before.resolver.classify? typeName = some named →
    after.resolver.classify? typeName = some named
  record : ∀ typeName stub, before.record? typeName = some stub →
    after.record? typeName = some stub

namespace Assembler.Extends

variable (hx : before.Extends after)
include hx

theorem resolve (h : before.resolver.resolve owner name raw = .ok type) :
    after.resolver.resolve owner name raw = .ok type := by
  cases hc : before.resolver.classify? raw.typeName with
  | none =>
    unfold Resolver.resolve at h
    simp [hc] at h
  | some named =>
    unfold Resolver.resolve at h ⊢
    rw [hc] at h
    rw [hx.classify _ _ hc]
    exact h

theorem readDefault {value : Json} {default : Option DefaultValue}
    (h : DescriptorMarshal.readDefault before.stubs before.resolver.index typeName type value =
      .ok default) :
    DescriptorMarshal.readDefault after.stubs after.resolver.index typeName type value =
      .ok default := by
  have hconstant : ∀ assembler : Assembler, ∀ name : String,
      (do
        let entry ← assembler.resolver.index.get? typeName
        let stub ← assembler.stubs[entry.position]?
        findConstant? stub.record.values name) =
      (assembler.record? typeName).bind fun stub => findConstant? stub.record.values name := by
    intro assembler name
    unfold Assembler.record?
    cases assembler.resolver.index.get? typeName <;> rfl
  unfold DescriptorMarshal.readDefault at h ⊢
  simp only [hconstant] at h ⊢
  cases hs : before.record? typeName with
  | some stub =>
    rw [hx.record _ _ hs]
    rw [hs] at h
    exact h
  | none =>
    -- a name would not have been found, so the default is a literal
    rw [hs] at h
    by_cases hnone : value.string? = some "undefined" ∨
        (type.isReference = true ∧ value.string? = some "nullptr")
    · rw [if_pos hnone] at h ⊢
      exact h
    rw [if_neg hnone] at h ⊢
    by_cases hpointer : type.isArray = true ∨ type.isReference = true
    · rw [if_pos hpointer] at h ⊢
      exact h
    rw [if_neg hpointer] at h ⊢
    cases hk : type.kind with
    | enumeration | bitmask =>
      rw [hk] at h
      cases hl : Literal.ofJson? value with
      | none =>
        rw [hl] at h
        cases ht : value.string? <;> rw [ht] at h <;> cases h
      | some literal =>
        rw [hl] at h
        cases literal with
        | integer n => exact h
        | _ => cases ht : value.string? <;> rw [ht] at h <;> cases h
    | _ =>
      rw [hk] at h
      exact h

theorem member {member : Member} (h : before.member owner raw = .ok member) :
    after.member owner raw = .ok member := by
  obtain ⟨type, ht, hmade⟩ := ok_of_bind h
  unfold Assembler.member
  dsimp only
  rw [hx.resolve ht]
  refine Eq.trans ?_ hmade
  dsimp only [bind, Except.bind]
  cases hd : raw.default with
  | none => rfl
  | some value =>
    cases hr : DescriptorMarshal.readDefault before.stubs before.resolver.index raw.typeName type
        value with
    | error fault =>
      simp only [hd, hr] at hmade
      cases hmade
    | ok default =>
      simp only [hr, hx.readDefault hr]

theorem members {fields : List Idl.Member} {members : List Member}
    (h : before.members owner fields = .ok members) :
    after.members owner fields = .ok members := by
  obtain ⟨made, hm, hrest⟩ := ok_of_bind h
  unfold Assembler.members
  rw [mapM_iff_forall₂.mpr ((forall₂_of_mapM hm).imp fun _ _ => hx.member)]
  exact hrest

theorem method {raw : Idl.Method} {method : Method} (h : before.method owner raw = .ok method) :
    after.method owner raw = .ok method := by
  obtain ⟨returns, hr, hrest⟩ := ok_of_bind h
  obtain ⟨args, ha, hrest⟩ := ok_of_bind hrest
  unfold Assembler.method
  dsimp only
  rw [hx.resolve hr]
  show (after.members owner raw.args >>= _) = _
  rw [hx.members ha]
  exact hrest

theorem node {node : SchemaNode} (h : before.node stub = .ok node) :
    after.node stub = .ok node := by
  unfold Assembler.node at h ⊢
  rw [hx.naming]
  cases hc : stub.category with
  | enumeration | bitmask =>
    rw [hc] at h
    exact h
  | object =>
    rw [hc] at h
    obtain ⟨methods, hm, hrest⟩ := ok_of_bind h
    dsimp only
    rw [mapM_iff_forall₂.mpr ((forall₂_of_mapM hm).imp fun _ _ => hx.method)]
    exact hrest
  | struct =>
    rw [hc] at h
    obtain ⟨members, hm, hrest⟩ := ok_of_bind h
    dsimp only
    rw [hx.members hm]
    exact hrest

end Assembler.Extends

theorem NodeIndex.Lists.record?_iff {naming : Naming}
    (h : NodeIndex.Lists naming before.resolver.index before.stubs) :
    before.record? name = some stub ↔ stub ∈ before.stubs ∧ stub.textName = name := by
  unfold Assembler.record?
  rw [Option.bind_eq_some_iff]
  constructor
  · rintro ⟨entry, he, hs⟩
    obtain ⟨hentry, rfl⟩ := h.get?_iff.mp he
    obtain ⟨found, hf, hat⟩ := h.mem_iff.mp hentry
    rw [hs, Option.some.injEq] at hf
    subst hf
    exact ⟨List.mem_of_getElem? hs, (congrArg IndexEntry.textName hat).symm⟩
  · rintro ⟨hm, rfl⟩
    obtain ⟨position, hposition⟩ := List.mem_iff_getElem?.mp hm
    exact ⟨_, h.get?_iff.mpr ⟨h.entryAt_mem hposition, rfl⟩, hposition⟩

theorem Assembler.extends_of_lists {naming : Naming}
    (hb : NodeIndex.Lists naming before.resolver.index before.stubs)
    (ha : NodeIndex.Lists naming after.resolver.index after.stubs)
    (hnaming : after.resolver.naming = before.resolver.naming)
    (hstubs : before.stubs ⊆ after.stubs)
    (hcallbacks : before.resolver.callbacks ⊆ after.resolver.callbacks)
    (hnew : ∀ stub ∈ before.stubs, stub.textName ∈ after.resolver.callbacks →
      stub.textName ∈ before.resolver.callbacks) : before.Extends after := by
  refine ⟨hnaming, ?_, ?_⟩
  · intro typeName named h
    unfold Resolver.classify? at h ⊢
    split at h
    · exact h
    split at h
    · exact h
    · exact h
    · exact h
    split at h
    · next hcontains =>
      have hm : typeName ∈ after.resolver.callbacks := hcallbacks (by simpa using hcontains)
      rw [if_pos (by simpa using hm), hnaming]
      exact h
    · next hcontains =>
      obtain ⟨entry, he, hnamed⟩ := Option.map_eq_some_iff.mp h
      obtain ⟨hentry, rfl⟩ := hb.get?_iff.mp he
      obtain ⟨stub, hs, hat⟩ := hb.mem_iff.mp hentry
      have hstub : stub ∈ before.stubs := List.mem_of_getElem? hs
      have hname : stub.textName = entry.textName := (congrArg IndexEntry.textName hat).symm
      have hnot : entry.textName ∉ after.resolver.callbacks := by
        intro hm
        have := hnew stub hstub (hname ▸ hm)
        exact hcontains (by simpa [hname] using this)
      -- the record may stand elsewhere, which what it is classified as does not depend on
      obtain ⟨position, hposition⟩ := List.mem_iff_getElem?.mp (hstubs hstub)
      have hfound : after.resolver.index.get? entry.textName =
          some (NodeIndex.entryAt naming position stub) :=
        ha.get?_iff.mpr ⟨ha.entryAt_mem hposition, hname⟩
      rw [if_neg (by simpa using hnot), hfound, ← hnamed, hat]
      rfl
  · intro typeName stub h
    obtain ⟨hm, hname⟩ := hb.record?_iff.mp h
    exact ha.record?_iff.mpr ⟨hstubs hm, hname⟩

/-- A document that keeps the records of another, and makes no type a callback. -/
structure Idl.Document.Keeps (document extended : Idl.Document) : Prop where
  stubs : document.kept.stubs ⊆ extended.kept.stubs
  callbacks : document.kept.callbacks ⊆ extended.kept.callbacks
  types : ∀ stub ∈ document.kept.stubs, stub.textName ∈ extended.kept.callbacks →
    stub.textName ∈ document.kept.callbacks

/-- Among records with names of their own, no record is a type and a callback. -/
theorem Idl.Document.keeps_of_subset (hn : extended.keys.Nodup) (h : document ⊆ extended) :
    document.Keeps extended := by
  refine ⟨List.filterMap_subset _ h, List.map_subset _ (List.filter_subset _ h), ?_⟩
  intro stub hs hcallback
  obtain ⟨entry, he, hstub⟩ := List.mem_filterMap.mp hs
  obtain ⟨other, ho, hname⟩ := List.mem_map.mp hcallback
  obtain ⟨hother, hiscallback⟩ := List.mem_filter.mp ho
  have hsame : other = entry :=
    List.inj_on_of_nodup_map hn hother (h he) (hname.trans (stub?_spec hstub).1)
  rw [hsame] at hiscallback
  rw [stub?_of_isCallback hiscallback] at hstub
  cases hstub

theorem Idl.Document.keeps_of_perm (h : document.Perm extended) : document.Keeps extended := by
  have hcallbacks : document.kept.callbacks.Perm extended.kept.callbacks :=
    (h.filter _).map _
  exact ⟨(h.filterMap _).subset, hcallbacks.subset, fun _ _ hm => hcallbacks.symm.subset hm⟩

theorem assemblerOf_extends (h : assemble options document = .ok schema)
    (hn : (NodeIndex.declarationNames options.naming extended.kept.stubs).Nodup)
    (hk : document.Keeps extended) :
    (assemblerOf options document).Extends (assemblerOf options extended) := by
  refine Assembler.extends_of_lists (assemblerOf_lists h) ⟨rfl, hn⟩ rfl hk.stubs ?_ ?_
  · exact List.append_subset.mpr ⟨List.subset_append_left _ _,
      List.Subset.trans hk.callbacks (List.subset_append_right _ _)⟩
  · intro stub hs hm
    rcases List.mem_append.mp hm with hm | hm
    · exact List.mem_append_left _ hm
    · exact List.mem_append_right _ (hk.types stub hs hm)

/-- The nodes of a document are nodes of every document that keeps its records. -/
theorem nodes_subset (h : assemble options document = .ok schema)
    (h' : assemble options extended = .ok schema') (hk : document.Keeps extended) :
    schema.nodes ⊆ schema'.nodes := by
  obtain ⟨-, -, hnodes, -, -⟩ := assemble_iff.mp h
  obtain ⟨-, hn', hnodes', -, -⟩ := assemble_iff.mp h'
  have hx := assemblerOf_extends h hn' hk
  intro node hm
  obtain ⟨stub, hs, hr⟩ := exists_of_mem_right (forall₂_of_mapM hnodes) hm
  obtain ⟨other, ho, hr'⟩ := exists_of_mem_left (forall₂_of_mapM hnodes') (hk.stubs hs)
  rw [hx.node hr, Except.ok.injEq] at hr'
  rwa [hr']

theorem exists_assemble_of_perm (h : assemble options document = .ok schema)
    (hp : document.Perm extended) : ∃ schema', assemble options extended = .ok schema' := by
  obtain ⟨hreadable, hn, hnodes, -, -⟩ := assemble_iff.mp h
  have hstubs : document.kept.stubs.Perm extended.kept.stubs := hp.filterMap _
  have hn' : (NodeIndex.declarationNames options.naming extended.kept.stubs).Nodup :=
    (hstubs.map _).nodup hn
  have hx := assemblerOf_extends h hn' (Idl.Document.keeps_of_perm hp)
  obtain ⟨nodes, hnodes'⟩ : ∃ nodes,
      extended.kept.stubs.mapM (assemblerOf options extended).node = .ok nodes := by
    refine exists_mapM_iff.mpr fun stub hs => ?_
    obtain ⟨node, hnode⟩ := exists_mapM_iff.mp ⟨_, hnodes⟩ stub (hstubs.symm.subset hs)
    exact ⟨node, hx.node hnode⟩
  refine ⟨⟨options.naming, nodes, (assemblerOf options extended).resolver.index⟩, ?_⟩
  exact assemble_iff.mpr
    ⟨fun entry he => hreadable entry (hp.symm.subset he), hn', hnodes', rfl, rfl⟩

section Plans

variable {node : StructureNode} {member : Member} {plan : StructPlan}
  (hk : ∀ name, (schema.structure? name).isSome = true → (schema'.structure? name).isSome = true)
include hk

theorem marshalOf_extends {marshal : Marshal}
    (h : marshalOf schema owner member = .ok marshal) :
    marshalOf schema' owner member = .ok marshal := by
  unfold marshalOf at h ⊢
  dsimp only at h ⊢
  cases hkind : member.type.kind with
  | struct =>
    simp only [hkind] at h ⊢
    split at h
    · cases h
    split at h
    · cases h
    · next hpointers hnone =>
      have hknown := hk member.type.nativeType (by simpa [Option.isSome_iff_ne_none] using hnone)
      rw [if_neg hpointers, if_neg (by simpa [Option.isSome_iff_ne_none] using hknown)]
      exact h
  | _ =>
    simp only [hkind] at h ⊢
    exact h

theorem buildPlan_extends (h : buildPlan schema node = .ok plan) :
    buildPlan schema' node = .ok plan := by
  have hmember : ∀ {member planned}, memberPlanOf schema node member = .ok planned →
      memberPlanOf schema' node member = .ok planned := by
    intro member planned h
    obtain ⟨marshal, hm, hrest⟩ := ok_of_bind h
    unfold memberPlanOf
    rw [marshalOf_extends hk hm]
    exact hrest
  have hpart : ∀ {member part}, fieldAndMemberOf schema node member = .ok part →
      fieldAndMemberOf schema' node member = .ok part := by
    intro member part h
    obtain ⟨init, hi, -⟩ := ok_of_bind h
    rw [fieldAndMemberOf_eq hi] at h ⊢
    cases hm : node.marshals member with
    | false =>
      rw [hm] at h
      exact h
    | true =>
      rw [hm] at h
      cases hplanned : memberPlanOf schema node member with
      | error =>
        rw [hplanned] at h
        cases h
      | ok planned =>
        rw [hplanned] at h
        rw [hmember hplanned]
        exact h
  obtain ⟨parts, hp, hrest⟩ := ok_of_bind h
  unfold buildPlan
  rw [mapM_iff_forall₂.mpr ((forall₂_of_mapM hp).imp fun _ _ => hpart)]
  exact hrest

end Plans

theorem structure?_extends (h : assemble options document = .ok schema)
    (h' : assemble options extended = .ok schema') (hsub : schema.nodes ⊆ schema'.nodes) :
    ∀ name, (schema.structure? name).isSome = true → (schema'.structure? name).isSome = true := by
  intro name hsome
  obtain ⟨inner, hi⟩ := Option.isSome_iff_exists.mp hsome
  obtain ⟨hm, rfl⟩ := (assemble_sound h).found name inner hi
  have hfound := (assemble_closed h').byDeclaration? (hsub (mem_structures.mp hm))
  unfold Schema.structure?
  rw [show inner.header.declarationName = (SchemaNode.struct inner).header.declarationName from rfl,
    hfound]
  rfl

theorem structures_subset (hsub : schema.nodes ⊆ schema'.nodes) :
    schema.structures ⊆ schema'.structures :=
  fun _ hm => mem_structures.mpr (hsub (mem_structures.mp hm))

theorem plans_subset {plans plans' : List StructPlan}
    (h : assemble options document = .ok schema) (h' : assemble options extended = .ok schema')
    (hsub : schema.nodes ⊆ schema'.nodes)
    (hp : schema.structures.mapM (buildPlan schema) = .ok plans)
    (hp' : schema'.structures.mapM (buildPlan schema') = .ok plans') : plans ⊆ plans' := by
  intro plan hplan
  obtain ⟨node, hn, hr⟩ := exists_of_mem_right (forall₂_of_mapM hp) hplan
  obtain ⟨other, ho, hr'⟩ :=
    exists_of_mem_left (forall₂_of_mapM hp') (structures_subset hsub hn)
  rw [buildPlan_extends (structure?_extends h h' hsub) hr, Except.ok.injEq] at hr'
  rwa [hr']

theorem tables_subset (hsub : schema.nodes ⊆ schema'.nodes) :
    (schema.enums ++ schema.bitmasks).map NameTable.ofValueSet ⊆
      (schema'.enums ++ schema'.bitmasks).map NameTable.ofValueSet := by
  refine List.map_subset _ (List.append_subset.mpr ⟨?_, ?_⟩)
  · exact List.Subset.trans (List.filterMap_subset _ hsub) (List.subset_append_left _ _)
  · exact List.Subset.trans (List.filterMap_subset _ hsub) (List.subset_append_right _ _)

/-- Acceptance does not depend on the order of the records. -/
theorem exists_bindings_of_perm (hp : document.Perm extended)
    (h : ∃ bindings, Bindings.ofDocument options document = .ok bindings) :
    ∃ bindings, Bindings.ofDocument options extended = .ok bindings := by
  obtain ⟨bindings, hb⟩ := h
  obtain ⟨hs, hset⟩ := Bindings.ofDocument_parts hb
  obtain ⟨plans, hplans, hcheck⟩ := PlanSet.exists_build_iff.mp ⟨_, hset⟩
  obtain ⟨schema', hs'⟩ := exists_assemble_of_perm hs hp
  have hsub := nodes_subset hs hs' (Idl.Document.keeps_of_perm hp)
  have hsub' := nodes_subset hs' hs (Idl.Document.keeps_of_perm hp.symm)
  obtain ⟨plans', hplans'⟩ : ∃ plans',
      schema'.structures.mapM (buildPlan schema') = .ok plans' := by
    refine exists_mapM_iff.mpr fun node hn => ?_
    obtain ⟨plan, hplan⟩ := exists_mapM_iff.mp ⟨_, hplans⟩ node (structures_subset hsub' hn)
    exact ⟨plan, buildPlan_extends (structure?_extends hs hs' hsub) hplan⟩
  have hn := planned_names hs (forall₂_of_mapM hplans)
  have hn' := planned_names hs' (forall₂_of_mapM hplans')
  have hcheck' : checkEmbedding plans' = .ok () := by
    rw [Embedding.checkEmbedding_iff hn] at hcheck
    rw [Embedding.checkEmbedding_iff hn']
    exact hcheck.of_subset hn (plans_subset hs' hs hsub' hplans' hplans)
  obtain ⟨set', hset'⟩ := PlanSet.exists_build_iff.mpr ⟨plans', hplans', hcheck'⟩
  refine ⟨⟨schema', set'⟩, ?_⟩
  unfold Bindings.ofDocument
  rw [hs']
  show (PlanSet.build schema' >>= _) = _
  rw [hset']
  rfl

theorem bindings_subset {bindings bindings' : Bindings}
    (h : Bindings.ofDocument options document = .ok bindings)
    (h' : Bindings.ofDocument options extended = .ok bindings') (hk : document.Keeps extended) :
    bindings.schema.nodes ⊆ bindings'.schema.nodes ∧
      bindings.plans.plans ⊆ bindings'.plans.plans ∧
        bindings.plans.tables ⊆ bindings'.plans.tables := by
  obtain ⟨hs, hset⟩ := Bindings.ofDocument_parts h
  obtain ⟨hs', hset'⟩ := Bindings.ofDocument_parts h'
  have hsub := nodes_subset hs hs' hk
  refine ⟨hsub, ?_, ?_⟩
  · exact plans_subset hs hs' hsub (mapM_iff_forall₂.mpr (PlanSet.build_parts hset).1)
      (mapM_iff_forall₂.mpr (PlanSet.build_parts hset').1)
  · rw [PlanSet.tables_eq hset, PlanSet.tables_eq hset']
    exact tables_subset hsub

/-- A document is accepted in any order of its records; and one that has the records of another,
each under a key of its own, gives all that the other gives. -/
theorem records_independent (options : SchemaOptions) :
    (∀ document permuted : Idl.Document, document.Perm permuted →
      ((∃ bindings, Bindings.ofDocument options document = .ok bindings) ↔
        ∃ bindings, Bindings.ofDocument options permuted = .ok bindings)) ∧
      ∀ (document extended : Idl.Document) (bindings bindings' : Bindings),
        extended.keys.Nodup → document ⊆ extended →
        Bindings.ofDocument options document = .ok bindings →
        Bindings.ofDocument options extended = .ok bindings' →
        bindings.schema.nodes ⊆ bindings'.schema.nodes ∧
          bindings.plans.plans ⊆ bindings'.plans.plans ∧
            bindings.plans.tables ⊆ bindings'.plans.tables := by
  refine ⟨fun document permuted hp => ?_, fun document extended _ _ hn hsub h h' => ?_⟩
  · exact ⟨exists_bindings_of_perm hp, exists_bindings_of_perm hp.symm⟩
  · exact bindings_subset h h' (Idl.Document.keeps_of_subset hn hsub)

theorem records_independent_pair : ∃ bindings bindings',
    Bindings.ofDocument .standard labelDocument = .ok bindings ∧
    pairDocument.Perm pairDocument.reverse ∧
    Bindings.ofDocument .standard pairDocument.reverse = .ok bindings' ∧
    (Entries.keys pairDocument.reverse).Nodup ∧ labelDocument ⊆ pairDocument.reverse ∧
    bindings.schema.nodes ⊆ bindings'.schema.nodes ∧ labelPlan ∈ bindings'.plans.plans := by
  obtain ⟨hperm, hsubset⟩ := records_independent .standard
  obtain ⟨schema, hb⟩ := label_bindings
  obtain ⟨pairs, hpair⟩ := pair_bindings
  have hreverse : pairDocument.Perm pairDocument.reverse := (List.reverse_perm _).symm
  obtain ⟨bindings', hb'⟩ := (hperm _ _ hreverse).mp ⟨_, hpair⟩
  have hkeys : (Entries.keys pairDocument.reverse).Nodup := by decide
  have hrecords : labelDocument ⊆ pairDocument.reverse :=
    fun _ hm => hreverse.subset (List.mem_append_left _ hm)
  obtain ⟨hnodes, hplans, -⟩ := hsubset _ _ _ _ hkeys hrecords hb hb'
  exact ⟨_, bindings', hb, hreverse, hb', hkeys, hrecords, hnodes, hplans List.mem_cons_self⟩

end DescriptorMarshal
