import DescriptorMarshal.Cpp.Lookup
import DescriptorMarshal.Proofs.Completeness
import Mathlib.Data.List.Induction

/-!
Names of nested types. Decoding and destroying take the name of a nested type for the declaration
name it is; rendering first tries it as an external name. The two come to the same plans and tables
exactly when no name that a plan uses is the external name of another record. No document can break
this while neither lead stands at the start of the other.
-/

namespace DescriptorMarshal

namespace Entries

variable {α : Type}

theorem ofList_concat (entries : List (String × α)) (entry : String × α) :
    ofList (entries ++ [entry]) = put (ofList entries) entry.1 entry.2 :=
  List.foldl_append

theorem get?_ofList (entries : List (String × α)) (key : String) :
    get? (ofList entries) key =
      (entries.reverse.find? fun entry => entry.1 == key).map Prod.snd := by
  induction entries using List.reverseRecOn with
  | nil => rfl
  | append_singleton rest entry ih =>
    rw [ofList_concat, List.reverse_concat, List.find?_cons]
    by_cases h : entry.1 = key
    · subst h
      rw [get?_put_self, beq_self_eq_true]
      rfl
    · rw [get?_put_of_ne _ _ h, ih, beq_false_of_ne h]

end Entries

namespace Naming

variable {naming : Naming} {first second : String}

/-- Two texts that give one external name give one declaration name, and the other way around. -/
theorem externalName_inj :
    naming.externalName first = naming.externalName second ↔
      naming.declarationName first = naming.declarationName second := by
  unfold externalName declarationName
  rw [String.append_right_inj, String.append_right_inj]

/-- Neither lead stands at the start of the other. -/
def Apart (naming : Naming) : Prop :=
  ¬ naming.nativeLead.toList <+: naming.externalLead.toList ∧
    ¬ naming.externalLead.toList <+: naming.nativeLead.toList

theorem standard_apart : standard.Apart := ⟨by decide, by decide⟩

theorem Apart.externalName_ne (h : naming.Apart) (first second : String) :
    naming.externalName first ≠ naming.declarationName second := by
  intro he
  have hchars := congrArg String.toList he
  rw [externalName, declarationName, String.toList_append, String.toList_append] at hchars
  rcases List.prefix_or_prefix_of_prefix (hchars ▸ List.prefix_append _ _)
    (List.prefix_append _ _) with hp | hp
  · exact h.2 hp
  · exact h.1 hp

end Naming

theorem Assembler.node_header {assembler : Assembler} {stub : Idl.Stub} {node : SchemaNode}
    (h : assembler.node stub = .ok node) :
    node.header.externalName = assembler.resolver.naming.externalName stub.textName := by
  unfold Assembler.node at h
  cases hc : stub.category <;>
  · simp only [hc] at h
    obtain ⟨_, -, h⟩ := ok_of_bind h
    cases h
    rfl

variable {options : SchemaOptions} {document : Idl.Document} {schema : Schema}

theorem assemble_headers (h : assemble options document = .ok schema) {node : SchemaNode}
    (hn : node ∈ schema.nodes) :
    ∃ text, node.header.externalName = options.naming.externalName text ∧
      node.header.declarationName = options.naming.declarationName text := by
  obtain ⟨normalized, -, h⟩ := ok_of_bind h
  obtain ⟨index, -, h⟩ := ok_of_bind h
  obtain ⟨nodes, hnodes, h⟩ := ok_of_bind h
  cases h
  obtain ⟨stub, -, hr⟩ := exists_of_mem_right (forall₂_of_mapM hnodes) hn
  exact ⟨stub.textName, Assembler.node_header hr, (Assembler.node_assembled hr).name⟩

namespace PlanSet

/-- The external name and the declaration name of every table and plan. -/
def names (set : PlanSet) : List (String × String) :=
  set.tables.map (fun table => (table.externalName, table.declarationName)) ++
    set.plans.map fun plan => (plan.externalName, plan.name)

/-- Some member leads to the structure, or some field holds it in place. -/
def UsesPlan (set : PlanSet) (name : String) : Prop :=
  ∃ plan ∈ set.plans, (∃ member ∈ plan.members, member.marshal.structName? = some name) ∨
    ∃ field ∈ plan.fields, field.init = .embedded name

def UsesTable (set : PlanSet) (name : String) : Prop :=
  ∃ plan ∈ set.plans, ∃ member ∈ plan.members, member.marshal.enumerationName? = some name

/-- No name that a plan uses is the external name of another record. -/
def Unambiguous (set : PlanSet) : Prop :=
  ∀ name, set.UsesPlan name ∨ set.UsesTable name →
    ∀ entry ∈ set.names, entry.1 = name → entry.2 = name

variable {set : PlanSet} {plan : StructPlan} {table : NameTable} {name : String}

theorem mem_names_plan (hp : plan ∈ set.plans) : (plan.externalName, plan.name) ∈ set.names :=
  List.mem_append_right _ (List.mem_map_of_mem hp)

theorem mem_names_table (ht : table ∈ set.tables) :
    (table.externalName, table.declarationName) ∈ set.names :=
  List.mem_append_left _ (List.mem_map_of_mem ht)

theorem tableOf?_spec (h : set.tableOf? name = some table) :
    table ∈ set.tables ∧ table.declarationName = name :=
  ⟨List.mem_of_find?_eq_some h, by simpa using List.find?_some h⟩

theorem build_byExternal (h : PlanSet.build schema = .ok set) :
    set.byExternal = Entries.ofList set.names := by
  obtain ⟨plans, -, h⟩ := ok_of_bind h
  dsimp only at h
  obtain ⟨_, -, h⟩ := ok_of_bind h
  cases h
  rfl

theorem declarationOf_eq (hb : set.byExternal = Entries.ofList set.names)
    (h : ∀ entry ∈ set.names, entry.1 = name → entry.2 = name) : set.declarationOf name = name := by
  unfold declarationOf
  rw [hb, Entries.get?_ofList]
  cases hf : set.names.reverse.find? _ with
  | none => rfl
  | some entry =>
    have hname : entry.1 = name := by simpa using List.find?_some hf
    exact h entry (List.mem_reverse.mp (List.mem_of_find?_eq_some hf)) hname

theorem declarationOf_mem {entry : String × String}
    (hb : set.byExternal = Entries.ofList set.names) (hm : entry ∈ set.names) :
    (entry.1, set.declarationOf entry.1) ∈ set.names := by
  unfold declarationOf
  rw [hb, Entries.get?_ofList]
  cases hf : set.names.reverse.find? _ with
  | none =>
    have := List.find?_eq_none.mp hf entry (List.mem_reverse.mpr hm)
    simp at this
  | some found =>
    have hname : found.1 = entry.1 := by simpa using List.find?_some hf
    rw [← hname]
    exact List.mem_reverse.mp (List.mem_of_find?_eq_some hf)

end PlanSet

/-- Rendering finds what a declaration name names: a plan for a structure and a table for an
enumeration. -/
structure Cpp.Resolves (set : PlanSet) : Prop where
  plan : ∀ name, set.UsesPlan name → ∃ nested, set.planOf? name = some nested ∧
    Cpp.structureName set name = .ok nested.externalName
  table : ∀ name, set.UsesTable name → ∃ table, set.tableOf? name = some table ∧
    Cpp.tableName set name = .ok table.externalName

namespace Bindings

variable {bindings : Bindings} {name : String}

theorem mem_names (h : ofDocument options document = .ok bindings) {entry : String × String}
    (hm : entry ∈ bindings.plans.names) :
    ∃ text, entry = (options.naming.externalName text, options.naming.declarationName text) := by
  obtain ⟨hs, hb⟩ := ofDocument_parts h
  rcases List.mem_append.mp hm with hm | hm
  · obtain ⟨table, ht, rfl⟩ := List.mem_map.mp hm
    rw [PlanSet.tables_eq hb] at ht
    obtain ⟨values, hv, rfl⟩ := List.mem_map.mp ht
    have hnode : ∃ node ∈ bindings.schema.nodes, node.header = values.header := by
      rcases List.mem_append.mp hv with hv | hv <;>
      · obtain ⟨node, hn, he⟩ := List.mem_filterMap.mp hv
        split at he <;> cases he
        exact ⟨_, hn, rfl⟩
    obtain ⟨node, hn, hheader⟩ := hnode
    obtain ⟨text, hexternal, hname⟩ := assemble_headers hs hn
    rw [hheader] at hexternal hname
    exact ⟨text, Prod.ext hexternal hname⟩
  · obtain ⟨plan, hp, rfl⟩ := List.mem_map.mp hm
    obtain ⟨node, hn, hr, -, -⟩ := exists_node h hp
    obtain ⟨text, hexternal, hname⟩ := assemble_headers hs (mem_structures.mp hn)
    obtain ⟨_, -, hr⟩ := ok_of_bind hr
    cases hr
    exact ⟨text, Prod.ext hexternal hname⟩

theorem names_agree (h : ofDocument options document = .ok bindings)
    {first second : String × String} (hf : first ∈ bindings.plans.names)
    (hs : second ∈ bindings.plans.names) (he : first.1 = second.1) : first.2 = second.2 := by
  obtain ⟨text, rfl⟩ := mem_names h hf
  obtain ⟨other, rfl⟩ := mem_names h hs
  exact Naming.externalName_inj.mp he

theorem exists_plan (h : ofDocument options document = .ok bindings)
    (hu : bindings.plans.UsesPlan name) : ∃ nested, bindings.plans.planOf? name = some nested := by
  obtain ⟨plan, hp, ⟨member, hm, hname⟩ | ⟨field, hf, hi⟩⟩ := hu
  · exact ((complete h hp).members member hm).struct name hname
  · exact (complete h hp).embedded field hf name hi

theorem exists_table (h : ofDocument options document = .ok bindings)
    (hu : bindings.plans.UsesTable name) : ∃ table, bindings.plans.tableOf? name = some table := by
  obtain ⟨plan, hp, member, hm, hname⟩ := hu
  exact ((complete h hp).members member hm).enumeration name hname

theorem exists_text (h : ofDocument options document = .ok bindings)
    (hu : bindings.plans.UsesPlan name ∨ bindings.plans.UsesTable name) :
    ∃ text, name = options.naming.declarationName text := by
  rcases hu with hu | hu
  · obtain ⟨nested, hn⟩ := exists_plan h hu
    obtain ⟨text, he⟩ := mem_names h (PlanSet.mem_names_plan (PlanSet.planOf?_mem hn))
    exact ⟨text, (findPlan?_name hn).symm.trans (Prod.ext_iff.mp he).2⟩
  · obtain ⟨table, ht⟩ := exists_table h hu
    obtain ⟨hmem, hname⟩ := PlanSet.tableOf?_spec ht
    obtain ⟨text, he⟩ := mem_names h (PlanSet.mem_names_table hmem)
    exact ⟨text, hname.symm.trans (Prod.ext_iff.mp he).2⟩

/-- With leads that are apart, as the standard ones are, or that are the same, no document has an
ambiguous name. -/
theorem unambiguous (h : ofDocument options document = .ok bindings)
    (hl : options.naming.Apart ∨ options.naming.nativeLead = options.naming.externalLead) :
    bindings.plans.Unambiguous := by
  intro name hu entry hm he
  obtain ⟨text, rfl⟩ := mem_names h hm
  rcases hl with hl | hl
  · obtain ⟨other, rfl⟩ := exists_text h hu
    exact absurd he (hl.externalName_ne text other)
  · rw [← he]
    show options.naming.nativeLead ++ _ = options.naming.externalLead ++ _
    rw [hl]

theorem resolves_iff (h : ofDocument options document = .ok bindings) :
    Cpp.Resolves bindings.plans ↔ bindings.plans.Unambiguous := by
  have hb := PlanSet.build_byExternal (ofDocument_parts h).2
  constructor
  · intro hr name hu entry hm he
    -- the record found by the name as an external name is the one found by it directly
    have hname : bindings.plans.declarationOf name = name := by
      rcases hu with hu | hu
      · obtain ⟨nested, hn, hrendered⟩ := hr.plan name hu
        unfold Cpp.structureName at hrendered
        split at hrendered
        · next found hfound =>
          rw [Except.ok.injEq] at hrendered
          have hagree := names_agree h (PlanSet.mem_names_plan (PlanSet.planOf?_mem hfound))
            (PlanSet.mem_names_plan (PlanSet.planOf?_mem hn)) hrendered
          exact (findPlan?_name hfound).symm.trans (hagree.trans (findPlan?_name hn))
        · cases hrendered
      · obtain ⟨table, ht, hrendered⟩ := hr.table name hu
        unfold Cpp.tableName at hrendered
        split at hrendered
        · next found hfound =>
          rw [Except.ok.injEq] at hrendered
          obtain ⟨hmem, hd⟩ := PlanSet.tableOf?_spec ht
          obtain ⟨hfmem, hfd⟩ := PlanSet.tableOf?_spec hfound
          have hagree := names_agree h (PlanSet.mem_names_table hfmem)
            (PlanSet.mem_names_table hmem) hrendered
          exact hfd.symm.trans (hagree.trans hd)
        · cases hrendered
    subst he
    exact (names_agree h hm (PlanSet.declarationOf_mem hb hm) rfl).trans hname
  · intro hu
    constructor
    · intro name huses
      obtain ⟨nested, hn⟩ := exists_plan h huses
      refine ⟨nested, hn, ?_⟩
      have hname := PlanSet.declarationOf_eq hb (hu name (Or.inl huses))
      rw [Cpp.structureName, PlanSet.plan?, hname, hn]
    · intro name huses
      obtain ⟨table, ht⟩ := exists_table h huses
      refine ⟨table, ht, ?_⟩
      have hname := PlanSet.declarationOf_eq hb (hu name (Or.inr huses))
      rw [Cpp.tableName, PlanSet.table?, hname, ht]

end Bindings

end DescriptorMarshal
