import DescriptorMarshal.Proofs.Constants

/-!
The two directions of a name table. Where entries repeat, a name takes its last value and a value
keeps its first name. So a table gives every declared value back by its name exactly when no name
is declared with two values.
-/

namespace DescriptorMarshal

namespace NamedValue

/-- The last entry of the name has the value. -/
def LastOf (values : List NamedValue) (name : String) (bits : UInt32) : Prop :=
  ∃ before entry after, values = before ++ entry :: after ∧
    entry.name = name ∧ entry.value = bits ∧ ∀ later ∈ after, later.name ≠ name

/-- The first entry of the value has the name. -/
def FirstOf (values : List NamedValue) (bits : UInt32) (name : String) : Prop :=
  ∃ before entry after, values = before ++ entry :: after ∧
    entry.value = bits ∧ entry.name = name ∧ ∀ earlier ∈ before, earlier.value ≠ bits

/-- No name is declared with two values. -/
def Single (values : List NamedValue) : Prop :=
  ∀ first ∈ values, ∀ second ∈ values, first.name = second.name → first.value = second.value

end NamedValue

open NamedValue (LastOf FirstOf Single)

namespace NameTable

/-- What a table tells of the values it is made of, however often a name or a value repeats. -/
structure Tells (table : NameTable) (values : List NamedValue) : Prop where
  value : ∀ name bits, table.value? name = some bits ↔ LastOf values name bits
  name : ∀ bits name, table.name? bits = some name ↔ FirstOf values bits name
  /-- Every name is listed once, with its value. -/
  listed : ∀ name bits, (name, bits) ∈ table.byName ↔ table.value? name = some bits
  nodup : table.byName.keys.Nodup
  names : ∀ name, name ∈ table.byName.keys ↔ ∃ entry ∈ values, entry.name = name
  rows : ∀ bits name, (bits, name) ∈ table.byValue ↔ table.name? bits = some name
  ascending : table.byValue.Pairwise fun row later => row.1 < later.1
  values : ∀ bits, bits ∈ table.byValue.map (·.1) ↔ ∃ entry ∈ values, entry.value = bits

/-- A name leads back to the first name of its value. -/
def Returns (table : NameTable) (values : List NamedValue) (name : String) : Prop :=
  ∃ bits first, table.value? name = some bits ∧ table.name? bits = some first ∧
    FirstOf values bits first

/-- What goes through the table one way comes back the other way. -/
structure Inverse (table : NameTable) (values : List NamedValue) : Prop where
  value : ∀ entry ∈ values, table.value? entry.name = some entry.value
  row : ∀ row ∈ table.byValue, table.value? row.2 = some row.1

end NameTable

variable {values rest : List NamedValue} {entry : NamedValue} {set : ValueSet} {table : NameTable}
  {rows : List (UInt32 × String)} {row : UInt32 × String} {name : String} {bits : UInt32}

namespace NamedValue

theorem lastOf_iff_find? : LastOf values name bits ↔
    (values.reverse.find? fun entry => entry.name == name).map (·.value) = some bits := by
  rw [Option.map_eq_some_iff]
  constructor
  · rintro ⟨before, entry, after, rfl, hname, hvalue, hlater⟩
    refine ⟨entry, List.find?_eq_some_iff_append.mpr ⟨beq_iff_eq.mpr hname, after.reverse,
      before.reverse, by simp, ?_⟩, hvalue⟩
    intro later hl
    simpa using hlater later (List.mem_reverse.mp hl)
  · rintro ⟨entry, hfound, hvalue⟩
    obtain ⟨hname, after, before, hsplit, hlater⟩ := List.find?_eq_some_iff_append.mp hfound
    refine ⟨before.reverse, entry, after.reverse, ?_, beq_iff_eq.mp hname, hvalue, ?_⟩
    · rw [← List.reverse_reverse values, hsplit]
      simp
    · intro later hl
      simpa using hlater later (List.mem_reverse.mp hl)

theorem firstOf_iff_find? : FirstOf values bits name ↔
    (values.find? fun entry => entry.value == bits).map (·.name) = some name := by
  rw [Option.map_eq_some_iff]
  constructor
  · rintro ⟨before, entry, after, rfl, hvalue, hname, hearlier⟩
    refine ⟨entry, List.find?_eq_some_iff_append.mpr
      ⟨beq_iff_eq.mpr hvalue, before, after, rfl, ?_⟩, hname⟩
    intro earlier he
    simpa using hearlier earlier he
  · rintro ⟨entry, hfound, hname⟩
    obtain ⟨hvalue, before, after, hsplit, hearlier⟩ := List.find?_eq_some_iff_append.mp hfound
    refine ⟨before, entry, after, hsplit, beq_iff_eq.mp hvalue, hname, ?_⟩
    intro earlier he
    simpa using hearlier earlier he

theorem LastOf.exists_mem (h : LastOf values name bits) :
    ∃ entry ∈ values, entry.name = name ∧ entry.value = bits := by
  obtain ⟨before, entry, after, rfl, hname, hvalue, -⟩ := h
  exact ⟨entry, by simp, hname, hvalue⟩

theorem FirstOf.exists_mem (h : FirstOf values bits name) :
    ∃ entry ∈ values, entry.value = bits ∧ entry.name = name := by
  obtain ⟨before, entry, after, rfl, hvalue, hname, -⟩ := h
  exact ⟨entry, by simp, hvalue, hname⟩

theorem exists_lastOf (h : entry ∈ values) : ∃ bits, LastOf values entry.name bits := by
  obtain ⟨last, hfound, -, -⟩ := exists_find? (fun other => other.name == entry.name)
    (List.mem_reverse.mpr h) (beq_self_eq_true _)
  exact ⟨last.value, lastOf_iff_find?.mpr (by rw [hfound, Option.map_some])⟩

theorem exists_firstOf (h : entry ∈ values) : ∃ name, FirstOf values entry.value name := by
  obtain ⟨first, hfound, -, -⟩ :=
    exists_find? (fun other => other.value == entry.value) h (beq_self_eq_true _)
  exact ⟨first.name, firstOf_iff_find?.mpr (by rw [hfound, Option.map_some])⟩

theorem firstOf_concat : FirstOf (values ++ [entry]) bits name ↔
    FirstOf values bits name ∨
      (bits, name) = (entry.value, entry.name) ∧ ∀ earlier ∈ values, earlier.value ≠ bits := by
  rw [firstOf_iff_find?, firstOf_iff_find?, List.find?_append]
  cases hfound : values.find? fun entry => entry.value == bits with
  | some first =>
    have hm := List.mem_of_find?_eq_some hfound
    have hv : first.value = bits := by simpa using List.find?_some hfound
    simp only [Option.some_or, Option.map_some, Option.some.injEq, iff_self_or]
    rintro ⟨-, hearlier⟩
    exact absurd hv (hearlier first hm)
  | none =>
    have hearlier : ∀ earlier ∈ values, earlier.value ≠ bits := by
      simpa using List.find?_eq_none.mp hfound
    rw [Option.none_or, Prod.mk.injEq]
    by_cases hv : entry.value = bits
    · subst hv
      simpa using ⟨fun h => ⟨h.symm, hearlier⟩, fun h => h.1.symm⟩
    · simp [hv, Ne.symm hv]

end NamedValue

namespace NameTable

def Ascending (rows : List (UInt32 × String)) : Prop :=
  rows.Pairwise fun row later => row.1 < later.1

theorem mem_addAlias (h : Ascending rows) : row ∈ addAlias rows bits name ↔
    row ∈ rows ∨ row = (bits, name) ∧ ∀ old ∈ rows, old.1 ≠ bits := by
  induction rows with
  | nil => simp [addAlias]
  | cons head rest ih =>
    obtain ⟨hhead, hrest⟩ := List.pairwise_cons.mp h
    rw [addAlias]
    split
    · next heq =>
      refine ⟨.inl, fun hm => hm.elim id fun hnew => ?_⟩
      exact absurd heq.symm (hnew.2 head List.mem_cons_self)
    · next hne =>
      split
      · next hlt =>
        -- everything after a greater value is greater still
        have hnew : ∀ old ∈ head :: rest, old.1 ≠ bits := by
          intro old ho
          rcases List.mem_cons.mp ho with rfl | ho
          · exact Ne.symm hne
          · exact (UInt32.ne_of_lt (UInt32.lt_trans hlt (hhead old ho))).symm
        rw [List.mem_cons]
        exact ⟨fun hm => hm.symm.imp_right fun hrow => ⟨hrow, hnew⟩,
          fun hm => hm.symm.imp_left And.left⟩
      · rw [List.mem_cons, List.mem_cons, ih hrest, List.forall_mem_cons, or_assoc]
        have hhead : head.1 ≠ bits := Ne.symm hne
        simp only [hhead, ne_eq, not_false_eq_true, true_and]

theorem ascending_addAlias (h : Ascending rows) : Ascending (addAlias rows bits name) := by
  induction rows with
  | nil => exact List.pairwise_singleton _ _
  | cons head rest ih =>
    obtain ⟨hhead, hrest⟩ := List.pairwise_cons.mp h
    rw [addAlias]
    split
    · exact h
    · next hne =>
      split
      · next hlt =>
        refine List.pairwise_cons.mpr ⟨fun old ho => ?_, h⟩
        rcases List.mem_cons.mp ho with rfl | ho
        · exact hlt
        · exact UInt32.lt_trans hlt (hhead old ho)
      · next hge =>
        refine List.pairwise_cons.mpr ⟨fun old ho => ?_, ih hrest⟩
        rcases (mem_addAlias hrest).mp ho with ho | ⟨rfl, -⟩
        · exact hhead old ho
        · exact UInt32.lt_of_le_of_ne (UInt32.not_lt.mp hge) (Ne.symm hne)

/-- One row per value, that of its first name. -/
theorem byValue_rows (header : NodeHeader) (values : List NamedValue) :
    Ascending (ofValueSet ⟨header, values⟩).byValue ∧
      ∀ bits name, (bits, name) ∈ (ofValueSet ⟨header, values⟩).byValue ↔
        FirstOf values bits name := by
  induction values using List.reverseRecOn with
  | nil => exact ⟨.nil, fun bits name => by simp [ofValueSet, FirstOf]⟩
  | append_singleton rest entry ih =>
    obtain ⟨hascending, hrows⟩ := ih
    have hadd : (ofValueSet ⟨header, rest ++ [entry]⟩).byValue =
        addAlias (ofValueSet ⟨header, rest⟩).byValue entry.value entry.name := by
      simp [ofValueSet]
    rw [hadd]
    refine ⟨ascending_addAlias hascending, fun bits name => ?_⟩
    rw [mem_addAlias hascending, NamedValue.firstOf_concat, hrows]
    -- a value has a row as soon as it is declared
    have hold : (∀ old ∈ (ofValueSet ⟨header, rest⟩).byValue, old.1 ≠ entry.value) ↔
        ∀ earlier ∈ rest, earlier.value ≠ entry.value := by
      constructor
      · intro h earlier he hv
        obtain ⟨first, hfirst⟩ := NamedValue.exists_firstOf he
        exact h _ ((hrows _ _).mpr hfirst) hv
      · rintro h ⟨value, first⟩ ho rfl
        obtain ⟨earlier, he, hv, -⟩ := ((hrows _ _).mp ho).exists_mem
        exact h earlier he hv
    rw [hold]
    refine or_congr_right (and_congr_right fun heq => ?_)
    rw [(Prod.mk.inj heq).1]

theorem find?_row (h : Ascending rows) :
    (rows.find? fun row => row.1 == bits).map (·.2) = some name ↔ (bits, name) ∈ rows := by
  rw [Option.map_eq_some_iff]
  constructor
  · rintro ⟨⟨value, _⟩, hfound, rfl⟩
    have hv : value = bits := by simpa using List.find?_some hfound
    exact hv ▸ List.mem_of_find?_eq_some hfound
  · intro hm
    obtain ⟨found, hfound, hmem, hkey⟩ := exists_find? (fun row => row.1 == bits) hm
      (beq_self_eq_true bits)
    have hnodup : (rows.map (·.1)).Nodup := List.pairwise_map.mpr (h.imp UInt32.ne_of_lt)
    have hsame : found = (bits, name) :=
      List.inj_on_of_nodup_map hnodup hmem hm (by simpa using hkey)
    exact ⟨found, hfound, congrArg Prod.snd hsame⟩

theorem value?_ofValueSet :
    (ofValueSet set).value? name = some bits ↔ LastOf set.values name bits := by
  rw [value?, ofValueSet, Entries.get?_ofList, NamedValue.lastOf_iff_find?, ← List.map_reverse,
    List.find?_map, Option.map_map]
  rfl

theorem name?_ofValueSet :
    (ofValueSet set).name? bits = some name ↔ FirstOf set.values bits name := by
  obtain ⟨hascending, hrows⟩ := byValue_rows set.header set.values
  rw [← hrows]
  exact find?_row hascending

theorem nodup_byName (set : ValueSet) : (ofValueSet set).byName.keys.Nodup := by
  rw [ofValueSet]
  induction set.values using List.reverseRecOn with
  | nil => exact .nil
  | append_singleton rest entry ih =>
    rw [List.map_append, List.map_singleton, Entries.ofList_concat]
    exact Entries.nodup_put ih

theorem tells (set : ValueSet) : (ofValueSet set).Tells set.values := by
  obtain ⟨hascending, hrows⟩ := byValue_rows set.header set.values
  have hnodup := nodup_byName set
  refine ⟨fun name bits => value?_ofValueSet, fun bits name => name?_ofValueSet,
    fun name bits => ⟨Entries.get?_of_mem hnodup, Entries.mem_of_get?⟩, hnodup, fun name => ?_,
    fun bits name => (hrows bits name).trans name?_ofValueSet.symm, hascending, fun bits => ?_⟩
  · constructor
    · intro hm
      obtain ⟨bits, hbits⟩ := Entries.get?_of_mem_keys hm
      obtain ⟨entry, he, hname, -⟩ := (value?_ofValueSet.mp hbits).exists_mem
      exact ⟨entry, he, hname⟩
    · rintro ⟨entry, he, rfl⟩
      obtain ⟨bits, hlast⟩ := NamedValue.exists_lastOf he
      exact Entries.mem_keys_of_mem (Entries.mem_of_get? (value?_ofValueSet.mpr hlast))
  · constructor
    · intro hm
      obtain ⟨⟨bits, name⟩, hrow, rfl⟩ := List.mem_map.mp hm
      obtain ⟨entry, he, hvalue, -⟩ := ((hrows bits name).mp hrow).exists_mem
      exact ⟨entry, he, hvalue⟩
    · rintro ⟨entry, he, rfl⟩
      obtain ⟨name, hfirst⟩ := NamedValue.exists_firstOf he
      exact List.mem_map.mpr ⟨_, (hrows _ _).mpr hfirst, rfl⟩

namespace Tells

theorem returns (h : table.Tells values) (hn : name ∈ table.byName.keys) :
    table.Returns values name := by
  obtain ⟨entry, he, rfl⟩ := (h.names name).mp hn
  obtain ⟨bits, hlast⟩ := NamedValue.exists_lastOf he
  obtain ⟨last, hm, -, rfl⟩ := hlast.exists_mem
  obtain ⟨first, hfirst⟩ := NamedValue.exists_firstOf hm
  exact ⟨_, first, (h.value _ _).mpr hlast, (h.name _ _).mpr hfirst, hfirst⟩

theorem value?_eq (h : table.Tells values) (hs : Single values) (he : entry ∈ values) :
    table.value? entry.name = some entry.value := by
  obtain ⟨bits, hlast⟩ := NamedValue.exists_lastOf he
  obtain ⟨last, hm, hname, rfl⟩ := hlast.exists_mem
  rw [(h.value _ _).mpr hlast, hs last hm entry he hname]

theorem inverse_iff (h : table.Tells values) : table.Inverse values ↔ Single values := by
  constructor
  · intro hi first hf second hs hname
    have hfirst := hi.value first hf
    rw [hname, hi.value second hs] at hfirst
    exact (Option.some.inj hfirst).symm
  · intro hs
    refine ⟨fun entry => h.value?_eq hs, fun row hrow => ?_⟩
    obtain ⟨entry, he, hvalue, hname⟩ := ((h.name _ _).mp ((h.rows _ _).mp hrow)).exists_mem
    rw [← hname, h.value?_eq hs he, hvalue]

end Tells

end NameTable

variable {options : SchemaOptions} {document : Idl.Document} {bindings : Bindings} {schema : Schema}

/-- The values of an enum or bitmask are the constants of a record of the document, under their host
names. -/
structure ValueSet.DeclaredBy (set : ValueSet) (document : Idl.Document) (stub : Idl.Stub) :
    Prop where
  record : ∃ normalized, Idl.normalize document = .ok normalized ∧ stub ∈ normalized.stubs
  category : stub.category = .enumeration ∨ stub.category = .bitmask
  values : List.Forall₂ (NamedValue.Assembled (decide (stub.category = .bitmask)))
    stub.record.values set.values

theorem exists_declaredBy (hs : assemble options document = .ok schema)
    (hm : set ∈ schema.enums ++ schema.bitmasks) : ∃ stub, set.DeclaredBy document stub := by
  obtain ⟨assembler, hmade⟩ := exists_assembler hs
  obtain ⟨normalized, hn, hstubs⟩ := hmade.stubs
  obtain ⟨node, hnode, hset⟩ := mem_valueSets.mp hm
  obtain ⟨stub, hstub, hr⟩ := exists_of_mem_right hmade.nodes hnode
  unfold Assembler.node at hr
  cases hc : stub.category with
  | enumeration | bitmask =>
    have hconstant : stub.category = .enumeration ∨ stub.category = .bitmask := by simp [hc]
    simp only [hc] at hr
    obtain ⟨values, hv, hr⟩ := ok_of_bind hr
    cases hr
    rcases hset with hset | hset <;> cases hset
    refine ⟨stub, ⟨normalized, hn, hstubs ▸ hstub⟩, hconstant, ?_⟩
    rw [hc]
    exact assembleValues_forall₂ hv
  | object | struct =>
    simp only [hc] at hr
    obtain ⟨_, -, hr⟩ := ok_of_bind hr
    cases hr
    rcases hset with hset | hset <;> cases hset

/-- The table of an enum or bitmask tells, of each name and each value, what the last and the first
entry of it say; and it is its own inverse on them exactly when no host name has two values. -/
theorem table_inverse_iff (hb : Bindings.ofDocument options document = .ok bindings)
    (hm : set ∈ bindings.schema.enums ++ bindings.schema.bitmasks) :
    ∃ table, bindings.plans.tableOf? set.header.declarationName = some table ∧
      (∃ stub, set.DeclaredBy document stub) ∧ table.Tells set.values ∧
        (∀ name ∈ table.byName.keys, table.Returns set.values name) ∧
          (table.Inverse set.values ↔ Single set.values) := by
  obtain ⟨hs, hp⟩ := Bindings.ofDocument_parts hb
  have htells := NameTable.tells set
  exact ⟨_, PlanSet.tableOf?_of_mem hs hp hm, exists_declaredBy hs hm, htells,
    fun _ => htells.returns, htells.inverse_iff⟩

def toneValue (name : String) (value : Int) : Json :=
  .object [("name", .string name), ("value", .integer value)]

/-- A bitmask with two spellings of one name and another name for the same value, and an enum with a
name for two values. -/
def toneDocument : Idl.Document :=
  [("usage", .object [("category", .string "bitmask"), ("values", .array [
    toneValue "copy src" 1, toneValue "copy_src" 1, toneValue "any" 1, toneValue "map read" 2])]),
  ("tone", .object [("category", .string "enum"), ("values", .array [
    toneValue "plain" 4, toneValue "plain" 5])])]

def usages : ValueSet :=
  ⟨⟨"usage", "WGPUUsage", "GPUUsage"⟩, [⟨"COPY_SRC", "copy src", 1⟩, ⟨"COPY_SRC", "copy_src", 1⟩,
    ⟨"ANY", "any", 1⟩, ⟨"MAP_READ", "map read", 2⟩]⟩

def tones : ValueSet :=
  ⟨⟨"tone", "WGPUTone", "GPUTone"⟩, [⟨"plain", "plain", 4⟩, ⟨"plain", "plain", 5⟩]⟩

def tonePlans : PlanSet :=
  ⟨[], [.ofValueSet tones, .ofValueSet usages],
    [("GPUTone", "WGPUTone"), ("GPUUsage", "WGPUUsage")]⟩

theorem tone_bindings : ∃ schema,
    Bindings.ofDocument .standard toneDocument = .ok ⟨schema, tonePlans⟩ ∧
      schema.enums = [tones] ∧ schema.bitmasks = [usages] := by
  obtain ⟨schema, hs, hplans, henums, hbitmasks⟩ : ∃ schema,
      assemble .standard toneDocument = .ok schema ∧
        schema.structures.mapM (buildPlan schema) = .ok tonePlans.plans ∧
          schema.enums = [tones] ∧ schema.bitmasks = [usages] := ⟨_, rfl, rfl, rfl, rfl⟩
  have htables : (schema.enums ++ schema.bitmasks).map NameTable.ofValueSet = tonePlans.tables := by
    rw [henums, hbitmasks]
    rfl
  have hcheck : checkEmbedding tonePlans.plans = .ok () := by
    simp [checkEmbedding, Embedding.check, tonePlans, pure, Except.pure]
  exact ⟨schema, Bindings.ofDocument_of_parts hs hplans htables rfl hcheck, henums, hbitmasks⟩

theorem table_inverse_usages : ∃ bindings table,
    Bindings.ofDocument .standard toneDocument = .ok bindings ∧
    usages ∈ bindings.schema.bitmasks ∧
    bindings.plans.tableOf? "WGPUUsage" = some table ∧ table.Inverse usages.values := by
  obtain ⟨schema, hb, henums, hbitmasks⟩ := tone_bindings
  have hm : usages ∈ schema.bitmasks := by simp [hbitmasks]
  obtain ⟨table, htable, -, -, -, hinverse⟩ :=
    table_inverse_iff hb (List.mem_append_right schema.enums hm)
  have hsingle : Single usages.values := by
    unfold Single
    decide
  exact ⟨_, table, hb, hm, htable, hinverse.mpr hsingle⟩

/-- The name of both values has the second one, so the first value, which is listed under it, does
not come back. -/
theorem tones_overwritten : ∃ bindings table,
    Bindings.ofDocument .standard toneDocument = .ok bindings ∧
    tones ∈ bindings.schema.enums ∧
    bindings.plans.tableOf? "WGPUTone" = some table ∧
    table.name? 4 = some "plain" ∧ table.value? "plain" = some 5 ∧
    ¬ table.Inverse tones.values := by
  obtain ⟨schema, hb, henums, -⟩ := tone_bindings
  have hm : tones ∈ schema.enums := by simp [henums]
  have hvalue : (NameTable.ofValueSet tones).value? "plain" = some 5 := rfl
  refine ⟨_, _, hb, hm, rfl, rfl, hvalue, fun hinverse => ?_⟩
  have hfirst := hinverse.value ⟨"plain", "plain", 4⟩ List.mem_cons_self
  rw [hvalue] at hfirst
  exact absurd hfirst (by decide)

end DescriptorMarshal
