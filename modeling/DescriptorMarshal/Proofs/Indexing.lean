import DescriptorMarshal.Proofs.Records

/-!
The index of a document is exact. It is refused exactly when two records have one name in Pascal
case, for the first record that repeats the name of an earlier one. Otherwise a record is found by
its text name and by its declaration name, both times with its own entry, and nothing else is found.
-/

namespace DescriptorMarshal

namespace NodeIndex

open Idl (Stub)

/-- The names in Pascal case, of which each record has to have its own. -/
def pascalNames (stubs : List Stub) : List String := stubs.map fun stub => pascalCase stub.textName

/-- The first record that has the name of an earlier one, after that one. -/
structure FirstClash (stubs : List Stub) (first second : Stub) : Prop where
  parts : ∃ before between after, stubs = before ++ first :: between ++ second :: after ∧
    (pascalNames (before ++ first :: between)).Nodup
  same : pascalCase first.textName = pascalCase second.textName

variable {naming : Naming} {index : NodeIndex} {stubs : List Stub} {first second stub : Stub}
  {e : SchemaError} {name : String} {position : Nat}

theorem nodup_lead_iff (lead : String) (stubs : List Stub) :
    (stubs.map fun stub => lead ++ pascalCase stub.textName).Nodup ↔ (pascalNames stubs).Nodup := by
  have hlead : Function.Injective fun name : String => lead ++ name :=
    fun _ _ => (String.append_right_inj lead).mp
  rw [← List.nodup_map_iff hlead (l := pascalNames stubs), pascalNames, List.map_map]
  rfl

theorem exists_build_iff :
    (∃ index, build naming stubs = .ok index) ↔ (pascalNames stubs).Nodup := by
  rw [← nodup_lead_iff naming.nativeLead]
  constructor
  · rintro ⟨index, h⟩
    exact (build_iff.mp h).distinct
  · exact fun hdistinct => ⟨_, build_iff.mpr ⟨rfl, hdistinct⟩⟩

theorem exists_firstClash (h : ¬ (pascalNames stubs).Nodup) :
    ∃ first second, FirstClash stubs first second := by
  induction stubs using List.reverseRecOn with
  | nil => exact absurd List.nodup_nil h
  | append_singleton init last ih =>
    by_cases hinit : (pascalNames init).Nodup
    · -- the last record is the first to repeat a name
      have hmem : pascalCase last.textName ∈ pascalNames init := by
        by_contra hnew
        refine h ?_
        rw [pascalNames, List.map_append, List.map_singleton, List.nodup_append]
        refine ⟨hinit, List.nodup_singleton _, fun name hm other ho heq => hnew ?_⟩
        rw [← List.mem_singleton.mp ho, ← heq]
        exact hm
      obtain ⟨first, hf, hsame⟩ := List.mem_map.mp hmem
      obtain ⟨before, between, rfl⟩ := List.append_of_mem hf
      exact ⟨first, last, ⟨before, between, [], rfl, hinit⟩, hsame⟩
    · obtain ⟨first, second, ⟨before, between, after, hparts, hdistinct⟩, hsame⟩ := ih hinit
      refine ⟨first, second, ⟨before, between, after ++ [last], ?_, hdistinct⟩, hsame⟩
      rw [hparts, List.append_assoc, List.cons_append]

theorem build_append_error (h : build naming stubs = .error e) (rest : List Stub) :
    build naming (stubs ++ rest) = .error e := by
  rw [build] at h
  rw [build, List.zipIdx_append, List.foldlM_append, h]
  rfl

/-- The records before a clash are indexed, and the clash itself is refused. -/
theorem FirstClash.build_eq (h : FirstClash stubs first second) :
    build naming stubs = .error
      (.duplicateName (naming.declarationName second.textName) first.textName second.textName) := by
  obtain ⟨⟨before, between, after, rfl, hdistinct⟩, hsame⟩ := h
  have hlists : Lists naming (indexOf naming (before ++ first :: between))
      (before ++ first :: between) :=
    ⟨rfl, (nodup_lead_iff naming.nativeLead _).mpr hdistinct⟩
  have hname : naming.declarationName second.textName = naming.declarationName first.textName :=
    congrArg (naming.nativeLead ++ ·) hsame.symm
  have hfound : (indexOf naming (before ++ first :: between)).textNames.get?
      (naming.declarationName second.textName) = some first.textName := by
    rw [hname]
    exact hlists.textNames_get? (List.mem_append_right _ List.mem_cons_self)
  have hclash : build naming (before ++ first :: between ++ [second]) = .error
      (.duplicateName (naming.declarationName second.textName) first.textName
        second.textName) := by
    rw [build_concat, build_iff.mpr hlists]
    exact add_clash hfound _
  rw [List.append_cons (before ++ first :: between)]
  exact build_append_error hclash after

theorem build_error_iff : build naming stubs = .error e ↔ ∃ first second,
    FirstClash stubs first second ∧ e =
      .duplicateName (naming.declarationName second.textName) first.textName second.textName := by
  constructor
  · intro h
    have hclash : ¬ (pascalNames stubs).Nodup := by
      intro hdistinct
      obtain ⟨index, hindex⟩ : ∃ index, build naming stubs = .ok index :=
        exists_build_iff.mpr hdistinct
      cases h.symm.trans hindex
    obtain ⟨first, second, hfirst⟩ := exists_firstClash hclash
    rw [hfirst.build_eq, Except.error.injEq] at h
    exact ⟨first, second, hfirst, h.symm⟩
  · rintro ⟨first, second, hfirst, rfl⟩
    exact hfirst.build_eq

namespace Lists

theorem size_eq (h : Lists naming index stubs) : index.size = stubs.length := by
  rw [size, h.eq, indexOf, List.length_mapIdx]

theorem get?_at (h : Lists naming index stubs) (hs : stubs[position]? = some stub) :
    index.get? stub.textName = some (entryAt naming position stub) :=
  h.get?_iff.mpr ⟨h.entryAt_mem hs, rfl⟩

theorem byDeclaration?_at (h : Lists naming index stubs) (hs : stubs[position]? = some stub) :
    index.byDeclaration? (naming.declarationName stub.textName) =
      some (entryAt naming position stub) :=
  h.byDeclaration?_iff.mpr ⟨h.entryAt_mem hs, rfl⟩

theorem exists_stub {entry : IndexEntry} (h : Lists naming index stubs)
    (he : entry ∈ index.entries) :
    ∃ stub ∈ stubs, entry = entryAt naming entry.position stub := by
  obtain ⟨stub, hs, hentry⟩ := h.mem_iff.mp he
  exact ⟨stub, List.mem_of_getElem? hs, hentry⟩

theorem get?_eq_none (h : Lists naming index stubs) :
    index.get? name = none ↔ ∀ stub ∈ stubs, stub.textName ≠ name := by
  constructor
  · rintro hnone stub hm rfl
    obtain ⟨position, hs⟩ := List.mem_iff_getElem?.mp hm
    rw [h.get?_at hs] at hnone
    cases hnone
  · intro hall
    rw [Option.eq_none_iff_forall_ne_some]
    intro entry hentry
    obtain ⟨he, hname⟩ := h.get?_iff.mp hentry
    obtain ⟨stub, hm, hstub⟩ := h.exists_stub he
    rw [hstub] at hname
    exact hall stub hm hname

theorem byDeclaration?_eq_none (h : Lists naming index stubs) : index.byDeclaration? name = none ↔
    ∀ stub ∈ stubs, naming.declarationName stub.textName ≠ name := by
  constructor
  · rintro hnone stub hm rfl
    obtain ⟨position, hs⟩ := List.mem_iff_getElem?.mp hm
    rw [h.byDeclaration?_at hs] at hnone
    cases hnone
  · intro hall
    rw [Option.eq_none_iff_forall_ne_some]
    intro entry hentry
    obtain ⟨he, hname⟩ := h.byDeclaration?_iff.mp hentry
    obtain ⟨stub, hm, hstub⟩ := h.exists_stub he
    rw [hstub] at hname
    exact hall stub hm hname

end Lists

/-- An index is built exactly of records whose names in Pascal case are distinct, and the first
record that repeats a name is refused. What was built finds each record, by either of its names and
with its own entry, and nothing else. -/
theorem index_exact (naming : Naming) (stubs : List Stub) :
    ((∃ index, build naming stubs = .ok index) ↔
      (stubs.map fun stub => pascalCase stub.textName).Nodup) ∧
    (∀ e, build naming stubs = .error e ↔ ∃ first second, FirstClash stubs first second ∧
      e = .duplicateName (naming.declarationName second.textName) first.textName
        second.textName) ∧
    ∀ index, build naming stubs = .ok index → index.size = stubs.length ∧
      (∀ position stub, stubs[position]? = some stub →
        index.get? stub.textName = some (entryAt naming position stub) ∧
          index.byDeclaration? (naming.declarationName stub.textName) =
            some (entryAt naming position stub)) ∧
      (∀ name, index.get? name = none ↔ ∀ stub ∈ stubs, stub.textName ≠ name) ∧
      (∀ name, index.byDeclaration? name = none ↔
        ∀ stub ∈ stubs, naming.declarationName stub.textName ≠ name) ∧
      (stubs.map fun stub => naming.externalName stub.textName).Nodup := by
  refine ⟨exists_build_iff, fun e => build_error_iff, fun index h => ?_⟩
  have hlists := build_iff.mp h
  refine ⟨hlists.size_eq, fun position stub hs => ⟨hlists.get?_at hs, hlists.byDeclaration?_at hs⟩,
    fun name => hlists.get?_eq_none, fun name => hlists.byDeclaration?_eq_none, ?_⟩
  exact (nodup_lead_iff naming.externalLead stubs).mpr (exists_build_iff.mp ⟨index, h⟩)

def bareStub (name : String) (category : Idl.Category) : Stub :=
  ⟨name, category, ⟨category.name, [], [], [], false⟩⟩

def formatStubs : List Stub := [bareStub "texture format" .enumeration, bareStub "label" .struct]

/-- The second spelling of a name is refused, however it is separated. -/
theorem index_exact_formats : ∃ index, build .standard formatStubs = .ok index ∧
    formatStubs[1]? = some (bareStub "label" .struct) ∧
    index.get? "label" = some ⟨"label", 1, .struct, "WGPULabel", "GPULabel"⟩ ∧
    index.byDeclaration? "WGPULabel" = index.get? "label" ∧ index.get? "Label" = none ∧
    build .standard (formatStubs ++ [bareStub "Texture-Format" .object]) =
      .error (.duplicateName "WGPUTextureFormat" "texture format" "Texture-Format") := by
  obtain ⟨hbuilds, -, hindex⟩ := index_exact .standard formatStubs
  obtain ⟨-, herrors, -⟩ :=
    index_exact .standard (formatStubs ++ [bareStub "Texture-Format" .object])
  obtain ⟨index, h⟩ := hbuilds.mpr (by decide)
  obtain ⟨-, hat, hnone, -, -⟩ := hindex index h
  obtain ⟨hget, hdeclaration⟩ := hat 1 _ rfl
  have hclash : FirstClash (formatStubs ++ [bareStub "Texture-Format" .object])
      (bareStub "texture format" .enumeration) (bareStub "Texture-Format" .object) :=
    ⟨⟨[], [bareStub "label" .struct], [], rfl, by decide⟩, by decide⟩
  refine ⟨index, h, rfl, hget, hdeclaration.trans hget.symm, (hnone "Label").mpr ?_,
    (herrors _).mpr ⟨_, _, hclash, rfl⟩⟩
  simp [formatStubs, bareStub]

end NodeIndex

end DescriptorMarshal
