import DescriptorMarshal.Proofs.Assembly

/-!
The records of a document. Normalizing looks at each record on its own, so what it keeps is read off
the document entry by entry, and a document is assembled exactly when every record of it can be
read, no two that were kept derive one declaration name, and each of them gives a node.
-/

namespace DescriptorMarshal

section Steps

variable {ε α β : Type} {f : α → Except ε β} {items : List α}

theorem error_of_bind {x : Except ε α} {f : α → Except ε β} {e : ε}
    (h : (x >>= f) = .error e) : x = .error e ∨ ∃ a, x = .ok a ∧ f a = .error e := by
  cases x with
  | error other =>
    cases h
    exact Or.inl rfl
  | ok a => exact Or.inr ⟨a, rfl, h⟩

theorem mapM_iff_forall₂ {results : List β} : items.mapM f = .ok results ↔
    List.Forall₂ (fun item result => f item = .ok result) items results := by
  refine ⟨forall₂_of_mapM, ?_⟩
  intro h
  induction h with
  | nil => rfl
  | cons hstep _ ih =>
    rw [List.mapM_cons, hstep, ih]
    rfl

theorem exists_mapM_iff : (∃ results, items.mapM f = .ok results) ↔
    ∀ item ∈ items, ∃ result, f item = .ok result := by
  constructor
  · rintro ⟨results, h⟩ item hm
    obtain ⟨result, -, hr⟩ := exists_of_mem_left (forall₂_of_mapM h) hm
    exact ⟨result, hr⟩
  · intro h
    induction items with
    | nil => exact ⟨[], rfl⟩
    | cons item rest ih =>
      obtain ⟨result, hr⟩ := h item List.mem_cons_self
      obtain ⟨results, hrs⟩ := ih fun other ho => h other (List.mem_cons_of_mem _ ho)
      exact ⟨result :: results, by rw [List.mapM_cons, hr, hrs]; rfl⟩

theorem exists_of_mapM_error {e : ε} (h : items.mapM f = .error e) :
    ∃ item ∈ items, f item = .error e := by
  induction items with
  | nil => cases h
  | cons item rest ih =>
    rw [List.mapM_cons] at h
    obtain hf | ⟨result, -, h⟩ := error_of_bind h
    · exact ⟨item, List.mem_cons_self, hf⟩
    · obtain hr | ⟨results, -, h⟩ := error_of_bind h
      · obtain ⟨other, ho, hfo⟩ := ih hr
        exact ⟨other, List.mem_cons_of_mem _ ho, hfo⟩
      · cases h

end Steps

namespace Idl

/-- The category of a record that becomes a node. -/
def category? (entry : String × Json) : Option Category :=
  if isRemark entry.1 then none else Category.ofName? (categoryName entry.2)

def stub? (entry : String × Json) : Option Stub :=
  (category? entry).bind fun category =>
    (Record.ofJson? entry.2).map fun record => ⟨entry.1, category, record⟩

def isCallback (entry : String × Json) : Bool :=
  !isRemark entry.1 && categoryName entry.2 == "callback"

/-- Set aside, and no remark. -/
def isSkipped (entry : String × Json) : Bool :=
  !isRemark entry.1 && (category? entry).isNone

/-- A record that becomes a node has the form of one. -/
def Readable (entry : String × Json) : Prop :=
  (category? entry).isSome = true → (Record.ofJson? entry.2).isSome = true

variable {before after normalized : Normalized} {document : Document} {stub : Stub}

theorem stub?_spec {entry : String × Json} (h : stub? entry = some stub) :
    stub.textName = entry.1 ∧ category? entry = some stub.category ∧
      Record.ofJson? entry.2 = some stub.record := by
  obtain ⟨category, hc, h⟩ := Option.bind_eq_some_iff.mp h
  obtain ⟨record, hr, h⟩ := Option.map_eq_some_iff.mp h
  cases h
  exact ⟨rfl, hc, hr⟩

theorem stub?_of_isCallback {entry : String × Json} (h : isCallback entry = true) :
    stub? entry = none := by
  unfold isCallback at h
  simp only [Bool.and_eq_true, Bool.not_eq_true', beq_iff_eq] at h
  have hnone : Category.ofName? "callback" = none := by decide
  unfold stub? category?
  rw [h.1, h.2, hnone]
  rfl

def Normalized.with (before : Normalized) (entry : String × Json) : Normalized where
  stubs := before.stubs ++ (stub? entry).toList
  callbacks := before.callbacks ++ if isCallback entry then [entry.1] else []
  skipped := before.skipped + if isSkipped entry then 1 else 0

theorem Normalized.add_iff {name : String} {value : Json} : before.add name value = .ok after ↔
    Readable (name, value) ∧ before.with (name, value) = after := by
  have hnone : Category.ofName? "callback" = none := by decide
  unfold Normalized.add Normalized.with Readable stub? isSkipped isCallback category?
  cases hr : isRemark name with
  | true => simp
  | false =>
    cases hc : Category.ofName? (categoryName value) with
    | some category =>
      have hcallback : categoryName value ≠ "callback" := by
        intro he
        rw [he, hnone] at hc
        cases hc
      cases hj : Record.ofJson? value <;> simp [hc, hcallback]
    | none =>
      by_cases hcallback : categoryName value = "callback"
      · simp [hcallback, hnone]
      · simp [hc, hcallback]

/-- What a document comes to, record by record. -/
def Document.kept (document : Document) : Normalized where
  stubs := document.filterMap stub?
  callbacks := (document.filter isCallback).map Prod.fst
  skipped := document.countP isSkipped

theorem normalize_iff : normalize document = .ok normalized ↔
    (∀ entry ∈ document, Readable entry) ∧ document.kept = normalized := by
  have hfold : ∀ (entries : Document) (before after : Normalized),
      entries.foldlM (fun before entry => before.add entry.1 entry.2) before = .ok after ↔
        (∀ entry ∈ entries, Readable entry) ∧ entries.foldl Normalized.with before = after := by
    intro entries
    induction entries with
    | nil =>
      intro before after
      simp [pure, Except.pure]
    | cons entry rest ih =>
      intro before after
      rw [List.foldlM_cons, List.forall_mem_cons, List.foldl_cons]
      constructor
      · intro h
        obtain ⟨middle, hm, h⟩ := ok_of_bind h
        obtain ⟨hr, rfl⟩ := Normalized.add_iff.mp hm
        obtain ⟨hrest, ha⟩ := (ih _ _).mp h
        exact ⟨⟨hr, hrest⟩, ha⟩
      · rintro ⟨⟨hr, hrest⟩, ha⟩
        rw [Normalized.add_iff.mpr ⟨hr, rfl⟩]
        exact (ih _ _).mpr ⟨hrest, ha⟩
  have hkept : ∀ (entries : Document) (before : Normalized),
      entries.foldl Normalized.with before =
        ⟨before.stubs ++ entries.kept.stubs, before.callbacks ++ entries.kept.callbacks,
          before.skipped + entries.kept.skipped⟩ := by
    intro entries
    induction entries with
    | nil => simp [Document.kept]
    | cons entry rest ih =>
      intro before
      rw [List.foldl_cons, ih]
      unfold Normalized.with Document.kept
      cases hs : stub? entry <;> cases hc : isCallback entry <;> cases hk : isSkipped entry <;>
        simp [hs, hc, hk, Nat.add_comm, Nat.add_left_comm]
  unfold normalize
  rw [hfold, hkept]
  simp [Document.kept]

end Idl

variable {options : SchemaOptions} {document : Idl.Document} {schema : Schema}

def assemblerOf (options : SchemaOptions) (document : Idl.Document) : Assembler where
  stubs := document.kept.stubs
  resolver :=
    ⟨NodeIndex.indexOf options.naming document.kept.stubs, options.naming,
      options.callbacks ++ document.kept.callbacks⟩

theorem assemble_iff : assemble options document = .ok schema ↔
    (∀ entry ∈ document, Idl.Readable entry) ∧
      (NodeIndex.declarationNames options.naming document.kept.stubs).Nodup ∧
        document.kept.stubs.mapM (assemblerOf options document).node = .ok schema.nodes ∧
          schema.naming = options.naming ∧
            schema.index = (assemblerOf options document).resolver.index := by
  constructor
  · intro h
    obtain ⟨normalized, hn, h⟩ := ok_of_bind h
    obtain ⟨index, hi, h⟩ := ok_of_bind h
    obtain ⟨nodes, hnodes, h⟩ := ok_of_bind h
    cases h
    obtain ⟨hr, rfl⟩ := Idl.normalize_iff.mp hn
    obtain ⟨rfl, hd⟩ := NodeIndex.build_iff.mp hi
    exact ⟨hr, hd, hnodes, rfl, rfl⟩
  · rintro ⟨hr, hd, hnodes, hnaming, hindex⟩
    obtain ⟨naming, nodes, index⟩ := schema
    subst hnaming hindex
    unfold assemble
    rw [Idl.normalize_iff.mpr ⟨hr, rfl⟩]
    show (NodeIndex.build options.naming document.kept.stubs >>= _) = _
    rw [NodeIndex.build_iff.mpr ⟨rfl, hd⟩]
    show (document.kept.stubs.mapM (assemblerOf options document).node >>= _) = _
    rw [hnodes]
    rfl

theorem assemblerOf_lists (h : assemble options document = .ok schema) :
    NodeIndex.Lists options.naming (assemblerOf options document).resolver.index
      document.kept.stubs :=
  ⟨rfl, (assemble_iff.mp h).2.1⟩

end DescriptorMarshal
