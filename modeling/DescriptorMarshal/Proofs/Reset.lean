import DescriptorMarshal.Codec.Reset
import DescriptorMarshal.Proofs.Coherence
import DescriptorMarshal.Proofs.Release

/-!
Reset structures of coherent plans. Every field is there once, in plan order and with the value its
plan starts it from; nested structures are reset by the same rule, however deep. A reset structure
holds no pointer.
-/

namespace DescriptorMarshal

variable {set : PlanSet} {plan : StructPlan}

/-- What a field starts from when nested structures start as `fresh` says. -/
def FieldInit.value (plans : List StructPlan) (fresh : StructPlan → NativeStruct) :
    FieldInit → NativeValue
  | .null => .null
  | .bool value => .bool value
  | .number type value => .ofDefault type value
  | .enumeration value => .enumeration value
  | .bitmask value => .bitmask value
  | .embedded name =>
    match findPlan? plans name with
    | some nested => .struct (fresh nested)
    | none => .null

def PlanSet.initValue (set : PlanSet) (init : FieldInit) : NativeValue :=
  init.value set.plans set.reset

theorem FieldInit.value_congr {plans : List StructPlan} {init : FieldInit}
    {fresh fresh' : StructPlan → NativeStruct}
    (h : ∀ name nested, init = .embedded name → findPlan? plans name = some nested →
      fresh nested = fresh' nested) : init.value plans fresh = init.value plans fresh' := by
  cases init with
  | embedded name =>
    simp only [value]
    cases hp : findPlan? plans name with
    | none => rfl
    | some nested => simp only [h name nested rfl hp]
  | _ => rfl

namespace PlanSet

theorem initValue_embedded {name : String} {nested : StructPlan}
    (h : set.planOf? name = some nested) :
    set.initValue (.embedded name) = .struct (set.reset nested) := by
  rw [planOf?] at h
  simp only [initValue, FieldInit.value, h]

theorem initValue_embedded_none {name : String} (h : set.planOf? name = none) :
    set.initValue (.embedded name) = .null := by
  rw [planOf?] at h
  simp only [initValue, FieldInit.value, h]

theorem isScalar_initValue {init : FieldInit} (h : ∀ name, init ≠ .embedded name) :
    (set.initValue init).isScalar = true := by
  cases init with
  | embedded name => exact absurd rfl (h name)
  | number type value => cases type <;> rfl
  | _ => rfl

end PlanSet

theorem foldl_set_eq {fields : List FieldPlan} {native : NativeStruct}
    (value : FieldPlan → NativeValue)
    (h : (Entries.keys native.fields ++ fields.map (·.name)).Nodup) :
    fields.foldl (fun native field => native.set field.name (value field)) native =
      { native with
        fields := native.fields ++ fields.map fun field => (field.name, value field) } := by
  induction fields generalizing native with
  | nil =>
    cases native
    rw [List.map_nil, List.append_nil]
    rfl
  | cons field rest ih =>
    have hnew : field.name ∉ Entries.keys native.fields := fun hm =>
      (List.nodup_append.mp h).2.2 _ hm _ List.mem_cons_self rfl
    have hset : (native.set field.name (value field)).fields =
        native.fields ++ [(field.name, value field)] := Entries.put_eq_append hnew
    rw [List.foldl_cons, ih]
    · rw [hset, List.append_assoc]
      rfl
    · rw [hset, Entries.keys, List.map_append, List.append_assoc]
      exact h

theorem get?_foldl_set {fields : List FieldPlan} {native : NativeStruct} {value : NativeValue}
    {name : String} (start : FieldPlan → NativeValue)
    (hall : ∀ field ∈ fields, field.name = name → start field = value)
    (h : native.get? name = some value ∨ ∃ field ∈ fields, field.name = name) :
    (fields.foldl (fun native field => native.set field.name (start field)) native).get? name =
      some value := by
  induction fields generalizing native with
  | nil =>
    obtain h | ⟨field, hf, -⟩ := h
    · exact h
    · cases hf
  | cons field rest ih =>
    rw [List.foldl_cons]
    apply ih fun other ho => hall other (List.mem_cons_of_mem _ ho)
    by_cases hname : field.name = name
    · left
      rw [hall field List.mem_cons_self hname, ← hname]
      exact Entries.get?_put_self _ _ _
    · obtain h | ⟨other, ho, hother⟩ := h
      · left
        exact (Entries.get?_put_of_ne _ _ hname).trans h
      · rcases List.mem_cons.mp ho with rfl | ho
        · exact absurd hother hname
        · exact .inr ⟨other, ho, hother⟩

theorem resetWithin_succ (plans : List StructPlan) (depth : Nat) (plan : StructPlan) :
    resetWithin plans (depth + 1) plan =
      plan.fields.foldl (fun native field =>
        native.set field.name (field.init.value plans (resetWithin plans depth)))
        (.empty plan.name) := by
  rw [resetWithin]
  apply List.foldl_ext _ _ _
  intro native field _
  cases field.init <;> rfl

/-- Deeper than structures nest, the depth of a reset does not matter. -/
theorem resetWithin_of_within {plans : List StructPlan} {depth depth' : Nat}
    (h : Embedding.Within plans depth plan) (hd : depth ≤ depth') :
    resetWithin plans depth' plan = resetWithin plans depth plan := by
  induction depth generalizing depth' plan with
  | zero => exact h.elim
  | succ depth ih =>
    obtain ⟨depth', rfl⟩ : ∃ d, depth' = d + 1 := ⟨depth' - 1, by omega⟩
    rw [resetWithin_succ, resetWithin_succ]
    apply List.foldl_ext _ _ _
    intro native field hf
    rw [FieldInit.value_congr fun name nested hi hp =>
      ih (h field hf name nested hi hp) (Nat.le_of_succ_le_succ hd)]

namespace PlanSet.Coherent

theorem reset_eq (hs : set.Coherent) (hm : plan ∈ set.plans) :
    set.reset plan = ⟨plan.name, none,
      plan.fields.map fun field => (field.name, set.initValue field.init)⟩ := by
  have hfields : (Entries.keys (NativeStruct.empty plan.name).fields ++
      plan.fields.map (·.name)).Nodup := (hs.plans plan hm).fields
  rw [PlanSet.reset, resetWithin_succ, foldl_set_eq _ hfields]
  refine congrArg (NativeStruct.mk plan.name none) (List.map_congr_left ?_)
  intro field hf
  refine congrArg (Prod.mk field.name) (FieldInit.value_congr ?_)
  intro name nested hi hp
  exact (resetWithin_of_within (hs.within nested (planOf?_mem hp)) (Nat.le_succ _)).symm

/-- Induction over plans along the structures they nest in place. -/
theorem induct {P : StructPlan → Prop} (hs : set.Coherent)
    (step : ∀ plan ∈ set.plans, (∀ field ∈ plan.fields, ∀ name nested,
      field.init = .embedded name → set.planOf? name = some nested → P nested) → P plan) :
    ∀ plan ∈ set.plans, P plan := by
  have bounded : ∀ depth plan, Embedding.Within set.plans depth plan → plan ∈ set.plans →
      P plan := by
    intro depth
    induction depth with
    | zero => exact fun _ h _ => h.elim
    | succ depth ih =>
      exact fun plan h hm => step plan hm fun field hf name nested hi hp =>
        ih nested (h field hf name nested hi hp) (planOf?_mem hp)
  exact fun plan hm => bounded _ plan (hs.within plan hm) hm

theorem pointers_reset (hs : set.Coherent) :
    ∀ plan ∈ set.plans, (set.reset plan).pointers = [] := by
  refine hs.induct ?_
  intro plan hm ih
  rw [NativeStruct.pointers_eq, hs.reset_eq hm]
  apply List.flatMap_eq_nil_iff.mpr
  intro entry he
  obtain ⟨field, hf, rfl⟩ := List.mem_map.mp he
  by_cases hi : ∃ name, field.init = .embedded name
  · obtain ⟨name, hi⟩ := hi
    cases hp : set.planOf? name with
    | none =>
      rw [hi, initValue_embedded_none hp]
      rfl
    | some nested =>
      rw [hi, initValue_embedded hp]
      exact ih field hf name nested hi hp
  · exact NativeValue.pointers_of_isScalar (isScalar_initValue fun name hn => hi ⟨name, hn⟩)

theorem owned_reset (hs : set.Coherent) :
    ∀ plan ∈ set.plans, OwnedStruct set plan (set.reset plan).tree := by
  refine hs.induct ?_
  intro plan hm ih
  have hp := hs.plans plan hm
  have hfields : ((set.reset plan).tree : Layout).fields =
      plan.fields.map fun field => (field.name, (set.initValue field.init).tree) := by
    rw [NativeStruct.tree_eq, hs.reset_eq hm, List.map_map]
    rfl
  refine .fields (hp.members.sublist (List.filter_sublist.map _)) ?_ ?_ ?_
  · rw [StructTree.names, Entries.keys, hfields, List.map_map]
    exact hp.fields
  · intro entry he member hmember hname
    rw [hfields] at he
    obtain ⟨field, hf, rfl⟩ := List.mem_map.mp he
    have hmember := (List.mem_filter.mp hmember).1
    by_cases hi : ∃ name, field.init = .embedded name
    · obtain ⟨name, hi⟩ := hi
      have hmarshal := hp.embedded member hmember field hf hname.symm name hi
      obtain ⟨nested, hn⟩ := hs.closed plan hm member hmember name (by rw [hmarshal]; rfl)
      simp only [hi, initValue_embedded hn, NativeValue.tree, hp.ownership member hmember,
        hmarshal, Marshal.ownership, PlanSet.nestedPlan?, hn]
      exact .embedded (ih field hf name nested hi hn)
    · rw [NativeValue.tree_of_isScalar (isScalar_initValue fun name hn => hi ⟨name, hn⟩)]
      exact .scalar
  · intro entry he _
    rw [hfields] at he
    obtain ⟨field, -, rfl⟩ := List.mem_map.mp he
    exact NativeValue.blocks_tree _

end PlanSet.Coherent

end DescriptorMarshal
