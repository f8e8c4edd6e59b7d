import DescriptorMarshal.Codec.Release
import DescriptorMarshal.Cpp.Sources
import DescriptorMarshal.Proofs.Counting
import DescriptorMarshal.Proofs.Lookup

/-!
Calls in rendered code. Rendered functions reset, fill and destroy a nested structure by the
functions of the plan that decoding and destroying take for it, and look names up in the same
table, exactly when no name that a plan uses is the external name of another record.
-/

namespace DescriptorMarshal

variable {set : PlanSet} {plan nested : StructPlan} {member : MemberPlan} {field : FieldPlan}
  {name : String}

/-- Both runs succeed, with the same result. -/
def Agree {ε α : Type} (first second : Except ε α) : Prop :=
  ∃ result, first = .ok result ∧ second = .ok result

namespace Agree

variable {ε α β : Type} {first second : Except ε α} {f g : α → Except ε β}

theorem ok (result : α) : Agree (ε := ε) (.ok result) (.ok result) := ⟨result, rfl, rfl⟩

theorem bind (h : Agree first second) (hf : ∀ result, Agree (f result) (g result)) :
    Agree (first >>= f) (second >>= g) := by
  obtain ⟨result, rfl, rfl⟩ := h
  exact hf result

theorem map (h : Agree first second) (f : α → β) : Agree (first.map f) (second.map f) := by
  obtain ⟨result, rfl, rfl⟩ := h
  exact ok (f result)

theorem mapM {items : List α} (h : ∀ item ∈ items, Agree (f item) (g item)) :
    Agree (items.mapM f) (items.mapM g) := by
  induction items with
  | nil => exact ok []
  | cons item rest ih =>
    rw [List.mapM_cons, List.mapM_cons]
    apply (h item List.mem_cons_self).bind
    intro result
    apply (ih fun other ho => h other (List.mem_cons_of_mem _ ho)).bind
    intro results
    exact ok (result :: results)

end Agree

/-- The same plans and tables, found by declaration name alone. -/
def PlanSet.direct (set : PlanSet) : PlanSet := { set with byExternal := [] }

namespace Cpp

theorem Resolves.structureName (h : Resolves set) (hu : set.UsesPlan name) :
    Agree (structureName set name) (structureName set.direct name) := by
  obtain ⟨nested, hn, hs⟩ := h.plan name hu
  have hdirect : set.direct.plan? name = some nested := hn
  refine ⟨nested.externalName, hs, ?_⟩
  rw [Cpp.structureName, hdirect]

theorem Resolves.tableName (h : Resolves set) (hu : set.UsesTable name) :
    Agree (tableName set name) (tableName set.direct name) := by
  obtain ⟨table, ht, hs⟩ := h.table name hu
  have hdirect : set.direct.table? name = some table := ht
  refine ⟨table.externalName, hs, ?_⟩
  rw [Cpp.tableName, hdirect]

theorem resetField_direct (h : Resolves set) (hp : plan ∈ set.plans) (hf : field ∈ plan.fields) :
    Agree (resetField set field) (resetField set.direct field) := by
  unfold resetField
  cases hi : field.init with
  | embedded name =>
    apply (h.structureName ⟨plan, hp, Or.inr ⟨field, hf, hi⟩⟩).bind
    intro external
    exact .ok _
  | _ => exact .ok _

theorem marshalMember_direct (h : Resolves set) (hp : plan ∈ set.plans)
    (hm : member ∈ plan.members) :
    Agree (marshalMember set plan member) (marshalMember set.direct plan member) := by
  unfold marshalMember
  cases hmarshal : member.marshal with
  | nested name | nestedArray name =>
    apply (h.structureName ⟨plan, hp, Or.inl ⟨member, hm, by rw [hmarshal]; rfl⟩⟩).bind
    intro external
    exact .ok _
  | enumeration name | enumerationArray name =>
    apply (h.tableName ⟨plan, hp, member, hm, by rw [hmarshal]; rfl⟩).bind
    intro external
    exact .ok _
  | _ => exact .ok _

theorem destroyMember_direct (h : Resolves set) (hp : plan ∈ set.plans)
    (hm : member ∈ plan.members) :
    Agree (destroyMember set member) (destroyMember set.direct member) := by
  unfold destroyMember
  apply Agree.map
  unfold nestedName
  cases hmarshal : member.marshal with
  | nested name | nestedArray name =>
    exact (h.structureName ⟨plan, hp, Or.inl ⟨member, hm, by rw [hmarshal]; rfl⟩⟩).map some
  | _ => exact .ok none

theorem defineStructure_direct (h : Resolves set) (hp : plan ∈ set.plans) :
    Agree (defineStructure set plan) (defineStructure set.direct plan) := by
  have hreset : Agree (defineReset set plan) (defineReset set.direct plan) := by
    apply (Agree.mapM fun field hf => resetField_direct h hp hf).bind
    intro fields
    exact .ok _
  have hfill : Agree (defineFill set plan) (defineFill set.direct plan) := by
    have hmembers : ∀ member ∈ plan.members,
        Agree (fillMember set plan member) (fillMember set.direct plan member) := by
      intro member hm
      apply (marshalMember_direct h hp hm).bind
      intro body
      exact .ok _
    apply (Agree.mapM hmembers).bind
    intro members
    exact .ok _
  have hdestroy : Agree (defineDestroy set plan) (defineDestroy set.direct plan) := by
    apply (Agree.mapM fun member hm =>
      destroyMember_direct h hp (List.mem_of_mem_filter hm)).bind
    intro body
    exact .ok _
  apply hreset.bind
  intro reset
  apply hfill.bind
  intro fill
  apply hdestroy.bind
  intro destroy
  exact .ok _

theorem sourceCode_direct (h : Resolves set) : Agree (sourceCode set) (sourceCode set.direct) := by
  apply (Agree.mapM fun plan hp => defineStructure_direct h hp).bind
  intro structures
  exact .ok _

namespace Code

/-- The texts of the part stand in the code, one after the other. -/
def Has (code part : Code) : Prop :=
  part.map (·.text) <:+: code.map (·.text)

variable {code part before after : Code}

theorem Has.refl (code : Code) : code.Has code := List.infix_refl _

theorem Has.trans {whole : Code} (h : whole.Has code) (hp : code.Has part) : whole.Has part :=
  List.IsInfix.trans hp h

theorem Has.left (h : code.Has part) : Has (code ++ after) part := by
  unfold Has
  rw [List.map_append]
  exact List.IsInfix.trans h (List.prefix_append _ _).isInfix

theorem Has.right (h : code.Has part) : Has (before ++ code) part := by
  unfold Has
  rw [List.map_append]
  exact List.IsInfix.trans h (List.suffix_append _ _).isInfix

theorem Has.blockEnding (h : code.Has part) (header ending : String) :
    (blockEnding header code ending).Has part := by
  have hindent : (indent code).Has part := by
    unfold Has indent
    rw [List.map_map]
    exact h
  exact hindent.right.left

theorem has_flatten {parts : List Code} (hm : part ∈ parts) : Has parts.flatten part := by
  unfold Has
  rw [List.map_flatten]
  exact List.infix_of_mem_flatten (List.mem_map_of_mem hm)

end Code

open Code

variable {code : Code}

theorem has_of_mapM {α : Type} {f : α → Except RenderError Code} {items : List α}
    {parts : List Code} (h : items.mapM f = .ok parts) {item : α} (hm : item ∈ items) :
    ∃ part, f item = .ok part ∧ Has parts.flatten part := by
  obtain ⟨part, hp, hf⟩ := exists_of_mem_left (forall₂_of_mapM h) hm
  exact ⟨part, hf, has_flatten hp⟩

theorem defineReset_has (h : defineReset set plan = .ok code) (hf : field ∈ plan.fields) :
    ∃ part, resetField set field = .ok part ∧ code.Has part := by
  obtain ⟨fields, hfields, h⟩ := ok_of_bind h
  cases h
  obtain ⟨part, hpart, hhas⟩ := has_of_mapM hfields hf
  exact ⟨part, hpart, (hhas.right.blockEnding _ _).left⟩

theorem defineFill_has (h : defineFill set plan = .ok code) (hm : member ∈ plan.members) :
    ∃ part, marshalMember set plan member = .ok part ∧ code.Has part := by
  obtain ⟨members, hmembers, h⟩ := ok_of_bind h
  cases h
  obtain ⟨fill, hfill, hhas⟩ := has_of_mapM hmembers hm
  obtain ⟨part, hpart, hfill⟩ := ok_of_bind hfill
  refine ⟨part, hpart, Has.trans (hhas.right.left.blockEnding _ _).left ?_⟩
  cases hfill
  cases member.presence with
  | required => exact (Has.refl part).right.right.blockEnding _ _
  | optional => exact (Has.refl part).right.blockEnding _ _

theorem defineDestroy_has (h : defineDestroy set plan = .ok code)
    (hm : member ∈ plan.owningMembers) :
    ∃ part, destroyMember set member = .ok part ∧ code.Has part := by
  obtain ⟨members, hmembers, h⟩ := ok_of_bind h
  cases h
  obtain ⟨part, hpart, hhas⟩ := has_of_mapM hmembers hm
  exact ⟨part, hpart, (hhas.blockEnding _ _).left⟩

theorem sourceCode_has (h : sourceCode set = .ok code) (hp : plan ∈ set.plans) :
    (∃ reset, defineReset set plan = .ok reset ∧ code.Has reset) ∧
      (∃ fill, defineFill set plan = .ok fill ∧ code.Has fill) ∧
        ∃ destroy, defineDestroy set plan = .ok destroy ∧ code.Has destroy := by
  obtain ⟨structures, hstructures, h⟩ := ok_of_bind h
  cases h
  obtain ⟨part, hpart, hhas⟩ := has_of_mapM hstructures hp
  obtain ⟨reset, hreset, hpart⟩ := ok_of_bind hpart
  obtain ⟨fill, hfill, hpart⟩ := ok_of_bind hpart
  obtain ⟨destroy, hdestroy, hpart⟩ := ok_of_bind hpart
  cases hpart
  refine ⟨⟨reset, hreset, ?_⟩, ⟨fill, hfill, ?_⟩, destroy, hdestroy, ?_⟩
  · exact ((hhas.trans (Has.refl reset).left.left.left).right.blockEnding _ _).right
  · exact ((hhas.trans (Has.refl fill).right.left.left).right.blockEnding _ _).right
  · exact ((hhas.trans (Has.refl destroy).right).right.blockEnding _ _).right

/-! ### Calls -/

def call (function external target : String) : Code := line s!"{function}{external}({target});"

theorem call_eq {function external target closed : String}
    (h : "(" ++ (target ++ ");") = closed) :
    call function external target = line (function ++ external ++ closed) := by
  unfold call
  rw [← h]
  simp only [String.append_assoc, toString]

def nestedTarget (member : MemberPlan) : String :=
  match member.marshal with
  | .nested _ false => "descriptor." ++ member.name
  | .nestedArray _ false => "data[i]"
  | _ => "*element"

def destroyedTarget (member : MemberPlan) : String :=
  match member.marshal with
  | .nested _ false => "descriptor." ++ member.name
  | .nestedArray _ false => "data[i]"
  | .nestedArray _ true => "*data[i]"
  | _ => "*element"

theorem fillArray_has {elementType : String} {body part : Code} (h : body.Has part) :
    (fillArray plan member elementType body).Has part :=
  (h.right.blockEnding _ _).right

theorem newElement_has (nativeName external slot : String) :
    (newElement nativeName external slot).Has (call "Reset" external "*element") := by
  have hcall : call "Reset" external "*element" = line s!"Reset{external}(*element);" :=
    call_eq rfl
  rw [hcall]
  exact (Has.refl _).right

theorem releasePointer_has {target : String} {body part : Code} (h : body.Has part) :
    (releasePointer target body).Has part :=
  h.left.blockEnding _ _

variable {external : String}

theorem marshalMember_calls (hn : member.marshal.structName? = some name)
    (hs : structureName set name = .ok external) (h : marshalMember set plan member = .ok code) :
    (∃ source path, code.Has (fillNested external source (nestedTarget member) path)) ∧
      (member.marshal ≠ .nested name false →
        code.Has (call "Reset" external (nestedTarget member))) := by
  unfold marshalMember at h
  unfold nestedTarget
  rcases Marshal.eq_of_structName? hn with ⟨byReference, hmarshal⟩ | ⟨ofPointers, hmarshal⟩
  · rw [hmarshal] at h ⊢
    simp only [hs] at h
    cases h
    cases byReference with
    | false => exact ⟨⟨_, _, (Has.refl _).right⟩, fun hne => absurd rfl hne⟩
    | true => exact ⟨⟨_, _, (Has.refl _).right.right⟩, fun _ => (newElement_has _ _ _).left.right⟩
  · rw [hmarshal] at h ⊢
    simp only [hs] at h
    cases h
    cases ofPointers with
    | false =>
      have hcall : call "Reset" external "data[i]" = line s!"Reset{external}(data[i]);" :=
        call_eq rfl
      rw [hcall]
      exact ⟨⟨_, _, fillArray_has (Has.refl _).right.right⟩,
        fun _ => fillArray_has (Has.refl _).left.right⟩
    | true =>
      exact ⟨⟨_, _, fillArray_has (Has.refl _).right.right⟩,
        fun _ => fillArray_has (newElement_has _ _ _).left.right⟩

theorem marshalMember_looksUp (hn : member.marshal.enumerationName? = some name)
    (hs : tableName set name = .ok external) (h : marshalMember set plan member = .ok code) :
    ∃ source target location,
      code.Has (lookUpName external member.nativeType source target location) := by
  unfold marshalMember at h
  rcases Marshal.eq_of_enumerationName? hn with hmarshal | hmarshal
  · rw [hmarshal] at h
    simp only [hs] at h
    cases h
    exact ⟨_, _, _, Has.refl _⟩
  · rw [hmarshal] at h
    simp only [hs] at h
    cases h
    exact ⟨_, _, _, fillArray_has (Has.refl _)⟩

theorem destroyMember_calls (hc : member.Complete set plan)
    (hn : member.marshal.structName? = some name) (hs : structureName set name = .ok external)
    (h : destroyMember set member = .ok code) :
    code.Has (call "Destroy" external (destroyedTarget member)) := by
  have ho := hc.ownership
  unfold destroyMember nestedName at h
  unfold destroyedTarget
  rcases Marshal.eq_of_structName? hn with ⟨byReference, hmarshal⟩ | ⟨ofPointers, hmarshal⟩
  · rw [hmarshal] at h ho ⊢
    simp only [hs] at h
    cases h
    unfold releaseMember
    rw [ho]
    cases byReference with
    | false => exact Has.refl _
    | true =>
      have hcall : call "Destroy" external "*element" = line s!"Destroy{external}(*element);" :=
        call_eq rfl
      dsimp only
      rw [hcall]
      exact releasePointer_has (Has.refl _).right.left
  · obtain ⟨length, hl⟩ := hc.counted (by rw [hmarshal]; rfl)
    rw [hmarshal] at h ho ⊢
    simp only [hs] at h
    cases h
    unfold releaseMember
    rw [ho, hl]
    cases ofPointers with
    | false =>
      have hcall : call "Destroy" external "data[i]" = line s!"Destroy{external}(data[i]);" :=
        call_eq rfl
      dsimp only
      rw [hcall]
      exact releasePointer_has ((Has.refl _).blockEnding _ _).right.left
    | true =>
      have hcall : call "Destroy" external "*data[i]" = line s!"Destroy{external}(*data[i]);" :=
        call_eq rfl
      dsimp only
      rw [hcall]
      exact releasePointer_has (((Has.refl _).left.blockEnding _ _).blockEnding _ _).right.left

/-- The statements of a member, and that of its field, reset, fill and destroy by the functions of
a plan. -/
structure Calls (set : PlanSet) (plan : StructPlan) (member : MemberPlan) (nested : StructPlan)
    (code : Code) : Prop where
  reset : ∃ part, (marshalMember set plan member = .ok part ∨
      ∃ field ∈ plan.fields, field.name = member.name ∧ resetField set field = .ok part) ∧
    code.Has part ∧ part.Has (call "Reset" nested.externalName (nestedTarget member))
  fill : ∃ part source path, marshalMember set plan member = .ok part ∧ code.Has part ∧
    part.Has (fillNested nested.externalName source (nestedTarget member) path)
  destroy : ∃ part, destroyMember set member = .ok part ∧ code.Has part ∧
    part.Has (call "Destroy" nested.externalName (destroyedTarget member))

/-- The statements of a member look names up in the map of a table. -/
def LooksUp (set : PlanSet) (plan : StructPlan) (member : MemberPlan) (table : NameTable)
    (code : Code) : Prop :=
  ∃ part source target location, marshalMember set plan member = .ok part ∧ code.Has part ∧
    part.Has (lookUpName table.externalName member.nativeType source target location)

/-- Rendering gives the code, the same that it gives by declaration names alone; and what a member
names in it is what decoding and destroying find by the declaration name. -/
structure Faithful (set : PlanSet) (code : Code) : Prop where
  rendered : render set = .ok ⟨(headerCode set).render, code.render⟩
  direct : render set.direct = render set
  resolves : Resolves set
  plan : ∀ plan ∈ set.plans, ∀ member ∈ plan.members, ∀ name,
    member.marshal.structName? = some name → ∃ nested, set.planOf? name = some nested ∧
      set.nestedPlan? member.marshal = some nested ∧ nested.name = name ∧
        Calls set plan member nested code
  table : ∀ plan ∈ set.plans, ∀ member ∈ plan.members, ∀ name,
    member.marshal.enumerationName? = some name → ∃ table, set.tableOf? name = some table ∧
      table.declarationName = name ∧ LooksUp set plan member table code

theorem marshalMember_has (h : sourceCode set = .ok code) (hp : plan ∈ set.plans)
    (hm : member ∈ plan.members) :
    ∃ part, marshalMember set plan member = .ok part ∧ code.Has part := by
  obtain ⟨-, ⟨fill, hfill, hcode⟩, -⟩ := sourceCode_has h hp
  obtain ⟨part, hpart, hhas⟩ := defineFill_has hfill hm
  exact ⟨part, hpart, hcode.trans hhas⟩

variable {bindings : Bindings} {options : SchemaOptions} {document : Idl.Document}

theorem calls (hb : Bindings.ofDocument options document = .ok bindings)
    (h : sourceCode bindings.plans = .ok code) (hp : plan ∈ bindings.plans.plans)
    (hm : member ∈ plan.members) (hn : member.marshal.structName? = some name)
    (hs : structureName bindings.plans name = .ok nested.externalName) :
    Calls bindings.plans plan member nested code := by
  have hcomplete := (Bindings.complete hb hp).members member hm
  obtain ⟨⟨reset, hreset, hresetCode⟩, -, destroy, hdestroy, hdestroyCode⟩ := sourceCode_has h hp
  obtain ⟨part, hpart, hhas⟩ := marshalMember_has h hp hm
  obtain ⟨⟨source, path, hfill⟩, hcall⟩ := marshalMember_calls hn hs hpart
  constructor
  · -- in place, the field of the member is reset with the others; else the fill resets it
    by_cases hplace : member.marshal = .nested name false
    · obtain ⟨field, hf, hname, -, hinit⟩ := Bindings.exists_field hb hp hm
      obtain ⟨statement, hstatement, hin⟩ := defineReset_has hreset hf
      refine ⟨statement, Or.inr ⟨field, hf, hname, hstatement⟩, hresetCode.trans hin, ?_⟩
      unfold resetField at hstatement
      simp only [hinit name hplace, hs] at hstatement
      cases hstatement
      rw [hname, nestedTarget, hplace]
      exact Has.refl _
    · exact ⟨part, Or.inl hpart, hhas, hcall hplace⟩
  · exact ⟨part, source, path, hpart, hhas, hfill⟩
  · have howning : member ∈ plan.owningMembers := by
      refine List.mem_filter.mpr ⟨hm, ?_⟩
      rw [hcomplete.ownership]
      exact Marshal.releases_of_structName? hn
    obtain ⟨part, hpart, hin⟩ := defineDestroy_has hdestroy howning
    exact ⟨part, hpart, hdestroyCode.trans hin, destroyMember_calls hcomplete hn hs hpart⟩

theorem faithful (hb : Bindings.ofDocument options document = .ok bindings)
    (hr : Resolves bindings.plans) : ∃ code, Faithful bindings.plans code := by
  obtain ⟨code, hcode, hdirect⟩ := sourceCode_direct hr
  have hrender : ∀ {set : PlanSet}, sourceCode set = .ok code →
      render set = .ok ⟨(headerCode set).render, code.render⟩ := by
    intro set hs
    unfold render
    rw [hs]
    rfl
  refine ⟨code, hrender hcode, (hrender hdirect).trans (hrender hcode).symm, hr, ?_, ?_⟩
  · intro plan hp member hm name hn
    obtain ⟨nested, hnested, hs⟩ := hr.plan name ⟨plan, hp, Or.inl ⟨member, hm, hn⟩⟩
    refine ⟨nested, hnested, ?_, findPlan?_name hnested, calls hb hcode hp hm hn hs⟩
    rw [PlanSet.nestedPlan?_eq_bind, hn]
    exact hnested
  · intro plan hp member hm name hn
    obtain ⟨table, ht, hs⟩ := hr.table name ⟨plan, hp, member, hm, hn⟩
    obtain ⟨part, hpart, hhas⟩ := marshalMember_has hcode hp hm
    obtain ⟨source, target, location, hlook⟩ := marshalMember_looksUp hn hs hpart
    exact ⟨table, ht, (PlanSet.tableOf?_spec ht).2, part, source, target, location, hpart, hhas,
      hlook⟩

end Cpp

variable {bindings : Bindings} {options : SchemaOptions} {document : Idl.Document}

/-- Rendered code is there and names the plans and tables that decoding and destroying use exactly
when no name that a plan uses is the external name of another record. -/
theorem rendered_lookups_iff (hb : Bindings.ofDocument options document = .ok bindings) :
    (∃ code, Cpp.Faithful bindings.plans code) ↔ bindings.plans.Unambiguous := by
  constructor
  · rintro ⟨code, hf⟩
    exact (Bindings.resolves_iff hb).mp hf.resolves
  · intro hu
    exact Cpp.faithful hb ((Bindings.resolves_iff hb).mpr hu)

theorem rendered_lookups_iff_pair : ∃ bindings code,
    Bindings.ofDocument .standard pairDocument = .ok bindings ∧
    Cpp.Faithful bindings.plans code ∧
    Cpp.Calls bindings.plans pairPlan (pairMember "first") labelPlan code := by
  obtain ⟨schema, hb⟩ := pair_bindings
  have hu := Bindings.unambiguous hb (Or.inl Naming.standard_apart)
  obtain ⟨code, hf⟩ := (rendered_lookups_iff hb).mpr hu
  have hp : pairPlan ∈ pairPlans.plans := by decide
  obtain ⟨nested, hn, -, -, hcalls⟩ :=
    hf.plan pairPlan hp (pairMember "first") (by decide) "WGPULabel" rfl
  have hlabel : pairPlans.planOf? "WGPULabel" = some labelPlan := rfl
  rw [hlabel, Option.some.injEq] at hn
  subst hn
  exact ⟨_, code, hb, hf, hcalls⟩

/-- Native names without a lead, and external names with the standard one. -/
def bareOptions : SchemaOptions := SchemaOptions.standard.withNativeLead ""

/-- Two labels, the declaration name of one being the external name of the other, and a structure
that holds the former in place. -/
def holderDocument : Idl.Document :=
  labelDocument ++ [
    ("GPU label", .object [("category", .string "structure"), ("members", .array [
      .object [("name", .string "size"), ("type", .string "uint32_t")]])]),
    ("holder", .object [("category", .string "structure"), ("members", .array [
      .object [("name", .string "inner"), ("type", .string "GPU label")]])])]

def bareLabelPlan : StructPlan where
  name := "GPULabel"
  externalName := "GPUGPULabel"
  extensible := false
  members := [⟨"size", .required, .number .u32, .value, none, "uint32_t"⟩]
  fields := [⟨"size", "uint32_t", .number .u32 (.integer 0)⟩]

def holderMember : MemberPlan :=
  ⟨"inner", .required, .nested "GPULabel" false, .embedded, none, "GPULabel"⟩

def holderPlan : StructPlan where
  name := "Holder"
  externalName := "GPUHolder"
  extensible := false
  members := [holderMember]
  fields := [⟨"inner", "GPULabel", .embedded "GPULabel"⟩]

def holderPlans : PlanSet where
  plans := [{ labelPlan with name := "Label" }, bareLabelPlan, holderPlan]
  tables := []
  byExternal := [("GPULabel", "Label"), ("GPUGPULabel", "GPULabel"), ("GPUHolder", "Holder")]

theorem holder_bindings : ∃ schema,
    Bindings.ofDocument bareOptions holderDocument = .ok ⟨schema, holderPlans⟩ := by
  obtain ⟨schema, hs, hplans, htables⟩ : ∃ schema,
      assemble bareOptions holderDocument = .ok schema ∧
        schema.structures.mapM (buildPlan schema) = .ok holderPlans.plans ∧
          (schema.enums ++ schema.bitmasks).map NameTable.ofValueSet = holderPlans.tables :=
    ⟨_, rfl, rfl, rfl⟩
  have hcheck : checkEmbedding holderPlans.plans = .ok () := by
    simp [checkEmbedding, Embedding.check, Embedding.walk, Embedding.enter, Embedding.isOpen,
      holderPlans, holderPlan, bareLabelPlan, labelPlan, bind, Except.bind, pure, Except.pure]
  exact ⟨schema, Bindings.ofDocument_of_parts hs hplans htables rfl hcheck⟩

/-- The code resets, fills and destroys the label that the holder has in place by the functions of
the other label, whose external name is its declaration name. -/
theorem holder_misnamed : ∃ bindings part source path,
    Bindings.ofDocument bareOptions holderDocument = .ok bindings ∧
    holderPlan ∈ bindings.plans.plans ∧ holderMember ∈ holderPlan.members ∧
    holderMember.marshal.structName? = some "GPULabel" ∧
    bindings.plans.planOf? "GPULabel" = some bareLabelPlan ∧
    bareLabelPlan.externalName = "GPUGPULabel" ∧
    (∀ field ∈ holderPlan.fields, Cpp.resetField bindings.plans field =
      .ok (Cpp.call "Reset" "GPULabel" (Cpp.nestedTarget holderMember))) ∧
    Cpp.marshalMember bindings.plans holderPlan holderMember = .ok part ∧
    part.Has (Cpp.fillNested "GPULabel" source (Cpp.nestedTarget holderMember) path) ∧
    Cpp.destroyMember bindings.plans holderMember =
      .ok (Cpp.call "Destroy" "GPULabel" (Cpp.destroyedTarget holderMember)) := by
  obtain ⟨schema, hb⟩ := holder_bindings
  refine ⟨_, _, _, _, hb, by simp [holderPlans], List.mem_cons_self, rfl, rfl, rfl, ?_, rfl,
    (Cpp.Code.Has.refl _).right, rfl⟩
  intro field hf
  rw [List.mem_singleton.mp hf]
  rfl

end DescriptorMarshal
