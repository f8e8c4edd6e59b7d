import DescriptorMarshal.Proofs.Agenda

/-!
Names that a set does not have. The plans and tables that resetting, decoding and destroying look
up are all there, so no run depends on what a set answers for any other name: it is the same for a
set with any plans and tables behind its own.
-/

namespace DescriptorMarshal

/-- The set with further plans and tables behind its own. -/
def PlanSet.adding (set : PlanSet) (plans : List StructPlan) (tables : List NameTable) : PlanSet :=
  { set with plans := set.plans ++ plans, tables := set.tables ++ tables }

structure MemberPlan.Known (set : PlanSet) (member : MemberPlan) : Prop where
  struct : ∀ name, member.marshal.structName? = some name →
    ∃ nested, set.planOf? name = some nested
  enumeration : ∀ name, member.marshal.enumerationName? = some name →
    ∃ table, set.tableOf? name = some table

/-- A set in which every plan is complete and structures nest to no more than its own depth. -/
structure PlanSet.Complete (set : PlanSet) : Prop where
  plans : ∀ plan ∈ set.plans, plan.Complete set
  within : ∀ plan ∈ set.plans, Embedding.Within set.plans set.plans.length plan

theorem PlanSet.Complete.known {set : PlanSet} {plan : StructPlan} {member : MemberPlan}
    (hs : set.Complete) (hp : plan ∈ set.plans) (hm : member ∈ plan.members) :
    member.Known set :=
  have h := (hs.plans plan hp).members member hm
  ⟨h.struct, h.enumeration⟩

section

variable {set : PlanSet} {plans : List StructPlan} {tables : List NameTable} {plan : StructPlan}
  {member : MemberPlan} {name : String} {input : HostValue} {place : Place}
  {task next : ReleaseTask} {agenda : List ReleaseTask} {heap : Heap}

theorem planOf?_adding (h : set.planOf? name = some plan) :
    (set.adding plans tables).planOf? name = some plan := by
  rw [PlanSet.planOf?, findPlan?] at h
  rw [PlanSet.planOf?, findPlan?, PlanSet.adding, List.find?_append, h]
  rfl

theorem tableOf?_adding {table : NameTable} (h : set.tableOf? name = some table) :
    (set.adding plans tables).tableOf? name = some table := by
  rw [PlanSet.tableOf?] at h
  rw [PlanSet.tableOf?, PlanSet.adding, List.find?_append, h]
  rfl

theorem nestedPlan?_adding (hk : member.Known set) :
    (set.adding plans tables).nestedPlan? member.marshal = set.nestedPlan? member.marshal := by
  cases hmarshal : member.marshal with
  | nested name | nestedArray name =>
    obtain ⟨nested, hn⟩ := hk.struct name (by rw [hmarshal]; rfl)
    exact (planOf?_adding hn).trans hn.symm
  | _ => rfl

theorem resetWithin_adding (hs : set.Complete) (depth : Nat) (hp : plan ∈ set.plans) :
    resetWithin (set.plans ++ plans) depth plan = resetWithin set.plans depth plan := by
  induction depth generalizing plan with
  | zero => rfl
  | succ depth ih =>
    rw [resetWithin_succ, resetWithin_succ]
    apply List.foldl_ext _ _ _
    intro native field hf
    congr 1
    cases hi : field.init with
    | embedded name =>
      obtain ⟨nested, hn⟩ := (hs.plans plan hp).embedded field hf name hi
      have hadded : (set.adding plans []).planOf? name = some nested := planOf?_adding hn
      rw [PlanSet.planOf?] at hn hadded
      rw [PlanSet.adding] at hadded
      simp only [FieldInit.value, hn, hadded, ih (PlanSet.planOf?_mem hn)]
    | _ => rfl

theorem reset_adding (hs : set.Complete) (hp : plan ∈ set.plans) :
    (set.adding plans tables).reset plan = set.reset plan := by
  have hwithin := hs.within plan hp
  rw [PlanSet.reset, PlanSet.reset, PlanSet.adding, resetWithin_adding hs _ hp,
    resetWithin_of_within hwithin (by simp only [List.length_append]; omega),
    resetWithin_of_within hwithin (Nat.le_succ _)]

theorem convertName_adding {table : NameTable} (h : set.tableOf? name = some table) :
    (set.adding plans tables).convertName name = set.convertName name := by
  funext input place
  unfold PlanSet.convertName
  rw [h, tableOf?_adding h]

theorem fillPlain_adding (hk : member.Known set) :
    (set.adding plans tables).fillPlain member input place = set.fillPlain member input place := by
  funext heap native
  unfold PlanSet.fillPlain
  cases hmarshal : member.marshal with
  | enumeration name | enumerationArray name =>
    obtain ⟨table, ht⟩ := hk.enumeration name (by rw [hmarshal]; rfl)
    simp only [convertName_adding ht]
  | _ => rfl

/-- Two ways of filling that agree on structures with a property come to the same if one of them
keeps it. -/
theorem fillMembers_congr_of (P : NativeStruct → Prop) {fill other : MemberPlan → Fill}
    {members : List MemberPlan}
    (hsame : ∀ member ∈ members, ∀ heap native, P native →
      fill member heap native = other member heap native)
    (hkeeps : ∀ member ∈ members, ∀ heap native, P native → P (other member heap native).native)
    (heap : Heap) (native : NativeStruct) (h : P native) :
    fillMembers fill members heap native = fillMembers other members heap native ∧
      P (fillMembers other members heap native).native := by
  induction members generalizing heap native with
  | nil => exact ⟨rfl, h⟩
  | cons member rest ih =>
    have hrest := ih (fun inner hi => hsame inner (List.mem_cons_of_mem _ hi))
      fun inner hi => hkeeps inner (List.mem_cons_of_mem _ hi)
    have hkept := hkeeps member List.mem_cons_self heap native h
    rw [fillMembers, fillMembers, hsame member List.mem_cons_self heap native h]
    split
    · exact hrest _ _ hkept
    · exact ⟨rfl, hkept⟩

theorem fillMembers_congr {fill other : MemberPlan → Fill} {members : List MemberPlan}
    (h : ∀ member ∈ members, fill member = other member) :
    fillMembers fill members = fillMembers other members := by
  funext heap native
  have hsame := fillMembers_congr_of (fun _ => True)
    (fun member hm heap native _ => congrFun (congrFun (h member hm) heap) native)
    (fun _ _ _ _ _ => trivial) heap native trivial
  exact hsame.1

/-- Does a host value fill members and elements in the same way? -/
structure SameFill (set : PlanSet) (plans : List StructPlan) (tables : List NameTable)
    (input : HostValue) : Prop where
  value : ∀ member, member.Known set → ∀ place,
    (set.adding plans tables).fillValue input member place = set.fillValue input member place
  item : ∀ plan ∈ set.plans, ∀ ofPointers id index place,
    (set.adding plans tables).fillItem input plan ofPointers id index place =
      set.fillItem input plan ofPointers id index place

theorem fillProperties_adding {properties : List (String × HostValue)} (hs : set.Complete)
    (h : ∀ entry ∈ properties, SameFill set plans tables entry.2) (hp : plan ∈ set.plans) :
    fillMembers (fun inner => (set.adding plans tables).fillProperty properties inner place)
        plan.members =
      fillMembers (fun inner => set.fillProperty properties inner place) plan.members := by
  apply fillMembers_congr
  intro member hm
  funext heap native
  rw [PlanSet.fillProperty_eq, PlanSet.fillProperty_eq]
  cases hgiven : member.given? properties with
  | none => rfl
  | some input =>
    dsimp only
    rw [(h _ (MemberPlan.mem_of_given? hgiven)).value member (hs.known hp hm)]

theorem fillItems_adding {items : List HostValue} (hp : plan ∈ set.plans)
    (h : ∀ item ∈ items, SameFill set plans tables item) (ofPointers : Bool) (id : BlockId)
    (index : Nat) (place : Place) (heap : Heap) :
    (set.adding plans tables).fillItems items plan ofPointers id index place heap =
      set.fillItems items plan ofPointers id index place heap := by
  induction items generalizing index heap with
  | nil => rfl
  | cons item rest ih =>
    have hrest := ih fun other ho => h other (List.mem_cons_of_mem _ ho)
    rw [PlanSet.fillItems, PlanSet.fillItems, (h item List.mem_cons_self).item plan hp]
    simp only [hrest]

theorem sameFill (hs : set.Complete) (plans : List StructPlan) (tables : List NameTable)
    (input : HostValue) : SameFill set plans tables input := by
  have plain : ∀ {input : HostValue} {member : MemberPlan}, member.Known set →
      member.marshal.structName? = none → ∀ place heap native,
        (set.adding plans tables).fillValue input member place heap native =
          set.fillValue input member place heap native := by
    intro input member hk hn place heap native
    rw [fillValue_plain hn, fillValue_plain hn, fillPlain_adding hk]
  -- both sets find the plan that a member names, and fill by it what the hypothesis is about
  induction input using HostValue.induct with
  | object properties ih =>
    constructor
    · intro member hk place
      funext heap native
      cases hmarshal : member.marshal with
      | nested name byReference =>
        obtain ⟨plan, hn⟩ := hk.struct name (by rw [hmarshal]; rfl)
        have hp := PlanSet.planOf?_mem hn
        simp only [PlanSet.fillValue, hmarshal, hn, planOf?_adding hn, reset_adding hs hp,
          fillProperties_adding hs ih hp]
      | nestedArray name ofPointers =>
        obtain ⟨plan, hn⟩ := hk.struct name (by rw [hmarshal]; rfl)
        simp only [PlanSet.fillValue, hmarshal, hn, planOf?_adding hn]
      | _ => exact plain hk (by rw [hmarshal]; rfl) place heap native
    · intro plan hp ofPointers id index place
      funext heap
      simp only [PlanSet.fillItem, reset_adding hs hp, fillProperties_adding hs ih hp]
  | array items ih =>
    constructor
    · intro member hk place
      funext heap native
      cases hmarshal : member.marshal with
      | nested name byReference =>
        obtain ⟨plan, hn⟩ := hk.struct name (by rw [hmarshal]; rfl)
        simp only [PlanSet.fillValue, hmarshal, hn, planOf?_adding hn]
      | nestedArray name ofPointers =>
        obtain ⟨plan, hn⟩ := hk.struct name (by rw [hmarshal]; rfl)
        have hp := PlanSet.planOf?_mem hn
        simp only [PlanSet.fillValue, hmarshal, hn, planOf?_adding hn, reset_adding hs hp,
          fillItems_adding hp ih]
      | _ => exact plain hk (by rw [hmarshal]; rfl) place heap native
    · intro plan _ ofPointers id index place
      rfl
  | other value ho ha =>
    constructor
    · intro member hk place
      funext heap native
      cases hmarshal : member.marshal with
      | nested name | nestedArray name =>
        obtain ⟨plan, hn⟩ := hk.struct name (by rw [hmarshal]; rfl)
        cases value with
        | object properties => exact absurd rfl (ho properties)
        | array items => exact absurd rfl (ha items)
        | _ => simp only [PlanSet.fillValue, hmarshal, hn, planOf?_adding hn]
      | _ => exact plain hk (by rw [hmarshal]; rfl) place heap native
    · intro plan _ ofPointers id index place
      cases value with
      | object properties => exact absurd rfl (ho properties)
      | _ => rfl

inductive ReleaseTask.Known (set : PlanSet) : ReleaseTask → Prop where
  | fields {members : List MemberPlan} {native : NativeStruct}
    (known : ∀ member ∈ members, member.Known set) : Known set (.fields members native)
  | slot {member : MemberPlan} {value : NativeValue} (known : member.Known set) :
    Known set (.slot member value)
  | block {nested : Option StructPlan} {id : BlockId}
    (plans : ∀ plan, nested = some plan → plan ∈ set.plans) : Known set (.block nested id)

theorem PlanSet.Complete.known_owning (hs : set.Complete) (hp : plan ∈ set.plans)
    (native : NativeStruct) : ReleaseTask.Known set (.fields plan.owningMembers native) :=
  .fields fun _ hm => hs.known hp (List.mem_filter.mp hm).1

theorem ReleaseTask.Known.spawns (hs : set.Complete) (h : task.Known set)
    (hn : task.Spawns set heap next) : next.Known set := by
  cases hn with
  | slot =>
    cases h with
    | fields known => exact .slot (known _ List.mem_cons_self)
  | fields =>
    cases h with
    | fields known => exact .fields fun other ho => known other (List.mem_cons_of_mem _ ho)
  | single =>
    cases h with
    | block plans => exact hs.known_owning (plans _ rfl) _
  | inPlace _ nested | item _ nested => exact hs.known_owning (PlanSet.nestedPlan?_mem nested) _
  | block | behind => exact .block fun _ hplan => PlanSet.nestedPlan?_mem hplan

theorem releaseStep_adding (h : task.Known set) (heap : Heap) :
    (set.adding plans tables).releaseStep task heap = set.releaseStep task heap := by
  cases h with
  | @fields members native _ => cases members <;> rfl
  | block => rfl
  | slot known => simp only [PlanSet.releaseStep, nestedPlan?_adding known]

theorem releaseAll_adding (hs : set.Complete) (h : ∀ task ∈ agenda, task.Known set) :
    (set.adding plans tables).releaseAll agenda heap = set.releaseAll agenda heap := by
  induction agenda, heap using PlanSet.releaseAll.induct set with
  | case1 heap => rw [PlanSet.releaseAll, PlanSet.releaseAll]
  | case2 heap task rest next ih =>
    have htask := h task List.mem_cons_self
    rw [releaseAll_cons, releaseAll_cons, releaseStep_adding htask]
    apply ih
    intro other ho
    rcases List.mem_append.mp ho with ho | ho
    · exact htask.spawns hs (releaseStep_spawns ho)
    · exact h other (List.mem_cons_of_mem _ ho)

theorem destroy_adding (hs : set.Complete) (hp : plan ∈ set.plans) (native : NativeStruct)
    (heap : Heap) :
    (set.adding plans tables).destroy plan native heap = set.destroy plan native heap := by
  apply releaseAll_adding hs
  intro task ht
  rw [List.mem_singleton.mp ht]
  exact hs.known_owning hp native

theorem decode_adding (hs : set.Complete) (hp : plan ∈ set.plans) (input : HostValue)
    (next : Option Handle) (context : Context) :
    (set.adding plans tables).decode plan input next context =
      set.decode plan input next context := by
  cases input with
  | object properties =>
    have hfill : ∀ place,
        fillMembers (fun inner => (set.adding plans tables).fillProperty properties inner place)
            plan.members =
          fillMembers (fun inner => set.fillProperty properties inner place) plan.members :=
      fun place => fillProperties_adding hs (fun entry _ => sameFill hs plans tables entry.2) hp
    simp only [PlanSet.decode, reset_adding hs hp, hfill, destroy_adding hs hp]
  | _ => rfl

end

theorem Bindings.complete_set {options : SchemaOptions} {document : Idl.Document}
    {bindings : Bindings} (h : ofDocument options document = .ok bindings) :
    bindings.plans.Complete := by
  obtain ⟨hs, hb⟩ := ofDocument_parts h
  refine ⟨fun plan hp => Bindings.complete h hp, ?_⟩
  intro plan hp
  exact Embedding.within_of_checkEmbedding (PlanSet.build_names hb (assemble_sound hs))
    (PlanSet.build_parts hb).2 hp

end DescriptorMarshal
