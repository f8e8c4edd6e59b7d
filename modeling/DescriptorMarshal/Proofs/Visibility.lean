import DescriptorMarshal.Proofs.Counting
import DescriptorMarshal.Proofs.Independence

/-!
What a decode can see. Two host values that differ only in what a plan does not marshal are decoded
alike: the plan looks its members up by name, so neither the order of the keys nor any other key is
seen, and what is undefined, or null for an optional member, is taken as absent. The same holds of
every object that the plan reads through a structure or an array of structures.
-/

namespace DescriptorMarshal

/-- Host values that differ only in what filling a structure by the plan does not look at. -/
inductive PlanSet.SeenAlike (set : PlanSet) : StructPlan → HostValue → HostValue → Prop where
  | refl {plan : StructPlan} {input : HostValue} : SeenAlike set plan input input
  | symm {plan : StructPlan} {input other : HostValue} (alike : SeenAlike set plan input other) :
    SeenAlike set plan other input
  | trans {plan : StructPlan} {input middle other : HostValue}
    (first : SeenAlike set plan input middle) (second : SeenAlike set plan middle other) :
    SeenAlike set plan input other
  /-- The keys of an object are in another order. -/
  | reordered {plan : StructPlan} {properties others : Entries HostValue}
    (distinct : properties.keys.Nodup) (perm : properties.Perm others) :
    SeenAlike set plan (.object properties) (.object others)
  /-- One object has a key that is not a member of the plan. -/
  | unread {plan : StructPlan} (before : Entries HostValue) {after : Entries HostValue}
    {key : String} {input : HostValue} (unread : ∀ member ∈ plan.members, member.name ≠ key) :
    SeenAlike set plan (.object (before ++ (key, input) :: after)) (.object (before ++ after))
  /-- A property is undefined in one object and missing in the other. -/
  | undefined {plan : StructPlan} (before : Entries HostValue) {after : Entries HostValue}
    {key : String} (missing : key ∉ Entries.keys after) :
    SeenAlike set plan (.object (before ++ (key, .undefined) :: after)) (.object (before ++ after))
  /-- The property of an optional member is null in one object and missing in the other. -/
  | null {plan : StructPlan} (before : Entries HostValue) {after : Entries HostValue}
    {key : String} (missing : key ∉ Entries.keys after)
    (optional : ∀ member ∈ plan.members, member.name = key → member.presence = .optional) :
    SeenAlike set plan (.object (before ++ (key, .null) :: after)) (.object (before ++ after))
  /-- The values of a member that is read as a structure, or as an array of structures, are seen
  alike by the plan of that structure. -/
  | property {plan : StructPlan} (before : Entries HostValue) {after : Entries HostValue}
    {key : String} {input other : HostValue}
    (structured : ∀ member ∈ plan.members, member.name = key →
      (set.nestedPlan? member.marshal).isSome)
    (alike : ∀ member ∈ plan.members, member.name = key →
      ∀ nested, set.nestedPlan? member.marshal = some nested → SeenAlike set nested input other) :
    SeenAlike set plan (.object (before ++ (key, input) :: after))
      (.object (before ++ (key, other) :: after))
  /-- An element of an array of structures is seen alike. -/
  | item {plan : StructPlan} (before : List HostValue) {after : List HostValue}
    {input other : HostValue} (alike : SeenAlike set plan input other) :
    SeenAlike set plan (.array (before ++ input :: after)) (.array (before ++ other :: after))

namespace Entries

variable {α : Type}

theorem get?_perm {entries others : Entries α} (hn : entries.keys.Nodup)
    (h : entries.Perm others) (key : String) : get? entries key = get? others key := by
  have hkeys : entries.keys.Perm others.keys := h.map Prod.fst
  by_cases hk : key ∈ entries.keys
  · obtain ⟨value, hg⟩ := get?_of_mem_keys hk
    have hmem := h.subset (mem_of_get? hg)
    rw [hg, get?_of_mem (hkeys.nodup hn) hmem]
  · rw [get?_of_notMem hk, get?_of_notMem fun hother => hk (hkeys.symm.subset hother)]

end Entries

section

variable {set : PlanSet} {plan : StructPlan} {member : MemberPlan} {key : String}
  {input other : HostValue} {properties others before after : Entries HostValue}

theorem given?_append (before : Entries HostValue)
    (h : member.given? properties = member.given? others) :
    member.given? (before ++ properties) = member.given? (before ++ others) := by
  induction before with
  | nil => exact h
  | cons entry rest ih =>
    rw [List.cons_append, List.cons_append, MemberPlan.given?_cons, MemberPlan.given?_cons, ih]

theorem given?_of_ne (hk : member.name ≠ key) :
    member.given? (before ++ (key, input) :: after) = member.given? (before ++ after) := by
  apply given?_append
  rw [MemberPlan.given?_cons, if_neg hk.symm]

/-- A property that the member does not accept is as good as missing. -/
theorem given?_of_refused
    (hr : ¬ (input ≠ .undefined ∧ (member.presence = .optional → input ≠ .null)))
    (hmissing : key ∉ Entries.keys after) (hk : member.name = key) :
    member.given? (before ++ (key, input) :: after) = member.given? (before ++ after) := by
  apply given?_append
  rw [← MemberPlan.accepts_iff, Bool.not_eq_true] at hr
  rw [MemberPlan.given?_cons, if_pos hk.symm, hr, MemberPlan.given?, hk,
    Entries.get?_of_notMem hmissing]
  rfl

/-- Do two host values fill members and elements of a plan, and decode by it, in the same way? -/
structure FillsAlike (set : PlanSet) (plan : StructPlan) (input other : HostValue) : Prop where
  accepts : ∀ member : MemberPlan, member.accepts input = member.accepts other
  value : ∀ member, set.nestedPlan? member.marshal = some plan → ∀ place,
    set.fillValue input member place = set.fillValue other member place
  item : ∀ ofPointers id index place heap,
    set.fillItem input plan ofPointers id index place heap =
      set.fillItem other plan ofPointers id index place heap
  root : ∀ next context, set.decode plan input next context = set.decode plan other next context

theorem structured_of_nestedPlan? (h : set.nestedPlan? member.marshal = some plan) :
    ∃ name, set.planOf? name = some plan ∧
      ((∃ byReference, member.marshal = .nested name byReference) ∨
        ∃ ofPointers, member.marshal = .nestedArray name ofPointers) := by
  cases hmarshal : member.marshal with
  | nested name byReference =>
    rw [hmarshal] at h
    exact ⟨name, h, .inl ⟨byReference, rfl⟩⟩
  | nestedArray name ofPointers =>
    rw [hmarshal] at h
    exact ⟨name, h, .inr ⟨ofPointers, rfl⟩⟩
  | _ =>
    rw [hmarshal] at h
    cases h

theorem FillsAlike.of_members
    (h : ∀ member ∈ plan.members, ∀ place,
      set.fillProperty properties member place = set.fillProperty others member place) :
    FillsAlike set plan (.object properties) (.object others) := by
  have hmembers : ∀ place,
      fillMembers (fun inner => set.fillProperty properties inner place) plan.members =
        fillMembers (fun inner => set.fillProperty others inner place) plan.members := by
    intro place
    apply fillMembers_congr
    intro member hm
    exact h member hm place
  constructor
  · intro member
    rfl
  · intro member hn place
    funext heap native
    obtain ⟨name, hplan, ⟨byReference, hmarshal⟩ | ⟨ofPointers, hmarshal⟩⟩ :=
      structured_of_nestedPlan? hn
    · simp only [PlanSet.fillValue, hmarshal, hplan, hmembers]
    · simp only [PlanSet.fillValue, hmarshal, hplan, Place.mismatch, HostValue.typeName]
  · intro ofPointers id index place heap
    simp only [PlanSet.fillItem, hmembers]
  · intro next context
    simp only [PlanSet.decode, hmembers]

theorem FillsAlike.of_given
    (h : ∀ member ∈ plan.members, member.given? properties = member.given? others) :
    FillsAlike set plan (.object properties) (.object others) := by
  apply FillsAlike.of_members
  intro member hm place
  funext heap native
  rw [PlanSet.fillProperty_eq, PlanSet.fillProperty_eq, h member hm]

theorem fillProperty_replaced (before : Entries HostValue)
    (ha : member.accepts input = member.accepts other)
    (hv : ∀ place, set.fillValue input member place = set.fillValue other member place)
    (place : Place) :
    set.fillProperty (before ++ (key, input) :: after) member place =
      set.fillProperty (before ++ (key, other) :: after) member place := by
  funext heap native
  induction before with
  | nil => rw [List.nil_append, List.nil_append, PlanSet.fillProperty, PlanSet.fillProperty, ha, hv]
  | cons entry rest ih =>
    rw [List.cons_append, List.cons_append, PlanSet.fillProperty, PlanSet.fillProperty, ih]

theorem fillItems_replaced {input other : HostValue} (before after : List HostValue)
    (h : FillsAlike set plan input other) (ofPointers : Bool) (id : BlockId) (index : Nat)
    (place : Place) (heap : Heap) :
    set.fillItems (before ++ input :: after) plan ofPointers id index place heap =
      set.fillItems (before ++ other :: after) plan ofPointers id index place heap := by
  induction before generalizing index heap with
  | nil =>
    rw [List.nil_append, List.nil_append, PlanSet.fillItems, PlanSet.fillItems, h.item]
  | cons item rest ih =>
    rw [List.cons_append, List.cons_append, PlanSet.fillItems, PlanSet.fillItems]
    simp only [ih]

theorem FillsAlike.of_item {before after : List HostValue}
    (h : FillsAlike set plan input other) :
    FillsAlike set plan (.array (before ++ input :: after))
      (.array (before ++ other :: after)) := by
  constructor
  · intro member
    rfl
  · intro member hn place
    funext heap native
    obtain ⟨name, hplan, ⟨byReference, hmarshal⟩ | ⟨ofPointers, hmarshal⟩⟩ :=
      structured_of_nestedPlan? hn
    · simp only [PlanSet.fillValue, hmarshal, hplan, Place.mismatch, HostValue.typeName]
    · simp only [PlanSet.fillValue, hmarshal, hplan, fillItems_replaced before after h,
        List.length_append, List.length_cons]
  · intro ofPointers id index place heap
    rfl
  · intro next context
    rfl

theorem PlanSet.SeenAlike.fillsAlike (h : set.SeenAlike plan input other) :
    FillsAlike set plan input other := by
  induction h with
  | refl => exact ⟨fun _ => rfl, fun _ _ _ => rfl, fun _ _ _ _ _ => rfl, fun _ _ => rfl⟩
  | symm _ ih =>
    exact ⟨fun member => (ih.accepts member).symm,
      fun member hn place => (ih.value member hn place).symm,
      fun _ _ _ _ _ => (ih.item ..).symm, fun _ _ => (ih.root ..).symm⟩
  | trans _ _ first second =>
    exact ⟨fun member => (first.accepts member).trans (second.accepts member),
      fun member hn place => (first.value member hn place).trans (second.value member hn place),
      fun _ _ _ _ _ => (first.item ..).trans (second.item ..),
      fun _ _ => (first.root ..).trans (second.root ..)⟩
  | reordered distinct perm =>
    apply FillsAlike.of_given
    intro member _
    rw [MemberPlan.given?, MemberPlan.given?, Entries.get?_perm distinct perm]
  | unread _ unread =>
    apply FillsAlike.of_given
    intro member hm
    exact given?_of_ne (unread member hm)
  | @undefined _ before _ key missing =>
    apply FillsAlike.of_given
    intro member _
    by_cases hk : member.name = key
    · exact given?_of_refused (fun ha => ha.1 rfl) missing hk
    · exact given?_of_ne hk
  | @null _ before _ key missing optional =>
    apply FillsAlike.of_given
    intro member hm
    by_cases hk : member.name = key
    · exact given?_of_refused (fun ha => ha.2 (optional member hm hk) rfl) missing hk
    · exact given?_of_ne hk
  | @property plan before after key input other structured _ ih =>
    apply FillsAlike.of_members
    intro member hm place
    by_cases hk : member.name = key
    · obtain ⟨nested, hn⟩ := Option.isSome_iff_exists.mp (structured member hm hk)
      have hnested := ih member hm hk nested hn
      exact fillProperty_replaced before (hnested.accepts member) (hnested.value member hn) place
    · funext heap native
      rw [PlanSet.fillProperty_eq, PlanSet.fillProperty_eq, given?_of_ne hk, given?_of_ne hk]
  | item _ _ ih => exact ih.of_item

/-- Decoding sees nothing but what the plan marshals: host values that differ in the order of keys,
in keys that are not members, in undefined against missing, or in null against missing for an
optional member, at the root and in whatever is read as a structure, are decoded to the same result
with the same heap and the same errors. -/
theorem decode_seenAlike (h : set.SeenAlike plan input other) (next : Option Handle)
    (context : Context) :
    set.decode plan input next context = set.decode plan other next context :=
  h.fillsAlike.root next context

end

/-- A whole label with its keys in another order and a key that no label has. -/
def labelShuffled : HostValue :=
  .object [("size", .number ⟨0⟩), ("font", .null), ("text", .string "a")]

/-- One label in the first array, among properties that a pair does not read. -/
def pairPadded : HostValue :=
  .object [("count", .number ⟨0⟩), ("second", .null), ("first", .array [labelShuffled]),
    ("third", .undefined)]

theorem labelShuffled_seenAlike : pairPlans.SeenAlike labelPlan labelShuffled labelWhole := by
  have hread : ∀ member ∈ labelPlan.members, member.name ≠ "font" := by decide
  have hkeys : (Entries.keys [("size", HostValue.number ⟨0⟩), ("text", .string "a")]).Nodup := by
    decide
  exact .trans (.unread [("size", .number ⟨0⟩)] hread)
    (.reordered hkeys (.swap _ _ _))

theorem pairPadded_seenAlike : pairPlans.SeenAlike pairPlan pairPadded pairSingle := by
  have hcount : ∀ member ∈ pairPlan.members, member.name ≠ "count" := by decide
  have hsecond : ∀ member ∈ pairPlan.members, member.name = "second" →
      member.presence = .optional := by decide
  have hstructured : ∀ member ∈ pairPlan.members, member.name = "first" →
      (pairPlans.nestedPlan? member.marshal).isSome := by decide
  have hlabel : ∀ member ∈ pairPlan.members, member.name = "first" →
      pairPlans.nestedPlan? member.marshal = some labelPlan := by decide
  apply PlanSet.SeenAlike.trans (.unread [] hcount)
  apply PlanSet.SeenAlike.trans (.null [] (by decide) hsecond)
  apply PlanSet.SeenAlike.trans (.undefined [("first", _)] (by decide))
  refine .property [] hstructured ?_
  intro member hm hk nested hn
  rw [hlabel member hm hk, Option.some.injEq] at hn
  subst hn
  exact .item [] labelShuffled_seenAlike

theorem decode_seenAlike_pair : ∃ bindings,
    Bindings.ofDocument .standard pairDocument = .ok bindings ∧
    pairPlan ∈ bindings.plans.plans ∧
    bindings.plans.SeenAlike pairPlan pairPadded pairSingle ∧
    bindings.plans.decode pairPlan pairPadded none .empty =
      bindings.plans.decode pairPlan pairSingle none .empty := by
  obtain ⟨schema, hb⟩ := pair_bindings
  have hm : pairPlan ∈ pairPlans.plans := by decide
  exact ⟨_, hb, hm, pairPadded_seenAlike, decode_seenAlike pairPadded_seenAlike none .empty⟩

end DescriptorMarshal
