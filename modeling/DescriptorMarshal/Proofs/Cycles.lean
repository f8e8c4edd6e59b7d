import DescriptorMarshal.Proofs.Embedding
import Mathlib.Logic.Relation

/-!
The embedding check is exact. It accepts the plans in which no structure leads back to itself along
fields nested by value, and a field that it refuses lies on such a cycle.
-/

namespace DescriptorMarshal

namespace Embedding

open Relation (TransGen ReflTransGen)

/-- The structure `outer` has a field that nests the structure `inner` by value. -/
def Edge (plans : List StructPlan) (outer inner : String) : Prop :=
  ∃ plan nested, ∃ field ∈ plan.fields, findPlan? plans outer = some plan ∧
    field.init = .embedded inner ∧ findPlan? plans inner = some nested

/-- No structure leads back to itself. -/
def Acyclic (plans : List StructPlan) : Prop :=
  ∀ name, ¬ TransGen (Edge plans) name name

/-- The field nests a structure that leads back to the one it is a field of. -/
structure OnCycle (plans : List StructPlan) (plan : StructPlan) (field : FieldPlan) : Prop where
  found : findPlan? plans plan.name = some plan
  mem : field ∈ plan.fields
  back : ∃ inner, field.init = .embedded inner ∧ Edge plans plan.name inner ∧
    ReflTransGen (Edge plans) inner plan.name

variable {plans : List StructPlan} {plan : StructPlan} {field : FieldPlan}
  {agenda rest : List Visit} {visit : Visit} {seen : List String} {name : String}

theorem OnCycle.not_acyclic (h : OnCycle plans plan field) : ¬ Acyclic plans := by
  obtain ⟨inner, -, hedge, hback⟩ := h.back
  exact fun hacyclic => hacyclic plan.name (TransGen.head' hedge hback)

theorem Edge.mono {others : List StructPlan} {outer inner : String}
    (hn : (others.map (·.name)).Nodup) (hsub : plans ⊆ others) (h : Edge plans outer inner) :
    Edge others outer inner := by
  have hfound : ∀ {name plan}, findPlan? plans name = some plan →
      findPlan? others name = some plan := by
    intro name plan hp
    rw [← findPlan?_name hp]
    exact findPlan?_of_mem hn (hsub (List.mem_of_find?_eq_some hp))
  obtain ⟨plan, nested, field, hf, hp, hi, hnested⟩ := h
  exact ⟨plan, nested, field, hf, hfound hp, hi, hfound hnested⟩

theorem Acyclic.of_subset {others : List StructPlan} (hn : (others.map (·.name)).Nodup)
    (hsub : plans ⊆ others) (h : Acyclic others) : Acyclic plans :=
  fun name hcycle => h name (TransGen.mono (fun _ _ => Edge.mono hn hsub) _ _ hcycle)

/-- A structure with nesting of bounded depth is on no cycle: going once around would lower the
bound. -/
theorem Within.not_cycle {depth : Nat} (h : Within plans depth plan)
    (hp : findPlan? plans plan.name = some plan) :
    ¬ TransGen (Edge plans) plan.name plan.name := by
  induction depth generalizing plan with
  | zero => exact h.elim
  | succ depth ih =>
    intro hcycle
    obtain ⟨inner, hedge, hback⟩ := TransGen.head'_iff.mp hcycle
    have hinner : TransGen (Edge plans) inner inner := TransGen.tail' hback hedge
    obtain ⟨outer, nested, field, hf, ho, hi, hn⟩ := hedge
    rw [hp, Option.some.injEq] at ho
    subst ho
    have hname : nested.name = inner := findPlan?_name hn
    subst hname
    exact ih (h field hf nested.name nested hi hn) hn hinner

/-- The visits of an agenda lie inside of one another: each is of a structure nested by value in
that of the visit below. -/
def Linked (plans : List StructPlan) : List Visit → Prop
  | [] => True
  | visit :: rest =>
    findPlan? plans visit.plan.name = some visit.plan ∧ visit.pending ⊆ visit.plan.fields ∧
      (∀ below ∈ rest.head?, Edge plans below.plan.name visit.plan.name) ∧ Linked plans rest

theorem Linked.leads (h : Linked plans (visit :: rest)) (ho : isOpen (visit :: rest) name = true) :
    ReflTransGen (Edge plans) name visit.plan.name := by
  induction rest generalizing visit with
  | nil =>
    have hname : visit.plan.name = name := by simpa [isOpen] using ho
    rw [hname]
  | cons below rest ih =>
    obtain ⟨-, -, hedge, hrest⟩ := h
    simp only [isOpen, List.any_cons, Bool.or_eq_true, beq_iff_eq] at ho
    rcases ho with rfl | ho
    · exact .refl
    · refine ReflTransGen.tail (ih hrest ?_) (hedge below rfl)
      simpa [isOpen] using ho

theorem Linked.pass {pending : List FieldPlan}
    (h : Linked plans (⟨plan, field :: pending⟩ :: rest)) :
    Linked plans (⟨plan, pending⟩ :: rest) := by
  obtain ⟨hp, hf, hedge, hrest⟩ := h
  exact ⟨hp, fun _ hm => hf (List.mem_cons_of_mem _ hm), hedge, hrest⟩

theorem Linked.edge {pending : List FieldPlan} {nested : StructPlan}
    (h : Linked plans (⟨plan, field :: pending⟩ :: rest)) (hi : field.init = .embedded name)
    (hn : findPlan? plans name = some nested) : Edge plans plan.name name :=
  ⟨plan, nested, field, h.2.1 List.mem_cons_self, h.1, hi, hn⟩

theorem Linked.descend {pending : List FieldPlan} {nested : StructPlan}
    (h : Linked plans (⟨plan, field :: pending⟩ :: rest)) (hi : field.init = .embedded name)
    (hn : findPlan? plans name = some nested) :
    Linked plans (enter nested :: ⟨plan, pending⟩ :: rest) := by
  have hname : nested.name = name := findPlan?_name hn
  subst hname
  refine ⟨hn, fun _ hm => hm, ?_, h.pass⟩
  rintro below ⟨⟩
  exact h.edge hi hn

theorem Linked.found (h : Linked plans agenda) (ho : isOpen agenda name = true) :
    ∃ nested, findPlan? plans name = some nested := by
  induction agenda with
  | nil => cases ho
  | cons visit rest ih =>
    simp only [isOpen, List.any_cons, Bool.or_eq_true, beq_iff_eq] at ho
    rcases ho with rfl | ho
    · exact ⟨visit.plan, h.1⟩
    · exact ih h.2.2.2 (by simpa [isOpen] using ho)

/-- A walk only refuses a field that closes a cycle. -/
theorem walk_onCycle (hw : walk plans agenda seen = .error (plan, field))
    (h : Linked plans agenda) : OnCycle plans plan field := by
  fun_induction walk plans agenda seen with
  | case1 seen => cases hw
  | case2 seen visited rest ih => exact ih hw h.2.2.2
  | case3 seen visited field pending rest name hi ho =>
    simp only [ho, if_true, Except.error.injEq, Prod.mk.injEq] at hw
    obtain ⟨rfl, rfl⟩ := hw
    obtain ⟨nested, hn⟩ := h.found ho
    exact ⟨h.1, h.2.1 List.mem_cons_self, name, hi, h.edge hi hn, h.leads ho⟩
  | case4 seen visited field pending rest name hi hnew nested hp ho ih =>
    rw [if_neg ho, dif_pos hnew] at hw
    split at hw
    · next found hfound =>
      cases hp.symm.trans hfound
      exact ih hw (h.descend hi hp)
    · next hfound => cases hp.symm.trans hfound
  | case5 seen visited field pending rest name hi hnew hp ho ih =>
    rw [if_neg ho, dif_pos hnew] at hw
    split at hw
    · next found hfound => cases hp.symm.trans hfound
    · exact ih hw h.pass
  | case6 seen visited field pending rest name hi hold ho ih =>
    rw [if_neg ho, dif_neg hold] at hw
    exact ih hw h.pass
  | case7 seen visited field pending rest hi ih => exact ih hw h.pass

theorem check_onCycle (hn : (plans.map (·.name)).Nodup)
    (hc : check plans = .error (plan, field)) : OnCycle plans plan field := by
  have hrun : ∀ (todo : List StructPlan) (seen : List String), todo ⊆ plans →
      todo.foldlM (fun seen plan =>
        if seen.contains plan.name then .ok seen
        else walk plans [enter plan] (plan.name :: seen)) seen = .error (plan, field) →
      OnCycle plans plan field := by
    intro todo
    induction todo with
    | nil =>
      intro seen _ hc
      cases hc
    | cons first todo ih =>
      intro seen hsub hc
      have hfirst : findPlan? plans first.name = some first :=
        findPlan?_of_mem hn (hsub List.mem_cons_self)
      have hrest : todo ⊆ plans := fun _ hm => hsub (List.mem_cons_of_mem _ hm)
      rw [List.foldlM_cons] at hc
      split at hc
      · exact ih seen hrest hc
      · cases hwalk : walk plans [enter first] (first.name :: seen) with
        | error fault =>
          rw [hwalk] at hc
          cases hc
          exact walk_onCycle hwalk ⟨hfirst, fun _ hm => hm, nofun, trivial⟩
        | ok seen' =>
          rw [hwalk] at hc
          exact ih seen' hrest hc
  exact hrun plans [] (fun _ hm => hm) hc

/-- Plans under names of their own are accepted exactly when none leads back to itself. -/
theorem checkEmbedding_iff (hn : (plans.map (·.name)).Nodup) :
    checkEmbedding plans = .ok () ↔ Acyclic plans := by
  constructor
  · intro hc name hcycle
    obtain ⟨inner, ⟨plan, -, -, -, hp, -, -⟩, -⟩ := TransGen.head'_iff.mp hcycle
    have hname : plan.name = name := findPlan?_name hp
    subst hname
    exact (within_of_checkEmbedding hn hc (List.mem_of_find?_eq_some hp)).not_cycle hp hcycle
  · intro hacyclic
    unfold checkEmbedding
    cases hc : check plans with
    | ok seen => rfl
    | error fault => exact absurd hacyclic (check_onCycle hn hc).not_acyclic

/-- A refusal names a structure and a field of it on a cycle. -/
theorem onCycle_of_checkEmbedding {e : SchemaError} (hn : (plans.map (·.name)).Nodup)
    (hc : checkEmbedding plans = .error e) : ∃ plan field, OnCycle plans plan field ∧
      e = .unsupportedShape plan.externalName field.name .selfEmbedding := by
  unfold checkEmbedding at hc
  split at hc
  · cases hc
  · next plan field hcheck =>
    cases hc
    exact ⟨plan, field, check_onCycle hn hcheck, rfl⟩

end Embedding

end DescriptorMarshal
