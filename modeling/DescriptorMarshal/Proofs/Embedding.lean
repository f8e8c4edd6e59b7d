import DescriptorMarshal.Plan.Embedding
import DescriptorMarshal.Proofs.Assembly
import Mathlib.Data.List.Nodup
import Mathlib.Data.List.Perm.Subperm

/-!
What the embedding check establishes: chains of structures nested by value are no longer than the
list of plans. The walk keeps the structures it is done with apart from those it is inside of; a
structure it is done with nests only structures it was done with before.
-/

namespace DescriptorMarshal

theorem findPlan?_of_mem {plans : List StructPlan} {plan : StructPlan}
    (hn : (plans.map (·.name)).Nodup) (h : plan ∈ plans) :
    findPlan? plans plan.name = some plan := by
  apply (find?_key_iff ?_).mpr ⟨h, rfl⟩
  exact fun _ hfirst _ hsecond => List.inj_on_of_nodup_map hn hfirst hsecond

namespace Embedding

/-- Structures nest by value in `plan` less than `depth` deep. -/
def Within (plans : List StructPlan) : (depth : Nat) → StructPlan → Prop
  | 0, _ => False
  | depth + 1, plan => ∀ field ∈ plan.fields, ∀ name nested, field.init = .embedded name →
    findPlan? plans name = some nested → Within plans depth nested

variable {plans : List StructPlan}

theorem Within.mono {depth depth' : Nat} {plan : StructPlan} (h : Within plans depth plan)
    (hd : depth ≤ depth') : Within plans depth' plan := by
  induction depth generalizing depth' plan with
  | zero => exact h.elim
  | succ depth ih =>
    obtain ⟨depth', rfl⟩ : ∃ d, depth' = d + 1 := ⟨depth' - 1, by omega⟩
    intro field hf name nested hi hp
    exact ih (h field hf name nested hi hp) (by omega)

/-- Each visit's fields are still pending, or nest a structure that is done with, or nest the
structure of the visit `above`. -/
def Chained (plans : List StructPlan) (done : List String) :
    (above : Option String) → List Visit → Prop
  | _, [] => True
  | above, visit :: rest =>
    findPlan? plans visit.plan.name = some visit.plan ∧
    visit.plan.name ∉ done ∧
    isOpen rest visit.plan.name = false ∧
    (∀ field ∈ visit.plan.fields, field ∈ visit.pending ∨
      ∀ name nested, field.init = .embedded name → findPlan? plans name = some nested →
        name ∈ done ∨ above = some name) ∧
    Chained plans done (some visit.plan.name) rest

/-- The state of a walk that is done with the structures `done`, in any order. -/
structure Progress (plans : List StructPlan) (agenda : List Visit) (seen done : List String) :
    Prop where
  nodup : done.Nodup
  known : ∀ name ∈ done, name ∈ plans.map (·.name)
  done_seen : ∀ name ∈ done, name ∈ seen
  seen_done : ∀ name ∈ seen, name ∈ done ∨ isOpen agenda name = true
  open_seen : ∀ visit ∈ agenda, visit.plan.name ∈ seen
  settled : ∀ name ∈ done, ∀ plan, findPlan? plans name = some plan →
    Within plans done.length plan
  chained : Chained plans done none agenda

variable {agenda : List Visit} {seen done : List String}

theorem Chained.done_cons {name : String} (h : Chained plans done (some name) agenda)
    (hn : isOpen agenda name = false) : Chained plans (name :: done) none agenda := by
  have widen : ∀ {agenda above}, Chained plans done above agenda → isOpen agenda name = false →
      Chained plans (name :: done) above agenda := by
    intro agenda
    induction agenda with
    | nil => exact fun _ _ => trivial
    | cons visit rest ih =>
      rintro above ⟨hp, hd, ho, hf, hr⟩ hn
      simp only [isOpen, List.any_cons, Bool.or_eq_false_iff, beq_eq_false_iff_ne] at hn
      refine ⟨hp, by simp [hd, hn.1], ho, ?_, ih hr hn.2⟩
      intro field hm
      refine (hf field hm).imp_right ?_
      intro h other nested hi hp
      exact (h other nested hi hp).imp_left (List.mem_cons_of_mem _)
  cases agenda with
  | nil => trivial
  | cons visit rest =>
    obtain ⟨hp, hd, ho, hf, hr⟩ := widen h hn
    refine ⟨hp, hd, ho, fun field hm => (hf field hm).imp_right ?_, hr⟩
    intro h other nested hi hp
    rcases h other nested hi hp with h | h
    · exact Or.inl h
    · rw [Option.some.injEq] at h
      exact Or.inl (h ▸ List.mem_cons_self)

/-- The end of a visit: all that the structure nests is done with, so it is too. -/
theorem Progress.leave {plan : StructPlan}
    (h : Progress plans (⟨plan, []⟩ :: agenda) seen done) :
    Progress plans agenda seen (plan.name :: done) := by
  obtain ⟨hp, hd, ho, hf, hr⟩ := h.chained
  refine ⟨List.nodup_cons.mpr ⟨hd, h.nodup⟩, ?_, ?_, ?_,
    fun visit hv => h.open_seen visit (List.mem_cons_of_mem _ hv), ?_, hr.done_cons ho⟩
  · intro name hm
    rcases List.mem_cons.mp hm with rfl | hm
    · exact List.mem_map_of_mem (List.mem_of_find?_eq_some hp)
    · exact h.known name hm
  · intro name hm
    rcases List.mem_cons.mp hm with rfl | hm
    · exact h.open_seen _ List.mem_cons_self
    · exact h.done_seen name hm
  · intro name hm
    rcases h.seen_done name hm with hm | hm
    · exact Or.inl (List.mem_cons_of_mem _ hm)
    · simp only [isOpen, List.any_cons, Bool.or_eq_true, beq_iff_eq] at hm
      rcases hm with rfl | hm
      · exact Or.inl List.mem_cons_self
      · exact Or.inr hm
  · intro name hm found hfound
    rcases List.mem_cons.mp hm with rfl | hm
    · rw [hp, Option.some.injEq] at hfound
      subst hfound
      intro field hfield other nested hi hnested
      rcases hf field hfield with hpending | hdone
      · cases hpending
      · rcases hdone other nested hi hnested with hdone | hdone
        · exact h.settled other hdone nested hnested
        · cases hdone
    · exact (h.settled name hm found hfound).mono (Nat.le_succ _)

theorem Progress.pass {plan : StructPlan} {field : FieldPlan} {pending : List FieldPlan}
    (h : Progress plans (⟨plan, field :: pending⟩ :: agenda) seen done)
    (hf : ∀ name nested, field.init = .embedded name → findPlan? plans name = some nested →
      name ∈ done) : Progress plans (⟨plan, pending⟩ :: agenda) seen done := by
  obtain ⟨hp, hd, ho, hfields, hr⟩ := h.chained
  refine ⟨h.nodup, h.known, h.done_seen, h.seen_done, ?_, h.settled, hp, hd, ho,
    ?_, hr⟩
  · intro visit hv
    rcases List.mem_cons.mp hv with rfl | hv
    · exact h.open_seen ⟨plan, field :: pending⟩ List.mem_cons_self
    · exact h.open_seen visit (List.mem_cons_of_mem _ hv)
  intro other hm
  rcases hfields other hm with hpending | hdone
  · rcases List.mem_cons.mp hpending with rfl | hpending
    · exact Or.inr fun name nested hi hnested => Or.inl (hf name nested hi hnested)
    · exact Or.inl hpending
  · exact Or.inr hdone

theorem Progress.descend {plan nested : StructPlan} {field : FieldPlan}
    {pending : List FieldPlan}
    (h : Progress plans (⟨plan, field :: pending⟩ :: agenda) seen done)
    (hi : field.init = .embedded nested.name) (hnew : seen.contains nested.name = false)
    (hp : findPlan? plans nested.name = some nested)
    (ho : isOpen (⟨plan, field :: pending⟩ :: agenda) nested.name = false) :
    Progress plans (enter nested :: ⟨plan, pending⟩ :: agenda) (nested.name :: seen) done := by
  obtain ⟨hplan, hd, hopen, hfields, hr⟩ := h.chained
  have hnd : nested.name ∉ done := by
    intro hm
    have := h.done_seen _ hm
    simp_all
  refine ⟨h.nodup, h.known, fun name hm => List.mem_cons_of_mem _ (h.done_seen name hm), ?_, ?_,
    h.settled, hp, hnd, ho, fun other hm => Or.inl hm, hplan, hd, hopen, ?_, hr⟩
  · intro name hm
    rcases List.mem_cons.mp hm with rfl | hm
    · exact Or.inr (by simp [isOpen, enter])
    · refine (h.seen_done name hm).imp_right ?_
      intro h
      rw [isOpen, List.any_cons, Bool.or_eq_true]
      exact Or.inr h
  · intro visit hv
    rcases List.mem_cons.mp hv with rfl | hv
    · exact List.mem_cons_self
    · rcases List.mem_cons.mp hv with rfl | hv
      · exact List.mem_cons_of_mem _ (h.open_seen ⟨plan, field :: pending⟩ List.mem_cons_self)
      · exact List.mem_cons_of_mem _ (h.open_seen visit (List.mem_cons_of_mem _ hv))
  · intro other hm
    rcases hfields other hm with hpending | hdone
    · rcases List.mem_cons.mp hpending with rfl | hpending
      · refine Or.inr fun name found hname _ => Or.inr ?_
        rw [hi, FieldInit.embedded.injEq] at hname
        rw [← hname]
        rfl
      · exact Or.inl hpending
    · exact Or.inr fun name found hname hfound =>
        (hdone name found hname hfound).elim Or.inl nofun

theorem walk_progress {seen' : List String} (hw : walk plans agenda seen = .ok seen')
    (h : Progress plans agenda seen done) :
    (∃ done', Progress plans [] seen' done') ∧ seen ⊆ seen' := by
  fun_induction walk plans agenda seen generalizing done with
  | case1 seen =>
    rw [Except.ok.injEq] at hw
    subst hw
    exact ⟨⟨done, h⟩, fun _ hm => hm⟩
  | case2 seen plan rest ih => exact ih hw h.leave
  | case3 seen plan field pending rest name hi ho => simp [ho] at hw
  | case4 seen plan field pending rest name hi hnew nested hp ho ih =>
    rw [if_neg ho, dif_pos hnew] at hw
    split at hw
    · next found hfound =>
      cases hp.symm.trans hfound
      have hname : nested.name = name := findPlan?_name hp
      subst hname
      obtain ⟨hdone, hsub⟩ := ih hw (h.descend hi hnew hp (by simpa using ho))
      exact ⟨hdone, fun _ hm => hsub (List.mem_cons_of_mem _ hm)⟩
    · next hfound => cases hp.symm.trans hfound
  | case5 seen plan field pending rest name hi hnew hp ho ih =>
    rw [if_neg ho, dif_pos hnew] at hw
    split at hw
    · next found hfound => cases hp.symm.trans hfound
    · refine ih hw (h.pass ?_)
      intro other nested hother hnested
      rw [hi, FieldInit.embedded.injEq] at hother
      rw [← hother, hp] at hnested
      cases hnested
  | case6 seen plan field pending rest name hi hold ho ih =>
    rw [if_neg ho, dif_neg hold] at hw
    refine ih hw (h.pass ?_)
    intro other nested hother hnested
    rw [hi, FieldInit.embedded.injEq] at hother
    subst hother
    have hm : name ∈ seen := by simpa using hold
    exact (h.seen_done name hm).resolve_right ho
  | case7 seen plan field pending rest hi ih =>
    exact ih hw (h.pass fun other nested hother _ => (hi other hother).elim)

theorem Progress.start {plan : StructPlan} (h : Progress plans [] seen done)
    (hp : findPlan? plans plan.name = some plan) (hnew : plan.name ∉ seen) :
    Progress plans [enter plan] (plan.name :: seen) done := by
  have hdone : plan.name ∉ done := fun hm => hnew (h.done_seen _ hm)
  refine ⟨h.nodup, h.known, ?_, ?_, ?_, h.settled, hp, hdone, rfl, fun field hm => Or.inl hm,
    trivial⟩
  · intro name hm
    exact List.mem_cons_of_mem _ (h.done_seen name hm)
  · intro name hm
    rcases List.mem_cons.mp hm with rfl | hm
    · exact Or.inr (by simp [isOpen, enter])
    · exact Or.inl ((h.seen_done name hm).resolve_right (by simp [isOpen]))
  · intro visit hv
    rw [List.mem_singleton.mp hv]
    exact List.mem_cons_self

theorem check_progress {seen' : List String} {todo : List StructPlan}
    (hn : (plans.map (·.name)).Nodup) (hsub : todo ⊆ plans)
    (hc : todo.foldlM (fun seen plan =>
      if seen.contains plan.name then .ok seen
      else walk plans [enter plan] (plan.name :: seen)) seen = .ok seen')
    (h : Progress plans [] seen done) :
    (∃ done', Progress plans [] seen' done') ∧ seen ⊆ seen' ∧
      ∀ plan ∈ todo, plan.name ∈ seen' := by
  induction todo generalizing seen done with
  | nil =>
    rw [List.foldlM_nil] at hc
    cases hc
    exact ⟨⟨done, h⟩, fun _ hm => hm, nofun⟩
  | cons plan todo ih =>
    rw [List.foldlM_cons] at hc
    have hplan : findPlan? plans plan.name = some plan :=
      findPlan?_of_mem hn (hsub List.mem_cons_self)
    have hrest : todo ⊆ plans := fun _ hm => hsub (List.mem_cons_of_mem _ hm)
    cases hseen : seen.contains plan.name with
    | true =>
      simp only [hseen, if_true] at hc
      obtain ⟨hdone, hle, hall⟩ := ih hrest hc h
      refine ⟨hdone, hle, ?_⟩
      intro other hm
      rcases List.mem_cons.mp hm with rfl | hm
      · exact hle (by simpa using hseen)
      · exact hall other hm
    | false =>
      simp only [hseen, Bool.false_eq_true, if_false] at hc
      cases hwalk : walk plans [enter plan] (plan.name :: seen) with
      | error fault =>
        rw [hwalk] at hc
        cases hc
      | ok middle =>
        rw [hwalk] at hc
        have hnew : plan.name ∉ seen := by simpa using hseen
        have hstart := h.start hplan hnew
        obtain ⟨⟨done', hdone'⟩, hle⟩ := walk_progress hwalk hstart
        obtain ⟨hdone, hle', hall⟩ := ih hrest hc hdone'
        refine ⟨hdone, fun _ hm => hle' (hle (List.mem_cons_of_mem _ hm)), ?_⟩
        intro other hm
        rcases List.mem_cons.mp hm with rfl | hm
        · exact hle' (hle List.mem_cons_self)
        · exact hall other hm

/-- Accepted plans nest by value less deep than there are plans. -/
theorem within_of_checkEmbedding {plan : StructPlan} (hn : (plans.map (·.name)).Nodup)
    (hc : checkEmbedding plans = .ok ()) (hm : plan ∈ plans) :
    Within plans plans.length plan := by
  unfold checkEmbedding at hc
  split at hc
  · next seen' hok =>
    have hempty : Progress plans [] [] [] :=
      ⟨List.nodup_nil, nofun, nofun, nofun, nofun, nofun, trivial⟩
    obtain ⟨⟨done, hd⟩, -, hall⟩ := check_progress hn (fun _ h => h) hok hempty
    have hdone : plan.name ∈ done :=
      (hd.seen_done _ (hall plan hm)).resolve_right (by simp [isOpen])
    have hle : done.length ≤ plans.length := by
      have := (List.subperm_of_subset hd.nodup hd.known).length_le
      rwa [List.length_map] at this
    exact (hd.settled _ hdone plan (findPlan?_of_mem hn hm)).mono hle
  · cases hc

end Embedding

end DescriptorMarshal
