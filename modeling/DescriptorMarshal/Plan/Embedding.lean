import DescriptorMarshal.Plan.Basic
import DescriptorMarshal.Schema.Error

/-!
Structures nested by value must not contain themselves: such a structure has no finite layout.
The check walks depth first along embedded fields, over an agenda of the structures it is inside
of. Cycles through pointers are no concern of it.
-/

namespace DescriptorMarshal

def findPlan? (plans : List StructPlan) (name : String) : Option StructPlan :=
  plans.find? fun plan => plan.name == name

theorem findPlan?_name {plans : List StructPlan} {name : String} {plan : StructPlan}
    (found : findPlan? plans name = some plan) : plan.name = name := by
  simpa using List.find?_some found

namespace Embedding

structure Visit where
  plan : StructPlan
  pending : List FieldPlan
  deriving Repr

def enter (plan : StructPlan) : Visit := ⟨plan, plan.fields⟩

def isOpen (agenda : List Visit) (name : String) : Bool :=
  agenda.any fun visit => visit.plan.name == name

def unseen (plans : List StructPlan) (seen : List String) : List StructPlan :=
  plans.filter fun plan => !seen.contains plan.name

def ahead : List Visit → Nat
  | [] => 0
  | visit :: rest => visit.pending.length + 1 + ahead rest

theorem unseen_cons (plans : List StructPlan) (seen : List String) (name : String) :
    unseen plans (name :: seen) = (unseen plans seen).filter fun plan => plan.name != name := by
  unfold unseen
  rw [List.filter_filter]
  congr 1
  funext plan
  rw [List.contains_cons, Bool.not_or]
  rfl

theorem length_unseen_lt {plans : List StructPlan} {seen : List String} {plan : StructPlan}
    (mem : plan ∈ plans) (new : seen.contains plan.name = false) :
    (unseen plans (plan.name :: seen)).length < (unseen plans seen).length := by
  have here : plan ∈ unseen plans seen := List.mem_filter.mpr ⟨mem, by rw [new]; rfl⟩
  rw [unseen_cons]
  exact List.length_filter_lt_length_iff_exists.mpr ⟨plan, here, by simp⟩

/-- Runs the agenda to its end and returns the names of all structures seen, or the field that
leads back into a structure the walk is inside of. -/
def walk (plans : List StructPlan) (agenda : List Visit) (seen : List String) :
    Except (StructPlan × FieldPlan) (List String) :=
  match agenda with
  | [] => .ok seen
  | ⟨_, []⟩ :: rest => walk plans rest seen
  | ⟨plan, field :: pending⟩ :: rest =>
    match field.init with
    | .embedded name =>
      if isOpen agenda name then .error (plan, field)
      else if _new : seen.contains name = false then
        match _found : findPlan? plans name with
        | some nested =>
          walk plans (enter nested :: ⟨plan, pending⟩ :: rest) (nested.name :: seen)
        | none => walk plans (⟨plan, pending⟩ :: rest) seen
      else walk plans (⟨plan, pending⟩ :: rest) seen
    | _ => walk plans (⟨plan, pending⟩ :: rest) seen
termination_by ((unseen plans seen).length, ahead agenda)
decreasing_by
  · exact Prod.Lex.right _ (by simp [ahead])
  · exact Prod.Lex.left _ _ (length_unseen_lt (List.mem_of_find?_eq_some _found)
      (findPlan?_name _found ▸ _new))
  all_goals exact Prod.Lex.right _ (by simp [ahead])

def check (plans : List StructPlan) : Except (StructPlan × FieldPlan) (List String) :=
  plans.foldlM (fun seen plan =>
    if seen.contains plan.name then .ok seen
    else walk plans [enter plan] (plan.name :: seen)) []

end Embedding

def checkEmbedding (plans : List StructPlan) : Except SchemaError Unit :=
  match Embedding.check plans with
  | .ok _ => .ok ()
  | .error (plan, field) =>
    .error (.unsupportedShape plan.externalName field.name .selfEmbedding)

end DescriptorMarshal
