import DescriptorMarshal.Native.Weight
import DescriptorMarshal.Plan.Set

/-!
Destroying a structure: every block it owns, directly or through nested structures, is released
with the operation that matches its allocation. The work is an agenda of fields and blocks still
to release, taken in order, so one loop follows any pointers, even around a cycle: a block that is
released is gone from the heap, and what it held is on the agenda instead.
-/

namespace DescriptorMarshal

inductive ReleaseTask where
  | fields (members : List MemberPlan) (native : NativeStruct)
  | slot (member : MemberPlan) (value : NativeValue)
  | block (nested : Option StructPlan) (id : BlockId)
  deriving Repr

namespace ReleaseTask

def weight : ReleaseTask → Nat
  | fields _ native => native.weight
  | slot _ value => value.weight
  | block _ _ => 0

/-- How often a task can be taken up before it frees or opens anything. -/
def rounds : ReleaseTask → Nat
  | fields members _ => 2 * members.length + 1
  | slot _ _ => 1
  | block _ _ => 1

def nestedIn (nested : Option StructPlan) (value : NativeValue) : List ReleaseTask :=
  match nested, value with
  | some plan, .struct native => [fields plan.owningMembers native]
  | _, _ => []

end ReleaseTask

def PlanSet.nestedPlan? (set : PlanSet) (marshal : Marshal) : Option StructPlan :=
  match marshal with
  | .nested name _ | .nestedArray name _ => set.planOf? name
  | _ => none

open ReleaseTask in
/-- Takes up one task; what is left of it comes first on the agenda. -/
def PlanSet.releaseStep (set : PlanSet) (task : ReleaseTask) (heap : Heap) :
    List ReleaseTask × Heap :=
  match task with
  | .fields [] _ => ([], heap)
  | .fields (member :: members) native =>
    let (value, rest) := native.take member.name
    ([.slot member value, .fields members rest], heap)
  | .block nested id =>
    match heap.free id .delete with
    | (.ok (.single value), heap) => (nestedIn nested value, heap)
    | (_, heap) => ([], heap)
  | .slot member value =>
    let nested := set.nestedPlan? member.marshal
    match member.ownership, value with
    | .embedded, value => (nestedIn nested value, heap)
    | .owned, .pointer id => ([.block nested id], heap)
    | .arrayOwned, .pointer id =>
      match heap.free id .deleteArray with
      | (.ok (.array items), heap) => (items.flatMap (nestedIn nested), heap)
      | (_, heap) => ([], heap)
    | .arrayOfPointersOwned, .pointer id =>
      match heap.free id .deleteArray with
      | (.ok (.array items), heap) =>
        ((items.filterMap NativeValue.pointer?).map (.block nested), heap)
      | (_, heap) => ([], heap)
    | _, _ => ([], heap)

namespace ReleaseTask

def weightOf : List ReleaseTask → Nat
  | [] => 0
  | task :: rest => task.weight + weightOf rest

def roundsOf : List ReleaseTask → Nat
  | [] => 0
  | task :: rest => task.rounds + roundsOf rest

theorem weightOf_append (tasks rest : List ReleaseTask) :
    weightOf (tasks ++ rest) = weightOf tasks + weightOf rest := by
  induction tasks with
  | nil => simp [weightOf]
  | cons task tasks ih => simp only [List.cons_append, weightOf, ih]; omega

theorem roundsOf_append (tasks rest : List ReleaseTask) :
    roundsOf (tasks ++ rest) = roundsOf tasks + roundsOf rest := by
  induction tasks with
  | nil => simp [roundsOf]
  | cons task tasks ih => simp only [List.cons_append, roundsOf, ih]; omega

theorem weightOf_nestedIn_lt (nested : Option StructPlan) (value : NativeValue) :
    weightOf (nestedIn nested value) < value.weight ∨ nestedIn nested value = [] := by
  unfold nestedIn
  split
  · left; simp [weightOf, weight, NativeValue.weight]
  · right; rfl

theorem weightOf_nestedIn_le (nested : Option StructPlan) (value : NativeValue) :
    weightOf (nestedIn nested value) ≤ value.weight := by
  rcases weightOf_nestedIn_lt nested value with h | h
  · omega
  · simp [h, weightOf]

theorem weightOf_flatMap_nestedIn_le (nested : Option StructPlan) (items : List NativeValue) :
    weightOf (items.flatMap (nestedIn nested)) ≤ weightOfValues items := by
  induction items with
  | nil => simp [weightOf]
  | cons item rest ih =>
    have here := weightOf_nestedIn_le nested item
    rw [List.flatMap_cons, weightOf_append]
    simp only [weightOfValues]
    omega

theorem weightOf_blocks (nested : Option StructPlan) (ids : List BlockId) :
    weightOf (ids.map (block nested)) = 0 := by
  induction ids with
  | nil => rfl
  | cons id rest ih => simpa [weightOf, weight] using ih

/-- A step makes heap and agenda lighter, or leaves fewer rounds to go. -/
theorem releaseStep_decreases (set : PlanSet) (task : ReleaseTask) (heap : Heap) :
    (set.releaseStep task heap).2.weight + weightOf (set.releaseStep task heap).1 <
        heap.weight + task.weight ∨
      (set.releaseStep task heap).2.weight + weightOf (set.releaseStep task heap).1 ≤
          heap.weight + task.weight ∧
        roundsOf (set.releaseStep task heap).1 < task.rounds := by
  have freed := @Heap.weight_free_ok heap
  have freed_le := Heap.weight_free_le heap
  cases task with
  | fields members native =>
    right
    cases members with
    | nil => simp [PlanSet.releaseStep, weightOf, roundsOf, rounds]
    | cons member members =>
      have := native.weight_take member.name
      simp only [PlanSet.releaseStep, weightOf, roundsOf, rounds, weight, List.length_cons]
      omega
  | block nested id =>
    have le := freed_le id .delete
    simp only [PlanSet.releaseStep]
    split
    · next value heap' ok =>
      have := freed ok
      have := weightOf_nestedIn_le nested value
      simp only [HeapBlock.weight] at *
      left; omega
    · next other heap' eq =>
      simp only [eq] at le
      right
      simp only [weightOf, roundsOf, rounds, weight]
      omega
  | slot member value =>
    have inPlace := weightOf_nestedIn_lt (set.nestedPlan? member.marshal) value
    simp only [PlanSet.releaseStep]
    split
    · rcases inPlace with h | h
      · left; simp only [weight]; omega
      · right; simp [h, weightOf, roundsOf, rounds]
    · left; simp [weightOf, weight, NativeValue.weight]
    · next id own =>
      have le := freed_le id .deleteArray
      split
      · next items heap' ok =>
        have := freed ok
        have := weightOf_flatMap_nestedIn_le (set.nestedPlan? member.marshal) items
        simp only [HeapBlock.weight, weight] at *
        left; omega
      · next other heap' eq =>
        simp only [eq] at le
        left; simp only [weightOf, weight, NativeValue.weight]; omega
    · next id own =>
      have le := freed_le id .deleteArray
      split
      · next items heap' ok =>
        have := freed ok
        have := weightOf_blocks (set.nestedPlan? member.marshal)
          (items.filterMap NativeValue.pointer?)
        simp only [HeapBlock.weight, weight] at *
        left; omega
      · next other heap' eq =>
        simp only [eq] at le
        left; simp only [weightOf, weight, NativeValue.weight]; omega
    · right; simp [weightOf, roundsOf, rounds]

end ReleaseTask

open ReleaseTask in
def PlanSet.releaseAll (set : PlanSet) (agenda : List ReleaseTask) (heap : Heap) : Heap :=
  match agenda with
  | [] => heap
  | task :: rest =>
    let next := set.releaseStep task heap
    set.releaseAll (next.1 ++ rest) next.2
termination_by (heap.weight + weightOf agenda, roundsOf agenda)
decreasing_by
  rw [weightOf_append, roundsOf_append]
  simp only [weightOf, roundsOf]
  rcases releaseStep_decreases set task heap with lighter | ⟨noHeavier, fewer⟩
  · exact Prod.Lex.left _ _ (by omega)
  · rcases Nat.lt_or_eq_of_le noHeavier with lighter | same
    · exact Prod.Lex.left _ _ (by omega)
    · rw [← Nat.add_assoc, same, Nat.add_assoc]
      exact Prod.Lex.right _ (by omega)

def PlanSet.destroy (set : PlanSet) (plan : StructPlan) (native : NativeStruct) (heap : Heap) :
    Heap :=
  set.releaseAll [.fields plan.owningMembers native] heap

end DescriptorMarshal
