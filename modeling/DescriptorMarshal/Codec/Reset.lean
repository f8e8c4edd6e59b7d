import DescriptorMarshal.Codec.Number
import DescriptorMarshal.Plan.Set

/-!
Reset structures hold declared defaults only: null pointers, default numbers, and nested
structures reset in turn. Structures nested by value form no cycle, so nesting is never deeper
than the number of plans.
-/

namespace DescriptorMarshal

def resetWithin (plans : List StructPlan) : (depth : Nat) → StructPlan → NativeStruct
  | 0, plan => .empty plan.name
  | depth + 1, plan =>
    plan.fields.foldl (fun native field => native.set field.name
      (match field.init with
      | .null => .null
      | .bool value => .bool value
      | .number type value => .ofDefault type value
      | .enumeration value => .enumeration value
      | .bitmask value => .bitmask value
      | .embedded name =>
        match findPlan? plans name with
        | some nested => .struct (resetWithin plans depth nested)
        | none => .null)) (.empty plan.name)

def PlanSet.reset (set : PlanSet) (plan : StructPlan) : NativeStruct :=
  resetWithin set.plans (set.plans.length + 1) plan

end DescriptorMarshal
