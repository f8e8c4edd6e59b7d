import DescriptorMarshal.Plan.Set

/-!
The names under which rendered code calls the functions of nested structures and the maps of
enumerations.
-/

namespace DescriptorMarshal.Cpp

/-- A name that a plan uses and the set does not have. -/
inductive RenderError where
  | noPlan (name : String)
  | noTable (name : String)
  deriving DecidableEq, Repr

def RenderError.message : RenderError → String
  | noPlan _ | noTable _ => "failed to render output"

def structureName (set : PlanSet) (name : String) : Except RenderError String :=
  match set.plan? name with
  | some plan => .ok plan.externalName
  | none => .error (.noPlan name)

def tableName (set : PlanSet) (name : String) : Except RenderError String :=
  match set.table? name with
  | some table => .ok table.externalName
  | none => .error (.noTable name)

end DescriptorMarshal.Cpp
