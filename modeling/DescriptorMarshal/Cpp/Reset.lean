import DescriptorMarshal.Cpp.Code
import DescriptorMarshal.Cpp.Literal
import DescriptorMarshal.Cpp.Lookup

/-!
The `Reset` function of a structure in C++: one statement per field.
-/

namespace DescriptorMarshal.Cpp

open Code

def resetField (set : PlanSet) (field : FieldPlan) : Except RenderError Code :=
  let target := "descriptor." ++ field.name
  match field.init with
  | .null => .ok (line s!"{target} = nullptr;")
  | .bool value => .ok (line s!"{target} = {value};")
  | .number type value => .ok (line s!"{target} = {numberLiteral type value};")
  | .enumeration value | .bitmask value =>
    .ok (line s!"{target} = static_cast<{field.nativeType}>({value.toNat});")
  | .embedded name => do
    let nested ← structureName set name
    return line s!"Reset{nested}({target});"

def defineReset (set : PlanSet) (plan : StructPlan) : Except RenderError Code := do
  let fields ← plan.fields.mapM (resetField set)
  let chain := if plan.extensible then line "descriptor.nextInChain = nullptr;" else []
  return block s!"static void Reset{plan.externalName}({plan.name}& descriptor)"
    (chain ++ fields.flatten) ++ gap

end DescriptorMarshal.Cpp
