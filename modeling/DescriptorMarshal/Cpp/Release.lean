import DescriptorMarshal.Cpp.Code
import DescriptorMarshal.Cpp.Lookup

/-!
The `Destroy` function of a structure in C++: a release block for each owning member, and nothing
for any other.
-/

namespace DescriptorMarshal.Cpp

open Code

def declareDestroy (plan : StructPlan) : Code :=
  line s!"void Destroy{plan.externalName}({plan.name}& descriptor);"

def forEachElement (length : LengthField) (body : Code) : Code :=
  block s!"for (size_t i = 0; i < static_cast<size_t>(descriptor.{length.name}); ++i)" body

def releasePointer (field : String) (body : Code) : Code :=
  block s!"if ({field} != nullptr)" (body ++ line s!"{field} = nullptr;")

def nestedName (set : PlanSet) (member : MemberPlan) : Except RenderError (Option String) :=
  match member.marshal with
  | .nested name _ | .nestedArray name _ => (structureName set name).map some
  | _ => .ok none

def releaseMember (member : MemberPlan) (nested : Option String) : Code :=
  let field := "descriptor." ++ member.name
  let native := member.nativeType
  match member.ownership, nested with
  | .embedded, some nested => line s!"Destroy{nested}({field});"
  | .owned, some nested =>
    releasePointer field
      (line s!"auto* element = const_cast<{native}*>({field});" ++
        line s!"Destroy{nested}(*element);" ++
        line "delete element;")
  | .arrayOwned, nested =>
    releasePointer field
      (match nested, member.length with
      | some nested, some length =>
        line s!"auto* data = const_cast<{native}*>({field});" ++
          forEachElement length (line s!"Destroy{nested}(data[i]);") ++
          line "delete[] data;"
      | _, _ => line s!"delete[] {field};")
  | .arrayOfPointersOwned, some nested =>
    releasePointer field
      (line s!"auto** data = const_cast<{native}**>({field});" ++
        (match member.length with
        | some length =>
          forEachElement length
            (block "if (data[i] != nullptr)"
              (line s!"Destroy{nested}(*data[i]);" ++ line "delete data[i];"))
        | none => []) ++
        line "delete[] data;")
  | _, _ => []

def destroyMember (set : PlanSet) (member : MemberPlan) : Except RenderError Code :=
  (nestedName set member).map (releaseMember member)

def defineDestroy (set : PlanSet) (plan : StructPlan) : Except RenderError Code := do
  let body ← plan.owningMembers.mapM (destroyMember set)
  return block s!"void Destroy{plan.externalName}({plan.name}& descriptor)" body.flatten ++ gap

end DescriptorMarshal.Cpp
