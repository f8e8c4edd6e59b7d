import DescriptorMarshal.Proofs.Fallbacks
import DescriptorMarshal.Proofs.Rendering
import DescriptorMarshal.Proofs.Statements

/-!
What the rendered fill of a member takes and the rendered release block of it gives back. Both are
settled by one form for each member, which its operation calls for: the statements of the fill that
take something are those of the form, and the release block is that of the form.
-/

namespace DescriptorMarshal

/-- A complete member whose elements have the type of the structure it leads to. -/
structure MemberPlan.Typed (set : PlanSet) (plan : StructPlan) (member : MemberPlan) : Prop
    extends member.Complete set plan where
  type : ∀ name, member.marshal.structName? = some name → member.nativeType = name

theorem MarshalRule.structName {schema : Schema} {type : TypeDescriptor} {marshal : Marshal}
    {name : String} (h : MarshalRule schema type marshal)
    (hn : marshal.structName? = some name) : type.nativeType = name := by
  cases h with
  | nested | nestedArray =>
    cases hn
    rfl
  | _ => cases hn

theorem memberPlanOf_nativeType {schema : Schema} {node : StructureNode} {member : Member}
    {planned : MemberPlan} (h : memberPlanOf schema node member = .ok planned) :
    planned.nativeType = member.type.nativeType := by
  obtain ⟨marshal, -, h⟩ := ok_of_bind h
  dsimp only at h
  split at h
  · split at h
    · obtain ⟨length, -, h⟩ := ok_of_bind h
      cases h
      rfl
    · cases h
      rfl
  · cases h
    rfl

theorem Bindings.typed {options : SchemaOptions} {document : Idl.Document} {bindings : Bindings}
    {plan : StructPlan} (h : ofDocument options document = .ok bindings)
    (hp : plan ∈ bindings.plans.plans) :
    ∀ member ∈ plan.members, member.Typed bindings.plans plan := by
  intro planned hm
  obtain ⟨node, -, hr, -, -⟩ := exists_node h hp
  obtain ⟨member, -, hplanned, -⟩ := buildPlan_planned hr hm
  refine ⟨(complete h hp).members planned hm, ?_⟩
  intro name hn
  rw [memberPlanOf_nativeType hplanned]
  exact (memberPlanOf_built hplanned).rule.structName hn

namespace Cpp

open Code

/-- What the fill of a member takes from the heap or leads into. A structure has the name that is
allocated and the name in its functions. -/
inductive Disposal where
  | nothing
  | inPlace (name nested : String)
  /-- `new S{}` -/
  | object (name nested : String)
  /-- `new T[length]()`, where `T` is no structure. -/
  | array (type : String)
  /-- `new S[length]()` -/
  | structures (name nested : String) (length : LengthField)
  /-- `new S*[length]()`, and `new S{}` for each element. -/
  | pointers (name nested : String) (length : LengthField)
  | text

namespace Disposal

/-- The statements of the fill that take something or lead into a structure. -/
def takings (member : MemberPlan) : Disposal → List String
  | nothing => []
  | inPlace _ nested =>
    [intoNested nested "value" ("descriptor." ++ member.name)
      ("path + " ++ quoted (member.name ++ "."))]
  | object name nested =>
    [newObject name,
      intoNested nested "value" "*element" ("path + " ++ quoted (member.name ++ "."))]
  | array type => [newArray type]
  | structures name nested _ =>
    [newArray name, intoNested nested "item" "data[i]" (elementPath member ".")]
  | pointers name nested _ =>
    [newArray (name ++ "*"), newObject name,
      intoNested nested "item" "*element" (elementPath member ".")]
  | text => [copyText ("descriptor." ++ member.name)]

/-- An array that is allocated, attached to the member and counted in its length field. -/
def storedArray (plan : StructPlan) (member : MemberPlan) (type : String) : Code :=
  line (newArray type) ++ line s!"descriptor.{member.name} = data;" ++
    writeLength plan member "length"

/-- Where the blocks go that are bound to a pointer. -/
def stores (plan : StructPlan) (member : MemberPlan) : Disposal → List Code
  | object name nested => [newElement name nested ("descriptor." ++ member.name)]
  | array type => [storedArray plan member type]
  | structures name _ _ => [storedArray plan member name]
  | pointers name nested _ =>
    [storedArray plan member (name ++ "*"), newElement name nested "data[i]"]
  | _ => []

def release (member : MemberPlan) (form : Disposal) : Code :=
  let field := "descriptor." ++ member.name
  match form with
  | nothing => []
  | inPlace _ nested => line s!"Destroy{nested}({field});"
  | object name nested =>
    releasePointer field
      (line s!"auto* element = const_cast<{name}*>({field});" ++
        line s!"Destroy{nested}(*element);" ++
        line "delete element;")
  | array _ | text => releasePointer field (line s!"delete[] {field};")
  | structures name nested length =>
    releasePointer field
      (line s!"auto* data = const_cast<{name}*>({field});" ++
        forEachElement length (line s!"Destroy{nested}(data[i]);") ++
        line "delete[] data;")
  | pointers name nested length =>
    releasePointer field
      (line s!"auto** data = const_cast<{name}**>({field});" ++
        forEachElement length
          (block "if (data[i] != nullptr)"
            (line s!"Destroy{nested}(*data[i]);" ++ line "delete data[i];")) ++
        line "delete[] data;")

/-- The release block with every line written out. -/
def releaseLines (member : MemberPlan) (form : Disposal) : Code :=
  let field := "descriptor." ++ member.name
  match form with
  | nothing => []
  | inPlace _ nested => [⟨0, s!"Destroy{nested}({field});"⟩]
  | object name nested =>
    [⟨0, s!"if ({field} != nullptr) \x7b"⟩,
      ⟨1, s!"auto* element = const_cast<{name}*>({field});"⟩,
      ⟨1, s!"Destroy{nested}(*element);"⟩,
      ⟨1, "delete element;"⟩,
      ⟨1, s!"{field} = nullptr;"⟩,
      ⟨0, "\x7d"⟩]
  | array _ | text =>
    [⟨0, s!"if ({field} != nullptr) \x7b"⟩,
      ⟨1, s!"delete[] {field};"⟩,
      ⟨1, s!"{field} = nullptr;"⟩,
      ⟨0, "\x7d"⟩]
  | structures name nested length =>
    [⟨0, s!"if ({field} != nullptr) \x7b"⟩,
      ⟨1, s!"auto* data = const_cast<{name}*>({field});"⟩,
      ⟨1, s!"for (size_t i = 0; i < static_cast<size_t>(descriptor.{length.name}); ++i) \x7b"⟩,
      ⟨2, s!"Destroy{nested}(data[i]);"⟩,
      ⟨1, "\x7d"⟩,
      ⟨1, "delete[] data;"⟩,
      ⟨1, s!"{field} = nullptr;"⟩,
      ⟨0, "\x7d"⟩]
  | pointers name nested length =>
    [⟨0, s!"if ({field} != nullptr) \x7b"⟩,
      ⟨1, s!"auto** data = const_cast<{name}**>({field});"⟩,
      ⟨1, s!"for (size_t i = 0; i < static_cast<size_t>(descriptor.{length.name}); ++i) \x7b"⟩,
      ⟨2, "if (data[i] != nullptr) \x7b"⟩,
      ⟨3, s!"Destroy{nested}(*data[i]);"⟩,
      ⟨3, "delete data[i];"⟩,
      ⟨2, "\x7d"⟩,
      ⟨1, "\x7d"⟩,
      ⟨1, "delete[] data;"⟩,
      ⟨1, s!"{field} = nullptr;"⟩,
      ⟨0, "\x7d"⟩]

def nested? : Disposal → Option String
  | inPlace _ nested | object _ nested | structures _ nested _ | pointers _ nested _ => some nested
  | _ => none

/-- The operation that the block behind the member is given back with. -/
def kind? : Disposal → Option ReleaseKind
  | nothing | inPlace _ _ => none
  | object _ _ => some .delete
  | _ => some .deleteArray

/-- The operation that the blocks behind the elements are given back with. -/
def elementKind? : Disposal → Option ReleaseKind
  | pointers _ _ _ => some .delete
  | _ => none

def operations (form : Disposal) : List ReleaseKind :=
  form.elementKind?.toList ++ form.kind?.toList

end Disposal

/-- The form that the operation of a member calls for. -/
inductive Suits (set : PlanSet) (member : MemberPlan) : Disposal → Prop where
  | nothing (plain : member.marshal.ownership.releases = false) : Suits set member .nothing
  | inPlace {name nested} (marshal : member.marshal = .nested name false)
    (called : structureName set name = .ok nested) : Suits set member (.inPlace name nested)
  | object {name nested} (marshal : member.marshal = .nested name true)
    (called : structureName set name = .ok nested) : Suits set member (.object name nested)
  | array {element} (marshal : member.marshal.element? = some element)
    (plain : member.marshal.structName? = none) : Suits set member (.array member.nativeType)
  | structures {name nested length} (marshal : member.marshal = .nestedArray name false)
    (called : structureName set name = .ok nested) (counted : member.length = some length) :
    Suits set member (.structures name nested length)
  | pointers {name nested length} (marshal : member.marshal = .nestedArray name true)
    (called : structureName set name = .ok nested) (counted : member.length = some length) :
    Suits set member (.pointers name nested length)
  | text (marshal : member.marshal = .string) : Suits set member .text

variable {set : PlanSet} {plan : StructPlan} {member : MemberPlan} {form : Disposal}
  {code body : Code}

theorem ownership_of_element {element : Marshal} (h : member.marshal.element? = some element)
    (hn : member.marshal.structName? = none) : member.marshal.ownership = .arrayOwned := by
  cases hmarshal : member.marshal with
  | unwrapArray | enumerationArray | bitmaskArray => rfl
  | nestedArray =>
    rw [hmarshal] at hn
    cases hn
  | _ =>
    rw [hmarshal] at h
    cases h

theorem fillMember_takes (h : fillMember set plan member = .ok code) :
    ∃ body, marshalMember set plan member = .ok body ∧ code.Has body ∧
      ∀ found, Yields taking? body found → Yields taking? code found := by
  obtain ⟨body, hbody, h⟩ := ok_of_bind h
  have hget : Yields taking? (line s!"Napi::Value value = obj.Get({quoted member.name});") [] :=
    plain_line (Opens.literal _).append.append ((Closes.literal _ ['"']).append.before [')', ';'])
      rfl
  refine ⟨body, hbody, ?_⟩
  cases h
  cases member.presence with
  | required =>
    refine ⟨(Has.refl body).right.right.blockEnding _ _, fun found hfound => ?_⟩
    have hcheck : Yields taking? (block s!"if (!IsPresent(obj, {quoted member.name}))"
        (failWith "missing required member " (memberLocation member))) [] :=
      plain_block (Opens.literal _).append.append rfl (plain_failWith (spot_member member).location)
    exact plain_scope (hcheck.append (hget.append hfound))
  | optional =>
    refine ⟨(Has.refl body).right.blockEnding _ _, fun found hfound => ?_⟩
    exact plain_block (Opens.literal _).append.append rfl (hget.append hfound)

theorem has_middle (before first second third after : Code) :
    Has (before ++ first ++ second ++ third ++ after) (first ++ second ++ third) := by
  have hparts : before ++ first ++ second ++ third ++ after =
      before ++ (first ++ second ++ third) ++ after := by
    simp only [List.append_assoc]
  rw [hparts]
  exact (Has.refl _).right.left

theorem fillArray_stores (type : String) :
    (fillArray plan member type body).Has (Disposal.storedArray plan member type) :=
  has_middle _ _ _ _ _

theorem takes_nothing (h : Yields taking? code [])
    (hr : member.marshal.ownership.releases = false) :
    ∃ form, Suits set member form ∧ Yields taking? code (form.takings member) ∧
      ∀ part ∈ form.stores plan member, code.Has part :=
  ⟨.nothing, .nothing hr, h, nofun⟩

theorem takes_array {element : Marshal} (h : Yields taking? body [])
    (he : member.marshal.element? = some element) (hn : member.marshal.structName? = none) :
    ∃ form, Suits set member form ∧
      Yields taking? (fillArray plan member member.nativeType body) (form.takings member) ∧
      ∀ part ∈ form.stores plan member,
        (fillArray plan member member.nativeType body).Has part := by
  refine ⟨.array member.nativeType, Suits.array he hn, takes_fillArray _ h, ?_⟩
  intro part hp
  rw [List.mem_singleton.mp hp]
  exact fillArray_stores _

theorem marshalMember_takes (ht : member.Typed set plan)
    (h : marshalMember set plan member = .ok code) :
    ∃ form, Suits set member form ∧ Yields taking? code (form.takings member) ∧
      ∀ part ∈ form.stores plan member, code.Has part := by
  have hmember := spot_member member
  have helement := spot_element member
  unfold marshalMember at h
  cases hmarshal : member.marshal with
  | unwrap className =>
    rw [hmarshal] at h
    cases h
    exact takes_nothing (plain_unwrapObject className hmember) (by rw [hmarshal]; rfl)
  | unwrapArray className =>
    rw [hmarshal] at h
    cases h
    exact takes_array (plain_unwrapObject className helement) (by rw [hmarshal]; rfl)
      (by rw [hmarshal]; rfl)
  | nested name byReference =>
    rw [hmarshal] at h
    obtain ⟨nested, hn, h⟩ := ok_of_bind h
    cases h
    have hcheck := hmember.plain_require ".IsObject()" nested
    cases byReference with
    | false =>
      exact ⟨.inPlace name nested, .inPlace hmarshal hn,
        hcheck.append (takes_fillNested _ _ _ _), nofun⟩
    | true =>
      refine ⟨.object name nested, .object hmarshal hn,
        hcheck.append ((takes_newElement nested hmember.target).append
          (takes_fillNested _ _ _ _)), ?_⟩
      intro part hp
      rw [List.mem_singleton.mp hp]
      exact (Has.refl _).left.right
  | nestedArray name ofPointers =>
    obtain ⟨length, hl⟩ := ht.counted (by rw [hmarshal]; rfl)
    rw [hmarshal] at h
    obtain ⟨nested, hn, h⟩ := ok_of_bind h
    cases h
    have hcheck := helement.plain_require ".IsObject()" nested
    cases ofPointers with
    | false =>
      have hreset : Yields taking? (line s!"Reset{nested}(data[i]);") [] :=
        plain_line (Opens.literal _).append.append (Closes.literal _ _) rfl
      refine ⟨.structures name nested length, .structures hmarshal hn hl,
        takes_fillArray _ (hcheck.append (hreset.append (takes_fillNested _ _ _ _))), ?_⟩
      intro part hp
      rw [List.mem_singleton.mp hp]
      exact fillArray_stores _
    | true =>
      refine ⟨.pointers name nested length, .pointers hmarshal hn hl,
        takes_fillArray _ (hcheck.append ((takes_newElement nested helement.target).append
          (takes_fillNested _ _ _ _))), ?_⟩
      intro part hp
      rcases List.mem_cons.mp hp with rfl | hp
      · exact fillArray_stores _
      · rw [List.mem_singleton.mp hp]
        exact fillArray_has (Has.refl _).left.right
  | number type =>
    rw [hmarshal] at h
    cases h
    exact takes_nothing (plain_readNumber type _ hmember) (by rw [hmarshal]; rfl)
  | boolean =>
    rw [hmarshal] at h
    cases h
    have hstore : ∀ target : String, Opens ['d'] target →
        Yields taking? (line s!"{target} = value.As<Napi::Boolean>().Value();") [] :=
      fun target ho => plain_line ho.append (Closes.literal _ _) rfl
    exact takes_nothing ((hmember.plain_require ".IsBoolean()" "Boolean").append
      (hstore _ hmember.target)) (by rw [hmarshal]; rfl)
  | enumeration name =>
    rw [hmarshal] at h
    obtain ⟨table, -, h⟩ := ok_of_bind h
    cases h
    exact takes_nothing (plain_lookUpName table _ hmember) (by rw [hmarshal]; rfl)
  | enumerationArray name =>
    rw [hmarshal] at h
    obtain ⟨table, -, h⟩ := ok_of_bind h
    cases h
    exact takes_array (plain_lookUpName table _ helement) (by rw [hmarshal]; rfl)
      (by rw [hmarshal]; rfl)
  | bitmask =>
    rw [hmarshal] at h
    cases h
    exact takes_nothing (plain_castBits _ hmember) (by rw [hmarshal]; rfl)
  | bitmaskArray =>
    rw [hmarshal] at h
    cases h
    exact takes_array (plain_castBits _ helement) (by rw [hmarshal]; rfl) (by rw [hmarshal]; rfl)
  | string =>
    rw [hmarshal] at h
    cases h
    exact ⟨.text, .text hmarshal, (hmember.plain_require ".IsString()" "String").append
      (.keep (taking?_copyText _)), nofun⟩
  | buffer kind =>
    rw [hmarshal] at h
    cases h
    exact takes_nothing (plain_bindBuffer plan member kind) (by rw [hmarshal]; rfl)

theorem Disposal.release_eq_lines : form.release member = form.releaseLines member := by
  cases form with
  | nothing | inPlace => rfl
  | object | array | structures | pointers | text =>
    simp [release, releaseLines, releasePointer, forEachElement, block, blockEnding, indent, line,
      toString, String.append_assoc]

theorem Disposal.storedArray_eq_lines {length : LengthField} {field : FieldPlan} (type : String)
    (hl : member.length = some length)
    (hf : plan.fields.find? (fun other => other.name == length.name) = some field) :
    storedArray plan member type =
      [⟨0, s!"auto* data = new {type}[length]();"⟩, ⟨0, s!"descriptor.{member.name} = data;"⟩,
        ⟨0, s!"descriptor.{length.name} = static_cast<{field.nativeType}>(length);"⟩] := by
  have hjoin : ∀ before : String, before ++ ">(" ++ "length" ++ ");" = before ++ ">(length);" :=
    fun before => by simp [String.append_assoc]
  rw [storedArray, writeLength, hl]
  simp only [hf]
  exact congrArg (fun last => line (newArray type) ++ line s!"descriptor.{member.name} = data;" ++
    line last) (hjoin _)

theorem Disposal.takings_eq_nil_iff : form.takings member = [] ↔ form = .nothing := by
  cases form <;> simp [Disposal.takings]

theorem Disposal.release_eq_nil_iff : form.release member = [] ↔ form = .nothing := by
  cases form with
  | nothing => simp [Disposal.release]
  | inPlace => simp [Disposal.release, line]
  | _ =>
    refine iff_of_false (block_ne_nil _ _) ?_
    intro h
    cases h

namespace Suits

theorem nestedName_eq (h : Suits set member form) :
    nestedName set member = .ok form.nested? := by
  rw [nestedName_eq_elim]
  cases h with
  | nothing plain =>
    cases hn : member.marshal.structName? with
    | none => rfl
    | some name =>
      rw [Marshal.releases_of_structName? hn] at plain
      cases plain
  | array _ plain =>
    rw [plain]
    rfl
  | text marshal =>
    rw [marshal]
    rfl
  | inPlace marshal called | object marshal called | structures marshal called _
  | pointers marshal called _ =>
    rw [marshal, Marshal.structName?, Option.elim_some, called]
    rfl

theorem releaseMember_eq (h : Suits set member form) (ht : member.Typed set plan) :
    releaseMember member form.nested? = form.release member := by
  have ho := ht.ownership
  unfold releaseMember
  cases h with
  | nothing plain =>
    rw [← ho] at plain
    cases hown : member.ownership with
    | value | borrowed => rfl
    | _ =>
      rw [hown] at plain
      cases plain
  | array marshal plain =>
    rw [ho, ownership_of_element marshal plain]
    rfl
  | text marshal =>
    rw [ho, marshal]
    rfl
  | inPlace marshal | object marshal =>
    rw [ho, marshal, ht.type _ (by rw [marshal]; rfl)]
    rfl
  | structures marshal _ counted | pointers marshal _ counted =>
    rw [ho, marshal, counted, ht.type _ (by rw [marshal]; rfl)]
    rfl

theorem releases_iff (h : Suits set member form) :
    member.marshal.ownership.releases = true ↔ form ≠ .nothing := by
  cases h with
  | nothing plain => simp [plain]
  | array marshal plain => simp [ownership_of_element marshal plain, Ownership.releases]
  | inPlace marshal | object marshal | structures marshal | pointers marshal | text marshal =>
    simp [marshal, Marshal.ownership, Ownership.releases]

end Suits

/-- The delete statements of a release block are those that the form calls for. -/
theorem yields_release (member : MemberPlan) (form : Disposal) :
    Yields operation? (form.release member) form.operations := by
  have hpointer : Opens ['d', 'e', 's'] ("descriptor." ++ member.name) :=
    (Opens.literal _).append.shorten ⟨_, rfl⟩
  have hblock : Yields operation? (line "delete[] data;") [.deleteArray] :=
    .keep (operation?_deleteArray (Opens.literal _) ⟨_, rfl⟩)
  cases form with
  | nothing => exact .nil
  | inPlace name nested => exact idle_line (Opens.literal _).append.append.append.append rfl
  | array type | text =>
    have hdelete : ∀ field : String,
        Yields operation? (line s!"delete[] {field};") [.deleteArray] :=
      fun _ => .keep (operation?_deleteArray (Opens.literal _).append.append (List.prefix_refl _))
    exact yields_releasePointer hpointer (hdelete _)
  | object name nested =>
    have hcast : ∀ field : String, Yields operation?
        (line s!"auto* element = const_cast<{name}*>({field});") [] :=
      fun _ => idle_line (Opens.literal _).append.append.append.append rfl
    have hcall : Yields operation? (line s!"Destroy{nested}(*element);") [] :=
      idle_line (Opens.literal _).append.append rfl
    have hdelete : Yields operation? (line "delete element;") [.delete] :=
      .keep (operation?_delete (Opens.literal _) ⟨_, rfl⟩)
    exact yields_releasePointer hpointer (((hcast _).append hcall).append hdelete)
  | structures name nested length =>
    have hcast : ∀ field : String, Yields operation?
        (line s!"auto* data = const_cast<{name}*>({field});") [] :=
      fun _ => idle_line (Opens.literal _).append.append.append.append rfl
    have hcall : Yields operation? (line s!"Destroy{nested}(data[i]);") [] :=
      idle_line (Opens.literal _).append.append rfl
    exact yields_releasePointer hpointer
      (((hcast _).append (yields_forEachElement length hcall)).append hblock)
  | pointers name nested length =>
    have hcast : ∀ field : String, Yields operation?
        (line s!"auto** data = const_cast<{name}**>({field});") [] :=
      fun _ => idle_line (Opens.literal _).append.append.append.append rfl
    have hcall : Yields operation? (line s!"Destroy{nested}(*data[i]);") [] :=
      idle_line (Opens.literal _).append.append rfl
    have hdelete : Yields operation? (line "delete data[i];") [.delete] :=
      .keep (operation?_delete (Opens.literal _) ⟨_, rfl⟩)
    have helement : Yields operation? (block "if (data[i] != nullptr)"
        (line s!"Destroy{nested}(*data[i]);" ++ line "delete data[i];")) [.delete] :=
      idle_block (Opens.literal _) rfl (hcall.append hdelete)
    exact yields_releasePointer hpointer
      (((hcast _).append (yields_forEachElement length helement)).append hblock)

end Cpp

end DescriptorMarshal
