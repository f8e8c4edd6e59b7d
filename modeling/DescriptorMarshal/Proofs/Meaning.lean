import DescriptorMarshal.Codec.Decode
import DescriptorMarshal.Proofs.Reset

/-!
What a conforming host value means: the tree that a structure decoded from it reads as. The tree is
defined by recursion on the value alone; no heap and no order of filling enters into it.
-/

namespace DescriptorMarshal

def Marshal.element? : Marshal → Option Marshal
  | .unwrapArray className => some (.unwrap className)
  | .nestedArray name ofPointers => some (.nested name ofPointers)
  | .enumerationArray name => some (.enumeration name)
  | .bitmaskArray => some .bitmask
  | _ => none

def Tree.count? {α : Type} : Tree α → Option Nat
  | .array _ items => some items.length
  | .scalar ⟨.buffer view, _⟩ => some view.length
  | _ => none

/-- The property of an object that counts as given for a member. -/
def MemberPlan.given? (member : MemberPlan) (properties : List (String × HostValue)) :
    Option HostValue :=
  (Entries.get? properties member.name).filter member.accepts

namespace MemberPlan

theorem accepts_iff {member : MemberPlan} {input : HostValue} : member.accepts input = true ↔
    input ≠ .undefined ∧ (member.presence = .optional → input ≠ .null) := by
  unfold accepts
  cases member.presence <;> cases input <;> simp [HostValue.isUndefined, HostValue.isNull]

/-- A member is given by a property that is not undefined and, if it may be left out, not null. -/
theorem given?_iff {member : MemberPlan} {properties : List (String × HostValue)}
    {input : HostValue} : member.given? properties = some input ↔
      Entries.get? properties member.name = some input ∧ input ≠ .undefined ∧
        (member.presence = .optional → input ≠ .null) := by
  rw [given?, Option.filter_eq_some_iff, accepts_iff]

theorem given?_cons (member : MemberPlan) (key : String) (input : HostValue)
    (rest : List (String × HostValue)) :
    member.given? ((key, input) :: rest) =
      if key = member.name then if member.accepts input then some input else none
      else member.given? rest := by
  rw [given?, Entries.get?]
  by_cases hk : key = member.name
  · rw [if_pos hk, if_pos hk]
    rfl
  · rw [if_neg hk, if_neg hk]
    rfl

theorem mem_of_given? {member : MemberPlan} {properties : List (String × HostValue)}
    {input : HostValue} (h : member.given? properties = some input) :
    (member.name, input) ∈ properties :=
  Entries.mem_of_get? (given?_iff.mp h).1

end MemberPlan

namespace PlanSet

variable (set : PlanSet)

/-- The native value that a host value stands for in place. -/
def scalarOf : Marshal → HostValue → NativeValue
  | .unwrap _, .wrapped _ handle => .handle handle
  | .number type, .number x => .ofDouble type x
  | .number .i64, .bigint n => .i64 (Int64.ofInt n)
  | .number .u64, .bigint n => .u64 (UInt64.ofInt n)
  | .boolean, .boolean value => .bool value
  | .enumeration name, .string text =>
    .enumeration (((set.tableOf? name).bind (·.value? text)).getD 0)
  | .bitmask, .number x => .bitmask x.toUInt32
  | .buffer _, .typedArray kind data => .buffer ⟨data, some kind⟩
  | .buffer _, .arrayBuffer data => .buffer ⟨data, none⟩
  | _, _ => .null

/-- The number of elements of the last array given whose length is the field `name`. -/
def countGiven (members : List MemberPlan) (given : MemberPlan → Option (Tree Unit))
    (name : String) : Option NativeValue :=
  members.reverse.findSome? fun member =>
    match member.length, (given member).bind Tree.count? with
    | some length, some count =>
      if length.name = name then some (.ofCount length.type count) else none
    | _, _ => none

/-- What a field reads as: the member of its name if that is given, or the number of elements that
it counts, and else what it starts from. -/
def fieldImage (members : List MemberPlan) (given : MemberPlan → Option (Tree Unit))
    (field : FieldPlan) : Tree Unit :=
  let absent := (set.initValue field.init).tree
  match members.find? fun member => member.name == field.name with
  | some member => (given member).getD absent
  | none => ((countGiven members given field.name).map NativeValue.tree).getD absent

def structImage (plan : StructPlan) (next : Option Handle)
    (given : MemberPlan → Option (Tree Unit)) : Image :=
  ⟨plan.name, next, plan.fields.map fun field =>
    (field.name, set.fieldImage plan.members given field)⟩

mutual

/-- What the slot of a member reads as when the member is given as this value. -/
def imageOf : HostValue → Marshal → Tree Unit
  | .object properties, marshal =>
    match marshal with
    | .nested name byReference =>
      match set.planOf? name with
      | some plan =>
        let value := set.structImage plan none fun member => imageGiven properties member
        if byReference then .single () value else .struct value
      | none => NativeValue.null.tree
    | _ => NativeValue.null.tree
  | .array items, marshal =>
    match marshal.element? with
    | some element => .array () (imagesOf items element)
    | none => NativeValue.null.tree
  | .string text, .string => .cString () (Heap.cStringBytes text)
  | value, marshal => (set.scalarOf marshal value).tree

def imageGiven : List (String × HostValue) → MemberPlan → Option (Tree Unit)
  | [], _ => none
  | (key, input) :: rest, member =>
    if key = member.name then
      if member.accepts input then some (imageOf input member.marshal) else none
    else imageGiven rest member

def imagesOf : List HostValue → Marshal → List (Tree Unit)
  | [], _ => []
  | item :: rest, element => imageOf item element :: imagesOf rest element

end

theorem imageOf_nested {name : String} {plan : StructPlan} (h : set.planOf? name = some plan)
    (properties : List (String × HostValue)) (byReference : Bool) :
    set.imageOf (.object properties) (.nested name byReference) =
      if byReference then .single () (set.structImage plan none (set.imageGiven properties))
      else .struct (set.structImage plan none (set.imageGiven properties)) := by
  rw [imageOf]
  simp only [h]

theorem imagesOf_eq (items : List HostValue) (element : Marshal) :
    set.imagesOf items element = items.map fun item => set.imageOf item element := by
  induction items with
  | nil => rfl
  | cons item rest ih => rw [imagesOf, ih, List.map_cons]

theorem imageGiven_eq (properties : List (String × HostValue)) (member : MemberPlan) :
    set.imageGiven properties member =
      (member.given? properties).map fun input => set.imageOf input member.marshal := by
  induction properties with
  | nil => rfl
  | cons entry rest ih =>
    obtain ⟨key, input⟩ := entry
    rw [imageGiven, MemberPlan.given?_cons]
    by_cases hk : key = member.name
    · rw [if_pos hk, if_pos hk]
      cases member.accepts input <;> rfl
    · rw [if_neg hk, if_neg hk, ih]

theorem fieldImage_absent (members : List MemberPlan) (field : FieldPlan) :
    set.fieldImage members (fun _ => none) field = (set.initValue field.init).tree := by
  have hcount : countGiven members (fun _ => none) field.name = none := by
    apply List.findSome?_eq_none_iff.mpr
    intro member _
    cases member.length <;> rfl
  unfold fieldImage
  rw [hcount]
  cases members.find? fun member => member.name == field.name <;> rfl

theorem Coherent.image_reset {set : PlanSet} {plan : StructPlan} (hs : set.Coherent)
    (hp : plan ∈ set.plans) :
    ((set.reset plan).tree : Image) = set.structImage plan none fun _ => none := by
  rw [NativeStruct.tree_eq, hs.reset_eq hp, List.map_map, structImage]
  refine congrArg (StructTree.mk plan.name none) (List.map_congr_left ?_)
  intro field _
  rw [fieldImage_absent]
  rfl

end PlanSet

section

set_option linter.unusedSectionVars false

variable {P : HostValue → Prop}
  (object : ∀ properties, (∀ entry ∈ properties, P entry.2) → P (.object properties))
  (array : ∀ items, (∀ item ∈ items, P item) → P (.array items))
  (other : ∀ value, (∀ properties, value ≠ .object properties) →
    (∀ items, value ≠ .array items) → P value)

include object array other

mutual

/-- Induction over host values, with the hypothesis at every property and at every item. -/
theorem HostValue.induct : ∀ value, P value
  | .object properties => object properties (HostValue.induct_properties properties)
  | .array items => array items (HostValue.induct_items items)
  | .undefined => other _ nofun nofun
  | .null => other _ nofun nofun
  | .boolean _ => other _ nofun nofun
  | .number _ => other _ nofun nofun
  | .bigint _ => other _ nofun nofun
  | .string _ => other _ nofun nofun
  | .typedArray _ _ => other _ nofun nofun
  | .arrayBuffer _ => other _ nofun nofun
  | .wrapped _ _ => other _ nofun nofun
  | .function _ => other _ nofun nofun

theorem HostValue.induct_properties :
    ∀ properties : List (String × HostValue), ∀ entry ∈ properties, P entry.2
  | [], _, h => nomatch h
  | (_, value) :: rest, entry, h => by
    have here := HostValue.induct value
    have later := HostValue.induct_properties rest
    rcases List.mem_cons.mp h with rfl | h
    · exact here
    · exact later entry h

theorem HostValue.induct_items : ∀ items : List HostValue, ∀ item ∈ items, P item
  | [], _, h => nomatch h
  | value :: rest, item, h => by
    have here := HostValue.induct value
    have later := HostValue.induct_items rest
    rcases List.mem_cons.mp h with rfl | h
    · exact here
    · exact later item h

end

end

end DescriptorMarshal
