import DescriptorMarshal.Proofs.Filling

/-!
Which host values a decode accepts. A value conforms by rules on its own; what is wrong with one
that does not is a list of violations in the order in which a reader comes across them. Decoding,
with all its writing to the heap, accepts exactly the values that conform and reports the first
violation of any other.
-/

namespace DescriptorMarshal

/-- The host values that an operation takes. -/
inductive Conforms (set : PlanSet) : Marshal → HostValue → Prop where
  | wrapped {className handle} : Conforms set (.unwrap className) (.wrapped className handle)
  | number {type x} : Conforms set (.number type) (.number x)
  | signed {n} (range : IntRange.signed64.contains n = true) :
    Conforms set (.number .i64) (.bigint n)
  | unsigned {n} (range : IntRange.unsigned64.contains n = true) :
    Conforms set (.number .u64) (.bigint n)
  | boolean {value} : Conforms set .boolean (.boolean value)
  | name {enumeration table text value} (known : set.tableOf? enumeration = some table)
    (named : table.value? text = some value) :
    Conforms set (.enumeration enumeration) (.string text)
  | bits {x} : Conforms set .bitmask (.number x)
  | string {text} : Conforms set .string (.string text)
  | typedArray {kind data} : Conforms set (.buffer (some kind)) (.typedArray kind data)
  | arrayBuffer {data} : Conforms set (.buffer none) (.arrayBuffer data)
  | array {marshal element items} (elements : marshal.element? = some element)
    (all : ∀ item ∈ items, Conforms set element item) : Conforms set marshal (.array items)
  | struct {name byReference plan properties} (known : set.planOf? name = some plan)
    (given : ∀ member ∈ plan.members, ∀ input, member.given? properties = some input →
      Conforms set member.marshal input)
    (absent : ∀ member ∈ plan.members, member.given? properties = none →
      member.presence = .optional) :
    Conforms set (.nested name byReference) (.object properties)

/-- The host values that a codec takes: objects that give each member as it should be, or leave
out an optional one. What is undefined is not given, and neither is null for an optional member
(`MemberPlan.given?_iff`). -/
structure ConformsTo (set : PlanSet) (plan : StructPlan) (properties : List (String × HostValue)) :
    Prop where
  given : ∀ member ∈ plan.members, ∀ input, member.given? properties = some input →
    Conforms set member.marshal input
  absent : ∀ member ∈ plan.members, member.given? properties = none →
    member.presence = .optional

inductive PathStep where
  | member (name : String)
  | element (index : Nat)
  deriving DecidableEq, Repr

/-- A path as it is written in errors: names separated by dots, indices in brackets. -/
def pathText (steps : List PathStep) : String :=
  steps.foldl (fun text step =>
    match step with
    | .member name => if text = "" then name else text ++ "." ++ name
    | .element index => text ++ "[" ++ toString index ++ "]") ""

inductive Fault where
  | missing
  | mismatch (expected found : String)
  | unknownName (enumeration value : String)
  deriving DecidableEq, Repr

structure Violation where
  steps : List PathStep
  fault : Fault
  deriving DecidableEq, Repr

/-- The error that reports a violation, in a decode of the structure `root`. -/
def Violation.error (root : String) (violation : Violation) : DecodeError :=
  match violation.fault with
  | .missing => .missing root (pathText violation.steps)
  | .mismatch expected found => .mismatch root (pathText violation.steps) expected found
  | .unknownName enumeration value =>
    .unknownEnumValue root (pathText violation.steps) enumeration value

def MemberPlan.violationsAbsent (member : MemberPlan) (steps : List PathStep) : List Violation :=
  match member.presence with
  | .optional => []
  | .required => [⟨steps ++ [.member member.name], .missing⟩]

namespace PlanSet

variable (set : PlanSet)

def expected : Marshal → String
  | .unwrap className => className
  | .unwrapArray _ | .nestedArray _ _ | .enumerationArray _ | .bitmaskArray => "Array"
  | .nested name _ => ((set.planOf? name).map (·.externalName)).getD name
  | .number type => if type.isWide then "BigInt" else "Number"
  | .boolean => "Boolean"
  | .enumeration _ | .string => "String"
  | .bitmask => "Number"
  | .buffer (some kind) => kind.className
  | .buffer none => "ArrayBuffer"

def faultOf : Marshal → HostValue → Option Fault
  | .unwrap className, .wrapped actual _ =>
    if actual = className then none else some (.mismatch className "wrapped object")
  | .number _, .number _ => none
  | .number .i64, .bigint n =>
    if IntRange.signed64.contains n then none
    else some (.mismatch "BigInt within int64_t" "bigint")
  | .number .u64, .bigint n =>
    if IntRange.unsigned64.contains n then none
    else some (.mismatch "BigInt within uint64_t" "bigint")
  | .boolean, .boolean _ => none
  | .enumeration name, .string text =>
    match set.tableOf? name with
    | some table =>
      match table.value? text with
      | some _ => none
      | none => some (.unknownName table.externalName text)
    | none => some (.unknownName name text)
  | .bitmask, .number _ => none
  | .string, .string _ => none
  | .buffer (some kind), .typedArray actual _ =>
    if actual = kind then none else some (.mismatch kind.className actual.className)
  | .buffer none, .arrayBuffer _ => none
  | marshal, value => some (.mismatch (set.expected marshal) value.typeName)

mutual

/-- All that is wrong with a value found at `steps`: depth first, members in the order of their
declaration and elements in the order of their index. -/
def violations : HostValue → Marshal → List PathStep → List Violation
  | .object properties, marshal, steps =>
    match marshal with
    | .nested name _ =>
      match set.planOf? name with
      | some plan => plan.members.flatMap fun member => violationsGiven properties member steps
      | none => [⟨steps, .mismatch name "Object"⟩]
    | _ => [⟨steps, .mismatch (set.expected marshal) "Object"⟩]
  | .array items, marshal, steps =>
    match marshal.element? with
    | some element => violationsItems items element steps 0
    | none => [⟨steps, .mismatch (set.expected marshal) "Array"⟩]
  | value, marshal, steps => ((set.faultOf marshal value).map (Violation.mk steps)).toList

def violationsGiven : List (String × HostValue) → MemberPlan → List PathStep → List Violation
  | [], member, steps => member.violationsAbsent steps
  | (key, input) :: rest, member, steps =>
    if key = member.name then
      if member.accepts input then
        violations input member.marshal (steps ++ [.member member.name])
      else member.violationsAbsent steps
    else violationsGiven rest member steps

def violationsItems : List HostValue → Marshal → List PathStep → (index : Nat) → List Violation
  | [], _, _, _ => []
  | item :: rest, element, steps, index =>
    violations item element (steps ++ [.element index]) ++
      violationsItems rest element steps (index + 1)

end

/-- What is reported of a value that a codec does not take. -/
def firstViolation? (plan : StructPlan) : HostValue → Option DecodeError
  | .object properties =>
    (plan.members.flatMap fun member => set.violationsGiven properties member []).head?.map
      (Violation.error plan.externalName)
  | value => some (.notAnObject plan.externalName value.typeName)

end PlanSet

/-! ### Conforming is having no violation -/

variable {set : PlanSet} {plan : StructPlan} {marshal : Marshal} {value : HostValue}
  {properties : List (String × HostValue)}

theorem violationsGiven_eq (member : MemberPlan) (steps : List PathStep) :
    set.violationsGiven properties member steps =
      match member.given? properties with
      | some input => set.violations input member.marshal (steps ++ [.member member.name])
      | none => member.violationsAbsent steps := by
  induction properties with
  | nil => rfl
  | cons entry rest ih =>
    obtain ⟨key, input⟩ := entry
    rw [PlanSet.violationsGiven, MemberPlan.given?_cons]
    by_cases hk : key = member.name
    · rw [if_pos hk, if_pos hk]
      cases ha : member.accepts input <;> rfl
    · rw [if_neg hk, if_neg hk, ih]

theorem violationsAbsent_eq_nil_iff {member : MemberPlan} {steps : List PathStep} :
    member.violationsAbsent steps = [] ↔ member.presence = .optional := by
  unfold MemberPlan.violationsAbsent
  cases member.presence <;> simp

theorem conforms_leaf_iff (ho : ∀ properties, value ≠ .object properties)
    (ha : ∀ items, value ≠ .array items) :
    Conforms set marshal value ↔ set.faultOf marshal value = none := by
  constructor
  · intro h
    cases h with
    | wrapped | typedArray => exact if_pos rfl
    | signed range | unsigned range => exact if_pos range
    | name known named => simp [PlanSet.faultOf, known, named]
    | array => exact absurd rfl (ha _)
    | struct => exact absurd rfl (ho _)
    | @number type x => cases type <;> rfl
    | _ => rfl
  · intro h
    unfold PlanSet.faultOf at h
    split at h
    · split at h
      · next he =>
        subst he
        exact .wrapped
      · cases h
    · exact .number
    · split at h
      · next range => exact .signed range
      · cases h
    · split at h
      · next range => exact .unsigned range
      · cases h
    · exact .boolean
    · split at h
      · next known =>
        split at h
        · next named => exact .name known named
        · cases h
      · cases h
    · exact .bits
    · exact .string
    · split at h
      · next he =>
        subst he
        exact .typedArray
      · cases h
    · exact .arrayBuffer
    · cases h

theorem conformsTo_iff {steps : List PathStep}
    (h : ∀ entry ∈ properties, ∀ marshal steps,
      Conforms set marshal entry.2 ↔ set.violations entry.2 marshal steps = []) :
    ConformsTo set plan properties ↔
      (plan.members.flatMap fun member => set.violationsGiven properties member steps) = [] := by
  rw [List.flatMap_eq_nil_iff]
  have hgiven : ∀ member : MemberPlan, ∀ input, member.given? properties = some input →
      (Conforms set member.marshal input ↔
        set.violations input member.marshal (steps ++ [.member member.name]) = []) := by
    intro member input hg
    exact h (member.name, input) (MemberPlan.mem_of_given? hg) _ _
  constructor
  · intro hc member hm
    rw [violationsGiven_eq]
    cases hg : member.given? properties with
    | some input => exact (hgiven member input hg).mp (hc.given member hm input hg)
    | none => exact violationsAbsent_eq_nil_iff.mpr (hc.absent member hm hg)
  · intro hv
    constructor
    · intro member hm input hg
      have := hv member hm
      rw [violationsGiven_eq, hg] at this
      exact (hgiven member input hg).mpr this
    · intro member hm hg
      have := hv member hm
      rw [violationsGiven_eq, hg] at this
      exact violationsAbsent_eq_nil_iff.mp this

theorem conforms_items_iff {items : List HostValue} {element : Marshal} {steps : List PathStep}
    (h : ∀ item ∈ items, ∀ marshal steps,
      Conforms set marshal item ↔ set.violations item marshal steps = []) (index : Nat) :
    (∀ item ∈ items, Conforms set element item) ↔
      set.violationsItems items element steps index = [] := by
  induction items generalizing index with
  | nil => exact ⟨fun _ => rfl, fun _ => nofun⟩
  | cons item rest ih =>
    rw [PlanSet.violationsItems, List.append_eq_nil_iff, List.forall_mem_cons,
      ih (fun other ho => h other (List.mem_cons_of_mem _ ho)) (index + 1),
      h item List.mem_cons_self]

theorem conforms_iff (value : HostValue) (marshal : Marshal) (steps : List PathStep) :
    Conforms set marshal value ↔ set.violations value marshal steps = [] := by
  induction value using HostValue.induct generalizing marshal steps with
  | object properties ih =>
    cases marshal with
    | nested name byReference =>
      rw [PlanSet.violations]
      cases hp : set.planOf? name with
      | none =>
        refine ⟨?_, nofun⟩
        intro h
        cases h with
        | struct known => cases hp.symm.trans known
      | some plan =>
        rw [← conformsTo_iff ih]
        constructor
        · intro h
          cases h with
          | struct known given absent =>
            cases hp.symm.trans known
            exact ⟨given, absent⟩
        · exact fun h => .struct hp h.given h.absent
    | _ =>
      refine ⟨?_, nofun⟩
      intro h
      cases h
  | array items ih =>
    rw [PlanSet.violations]
    cases he : marshal.element? with
    | none =>
      refine ⟨?_, nofun⟩
      intro h
      cases h with
      | array elements => cases he.symm.trans elements
    | some element =>
      rw [← conforms_items_iff ih 0]
      constructor
      · intro h
        cases h with
        | array elements all =>
          cases he.symm.trans elements
          exact all
      · exact fun h => .array he h
  | other value ho ha =>
    rw [conforms_leaf_iff ho ha]
    have hv : set.violations value marshal steps =
        ((set.faultOf marshal value).map (Violation.mk steps)).toList := by
      cases value with
      | object properties => exact absurd rfl (ho properties)
      | array items => exact absurd rfl (ha items)
      | _ => rfl
    rw [hv]
    cases set.faultOf marshal value <;> simp

/-! ### The error is the first violation -/

variable {root : String} {steps : List PathStep} {input : HostValue} {member : MemberPlan}

def firstError (root : String) (found : List Violation) : Option DecodeError :=
  found.head?.map (Violation.error root)

theorem firstError_append (first second : List Violation) :
    firstError root (first ++ second) = (firstError root first).or (firstError root second) := by
  cases first <;> rfl

def placeAt (root : String) (steps : List PathStep) : Place := ⟨root, pathText steps⟩

theorem placeAt_member (name : String) :
    (placeAt root steps).member name = placeAt root (steps ++ [.member name]) := by
  simp [placeAt, Place.member, pathText]

theorem placeAt_element (index : Nat) :
    (placeAt root steps).element index = placeAt root (steps ++ [.element index]) := by
  simp [placeAt, Place.element, pathText]

def refusal {α : Type} : Except DecodeError α → Option DecodeError
  | .ok _ => none
  | .error error => some error

theorem convertWrapped_refusal {className : String} :
    refusal (convertWrapped className input (placeAt root steps)) =
      (set.faultOf (.unwrap className) input).map fun fault =>
        Violation.error root ⟨steps, fault⟩ := by
  cases input with
  | wrapped actual handle =>
    simp only [convertWrapped, PlanSet.faultOf]
    split <;> rfl
  | _ => rfl

theorem convertName_refusal {name : String} :
    refusal (set.convertName name input (placeAt root steps)) =
      (set.faultOf (.enumeration name) input).map fun fault =>
        Violation.error root ⟨steps, fault⟩ := by
  cases input with
  | string text =>
    simp only [PlanSet.convertName, PlanSet.faultOf]
    cases set.tableOf? name with
    | none => rfl
    | some table =>
      dsimp only
      cases table.value? text <;> rfl
  | _ => rfl

theorem convertBits_refusal :
    refusal (convertBits input (placeAt root steps)) =
      (set.faultOf .bitmask input).map fun fault => Violation.error root ⟨steps, fault⟩ := by
  cases input <;> rfl

theorem convertBoolean_refusal :
    refusal (convertBoolean input (placeAt root steps)) =
      (set.faultOf .boolean input).map fun fault => Violation.error root ⟨steps, fault⟩ := by
  cases input <;> rfl

theorem convertNumber_refusal {type : NumberType} :
    refusal (convertNumber type input (placeAt root steps)) =
      (set.faultOf (.number type) input).map fun fault => Violation.error root ⟨steps, fault⟩ := by
  cases input with
  | bigint n =>
    cases type with
    | i64 | u64 =>
      simp only [convertNumber, PlanSet.faultOf]
      split <;> rfl
    | _ => rfl
  | _ => cases type <;> rfl

theorem convertBuffer_refusal {kind : Option ArrayKind} :
    refusal (convertBuffer kind input (placeAt root steps)) =
      (set.faultOf (.buffer kind) input).map fun fault => Violation.error root ⟨steps, fault⟩ := by
  cases kind with
  | none => cases input <;> rfl
  | some kind =>
    cases input with
    | typedArray actual data =>
      simp only [convertBuffer, PlanSet.faultOf]
      split <;> rfl
    | _ => rfl

theorem firstError_of_isPlain (h : marshal.isPlain = true) :
    firstError root (set.violations input marshal steps) =
      (set.faultOf marshal input).map fun fault => Violation.error root ⟨steps, fault⟩ := by
  have hv : set.violations input marshal steps =
      ((set.faultOf marshal input).map (Violation.mk steps)).toList := by
    cases marshal with
    | buffer kind => cases kind <;> cases input <;> rfl
    | unwrap | number | boolean | enumeration | bitmask => cases input <;> rfl
    | _ => cases h
  rw [hv]
  cases set.faultOf marshal input <;> rfl

theorem fillConverted_error {name : String} {converted : Except DecodeError NativeValue}
    {heap : Heap} {native : NativeStruct} :
    (fillConverted name converted heap native).error? = refusal converted := by
  cases converted <;> rfl

theorem fillElements_error {convert : HostValue → Place → Except DecodeError NativeValue}
    {element : Marshal} {id : BlockId}
    (hc : ∀ input steps, refusal (convert input (placeAt root steps)) =
      firstError root (set.violations input element steps))
    (items : List HostValue) (index : Nat) (heap : Heap) :
    (fillElements convert (placeAt root steps) id items index heap).2 =
      firstError root (set.violationsItems items element steps index) := by
  induction items generalizing index heap with
  | nil => rfl
  | cons item rest ih =>
    rw [fillElements, PlanSet.violationsItems, firstError_append, ← hc, placeAt_element]
    cases convert item (placeAt root (steps ++ [.element index])) with
    | ok value => exact ih _ _
    | error error => rfl

theorem fillArray_error {convert : HostValue → Place → Except DecodeError NativeValue}
    {element : Marshal} {zero : NativeValue} {heap : Heap} {native : NativeStruct}
    (he : marshal.element? = some element)
    (hc : ∀ input steps, refusal (convert input (placeAt root steps)) =
      firstError root (set.violations input element steps)) :
    (fillArray member zero convert input (placeAt root steps) heap native).error? =
      firstError root (set.violations input marshal steps) := by
  cases input with
  | array items =>
    rw [PlanSet.violations, he]
    exact fillElements_error hc items 0 _
  | _ => cases marshal <;> first | rfl | cases he

theorem fillPlain_error {heap : Heap} {native : NativeStruct}
    (hn : member.marshal.structName? = none) :
    (set.fillPlain member input (placeAt root steps) heap native).error? =
      firstError root (set.violations input member.marshal steps) := by
  have plain : ∀ {marshal : Marshal} {refused : Option DecodeError}, marshal.isPlain = true →
      (refused = (set.faultOf marshal input).map fun fault =>
        Violation.error root ⟨steps, fault⟩) →
      refused = firstError root (set.violations input marshal steps) :=
    fun h hr => hr.trans (firstError_of_isPlain h).symm
  unfold PlanSet.fillPlain
  cases hmarshal : member.marshal with
  | nested | nestedArray =>
    rw [hmarshal] at hn
    cases hn
  | unwrap className => exact plain rfl (fillConverted_error.trans convertWrapped_refusal)
  | number type => exact plain rfl (fillConverted_error.trans convertNumber_refusal)
  | boolean => exact plain rfl (fillConverted_error.trans convertBoolean_refusal)
  | enumeration name => exact plain rfl (fillConverted_error.trans convertName_refusal)
  | bitmask => exact plain rfl (fillConverted_error.trans convertBits_refusal)
  | unwrapArray className =>
    exact fillArray_error rfl fun _ _ =>
      convertWrapped_refusal.trans (firstError_of_isPlain rfl).symm
  | enumerationArray name =>
    exact fillArray_error rfl fun _ _ =>
      convertName_refusal.trans (firstError_of_isPlain rfl).symm
  | bitmaskArray =>
    exact fillArray_error rfl fun _ _ =>
      convertBits_refusal.trans (firstError_of_isPlain rfl).symm
  | string => cases input <;> rfl
  | buffer kind =>
    refine plain rfl (Eq.trans ?_ convertBuffer_refusal)
    dsimp only
    cases convertBuffer kind input (placeAt root steps) <;> rfl

theorem fillMembers_error {fill : MemberPlan → Fill} {found : MemberPlan → List Violation}
    {members : List MemberPlan} (h : ∀ member ∈ members, ∀ heap native,
      (fill member heap native).error? = firstError root (found member))
    (heap : Heap) (native : NativeStruct) :
    (fillMembers fill members heap native).error? = firstError root (members.flatMap found) := by
  induction members generalizing heap native with
  | nil => rfl
  | cons member rest ih =>
    have hm := h member List.mem_cons_self heap native
    rw [fillMembers, List.flatMap_cons, firstError_append, ← hm]
    cases he : (fill member heap native).error? with
    | none => exact ih (fun other ho => h other (List.mem_cons_of_mem _ ho)) _ _
    | some error => exact he

structure Reports (set : PlanSet) (root : String) (input : HostValue) : Prop where
  slot : ∀ member, (∀ name, member.marshal.structName? = some name →
      ∃ nested, set.planOf? name = some nested) → ∀ steps heap native,
    (set.fillValue input member (placeAt root steps) heap native).error? =
      firstError root (set.violations input member.marshal steps)
  item : ∀ name plan, set.planOf? name = some plan → ∀ ofPointers id index steps heap,
    (set.fillItem input plan ofPointers id index (placeAt root steps) heap).2 =
      firstError root (set.violations input (.nested name ofPointers) steps)

theorem fillProperty_error (h : ∀ entry ∈ properties, Reports set root entry.2)
    (hm : ∀ name, member.marshal.structName? = some name →
      ∃ nested, set.planOf? name = some nested) (heap : Heap) (native : NativeStruct) :
    (set.fillProperty properties member (placeAt root steps) heap native).error? =
      firstError root (set.violationsGiven properties member steps) := by
  rw [PlanSet.fillProperty_eq, violationsGiven_eq, placeAt_member]
  cases hg : member.given? properties with
  | some input => exact (h _ (MemberPlan.mem_of_given? hg)).slot member hm _ _ _
  | none =>
    simp only [fillAbsent, MemberPlan.violationsAbsent]
    cases member.presence <;> rfl

theorem properties_error (hs : set.Closed) (hp : plan ∈ set.plans)
    (h : ∀ entry ∈ properties, Reports set root entry.2) (heap : Heap) (native : NativeStruct) :
    (fillMembers (fun inner => set.fillProperty properties inner (placeAt root steps))
        plan.members heap native).error? =
      firstError root
        (plan.members.flatMap fun member => set.violationsGiven properties member steps) :=
  fillMembers_error (fun member hm heap native =>
    fillProperty_error h (hs plan hp member hm) heap native) heap native

theorem fillItems_error {items : List HostValue} {name : String} {ofPointers : Bool} {id : BlockId}
    (hn : set.planOf? name = some plan) (h : ∀ item ∈ items, Reports set root item) (index : Nat)
    (heap : Heap) :
    (set.fillItems items plan ofPointers id index (placeAt root steps) heap).2 =
      firstError root (set.violationsItems items (.nested name ofPointers) steps index) := by
  induction items generalizing index heap with
  | nil => rfl
  | cons item rest ih =>
    have hitem := (h item List.mem_cons_self).item name plan hn ofPointers id index
      (steps ++ [.element index]) heap
    rw [PlanSet.fillItems, PlanSet.violationsItems, firstError_append, ← hitem, placeAt_element]
    generalize set.fillItem item plan ofPointers id index _ heap = filled
    obtain ⟨heap', error?⟩ := filled
    cases error? with
    | none => exact ih (fun other ho => h other (List.mem_cons_of_mem _ ho)) _ _
    | some error => rfl

theorem fillValue_nested_error {name : String} {byReference : Bool} (hs : set.Closed)
    (hmarshal : member.marshal = .nested name byReference) (hn : set.planOf? name = some plan)
    (h : ∀ entry ∈ properties, Reports set root entry.2) (heap : Heap) (native : NativeStruct) :
    (set.fillValue (.object properties) member (placeAt root steps) heap native).error? =
      firstError root (set.violations (.object properties) (.nested name byReference) steps) := by
  have hstruct := @properties_error set plan properties root steps hs (PlanSet.planOf?_mem hn) h
  simp only [PlanSet.fillValue, PlanSet.violations, hmarshal, hn]
  split
  · exact hstruct _ _
  · exact hstruct _ _

theorem fillItem_error {name : String} {ofPointers : Bool} (hs : set.Closed)
    (hn : set.planOf? name = some plan) (h : ∀ entry ∈ properties, Reports set root entry.2)
    (id : BlockId) (index : Nat) (heap : Heap) :
    (set.fillItem (.object properties) plan ofPointers id index (placeAt root steps) heap).2 =
      firstError root (set.violations (.object properties) (.nested name ofPointers) steps) := by
  have hstruct := @properties_error set plan properties root steps hs (PlanSet.planOf?_mem hn) h
  simp only [PlanSet.fillItem, PlanSet.violations, hn]
  split
  · exact hstruct _ _
  · exact hstruct _ _

/-- Filling reports the first violation of any host value. -/
theorem reports (hs : set.Closed) (root : String) (input : HostValue) :
    Reports set root input := by
  have plain : ∀ {input : HostValue} {member : MemberPlan} {steps heap} {native : NativeStruct},
      member.marshal.structName? = none →
      (set.fillValue input member (placeAt root steps) heap native).error? =
        firstError root (set.violations input member.marshal steps) := by
    intro input member steps heap native hn
    rw [fillValue_plain hn]
    exact fillPlain_error hn
  induction input using HostValue.induct with
  | object properties ih =>
    constructor
    · intro member hm steps heap native
      cases hmarshal : member.marshal with
      | nested name byReference =>
        obtain ⟨plan, hn⟩ := hm name (by rw [hmarshal]; rfl)
        exact fillValue_nested_error hs hmarshal hn ih heap native
      | nestedArray name ofPointers =>
        obtain ⟨plan, hn⟩ := hm name (by rw [hmarshal]; rfl)
        simp only [PlanSet.fillValue, hmarshal, hn]
        rfl
      | _ => exact hmarshal ▸ plain (by rw [hmarshal]; rfl)
    · intro name plan hn ofPointers id index steps heap
      exact fillItem_error hs hn ih id index heap
  | array items ih =>
    constructor
    · intro member hm steps heap native
      cases hmarshal : member.marshal with
      | nested name byReference =>
        obtain ⟨plan, hn⟩ := hm name (by rw [hmarshal]; rfl)
        simp only [PlanSet.fillValue, PlanSet.violations, Marshal.element?, PlanSet.expected,
          hmarshal, hn]
        rfl
      | nestedArray name ofPointers =>
        obtain ⟨plan, hn⟩ := hm name (by rw [hmarshal]; rfl)
        simp only [PlanSet.fillValue, hmarshal, hn]
        exact fillItems_error hn ih 0 _
      | _ => exact hmarshal ▸ plain (by rw [hmarshal]; rfl)
    · intro name plan hn ofPointers id index steps heap
      simp only [PlanSet.fillItem, PlanSet.violations, Marshal.element?, PlanSet.expected, hn]
      rfl
  | other value ho ha =>
    constructor
    · intro member hm steps heap native
      cases hmarshal : member.marshal with
      | nested name _ | nestedArray name _ =>
        obtain ⟨plan, hn⟩ := hm name (by rw [hmarshal]; rfl)
        cases value with
        | object properties => exact absurd rfl (ho properties)
        | array items => exact absurd rfl (ha items)
        | _ =>
          simp only [PlanSet.fillValue, PlanSet.violations, PlanSet.faultOf, PlanSet.expected,
            hmarshal, hn]
          rfl
      | _ => exact hmarshal ▸ plain (by rw [hmarshal]; rfl)
    · intro name plan hn ofPointers id index steps heap
      cases value with
      | object properties => exact absurd rfl (ho properties)
      | array items => exact absurd rfl (ha items)
      | _ =>
        simp only [PlanSet.fillItem, PlanSet.violations, PlanSet.faultOf, PlanSet.expected, hn]
        rfl

theorem decode_refusal (hs : set.Closed) (hp : plan ∈ set.plans) (value : HostValue)
    (next : Option Handle) (context : Context) :
    refusal (set.decode plan value next context).1 = set.firstViolation? plan value := by
  cases value with
  | object properties =>
    have herror := fun native => @properties_error set plan properties plan.externalName [] hs hp
      (fun entry _ => reports hs _ entry.2) context.heap native
    have hroot : (⟨plan.externalName, ""⟩ : Place) = placeAt plan.externalName [] := rfl
    simp only [PlanSet.decode, PlanSet.firstViolation?, hroot]
    split <;> next he => exact he.symm.trans (herror _)
  | _ => rfl

theorem conformsTo_iff_firstViolation? (plan : StructPlan) (value : HostValue) :
    (∃ properties, value = .object properties ∧ ConformsTo set plan properties) ↔
      set.firstViolation? plan value = none := by
  cases value with
  | object properties =>
    have hc := @conformsTo_iff set plan properties [] fun entry _ => conforms_iff entry.2
    rw [PlanSet.firstViolation?, Option.map_eq_none_iff, List.head?_eq_none_iff, ← hc]
    constructor
    · rintro ⟨_, he, h⟩
      cases he
      exact h
    · exact fun h => ⟨properties, rfl, h⟩
  | _ =>
    refine ⟨?_, nofun⟩
    rintro ⟨_, he, -⟩
    cases he

theorem Violation.error_root (root : String) (violation : Violation) :
    (violation.error root).root = root := by
  unfold Violation.error
  cases violation.fault <;> rfl

theorem Violation.error_ne_notAnObject (root other found : String) (violation : Violation) :
    violation.error root ≠ .notAnObject other found := by
  unfold Violation.error
  cases violation.fault <;> exact nofun

/-- A violation is reported under the codec's external name, however deep it is found, and that
the value is no object only if the whole value is none. -/
theorem firstViolation?_shape {error : DecodeError}
    (h : set.firstViolation? plan value = some error) :
    error.root = plan.externalName ∧
      ((∃ root found, error = .notAnObject root found) ↔
        ∀ properties, value ≠ .object properties) := by
  cases value with
  | object properties =>
    obtain ⟨violation, -, rfl⟩ := Option.map_eq_some_iff.mp h
    refine ⟨violation.error_root _, ?_, fun h => absurd rfl (h properties)⟩
    rintro ⟨root, found, he⟩
    exact absurd he (violation.error_ne_notAnObject _ root found)
  | _ =>
    cases h
    refine ⟨rfl, ?_, fun _ => ⟨_, _, rfl⟩⟩
    intro _ properties he
    cases he

variable {options : SchemaOptions} {document : Idl.Document} {bindings : Bindings}

/-- A decode accepts exactly the objects that conform to the plan, and reports the first violation
of any other value. -/
theorem decode_conforms (hb : Bindings.ofDocument options document = .ok bindings)
    (hp : plan ∈ bindings.plans.plans) (value : HostValue) (next : Option Handle)
    (context : Context) :
    ((∃ native, (bindings.plans.decode plan value next context).1 = .ok native) ↔
      ∃ properties, value = .object properties ∧ ConformsTo bindings.plans plan properties) ∧
    (∀ error, (bindings.plans.decode plan value next context).1 = .error error ↔
      bindings.plans.firstViolation? plan value = some error) ∧
    ∀ error, (bindings.plans.decode plan value next context).1 = .error error →
      error.root = plan.externalName ∧
        ((∃ root found, error = .notAnObject root found) ↔
          ∀ properties, value ≠ .object properties) := by
  have hr := decode_refusal (Bindings.closed hb) hp value next context
  have herror : ∀ error, (bindings.plans.decode plan value next context).1 = .error error ↔
      bindings.plans.firstViolation? plan value = some error := by
    intro error
    rw [← hr]
    cases (bindings.plans.decode plan value next context).1 <;> simp [refusal]
  refine ⟨?_, herror, fun error h => firstViolation?_shape ((herror error).mp h)⟩
  rw [conformsTo_iff_firstViolation?, ← hr]
  cases (bindings.plans.decode plan value next context).1 <;> simp [refusal]

theorem decode_conforms_pair : ∃ bindings,
    Bindings.ofDocument .standard pairDocument = .ok bindings ∧
    pairPlan ∈ bindings.plans.plans ∧
    (bindings.plans.decode pairPlan pairBroken none .empty).1 =
      .error (.mismatch "GPUPair" "first[1].size" "Number" "null") ∧
    (∃ native, (bindings.plans.decode pairPlan pairNull none .empty).1 = .ok native) ∧
    ∃ properties, pairNull = .object properties ∧
      ConformsTo bindings.plans pairPlan properties := by
  obtain ⟨schema, hb⟩ := pair_bindings
  have hm : pairPlan ∈ pairPlans.plans := by decide
  have hconforms : ∃ properties, pairNull = .object properties ∧
      ConformsTo pairPlans pairPlan properties :=
    (conformsTo_iff_firstViolation? pairPlan pairNull).mpr rfl
  refine ⟨_, hb, hm, ?_, ?_, hconforms⟩
  · exact ((decode_conforms hb hm pairBroken none .empty).2.1 _).mpr rfl
  · exact (decode_conforms hb hm pairNull none .empty).1.mpr hconforms

end DescriptorMarshal
