import DescriptorMarshal.Codec.Convert
import DescriptorMarshal.Codec.Release
import DescriptorMarshal.Codec.Reset

/-!
Decoding host objects into native structures. Every heap block is attached to the structure, and
its length written, before anything that can fail is done with it; so a structure that is only
partly filled can be destroyed like any other, and a failed decode destroys it.
-/

namespace DescriptorMarshal

structure Filled where
  heap : Heap
  native : NativeStruct
  error? : Option DecodeError
  deriving Repr

abbrev Fill := Heap → NativeStruct → Filled

def MemberPlan.setLength (member : MemberPlan) (native : NativeStruct) (count : Nat) :
    NativeStruct :=
  match member.length with
  | some field => native.set field.name (.ofCount field.type count)
  | none => native

def MemberPlan.attach (member : MemberPlan) (items : List NativeValue) (heap : Heap)
    (native : NativeStruct) : BlockId × Heap × NativeStruct :=
  let (id, heap) := heap.alloc (.array items)
  (id, heap, member.setLength (native.set member.name (.pointer id)) items.length)

def fillConverted (name : String) (converted : Except DecodeError NativeValue) : Fill :=
  fun heap native =>
    match converted with
    | .ok value => ⟨heap, native.set name value, none⟩
    | .error error => ⟨heap, native, some error⟩

/-- Converts the items of an array into a block, from an index on, until one fails. -/
def fillElements (convert : HostValue → Place → Except DecodeError NativeValue) (place : Place)
    (id : BlockId) : List HostValue → (index : Nat) → Heap → Heap × Option DecodeError
  | [], _, heap => (heap, none)
  | item :: rest, index, heap =>
    match convert item (place.element index) with
    | .ok value => fillElements convert place id rest (index + 1) (heap.storeElement id index value)
    | .error error => (heap, some error)

def fillArray (member : MemberPlan) (zero : NativeValue)
    (convert : HostValue → Place → Except DecodeError NativeValue) (input : HostValue)
    (place : Place) : Fill :=
  fun heap native =>
    match input with
    | .array items =>
      let (id, heap, native) := member.attach (List.replicate items.length zero) heap native
      let (heap, error?) := fillElements convert place id items 0 heap
      ⟨heap, native, error?⟩
    | _ => ⟨heap, native, some (place.mismatch "Array" input)⟩

def PlanSet.fillPlain (set : PlanSet) (member : MemberPlan) (input : HostValue) (place : Place) :
    Fill :=
  fun heap native =>
    match member.marshal with
    | .unwrap className =>
      fillConverted member.name (convertWrapped className input place) heap native
    | .unwrapArray className =>
      fillArray member .null (convertWrapped className) input place heap native
    | .number type => fillConverted member.name (convertNumber type input place) heap native
    | .boolean => fillConverted member.name (convertBoolean input place) heap native
    | .enumeration name =>
      fillConverted member.name (set.convertName name input place) heap native
    | .enumerationArray name =>
      fillArray member (.enumeration 0) (set.convertName name) input place heap native
    | .bitmask => fillConverted member.name (convertBits input place) heap native
    | .bitmaskArray => fillArray member (.bitmask 0) convertBits input place heap native
    | .string =>
      match input with
      | .string text =>
        let (id, heap) := heap.allocCString text
        ⟨heap, native.set member.name (.pointer id), none⟩
      | _ => ⟨heap, native, some (place.mismatch "String" input)⟩
    | .buffer kind =>
      match convertBuffer kind input place with
      | .ok view =>
        ⟨heap, member.setLength (native.set member.name (.buffer view)) view.length, none⟩
      | .error error => ⟨heap, native, some error⟩
    | .nested name _ | .nestedArray name _ =>
      ⟨heap, native, some (place.mismatch name input)⟩

def fillMembers (fill : MemberPlan → Fill) : List MemberPlan → Fill
  | [], heap, native => ⟨heap, native, none⟩
  | member :: rest, heap, native =>
    let filled := fill member heap native
    match filled.error? with
    | none => fillMembers fill rest filled.heap filled.native
    | some _ => filled

def fillAbsent (member : MemberPlan) (place : Place) : Fill :=
  fun heap native =>
    match member.presence with
    | .optional => ⟨heap, native, none⟩
    | .required => ⟨heap, native, some place.missing⟩

/-- Does a property count as present? An optional one that is null does not. -/
def MemberPlan.accepts (member : MemberPlan) (input : HostValue) : Bool :=
  !input.isUndefined && (member.presence == .required || !input.isNull)

namespace PlanSet

variable (set : PlanSet)

mutual

def fillValue : HostValue → MemberPlan → Place → Fill
  | .object properties, member, place, heap, native =>
    match member.marshal with
    | .nested name byReference =>
      match set.planOf? name with
      | none => ⟨heap, native, some (place.mismatch name (.object properties))⟩
      | some plan =>
        if byReference then
          let fresh := set.reset plan
          let (id, heap) := heap.alloc (.single (.struct fresh))
          let filled := fillMembers (fun inner => fillProperty properties inner place)
            plan.members heap fresh
          ⟨filled.heap.store id (.struct filled.native),
            native.set member.name (.pointer id), filled.error?⟩
        else
          let start := match native.get? member.name with
            | some (.struct value) => value
            | _ => set.reset plan
          let filled := fillMembers (fun inner => fillProperty properties inner place)
            plan.members heap start
          ⟨filled.heap, native.set member.name (.struct filled.native), filled.error?⟩
    | .nestedArray name _ =>
      match set.planOf? name with
      | none => ⟨heap, native, some (place.mismatch name (.object properties))⟩
      | some _ => ⟨heap, native, some (place.mismatch "Array" (.object properties))⟩
    | _ => set.fillPlain member (.object properties) place heap native
  | .array items, member, place, heap, native =>
    match member.marshal with
    | .nested name _ =>
      match set.planOf? name with
      | none => ⟨heap, native, some (place.mismatch name (.array items))⟩
      | some plan => ⟨heap, native, some (place.mismatch plan.externalName (.array items))⟩
    | .nestedArray name ofPointers =>
      match set.planOf? name with
      | none => ⟨heap, native, some (place.mismatch name (.array items))⟩
      | some plan =>
        let zero := if ofPointers then .null else .struct (set.reset plan)
        let (id, heap, native) := member.attach (List.replicate items.length zero) heap native
        let (heap, error?) := fillItems items plan ofPointers id 0 place heap
        ⟨heap, native, error?⟩
    | _ => set.fillPlain member (.array items) place heap native
  | input, member, place, heap, native =>
    match member.marshal with
    | .nested name _ =>
      match set.planOf? name with
      | none => ⟨heap, native, some (place.mismatch name input)⟩
      | some plan => ⟨heap, native, some (place.mismatch plan.externalName input)⟩
    | .nestedArray name _ =>
      match set.planOf? name with
      | none => ⟨heap, native, some (place.mismatch name input)⟩
      | some _ => ⟨heap, native, some (place.mismatch "Array" input)⟩
    | _ => set.fillPlain member input place heap native

def fillProperty : List (String × HostValue) → MemberPlan → Place → Fill
  | [], member, place, heap, native => fillAbsent member (place.member member.name) heap native
  | (key, input) :: rest, member, place, heap, native =>
    if key = member.name then
      if member.accepts input then fillValue input member (place.member member.name) heap native
      else fillAbsent member (place.member member.name) heap native
    else fillProperty rest member place heap native

def fillItems : List HostValue → StructPlan → (ofPointers : Bool) → BlockId → (index : Nat) →
    Place → Heap → Heap × Option DecodeError
  | [], _, _, _, _, _, heap => (heap, none)
  | item :: rest, plan, ofPointers, id, index, place, heap =>
    match fillItem item plan ofPointers id index (place.element index) heap with
    | (heap, none) => fillItems rest plan ofPointers id (index + 1) place heap
    | (heap, some error) => (heap, some error)

def fillItem : HostValue → StructPlan → (ofPointers : Bool) → BlockId → (index : Nat) →
    Place → Heap → Heap × Option DecodeError
  | .object properties, plan, ofPointers, id, index, place, heap =>
    let fresh := set.reset plan
    if ofPointers then
      let (element, heap) := heap.alloc (.single (.struct fresh))
      let heap := heap.storeElement id index (.pointer element)
      let filled := fillMembers (fun inner => fillProperty properties inner place)
        plan.members heap fresh
      (filled.heap.store element (.struct filled.native), filled.error?)
    else
      let filled := fillMembers (fun inner => fillProperty properties inner place)
        plan.members heap fresh
      (filled.heap.storeElement id index (.struct filled.native), filled.error?)
  | item, plan, _, _, _, place, heap => (heap, some (place.mismatch plan.externalName item))

end

/-- Decodes a host object by a plan. On failure the error is reported, everything allocated for
the structure is released, and no structure is returned. -/
def decode (plan : StructPlan) (value : HostValue) (next : Option Handle) (context : Context) :
    Except DecodeError NativeStruct × Context :=
  match value with
  | .object properties =>
    let fresh := set.reset plan
    let start := if plan.extensible then { fresh with nextInChain := next } else fresh
    let place : Place := ⟨plan.externalName, ""⟩
    let filled := fillMembers (fun member => set.fillProperty properties member place)
      plan.members context.heap start
    match filled.error? with
    | none => (.ok filled.native, { context with heap := filled.heap })
    | some error =>
      let context := context.report error
      (.error error, { context with heap := set.destroy plan filled.native filled.heap })
  | _ =>
    let error := DecodeError.notAnObject plan.externalName value.typeName
    (.error error, context.report error)

end PlanSet

end DescriptorMarshal
