import DescriptorMarshal.Proofs.Depth
import Mathlib.Algebra.Group.Nat.Defs

/-!
Lengths of arrays. A decoded structure tells the length of an array in a field beside it. Nothing
keeps two arrays from naming the same field, and then it tells the length of the last one given, at
every depth. So an array is told right exactly when it is as long as that one, for instance when no
other array that names the field is given.
-/

namespace DescriptorMarshal

/-- Does the member tell its number of elements in the field? -/
def MemberPlan.CountsIn (member : MemberPlan) (name : String) : Prop :=
  ∃ length, member.length = some length ∧ length.name = name

/-- The number of elements that the slot of an array leads to; behind null there are none. -/
def Heap.count? (heap : Heap) : NativeValue → Option Nat
  | .null => some 0
  | .pointer id =>
    match heap.get? id with
    | some (.array items) => some items.length
    | _ => none
  | .buffer view => some view.length
  | _ => none

/-- The last member that counts in the field and is not null leads to so many elements; where all
of them are null, there are none. -/
inductive Heap.LastCount (heap : Heap) (native : NativeStruct) (members : List MemberPlan)
    (name : String) : Nat → Prop where
  | absent (null : ∀ other ∈ members, other.CountsIn name →
      native.get? other.name = some .null) : LastCount heap native members name 0
  | last {before last after value count} (split : members = before ++ last :: after)
      (counts : last.CountsIn name) (slot : native.get? last.name = some value)
      (given : value ≠ .null) (counted : heap.count? value = some count)
      (null : ∀ later ∈ after, later.CountsIn name → native.get? later.name = some .null) :
      LastCount heap native members name count

variable {set : PlanSet} {plan : StructPlan} {member : MemberPlan} {length : LengthField}
  {heap : Heap} {native inner : NativeStruct} {value : NativeValue} {marshal : Marshal}
  {input : HostValue} {tree : Tree BlockId} {given : MemberPlan → Option (Tree Unit)}
  {members : List MemberPlan} {name : String} {count told : Nat}

theorem Heap.LastCount.alone (h : heap.LastCount native members name told)
    (hm : member ∈ members) (hv : native.get? member.name = some value)
    (hc : heap.count? value = some count) (counts : member.CountsIn name)
    (others : ∀ other ∈ members, other.CountsIn name → other ≠ member →
      native.get? other.name = some .null) : told = count := by
  cases h with
  | absent null =>
    rw [null member hm counts, Option.some.injEq] at hv
    subst hv
    exact Option.some.inj hc
  | @last _ last _ found _ split lastCounts slot given counted =>
    have hin : last ∈ members := split ▸ List.mem_append_right _ List.mem_cons_self
    by_cases he : last = member
    · subst he
      rw [slot, Option.some.injEq] at hv
      subst hv
      exact Option.some.inj (counted.symm.trans hc)
    · rw [others last hin lastCounts he, Option.some.injEq] at slot
      exact absurd slot.symm given

theorem toUInt64?_ofCount {type : NumberType} (hf : type.isFloat = false)
    (hc : count < 2 ^ 31) :
    (NativeValue.ofCount type count).toUInt64?.map UInt64.toNat = some count := by
  have h32 : (UInt32.ofInt (count : Int)).toNat = count := by
    rw [UInt32.ofInt, UInt32.toNat_ofNat']
    omega
  have hi32 : (Int32.ofInt (count : Int)).toInt = count := by
    rw [Int32.toInt_ofInt, Int32.size]
    exact Int.bmod_eq_of_le (by omega) (by omega)
  have hi64 : (Int64.ofInt (count : Int)).toInt = count := by
    rw [Int64.toInt_ofInt, Int64.size]
    exact Int.bmod_eq_of_le (by omega) (by omega)
  have h64 : (UInt64.ofInt (count : Int)).toNat = count := by
    rw [UInt64.ofInt, UInt64.toNat_ofNat']
    omega
  cases type with
  | f32 | f64 => cases hf
  | i8 | i16 | i32 =>
    simp only [NativeValue.ofCount, NativeValue.ofInteger, NativeValue.toUInt64?, hi32,
      Int.natCast_nonneg, if_true, Option.map_some, h64]
  | u8 | u16 | u32 =>
    simp only [NativeValue.ofCount, NativeValue.ofInteger, NativeValue.toUInt64?,
      Option.map_some, UInt32.toNat_toUInt64, h32]
  | i64 =>
    simp only [NativeValue.ofCount, NativeValue.ofInteger, NativeValue.toUInt64?, hi64,
      Int.natCast_nonneg, if_true, Option.map_some, h64]
  | u64 =>
    simp only [NativeValue.ofCount, NativeValue.ofInteger, NativeValue.toUInt64?,
      Option.map_some, h64]

theorem PlanSet.imageOf_counted (h : marshal.isCounted = true ∨ marshal = .buffer none) :
    set.imageOf input marshal = NativeValue.null.tree ∨
      (∃ items, set.imageOf input marshal = .array () items) ∨
      ∃ view, set.imageOf input marshal = (NativeValue.buffer view).tree := by
  cases marshal with
  | nested | unwrap | number | boolean | enumeration | bitmask | string =>
    simp [Marshal.isCounted] at h
  | unwrapArray | nestedArray | enumerationArray | bitmaskArray =>
    cases input with
    | array items => exact Or.inr (Or.inl ⟨_, rfl⟩)
    | _ => exact Or.inl rfl
  | buffer kind =>
    cases input with
    | typedArray | arrayBuffer => exact Or.inr (Or.inr ⟨_, rfl⟩)
    | _ => exact Or.inl rfl

/-- The slot of an array leads to as many elements as its image has, and is null where that has no
elements to count. -/
theorem Heap.count?_slot {item : Tree Unit} (hh : heap.Holds tree.blocks) (hi : tree.image = item)
    (h : item = NativeValue.null.tree ∨ (∃ items, item = .array () items) ∨
      ∃ view, item = (NativeValue.buffer view).tree) :
    heap.count? tree.native = some (item.count?.getD 0) ∧
      (tree.native = .null ↔ item.count? = none) := by
  rcases h with rfl | ⟨items, rfl⟩ | ⟨view, rfl⟩
  · rw [Tree.eq_of_image_value rfl hi]
    exact ⟨rfl, iff_of_true rfl rfl⟩
  · obtain ⟨id, trees, rfl, rfl⟩ := Tree.eq_of_image_array hi
    rw [Tree.blocks_array] at hh
    have hread : heap.get? id = some (.array (trees.map Tree.native)) :=
      hh _ List.mem_cons_self
    rw [Tree.native_array, Heap.count?, hread]
    refine ⟨by simp [Tree.count?], ?_⟩
    constructor <;> intro h <;> cases h
  · rw [Tree.eq_of_image_value rfl hi]
    refine ⟨rfl, ?_⟩
    constructor <;> intro h <;> cases h

theorem PlanSet.initValue_zero (type : NumberType) :
    set.initValue (.number type (.integer 0)) = .ofCount type 0 := by
  cases type <;> rfl

theorem Heap.Reads.array_slot {next : Option Handle} {properties : List (String × HostValue)}
    (hs : set.Regular) (hp : plan ∈ set.plans) (hm : member ∈ plan.members)
    (hl : member.length = some length)
    (h : heap.Reads native (set.structImage plan next (set.imageGiven properties))) :
    ∃ value, native.get? member.name = some value ∧
      heap.count? value = some (((set.imageGiven properties member).bind Tree.count?).getD 0) ∧
      (value = .null ↔ (set.imageGiven properties member).bind Tree.count? = none) := by
  have hc := hs.plans plan hp
  obtain ⟨field, hf, hname⟩ := hc.slot member hm
  have hget := set.get?_structImage hc hf next (set.imageGiven properties)
  rw [hname, set.fieldImage_member hc hm hname] at hget
  obtain ⟨value, hv⟩ := h.exists_slot hget
  obtain ⟨tree, rfl, hh, hi⟩ := h.slot hv
  rw [hget, Option.some.injEq] at hi
  have harray := (hs.starts plan hp).array member hm length hl
  have hstart : field.init = .null := by
    apply (hs.starts plan hp).pointer member hm ?_ field hf hname
    rcases harray with hcounted | hbytes
    · cases hmarshal : member.marshal <;> simp_all [Marshal.isCounted, Marshal.isPointer]
    · rw [hbytes]
      rfl
  refine ⟨tree.native, hv, ?_⟩
  rw [hstart, PlanSet.imageGiven_eq] at hi
  rw [PlanSet.imageGiven_eq]
  cases hgiven : member.given? properties with
  | none =>
    rw [hgiven] at hi
    exact count?_slot hh hi.symm (Or.inl rfl)
  | some input =>
    rw [hgiven] at hi
    exact count?_slot hh hi.symm (PlanSet.imageOf_counted harray)

/-- Members that count in one field agree on its type, which it starts from as zero. -/
theorem PlanSet.Regular.length_type {other : MemberPlan} {shared : LengthField} (hs : set.Regular)
    (hp : plan ∈ set.plans) (hm : member ∈ plan.members) (hl : member.length = some length)
    (ho : other ∈ plan.members) (hshared : other.length = some shared)
    (hsame : shared.name = length.name) : shared.type = length.type := by
  obtain ⟨field, hf, hname⟩ := List.mem_map.mp ((hs.plans plan hp).length member hm length hl).1
  have hstarts := hs.starts plan hp
  have hinit := hstarts.counter member hm length hl field hf hname
  rw [hstarts.counter other ho shared hshared field hf (hname.trans hsame.symm)] at hinit
  exact (FieldInit.number.inj hinit).1

/-- The length field is that of no member, so it reads as the number that is told in it. -/
theorem PlanSet.Regular.get?_length (hs : set.Regular) (hp : plan ∈ set.plans)
    (hm : member ∈ plan.members) (hl : member.length = some length) (next : Option Handle)
    (given : MemberPlan → Option (Tree Unit)) :
    Entries.get? (set.structImage plan next given).fields length.name =
      some ((PlanSet.countGiven plan.members given length.name).getD
        (.ofCount length.type 0)).tree := by
  have hc := hs.plans plan hp
  obtain ⟨hin, hout⟩ := hc.length member hm length hl
  obtain ⟨field, hf, hname⟩ := List.mem_map.mp hin
  have hfind : plan.members.find? (fun other => other.name == field.name) = none := by
    refine List.find?_eq_none.mpr fun other ho he => hout ?_
    exact List.mem_map.mpr ⟨other, ho, (by simpa using he : other.name = field.name).trans hname⟩
  have hinit := (hs.starts plan hp).counter member hm length hl field hf hname
  have hget := set.get?_structImage hc hf next given
  rw [hname] at hget
  rw [hget, PlanSet.fieldImage, hfind, hname, hinit, PlanSet.initValue_zero]
  cases PlanSet.countGiven plan.members given length.name <;> rfl

/-- The length field of an array holds the number of elements behind the slot of the last array
that counts in it and is there. -/
theorem Heap.Means.counted (hs : set.Regular) (hp : plan ∈ set.plans)
    (h : heap.Means set plan native) (hm : member ∈ plan.members)
    (hl : member.length = some length) :
    ∃ value count told, native.get? member.name = some value ∧ heap.count? value = some count ∧
      heap.LastCount native plan.members length.name told ∧
      native.get? length.name = some (.ofCount length.type told) := by
  obtain ⟨next, properties, hr⟩ := h
  obtain ⟨value, hv, hcount, -⟩ := hr.array_slot hs hp hm hl
  have hget := hs.get?_length hp hm hl next (set.imageGiven properties)
  have null : ∀ other ∈ plan.members, ∀ shared, other.length = some shared →
      (set.imageGiven properties other).bind Tree.count? = none →
        native.get? other.name = some .null := by
    intro other ho shared hshared hnone
    obtain ⟨found, hfound, -, hnull⟩ := hr.array_slot hs hp ho hshared
    rw [hfound, hnull.mpr hnone]
  cases hcounted : PlanSet.countGiven plan.members (set.imageGiven properties) length.name with
  | none =>
    rw [hcounted, Option.getD_none] at hget
    refine ⟨value, _, 0, hv, hcount, .absent ?_, hr.scalar_slot (isScalar_ofCount _ _) hget⟩
    rintro other ho ⟨shared, hshared, hsame⟩
    exact null other ho shared hshared (PlanSet.not_counted hcounted ho hshared hsame)
  | some number =>
    obtain ⟨before, last, after, shared, told, hsplit, hshared, hsame, hgiven, rfl, hlater⟩ :=
      PlanSet.exists_counted hcounted
    have hlast : last ∈ plan.members := hsplit ▸ List.mem_append_right _ List.mem_cons_self
    obtain ⟨found, hfound, htold, hnull⟩ := hr.array_slot hs hp hlast hshared
    rw [hgiven, Option.getD_some] at htold
    have hthere : found ≠ .null := by
      intro he
      rw [hnull.mp he] at hgiven
      cases hgiven
    rw [hcounted, Option.getD_some, hs.length_type hp hm hl hlast hshared hsame] at hget
    refine ⟨value, _, told, hv, hcount,
      .last hsplit ⟨shared, hshared, hsame⟩ hfound hthere htold ?_,
      hr.scalar_slot (isScalar_ofCount _ _) hget⟩
    rintro later hin ⟨other, hother, hnamed⟩
    exact null later (hsplit ▸ List.mem_append_right _ (List.mem_cons_of_mem _ hin)) other hother
      (hlater later hin other hother hnamed)

variable {options : SchemaOptions} {document : Idl.Document} {bindings : Bindings}
  {next : Option Handle} {context after : Context}

/-- In every structure that a successful decode returns, at any depth, the length field of an array
tells the number of elements of the last array that counts in the field and is there. Below two to
the power 31 it tells the length of the array itself just where the two have the same length: zero
for an array that is not there. That is so of an array that is the only one there. -/
theorem decode_counts (hb : Bindings.ofDocument options document = .ok bindings)
    (hd : Idl.DistinctMembers document) (hp : plan ∈ bindings.plans.plans)
    (h : bindings.plans.decode plan input next context = (.ok native, after))
    (hc : after.heap.Contains (.struct native) inner) :
    ∃ owner ∈ bindings.plans.plans, inner.typeName = owner.name ∧
      ∀ member ∈ owner.members, ∀ length, member.length = some length →
        ∃ value count told number, inner.get? member.name = some value ∧
          after.heap.count? value = some count ∧ inner.get? length.name = some number ∧
          after.heap.LastCount inner owner.members length.name told ∧
          (told < 2 ^ 31 → (number.toUInt64?.map UInt64.toNat = some count ↔ told = count)) ∧
          (told = count → (value = .null → number.toUInt64? = some 0) ∧
            (count < 2 ^ 31 → number.toUInt64?.map UInt64.toNat = some count)) ∧
          ((∀ other ∈ owner.members, other.CountsIn length.name → other ≠ member →
            inner.get? other.name = some .null) → told = count) := by
  have hs := Bindings.regular hb hd
  have hmeans := hs.decode_means hp h
  obtain ⟨owner, ho, hinner⟩ := hmeans.contains hs hp hc
  refine ⟨owner, ho, hinner.shape.1, ?_⟩
  intro member hm length hl
  obtain ⟨value, count, told, hv, hcount, hlast, hn⟩ := hinner.counted hs ho hm hl
  have hfloat := (((Bindings.complete hb ho).members member hm).length length hl).2
  have hnumber : told < 2 ^ 31 → _ := toUInt64?_ofCount hfloat
  refine ⟨value, count, told, _, hv, hcount, hn, hlast, ?_, ?_, ?_⟩
  · intro htold
    rw [hnumber htold, Option.some.injEq]
  · rintro rfl
    refine ⟨?_, hnumber⟩
    intro hnull
    subst hnull
    rw [Heap.count?, Option.some.injEq] at hcount
    subst hcount
    obtain ⟨zero, hzero, hnat⟩ := Option.map_eq_some_iff.mp (hnumber (by decide))
    rw [hzero, UInt64.toNat_inj.mp (hnat.trans UInt64.toNat_zero.symm)]
  · exact hlast.alone hm hv hcount ⟨length, hl, rfl⟩

theorem decode_counts_pair : ∃ bindings native after value number,
    Bindings.ofDocument .standard pairDocument = .ok bindings ∧
    bindings.plans.decode pairPlan pairSingle none .empty = (.ok native, after) ∧
    native.get? "first" = some value ∧ after.heap.count? value = some 1 ∧
    native.get? "second" = some .null ∧ native.get? "count" = some number ∧
    after.heap.LastCount native pairPlan.members "count" 1 ∧
    number.toUInt64?.map UInt64.toNat = some 1 := by
  obtain ⟨schema, hb⟩ := pair_bindings
  have hm : pairPlan ∈ pairPlans.plans := by decide
  obtain ⟨native, after, he, htype, hfirst, hone, hsecond⟩ : ∃ native after,
      pairPlans.decode pairPlan pairSingle none .empty = (.ok native, after) ∧
        native.typeName = "WGPUPair" ∧ native.get? "first" = some (.pointer ⟨1⟩) ∧
          after.heap.count? (.pointer ⟨1⟩) = some 1 ∧ native.get? "second" = some .null :=
    ⟨_, _, rfl, rfl, rfl, rfl, rfl⟩
  obtain ⟨owner, ho, hname, hcounts⟩ := decode_counts hb pair_distinct hm he .here
  have howner : owner = pairPlan := by
    rcases List.mem_cons.mp ho with rfl | ho
    · rw [htype] at hname
      exact absurd hname (by decide)
    · exact List.mem_singleton.mp ho
  subst howner
  obtain ⟨value, count, told, number, hv, hcount, hn, hlast, -, hright, halone⟩ :=
    hcounts (pairMember "first") (by decide) ⟨"count", .u32⟩ rfl
  cases hfirst.symm.trans hv
  cases hone.symm.trans hcount
  obtain rfl : told = 1 := by
    apply halone
    intro other hother _ hne
    rcases List.mem_cons.mp hother with rfl | hother
    · exact absurd rfl hne
    · rw [List.mem_singleton.mp hother]
      exact hsecond
  exact ⟨_, native, after, _, number, hb, he, hv, hcount, hsecond, hn, hlast,
    (hright rfl).2 (by decide)⟩

/-- The first array has two labels and its length field tells one, that of the second array. -/
theorem pair_miscounted : ∃ bindings native after value,
    Bindings.ofDocument .standard pairDocument = .ok bindings ∧
    Idl.DistinctMembers pairDocument ∧
    bindings.plans.decode pairPlan pairDouble none .empty = (.ok native, after) ∧
    native.get? "first" = some value ∧ after.heap.count? value = some 2 ∧
    native.get? "count" = some (.u32 1) := by
  obtain ⟨schema, hb⟩ := pair_bindings
  obtain ⟨native, after, he, hfirst, hlength, hcount⟩ : ∃ native after,
      pairPlans.decode pairPlan pairDouble none .empty = (.ok native, after) ∧
        native.get? "first" = some (.pointer ⟨1⟩) ∧ after.heap.count? (.pointer ⟨1⟩) = some 2 ∧
          native.get? "count" = some (.u32 1) := ⟨_, _, rfl, rfl, rfl, rfl⟩
  exact ⟨_, native, after, _, hb, pair_distinct, he, hfirst, hlength, hcount⟩

end DescriptorMarshal
