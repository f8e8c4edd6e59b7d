import DescriptorMarshal.Proofs.Disposal
import DescriptorMarshal.Proofs.Reading

/-!
Allocation and release match. The rendered destroy function has one block for each owning member,
in order, and the block gives back what the rendered fill takes for the member; releasing the member
in process frees the same blocks with the same operations, and decoding allocates blocks of the
kinds that these operations release.
-/

namespace DescriptorMarshal

open ReleaseTask (nestedIn)

namespace Cpp

open Code

variable {set : PlanSet} {plan : StructPlan} {member : MemberPlan} {form : Disposal} {code : Code}

/-- On any heap, the task frees the block with the operation and goes on with what it held; if that
fails, it is done. -/
def Frees (set : PlanSet) (task : ReleaseTask) (id : BlockId) (kind : ReleaseKind)
    (held : HeapBlock → List ReleaseTask) : Prop :=
  ∀ heap rest, set.releaseAll (task :: rest) heap =
    match heap.free id kind with
    | (.ok block, after) => set.releaseAll (held block ++ rest) after
    | (.error _, after) => set.releaseAll rest after

def heldAlone (nested : Option StructPlan) : HeapBlock → List ReleaseTask
  | .single value => nestedIn nested value
  | _ => []

def heldArray (opens : List NativeValue → List ReleaseTask) : HeapBlock → List ReleaseTask
  | .array items => opens items
  | _ => []

def Disposal.held (set : PlanSet) : Disposal → HeapBlock → List ReleaseTask
  | object name _ => heldAlone (set.planOf? name)
  | structures name _ _ => heldArray fun items => items.flatMap (nestedIn (set.planOf? name))
  | pointers name _ _ => heldArray fun items =>
    (items.filterMap NativeValue.pointer?).map (.block (set.planOf? name))
  | _ => fun _ => []

def Disposal.opened (set : PlanSet) : Disposal → NativeValue → List ReleaseTask
  | inPlace name _, value => nestedIn (set.planOf? name) value
  | _, _ => []

theorem frees_of_step {task : ReleaseTask} {id : BlockId} {kind : ReleaseKind}
    {held : HeapBlock → List ReleaseTask}
    (hok : ∀ heap block after, heap.free id kind = (.ok block, after) →
      set.releaseStep task heap = (held block, after))
    (herror : ∀ heap fault after, heap.free id kind = (.error fault, after) →
      set.releaseStep task heap = ([], after)) : Frees set task id kind held := by
  intro heap rest
  rw [releaseAll_cons]
  rcases hf : heap.free id kind with ⟨result, after⟩
  cases result with
  | ok block => rw [hok heap block after hf]
  | error fault => rw [herror heap fault after hf, List.nil_append]

theorem frees_block (set : PlanSet) (nested : Option StructPlan) (id : BlockId) :
    Frees set (.block nested id) id .delete (heldAlone nested) := by
  apply frees_of_step
  · intro heap block after hf
    cases block <;> simp only [PlanSet.releaseStep, hf, heldAlone]
  · intro heap fault after hf
    simp only [PlanSet.releaseStep, hf]

theorem frees_arrayOwned (set : PlanSet) (ho : member.ownership = .arrayOwned) (id : BlockId) :
    Frees set (.slot member (.pointer id)) id .deleteArray
      (heldArray fun items => items.flatMap (nestedIn (set.nestedPlan? member.marshal))) := by
  apply frees_of_step
  · intro heap block after hf
    cases block <;> simp only [PlanSet.releaseStep, ho, hf, heldArray]
  · intro heap fault after hf
    simp only [PlanSet.releaseStep, ho, hf]

theorem frees_arrayOfPointersOwned (set : PlanSet)
    (ho : member.ownership = .arrayOfPointersOwned) (id : BlockId) :
    Frees set (.slot member (.pointer id)) id .deleteArray
      (heldArray fun items => (items.filterMap NativeValue.pointer?).map
        (.block (set.nestedPlan? member.marshal))) := by
  apply frees_of_step
  · intro heap block after hf
    cases block <;> simp only [PlanSet.releaseStep, ho, hf, heldArray]
  · intro heap fault after hf
    simp only [PlanSet.releaseStep, ho, hf]

theorem heldArray_plain (h : member.marshal.structName? = none) :
    (heldArray fun items => items.flatMap (nestedIn (set.nestedPlan? member.marshal))) =
      fun _ => [] := by
  have hitem : ∀ value : NativeValue, nestedIn none value = [] := fun value => rfl
  funext block
  cases block with
  | array items => simp [heldArray, PlanSet.nestedPlan?_eq_bind, h, hitem]
  | _ => rfl

namespace Suits

/-- The block behind a member is freed with the operation that its form calls for. -/
theorem frees_slot {kind : ReleaseKind} (h : Suits set member form)
    (ho : member.ownership = member.marshal.ownership) (hk : form.kind? = some kind)
    (id : BlockId) : Frees set (.slot member (.pointer id)) id kind (form.held set) := by
  cases h with
  | nothing | inPlace => cases hk
  | object marshal =>
    cases hk
    intro heap rest
    have hstep : set.releaseStep (.slot member (.pointer id)) heap =
        ([.block (set.nestedPlan? member.marshal) id], heap) := by
      simp only [PlanSet.releaseStep, ho, marshal, Marshal.ownership]
    rw [releaseAll_cons, hstep, marshal]
    exact frees_block set _ id heap rest
  | array marshal plain =>
    cases hk
    have := frees_arrayOwned set (ho.trans (ownership_of_element marshal plain)) id
    rwa [heldArray_plain plain] at this
  | structures marshal =>
    cases hk
    have := frees_arrayOwned set (by rw [ho, marshal]; rfl) id
    rwa [marshal] at this
  | pointers marshal =>
    cases hk
    have := frees_arrayOfPointersOwned set (by rw [ho, marshal]; rfl) id
    rwa [marshal] at this
  | text marshal =>
    cases hk
    have := frees_arrayOwned set (by rw [ho, marshal]; rfl) id
    rwa [heldArray_plain (by rw [marshal]; rfl)] at this

theorem releaseStep_slot (h : Suits set member form)
    (ho : member.ownership = member.marshal.ownership) (hk : form.kind? = none)
    (value : NativeValue) (heap : Heap) :
    set.releaseStep (.slot member value) heap = (form.opened set value, heap) := by
  cases h with
  | nothing plain =>
    rw [← ho] at plain
    cases hown : member.ownership with
    | value | borrowed => simp only [PlanSet.releaseStep, hown, Disposal.opened]
    | _ =>
      rw [hown] at plain
      cases plain
  | inPlace marshal =>
    simp only [PlanSet.releaseStep, ho, marshal, Marshal.ownership]
    rfl
  | _ => cases hk

end Suits

/-- The block behind a slot, and those behind its elements, are of the kinds that the form gives
back. -/
def Disposal.Fits (heap : Heap) (form : Disposal) (value : NativeValue) : Prop :=
  ∀ id, value = .pointer id → ∃ block, heap.get? id = some block ∧
    form.kind? = some block.releaseKind ∧
    ∀ items element, block = .array items → .pointer element ∈ items →
      ∃ inner, heap.get? element = some inner ∧ form.elementKind? = some inner.releaseKind

theorem blocks_ne_nil {tree : Tree BlockId} {id : BlockId} (h : tree.native = .pointer id) :
    tree.blocks ≠ [] := by
  rcases Tree.eq_of_native_pointer h with ⟨value, rfl⟩ | ⟨items, rfl⟩ | ⟨bytes, rfl⟩
  · exact List.cons_ne_nil _ _
  · rw [Tree.blocks_array]
    exact List.cons_ne_nil _ _
  · exact List.cons_ne_nil _ _

theorem not_pointer_of_embedded {nested : Option StructPlan} {tree : Tree BlockId} {id : BlockId}
    (h : Owned set .embedded nested tree) : tree.native ≠ .pointer id := by
  intro hid
  rcases Tree.eq_of_native_pointer hid with ⟨value, rfl⟩ | ⟨items, rfl⟩ | ⟨bytes, rfl⟩ <;> cases h

namespace Suits

theorem kinds_eq (h : Suits set member form) :
    (member.marshal.ownership = .owned → form.kind? = some .delete) ∧
    (member.marshal.ownership = .arrayOwned → form.kind? = some .deleteArray) ∧
    (member.marshal.ownership = .arrayOfPointersOwned →
      form.kind? = some .deleteArray ∧ form.elementKind? = some .delete) := by
  cases h with
  | nothing plain =>
    refine ⟨?_, ?_, ?_⟩ <;>
    · intro ho
      rw [ho] at plain
      cases plain
  | array marshal plain => simp [ownership_of_element marshal plain, Disposal.kind?]
  | inPlace marshal | object marshal | structures marshal | pointers marshal | text marshal =>
    simp [marshal, Marshal.ownership, Disposal.kind?, Disposal.elementKind?]

theorem fits {heap : Heap} {nested : Option StructPlan} {tree : Tree BlockId}
    (h : Suits set member form) (ho : Owned set member.marshal.ownership nested tree)
    (hh : heap.Holds tree.blocks) : form.Fits heap tree.native := by
  obtain ⟨howned, harray, hpointers⟩ := h.kinds_eq
  intro id hid
  generalize member.marshal.ownership = ownership at ho howned harray hpointers
  rcases Tree.eq_of_native_pointer hid with ⟨value, rfl⟩ | ⟨items, rfl⟩ | ⟨bytes, rfl⟩
  · cases ho with
    | owned => exact ⟨_, hh _ List.mem_cons_self, howned rfl, nofun⟩
  · rw [Tree.blocks_array] at hh
    refine ⟨_, hh _ List.mem_cons_self, ?_⟩
    cases ho with
    | array hitems =>
      refine ⟨harray rfl, ?_⟩
      intro natives element hb hm
      cases hb
      obtain ⟨item, hi, he⟩ := List.mem_map.mp hm
      exact absurd he (not_pointer_of_embedded (hitems item hi))
    | pointers hitems =>
      obtain ⟨hkind, helement⟩ := hpointers rfl
      refine ⟨hkind, ?_⟩
      intro natives element hb hm
      cases hb
      obtain ⟨item, hi, he⟩ := List.mem_map.mp hm
      have hitem := hitems item hi
      rcases Tree.eq_of_native_pointer he with ⟨value, rfl⟩ | ⟨inner, rfl⟩ | ⟨bytes, rfl⟩
      · refine ⟨_, hh.tail _ (List.mem_flatMap.mpr ⟨_, hi, List.mem_cons_self⟩), helement⟩
      · cases hitem
      · cases hitem
  · cases ho with
    | cString => exact ⟨_, hh _ List.mem_cons_self, harray rfl, nofun⟩

end Suits

/-- After a decode, the slot of a member has the blocks that its form gives back. -/
theorem Suits.fits_decoded {input : HostValue} {next : Option Handle} {context after : Context}
    {native : NativeStruct} {value : NativeValue} (h : Suits set member form) (hs : set.Coherent)
    (hp : plan ∈ set.plans) (hm : member ∈ plan.members)
    (hd : set.decode plan input next context = (.ok native, after))
    (hv : native.get? member.name = some value) : form.Fits after.heap value := by
  have hcoherent := hs.plans plan hp
  have hdecoded := hs.decoded hp input next context
  rw [hd] at hdecoded
  cases hdecoded with
  | @ok properties layout blocks object owned found reads =>
    obtain ⟨-, -, slots, others⟩ := owned
    rw [StructTree.native_get?] at hv
    obtain ⟨tree, ht, rfl⟩ := Option.map_eq_some_iff.mp hv
    have hentry := Entries.mem_of_get? ht
    cases hr : member.ownership.releases with
    | true =>
      have hown := slots _ hentry member (List.mem_filter.mpr ⟨hm, hr⟩) rfl
      rw [hcoherent.ownership member hm] at hown
      refine h.fits hown ?_
      intro block hb
      apply (Heap.holds_extend context.heap blocks).perm found.symm
      rw [StructTree.blocks_eq]
      exact List.mem_flatMap.mpr ⟨_, hentry, hb⟩
    | false =>
      have hout : member.name ∉ plan.owningMembers.map (·.name) := by
        intro hin
        obtain ⟨other, hother, hname⟩ := List.mem_map.mp hin
        obtain ⟨ho, hreleases⟩ := List.mem_filter.mp hother
        rw [List.inj_on_of_nodup_map hcoherent.members ho hm hname, hr] at hreleases
        cases hreleases
      intro id hid
      exact absurd (others _ hentry hout) (blocks_ne_nil hid)

/-! ### Whole functions -/

structure MemberCode where
  fill : Code
  release : Code
  form : Disposal

/-- The fill takes what the form says and no more, and stores it in the member; the release block
gives just that back, with the operations that releasing the member in process frees its blocks
with. -/
structure Disposed (set : PlanSet) (plan : StructPlan) (member : MemberPlan)
    (part : MemberCode) : Prop where
  fill : fillMember set plan member = .ok part.fill
  suits : Suits set member part.form
  takings : Yields taking? part.fill (part.form.takings member)
  stores : ∀ code ∈ part.form.stores plan member, part.fill.Has code
  release : part.release = part.form.release member
  owning : part.release ≠ [] ↔ member.ownership.releases = true
  taken : part.release ≠ [] ↔ part.form.takings member ≠ []
  operations : Yields operation? part.release part.form.operations
  slot : ∀ kind, part.form.kind? = some kind → ∀ id,
    Frees set (.slot member (.pointer id)) id kind (part.form.held set)
  element : ∀ kind, part.form.elementKind? = some kind → ∀ nested id,
    Frees set (.block nested id) id kind (heldAlone nested)
  opened : part.form.kind? = none → ∀ value heap,
    set.releaseStep (.slot member value) heap = (part.form.opened set value, heap)

def fillFunction (plan : StructPlan) (parts : List MemberCode) : Code :=
  block (fillHeader plan)
    ((if plan.members.isEmpty then [] else line "Napi::Env env = obj.Env();") ++
      (parts.map (·.fill)).flatten ++ line "return true;")

def destroyFunction (plan : StructPlan) (parts : List MemberCode) : Code :=
  block s!"void Destroy{plan.externalName}({plan.name}& descriptor)"
    (parts.map (·.release)).flatten

theorem disposed (ht : member.Typed set plan) (h : fillMember set plan member = .ok code) :
    ∃ form, Disposed set plan member ⟨code, form.release member, form⟩ := by
  obtain ⟨body, hbody, hhas, htakes⟩ := fillMember_takes h
  obtain ⟨form, hs, htakings, hstores⟩ := marshalMember_takes ht hbody
  refine ⟨form, ?_⟩
  constructor
  · exact h
  · exact hs
  · exact htakes _ htakings
  · exact fun part hp => hhas.trans (hstores part hp)
  · rfl
  · rw [Ne, Disposal.release_eq_nil_iff, ht.ownership, hs.releases_iff]
  · rw [Ne, Disposal.release_eq_nil_iff, Ne, Disposal.takings_eq_nil_iff]
  · exact yields_release member form
  · exact fun kind hk id => hs.frees_slot ht.ownership hk id
  · intro kind hk nested id
    cases form with
    | pointers =>
      cases hk
      exact frees_block set nested id
    | _ => cases hk
  · exact fun hk value heap => hs.releaseStep_slot ht.ownership hk value heap

theorem Disposed.destroyMember {part : MemberCode} (h : Disposed set plan member part)
    (ht : member.Typed set plan) : destroyMember set member = .ok part.release := by
  rw [Cpp.destroyMember, h.suits.nestedName_eq, h.release, ← h.suits.releaseMember_eq ht]
  rfl

variable {members : List MemberPlan} {parts : List MemberCode} {fills : List Code}

theorem exists_parts
    (h : List.Forall₂ (fun member fill => fillMember set plan member = .ok fill) members fills)
    (ht : ∀ member ∈ members, member.Typed set plan) :
    ∃ parts, List.Forall₂ (Disposed set plan) members parts ∧ parts.map (·.fill) = fills := by
  induction h with
  | nil => exact ⟨[], .nil, rfl⟩
  | cons hfill _ ih =>
    obtain ⟨form, hform⟩ := disposed (ht _ List.mem_cons_self) hfill
    obtain ⟨parts, hparts, hfills⟩ := ih fun member hm => ht member (List.mem_cons_of_mem _ hm)
    exact ⟨_ :: parts, .cons hform hparts, by rw [List.map_cons, hfills]⟩

theorem releases_flatten (h : List.Forall₂ (Disposed set plan) members parts)
    (ht : ∀ member ∈ members, member.Typed set plan) :
    ∃ blocks, (members.filter fun member => member.ownership.releases).mapM (destroyMember set) =
      .ok blocks ∧ blocks.flatten = (parts.map (·.release)).flatten := by
  induction h with
  | nil => exact ⟨[], rfl, rfl⟩
  | @cons member part members parts hpart _ ih =>
    obtain ⟨blocks, hblocks, hflatten⟩ := ih fun other ho => ht other (List.mem_cons_of_mem _ ho)
    rw [List.map_cons, List.flatten_cons, ← hflatten]
    cases hr : member.ownership.releases with
    | true =>
      have hown := hpart.destroyMember (ht _ List.mem_cons_self)
      simp only [List.filter_cons, hr, if_true, List.mapM_cons, hown, hblocks]
      exact ⟨part.release :: blocks, rfl, rfl⟩
    | false =>
      have hempty : part.release = [] := by
        by_contra hne
        rw [hpart.owning.mp hne] at hr
        cases hr
      simp only [List.filter_cons, hr, Bool.false_eq_true, if_false, hempty]
      exact ⟨blocks, hblocks, rfl⟩

theorem fills_take (h : List.Forall₂ (Disposed set plan) members parts) :
    Yields taking? (parts.map (·.fill)).flatten
      (List.zipWith (fun member part => part.form.takings member) members parts).flatten := by
  apply Yields.flatten
  induction h with
  | nil => exact .nil
  | cons hpart _ ih => exact .cons hpart.takings ih

theorem fillFunction_takes (h : List.Forall₂ (Disposed set plan) plan.members parts) :
    Yields taking? (fillFunction plan parts)
      (List.zipWith (fun member part => part.form.takings member) plan.members parts).flatten := by
  have hheader : Opens ['s'] (fillHeader plan) :=
    (Opens.literal _).append.append.append.shorten ⟨_, rfl⟩
  have henv : Yields taking?
      (if plan.members.isEmpty then [] else line "Napi::Env env = obj.Env();") [] := by
    split
    · exact .nil
    · exact plain_line (Opens.literal _) (Closes.whole _) rfl
  have hreturn : Yields taking? (line "return true;") [] :=
    plain_line (Opens.literal _) (Closes.whole _) rfl
  have hbody := (henv.append (fills_take h)).append hreturn
  rw [List.append_nil] at hbody
  exact plain_block hheader rfl hbody

theorem destroyFunction_operates (h : List.Forall₂ (Disposed set plan) members parts) :
    Yields operation? (destroyFunction plan parts)
      (parts.map fun part => part.form.operations).flatten := by
  have hblocks : Yields operation? (parts.map (·.release)).flatten
      (parts.map fun part => part.form.operations).flatten := by
    apply Yields.flatten
    induction h with
    | nil => exact .nil
    | cons hpart _ ih => exact .cons hpart.operations ih
  exact idle_block (Opens.literal _).append.append.append.append rfl hblocks

/-- The code has a fill and a destroy function of the structure, put together from the same
members. The fill takes what they take and no more, and the destroy function gives back what they
give back; strings are copied into arrays. -/
structure Balanced (set : PlanSet) (plan : StructPlan) (code : Code) (parts : List MemberCode) :
    Prop where
  members : List.Forall₂ (Disposed set plan) plan.members parts
  fill : code.Has (fillFunction plan parts)
  takings : Yields taking? (fillFunction plan parts)
    (List.zipWith (fun member part => part.form.takings member) plan.members parts).flatten
  destroy : code.Has (destroyFunction plan parts)
  operations : Yields operation? (destroyFunction plan parts)
    (parts.map fun part => part.form.operations).flatten
  copies : code.Has (line "char* out = new char[text.size() + 1];")

theorem sourceCode_copies (h : sourceCode set = .ok code) :
    code.Has (line "char* out = new char[text.size() + 1];") := by
  obtain ⟨structures, -, h⟩ := ok_of_bind h
  cases h
  have hhelpers : helpers.Has (line "char* out = new char[text.size() + 1];") :=
    ((Has.refl _).right.left.left.blockEnding _ _).right
  exact (hhelpers.right.left.left.left.left.left.blockEnding _ _).right

theorem balanced (ht : ∀ member ∈ plan.members, member.Typed set plan) (hp : plan ∈ set.plans)
    (h : sourceCode set = .ok code) : ∃ parts, Balanced set plan code parts := by
  obtain ⟨-, ⟨fill, hfill, hcode⟩, destroy, hdestroy, hcode'⟩ := sourceCode_has h hp
  obtain ⟨fills, hfills, hfill⟩ := ok_of_bind hfill
  obtain ⟨blocks, hblocks, hdestroy⟩ := ok_of_bind hdestroy
  obtain ⟨parts, hparts, hsame⟩ := exists_parts (forall₂_of_mapM hfills) ht
  obtain ⟨found, hfound, hflatten⟩ := releases_flatten hparts ht
  obtain rfl : found = blocks := Except.ok.inj (hfound.symm.trans hblocks)
  cases hfill
  cases hdestroy
  refine ⟨parts, hparts, hcode.trans ?_, fillFunction_takes hparts, hcode'.trans ?_,
    destroyFunction_operates hparts, sourceCode_copies h⟩
  · rw [fillFunction, hsame]
    exact (Has.refl _).left
  · rw [destroyFunction, ← hflatten]
    exact (Has.refl _).left

end Cpp

variable {options : SchemaOptions} {document : Idl.Document} {bindings : Bindings}
  {sources : Cpp.Sources} {plan : StructPlan}

theorem pair_disposed {name : String} {part : Cpp.MemberCode}
    (h : Cpp.Disposed pairPlans pairPlan (pairMember name) part) :
    part.form = .structures "WGPULabel" "GPULabel" ⟨"count", .u32⟩ := by
  obtain ⟨fill, release, form⟩ := part
  have hs : Cpp.Suits pairPlans (pairMember name) form := h.suits
  cases hs with
  | nothing plain | array _ plain => cases plain
  | inPlace marshal | object marshal | pointers marshal | text marshal => cases marshal
  | structures marshal called counted =>
    cases marshal
    cases called
    cases counted
    rfl

end DescriptorMarshal
