import DescriptorMarshal.Proofs.Meaning

/-!
Filling the members of a structure one after the other. A member either leaves heap and structure
alone or puts a tree into its slot; either way the structure can be destroyed like any other, and
the blocks it leads to are those allocated since the decode began.
-/

namespace DescriptorMarshal

theorem isScalar_ofCount (type : NumberType) (count : Nat) :
    (NativeValue.ofCount type count).isScalar = true := by
  cases type <;> rfl

theorem Tree.count?_image {α : Type} (tree : Tree α) : tree.image.count? = tree.count? := by
  cases tree with
  | array label items => rw [image_array, count?, count?, List.length_map]
  | scalar value =>
    obtain ⟨value, hv⟩ := value
    cases value <;> rfl
  | _ => rfl

namespace StructTree

variable {α : Type}

def attach (member : MemberPlan) (tree : Tree α) (value : StructTree α) : StructTree α :=
  match member.length, tree.count? with
  | some length, some count =>
    (value.put member.name tree).put length.name (NativeValue.ofCount length.type count).tree
  | _, _ => value.put member.name tree

theorem image_attach (member : MemberPlan) (tree : Tree α) (value : StructTree α) :
    (value.attach member tree).image = value.image.attach member tree.image := by
  rw [attach, attach, Tree.count?_image]
  cases member.length with
  | none => exact image_put value _ tree
  | some length =>
    cases tree.count? with
    | none => exact image_put value _ tree
    | some count => rw [image_put, image_put, NativeValue.image_tree]

theorem native_attach (member : MemberPlan) (tree : Tree BlockId) (value : Layout) :
    (value.attach member tree).native =
      match tree.count? with
      | some count => member.setLength (value.native.set member.name tree.native) count
      | none => value.native.set member.name tree.native := by
  unfold attach MemberPlan.setLength
  cases hc : tree.count? with
  | none => cases member.length <;> exact native_put value _ tree
  | some count =>
    cases member.length with
    | none => exact native_put value _ tree
    | some length =>
      have hp := NativeValue.pointers_of_isScalar (isScalar_ofCount length.type count)
      simp only [native_put, NativeValue.native_tree _ hp]

end StructTree

theorem put_map {α : Type} {fields : List FieldPlan} {value : FieldPlan → α} {name : String}
    (new : α) (hn : (fields.map (·.name)).Nodup) (hm : name ∈ fields.map (·.name)) :
    Entries.put (fields.map fun field => (field.name, value field)) name new =
      fields.map fun field => (field.name, if field.name = name then new else value field) := by
  induction fields with
  | nil => cases hm
  | cons field rest ih =>
    obtain ⟨hnew, hn⟩ := List.nodup_cons.mp hn
    rw [List.map_cons, List.map_cons, Entries.put]
    by_cases hf : field.name = name
    · subst hf
      rw [if_pos rfl, if_pos rfl]
      refine congrArg (List.cons _) (List.map_congr_left ?_)
      intro other ho
      rw [if_neg]
      intro h
      exact hnew (List.mem_map.mpr ⟨other, ho, h⟩)
    · have hr : name ∈ rest.map (·.name) := (List.mem_cons.mp hm).resolve_left (Ne.symm hf)
      rw [if_neg hf, if_neg hf, ih hn hr]

variable {set : PlanSet} {plan : StructPlan} {member : MemberPlan} {layout : Layout}
  {tree : Tree BlockId} {heap : Heap} {given : MemberPlan → Option (Tree Unit)}
  {next : Option Handle}

theorem Owned.blocks_eq_nil {ownership : Ownership} {nested : Option StructPlan}
    (h : Owned set ownership nested tree) (hr : ownership.releases = false) :
    tree.blocks = [] := by
  cases h with
  | scalar => rfl
  | _ => cases hr

theorem OwnedStruct.put {name : String} (h : OwnedStruct set plan layout)
    (hm : name ∈ layout.names)
    (ho : ∀ member ∈ plan.owningMembers, member.name = name →
      Owned set member.ownership (set.nestedPlan? member.marshal) tree)
    (hb : name ∉ plan.owningMembers.map (·.name) → tree.blocks = []) :
    OwnedStruct set plan (layout.put name tree) := by
  obtain ⟨members, names, slots, others⟩ := h
  refine .fields members ?_ ?_ ?_
  · rwa [StructTree.names_put_of_mem tree hm]
  · intro entry he member hmember hname
    rcases Entries.mem_put names he with rfl | ⟨he, -⟩
    · exact ho member hmember hname
    · exact slots entry he member hmember hname
  · intro entry he hn
    rcases Entries.mem_put names he with rfl | ⟨he, -⟩
    · exact hb hn
    · exact others entry he hn

/-- The slot of a member that is still as it was reset. -/
def Pending (set : PlanSet) (member : MemberPlan) (layout : Layout) : Prop :=
  ∃ init, Entries.get? layout.fields member.name = some (set.initValue init).tree ∧
    ∀ name, init = .embedded name → member.marshal = .nested name false

theorem Pending.put {name : String} (h : Pending set member layout) (hn : name ≠ member.name) :
    Pending set member (layout.put name tree) := by
  obtain ⟨init, hg, hi⟩ := h
  exact ⟨init, (Entries.get?_put_of_ne _ tree hn).trans hg, hi⟩

/-- What filling a member does: the error leaves everything alone, or comes when a tree is in the
slot. The tree owns the blocks allocated for it, and without an error it reads as it should. -/
inductive MemberFilled (set : PlanSet) (member : MemberPlan) (given : Option (Tree Unit))
    (heap : Heap) (layout : Layout) : Filled → Prop where
  | unchanged {error?} (reads : error? = none → given = none) :
    MemberFilled set member given heap layout ⟨heap, layout.native, error?⟩
  | attached {tree : Tree BlockId} {blocks error?}
    (owned : Owned set member.ownership (set.nestedPlan? member.marshal) tree)
    (found : tree.blocks.Perm (Heap.numbered heap.slots.length blocks))
    (reads : error? = none → given = some tree.image) :
    MemberFilled set member given heap layout
      ⟨heap.extend blocks, (layout.attach member tree).native, error?⟩

theorem MemberFilled.refused {given : Option (Tree Unit)} {error : DecodeError} :
    MemberFilled set member given heap layout ⟨heap, layout.native, some error⟩ :=
  .unchanged nofun

inductive StructFilled (set : PlanSet) (plan : StructPlan) (image : Image) (heap : Heap) :
    Filled → Prop where
  | intro {layout : Layout} {blocks error?}
    (owned : OwnedStruct set plan layout)
    (found : layout.blocks.Perm (Heap.numbered heap.slots.length blocks))
    (reads : error? = none → layout.image = image) :
    StructFilled set plan image heap ⟨heap.extend blocks, layout.native, error?⟩

/-- A structure whose members `done` are filled and whose members `rest` are not. -/
structure Partway (set : PlanSet) (plan : StructPlan) (next : Option Handle)
    (given : MemberPlan → Option (Tree Unit)) (start : Nat) (done rest : List MemberPlan)
    (layout : Layout) (blocks : List HeapBlock) : Prop where
  members : plan.members = done ++ rest
  owned : OwnedStruct set plan layout
  found : layout.blocks.Perm (Heap.numbered start blocks)
  pending : ∀ member ∈ rest, Pending set member layout
  reads : layout.image = ⟨plan.name, next, plan.fields.map fun field =>
    (field.name, set.fieldImage done given field)⟩

theorem Partway.names {start : Nat} {done rest : List MemberPlan} {blocks : List HeapBlock}
    (h : Partway set plan next given start done rest layout blocks) :
    layout.names = plan.fields.map (·.name) := by
  have := congrArg (fun value : Image => value.fields.map Prod.fst) h.reads
  simpa [StructTree.image_eq, StructTree.names, Entries.keys, Function.comp_def] using this

theorem fieldImage_fresh {done : List MemberPlan} {field : FieldPlan}
    (hn : field.name ∉ done.map (·.name))
    (hl : ∀ other ∈ done, ∀ length, other.length = some length → length.name ≠ field.name) :
    set.fieldImage done given field = (set.initValue field.init).tree := by
  have hfind : done.find? (fun other => other.name == field.name) = none := by
    refine List.find?_eq_none.mpr fun other ho he => hn ?_
    exact List.mem_map.mpr ⟨other, ho, by simpa using he⟩
  have hcount : PlanSet.countGiven done given field.name = none := by
    refine List.findSome?_eq_none_iff.mpr fun other ho => ?_
    cases hlength : other.length with
    | none => rfl
    | some length =>
      cases (given other).bind Tree.count? with
      | none => rfl
      | some count => exact if_neg (hl other (List.mem_reverse.mp ho) length hlength)
  unfold PlanSet.fieldImage
  rw [hfind, hcount]
  rfl

/-- Filling one more member changes its own field and the length it counts in. -/
theorem fieldImage_concat {done : List MemberPlan} {field : FieldPlan}
    (hnew : member.name ∉ done.map (·.name))
    (hl : ∀ length, member.length = some length →
      length.name ∉ done.map (·.name) ∧ length.name ≠ member.name) :
    set.fieldImage (done ++ [member]) given field =
      if field.name = member.name then
        (given member).getD (set.initValue field.init).tree
      else
        match member.length, (given member).bind Tree.count? with
        | some length, some count =>
          if length.name = field.name then (NativeValue.ofCount length.type count).tree
          else set.fieldImage done given field
        | _, _ => set.fieldImage done given field := by
  have hfind : ∀ name, name ∉ done.map (·.name) →
      done.find? (fun other => other.name == name) = none := by
    intro name hn
    refine List.find?_eq_none.mpr fun other ho he => hn ?_
    exact List.mem_map.mpr ⟨other, ho, by simpa using he⟩
  unfold PlanSet.fieldImage
  dsimp only
  rw [List.find?_append]
  by_cases hf : field.name = member.name
  · rw [if_pos hf, hf, hfind _ hnew]
    simp
  · have hm : (member.name == field.name) = false := by simpa using Ne.symm hf
    have hone : [member].find? (fun other => other.name == field.name) = none := by
      simp [hm]
    rw [if_neg hf, hone, Option.or_none]
    cases hd : done.find? fun other => other.name == field.name with
    | some other =>
      -- a field that counts is not the field of a member
      cases hlength : member.length with
      | none => rfl
      | some length =>
        have hne : length.name ≠ field.name := by
          intro he
          have := hfind _ (hl length hlength).1
          rw [he, hd] at this
          cases this
        cases (given member).bind Tree.count? with
        | none => rfl
        | some count => simp [hne]
    | none =>
      simp only [PlanSet.countGiven, List.reverse_append, List.reverse_singleton,
        List.singleton_append, List.findSome?_cons]
      cases member.length with
      | none => rfl
      | some length =>
        cases (given member).bind Tree.count? with
        | none => rfl
        | some count =>
          by_cases he : length.name = field.name <;> simp [he]

theorem StructTree.blocks_put_of_nil {name : String} {old : Tree BlockId}
    (hg : Entries.get? layout.fields name = some old) (ho : old.blocks = []) :
    (layout.put name tree).blocks.Perm (layout.blocks ++ tree.blocks) := by
  have := blocks_put_perm tree hg
  rwa [ho, List.append_nil] at this

variable {start : Nat} {done rest : List MemberPlan} {blocks more : List HeapBlock}

namespace Partway

theorem mem_members (h : Partway set plan next given start done (member :: rest) layout blocks) :
    member ∈ plan.members := by
  rw [h.members]
  exact List.mem_append_right _ List.mem_cons_self

theorem mem_names (hp : plan.Coherent)
    (h : Partway set plan next given start done (member :: rest) layout blocks) :
    member.name ∈ layout.names := by
  obtain ⟨field, hf, hname⟩ := hp.slot member h.mem_members
  rw [h.names, ← hname]
  exact List.mem_map_of_mem hf

theorem fresh (hp : plan.Coherent)
    (h : Partway set plan next given start done (member :: rest) layout blocks) :
    member.name ∉ done.map (·.name) ∧ (∀ other ∈ rest, member.name ≠ other.name) ∧
      ∀ length, member.length = some length → length.name ∈ layout.names ∧
        length.name ∉ plan.members.map (·.name) := by
  have hn := hp.members
  rw [h.members, List.map_append, List.map_cons] at hn
  obtain ⟨-, hrest, hdisjoint⟩ := List.nodup_append.mp hn
  refine ⟨fun hm => hdisjoint _ hm _ List.mem_cons_self rfl, ?_, ?_⟩
  · intro other ho he
    exact (List.nodup_cons.mp hrest).1 (List.mem_map.mpr ⟨other, ho, he.symm⟩)
  · intro length hl
    rw [h.names]
    exact hp.length member h.mem_members length hl

theorem length_fresh (hp : plan.Coherent)
    (h : Partway set plan next given start done (member :: rest) layout blocks)
    (length : LengthField) (hl : member.length = some length) :
    length.name ∉ done.map (·.name) ∧ length.name ≠ member.name := by
  have hn := (hp.length member h.mem_members length hl).2
  rw [h.members, List.map_append, List.map_cons, List.mem_append, List.mem_cons] at hn
  exact ⟨fun hm => hn (Or.inl hm), fun he => hn (Or.inr (Or.inl he))⟩

theorem put (hp : plan.Coherent)
    (h : Partway set plan next given start done (member :: rest) layout blocks)
    (ho : Owned set member.ownership (set.nestedPlan? member.marshal) tree) :
    OwnedStruct set plan (layout.put member.name tree) ∧
      (layout.put member.name tree).blocks.Perm (layout.blocks ++ tree.blocks) := by
  constructor
  · refine h.owned.put (h.mem_names hp) ?_ ?_
    · intro other hm hname
      have hsame : other = member := List.inj_on_of_nodup_map hp.members
        (List.mem_filter.mp hm).1 h.mem_members hname
      rwa [hsame]
    · intro hn
      apply ho.blocks_eq_nil
      by_contra hr
      exact hn (List.mem_map_of_mem (List.mem_filter.mpr ⟨h.mem_members, by simpa using hr⟩))
  · obtain ⟨init, hg, -⟩ := h.pending member List.mem_cons_self
    exact StructTree.blocks_put_of_nil hg (NativeValue.blocks_tree _)

theorem put_length {name : String} {value : NativeValue} (h : OwnedStruct set plan layout)
    (hm : name ∈ layout.names) (hn : name ∉ plan.members.map (·.name)) :
    OwnedStruct set plan (layout.put name value.tree) ∧
      (layout.put name value.tree).blocks.Perm layout.blocks := by
  have hb : (value.tree : Tree BlockId).blocks = [] := NativeValue.blocks_tree value
  have howning : name ∉ plan.owningMembers.map (·.name) := fun hm =>
    hn ((List.filter_sublist.map _).subset hm)
  constructor
  · exact h.put hm (fun other ho hname => absurd (List.mem_map.mpr ⟨other, ho, hname⟩) howning)
      fun _ => hb
  · obtain ⟨old, hg⟩ := Entries.get?_of_mem_keys hm
    have hold : old.blocks = [] := by
      obtain ⟨-, -, -, others⟩ := h
      exact others (name, old) (Entries.mem_of_get? hg) howning
    have hperm : (layout.put name value.tree).blocks.Perm
        (layout.blocks ++ (value.tree : Tree BlockId).blocks) :=
      StructTree.blocks_put_of_nil hg hold
    rwa [hb, List.append_nil] at hperm

theorem attach_owned (hp : plan.Coherent)
    (h : Partway set plan next given start done (member :: rest) layout blocks)
    (ho : Owned set member.ownership (set.nestedPlan? member.marshal) tree) :
    OwnedStruct set plan (layout.attach member tree) ∧
      (layout.attach member tree).blocks.Perm (layout.blocks ++ tree.blocks) := by
  have hput := h.put hp ho
  unfold StructTree.attach
  cases hl : member.length with
  | none => exact hput
  | some length =>
    cases tree.count? with
    | none => exact hput
    | some count =>
      obtain ⟨hm, hn⟩ := (h.fresh hp).2.2 length hl
      rw [← StructTree.names_put_of_mem tree (h.mem_names hp)] at hm
      obtain ⟨howned, hfound⟩ := put_length hput.1 hm hn
      exact ⟨howned, hfound.trans hput.2⟩

theorem attach_found (hp : plan.Coherent)
    (h : Partway set plan next given start done (member :: rest) layout blocks)
    (ho : Owned set member.ownership (set.nestedPlan? member.marshal) tree)
    (hf : tree.blocks.Perm (Heap.numbered (start + blocks.length) more)) :
    (layout.attach member tree).blocks.Perm (Heap.numbered start (blocks ++ more)) := by
  rw [Heap.numbered_append]
  exact (h.attach_owned hp ho).2.trans (h.found.append hf)

theorem attach_reads (hp : plan.Coherent)
    (h : Partway set plan next given start done (member :: rest) layout blocks)
    (hg : given member = some tree.image) :
    (layout.attach member tree).image = ⟨plan.name, next, plan.fields.map fun field =>
      (field.name, set.fieldImage (done ++ [member]) given field)⟩ := by
  obtain ⟨hnew, -, hlength⟩ := h.fresh hp
  have hl := h.length_fresh hp
  have hmem := h.names ▸ h.mem_names hp
  rw [StructTree.image_attach, h.reads]
  unfold StructTree.attach StructTree.put
  have hstep := fun field => @fieldImage_concat set member given done field hnew hl
  simp only [hg, Option.getD_some, Option.bind_some] at hstep
  cases hlen : member.length with
  | none =>
    simp only [put_map _ hp.fields hmem]
    refine congrArg (StructTree.mk plan.name next) (List.map_congr_left ?_)
    intro field _
    rw [hstep field, hlen]
  | some length =>
    cases hc : tree.image.count? with
    | none =>
      simp only [put_map _ hp.fields hmem]
      refine congrArg (StructTree.mk plan.name next) (List.map_congr_left ?_)
      intro field _
      rw [hstep field, hlen, hc]
    | some count =>
      have hmem' := h.names ▸ (hlength length hlen).1
      simp only [put_map _ hp.fields hmem, put_map _ hp.fields hmem']
      refine congrArg (StructTree.mk plan.name next) (List.map_congr_left ?_)
      intro field _
      rw [hstep field, hlen, hc]
      have hne := (hl length hlen).2
      by_cases hf : field.name = member.name
      · have hnl : field.name ≠ length.name := fun he => hne (he.symm.trans hf)
        rw [if_pos hf, if_neg hnl, if_pos hf]
      · rw [if_neg hf, if_neg hf]
        by_cases he : field.name = length.name
        · rw [if_pos he]
          exact congrArg _ (if_pos he.symm).symm
        · rw [if_neg he]
          exact congrArg _ (if_neg (Ne.symm he)).symm

theorem attach_pending (hp : plan.Coherent)
    (h : Partway set plan next given start done (member :: rest) layout blocks) :
    ∀ other ∈ rest, Pending set other (layout.attach member tree) := by
  intro other ho
  obtain ⟨-, hrest, hlength⟩ := h.fresh hp
  have hput : Pending set other (layout.put member.name tree) :=
    (h.pending other (List.mem_cons_of_mem _ ho)).put (hrest other ho)
  unfold StructTree.attach
  cases hl : member.length with
  | none => exact hput
  | some length =>
    cases tree.count? with
    | none => exact hput
    | some count =>
      refine hput.put fun he => (hlength length hl).2 ?_
      rw [he, h.members]
      exact List.mem_map_of_mem (List.mem_append_right _ (List.mem_cons_of_mem _ ho))

theorem attach (hp : plan.Coherent)
    (h : Partway set plan next given start done (member :: rest) layout blocks)
    (ho : Owned set member.ownership (set.nestedPlan? member.marshal) tree)
    (hf : tree.blocks.Perm (Heap.numbered (start + blocks.length) more))
    (hg : given member = some tree.image) :
    Partway set plan next given start (done ++ [member]) rest (layout.attach member tree)
      (blocks ++ more) where
  members := by rw [h.members, List.append_assoc, List.singleton_append]
  owned := (h.attach_owned hp ho).1
  found := h.attach_found hp ho hf
  pending := h.attach_pending hp
  reads := h.attach_reads hp hg

theorem skip (hp : plan.Coherent)
    (h : Partway set plan next given start done (member :: rest) layout blocks)
    (hg : given member = none) :
    Partway set plan next given start (done ++ [member]) rest layout blocks where
  members := by rw [h.members, List.append_assoc, List.singleton_append]
  owned := h.owned
  found := h.found
  pending := fun other ho => h.pending other (List.mem_cons_of_mem _ ho)
  reads := by
    have hnew := (h.fresh hp).1
    rw [h.reads]
    refine congrArg (StructTree.mk plan.name next) (List.map_congr_left ?_)
    intro field _
    rw [fieldImage_concat hnew (h.length_fresh hp), hg]
    by_cases hf : field.name = member.name
    · rw [if_pos hf]
      refine congrArg _ (fieldImage_fresh (hf ▸ hnew) ?_)
      intro other ho length hlen he
      have hmem : other ∈ plan.members := by
        rw [h.members]
        exact List.mem_append_left _ ho
      refine (hp.length other hmem length hlen).2 ?_
      rw [he, hf]
      exact List.mem_map_of_mem h.mem_members
    · rw [if_neg hf]
      cases member.length <;> rfl

end Partway

/-- Filling all members of a reset structure. The invariant is `Partway`, over the members filled
so far. -/
theorem fillMembers_filled {fill : MemberPlan → Fill} (hp : plan.Coherent)
    (hfill : ∀ member ∈ plan.members, ∀ heap layout, Pending set member layout →
      MemberFilled set member (given member) heap layout (fill member heap layout.native))
    (h : Partway set plan next given heap.slots.length done rest layout blocks) :
    StructFilled set plan (set.structImage plan next given) heap
      (fillMembers fill rest (heap.extend blocks) layout.native) := by
  induction rest generalizing done layout blocks with
  | nil =>
    have hdone : plan.members = done := by simpa using h.members
    refine .intro h.owned h.found ?_
    intro _
    rw [h.reads, ← hdone]
    rfl
  | cons member rest ih =>
    have hmember := hfill member h.mem_members (heap.extend blocks) layout
      (h.pending member List.mem_cons_self)
    rw [fillMembers]
    generalize fill member (heap.extend blocks) layout.native = filled at hmember ⊢
    cases hmember with
    | @unchanged error? reads =>
      cases error? with
      | none => exact ih (h.skip hp (reads rfl))
      | some error => exact .intro h.owned h.found nofun
    | @attached tree more error? owned found reads =>
      rw [Heap.length_slots_extend] at found
      rw [Heap.extend_extend]
      cases error? with
      | none => exact ih (h.attach hp owned found (reads rfl))
      | some error => exact .intro (h.attach_owned hp owned).1 (h.attach_found hp owned found) nofun

def PlanSet.resetLayout (set : PlanSet) (plan : StructPlan) (next : Option Handle) : Layout :=
  ⟨plan.name, next, plan.fields.map fun field => (field.name, (set.initValue field.init).tree)⟩

theorem PlanSet.blocks_resetLayout (set : PlanSet) (plan : StructPlan) (next : Option Handle) :
    (set.resetLayout plan next).blocks = [] := by
  rw [StructTree.blocks_eq]
  apply List.flatMap_eq_nil_iff.mpr
  intro entry he
  obtain ⟨field, -, rfl⟩ := List.mem_map.mp he
  exact NativeValue.blocks_tree _

namespace PlanSet.Coherent

theorem tree_reset (hs : set.Coherent) (hm : plan ∈ set.plans) :
    (set.reset plan).tree = set.resetLayout plan none := by
  rw [NativeStruct.tree_eq, hs.reset_eq hm, List.map_map]
  rfl

theorem native_resetLayout (hs : set.Coherent) (hm : plan ∈ set.plans) (next : Option Handle) :
    (set.resetLayout plan next).native = { set.reset plan with nextInChain := next } := by
  have h := NativeStruct.native_tree _ (hs.pointers_reset plan hm)
  rw [hs.tree_reset hm, StructTree.native_eq] at h
  rw [← h, StructTree.native_eq]
  rfl

theorem owned_resetLayout (hs : set.Coherent) (hm : plan ∈ set.plans) (next : Option Handle) :
    OwnedStruct set plan (set.resetLayout plan next) := by
  have h := hs.owned_reset plan hm
  rw [hs.tree_reset hm] at h
  obtain ⟨members, names, slots, others⟩ := h
  exact .fields members names slots others

theorem partway_resetLayout (hs : set.Coherent) (hm : plan ∈ set.plans) (next : Option Handle)
    (start : Nat) :
    Partway set plan next given start [] plan.members (set.resetLayout plan next) [] where
  members := rfl
  owned := hs.owned_resetLayout hm next
  found := by
    rw [blocks_resetLayout]
    exact List.Perm.refl _
  pending := by
    intro member hmember
    have hp := hs.plans plan hm
    obtain ⟨field, hf, hname⟩ := hp.slot member hmember
    refine ⟨field.init, ?_, fun name hi => hp.embedded member hmember field hf hname name hi⟩
    have hin : (field.name, (set.initValue field.init).tree) ∈
        (set.resetLayout plan next).fields := List.mem_map.mpr ⟨field, hf, rfl⟩
    have hn : (Entries.keys (set.resetLayout plan next).fields).Nodup := by
      rw [Entries.keys, resetLayout, List.map_map]
      exact hp.fields
    have := Entries.get?_of_mem hn hin
    rwa [hname] at this
  reads := by
    rw [StructTree.image_eq, resetLayout, List.map_map]
    refine congrArg (StructTree.mk plan.name next) (List.map_congr_left ?_)
    intro field _
    rw [fieldImage_fresh (by simp) (by simp), Function.comp_apply, NativeValue.image_tree]

theorem fillMembers_reset {fill : MemberPlan → Fill} (hs : set.Coherent)
    (hm : plan ∈ set.plans) (next : Option Handle) (heap : Heap)
    (hfill : ∀ member ∈ plan.members, ∀ heap layout, Pending set member layout →
      MemberFilled set member (given member) heap layout (fill member heap layout.native)) :
    StructFilled set plan (set.structImage plan next given) heap
      (fillMembers fill plan.members heap { set.reset plan with nextInChain := next }) := by
  have := fillMembers_filled (hs.plans plan hm) hfill
    (hs.partway_resetLayout hm next heap.slots.length)
  rwa [Heap.extend_nil, hs.native_resetLayout hm] at this

end PlanSet.Coherent

end DescriptorMarshal
