import DescriptorMarshal.Proofs.Atomicity
import DescriptorMarshal.Proofs.Ownership

/-!
Runs of decodes and destroys in any order, starting from an empty context. The invariant is that
the layouts of the structures that are held partition the live blocks: a decode adds a layout of
new blocks, a destroy takes one layout away, and no step touches the blocks of another.
-/

namespace DescriptorMarshal

abbrev PlanSet.Codec (set : PlanSet) := { plan : StructPlan // plan ∈ set.plans }

structure Session (set : PlanSet) where
  context : Context
  /-- The structures decoded and not destroyed yet, each with the codec that decoded it. -/
  held : List (set.Codec × NativeStruct)

inductive Request (set : PlanSet) where
  | decode (codec : set.Codec) (value : HostValue) (next : Option Handle)
  /-- Destroys the structure held at this index, with its own codec. -/
  | destroy (index : Nat)

namespace Session

variable {set : PlanSet} {s : Session set}

def initial (set : PlanSet) : Session set := ⟨.empty, []⟩

/-- A structure that is decoded is held until it is destroyed, which it can be only once. -/
def next (s : Session set) : Request set → Session set
  | .decode codec value chain =>
    match set.decode codec.1 value chain s.context with
    | (.ok native, context) => ⟨context, s.held ++ [(codec, native)]⟩
    | (.error _, context) => ⟨context, s.held⟩
  | .destroy index =>
    match s.held[index]? with
    | some (codec, native) =>
      ⟨{ s.context with heap := set.destroy codec.1 native s.context.heap },
        s.held.eraseIdx index⟩
    | none => s

inductive Reachable : Session set → Prop where
  | initial : Reachable (initial set)
  | next {before : Session set} (h : Reachable before) (request : Request set) :
    Reachable (before.next request)

/-- The pointers in all slots: those of the structures held and those of the live blocks. -/
def pointers (s : Session set) : List BlockId :=
  s.held.flatMap (fun entry => entry.2.pointers) ++
    s.context.heap.blocks.flatMap fun entry => entry.2.pointers

/-- Live blocks and structures held fit together. -/
structure Sound (s : Session set) : Prop where
  no_faults : s.context.heap.faults = []
  one_owner : ∀ id block, s.context.heap.get? id = some block →
    ∃! index : Nat, ∃ entry, s.held[index]? = some entry ∧ s.context.heap.Owns entry.2 id
  one_slot : ∀ id block, s.context.heap.get? id = some block → s.pointers.count id = 1
  balance : s.context.heap.allocations = s.context.heap.frees + s.context.heap.live
  /-- A step on one structure leaves alone what the others own. -/
  undisturbed : ∀ request index entry, s.held[index]? = some entry → request ≠ .destroy index →
    ∀ id, s.context.heap.Owns entry.2 id →
      (s.next request).context.heap.get? id = s.context.heap.get? id
  released : s.held = [] → s.context.heap.live = 0 ∧ ∀ id, s.context.heap.get? id = none

def blocksOf (entries : List (set.Codec × Layout)) : List (BlockId × HeapBlock) :=
  entries.flatMap fun entry => entry.2.blocks

/-- The invariant: each structure held has a layout, and the live blocks are those of the layouts,
each of exactly one. -/
structure Invariant (s : Session set) (entries : List (set.Codec × Layout)) : Prop where
  held : s.held = entries.map fun entry => (entry.1, entry.2.native)
  owned : ∀ entry ∈ entries, OwnedStruct set entry.1.1 entry.2
  distinct : ((blocksOf entries).map Prod.fst).Nodup
  live : ∀ id block, s.context.heap.get? id = some block ↔ (id, block) ∈ blocksOf entries
  no_faults : s.context.heap.faults = []
  balance : s.context.heap.allocations = s.context.heap.frees + s.context.heap.live

variable {entries : List (set.Codec × Layout)}

theorem initial_invariant (set : PlanSet) : Invariant (initial set) [] where
  held := rfl
  owned := nofun
  distinct := List.nodup_nil
  live := by
    rintro ⟨_ | number⟩ block
    · exact ⟨nofun, nofun⟩
    · simp [initial, Context.empty, Heap.empty, Heap.get?, blocksOf]
  no_faults := rfl
  balance := rfl

namespace Invariant

theorem holds (h : Invariant s entries) {entry : set.Codec × Layout} (he : entry ∈ entries) :
    s.context.heap.Holds entry.2.blocks :=
  fun block hb => (h.live block.1 block.2).mpr (List.mem_flatMap.mpr ⟨entry, he, hb⟩)

theorem decode_ok (h : Invariant s entries) {codec : set.Codec} {layout : Layout}
    {blocks : List HeapBlock} (ho : OwnedStruct set codec.1 layout)
    (hf : layout.blocks.Perm (Heap.numbered s.context.heap.slots.length blocks)) :
    Invariant ⟨{ s.context with heap := s.context.heap.extend blocks },
      s.held ++ [(codec, layout.native)]⟩ (entries ++ [(codec, layout)]) where
  held := by rw [h.held, List.map_append]; rfl
  owned := by
    intro entry he
    rcases List.mem_append.mp he with he | he
    · exact h.owned entry he
    · rw [List.mem_singleton.mp he]
      exact ho
  distinct := by
    have hids := hf.map Prod.fst
    have hsplit : blocksOf (entries ++ [(codec, layout)]) = blocksOf entries ++ layout.blocks := by
      simp [blocksOf]
    rw [hsplit, List.map_append, List.nodup_append]
    refine ⟨h.distinct, hids.nodup_iff.mpr (Heap.nodup_numbered _ _), ?_⟩
    intro id hold other hnew heq
    subst heq
    obtain ⟨old, ho, rfl⟩ := List.mem_map.mp hold
    obtain ⟨new, hn, hid⟩ := List.mem_map.mp hnew
    have hle := (Heap.number_of_get? ((h.live old.1 old.2).mpr ho)).2
    have hlt := (Heap.number_of_mem_numbered (hf.mem_iff.mp hn)).1
    rw [hid] at hlt
    omega
  live := by
    intro id block
    have hsplit : blocksOf (entries ++ [(codec, layout)]) = blocksOf entries ++ layout.blocks := by
      simp [blocksOf]
    rw [hsplit, List.mem_append, ← h.live, hf.mem_iff]
    exact Heap.get?_extend_eq_some_iff
  no_faults := h.no_faults
  balance := by
    have hb := h.balance
    show s.context.heap.allocations + blocks.length = s.context.heap.frees +
      (s.context.heap.extend blocks).live
    rw [Heap.live_extend]
    omega

theorem decode_error (h : Invariant s entries) {count : Nat} {heap : Heap}
    (hu : s.context.heap.Undone count heap) (errors : List DecodeError) :
    Invariant ⟨⟨heap, errors⟩, s.held⟩ entries where
  held := h.held
  owned := h.owned
  distinct := h.distinct
  live := fun id block => by
    show heap.get? id = some block ↔ _
    rw [hu.get?, h.live]
  no_faults := hu.faults.trans h.no_faults
  balance := by
    have hb := h.balance
    show heap.allocations = heap.frees + heap.live
    rw [hu.allocations, hu.frees, hu.live]
    omega

theorem blocksOf_perm {index : Nat} (hi : index < entries.length) :
    (blocksOf entries).Perm (entries[index].2.blocks ++ blocksOf (entries.eraseIdx index)) :=
  ((List.getElem_cons_eraseIdx_perm hi).symm.flatMap_right _)

theorem apart (h : Invariant s entries) {index : Nat} (hi : index < entries.length) :
    (entries[index].2.blocks.map Prod.fst).Nodup ∧
      ((blocksOf (entries.eraseIdx index)).map Prod.fst).Nodup ∧
      ∀ id ∈ entries[index].2.blocks.map Prod.fst,
        id ∉ (blocksOf (entries.eraseIdx index)).map Prod.fst := by
  have hn := ((blocksOf_perm hi).map Prod.fst).nodup_iff.mp h.distinct
  rw [List.map_append] at hn
  obtain ⟨hone, hrest, hdisjoint⟩ := List.nodup_append.mp hn
  exact ⟨hone, hrest, fun id hm ho => hdisjoint id hm id ho rfl⟩

theorem index_unique (h : Invariant s entries) {first second : Nat} {id : BlockId}
    (hf : first < entries.length) (hs : second < entries.length)
    (hif : id ∈ entries[first].2.blocks.map Prod.fst)
    (his : id ∈ entries[second].2.blocks.map Prod.fst) : first = second := by
  by_contra hne
  have hm : entries[second] ∈ entries.eraseIdx first :=
    List.mem_eraseIdx_iff_getElem.mpr ⟨second, hs, Ne.symm hne, rfl⟩
  obtain ⟨entry, he, rfl⟩ := List.mem_map.mp his
  exact (h.apart hf).2.2 _ hif
    (List.mem_map_of_mem (List.mem_flatMap.mpr ⟨entries[second], hm, he⟩))

theorem destroy_released (h : Invariant s entries) {index : Nat} (hi : index < entries.length) :
    Heap.Released s.context.heap (entries[index].2.blocks.map Prod.fst)
      (set.destroy entries[index].1.1 entries[index].2.native s.context.heap) := by
  have hm := List.getElem_mem hi
  exact DescriptorMarshal.destroy_released (h.owned _ hm) (h.holds hm) (h.apart hi).1

theorem destroy (h : Invariant s entries) {index : Nat} (hi : index < entries.length) :
    Invariant ⟨{ s.context with
        heap := set.destroy entries[index].1.1 entries[index].2.native s.context.heap },
      s.held.eraseIdx index⟩ (entries.eraseIdx index) := by
  have hr := h.destroy_released hi
  obtain ⟨-, hrest, hapart⟩ := h.apart hi
  refine ⟨?_, fun entry he => h.owned entry (List.mem_of_mem_eraseIdx he), hrest, ?_,
    hr.faults.trans h.no_faults, ?_⟩
  · rw [h.held, List.eraseIdx_map]
  · intro id block
    show (set.destroy _ _ s.context.heap).get? id = some block ↔ _
    rw [hr.get?]
    split
    · next hm =>
      refine ⟨nofun, ?_⟩
      intro he
      exact absurd (List.mem_map_of_mem he) (hapart _ hm)
    · next hm =>
      rw [h.live, (blocksOf_perm hi).mem_iff, List.mem_append]
      exact or_iff_right fun he => hm (List.mem_map_of_mem he)
  · have hb := h.balance
    have hl := hr.live
    show (set.destroy _ _ s.context.heap).allocations =
      (set.destroy _ _ s.context.heap).frees + (set.destroy _ _ s.context.heap).live
    rw [hr.allocations, hr.frees]
    omega

theorem next (hs : set.Coherent) (h : Invariant s entries) (request : Request set) :
    ∃ entries', Invariant (s.next request) entries' := by
  cases request with
  | decode codec value chain =>
    have hd := hs.decoded codec.2 value chain s.context
    unfold Session.next
    dsimp only
    generalize set.decode codec.1 value chain s.context = decoded at hd ⊢
    cases hd with
    | ok _ owned found _ => exact ⟨_, h.decode_ok owned found⟩
    | error undone => exact ⟨_, h.decode_error undone _⟩
  | destroy index =>
    unfold Session.next
    dsimp only
    by_cases hi : index < entries.length
    · have hget : s.held[index]? = some (entries[index].1, entries[index].2.native) := by
        rw [h.held, List.getElem?_map, List.getElem?_eq_getElem hi]
        rfl
      rw [hget]
      exact ⟨_, h.destroy hi⟩
    · have hget : s.held[index]? = none := by
        rw [h.held]
        exact List.getElem?_eq_none (by simpa using hi)
      rw [hget]
      exact ⟨entries, h⟩

theorem entry_of_held (h : Invariant s entries) {index : Nat} {entry : set.Codec × NativeStruct}
    (he : s.held[index]? = some entry) :
    ∃ hi : index < entries.length, entry = (entries[index].1, entries[index].2.native) := by
  rw [h.held, List.getElem?_map, Option.map_eq_some_iff] at he
  obtain ⟨found, hf, rfl⟩ := he
  obtain ⟨hi, rfl⟩ := List.getElem?_eq_some_iff.mp hf
  exact ⟨hi, rfl⟩

theorem owns (h : Invariant s entries) {index : Nat} {id : BlockId} (hi : index < entries.length) :
    s.context.heap.Owns entries[index].2.native id ↔
      id ∈ entries[index].2.blocks.map Prod.fst :=
  owns_iff (h.holds (List.getElem_mem hi))

theorem one_owner (h : Invariant s entries) {id : BlockId} {block : HeapBlock}
    (hl : s.context.heap.get? id = some block) :
    ∃! index : Nat, ∃ entry, s.held[index]? = some entry ∧ s.context.heap.Owns entry.2 id := by
  obtain ⟨found, hf, hb⟩ := List.mem_flatMap.mp ((h.live id block).mp hl)
  obtain ⟨index, hi, rfl⟩ := List.mem_iff_getElem.mp hf
  have hid : id ∈ entries[index].2.blocks.map Prod.fst := List.mem_map_of_mem hb
  refine ⟨index, ⟨(entries[index].1, entries[index].2.native), ?_, (h.owns hi).mpr hid⟩, ?_⟩
  · rw [h.held, List.getElem?_map, List.getElem?_eq_getElem hi]
    rfl
  · rintro other ⟨entry, he, ho⟩
    obtain ⟨hother, rfl⟩ := h.entry_of_held he
    exact h.index_unique hother hi ((h.owns hother).mp ho) hid

theorem pointers_perm (h : Invariant s entries) :
    s.pointers.Perm ((blocksOf entries).map Prod.fst) := by
  have hblocks : s.context.heap.blocks.Perm (blocksOf entries) := by
    refine (List.perm_ext_iff_of_nodup (Heap.nodup_blocks _) (.of_map _ h.distinct)).mpr ?_
    rintro ⟨id, block⟩
    rw [Heap.mem_blocks, h.live]
  have hall : (entries.flatMap (fun entry => entry.2.native.pointers) ++
      (blocksOf entries).flatMap fun entry => entry.2.pointers).Perm
        ((blocksOf entries).map Prod.fst) :=
    @pointers_flatMap_perm _ entries (fun entry => .struct entry.2.native) _
      fun entry _ => Tree.pointers_perm (.struct entry.2)
  refine List.Perm.trans ?_ hall
  rw [pointers, h.held, List.flatMap_map]
  exact (List.Perm.refl _).append (hblocks.flatMap_right _)

theorem undisturbed (hs : set.Coherent) (h : Invariant s entries) {request : Request set}
    {index : Nat} {entry : set.Codec × NativeStruct} (he : s.held[index]? = some entry)
    (hr : request ≠ .destroy index) {id : BlockId} (ho : s.context.heap.Owns entry.2 id) :
    (s.next request).context.heap.get? id = s.context.heap.get? id := by
  obtain ⟨hi, rfl⟩ := h.entry_of_held he
  have hid := (h.owns hi).mp ho
  obtain ⟨found, hf, rfl⟩ := List.mem_map.mp hid
  have hlive := h.holds (List.getElem_mem hi) found hf
  cases request with
  | decode codec value chain =>
    have hd := hs.decoded codec.2 value chain s.context
    unfold Session.next
    dsimp only
    generalize set.decode codec.1 value chain s.context = decoded at hd ⊢
    cases hd with
    | ok _ _ _ _ => exact (Heap.get?_extend_of_get? hlive).trans hlive.symm
    | error undone => exact undone.get? _
  | destroy other =>
    unfold Session.next
    dsimp only
    split
    · next codec native hget =>
      obtain ⟨hother, heq⟩ := h.entry_of_held hget
      cases heq
      have hout : found.1 ∉ entries[other].2.blocks.map Prod.fst := fun hin =>
        hr (congrArg Request.destroy (h.index_unique hother hi hin hid))
      exact ((h.destroy_released hother).get? _).trans (if_neg hout)
    · rfl

theorem sound (hs : set.Coherent) (h : Invariant s entries) : Sound s where
  no_faults := h.no_faults
  one_owner := fun _ _ hl => h.one_owner hl
  one_slot := fun id block hl => by
    rw [h.pointers_perm.count_eq, h.distinct.count]
    exact if_pos (List.mem_map_of_mem ((h.live id block).mp hl))
  balance := h.balance
  undisturbed := fun _ _ _ he hr _ ho => h.undisturbed hs he hr ho
  released := fun he => by
    have hnil : entries = [] := List.map_eq_nil_iff.mp (h.held.symm.trans he)
    have hnone : ∀ id, s.context.heap.get? id = none := by
      intro id
      apply Option.eq_none_iff_forall_ne_some.mpr
      intro block hb
      have := (h.live id block).mp hb
      rw [hnil] at this
      cases this
    exact ⟨Heap.live_eq_zero hnone, hnone⟩

end Invariant

theorem reachable_invariant (hs : set.Coherent) (h : Reachable s) :
    ∃ entries, Invariant s entries := by
  induction h with
  | initial => exact ⟨[], initial_invariant set⟩
  | next _ request ih =>
    obtain ⟨entries, h⟩ := ih
    exact h.next hs request

/-- Ownership over whole runs of decodes and destroys. -/
theorem reachable_sound {options : SchemaOptions} {document : Idl.Document} {bindings : Bindings}
    (hb : Bindings.ofDocument options document = .ok bindings)
    (hd : Idl.DistinctMembers document) {s : Session bindings.plans} (h : s.Reachable) :
    s.Sound := by
  have hs := Bindings.coherent hb hd
  obtain ⟨entries, hi⟩ := reachable_invariant hs h
  exact hi.sound hs

def pairDecodes (pair label : pairPlans.Codec) : Session pairPlans :=
  ((initial pairPlans).next (.decode pair pairNull none)).next (.decode label labelWhole none)

/-- After these, the pair is destroyed and another decode fails. -/
def pairRun (pair label : pairPlans.Codec) : Session pairPlans :=
  ((pairDecodes pair label).next (.destroy 0)).next (.decode pair pairBroken none)

theorem reachable_sound_pair : ∃ schema pair label,
    Bindings.ofDocument .standard pairDocument = .ok ⟨schema, pairPlans⟩ ∧
    Idl.DistinctMembers pairDocument ∧
    (pairDecodes pair label).held.length = 2 ∧ (pairDecodes pair label).context.heap.live = 4 ∧
    (pairDecodes pair label).Sound ∧ (pairRun pair label).held.length = 1 ∧
    (pairRun pair label).context.errors.length = 1 ∧ (pairRun pair label).Sound := by
  obtain ⟨schema, hb⟩ := pair_bindings
  have hpair : pairPlan ∈ pairPlans.plans := by decide
  have hlabel : labelPlan ∈ pairPlans.plans := by decide
  have hdecodes : (pairDecodes ⟨pairPlan, hpair⟩ ⟨labelPlan, hlabel⟩).Reachable :=
    .next (.next .initial _) _
  refine ⟨schema, ⟨pairPlan, hpair⟩, ⟨labelPlan, hlabel⟩, hb, pair_distinct, rfl, rfl, ?_, rfl, rfl,
    ?_⟩
  · exact reachable_sound hb pair_distinct hdecodes
  · exact reachable_sound hb pair_distinct (.next (.next hdecodes _) _)

end Session

end DescriptorMarshal
