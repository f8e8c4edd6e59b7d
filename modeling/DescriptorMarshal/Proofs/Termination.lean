import DescriptorMarshal.Proofs.Completeness
import DescriptorMarshal.Proofs.Cycles
import DescriptorMarshal.Proofs.Reset

/-!
Resetting comes to an end. The embedding check accepts plans exactly when every structure can be
reset by first resetting those it nests by value, however deep they nest. Structures may refer to
themselves and to one another through pointers and arrays, whose fields start as null.
-/

namespace DescriptorMarshal

namespace Embedding

open Relation (TransGen ReflTransGen)

/-- Resetting the structure comes to an end with this result: what it nests by value was reset
before, each in the same way. -/
inductive Resets (plans : List StructPlan) : StructPlan → NativeStruct → Prop where
  | fields {plan : StructPlan} (fresh : StructPlan → NativeStruct)
    (nested : ∀ field ∈ plan.fields, ∀ name inner, field.init = .embedded name →
      findPlan? plans name = some inner → Resets plans inner (fresh inner)) :
    Resets plans plan (plan.fields.foldl (fun native field =>
      native.set field.name (field.init.value plans fresh)) (.empty plan.name))

variable {plans : List StructPlan} {plan : StructPlan} {native other : NativeStruct}

theorem Resets.unique (h : Resets plans plan native) (k : Resets plans plan other) :
    native = other := by
  induction h generalizing other with
  | fields fresh nested ih =>
    cases k with
    | fields fresh' nested' =>
      apply List.foldl_ext _ _ _
      intro native field hf
      rw [FieldInit.value_congr fun name inner hi hp =>
        ih field hf name inner hi hp (nested' field hf name inner hi hp)]

theorem Within.resets {depth depth' : Nat} (h : Within plans depth plan) (hd : depth ≤ depth') :
    Resets plans plan (resetWithin plans depth' plan) := by
  induction depth generalizing depth' plan with
  | zero => exact h.elim
  | succ depth ih =>
    obtain ⟨depth', rfl⟩ : ∃ d, depth' = d + 1 := ⟨depth' - 1, by omega⟩
    rw [resetWithin_succ]
    exact .fields _ fun field hf name inner hi hp =>
      ih (h field hf name inner hi hp) (Nat.le_of_succ_le_succ hd)

/-- On a cycle no reset comes to an end: it would reset the same structure again before. -/
theorem Resets.not_cycle (h : Resets plans plan native)
    (hp : findPlan? plans plan.name = some plan) :
    ¬ TransGen (Edge plans) plan.name plan.name := by
  induction h with
  | @fields plan fresh nested ih =>
    intro hcycle
    obtain ⟨inner, hedge, hback⟩ := TransGen.head'_iff.mp hcycle
    have hinner : TransGen (Edge plans) inner inner := TransGen.tail' hback hedge
    obtain ⟨outer, found, field, hf, ho, hi, hn⟩ := hedge
    rw [hp, Option.some.injEq] at ho
    subst ho
    have hname : found.name = inner := findPlan?_name hn
    subst hname
    exact ih field hf found.name found hi hn hn hinner

/-- What the check decides, and what a refusal names. -/
structure Exact (plans : List StructPlan) : Prop where
  accepts : checkEmbedding plans = .ok () ↔ Acyclic plans
  refuses : ∀ e, checkEmbedding plans = .error e → ∃ plan field, OnCycle plans plan field ∧
    e = .unsupportedShape plan.externalName field.name .selfEmbedding
  ends : checkEmbedding plans = .ok () ↔ ∀ plan ∈ plans, ∃ native, Resets plans plan native

theorem exact_of_nodup (hn : (plans.map (·.name)).Nodup) : Exact plans where
  accepts := checkEmbedding_iff hn
  refuses _ hc := onCycle_of_checkEmbedding hn hc
  ends := by
    constructor
    · intro hc plan hm
      exact ⟨_, (within_of_checkEmbedding hn hc hm).resets (Nat.le_refl _)⟩
    · intro hresets
      rw [checkEmbedding_iff hn]
      intro name hcycle
      obtain ⟨inner, ⟨plan, -, -, -, hp, -, -⟩, -⟩ := TransGen.head'_iff.mp hcycle
      have hname : plan.name = name := findPlan?_name hp
      subst hname
      obtain ⟨native, hreset⟩ := hresets plan (List.mem_of_find?_eq_some hp)
      exact hreset.not_cycle hp hcycle

end Embedding

variable {options : SchemaOptions} {document : Idl.Document} {bindings : Bindings}
  {plan : StructPlan}

/-- Every structure of a document that is accepted is reset, to what `reset` gives. -/
theorem Bindings.resets_iff (hb : Bindings.ofDocument options document = .ok bindings)
    (hp : plan ∈ bindings.plans.plans) (native : NativeStruct) :
    Embedding.Resets bindings.plans.plans plan native ↔ native = bindings.plans.reset plan := by
  obtain ⟨hs, hbuild⟩ := ofDocument_parts hb
  have hnames := PlanSet.build_names hbuild (assemble_sound hs)
  have hcheck := (PlanSet.build_parts hbuild).2
  have hreset : Embedding.Resets bindings.plans.plans plan (bindings.plans.reset plan) :=
    (Embedding.within_of_checkEmbedding hnames hcheck hp).resets (Nat.le_succ _)
  constructor
  · intro h
    exact h.unique hreset
  · rintro rfl
    exact hreset

/-- The embedding check is exact on all plans with names of their own: it refuses nothing but a
structure that leads back to itself by value, and then names a field on the cycle. So in what is
accepted every reset comes to an end. Members that point to structures, be it to their own, start
as null and are no part of a cycle. -/
theorem embedding_exact :
    (∀ plans : List StructPlan, (plans.map (·.name)).Nodup → Embedding.Exact plans) ∧
      ∀ (options : SchemaOptions) (document : Idl.Document) (bindings : Bindings),
        Bindings.ofDocument options document = .ok bindings → ∀ plan ∈ bindings.plans.plans,
          (∀ native, Embedding.Resets bindings.plans.plans plan native ↔
            native = bindings.plans.reset plan) ∧
          ∀ member ∈ plan.members, (∃ name, member.marshal = .nested name true ∨
              ∃ ofPointers, member.marshal = .nestedArray name ofPointers) →
            ∃ field ∈ plan.fields, field.name = member.name ∧ field.init = .null := by
  refine ⟨fun plans hn => Embedding.exact_of_nodup hn, ?_⟩
  intro options document bindings hb plan hp
  refine ⟨Bindings.resets_iff hb hp, ?_⟩
  rintro member hm ⟨name, hmarshal⟩
  obtain ⟨field, hf, hname, hnull, -⟩ := Bindings.exists_field hb hp hm
  refine ⟨field, hf, hname, hnull ?_⟩
  rcases hmarshal with hmarshal | ⟨ofPointers, hmarshal⟩ <;> rw [hmarshal] <;> rfl

/-- A leaf that points to the node it belongs to; and a node that has a leaf in place and points to
the next node and to its children. -/
def nodeDocument : Idl.Document :=
  [("leaf", .object [("category", .string "structure"), ("members", .array [
    .object [("name", .string "owner"), ("type", .string "node"), ("annotation", .string "const*"),
      ("optional", .bool true)]])]),
   ("node", .object [("category", .string "structure"), ("members", .array [
    .object [("name", .string "next"), ("type", .string "node"), ("annotation", .string "const*"),
      ("optional", .bool true)],
    .object [("name", .string "count"), ("type", .string "uint32_t")],
    .object [("name", .string "children"), ("type", .string "node"),
      ("annotation", .string "const*const*"), ("length", .string "count")],
    .object [("name", .string "leaf"), ("type", .string "leaf")]])])]

def nodePlan : StructPlan where
  name := "WGPUNode"
  externalName := "GPUNode"
  extensible := false
  members := [⟨"next", .optional, .nested "WGPUNode" true, .owned, none, "WGPUNode"⟩,
    ⟨"children", .required, .nestedArray "WGPUNode" true, .arrayOfPointersOwned,
      some ⟨"count", .u32⟩, "WGPUNode"⟩,
    ⟨"leaf", .required, .nested "WGPULeaf" false, .embedded, none, "WGPULeaf"⟩]
  fields := [⟨"next", "WGPUNode", .null⟩, ⟨"count", "uint32_t", .number .u32 (.integer 0)⟩,
    ⟨"children", "WGPUNode", .null⟩, ⟨"leaf", "WGPULeaf", .embedded "WGPULeaf"⟩]

def leafPlan : StructPlan where
  name := "WGPULeaf"
  externalName := "GPULeaf"
  extensible := false
  members := [⟨"owner", .optional, .nested "WGPUNode" true, .owned, none, "WGPUNode"⟩]
  fields := [⟨"owner", "WGPUNode", .null⟩]

def nodePlans : PlanSet :=
  ⟨[leafPlan, nodePlan], [], [("GPULeaf", "WGPULeaf"), ("GPUNode", "WGPUNode")]⟩

theorem node_bindings : ∃ schema,
    Bindings.ofDocument .standard nodeDocument = .ok ⟨schema, nodePlans⟩ := by
  obtain ⟨schema, hs, hplans, htables⟩ : ∃ schema,
      assemble .standard nodeDocument = .ok schema ∧
        schema.structures.mapM (buildPlan schema) = .ok nodePlans.plans ∧
          (schema.enums ++ schema.bitmasks).map NameTable.ofValueSet = nodePlans.tables :=
    ⟨_, rfl, rfl, rfl⟩
  have hcheck : checkEmbedding nodePlans.plans = .ok () := by
    simp [checkEmbedding, Embedding.check, Embedding.walk, Embedding.enter, Embedding.isOpen,
      nodePlans, nodePlan, leafPlan, bind, Except.bind, pure, Except.pure]
  exact ⟨schema, Bindings.ofDocument_of_parts hs hplans htables rfl hcheck⟩

/-- The same with the node in place in its leaf, so that each holds the other. -/
def knotPlans : List StructPlan :=
  [{ leafPlan with fields := [⟨"owner", "WGPUNode", .embedded "WGPUNode"⟩] }, nodePlan]

theorem knot_not_acyclic : ¬ Embedding.Acyclic knotPlans := by
  have hdown : Embedding.Edge knotPlans "WGPUNode" "WGPULeaf" :=
    ⟨_, _, ⟨"leaf", "WGPULeaf", .embedded "WGPULeaf"⟩, by simp [nodePlan], rfl, rfl, rfl⟩
  have hup : Embedding.Edge knotPlans "WGPULeaf" "WGPUNode" :=
    ⟨_, _, ⟨"owner", "WGPUNode", .embedded "WGPUNode"⟩, List.mem_cons_self, rfl, rfl, rfl⟩
  exact fun hacyclic => hacyclic _ (.head hdown (.single hup))

theorem embedding_exact_node :
    (∃ bindings, Bindings.ofDocument .standard nodeDocument = .ok bindings ∧
      nodePlan ∈ bindings.plans.plans ∧
      (∀ native, Embedding.Resets bindings.plans.plans nodePlan native ↔
        native = bindings.plans.reset nodePlan) ∧
      ∃ field ∈ nodePlan.fields, field.name = "next" ∧ field.init = .null) ∧
    (knotPlans.map (·.name)).Nodup ∧
    ∃ plan field, Embedding.OnCycle knotPlans plan field ∧ checkEmbedding knotPlans =
      .error (.unsupportedShape plan.externalName field.name .selfEmbedding) := by
  constructor
  · obtain ⟨schema, hb⟩ := node_bindings
    have hm : nodePlan ∈ nodePlans.plans := by decide
    obtain ⟨hresets, hpointers⟩ := embedding_exact.2 _ _ _ hb nodePlan hm
    exact ⟨_, hb, hm, hresets, hpointers _ List.mem_cons_self ⟨_, Or.inl rfl⟩⟩
  · have hn : (knotPlans.map (·.name)).Nodup := by decide
    have hexact := embedding_exact.1 knotPlans hn
    refine ⟨hn, ?_⟩
    cases hc : checkEmbedding knotPlans with
    | ok _ => exact absurd (hexact.accepts.mp hc) knot_not_acyclic
    | error e =>
      obtain ⟨plan, field, hcycle, he⟩ := hexact.refuses e hc
      exact ⟨plan, field, hcycle, congrArg Except.error he⟩

end DescriptorMarshal
