import DescriptorMarshal.Proofs.Rendering
import DescriptorMarshal.Proofs.Statements
import DescriptorMarshal.Proofs.Symbols
import Mathlib.Data.List.Pairwise

/-!
What rendered source defines. Right inside of its namespace the source defines helper functions, a
map and a function for each table and four functions for each structure. No two records share an
external name; so two of the identifiers are the same only if one table has the name of the function
of another.
-/

namespace DescriptorMarshal

namespace Cpp

open Code

/-- Something that the source defines: what its line has before the name, the name, and what stands
between the name and the body. -/
structure Definition where
  lead : String
  name : String
  tail : String

def Definition.text (definition : Definition) : String :=
  definition.lead ++ definition.name ++ definition.tail ++ " " ++ "\x7b"

def helperDefinitions : List Definition :=
  [⟨"static bool ", "Fail", "(GPUDevice* device, Napi::Env env, const std::string& message)"⟩,
    ⟨"static std::string ", "Where", "(const std::string& root, const std::string& member)"⟩,
    ⟨"static bool ", "IsPresent", "(const Napi::Object& obj, const char* name)"⟩,
    ⟨"static bool ", "IsSet", "(const Napi::Object& obj, const char* name)"⟩,
    ⟨"static char* ", "CopyString", "(const Napi::String& value)"⟩]

def tableDefinitions (table : NameTable) : List Definition :=
  [⟨"std::unordered_map<std::string, uint32_t> ", table.externalName, " ="⟩,
    ⟨"std::string ", table.externalName ++ "ToString", s!"({table.declarationName} value)"⟩]

def decodeChain (plan : StructPlan) : String :=
  if plan.extensible then ", void* nextInChain" else ""

def structureDefinitions (plan : StructPlan) : List Definition :=
  [⟨"static void ", "Reset" ++ plan.externalName, s!"({plan.name}& descriptor)"⟩,
    ⟨"static bool ", "Fill" ++ plan.externalName, "(GPUDevice* device, const Napi::Object& obj, " ++
      plan.name ++ "& descriptor, const std::string& root, const std::string& path)"⟩,
    ⟨s!"std::optional<{plan.name}> ", "Decode" ++ plan.externalName,
      s!"(GPUDevice* device, const Napi::Value& value{decodeChain plan})"⟩,
    ⟨"void ", "Destroy" ++ plan.externalName, s!"({plan.name}& descriptor)"⟩]

def definitions (set : PlanSet) : List Definition :=
  helperDefinitions ++ set.tables.flatMap tableDefinitions ++
    set.plans.flatMap structureDefinitions

def identifiers (set : PlanSet) : List String := (definitions set).map (·.name)

/-- The lines at a depth that end with an opening brace. -/
def openers (depth : Nat) (code : Code) : List String :=
  code.filterMap fun inner =>
    if inner.depth = depth ∧ ends "\x7b" inner.text = true then some inner.text else none

section

variable {set : PlanSet} {plan : StructPlan} {table : NameTable} {code body after : Code}
  {header text : String} {depth : Nat}

theorem openers_append (depth : Nat) (code after : Code) :
    openers depth (code ++ after) = openers depth code ++ openers depth after :=
  List.filterMap_append

theorem openers_indent_succ (depth : Nat) (code : Code) :
    openers (depth + 1) (indent code) = openers depth code := by
  unfold openers indent
  rw [List.filterMap_map]
  simp only [Function.comp_def, Nat.add_right_cancel_iff]

theorem openers_indent_zero (code : Code) : openers 0 (indent code) = [] := by
  unfold openers indent
  rw [List.filterMap_map]
  simp

theorem openers_line_succ (depth : Nat) (text : String) : openers (depth + 1) (line text) = [] := by
  simp [openers, line]

theorem openers_line_brace (text : String) :
    openers 0 (line (text ++ "\x7b")) = [text ++ "\x7b"] := by
  have he : ends "\x7b" (text ++ "\x7b") = true :=
    List.isSuffixOf_iff_suffix.mpr (Closes.literal text ['\x7b'])
  simp [openers, line, he]

theorem openers_line {last : List Char} (hc : Closes last text)
    (h : differs ['\x7b'] last.reverse = true) : openers 0 (line text) = [] := by
  have he : ends "\x7b" text = false := by
    rw [ends, ← Bool.not_eq_true, List.isSuffixOf_iff_suffix]
    exact hc.not_suffix h
  simp [openers, line, he]

theorem openers_flatMap {α : Type} (depth : Nat) (items : List α) (f : α → Code) :
    openers depth (items.flatMap f) = items.flatMap fun item => openers depth (f item) :=
  List.filterMap_flatMap

theorem openers_flatten {α : Type} {R : α → Code → Prop} {items : List α} {parts : List Code}
    {f : α → List String} (h : List.Forall₂ R items parts)
    (hr : ∀ item part, R item part → openers depth part = f item) :
    openers depth parts.flatten = items.flatMap f := by
  induction h with
  | nil => rfl
  | cons hpart _ ih =>
    rw [List.flatten_cons, List.flatMap_cons, openers_append, hr _ _ hpart, ih]

theorem openers_gap : openers 0 gap = [] := by decide

theorem openers_blockEnding (depth : Nat) (header : String) (body : Code) (ending : String) :
    openers (depth + 1) (blockEnding header body ending) = openers depth body := by
  rw [blockEnding, openers_append, openers_append, openers_line_succ, openers_indent_succ,
    openers_line_succ, List.nil_append, List.append_nil]

theorem openers_header {ending : String} (he : openers 0 (line ("\x7d" ++ ending)) = [])
    (header : String) (body : Code) :
    openers 0 (blockEnding header body ending) = [header ++ "\x7b"] := by
  rw [blockEnding, openers_append, openers_append, openers_line_brace, openers_indent_zero, he]
  rfl

theorem openers_block (header : String) (body : Code) :
    openers 0 (block header body) = [header ++ " " ++ "\x7b"] :=
  openers_header (by decide) (header ++ " ") body

theorem openers_function (header : String) (body : Code) :
    openers 0 (block header body ++ gap) = [header ++ " " ++ "\x7b"] := by
  rw [openers_append, openers_block, openers_gap, List.append_nil]

theorem openers_helpers : openers 0 helpers = helperDefinitions.map Definition.text := by
  unfold helpers
  simp only [openers_append, openers_gap, openers_block]
  rfl

theorem Definition.text_eq (lead function name before type after : String) :
    lead ++ function ++ name ++ before ++ type ++ after ++ " " ++ "\x7b" =
      Definition.text ⟨lead, function ++ name, before ++ type ++ after⟩ := by
  simp only [Definition.text, String.append_assoc]

theorem decodeHeader_text (plan : StructPlan) :
    decodeHeader plan "" ++ " " ++ "\x7b" =
      Definition.text ⟨s!"std::optional<{plan.name}> ", "Decode" ++ plan.externalName,
        s!"(GPUDevice* device, const Napi::Value& value{decodeChain plan})"⟩ := by
  have htext : ∀ first type second function name tail : String,
      first ++ type ++ (second ++ function) ++ name ++ tail ++ " " ++ "\x7b" =
        Definition.text ⟨first ++ type ++ second, function ++ name, tail⟩ := by
    intro first type second function name tail
    simp only [Definition.text, String.append_assoc]
  unfold decodeHeader decodeChain
  cases plan.extensible with
  | true => exact htext "std::optional<" plan.name "> " "Decode" plan.externalName _
  | false => exact htext "std::optional<" plan.name "> " "Decode" plan.externalName _

theorem fillHeader_text (plan : StructPlan) :
    fillHeader plan ++ " " ++ "\x7b" =
      Definition.text ⟨"static bool ", "Fill" ++ plan.externalName,
        "(GPUDevice* device, const Napi::Object& obj, " ++ plan.name ++
          "& descriptor, const std::string& root, const std::string& path)"⟩ :=
  (congrArg (· ++ " " ++ "\x7b") String.append_assoc.symm).trans
    (Definition.text_eq "static bool " "Fill" plan.externalName _ plan.name _)

theorem openers_defineTable (table : NameTable) :
    openers 0 (defineTable table) = (tableDefinitions table).map Definition.text := by
  have hmap : openers 0 (line ("\x7d" ++ ";")) = [] := by decide
  have hfunction : "ToString(" = "ToString" ++ "(" := rfl
  have hequals : " = " = " =" ++ " " := rfl
  unfold defineTable
  simp only [openers_append, openers_gap, openers_block, openers_header hmap]
  simp only [tableDefinitions, List.map_cons, List.map_nil, Definition.text, toString, hfunction,
    hequals, String.append_assoc, List.append_nil, List.cons_append, List.nil_append]

theorem openers_declareStatics (plan : StructPlan) : openers 0 (declareStatics plan) = [] := by
  have hreset : openers 0
      (line s!"static void Reset{plan.externalName}({plan.name}& descriptor);") = [] :=
    openers_line (Closes.literal _ _) rfl
  have hfill : openers 0 (line (fillHeader plan ++ ";")) = [] :=
    openers_line (Closes.literal _ [';']) rfl
  rw [declareStatics, openers_append, hreset, hfill]
  rfl

theorem openers_defineStructure (h : defineStructure set plan = .ok code) :
    openers 0 code = (structureDefinitions plan).map Definition.text := by
  obtain ⟨reset, hreset, h⟩ := ok_of_bind h
  obtain ⟨fill, hfill, h⟩ := ok_of_bind h
  obtain ⟨destroy, hdestroy, h⟩ := ok_of_bind h
  obtain ⟨fields, -, hreset⟩ := ok_of_bind hreset
  obtain ⟨members, -, hfill⟩ := ok_of_bind hfill
  obtain ⟨parts, -, hdestroy⟩ := ok_of_bind hdestroy
  cases hreset
  cases hfill
  cases hdestroy
  cases h
  rw [openers_append, openers_append, openers_append, defineDecode, openers_function,
    openers_function, openers_function, openers_function]
  have hreset : s!"static void Reset{plan.externalName}({plan.name}& descriptor)" ++ " " ++
      "\x7b" = _ :=
    Definition.text_eq "static void " "Reset" plan.externalName "(" plan.name "& descriptor)"
  have hdestroy : s!"void Destroy{plan.externalName}({plan.name}& descriptor)" ++ " " ++ "\x7b" =
      _ :=
    Definition.text_eq "void " "Destroy" plan.externalName "(" plan.name "& descriptor)"
  rw [hreset, fillHeader_text, decodeHeader_text, hdestroy]
  rfl

/-- The source opens the body of each definition right inside of its namespace, and no other. -/
theorem openers_sourceCode (h : sourceCode set = .ok code) :
    openers 1 code = (definitions set).map Definition.text := by
  obtain ⟨structures, hstructures, h⟩ := ok_of_bind h
  cases h
  have hlocal : ∀ file, openers 1 (includeLocal file) = [] := fun _ => openers_line_succ 0 _
  have hsystem : openers 1 (includeSystem "cstring") = [] := openers_line_succ 0 _
  have hgap : openers 1 gap = [] := openers_line_succ 0 _
  have hincludes : openers 1 ((wrapperClasses set.plans).flatMap fun className =>
      includeLocal (className ++ ".h")) = [] := by
    rw [openers_flatMap, List.flatMap_eq_nil_iff]
    exact fun className _ => hlocal _
  have htables : openers 0 (set.tables.flatMap defineTable) =
      (set.tables.flatMap tableDefinitions).map Definition.text := by
    rw [openers_flatMap, List.map_flatMap]
    simp only [openers_defineTable]
  have hstatics : openers 0 (set.plans.flatMap declareStatics) = [] := by
    rw [openers_flatMap, List.flatMap_eq_nil_iff]
    exact fun plan _ => openers_declareStatics plan
  have hplans : openers 0 structures.flatten =
      (set.plans.flatMap structureDefinitions).map Definition.text := by
    rw [openers_flatten (forall₂_of_mapM hstructures) fun _ _ => openers_defineStructure,
      List.map_flatMap]
  have hfront : openers 1 (includeLocal headerFile ++ gap ++ includeLocal "GPUDevice.h" ++
      (wrapperClasses set.plans).flatMap (fun className => includeLocal (className ++ ".h")) ++
      gap ++ includeSystem "cstring" ++ gap) = [] := by
    simp only [openers_append, hincludes, hlocal, hsystem, hgap, List.append_nil]
  have hbody : openers 0 (gap ++ helpers ++ gap ++ set.tables.flatMap defineTable ++
      set.plans.flatMap declareStatics ++ gap ++ structures.flatten) =
        (definitions set).map Definition.text := by
    simp only [openers_append, openers_gap, openers_helpers, htables, hstatics, hplans,
      definitions, List.map_append, List.append_nil, List.nil_append]
  rw [openers_append, hfront, List.nil_append]
  exact (openers_blockEnding 0 _ _ _).trans hbody

end

def helperNames : List String := ["Fail", "Where", "IsPresent", "IsSet", "CopyString"]

def tableNames (external : String) : List String := [external, external ++ "ToString"]

def structureFunctions : List String := ["Reset", "Fill", "Decode", "Destroy"]

def structureNames (external : String) : List String := structureFunctions.map (· ++ external)

theorem identifiers_eq (set : PlanSet) :
    identifiers set = helperNames ++ (set.tables.map (·.externalName)).flatMap tableNames ++
      (set.plans.map (·.externalName)).flatMap structureNames := by
  unfold identifiers definitions
  rw [List.map_append, List.map_append, List.map_flatMap, List.map_flatMap, List.flatMap_map,
    List.flatMap_map]
  rfl

section

variable {first second : List Char} {text other name : String} {tables structures : List String}

theorem Opens.ne (h : Opens first text) (k : Opens second other)
    (hd : differs first second = true) : text ≠ other := by
  rintro rfl
  exact k.not_prefix hd h

/-- Of two functions, neither name starts with the other, nor with that of a helper. -/
theorem functions_differ : ∀ function ∈ structureFunctions,
    (∀ other ∈ structureFunctions, function = other ∨
      differs function.toList other.toList = true) ∧
    ∀ helper ∈ helperNames, differs function.toList helper.toList = true := by
  decide

theorem opens_append (text other : String) : Opens text.toList (text ++ other) := by
  unfold Opens
  rw [String.toList_append]
  exact List.prefix_append _ _

theorem structureNames_nodup (name : String) : (structureNames name).Nodup := by
  refine List.Nodup.map_on ?_ (by decide)
  intro function _ other _ h
  exact (String.append_left_inj name).mp h

theorem structureNames_disjoint (h : text ≠ other) :
    (structureNames text).Disjoint (structureNames other) := by
  intro name hn ho
  obtain ⟨function, hf, rfl⟩ := List.mem_map.mp hn
  obtain ⟨function', hf', he⟩ := List.mem_map.mp ho
  rcases (functions_differ function hf).1 function' hf' with rfl | hd
  · exact h ((String.append_right_inj function).mp he).symm
  · exact (opens_append function text).ne (opens_append function' other) hd he.symm

theorem structures_nodup (h : structures.Nodup) : (structures.flatMap structureNames).Nodup :=
  List.nodup_flatMap.mpr ⟨fun name _ => structureNames_nodup name,
    h.pairwise_of_forall_ne fun _ _ _ _ => structureNames_disjoint⟩

theorem ne_toString (text : String) : text ≠ text ++ "ToString" := by
  intro h
  have := congrArg String.length h
  rw [String.length_append] at this
  have : 0 < "ToString".length := by decide
  omega

theorem mem_tableNames : name ∈ tableNames text ↔ name = text ∨ name = text ++ "ToString" := by
  rw [tableNames, List.mem_cons, List.mem_singleton]

theorem tableNames_disjoint_iff (h : text ≠ other) :
    (tableNames text).Disjoint (tableNames other) ↔
      text ≠ other ++ "ToString" ∧ other ≠ text ++ "ToString" := by
  constructor
  · intro hd
    exact ⟨fun he => hd (mem_tableNames.mpr (.inl rfl)) (mem_tableNames.mpr (.inr he)),
      fun he => hd (mem_tableNames.mpr (.inr he)) (mem_tableNames.mpr (.inl rfl))⟩
  · rintro ⟨htext, hother⟩ name hn ho
    rcases mem_tableNames.mp hn with rfl | rfl <;> rcases mem_tableNames.mp ho with he | he
    · exact h he
    · exact htext he
    · exact hother he.symm
    · exact h ((String.append_left_inj _).mp he)

theorem tables_nodup_iff (h : tables.Nodup) :
    (tables.flatMap tableNames).Nodup ↔
      ∀ text ∈ tables, ∀ other ∈ tables, text ≠ other ++ "ToString" := by
  have hself : ∀ text : String, (tableNames text).Nodup :=
    fun text => List.nodup_cons.mpr ⟨by simpa using ne_toString text, List.nodup_singleton _⟩
  rw [List.nodup_flatMap]
  constructor
  · rintro ⟨-, hdisjoint⟩ text ht other ho
    rcases eq_or_ne text other with rfl | hne
    · exact ne_toString text
    · have : Std.Symm (Function.onFun List.Disjoint tableNames) :=
        ⟨fun _ _ hd _ hleft hright => hd hright hleft⟩
      exact ((tableNames_disjoint_iff hne).mp (hdisjoint.forall ht ho hne)).1
  · intro hall
    refine ⟨fun text _ => hself text, h.pairwise_of_forall_ne fun text ht other ho hne => ?_⟩
    exact (tableNames_disjoint_iff hne).mpr ⟨hall text ht other ho, hall other ho text ht⟩

theorem opens_structureNames (h : name ∈ structureNames text) :
    ∃ function ∈ structureFunctions, Opens function.toList name := by
  obtain ⟨function, hf, rfl⟩ := List.mem_map.mp h
  exact ⟨function, hf, opens_append function text⟩

theorem opens_tableNames (h : name ∈ tableNames text) (ho : Opens first text) :
    Opens first name := by
  rcases mem_tableNames.mp h with rfl | rfl
  · exact ho
  · exact ho.append

/-- The names of helpers, tables and structures are all different unless a table has the name of
the function of another. External names all start with one lead. -/
theorem names_nodup_iff (ht : tables.Nodup) (hs : structures.Nodup)
    (ho : ∀ text ∈ tables, Opens ['G', 'P', 'U'] text) :
    (helperNames ++ tables.flatMap tableNames ++ structures.flatMap structureNames).Nodup ↔
      ∀ text ∈ tables, ∀ other ∈ tables, text ≠ other ++ "ToString" := by
  have hhelpers : ∀ helper ∈ helperNames, differs ['G', 'P', 'U'] helper.toList = true := by decide
  have hfunctions : ∀ function ∈ structureFunctions,
      differs ['G', 'P', 'U'] function.toList = true := by decide
  rw [← tables_nodup_iff ht, List.nodup_append, List.nodup_append]
  constructor
  · rintro ⟨⟨-, htables, -⟩, -, -⟩
    exact htables
  · intro htables
    have htable : ∀ name ∈ tables.flatMap tableNames, Opens ['G', 'P', 'U'] name := by
      intro name hn
      obtain ⟨text, hmem, hn⟩ := List.mem_flatMap.mp hn
      exact opens_tableNames hn (ho text hmem)
    refine ⟨⟨by decide, htables, ?_⟩, structures_nodup hs, ?_⟩
    · intro helper hh name hn
      exact ((htable name hn).ne (List.prefix_refl _) (hhelpers helper hh)).symm
    · intro name hn other ho
      obtain ⟨text, -, ho⟩ := List.mem_flatMap.mp ho
      obtain ⟨function, hf, ho⟩ := opens_structureNames ho
      rcases List.mem_append.mp hn with hn | hn
      · exact (ho.ne (List.prefix_refl _) ((functions_differ function hf).2 name hn)).symm
      · exact (htable name hn).ne ho (hfunctions function hf)

end

end Cpp

section

variable {options : SchemaOptions} {document : Idl.Document} {schema : Schema}
  {bindings : Bindings}

theorem map_filterMap_sublist {α β γ : Type} {part : α → Option β} {key : α → γ} {name : β → γ}
    (h : ∀ item result, part item = some result → name result = key item) (items : List α) :
    ((items.filterMap part).map name).Sublist (items.map key) := by
  induction items with
  | nil => exact .slnil
  | cons item rest ih =>
    rw [List.filterMap_cons]
    cases hp : part item with
    | none => exact ih.cons _
    | some result =>
      rw [List.map_cons, List.map_cons, h item result hp]
      exact ih.cons_cons _

theorem valueSets_nodup (h : assemble options document = .ok schema) :
    ((schema.enums ++ schema.bitmasks).map (·.header.declarationName)).Nodup := by
  have hnodes := assemble_nodup h
  have henums : (schema.enums.map (·.header.declarationName)).Sublist
      (schema.nodes.map (·.header.declarationName)) := by
    refine map_filterMap_sublist (fun node result hp => ?_) schema.nodes
    split at hp <;> cases hp
    rfl
  have hbitmasks : (schema.bitmasks.map (·.header.declarationName)).Sublist
      (schema.nodes.map (·.header.declarationName)) := by
    refine map_filterMap_sublist (fun node result hp => ?_) schema.nodes
    split at hp <;> cases hp
    rfl
  rw [List.map_append, List.nodup_append]
  refine ⟨hnodes.sublist henums, hnodes.sublist hbitmasks, ?_⟩
  -- one name would be the name of two nodes, one of each kind
  rintro name he other hb rfl
  obtain ⟨values, hv, rfl⟩ := List.mem_map.mp he
  obtain ⟨flags, hf, hname⟩ := List.mem_map.mp hb
  obtain ⟨node, hnode, hpart⟩ := List.mem_filterMap.mp hv
  obtain ⟨second, hsecond, hpart'⟩ := List.mem_filterMap.mp hf
  split at hpart <;> cases hpart
  split at hpart' <;> cases hpart'
  cases List.inj_on_of_nodup_map hnodes hnode hsecond hname.symm

theorem Bindings.tables_nodup (h : Bindings.ofDocument options document = .ok bindings) :
    (bindings.plans.tables.map (·.externalName)).Nodup := by
  obtain ⟨hs, hb⟩ := ofDocument_parts h
  have hnames : (bindings.plans.tables.map (·.declarationName)).Nodup := by
    rw [PlanSet.tables_eq hb, List.map_map]
    exact valueSets_nodup hs
  refine List.Nodup.map_on (fun table ht other ho he => ?_) hnames.of_map
  exact List.inj_on_of_nodup_map hnames ht ho
    (Bindings.names_agree h (PlanSet.mem_names_table ht) (PlanSet.mem_names_table ho) he)

theorem Bindings.plans_nodup (h : Bindings.ofDocument options document = .ok bindings) :
    (bindings.plans.plans.map (·.externalName)).Nodup := by
  obtain ⟨hs, hb⟩ := ofDocument_parts h
  have hnames := PlanSet.build_names hb (assemble_sound hs)
  refine List.Nodup.map_on (fun plan hp other ho he => ?_) hnames.of_map
  exact List.inj_on_of_nodup_map hnames hp ho
    (Bindings.names_agree h (PlanSet.mem_names_plan hp) (PlanSet.mem_names_plan ho) he)

theorem Bindings.tables_open (h : Bindings.ofDocument options document = .ok bindings)
    (hn : options.naming = .standard) {table : NameTable} (ht : table ∈ bindings.plans.tables) :
    Cpp.Opens ['G', 'P', 'U'] table.externalName := by
  obtain ⟨text, he⟩ := Bindings.mem_names h (PlanSet.mem_names_table ht)
  have hname : table.externalName = options.naming.externalName text := (Prod.ext_iff.mp he).1
  rw [hname, hn]
  exact (Cpp.Opens.literal _).append

theorem exists_sourceCode (h : Bindings.ofDocument options document = .ok bindings)
    (hn : options.naming = .standard) : ∃ code, Cpp.sourceCode bindings.plans = .ok code := by
  have hapart : options.naming.Apart := hn ▸ Naming.standard_apart
  obtain ⟨code, hcode, -⟩ := Cpp.sourceCode_direct
    ((Bindings.resolves_iff h).mpr (Bindings.unambiguous h (.inl hapart)))
  exact ⟨code, hcode⟩

/-- With the standard leads, the source of every document renders, and what it defines in its
namespace has as many names, except when one table is called what the function of another is. -/
theorem identifiers_nodup_iff (h : Bindings.ofDocument options document = .ok bindings)
    (hn : options.naming = .standard) :
    ∃ code, Cpp.sourceCode bindings.plans = .ok code ∧
      Cpp.render bindings.plans = .ok ⟨(Cpp.headerCode bindings.plans).render, code.render⟩ ∧
      Cpp.openers 1 code = (Cpp.definitions bindings.plans).map Cpp.Definition.text ∧
      ((Cpp.identifiers bindings.plans).Nodup ↔
        ∀ table ∈ bindings.plans.tables, ∀ other ∈ bindings.plans.tables,
          table.externalName ≠ other.externalName ++ "ToString") := by
  obtain ⟨code, hcode⟩ := exists_sourceCode h hn
  refine ⟨code, hcode, ?_, Cpp.openers_sourceCode hcode, ?_⟩
  · rw [Cpp.render, hcode]
    rfl
  · have hopen : ∀ text ∈ bindings.plans.tables.map (·.externalName),
        Cpp.Opens ['G', 'P', 'U'] text := by
      intro text hm
      obtain ⟨table, ht, rfl⟩ := List.mem_map.mp hm
      exact Bindings.tables_open h hn ht
    rw [Cpp.identifiers_eq, Cpp.names_nodup_iff (Bindings.tables_nodup h)
      (Bindings.plans_nodup h) hopen]
    simp only [List.forall_mem_map]

theorem identifiers_nodup_iff_paint : ∃ bindings code,
    Bindings.ofDocument .standard paintDocument = .ok bindings ∧
    Cpp.sourceCode bindings.plans = .ok code ∧
    Cpp.openers 1 code = (Cpp.definitions bindings.plans).map Cpp.Definition.text ∧
    (Cpp.identifiers bindings.plans).Nodup := by
  obtain ⟨schema, -, -, -, hb, -⟩ := paint_bindings
  obtain ⟨code, hcode, -, hopeners, hiff⟩ := identifiers_nodup_iff hb rfl
  have hapart : ∀ table ∈ paintPlans.tables, ∀ other ∈ paintPlans.tables,
      table.externalName ≠ other.externalName ++ "ToString" := by decide
  exact ⟨_, code, hb, hcode, hopeners, hiff.mpr hapart⟩

def modeDocument : Idl.Document :=
  [("mode", .object [("category", .string "enum"), ("values", .array [shadeValue "on" 1])]),
  ("mode to string", .object [("category", .string "enum"), ("values", .array [
    shadeValue "off" 2])])]

def modePlans : PlanSet :=
  ⟨[], [⟨"GPUMode", "WGPUMode", [("on", 1)], [(1, "on")]⟩,
    ⟨"GPUModeToString", "WGPUModeToString", [("off", 2)], [(2, "off")]⟩],
    [("GPUMode", "WGPUMode"), ("GPUModeToString", "WGPUModeToString")]⟩

theorem mode_bindings : ∃ schema,
    Bindings.ofDocument .standard modeDocument = .ok ⟨schema, modePlans⟩ := by
  obtain ⟨schema, hs, hplans, htables⟩ : ∃ schema,
      assemble .standard modeDocument = .ok schema ∧
        schema.structures.mapM (buildPlan schema) = .ok modePlans.plans ∧
          (schema.enums ++ schema.bitmasks).map NameTable.ofValueSet = modePlans.tables :=
    ⟨_, rfl, rfl, rfl⟩
  exact ⟨schema, Bindings.ofDocument_of_parts hs hplans htables rfl rfl⟩

/-- The source defines a function and a map of one name. -/
theorem mode_clash : ∃ bindings code function map,
    Bindings.ofDocument .standard modeDocument = .ok bindings ∧
    Cpp.sourceCode bindings.plans = .ok code ∧
    [Cpp.Definition.text function, Cpp.Definition.text map].Sublist (Cpp.openers 1 code) ∧
    function = ⟨"std::string ", "GPUModeToString", "(WGPUMode value)"⟩ ∧
    map = ⟨"std::unordered_map<std::string, uint32_t> ", "GPUModeToString", " ="⟩ ∧
    ¬ (Cpp.identifiers bindings.plans).Nodup := by
  obtain ⟨schema, hb⟩ := mode_bindings
  obtain ⟨code, hcode⟩ := exists_sourceCode hb rfl
  have hclash : ¬ (Cpp.identifiers modePlans).Nodup := by decide
  have hdefinitions : Cpp.definitions modePlans = Cpp.helperDefinitions ++
      ⟨"std::unordered_map<std::string, uint32_t> ", "GPUMode", " ="⟩ ::
      ⟨"std::string ", "GPUModeToString", "(WGPUMode value)"⟩ ::
      ⟨"std::unordered_map<std::string, uint32_t> ", "GPUModeToString", " ="⟩ ::
      [⟨"std::string ", "GPUModeToStringToString", "(WGPUModeToString value)"⟩] := rfl
  have hsub : List.Sublist [⟨"std::string ", "GPUModeToString", "(WGPUMode value)"⟩,
      ⟨"std::unordered_map<std::string, uint32_t> ", "GPUModeToString", " ="⟩]
      (Cpp.definitions modePlans) := by
    rw [hdefinitions]
    exact (((((List.nil_sublist _).cons_cons _).cons_cons _).cons _).trans
      (List.sublist_append_right _ _))
  refine ⟨_, code, _, _, hb, hcode, ?_, rfl, rfl, hclash⟩
  rw [Cpp.openers_sourceCode hcode]
  exact hsub.map Cpp.Definition.text

end

end DescriptorMarshal
