import DescriptorMarshal.Plan.Build
import DescriptorMarshal.Plan.Embedding
import DescriptorMarshal.Plan.NameTable

/-!
The plans and name tables of a whole schema. Both are found by declaration name or by external
name; a name that is an external name is taken as one.
-/

namespace DescriptorMarshal

structure PlanSet where
  plans : List StructPlan
  tables : List NameTable
  byExternal : Entries String
  deriving Repr

namespace PlanSet

def build (schema : Schema) : Except SchemaError PlanSet := do
  let plans ← schema.structures.mapM (buildPlan schema)
  let tables := (schema.enums ++ schema.bitmasks).map NameTable.ofValueSet
  checkEmbedding plans
  return {
    plans
    tables
    byExternal := Entries.ofList
      (tables.map (fun table => (table.externalName, table.declarationName)) ++
        plans.map fun plan => (plan.externalName, plan.name)) }

def planOf? (set : PlanSet) (declarationName : String) : Option StructPlan :=
  findPlan? set.plans declarationName

def tableOf? (set : PlanSet) (declarationName : String) : Option NameTable :=
  set.tables.find? fun table => table.declarationName == declarationName

def declarationOf (set : PlanSet) (name : String) : String :=
  (Entries.get? set.byExternal name).getD name

def plan? (set : PlanSet) (name : String) : Option StructPlan :=
  set.planOf? (set.declarationOf name)

def table? (set : PlanSet) (name : String) : Option NameTable :=
  set.tableOf? (set.declarationOf name)

end PlanSet

end DescriptorMarshal
