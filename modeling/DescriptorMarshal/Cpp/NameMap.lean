import DescriptorMarshal.Cpp.Code
import DescriptorMarshal.Plan.NameTable

/-!
Name tables in C++: a map from names to values, and a function from values to names.
-/

namespace DescriptorMarshal.Cpp

open Code

def declareTable (table : NameTable) : Code :=
  line s!"extern std::unordered_map<std::string, uint32_t> {table.externalName};" ++
    line s!"std::string {table.externalName}ToString({table.declarationName} value);"

def mapEntry (entry : String × UInt32) : Code :=
  line ("\x7b " ++ s!"{quoted entry.1}, {entry.2.toNat}" ++ " \x7d,")

def switchCase (row : UInt32 × String) : Code :=
  line s!"case {row.1.toNat}: return {quoted row.2};"

def defineTable (table : NameTable) : Code :=
  blockEnding s!"std::unordered_map<std::string, uint32_t> {table.externalName} = "
      (table.byName.flatMap mapEntry) ";" ++
    gap ++
    block s!"std::string {table.externalName}ToString({table.declarationName} value)"
      (block "switch (static_cast<uint32_t>(value))" (table.byValue.flatMap switchCase) ++
        line "return \"\";") ++
    gap

end DescriptorMarshal.Cpp
