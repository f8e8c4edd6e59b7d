import DescriptorMarshal.Text.Blank
import DescriptorMarshal.Text.UpperCase

/-!
Identifiers made from the free text that names a record or member (`texture format`): the text
is cut into words, and a casing joins the words again.
-/

namespace DescriptorMarshal

/-- White space, `_` and `-` separate words. -/
def isSeparator (c : Char) : Bool := isBlank c || c == '_' || c == '-'

def pieces : List Char → List (List Char)
  | [] => [[]]
  | c :: rest =>
    if isSeparator c then [] :: pieces rest
    else match pieces rest with
      | [] => [[c]]
      | word :: others => (c :: word) :: others

def words (text : String) : List (List Char) :=
  (pieces text.toList).filter fun word => !word.isEmpty

def capitalize : List Char → List Char
  | [] => []
  | first :: rest => upperChar first ++ rest

/-- `mip level count` becomes `mipLevelCount`; the first word stays as written. -/
def camelCase (text : String) : String :=
  match words text with
  | [] => ""
  | first :: rest => String.ofList (first ++ rest.flatMap capitalize)

def pascalCase (text : String) : String :=
  String.ofList ((words text).flatMap capitalize)

/-- `map read` becomes `MAP_READ`. -/
def upperSnakeCase (text : String) : String :=
  String.ofList (['_'].intercalate ((words text).map upperText))

structure Naming where
  nativeLead : String
  externalLead : String
  deriving DecidableEq, Repr

namespace Naming

def standard : Naming := ⟨"WGPU", "GPU"⟩

def declarationName (naming : Naming) (text : String) : String :=
  naming.nativeLead ++ pascalCase text

def externalName (naming : Naming) (text : String) : String :=
  naming.externalLead ++ pascalCase text

end Naming

end DescriptorMarshal
