import DescriptorMarshal.Schema.Literal
import DescriptorMarshal.Schema.Type

/-!
Numbers as C++ literals, with the suffix of their type.
-/

namespace DescriptorMarshal.Cpp

def numberLiteral (type : NumberType) (value : DefaultValue) : String :=
  match type, value with
  | .f32, .float _ => value.text ++ "f"
  | .f32, .integer _ => value.text ++ ".0f"
  | .f64, .integer _ => value.text ++ ".0"
  | .u64, .integer _ => value.text ++ "ull"
  | .i64, .integer _ => value.text ++ "ll"
  | _, _ => value.text

end DescriptorMarshal.Cpp
