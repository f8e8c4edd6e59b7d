import DescriptorMarshal.Cpp.Code
import DescriptorMarshal.Cpp.Lookup

/-!
The `Fill` and `Decode` functions of a structure in C++. Every allocation is stored in its field,
and its length written, before elements are filled; so whatever a failed fill leaves behind can be
handed to `Destroy`.
-/

namespace DescriptorMarshal.Cpp

open Code

def failWith (message location : String) : Code :=
  line s!"return Fail(device, env, {quoted message} + {location});"

def require (check expected location : String) : Code :=
  block s!"if (!{check})" (failWith s!"expected type '{expected}' for " location)

def requireAll (checks : List String) (expected location : String) : Code :=
  require ("(" ++ " && ".intercalate checks ++ ")") expected location

def memberPath (member : MemberPlan) : String := "path + " ++ quoted member.name

def memberLocation (member : MemberPlan) : String := s!"Where(root, {memberPath member})"

def elementPath (member : MemberPlan) (ending : String) : String :=
  "path + " ++ quoted (member.name ++ "[") ++ " + std::to_string(i) + " ++ quoted ("]" ++ ending)

def elementLocation (member : MemberPlan) : String :=
  "Where(root, " ++ elementPath member "" ++ ")"

def writeLength (plan : StructPlan) (member : MemberPlan) (count : String) : Code :=
  match member.length with
  | none => []
  | some length =>
    let native :=
      match plan.fields.find? fun field => field.name == length.name with
      | some field => field.nativeType
      | none => "uint32_t"
    line s!"descriptor.{length.name} = static_cast<{native}>({count});"

def fillArray (plan : StructPlan) (member : MemberPlan) (elementType : String) (body : Code) :
    Code :=
  require "value.IsArray()" "Array" (memberLocation member) ++
    line "Napi::Array array = value.As<Napi::Array>();" ++
    line "uint32_t length = array.Length();" ++
    line s!"auto* data = new {elementType}[length]();" ++
    line s!"descriptor.{member.name} = data;" ++
    writeLength plan member "length" ++
    block "for (uint32_t i = 0; i < length; ++i)"
      (line "Napi::Value item = array.Get(i);" ++ body)

def fillNested (nested source target path : String) : Code :=
  block s!"if (!Fill{nested}(device, {source}.As<Napi::Object>(), {target}, root, {path}))"
    (line "return false;")

def newElement (name nested slot : String) : Code :=
  line (s!"auto* element = new {name}" ++ "\x7b\x7d;") ++
    line s!"{slot} = element;" ++
    line s!"Reset{nested}(*element);"

def unwrapObject (className source target location : String) : Code :=
  requireAll [s!"{source}.IsObject()",
      s!"{source}.As<Napi::Object>().InstanceOf({className}::constructor.Value())"]
      className location ++
    line (s!"{target} = Napi::ObjectWrap<{className}>::Unwrap({source}.As<Napi::Object>())" ++
      "->instance;")

def lookUpName (map native source target location : String) : Code :=
  require s!"{source}.IsString()" "String" location ++
    line s!"auto found = {map}.find({source}.As<Napi::String>().Utf8Value());" ++
    block s!"if (found == {map}.end())" (failWith s!"unknown value of '{map}' for " location) ++
    line s!"{target} = static_cast<{native}>(found->second);"

def castBits (native source target location : String) : Code :=
  require s!"{source}.IsNumber()" "Number" location ++
    line s!"{target} = static_cast<{native}>({source}.As<Napi::Number>().Uint32Value());"

def numberGetter : NumberType → String
  | .f32 => "FloatValue"
  | .f64 => "DoubleValue"
  | .i8 | .i16 | .i32 => "Int32Value"
  | _ => "Uint32Value"

/-- A wide integer is read from a big integer without loss, or from a number. -/
def readWide (getter native target location : String) : Code :=
  line "if (value.IsBigInt()) \x7b" ++
    indent (line "bool lossless;" ++
      line s!"{target} = value.As<Napi::BigInt>().{getter}(&lossless);" ++
      block "if (!lossless)" (failWith s!"expected type 'BigInt within {native}' for " location)) ++
    line "\x7d else if (value.IsNumber()) \x7b" ++
    indent (line s!"{target} = static_cast<{native}>(value.As<Napi::Number>().DoubleValue());") ++
    line "\x7d else \x7b" ++
    indent (failWith "expected type 'BigInt' for " location) ++
    line "\x7d"

def readNumber (type : NumberType) (native target location : String) : Code :=
  match type with
  | .i64 => readWide "Int64Value" native target location
  | .u64 => readWide "Uint64Value" native target location
  | _ =>
    require "value.IsNumber()" "Number" location ++
      line (s!"{target} = static_cast<{native}>(value.As<Napi::Number>()." ++
        s!"{numberGetter type}());")

def arrayTypeName : ArrayKind → String
  | .int8 => "napi_int8_array"
  | .uint8 => "napi_uint8_array"
  | .int16 => "napi_int16_array"
  | .uint16 => "napi_uint16_array"
  | .int32 => "napi_int32_array"
  | .uint32 => "napi_uint32_array"
  | .float32 => "napi_float32_array"
  | .float64 => "napi_float64_array"
  | .bigInt64 => "napi_bigint64_array"
  | .bigUint64 => "napi_biguint64_array"

/-- Binds host memory without a copy, with its count of elements or bytes. -/
def bindBuffer (plan : StructPlan) (member : MemberPlan) (kind : Option ArrayKind) : Code :=
  match kind with
  | some kind =>
    requireAll ["value.IsTypedArray()",
        s!"value.As<Napi::TypedArray>().TypedArrayType() == {arrayTypeName kind}"]
        kind.className (memberLocation member) ++
      line "Napi::TypedArray array = value.As<Napi::TypedArray>();" ++
      line ("uint8_t* bytes = static_cast<uint8_t*>(array.ArrayBuffer().Data())" ++
        " + array.ByteOffset();") ++
      line (s!"descriptor.{member.name} = " ++
        s!"reinterpret_cast<const {member.nativeType}*>(bytes);") ++
      writeLength plan member "array.ElementLength()"
  | none =>
    require "value.IsArrayBuffer()" "ArrayBuffer" (memberLocation member) ++
      line "Napi::ArrayBuffer buffer = value.As<Napi::ArrayBuffer>();" ++
      line s!"descriptor.{member.name} = buffer.Data();" ++
      writeLength plan member "buffer.ByteLength()"

def marshalMember (set : PlanSet) (plan : StructPlan) (member : MemberPlan) :
    Except RenderError Code :=
  let native := member.nativeType
  let target := "descriptor." ++ member.name
  let location := memberLocation member
  match member.marshal with
  | .unwrap className => .ok (unwrapObject className "value" target location)
  | .unwrapArray className =>
    .ok (fillArray plan member native
      (unwrapObject className "item" "data[i]" (elementLocation member)))
  | .nested name byReference => do
    let nested ← structureName set name
    let path := "path + " ++ quoted (member.name ++ ".")
    return require "value.IsObject()" nested location ++
      if byReference then
        newElement name nested target ++ fillNested nested "value" "*element" path
      else fillNested nested "value" target path
  | .nestedArray name ofPointers => do
    let nested ← structureName set name
    let path := elementPath member "."
    let check := require "item.IsObject()" nested (elementLocation member)
    return fillArray plan member (if ofPointers then name ++ "*" else name)
      (check ++
        if ofPointers then
          newElement name nested "data[i]" ++ fillNested nested "item" "*element" path
        else line s!"Reset{nested}(data[i]);" ++ fillNested nested "item" "data[i]" path)
  | .number type => .ok (readNumber type native target location)
  | .boolean =>
    .ok (require "value.IsBoolean()" "Boolean" location ++
      line s!"{target} = value.As<Napi::Boolean>().Value();")
  | .enumeration name => do
    return lookUpName (← tableName set name) native "value" target location
  | .enumerationArray name => do
    return fillArray plan member native
      (lookUpName (← tableName set name) native "item" "data[i]" (elementLocation member))
  | .bitmask => .ok (castBits native "value" target location)
  | .bitmaskArray =>
    .ok (fillArray plan member native
      (castBits native "item" "data[i]" (elementLocation member)))
  | .string =>
    .ok (require "value.IsString()" "String" location ++
      line s!"{target} = CopyString(value.As<Napi::String>());")
  | .buffer kind => .ok (bindBuffer plan member kind)

def fillMember (set : PlanSet) (plan : StructPlan) (member : MemberPlan) :
    Except RenderError Code := do
  let name := quoted member.name
  let body := line s!"Napi::Value value = obj.Get({name});" ++ (← marshalMember set plan member)
  return match member.presence with
    | .required =>
      scope (block s!"if (!IsPresent(obj, {name}))"
        (failWith "missing required member " (memberLocation member)) ++ body)
    | .optional => block s!"if (IsSet(obj, {name}))" body

def fillHeader (plan : StructPlan) : String :=
  s!"static bool Fill{plan.externalName}(GPUDevice* device, const Napi::Object& obj, " ++
    s!"{plan.name}& descriptor, const std::string& root, const std::string& path)"

def defineFill (set : PlanSet) (plan : StructPlan) : Except RenderError Code := do
  let members ← plan.members.mapM (fillMember set plan)
  let env := if plan.members.isEmpty then [] else line "Napi::Env env = obj.Env();"
  return block (fillHeader plan) (env ++ members.flatten ++ line "return true;") ++ gap

/-- Prototypes, so structures may refer to each other in any order. -/
def declareStatics (plan : StructPlan) : Code :=
  line s!"static void Reset{plan.externalName}({plan.name}& descriptor);" ++
    line (fillHeader plan ++ ";")

/-- The head of the `Decode` function; extensible structures take a chain, with a text behind
its parameter. -/
def decodeHeader (plan : StructPlan) (ending : String) : String :=
  let chain := if plan.extensible then ", void* nextInChain" ++ ending else ""
  s!"std::optional<{plan.name}> Decode{plan.externalName}" ++
    s!"(GPUDevice* device, const Napi::Value& value{chain})"

def declareDecode (plan : StructPlan) : Code :=
  line (decodeHeader plan " = nullptr" ++ ";")

def defineDecode (plan : StructPlan) : Code :=
  let name := plan.externalName
  let chain :=
    if plan.extensible then
      line ("descriptor.nextInChain = " ++
        "reinterpret_cast<const WGPUChainedStruct*>(nextInChain);")
    else []
  block (decodeHeader plan "")
    (line s!"{plan.name} descriptor;" ++
      line s!"Reset{name}(descriptor);" ++
      chain ++
      block "if (!value.IsObject())"
        (line s!"Fail(device, value.Env(), \"expected an object for '{name}'\");" ++
          line "return std::nullopt;") ++
      block (s!"if (!Fill{name}(device, value.As<Napi::Object>(), descriptor, " ++
          s!"{quoted name}, \"\"))")
        (line s!"Destroy{name}(descriptor);" ++ line "return std::nullopt;") ++
      line "return descriptor;") ++
    gap

end DescriptorMarshal.Cpp
