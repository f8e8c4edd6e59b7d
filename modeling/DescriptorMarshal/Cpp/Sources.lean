import DescriptorMarshal.Cpp.Fill
import DescriptorMarshal.Cpp.NameMap
import DescriptorMarshal.Cpp.Release
import DescriptorMarshal.Cpp.Reset

/-!
The header and the source of a decoder in C++: every name table, and for each structure its
`Reset`, `Fill`, `Decode` and `Destroy` functions, in document order.
-/

namespace DescriptorMarshal.Cpp

open Code

def headerFile : String := "DescriptorDecoder.h"
def sourceFile : String := "DescriptorDecoder.cpp"
def namespaceName : String := "DescriptorDecoder"

structure Sources where
  header : String
  source : String
  deriving DecidableEq, Repr

def Sources.files (sources : Sources) : List (String × String) :=
  [(headerFile, sources.header), (sourceFile, sources.source)]

/-- Adds a name to names in ascending order, unless it is there. -/
def addName : List String → String → List String
  | [], name => [name]
  | first :: rest, name =>
    if name = first then first :: rest
    else if name < first then name :: first :: rest
    else first :: addName rest name

def wrapperClasses (plans : List StructPlan) : List String :=
  let classes := (plans.flatMap (·.members)).filterMap fun member =>
    match member.marshal with
    | .unwrap className | .unwrapArray className => some className
    | _ => none
  classes.foldl addName []

def helpers : Code :=
  block "static bool Fail(GPUDevice* device, Napi::Env env, const std::string& message)"
      (line "Napi::String type = Napi::String::New(env, \"Type\");" ++
        line "device->throwCallbackError(type, Napi::String::New(env, message));" ++
        line "return false;") ++
    gap ++
    block "static std::string Where(const std::string& root, const std::string& member)"
      (line "return \"'\" + root + \"'.'\" + member + \"'\";") ++
    gap ++
    block "static bool IsPresent(const Napi::Object& obj, const char* name)"
      (line "return obj.Has(name) && !obj.Get(name).IsUndefined();") ++
    gap ++
    block "static bool IsSet(const Napi::Object& obj, const char* name)"
      (line "return IsPresent(obj, name) && !obj.Get(name).IsNull();") ++
    gap ++
    block "static char* CopyString(const Napi::String& value)"
      (line "std::string text = value.Utf8Value();" ++
        line "char* out = new char[text.size() + 1];" ++
        line "memcpy(out, text.c_str(), text.size() + 1);" ++
        line "return out;")

def includeLocal (file : String) : Code := line s!"#include {quoted file}"
def includeSystem (file : String) : Code := line s!"#include <{file}>"

def defineStructure (set : PlanSet) (plan : StructPlan) : Except RenderError Code := do
  return (← defineReset set plan) ++ (← defineFill set plan) ++ defineDecode plan ++
    (← defineDestroy set plan)

def headerCode (set : PlanSet) : Code :=
  let tables := set.tables.flatMap declareTable
  line "#ifndef __DESCRIPTOR_DECODER_H__" ++
    line "#define __DESCRIPTOR_DECODER_H__" ++
    gap ++
    includeSystem "napi.h" ++
    includeSystem "webgpu/webgpu.h" ++
    gap ++
    includeSystem "optional" ++
    includeSystem "string" ++
    includeSystem "unordered_map" ++
    gap ++
    line "class GPUDevice;" ++
    gap ++
    block s!"namespace {namespaceName}"
      (gap ++
        tables ++
        (if set.tables.isEmpty then [] else gap) ++
        set.plans.flatMap (fun plan => declareDecode plan ++ declareDestroy plan) ++
        gap) ++
    gap ++
    line "#endif"

def sourceCode (set : PlanSet) : Except RenderError Code := do
  let structures ← set.plans.mapM (defineStructure set)
  return includeLocal headerFile ++
    gap ++
    includeLocal "GPUDevice.h" ++
    (wrapperClasses set.plans).flatMap (fun className => includeLocal (className ++ ".h")) ++
    gap ++
    includeSystem "cstring" ++
    gap ++
    block s!"namespace {namespaceName}"
      (gap ++
        helpers ++
        gap ++
        set.tables.flatMap defineTable ++
        set.plans.flatMap declareStatics ++
        gap ++
        structures.flatten)

def render (set : PlanSet) : Except RenderError Sources := do
  let source ← sourceCode set
  return ⟨(headerCode set).render, source.render⟩

end DescriptorMarshal.Cpp
