import DescriptorMarshal.Codec.Decode
import DescriptorMarshal.Cpp.Sources
import DescriptorMarshal.Json.Reader
import DescriptorMarshal.Schema.Assemble
import DescriptorMarshal.Schema.Listing

/-!
From an interface description to everything made from it: the schema, the plans, the decoders and
their C++ sources.
-/

namespace DescriptorMarshal

inductive GenerateError where
  | schema (error : SchemaError)
  | render (error : Cpp.RenderError)
  deriving DecidableEq, Repr

def GenerateError.message : GenerateError → String
  | schema error => error.message
  | render error => error.message

namespace SchemaOptions

def withNativeLead (options : SchemaOptions) (lead : String) : SchemaOptions :=
  { options with naming := { options.naming with nativeLead := lead } }

def withExternalLead (options : SchemaOptions) (lead : String) : SchemaOptions :=
  { options with naming := { options.naming with externalLead := lead } }

def withNaming (options : SchemaOptions) (naming : Naming) : SchemaOptions :=
  { options with naming }

def withCallback (options : SchemaOptions) (name : String) : SchemaOptions :=
  if options.callbacks.contains name then options
  else { options with callbacks := options.callbacks ++ [name] }

end SchemaOptions

structure Bindings where
  schema : Schema
  plans : PlanSet
  deriving Repr

/-- How deep a document's text may nest. -/
def documentDepth : Nat := 127

def Idl.Document.ofText? (text : String) : Except SchemaError Idl.Document :=
  match Json.read? documentDepth text with
  | some value => Idl.Document.ofJson? value
  | none => .error .parse

namespace Bindings

def ofDocument (options : SchemaOptions) (document : Idl.Document) :
    Except SchemaError Bindings := do
  let schema ← assemble options document
  return ⟨schema, ← PlanSet.build schema⟩

def ofText (options : SchemaOptions) (text : String) : Except SchemaError Bindings := do
  ofDocument options (← Idl.Document.ofText? text)

def cppSources (bindings : Bindings) : Except Cpp.RenderError Cpp.Sources :=
  Cpp.render bindings.plans

end Bindings

end DescriptorMarshal
