import DescriptorMarshal.Generator

/-!
The commands of the program: `generate` renders the C++ sources of a document, `schema` lists its
assembled tables. Both write to standard output unless an output is named.
-/

namespace DescriptorMarshal

namespace CommandLine

inductive Command where
  | generate
  | schema
  deriving DecidableEq, Repr

structure Settings where
  command : Command
  input : Option String
  /-- A directory for `generate`, a file for `schema`. -/
  output : Option String
  naming : Naming
  deriving DecidableEq, Repr

inductive UsageError where
  | noCommand
  | unknownCommand (name : String)
  | noInput
  | noValue (option : String)
  | unexpected (argument : String)
  deriving DecidableEq, Repr

def usage : String :=
  "usage: generate INPUT [-o DIR] [--native-prefix TEXT] [--external-prefix TEXT]\n" ++
    "       schema INPUT [-o FILE]"

def UsageError.message : UsageError → String
  | noCommand => usage
  | unknownCommand name => s!"unknown command '{name}'\n" ++ usage
  | noInput => "no document given\n" ++ usage
  | noValue option => s!"option '{option}' needs a value\n" ++ usage
  | unexpected argument => s!"unexpected argument '{argument}'\n" ++ usage

/-- Sets an option that takes a value; only `generate` has prefixes. -/
def Settings.setOption? (settings : Settings) (option value : String) : Option Settings :=
  match option, settings.command with
  | "-o", _ | "--output", _ => some { settings with output := some value }
  | "--native-prefix", .generate =>
    some { settings with naming := { settings.naming with nativeLead := value } }
  | "--external-prefix", .generate =>
    some { settings with naming := { settings.naming with externalLead := value } }
  | _, _ => none

def readArguments (settings : Settings) : List String → Except UsageError Settings
  | [] => if settings.input.isNone then .error .noInput else .ok settings
  | [argument] =>
    if (settings.setOption? argument "").isSome then .error (.noValue argument)
    else if settings.input.isNone ∧ !argument.startsWith "-" then
      .ok { settings with input := some argument }
    else .error (.unexpected argument)
  | argument :: value :: rest =>
    match settings.setOption? argument value with
    | some settings => readArguments settings rest
    | none =>
      if settings.input.isNone ∧ !argument.startsWith "-" then
        readArguments { settings with input := some argument } (value :: rest)
      else .error (.unexpected argument)

def read (arguments : List String) : Except UsageError Settings :=
  let start (command : Command) : Settings := ⟨command, none, none, .standard⟩
  match arguments with
  | [] => .error .noCommand
  | "generate" :: rest => readArguments (start .generate) rest
  | "schema" :: rest => readArguments (start .schema) rest
  | name :: _ => .error (.unknownCommand name)

def Settings.run (settings : Settings) (text : String) :
    Except GenerateError (List (String × String)) := do
  let options := SchemaOptions.standard.withNaming settings.naming
  let bindings ← (Bindings.ofText options text).mapError .schema
  match settings.command with
  | .generate => return (← bindings.cppSources.mapError .render).files
  | .schema => return [("", bindings.schema.listing)]

end CommandLine

end DescriptorMarshal
