import DescriptorMarshal.CommandLine

/-!
Reading the document, running a command and writing what it makes.
-/

namespace DescriptorMarshal.CommandLine

def readDocument (path : String) : IO String := do
  try IO.FS.readFile path
  catch error => throw (IO.userError s!"failed to read {path}: {error}")

def Settings.writeFiles (settings : Settings) (files : List (String × String)) : IO Unit := do
  match settings.output, settings.command with
  | some path, .schema =>
    for (_, contents) in files do IO.FS.writeFile path contents
  | some path, .generate =>
    IO.FS.createDirAll path
    for (name, contents) in files do IO.FS.writeFile (path ++ "/" ++ name) contents
  | none, .schema =>
    for (_, contents) in files do IO.print contents
  | none, .generate =>
    for (name, contents) in files do
      IO.println s!"// {name}"
      IO.print contents

def Settings.execute (settings : Settings) : IO UInt32 := do
  let text ← readDocument (settings.input.getD "")
  match settings.run text with
  | .ok files =>
    settings.writeFiles files
    return 0
  | .error error =>
    IO.eprintln s!"Error: {error.message}"
    return 1

end DescriptorMarshal.CommandLine

open DescriptorMarshal.CommandLine in
def main (arguments : List String) : IO UInt32 := do
  match read arguments with
  | .ok settings =>
    try settings.execute
    catch error =>
      IO.eprintln s!"Error: {error}"
      return 1
  | .error error =>
    IO.eprintln error.message
    return 2
