/-!
C++ text as lines with a nesting depth. A block indents its body, so depth follows the braces.
-/

namespace DescriptorMarshal.Cpp

structure Line where
  depth : Nat
  text : String
  deriving DecidableEq, Repr

abbrev Code := List Line

namespace Code

def line (text : String) : Code := [⟨0, text⟩]

def gap : Code := line ""

def indent (code : Code) : Code := code.map fun inner => ⟨inner.depth + 1, inner.text⟩

/-- A header, a body in braces, and what follows the closing brace. -/
def blockEnding (header : String) (body : Code) (ending : String) : Code :=
  line (header ++ "\x7b") ++ indent body ++ line ("\x7d" ++ ending)

def block (header : String) (body : Code) : Code := blockEnding (header ++ " ") body ""

def scope (body : Code) : Code := blockEnding "" body ""

/-- Two spaces per level of nesting; an empty line has none. -/
def renderLine (inner : Line) : String :=
  if inner.text = "" then "\n"
  else String.ofList (List.replicate (2 * inner.depth) ' ') ++ inner.text ++ "\n"

def render (code : Code) : String := String.join (code.map renderLine)

end Code

def quoted (text : String) : String := "\"" ++ text ++ "\""

end DescriptorMarshal.Cpp
