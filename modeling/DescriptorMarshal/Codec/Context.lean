import DescriptorMarshal.Native.Heap

/-!
What a decode runs in: the heap it allocates from and the channel its errors go to.
-/

namespace DescriptorMarshal

/-- How a host value differs from what a plan asks for. The structure is the root of the decode,
by its external name; the member is a path from it. -/
inductive DecodeError where
  | notAnObject (root found : String)
  | missing (root path : String)
  | mismatch (root path expected found : String)
  | unknownEnumValue (root path enumeration value : String)
  deriving DecidableEq, Repr

namespace DecodeError

def root : DecodeError → String
  | notAnObject root _ => root
  | missing root _ => root
  | mismatch root _ _ _ => root
  | unknownEnumValue root _ _ _ => root

def path : DecodeError → String
  | notAnObject _ _ => ""
  | missing _ path => path
  | mismatch _ path _ _ => path
  | unknownEnumValue _ path _ _ => path

def message : DecodeError → String
  | notAnObject root found => s!"expected an object for '{root}', got {found}"
  | missing root path => s!"missing required member '{root}'.'{path}'"
  | mismatch root path expected found =>
    s!"expected type '{expected}' for '{root}'.'{path}', got {found}"
  | unknownEnumValue root path enumeration value =>
    s!"unknown value '{value}' of '{enumeration}' for '{root}'.'{path}'"

end DecodeError

structure Context where
  heap : Heap
  errors : List DecodeError
  deriving Repr

namespace Context

def empty : Context := ⟨.empty, []⟩

def report (context : Context) (error : DecodeError) : Context :=
  { context with errors := context.errors ++ [error] }

end Context

end DescriptorMarshal
