import DescriptorMarshal.Native.Value

/-!
The native heap. Blocks get the ids 1, 2, 3, … in the order of their allocation and an id is never
used again. The heap counts allocations and releases, and records every release that was refused
or of the wrong kind.
-/

namespace DescriptorMarshal

inductive ReleaseKind where
  /-- `delete p` -/
  | delete
  /-- `delete[] p` -/
  | deleteArray
  deriving DecidableEq, Repr

inductive HeapBlock where
  /-- `new T` -/
  | single (value : NativeValue)
  /-- `new T[n]()` -/
  | array (items : List NativeValue)
  /-- `new char[n]`, with the NUL at its end. -/
  | cString (bytes : List UInt8)
  deriving Repr

def HeapBlock.releaseKind : HeapBlock → ReleaseKind
  | single _ => .delete
  | array _ | cString _ => .deleteArray

inductive HeapFault where
  | unknownAllocation (id : BlockId)
  | mismatchedRelease (id : BlockId) (used expected : ReleaseKind)
  deriving DecidableEq, Repr

def ReleaseKind.name : ReleaseKind → String
  | delete => "Delete"
  | deleteArray => "DeleteArray"

namespace HeapFault

def id : HeapFault → BlockId
  | unknownAllocation id => id
  | mismatchedRelease id _ _ => id

def message : HeapFault → String
  | unknownAllocation id =>
    s!"release of unknown or already freed allocation AllocId({id.number})"
  | mismatchedRelease id used expected =>
    s!"allocation AllocId({id.number}) released with {used.name}, expected {expected.name}"

end HeapFault

structure Heap where
  /-- One slot per block ever allocated, in order; empty once the block is released. -/
  slots : List (Option HeapBlock)
  allocations : Nat
  frees : Nat
  faults : List HeapFault
  deriving Repr

namespace Heap

def empty : Heap := ⟨[], 0, 0, []⟩

def get? (heap : Heap) (id : BlockId) : Option HeapBlock :=
  match id.number with
  | 0 => none
  | slot + 1 => (heap.slots[slot]?).join

def setSlot (heap : Heap) (id : BlockId) (block : Option HeapBlock) : Heap :=
  { heap with slots := heap.slots.set (id.number - 1) block }

def alloc (heap : Heap) (block : HeapBlock) : BlockId × Heap :=
  (⟨heap.slots.length + 1⟩,
    { heap with slots := heap.slots ++ [some block], allocations := heap.allocations + 1 })

/-- The bytes of a text and a NUL. -/
def cStringBytes (text : String) : List UInt8 := text.toUTF8.toList ++ [0]

def allocCString (heap : Heap) (text : String) : BlockId × Heap :=
  heap.alloc (.cString (cStringBytes text))

def store (heap : Heap) (id : BlockId) (value : NativeValue) : Heap :=
  match heap.get? id with
  | some (.single _) => heap.setSlot id (some (.single value))
  | _ => heap

def storeElement (heap : Heap) (id : BlockId) (index : Nat) (value : NativeValue) : Heap :=
  match heap.get? id with
  | some (.array items) => heap.setSlot id (some (.array (items.set index value)))
  | _ => heap

/-- Releases a block and hands its contents back. An unknown id and a wrong kind are recorded as
faults; with the wrong kind the block is removed and counted all the same. -/
def free (heap : Heap) (id : BlockId) (kind : ReleaseKind) : Except HeapFault HeapBlock × Heap :=
  match heap.get? id with
  | none =>
    let fault := HeapFault.unknownAllocation id
    (.error fault, { heap with faults := heap.faults ++ [fault] })
  | some block =>
    let removed := { heap.setSlot id none with frees := heap.frees + 1 }
    if block.releaseKind = kind then (.ok block, removed)
    else
      let fault := HeapFault.mismatchedRelease id kind block.releaseKind
      (.error fault, { removed with faults := heap.faults ++ [fault] })

/-- The text of a string block, without its NUL; bytes that are not UTF-8 have none. -/
def cString? (heap : Heap) (id : BlockId) : Option String :=
  match heap.get? id with
  | some (.cString bytes) =>
    let body := if bytes.getLast? = some 0 then bytes.dropLast else bytes
    String.fromUTF8? ⟨body.toArray⟩
  | _ => none

def live (heap : Heap) : Nat := heap.slots.countP Option.isSome

def blocks (heap : Heap) : List (BlockId × HeapBlock) :=
  heap.slots.zipIdx.filterMap fun slot => slot.1.map fun block => (⟨slot.2 + 1⟩, block)

end Heap

end DescriptorMarshal
