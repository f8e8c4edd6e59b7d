/-!
The integers that words of the usual widths hold.
-/

namespace DescriptorMarshal

structure IntRange where
  least : Int
  most : Int
  deriving DecidableEq, Repr

namespace IntRange

def contains (range : IntRange) (n : Int) : Bool := range.least ≤ n && n ≤ range.most

theorem contains_iff {range : IntRange} {n : Int} :
    range.contains n = true ↔ range.least ≤ n ∧ n ≤ range.most := by
  simp [contains]

def clamp (range : IntRange) (n : Int) : Int := max range.least (min range.most n)

def signed8 : IntRange := ⟨-0x80, 0x7f⟩
def signed16 : IntRange := ⟨-0x8000, 0x7fff⟩
def signed32 : IntRange := ⟨-0x80000000, 0x7fffffff⟩
def signed64 : IntRange := ⟨-0x8000000000000000, 0x7fffffffffffffff⟩
def signed128 : IntRange :=
  ⟨-0x80000000000000000000000000000000, 0x7fffffffffffffffffffffffffffffff⟩
def unsigned8 : IntRange := ⟨0, 0xff⟩
def unsigned16 : IntRange := ⟨0, 0xffff⟩
def unsigned32 : IntRange := ⟨0, 0xffffffff⟩
def unsigned64 : IntRange := ⟨0, 0xffffffffffffffff⟩

theorem toNat_ofInt {n : Int} (h : unsigned32.contains n = true) :
    ((UInt32.ofInt n).toNat : Int) = n := by
  obtain ⟨hlo, hhi⟩ : 0 ≤ n ∧ n ≤ 0xffffffff := contains_iff.mp h
  rw [UInt32.ofInt, UInt32.toNat_ofNat']
  omega

end IntRange

end DescriptorMarshal
