import DescriptorMarshal.Native.Value
import DescriptorMarshal.Schema.Literal
import DescriptorMarshal.Schema.Type

/-!
Numbers as native values. Integers of up to 32 bits are held in a word of 32 bits of their
signedness, after wrapping to their own width.
-/

namespace DescriptorMarshal

namespace NativeValue

/-- A host number as a native number: small integers wrap, wide integers saturate. -/
def ofDouble (type : NumberType) (x : Binary64) : NativeValue :=
  match type with
  | .f32 => f32 x.toBinary32
  | .f64 => f64 x
  | .i8 => i32 x.toInt32.toInt8.toInt32
  | .i16 => i32 x.toInt32.toInt16.toInt32
  | .i32 => i32 x.toInt32
  | .u8 => u32 x.toUInt32.toUInt8.toUInt32
  | .u16 => u32 x.toUInt32.toUInt16.toUInt32
  | .u32 => u32 x.toUInt32
  | .i64 => i64 (Int64.ofInt (x.clamp .signed64))
  | .u64 => u64 (UInt64.ofInt (x.clamp .unsigned64))

def ofInteger (type : NumberType) (n : Int) : NativeValue :=
  match type with
  | .i8 | .i16 | .i32 => i32 (Int32.ofInt n)
  | .u8 | .u16 | .u32 => u32 (UInt32.ofInt n)
  | .i64 => i64 (Int64.ofInt n)
  | .u64 => u64 (UInt64.ofInt n)
  | .f32 => f32 (Binary64.ofInt n).toBinary32
  | .f64 => f64 (.ofInt n)

def ofCount (type : NumberType) (count : Nat) : NativeValue := ofInteger type count

def ofDefault (type : NumberType) (value : DefaultValue) : NativeValue :=
  match type with
  | .f32 => f32 value.toBinary64.toBinary32
  | .f64 => f64 value.toBinary64
  | _ => ofInteger type value.toInt

end NativeValue

end DescriptorMarshal
