import Cdr.Buffer
import Cdr.Primitive

/-! Scalars: numbers of the ten kinds that a buffer takes and gives back as they are, the integers
of the eight integer types and the floats of two widths.  A float counts by its bits, so what is not
a number is kept as it is too. -/

namespace Cdr

/-- The kinds of scalars. -/
inductive Scalar.Kind where
  | integer (type : IntegerType)
  | float32
  | float64
deriving DecidableEq, Repr

/-- A number in the kind that carries it. -/
inductive Scalar where
  | integer (n : Integer)
  /-- A float of thirty-two bits. -/
  | float32 (bits : UInt32)
  /-- A float of sixty-four bits. -/
  | float64 (bits : UInt64)
deriving DecidableEq, Repr

namespace Scalar

/-- The number of bytes of a scalar of the kind, which it is aligned to. -/
def Kind.size : Kind → Nat
  | integer t => t.size
  | float32 => 4
  | float64 => 8

/-- The scalar that the low bits stand for. -/
def Kind.ofBits : Kind → Nat → Scalar
  | integer t, bits => .integer (Integer.ofBits t bits)
  | float32, bits => .float32 (UInt32.ofNat bits)
  | float64, bits => .float64 (UInt64.ofNat bits)

def kind : Scalar → Kind
  | integer n => .integer n.type
  | float32 _ => .float32
  | float64 _ => .float64

def toBits : Scalar → Nat
  | integer n => n.toBits
  | float32 bits => bits.toNat
  | float64 bits => bits.toNat

theorem toBits_lt (x : Scalar) : x.toBits < 256 ^ x.kind.size := by
  cases x with
  | integer n => exact n.type.toBits_lt n.number
  | float32 bits => exact bits.toNat_lt
  | float64 bits => exact bits.toNat_lt

/-- A scalar is read back from its bits. -/
theorem ofBits_toBits (x : Scalar) : x.kind.ofBits x.toBits = x := by
  cases x with
  | integer n => exact congrArg integer n.ofBits_toBits
  | float32 bits => exact congrArg float32 UInt32.ofNat_toNat
  | float64 bits => exact congrArg float64 UInt64.ofNat_toNat

end Scalar

/-- Writes a scalar at its alignment. -/
def Buffer.putScalar (x : Scalar) (b : Buffer) : Buffer := b.putWord x.kind.size x.toBits

namespace Coding

def putScalar (x : Scalar) : Coding Unit := modify (Buffer.putScalar x)

/-- Reads a scalar of the kind at its alignment. -/
def takeScalar (kind : Scalar.Kind) : Coding Scalar := do
  return kind.ofBits (← takeWord kind.size)

end Coding

end Cdr
