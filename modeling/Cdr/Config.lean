import Cdr.ByteOrder

/-! The choices that all types of a registry share: the byte order of samples, the width of counts,
and the limits on sizes and nesting. -/

namespace Cdr

/-- The width of the count in front of a sequence, a byte string or a map. -/
inductive CountWidth where
  /-- Two bytes. -/
  | u16
  /-- Four bytes. -/
  | u32
deriving DecidableEq, Repr, Inhabited

namespace CountWidth

/-- The number of bytes of a count, which is also its alignment. -/
def bytes : CountWidth → Nat
  | u16 => 2
  | u32 => 4

def greatest (w : CountWidth) : Nat := 256 ^ w.bytes - 1

end CountWidth

/-- The choices of a registry. -/
structure Config where
  /-- The byte order of samples where no other is asked for. -/
  order : ByteOrder := .little
  countWidth : CountWidth := .u16
  /-- The capacity of a new buffer. -/
  initialCapacity : Nat := 64
  /-- The number of elements that an unbounded collection is assumed to have when keys are sized. -/
  maxUnboundedLength : Nat := 65535
  /-- The number of references that a value may nest through. -/
  maxDepth : Nat := 128
deriving DecidableEq, Repr, Inhabited

end Cdr
