import Cdr.Sample

/-! Keys: the key members of a value, laid out without a header, in big byte order and aligned from
the first byte. -/

namespace Cdr.Key

/-- A buffer prepared for a key, whatever it held before. -/
def prepare (b : Buffer) : Buffer :=
  { b.zeroOut.seek 0 with origin := 0, order := .big }

/-- The key of a value, written in a buffer that is prepared for it first. -/
def encode (c : Context) (layout : Layout) (v : Value) : Coding (List UInt8) := do
  modify prepare
  c.write layout v
  return (← get).toList

/-- The key members of the value that a key stands for.  Bytes behind the key are ignored. -/
def decode (c : Context) (layout : Layout) (bytes : List UInt8) : Except Fault Value :=
  match c.read layout { Buffer.ofBytes bytes with order := .big } with
  | .ok v _ => .ok v
  | .error fault _ => .error fault

end Cdr.Key
