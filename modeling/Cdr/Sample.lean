import Cdr.Layout.Read
import Cdr.Layout.Write
import Cdr.Text.Hex

/-! Samples: whole values with a header of four bytes in front, which names the byte order.  A
sample is aligned from behind its header and is padded to a multiple of four bytes. -/

namespace Cdr

/-- What it takes to follow references and to count. -/
structure Context where
  types : Lookup
  countWidth : CountWidth
  /-- The number of references that a value may nest through. -/
  maxDepth : Nat

namespace Context

def write (c : Context) (layout : Layout) (v : Value) : Coding Unit :=
  layout.write c.types c.countWidth c.maxDepth v

def read (c : Context) (layout : Layout) : Coding Value :=
  layout.read c.types c.countWidth c.maxDepth

end Context

namespace Sample

def headerSize : Nat := 4

/-- A new buffer with the header of a sample, and the cursor behind it. -/
def start (order : ByteOrder) (capacity : Nat) : Buffer :=
  let b := (Buffer.ofCapacity capacity).put [0, order.headerFlag, 0, 0]
  { b with origin := headerSize, order := order }

/-- The sample of a value in a byte order, written in a buffer of the given capacity. -/
def encode (c : Context) (layout : Layout) (order : ByteOrder) (capacity : Nat) (v : Value) :
    Except Fault (List UInt8) :=
  match c.write layout v (start order capacity) with
  | .ok _ b => .ok (b.align 4).toList
  | .error fault _ => .error fault

def hexByte (b : UInt8) : String := Text.Hex.encode [b]

def headerOrder (bytes : List UInt8) : Except Fault ByteOrder :=
  match bytes with
  | kind :: flag :: _ :: _ :: _ =>
    let refuse (message : String) : Except Fault ByteOrder :=
      .error (Cause.invalidData "encapsulation header" message).fault
    if kind ≠ 0 then
      refuse ("unsupported representation 0x" ++ hexByte kind ++ hexByte flag)
    else
      match ByteOrder.ofHeaderFlag? flag with
      | some order => .ok order
      | none => refuse ("unsupported representation flag 0x" ++ hexByte flag)
  | _ => .error (Cause.tooShort headerSize bytes.length 0).fault

/-- A buffer that holds a sample, with the cursor behind the header. -/
def opened (order : ByteOrder) (bytes : List UInt8) : Buffer :=
  { (Buffer.ofBytes bytes).seek headerSize with origin := headerSize, order := order }

/-- The value of a sample.  Bytes behind the value are ignored. -/
def decode (c : Context) (layout : Layout) (bytes : List UInt8) : Except Fault Value := do
  let order ← headerOrder bytes
  match c.read layout (opened order bytes) with
  | .ok v _ => .ok v
  | .error fault _ => .error fault

end Sample

end Cdr
