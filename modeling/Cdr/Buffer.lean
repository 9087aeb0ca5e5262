import Cdr.ByteOrder
import Cdr.Fault

/-! A growable region of bytes with a cursor.  A logical length says how many bytes count; the bytes
behind it are capacity.  Numbers are aligned to multiples of their size, counted from an origin that
can be moved, and are written and read in a byte order that can be switched.  `Coding` is a step
that works on a buffer and may fail, which leaves the buffer as it was at the failure. -/

namespace Cdr

/-- A region of bytes with a cursor. -/
structure Buffer where
  /-- The bytes up to the capacity. -/
  storage : Array UInt8
  /-- Where the next byte is written or read. -/
  cursor : Nat
  /-- The number of bytes that count. -/
  length : Nat
  /-- Where alignment is counted from. -/
  origin : Nat
  order : ByteOrder
deriving DecidableEq, Repr

namespace Buffer

/-- The capacity of a new buffer where no other is asked for. -/
def defaultCapacity : Nat := 64

/-- An empty buffer with room for `capacity` bytes, and for one at least. -/
def ofCapacity (capacity : Nat) : Buffer :=
  ⟨Array.replicate (max capacity 1) 0, 0, 0, 0, .little⟩

def empty : Buffer := ofCapacity defaultCapacity

/-- A buffer that holds the bytes, with the cursor before the first. -/
def ofBytes (bytes : List UInt8) : Buffer := ⟨bytes.toArray, 0, bytes.length, 0, .little⟩

/-- The number of bytes that the buffer has room for. -/
def capacity (b : Buffer) : Nat := b.storage.size

/-- The number of bytes from the cursor to the logical end. -/
def remaining (b : Buffer) : Nat := b.length - b.cursor

/-- The bytes that count. -/
def toList (b : Buffer) : List UInt8 := b.storage.toList.take b.length

/-- Makes room for `needed` bytes.  A buffer that has to grow at least doubles. -/
def reserve (needed : Nat) (b : Buffer) : Buffer :=
  if b.storage.size < needed then
    { b with storage :=
        b.storage ++ Array.replicate (max needed (2 * b.storage.size) - b.storage.size) 0 }
  else b

/-- Moves the cursor, beyond the logical end too. -/
def seek (position : Nat) (b : Buffer) : Buffer := { b.reserve position with cursor := position }

/-- Sets every byte to zero and forgets the length.  The cursor stays. -/
def zeroOut (b : Buffer) : Buffer :=
  { b with storage := Array.replicate b.storage.size 0, length := 0 }

/-- Sets every byte to zero and moves the cursor and the origin to the start. -/
def reset (b : Buffer) : Buffer := { b.zeroOut with cursor := 0, origin := 0 }

/-- The storage with the bytes from place `i` on replaced by the given ones. -/
def overwrite (storage : Array UInt8) (i : Nat) : List UInt8 → Array UInt8
  | [] => storage
  | byte :: bytes => overwrite (storage.setIfInBounds i byte) (i + 1) bytes

/-- Writes the bytes at the cursor and moves the cursor behind them. -/
def put (bytes : List UInt8) (b : Buffer) : Buffer :=
  let stop := b.cursor + bytes.length
  let b := b.reserve stop
  { b with
    storage := overwrite b.storage b.cursor bytes, cursor := stop, length := max b.length stop }

/-- The number of bytes from the cursor to the next multiple of `size` from the origin. -/
def padding (size : Nat) (b : Buffer) : Nat :=
  if size ≤ 1 then 0 else (size - (b.cursor - b.origin) % size) % size

/-- Writes zero bytes up to the next multiple of `size` from the origin. -/
def align (size : Nat) (b : Buffer) : Buffer :=
  let n := b.padding size
  if n = 0 then b else b.put (List.replicate n 0)

/-- Writes the low `width` bytes of a number, aligned to their width. -/
def putWord (width n : Nat) (b : Buffer) : Buffer :=
  let b := b.align width
  b.put (b.order.encode width n)

end Buffer

/-- A step that works on a buffer and may fail. -/
abbrev Coding := EStateM Fault Buffer

namespace Coding

def fail {α : Type} (cause : Cause) : Coding α := throw cause.fault

/-- The step, whose faults arise inside the member `field`. -/
def inField {α : Type} (field : String) (step : Coding α) : Coding α := fun b =>
  match step b with
  | .ok x b => .ok x b
  | .error fault b => .error (fault.inField field) b

def put (bytes : List UInt8) : Coding Unit := modify (Buffer.put bytes)

def align (size : Nat) : Coding Unit := modify (Buffer.align size)

/-- Writes a number of `width` bytes at its alignment. -/
def putWord (width n : Nat) : Coding Unit := modify (Buffer.putWord width n)

def take (count : Nat) : Coding (List UInt8) := fun b =>
  if b.remaining < count then
    .error (Cause.tooShort count b.remaining b.cursor).fault b
  else
    let bytes := (b.storage.extract b.cursor (b.cursor + count)).toList
    .ok bytes { b with cursor := b.cursor + count }

def skipTo (size : Nat) : Coding Unit := do
  let n := (← get).padding size
  if n ≠ 0 then discard (take n)

/-- Reads a number of `width` bytes at its alignment. -/
def takeWord (width : Nat) : Coding Nat := do
  skipTo width
  let order := (← get).order
  return order.decode (← take width)

end Coding

end Cdr
