import Cdr.Registry.Access
import Cdr.Text.Quoted

/-! Supports: a type of a registry together with a buffer that its keys are written in, one after
the other. -/

namespace Cdr

/-- A type with a buffer for its keys. -/
structure Support where
  handle : Handle
  keyBuffer : Buffer
deriving Repr

namespace Support

/-- The support of a type, with a new buffer. -/
def new (r : Registry) (h : Handle) : Support :=
  ⟨h, Buffer.ofCapacity r.config.initialCapacity⟩

/-- The result of a step on the key buffer, and the support with the buffer that the step leaves. -/
def onKeyBuffer {α : Type} (s : Support) (step : Coding α) : Except Fault α × Support :=
  match step s.keyBuffer with
  | .ok x b => (.ok x, { s with keyBuffer := b })
  | .error fault b => (.error fault, { s with keyBuffer := b })

/-- The key of a value, with zero bytes after it up to sixteen bytes. -/
def key (r : Registry) (s : Support) (v : Value) : Except Fault (List UInt8) × Support :=
  s.onKeyBuffer (r.writePaddedKey s.handle v)

/-- The keyhash of a value. -/
def keyHash (r : Registry) (s : Support) (v : Value) : Except Fault KeyHash × Support :=
  s.onKeyBuffer (r.writeKeyHash s.handle v)

def describe (s : Support) : String :=
  "TypeSupport \x7b type: " ++ Text.Quoted.ofText s.handle.name ++ ", .. \x7d"

end Support

end Cdr
