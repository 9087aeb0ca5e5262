import Cdr.Key.Encoding
import Cdr.Key.Hash
import Cdr.Registry.Basic

/-! Samples, keys and keyhashes of the types of a registry.  Every operation needs a handle of the
registry, to a type that reaches only types that are built. -/

namespace Cdr.Registry

def checkHandle (r : Registry) (h : Handle) : Except Fault Unit :=
  match r.catalog.entries[h.id]? with
  | some entry =>
    if entry.declaration.name = h.name then .ok ()
    else .error (Cause.unknownType h.name).fault
  | none => .error (Cause.unknownType h.name).fault

/-- The size of the longest key of a type. -/
def maxKeySize (r : Registry) (h : Handle) : Except Fault Nat := do
  r.checkHandle h
  r.catalog.maxKeySize r.config h.id

/-- How a type derives keyhashes from keys. -/
def keyHashMode (r : Registry) (h : Handle) : Except Fault KeyHashMode := do
  return KeyHashMode.ofMaxKeySize (← r.maxKeySize h)

/-- What it takes to write and read values of the registered types. -/
def context (r : Registry) : Context := ⟨r.catalog.layout, r.config.countWidth, r.config.maxDepth⟩

/-- The layout of the samples of a type that can be used. -/
def sampleLayout (r : Registry) (h : Handle) : Except Fault Layout := do
  discard (r.maxKeySize h)
  r.catalog.layout h.id .full

/-- The layout of the keys of a type that can be used. -/
def keyLayout (r : Registry) (h : Handle) : Except Fault Layout := do
  discard (r.maxKeySize h)
  r.catalog.keyLayout h.id

/-- The sample of a value in a byte order. -/
def serializeIn (r : Registry) (h : Handle) (order : ByteOrder) (v : Value) :
    Except Fault (List UInt8) := do
  let layout ← r.sampleLayout h
  Sample.encode r.context layout order r.config.initialCapacity v

/-- The sample of a value in the byte order of the registry. -/
def serialize (r : Registry) (h : Handle) (v : Value) : Except Fault (List UInt8) :=
  r.serializeIn h r.config.order v

/-- The value of a sample. -/
def deserialize (r : Registry) (h : Handle) (bytes : List UInt8) : Except Fault Value := do
  let layout ← r.sampleLayout h
  Sample.decode r.context layout bytes

/-- The key members of the value that a key stands for. -/
def deserializeKey (r : Registry) (h : Handle) (bytes : List UInt8) : Except Fault Value := do
  let layout ← r.keyLayout h
  Key.decode r.context layout bytes

/-- The key of a value without padding, written in the buffer at hand. -/
def writeKey (r : Registry) (h : Handle) (v : Value) : Coding (List UInt8) :=
  match r.keyLayout h with
  | .ok layout => Key.encode r.context layout v
  | .error fault => throw fault

/-- The padded key of a value, written in the buffer at hand. -/
def writePaddedKey (r : Registry) (h : Handle) (v : Value) : Coding (List UInt8) := do
  return padKey (← r.writeKey h v)

/-- The keyhash of a value, whose key is written in the buffer at hand. -/
def writeKeyHash (r : Registry) (h : Handle) (v : Value) : Coding KeyHash := do
  let key ← r.writeKey h v
  match r.keyHashMode h with
  | .ok mode => return KeyHash.ofKey mode key
  | .error fault => throw fault

def onNewBuffer {α : Type} (r : Registry) (step : Coding α) : Except Fault α :=
  match step (Buffer.ofCapacity r.config.initialCapacity) with
  | .ok x _ => .ok x
  | .error fault _ => .error fault

/-- The key of a value, with zero bytes after it up to sixteen bytes. -/
def key (r : Registry) (h : Handle) (v : Value) : Except Fault (List UInt8) :=
  r.onNewBuffer (r.writePaddedKey h v)

/-- The keyhash of a value. -/
def keyHash (r : Registry) (h : Handle) (v : Value) : Except Fault KeyHash :=
  r.onNewBuffer (r.writeKeyHash h v)

end Cdr.Registry
