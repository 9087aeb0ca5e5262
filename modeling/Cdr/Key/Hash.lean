import Cdr.Digest.Md5
import Cdr.Text.Hex

/-! The identity of an instance: a key padded to sixteen bytes, and the keyhash, which is the key
itself when no key of the type can be longer than sixteen bytes and its digest otherwise. -/

namespace Cdr

/-- The number of bytes of a keyhash, and the least number of bytes of a padded key. -/
def keyHashSize : Nat := 16

/-- How a type derives keyhashes from keys. -/
inductive KeyHashMode where
  /-- The keyhash is the key with zero bytes after it. -/
  | raw
  /-- The keyhash is the digest of the key. -/
  | md5
deriving DecidableEq, Repr

namespace KeyHashMode

/-- The mode of a type whose longest key has `size` bytes. -/
def ofMaxKeySize (size : Nat) : KeyHashMode := if size ≤ keyHashSize then raw else md5

/-- The name of a mode. -/
def name : KeyHashMode → String
  | raw => "raw"
  | md5 => "md5"

end KeyHashMode

/-- The sixteen bytes that identify an instance. -/
structure KeyHash where
  bytes : List UInt8
  length_bytes : bytes.length = keyHashSize
deriving DecidableEq

/-- A key with zero bytes after it, up to sixteen bytes.  A longer key is left as it is. -/
def padKey (key : List UInt8) : List UInt8 :=
  key ++ List.replicate (keyHashSize - key.length) 0

namespace KeyHash

/-- The keyhash of a key that has not been padded. -/
def ofKey (mode : KeyHashMode) (key : List UInt8) : KeyHash :=
  match mode with
  | .raw => ⟨(padKey key).take keyHashSize, by simp [padKey, keyHashSize]; omega⟩
  | .md5 => ⟨Digest.Md5.digest key, Digest.Md5.length_digest key⟩

def toHex (hash : KeyHash) : String := Text.Hex.encode hash.bytes

end KeyHash

theorem length_padKey (key : List UInt8) : (padKey key).length = max key.length keyHashSize := by
  simp [padKey]
  omega

end Cdr
