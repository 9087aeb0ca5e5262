/-! UTF-8 texts.  A reader goes over the bytes one at a time; in the middle of a character it knows
how many bytes are still to come and which values the next of them may have.  Bytes that form no
text are refused with the place where the last whole character ends. -/

namespace Cdr.Text.Utf8

/-- Why bytes form no text. -/
inductive Flaw where
  /-- The `length` bytes from `index` on start no character. -/
  | invalid (length index : Nat)
  /-- The bytes end inside the character that starts at `index`. -/
  | incomplete (index : Nat)
deriving DecidableEq, Repr

def Flaw.message : Flaw → String
  | invalid length index => s!"invalid utf-8 sequence of {length} bytes from index {index}"
  | incomplete index => s!"incomplete utf-8 byte sequence from index {index}"

/-- A character that has been read in part. -/
structure Pending where
  /-- Where the character starts. -/
  start : Nat
  /-- How many of its bytes have been read. -/
  seen : Nat
  /-- How many of its bytes are still to come. -/
  left : Nat
  /-- The least value of the next byte. -/
  low : Nat
  /-- The greatest value of the next byte. -/
  high : Nat
  /-- The bits of the code point read so far. -/
  code : Nat
deriving DecidableEq, Repr

/-- The character that a byte at `index` starts, if it is the first of several bytes.  The bounds of
the second byte leave out codes that have a shorter form, surrogates, and codes beyond the last. -/
def lead? (index byte : Nat) : Option Pending :=
  if 0xC2 ≤ byte ∧ byte ≤ 0xDF then some ⟨index, 1, 1, 0x80, 0xBF, byte - 0xC0⟩
  else if byte = 0xE0 then some ⟨index, 1, 2, 0xA0, 0xBF, 0⟩
  else if byte = 0xED then some ⟨index, 1, 2, 0x80, 0x9F, 0xD⟩
  else if 0xE1 ≤ byte ∧ byte ≤ 0xEF then some ⟨index, 1, 2, 0x80, 0xBF, byte - 0xE0⟩
  else if byte = 0xF0 then some ⟨index, 1, 3, 0x90, 0xBF, 0⟩
  else if 0xF1 ≤ byte ∧ byte ≤ 0xF3 then some ⟨index, 1, 3, 0x80, 0xBF, byte - 0xF0⟩
  else if byte = 0xF4 then some ⟨index, 1, 3, 0x80, 0x8F, 4⟩
  else none

/-- The characters of the bytes from `index` on, after those already read, last character first. -/
def decodeFrom (done : List Char) (index : Nat) :
    Option Pending → List UInt8 → Except Flaw (List Char)
  | none, [] => .ok done.reverse
  | some p, [] => .error (.incomplete p.start)
  | none, b :: bytes =>
    if b.toNat < 0x80 then decodeFrom (Char.ofNat b.toNat :: done) (index + 1) none bytes
    else
      match lead? index b.toNat with
      | some p => decodeFrom done (index + 1) (some p) bytes
      | none => .error (.invalid 1 index)
  | some p, b :: bytes =>
    if p.low ≤ b.toNat ∧ b.toNat ≤ p.high then
      let code := 64 * p.code + b.toNat % 64
      if p.left ≤ 1 then decodeFrom (Char.ofNat code :: done) (index + 1) none bytes
      else
        decodeFrom done (index + 1)
          (some ⟨p.start, p.seen + 1, p.left - 1, 0x80, 0xBF, code⟩) bytes
    else .error (.invalid p.seen p.start)

def decode (bytes : List UInt8) : Except Flaw String :=
  (decodeFrom [] 0 none bytes).map String.ofList

def encode (text : String) : List UInt8 := text.toList.flatMap String.utf8EncodeChar

end Cdr.Text.Utf8
