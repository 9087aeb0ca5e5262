/-! Bytes written as lower-case hexadecimal digits, two for each byte. -/

namespace Cdr.Text.Hex

/-- The digit of a number below sixteen. -/
def digit (n : Nat) : Char :=
  if n < 10 then Char.ofNat (48 + n) else Char.ofNat (87 + n)

/-- The number of a digit, in either case. -/
def ofDigit? (c : Char) : Option Nat :=
  if '0' ≤ c ∧ c ≤ '9' then some (c.toNat - 48)
  else if 'a' ≤ c ∧ c ≤ 'f' then some (c.toNat - 87)
  else if 'A' ≤ c ∧ c ≤ 'F' then some (c.toNat - 55)
  else none

def ofByte (b : UInt8) : List Char := [digit (b.toNat / 16), digit (b.toNat % 16)]

def encode (bytes : List UInt8) : String := String.ofList (bytes.flatMap ofByte)

/-- The bytes of a list of digits, in front of those already read, last byte first. -/
def decodeFrom (done : List UInt8) : List Char → Option (List UInt8)
  | [] => some done.reverse
  | [_] => none
  | high :: low :: rest =>
    match ofDigit? high, ofDigit? low with
    | some h, some l => decodeFrom (UInt8.ofNat (16 * h + l) :: done) rest
    | _, _ => none

def decode? (text : String) : Option (List UInt8) := decodeFrom [] text.toList

/-- The number that a list of digits stands for, the most significant digit first. -/
def number? : List Char → Option Nat
  | [] => none
  | digits => digits.foldl (fun n c => do return 16 * (← n) + (← ofDigit? c)) (some 0)

end Cdr.Text.Hex
