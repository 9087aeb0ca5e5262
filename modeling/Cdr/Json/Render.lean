import Cdr.Json.Basic
import Cdr.Real.Decimal
import Cdr.Text.Hex

/-! JSON documents as texts without blanks.  A float is written with the fewest digits that identify
it, positionally from `1e-5` up to `1e16` and with an exponent otherwise. -/

namespace Cdr.Json

def naturalChars (n : Nat) : List Char := Nat.toDigits 10 n

def integerChars (n : Int) : List Char :=
  if n < 0 then '-' :: naturalChars n.natAbs else naturalChars n.natAbs

/-- The digits of a decimal without the zeros at their end, and the scale of the last digit. -/
def trimmed (d : Real.Decimal) : List Char × Int :=
  let ds := naturalChars d.digits
  let kept := (ds.reverse.dropWhile (· == '0')).reverse
  (kept, d.scale + (ds.length - kept.length : Nat))

/-- A positive decimal as a numeral with a point or an exponent. -/
def decimalChars (d : Real.Decimal) : List Char :=
  let (ds, scale) := trimmed d
  let point := (ds.length : Int) + scale
  if 0 ≤ scale ∧ point ≤ 16 then ds ++ List.replicate scale.toNat '0' ++ ['.', '0']
  else if 0 < point ∧ point ≤ 16 then ds.take point.toNat ++ '.' :: ds.drop point.toNat
  else if -5 < point ∧ point ≤ 0 then
    '0' :: '.' :: List.replicate (-point).toNat '0' ++ ds
  else
    let mantissa :=
      match ds with
      | [] => []
      | [d] => [d]
      | d :: ds => d :: '.' :: ds
    mantissa ++ 'e' :: integerChars (point - 1)

def floatChars (x : Real.Finite) : List Char :=
  let magnitude :=
    if x.significand = 0 then ['0', '.', '0'] else decimalChars (Real.shortest x)
  if x.negative then '-' :: magnitude else magnitude

namespace Number

def chars : Number → List Char
  | integer n => integerChars n
  | float bits =>
    match Real.FloatFormat.double.datum bits.toNat with
    | .finite x => floatChars x
    | _ => ['n', 'u', 'l', 'l']

end Number

def escapeChar (c : Char) : List Char :=
  if c = '"' then ['\\', '"']
  else if c = '\\' then ['\\', '\\']
  else if c.toNat < 32 then
    if c = '\n' then ['\\', 'n']
    else if c = '\r' then ['\\', 'r']
    else if c = '\t' then ['\\', 't']
    else if c.toNat = 8 then ['\\', 'b']
    else if c.toNat = 12 then ['\\', 'f']
    else ['\\', 'u', '0', '0', Text.Hex.digit (c.toNat / 16), Text.Hex.digit (c.toNat % 16)]
  else [c]

def stringChars (text : String) : List Char := '"' :: text.toList.flatMap escapeChar ++ ['"']

mutual

def chars : Json → List Char
  | null => ['n', 'u', 'l', 'l']
  | bool true => ['t', 'r', 'u', 'e']
  | bool false => ['f', 'a', 'l', 's', 'e']
  | number n => n.chars
  | string text => stringChars text
  | array [] => ['[', ']']
  | array (item :: items) => '[' :: chars item ++ itemsChars items
  | object [] => ['{', '}']
  | object ((key, value) :: entries) =>
    '{' :: stringChars key ++ ':' :: chars value ++ entriesChars entries
termination_by structural j => j

/-- The text of the items of an array after the first, and its end. -/
def itemsChars : List Json → List Char
  | [] => [']']
  | item :: items => ',' :: chars item ++ itemsChars items
termination_by structural items => items

/-- The text of the entries of an object after the first, and its end. -/
def entriesChars : List (String × Json) → List Char
  | [] => ['}']
  | (key, value) :: entries =>
    ',' :: stringChars key ++ ':' :: chars value ++ entriesChars entries
termination_by structural entries => entries

end

def render (j : Json) : String := String.ofList j.chars

end Cdr.Json
