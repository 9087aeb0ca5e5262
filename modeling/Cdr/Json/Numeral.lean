import Cdr.Json.Basic

/-! The numerals of JSON texts.  A numeral without a point or an exponent stands for an integer if
one of sixty-four bits has that value.  Any other numeral stands for a float: its digits are
gathered into a word for as long as they fit, and the word is scaled by a power of ten in
floating-point arithmetic, which rounds at each step. -/

namespace Cdr.Json.Numeral

def greatest : Nat := 2 ^ 64 - 1

/-- The parts of a numeral: the sign, the digits before and after the point, and the exponent. -/
structure Parts where
  negative : Bool
  whole : List Nat
  decimals : Option (List Nat)
  exponent : Option (Bool × List Nat)
deriving DecidableEq, Repr

/-- The leading decimal digits of a text and what follows them. -/
def digits : List Char → List Nat × List Char
  | [] => ([], [])
  | c :: cs =>
    if c.isDigit then
      let (ds, rest) := digits cs
      ((c.toNat - 48) :: ds, rest)
    else ([], c :: cs)

/-- The digits before the point: one zero, or digits that do not start with a zero. -/
def scanWhole (text : List Char) : Option (List Nat × List Char) :=
  match digits text with
  | ([], _) => none
  | (0 :: _ :: _, _) => none
  | (ds, rest) => some (ds, rest)

/-- The point and the digits after it, if there is a point. -/
def scanDecimals : List Char → Option (Option (List Nat) × List Char)
  | '.' :: rest =>
    match digits rest with
    | ([], _) => none
    | (ds, rest) => some (some ds, rest)
  | text => some (none, text)

def scanExponentDigits (negative : Bool) (text : List Char) :
    Option (Option (Bool × List Nat) × List Char) :=
  match digits text with
  | ([], _) => none
  | (ds, rest) => some (some (negative, ds), rest)

def scanExponent : List Char → Option (Option (Bool × List Nat) × List Char)
  | 'e' :: rest | 'E' :: rest =>
    match rest with
    | '-' :: rest => scanExponentDigits true rest
    | '+' :: rest => scanExponentDigits false rest
    | rest => scanExponentDigits false rest
  | text => some (none, text)

/-- The numeral at the start of a text and what follows it. -/
def scan (text : List Char) : Option (Parts × List Char) := do
  let (negative, text) :=
    match text with
    | '-' :: rest => (true, rest)
    | text => (false, text)
  let (whole, text) ← scanWhole text
  let (decimals, text) ← scanDecimals text
  let (exponent, text) ← scanExponent text
  return (⟨negative, whole, decimals, exponent⟩, text)

/-- The word of the leading digits that fit one, starting from a word, and the digits left. -/
def gather (word : Nat) : List Nat → Nat × List Nat
  | [] => (word, [])
  | d :: ds => if 10 * word + d ≤ greatest then gather (10 * word + d) ds else (word, d :: ds)

def scaleUp (bits power : Nat) : Nat :=
  let f := Real.FloatFormat.double
  match f.datum bits, f.datum power with
  | .finite x, .finite y =>
    f.ofFinite ⟨x.negative != y.negative, x.significand * y.significand, x.scale + y.scale⟩
  | _, _ => f.quietNaN

def scaleDown (bits power : Nat) : Nat :=
  let f := Real.FloatFormat.double
  match f.datum bits, f.datum power with
  | .finite x, .finite y =>
    let scale := x.scale - y.scale
    f.signed (x.negative != y.negative)
      (f.nearest (x.significand * 2 ^ scale.toNat) (y.significand * 2 ^ (-scale).toNat))
  | _, _ => f.quietNaN

def powerOfTen (n : Nat) : Nat := Real.FloatFormat.double.nearest (10 ^ n) 1

/-- A positive float divided by a power of ten, in steps that a float can hold. -/
def shrink (bits : Nat) (power : Nat) : Nat :=
  if power ≤ 308 then scaleDown bits (powerOfTen power)
  else if bits = 0 then 0
  else shrink (scaleDown bits (powerOfTen 308)) (power - 308)
termination_by power

/-- A word times a power of ten as a float, or nothing if it is beyond the greatest float. -/
def scaled (word : Nat) (power : Int) : Option Nat :=
  let bits := Real.FloatFormat.double.nearest word 1
  if power < 0 then some (shrink bits (-power).toNat)
  else if bits = 0 then some 0
  else if 308 < power then none
  else
    let product := scaleUp bits (powerOfTen power.toNat)
    if product = Real.FloatFormat.double.infinity then none else some product

/-- The number of a list of digits, but never more than `limit`. -/
def bounded (limit : Nat) (ds : List Nat) : Nat := ds.foldl (fun n d => min limit (10 * n + d)) 0

/-- An exponent has to stay below this bound. -/
def exponentLimit : Nat := 2 ^ 31

/-- The power of ten of a numeral whose word is scaled by `power` before its exponent.  A zero word
and a negative exponent make an exponent beyond the limit harmless: the number is zero. -/
def totalPower (word : Nat) (power : Int) : Option (Bool × List Nat) → Option (Option Int)
  | none => some (some power)
  | some (negative, ds) =>
    let e := bounded exponentLimit ds
    if e < exponentLimit then
      let sum := if negative then power - e else power + e
      some (some (max (-(exponentLimit : Int)) (min (exponentLimit - 1) sum)))
    else if word = 0 || negative then some none
    else none

/-- The float of a numeral, or nothing if it is beyond the greatest float. -/
def float? (p : Parts) : Option UInt64 := do
  let (word, skipped) := gather 0 p.whole
  let (word, power) :=
    match p.decimals with
    | none => (word, (skipped.length : Int))
    | some ds =>
      let (word', left) := gather word ds
      (word', (skipped.length : Int) - (ds.length - left.length : Nat))
  let bits ←
    match ← totalPower word power p.exponent with
    | none => some 0
    | some power => scaled word power
  return UInt64.ofNat (Real.FloatFormat.double.signed p.negative bits)

/-- The number of a numeral, or nothing if it is beyond the greatest float. -/
def value? (p : Parts) : Option Number :=
  match p.decimals, p.exponent, gather 0 p.whole with
  | none, none, (word, []) =>
    if p.negative then
      if word = 0 ∨ 2 ^ 63 < word then (float? p).map .float else some (.integer (-word))
    else some (.integer word)
  | _, _, _ => (float? p).map .float

end Cdr.Json.Numeral
