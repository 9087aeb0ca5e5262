import Cdr.Real.FloatFormat
import Cdr.Toml.Lexis

/-! Numbers, dates and times in TOML texts. -/

namespace Cdr.Toml

/-- The number of a digit in a base of at most sixteen. -/
def digit? (base : Nat) (c : Char) : Option Nat := do
  let d ← Text.Hex.ofDigit? c
  if d < base then some d else none

/-- Digits that may have single underscores between them, after those already read. -/
def moreDigits? (base : Nat) (done : List Nat) : List Char → Option (List Nat × List Char)
  | '_' :: c :: rest =>
    match digit? base c with
    | some d => moreDigits? base (d :: done) rest
    | none => none
  | c :: rest =>
    match digit? base c with
    | some d => moreDigits? base (d :: done) rest
    | none => if c = '_' then none else some (done.reverse, c :: rest)
  | [] => some (done.reverse, [])

/-- At least one digit, with single underscores between digits. -/
def digits? (base : Nat) : List Char → Option (List Nat × List Char)
  | c :: rest => do moreDigits? base [← digit? base c] rest
  | [] => none

def ofDigits (base : Nat) (ds : List Nat) : Nat := ds.foldl (fun n d => base * n + d) 0

/-- The digits of a decimal integer: one zero, or digits that do not start with a zero. -/
def wholeDigits? : List Char → Option (List Nat × List Char)
  | '0' :: rest => some ([0], rest)
  | text => digits? 10 text

/-- The sign at the start of a text, if there is one. -/
def sign (text : List Char) : Option Bool × List Char :=
  match text with
  | '+' :: rest => (some false, rest)
  | '-' :: rest => (some true, rest)
  | text => (none, text)

/-- An integer of sixty-four bits. -/
def integer? (n : Int) : Option Int := if -2 ^ 63 ≤ n ∧ n < 2 ^ 63 then some n else none

/-- The float nearest to `m * 10 ^ e`, a number whose leading digits are those of `m`. -/
def nearestDecimal (m : Nat) (e : Int) : Nat :=
  let size := (Nat.toDigits 10 m).length + e
  let f := Real.FloatFormat.double
  if m = 0 ∨ size < -400 then 0
  else if 400 < size then f.infinity
  else f.nearest (m * 10 ^ e.toNat) (10 ^ (-e).toNat)

/-- The bits of the float with the given digits before and after the point and the given exponent.
A positive number beyond the greatest float is refused. -/
def float? (negative : Bool) (whole decimals : List Nat) (exponent : Int) : Option UInt64 :=
  let f := Real.FloatFormat.double
  let bits := nearestDecimal (ofDigits 10 (whole ++ decimals)) (exponent - decimals.length)
  if bits = f.infinity ∧ !negative then none else some (UInt64.ofNat (f.signed negative bits))

/-- The exponent at the start of a text, if there is one. -/
def exponent? : List Char → Option (Option Int × List Char)
  | c :: rest =>
    if c = 'e' ∨ c = 'E' then do
      let (negative, rest) := sign rest
      let (ds, rest) ← digits? 10 rest
      let e : Int := ofDigits 10 ds
      return (some (if negative = some true then -e else e), rest)
    else some (none, c :: rest)
  | [] => some (none, [])

/-- A number. -/
inductive Numeral where
  | integer (n : Int)
  | float (bits : UInt64)
deriving DecidableEq, Repr

def decimal? (negative : Bool) (text : List Char) : Option (Numeral × List Char) := do
  let (whole, rest) ← wholeDigits? text
  let (decimals, rest) ←
    match rest with
    | '.' :: rest => do
      let (ds, rest) ← digits? 10 rest
      pure (some ds, rest)
    | rest => pure (none, rest)
  let (exponent, rest) ← exponent? rest
  if decimals.isNone && exponent.isNone then
    let n : Int := ofDigits 10 whole
    return (.integer (← integer? (if negative then -n else n)), rest)
  else
    return (.float (← float? negative whole (decimals.getD []) (exponent.getD 0)), rest)

/-- An integer in a base other than ten, behind the letter of the base. -/
def based? (base : Nat) (text : List Char) : Option (Numeral × List Char) := do
  let (ds, rest) ← digits? base text
  return (.integer (← integer? (ofDigits base ds)), rest)

def numeral? (text : List Char) : Option (Numeral × List Char) :=
  match text with
  | '0' :: 'x' :: rest => based? 16 rest
  | '0' :: 'o' :: rest => based? 8 rest
  | '0' :: 'b' :: rest => based? 2 rest
  | text =>
    let (negative, rest) := sign text
    let negative := negative.getD false
    let f := Real.FloatFormat.double
    match rest with
    | 'i' :: 'n' :: 'f' :: rest =>
      some (.float (UInt64.ofNat (f.signed negative f.infinity)), rest)
    | 'n' :: 'a' :: 'n' :: rest =>
      some (.float (UInt64.ofNat (f.signed negative f.quietNaN)), rest)
    | rest => decimal? negative rest

/-- A number of exactly two digits within bounds. -/
def twoDigits? (least greatest : Nat) : List Char → Option (Nat × List Char)
  | a :: b :: rest => do
    let n := 10 * (← digit? 10 a) + (← digit? 10 b)
    if least ≤ n ∧ n ≤ greatest then some (n, rest) else none
  | _ => none

def after? (c : Char) : List Char → Option (List Char)
  | d :: rest => if d = c then some rest else none
  | [] => none

def daysOfMonth (year month : Nat) : Nat :=
  let leap := year % 4 = 0 ∧ (year % 100 ≠ 0 ∨ year % 400 = 0)
  if month = 2 then if leap then 29 else 28
  else if month = 4 ∨ month = 6 ∨ month = 9 ∨ month = 11 then 30
  else 31

/-- What follows a date whose year and first dash have been read. -/
def restOfDate? (year : Nat) (text : List Char) : Option (List Char) := do
  let (month, rest) ← twoDigits? 1 12 text
  let rest ← after? '-' rest
  let (_, rest) ← twoDigits? 1 (daysOfMonth year month) rest
  return rest

/-- What follows the fraction of a second, if there is one. -/
def skipFraction? (text : List Char) : Option (List Char) :=
  match text with
  | '.' :: rest =>
    let ds := rest.takeWhile Char.isDigit
    if ds.isEmpty then none else some (rest.drop ds.length)
  | text => some text

/-- What follows a time whose hour and first colon have been read. -/
def restOfTime? (text : List Char) : Option (List Char) := do
  let (_, rest) ← twoDigits? 0 59 text
  let rest ← after? ':' rest
  let (_, rest) ← twoDigits? 0 60 rest
  skipFraction? rest

/-- What follows the hour and the first colon of a time, if the text starts with them. -/
def hour? (text : List Char) : Option (List Char) := do
  let (_, rest) ← twoDigits? 0 23 text
  after? ':' rest

/-- What follows the offset of a time, if there is one. -/
def skipOffset? (text : List Char) : Option (List Char) :=
  match text with
  | 'Z' :: rest | 'z' :: rest => some rest
  | '+' :: rest | '-' :: rest => do
    let (_, rest) ← twoDigits? 0 23 rest
    let rest ← after? ':' rest
    let (_, rest) ← twoDigits? 0 59 rest
    return rest
  | text => some text

/-- What follows the time of a date, if there is one. -/
def skipTimeOfDate? (text : List Char) : Option (List Char) :=
  match text with
  | c :: rest =>
    if c = 'T' ∨ c = 't' ∨ c = ' ' then
      match hour? rest with
      | some rest => do skipOffset? (← restOfTime? rest)
      | none => some text
    else some text
  | [] => some []

/-- The year and what follows the first dash of a date, if the text starts with them. -/
def year? (text : List Char) : Option (Nat × List Char) :=
  match text with
  | a :: b :: c :: d :: '-' :: rest => do
    let ds ← [a, b, c, d].mapM (digit? 10)
    return (ofDigits 10 ds, rest)
  | _ => none

/-- What follows the date or the time at the start of a text.  The outer option says whether the
text starts like one, the inner one whether it is one. -/
def dateTime? (text : List Char) : Option (Option (List Char)) :=
  match year? text, hour? text with
  | some (year, rest), _ => some (restOfDate? year rest >>= skipTimeOfDate?)
  | none, some rest => some (restOfTime? rest)
  | none, none => none

end Cdr.Toml
