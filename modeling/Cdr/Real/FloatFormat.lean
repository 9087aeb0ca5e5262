import Cdr.Power

/-! Binary floating point by exact arithmetic.  A format stores a sign, a biased exponent and a
fraction; a finite number of the format is an integer times a power of two.  A rational number is
rounded to the nearest number of the format, ties going to the even significand, and one beyond the
greatest finite number becomes infinite. -/

namespace Cdr.Real

/-- A binary interchange format, by the widths of its fraction and exponent fields. -/
structure FloatFormat where
  fraction : Nat
  exponent : Nat
deriving DecidableEq, Repr

/-- A finite number: its sign, and its magnitude `significand * 2 ^ scale`. -/
structure Finite where
  negative : Bool
  significand : Nat
  scale : Int
deriving DecidableEq, Repr

/-- What the bits of a format stand for. -/
inductive Datum where
  | finite (x : Finite)
  | infinite (negative : Bool)
  | nan
deriving DecidableEq, Repr

/-- The integer nearest to `num / den`, the even one of two that are equally near. -/
def roundHalfEven (num den : Nat) : Nat :=
  let q := num / den
  let r := num % den
  if 2 * r < den then q
  else if den < 2 * r then q + 1
  else if q % 2 = 0 then q else q + 1

/-- The greatest `e` with `2 ^ e ≤ num / den`, for a positive quotient. -/
def floorLog2 (num den : Nat) : Int :=
  let e : Int := (num.log2 : Int) - (den.log2 : Int)
  if den * 2 ^ e.toNat ≤ num * 2 ^ (-e).toNat then e else e - 1

namespace FloatFormat

def single : FloatFormat := ⟨23, 8⟩

def double : FloatFormat := ⟨52, 11⟩

/-- The scale of the least positive number of the format. -/
def leastScale (f : FloatFormat) : Int := 2 - 2 ^ (f.exponent - 1) - f.fraction

def infinity (f : FloatFormat) : Nat := (2 ^ f.exponent - 1) * 2 ^ f.fraction

def signBit (f : FloatFormat) : Nat := 2 ^ (f.exponent + f.fraction)

/-- The bits of the quiet not-a-number. -/
def quietNaN (f : FloatFormat) : Nat := f.infinity + 2 ^ (f.fraction - 1)

/-- What the bits stand for. -/
def datum (f : FloatFormat) (bits : Nat) : Datum :=
  let negative := decide (f.signBit ≤ bits)
  let e := bits % f.signBit / 2 ^ f.fraction
  let m := bits % 2 ^ f.fraction
  if e = 2 ^ f.exponent - 1 then
    if m = 0 then .infinite negative else .nan
  else if e = 0 then .finite ⟨negative, m, f.leastScale⟩
  else .finite ⟨negative, 2 ^ f.fraction + m, f.leastScale + e - 1⟩

/-- The bits of the number of the format nearest to `num / den`. -/
def nearest (f : FloatFormat) (num den : Nat) : Nat :=
  if num = 0 then 0
  else
    let scale := max f.leastScale (floorLog2 num den - f.fraction)
    let m := roundHalfEven (num * 2 ^ (-scale).toNat) (den * 2 ^ scale.toNat)
    min f.infinity ((scale - f.leastScale).toNat * 2 ^ f.fraction + m)

def signed (f : FloatFormat) (negative : Bool) (bits : Nat) : Nat :=
  if negative then f.signBit + bits else bits

/-- The bits of the number of the format nearest to a finite number. -/
def ofFinite (f : FloatFormat) (x : Finite) : Nat :=
  f.signed x.negative (f.nearest (x.significand * 2 ^ x.scale.toNat) (2 ^ (-x.scale).toNat))

/-- The bits of the number of the format nearest to what is given. -/
def ofDatum (f : FloatFormat) : Datum → Nat
  | .finite x => f.ofFinite x
  | .infinite negative => f.signed negative f.infinity
  | .nan => f.quietNaN

/-- The bits of the number of the format nearest to an integer. -/
def ofInt (f : FloatFormat) (n : Int) : Nat := f.signed (n < 0) (f.nearest n.natAbs 1)

/-- The bits in one format of the number that the bits in another stand for. -/
def convert (source target : FloatFormat) (bits : Nat) : Nat := target.ofDatum (source.datum bits)

/-- Equality of numbers: the two zeros are equal, and what is not a number equals nothing. -/
def equal (f : FloatFormat) (a b : Nat) : Bool :=
  match f.datum a, f.datum b with
  | .nan, _ | _, .nan => false
  | .finite x, .finite y => a == b || (x.significand == 0 && y.significand == 0)
  | _, _ => a == b

end FloatFormat

/-- A number of thirty-two bits as one of sixty-four bits. -/
def widen (bits : UInt32) : UInt64 :=
  UInt64.ofNat (FloatFormat.single.convert .double bits.toNat)

/-- The number of thirty-two bits nearest to one of sixty-four bits. -/
def narrow (bits : UInt64) : UInt32 :=
  UInt32.ofNat (FloatFormat.double.convert .single bits.toNat)

/-- The number of sixty-four bits nearest to an integer. -/
def ofInt (n : Int) : UInt64 := UInt64.ofNat (FloatFormat.double.ofInt n)

end Cdr.Real
