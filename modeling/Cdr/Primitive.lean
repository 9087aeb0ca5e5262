import Cdr.Power

/-! The primitive types of the wire format: booleans, one-byte characters, eight integer types and
two float types.  A primitive is aligned to its own size.  An `Integer` is a number together with
the integer type that it is carried in. -/

namespace Cdr

/-- The integer types, by signedness and width in bits. -/
inductive IntegerType where
  | int8 | int16 | int32 | int64
  | uint8 | uint16 | uint32 | uint64
deriving DecidableEq, Repr

namespace IntegerType

def all : List IntegerType := [int8, int16, int32, int64, uint8, uint16, uint32, uint64]

def size : IntegerType → Nat
  | int8 | uint8 => 1
  | int16 | uint16 => 2
  | int32 | uint32 => 4
  | int64 | uint64 => 8

def isSigned : IntegerType → Bool
  | int8 | int16 | int32 | int64 => true
  | uint8 | uint16 | uint32 | uint64 => false

def least (t : IntegerType) : Int :=
  if t.isSigned then -(2 ^ (8 * t.size - 1) : Nat) else 0

def greatest (t : IntegerType) : Int :=
  if t.isSigned then (2 ^ (8 * t.size - 1) : Nat) - 1 else (2 ^ (8 * t.size) : Nat) - 1

def Holds (t : IntegerType) (n : Int) : Prop := t.least ≤ n ∧ n ≤ t.greatest

instance (t : IntegerType) (n : Int) : Decidable (t.Holds n) :=
  inferInstanceAs (Decidable (_ ∧ _))

/-- The name of the type in declarations and messages. -/
def name : IntegerType → String
  | int8 => "int8"
  | int16 => "int16"
  | int32 => "int32"
  | int64 => "int64"
  | uint8 => "uint8"
  | uint16 => "uint16"
  | uint32 => "uint32"
  | uint64 => "uint64"

/-- The number that the low bits `n` stand for: two's complement for a signed type. -/
def ofBits (t : IntegerType) (n : Nat) : Int :=
  if t.isSigned then Int.bmod n (2 ^ (8 * t.size)) else (n % 2 ^ (8 * t.size) : Nat)

/-- The low bits of a number in two's complement. -/
def toBits (t : IntegerType) (n : Int) : Nat := (n % (2 ^ (8 * t.size) : Nat)).toNat

theorem holds_ofBits (t : IntegerType) (n : Nat) : t.Holds (t.ofBits n) := by
  cases t <;> simp [Holds, ofBits, least, greatest, isSigned, size, Int.bmod] <;> omega

theorem toBits_lt (t : IntegerType) (n : Int) : t.toBits n < 256 ^ t.size := by
  cases t <;> simp [toBits, size] <;> omega

/-- A number of the type is read back from its bits. -/
theorem ofBits_toBits {t : IntegerType} {n : Int} (h : t.Holds n) : t.ofBits (t.toBits n) = n := by
  cases t <;> simp [Holds, ofBits, toBits, least, greatest, isSigned, size, Int.bmod] at h ⊢ <;>
    omega

end IntegerType

/-- A number in the integer type that carries it. -/
structure Integer where
  type : IntegerType
  number : Int
  holds : type.Holds number
deriving DecidableEq, Repr

namespace Integer

/-- The number in the given type, if the type has it. -/
def ofInt? (type : IntegerType) (number : Int) : Option Integer :=
  if h : type.Holds number then some ⟨type, number, h⟩ else none

/-- The number that the low bits stand for in the given type. -/
def ofBits (type : IntegerType) (bits : Nat) : Integer :=
  ⟨type, type.ofBits bits, type.holds_ofBits bits⟩

/-- The low bits of the number in two's complement. -/
def toBits (n : Integer) : Nat := n.type.toBits n.number

theorem ofBits_toBits (n : Integer) : ofBits n.type n.toBits = n := by
  cases n with
  | mk type number holds => simp [ofBits, toBits, IntegerType.ofBits_toBits holds]

end Integer

/-- The primitive types. -/
inductive Primitive where
  | bool
  /-- One byte, a code point below 256. -/
  | char
  | integer (type : IntegerType)
  | float32
  | float64
deriving DecidableEq, Repr

namespace Primitive

def all : List Primitive := bool :: char :: IntegerType.all.map integer ++ [float32, float64]

def size : Primitive → Nat
  | bool | char => 1
  | integer t => t.size
  | float32 => 4
  | float64 => 8

def alignment (p : Primitive) : Nat := p.size

/-- The name of the type in declarations and messages. -/
def name : Primitive → String
  | bool => "bool"
  | char => "char"
  | integer t => t.name
  | float32 => "float32"
  | float64 => "float64"

def ofName? (name : String) : Option Primitive := all.find? (·.name == name)

/-- Every primitive but a float can select the case of a union. -/
def isDiscriminator : Primitive → Bool
  | float32 | float64 => false
  | _ => true

/-- The least and greatest number of an integer type. -/
def range? : Primitive → Option (Int × Int)
  | integer t => some (t.least, t.greatest)
  | _ => none

theorem ofName?_name (p : Primitive) : ofName? p.name = some p := by
  cases p with
  | integer t => cases t <;> decide +kernel
  | _ => decide +kernel

end Primitive

end Cdr
