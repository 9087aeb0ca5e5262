import Cdr.Buffer
import Cdr.Declaration.Shape

/-! Discriminators: the tags that select the case of a union.  A tag is a number of a primitive type
or an ordinal of an enumeration.  The candidates of a discriminator are the labels that it can hold,
in the order in which a tag for the default case is looked for. -/

namespace Cdr

/-- The type of the tag of a union. -/
inductive Discriminator where
  | primitive (p : Primitive)
  | enumeration (name : String) (enumerators : List Enumerator)
deriving DecidableEq, Repr

namespace Discriminator

/-- A tag is aligned to its size. -/
def alignment : Discriminator → Nat
  | primitive p => p.alignment
  | enumeration .. => 4

def contains (d : Discriminator) (label : Label) : Bool :=
  match d with
  | primitive .bool => label.toInt == 0 || label.toInt == 1
  | primitive .char => decide (0 ≤ label.toInt ∧ label.toInt ≤ 255)
  | primitive (.integer t) => decide (t.Holds label.toInt)
  | primitive _ => false
  | enumeration _ enumerators => enumerators.any fun e => (e.ordinal.toNat : Int) == label.toInt

/-- The label at place `i` of a range of numbers. -/
def inRange? (least greatest : Int) (i : Nat) : Option Label :=
  if least + i ≤ greatest then Label.ofInt? (least + i) else none

/-- The candidate at place `i`: false before true, numbers upward from the least, ordinals as they
are declared. -/
def candidate? (d : Discriminator) (i : Nat) : Option Label :=
  match d with
  | primitive .bool => inRange? 0 1 i
  | primitive .char => inRange? 0 255 i
  | primitive (.integer t) => inRange? t.least t.greatest i
  | primitive _ => none
  | enumeration _ enumerators =>
    enumerators[i]?.map fun e => Int64.ofInt e.ordinal.toNat

/-- The first `count` candidates. -/
def candidates (d : Discriminator) (count : Nat) : List Label :=
  (List.range count).filterMap d.candidate?

/-- The first candidate that is none of the labels. -/
def sentinel? (d : Discriminator) (labels : List Label) : Option Label :=
  (d.candidates (labels.length + 1)).find? (!labels.contains ·)

def floatCause : Cause := .invalidData "union discriminator" "floating point discriminator"

/-- The type of the number that stands for a tag. -/
def tagType? : Discriminator → Option IntegerType
  | primitive .bool | primitive .char => some .uint8
  | primitive (.integer t) => some t
  | primitive _ => none
  | enumeration .. => some .uint32

def write (d : Discriminator) (label : Label) : Coding Unit :=
  match d.tagType? with
  | some t => Coding.putWord t.size (t.toBits label.toInt)
  | none => Coding.fail floatCause

def read (d : Discriminator) : Coding Label :=
  match d.tagType? with
  | some t => do
    let number := t.ofBits (← Coding.takeWord t.size)
    match Label.ofInt? number with
    | some label => return label
    | none => Coding.fail (.invalidData "union discriminator" s!"{number} out of range")
  | none => Coding.fail floatCause

end Discriminator

end Cdr
