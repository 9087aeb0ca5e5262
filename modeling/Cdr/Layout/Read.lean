import Cdr.Layout.Basic
import Cdr.Text.Utf8
import Cdr.Value

/-! Reading values.  A value that is read is of the kind that the layout declares. -/

namespace Cdr.Layout

def takeByte : Coding UInt8 := do
  return UInt8.ofNat (← Coding.takeWord 1)

def readCount (w : CountWidth) (context : String) (bound : Option UInt64) : Coding Nat := do
  let count ← Coding.takeWord w.bytes
  match bound with
  | some bound =>
    if bound.toNat < count then
      Coding.fail (.invalidData context s!"count {count} exceeds bound {bound.toNat}")
    else return count
  | none => return count

def readPrimitive : Primitive → Coding Value
  | .bool => do
    let b ← takeByte
    if b = 0 then return .bool false
    else if b = 1 then return .bool true
    else Coding.fail (.invalidData "bool" s!"byte {b.toNat} is neither 0 nor 1")
  | .char => do return .char (Char.ofNat (← takeByte).toNat)
  | .integer t => do return .integer (Integer.ofBits t (← Coding.takeWord t.size))
  | .float32 => do return .float32 (UInt32.ofNat (← Coding.takeWord 4))
  | .float64 => do return .float64 (UInt64.ofNat (← Coding.takeWord 8))

/-- Reads a text: its count includes the zero byte at its end. -/
def readString (bound : Option UInt64) : Coding Value := do
  let count ← Coding.takeWord 4
  if count = 0 then
    Coding.fail (.invalidData "string" "length 0 leaves no room for the terminator")
  if let some bound := bound then
    if bound.toNat < count - 1 then
      Coding.fail
        (.invalidData "string" s!"length {count - 1} exceeds bound {bound.toNat}")
  let raw ← Coding.take count
  if raw.getLast? ≠ some 0 then
    Coding.fail (.invalidData "string" "missing NUL terminator")
  match Text.Utf8.decode raw.dropLast with
  | .ok text => return .string text
  | .error flaw => Coding.fail (.invalidData "string" flaw.message)

def readBytes (w : CountWidth) (bound : Option UInt64) : Coding Value := do
  let count ← readCount w "bytes" bound
  return .bytes (← Coding.take count)

/-- Reads an ordinal as the enumerator that it stands for. -/
def readEnumerator (name : String) (enumerators : List Enumerator) : Coding Value := do
  let ordinal ← Coding.takeWord 4
  match Enumerator.nameOf? (UInt32.ofNat ordinal) enumerators with
  | some enumerator => return .enumerator enumerator
  | none => Coding.fail (.invalidData s!"enum '{name}'" s!"undeclared ordinal {ordinal}")

/-- Reads `count` things, after those already read, last one first. -/
def readEach {α : Type} (element : Coding α) (done : List α) : Nat → Coding (List α)
  | 0 => return done.reverse
  | count + 1 => do
    let x ← element
    readEach element (x :: done) count

mutual

/-- Reads a value, with `follow` for what lies behind a reference. -/
def readWith (w : CountWidth) (follow : Reference → Coding Value) : Layout → Coding Value
  | primitive p => readPrimitive p
  | string bound => readString bound
  | bytes bound => readBytes w bound
  | array element length => do
    return .array (← readEach (readWith w follow element) [] length.toNat)
  | sequence element bound => do
    let count ← readCount w "sequence" bound
    return .array (← readEach (readWith w follow element) [] count)
  | map key value bound => do
    let count ← readCount w "map" bound
    let entry : Coding (Value × Value) := do
      let k ← readWith w follow key
      let v ← readWith w follow value
      return (k, v)
    return .map (← readEach entry [] count)
  | enumeration name enumerators => readEnumerator name enumerators
  | struct _ members => do return .struct (← readMembers w follow [] members)
  | union ⟨name, discriminator, cases, fallback, tagOnly⟩ => do
    Coding.skipTo (unionAlignment w ⟨name, discriminator, cases, fallback, tagOnly⟩)
    let label ← discriminator.read
    match readCase w follow label cases with
    | some content =>
      if tagOnly then return .union (some label) .null
      else return .union (some label) (← content)
    | none =>
      match fallback with
      | some ⟨_, _, content⟩ =>
        if tagOnly then return .union none .null
        else return .union none (← readWith w follow content)
      | none =>
        Coding.fail (.invalidData s!"union '{name}'"
          s!"discriminator {label.toInt} selects no case and there is no default")
  | optional inner => do
    let flag ← takeByte
    if flag = 0 then return .null
    else if flag = 1 then readWith w follow inner
    else Coding.fail (.invalidData "optional" s!"presence flag {flag.toNat}")
  | reference target => follow target
termination_by structural l => l

/-- Reads the members of a struct, after those already read. -/
def readMembers (w : CountWidth) (follow : Reference → Coding Value)
    (done : List (String × Value)) : List (Member Layout) → Coding (List (String × Value))
  | [] => return done
  | ⟨field, content⟩ :: members => do
    let v ← readWith w follow content
    readMembers w follow (Dictionary.insert field v done) members
termination_by structural members => members

/-- Reads the payload of the first case with a label, if there is one. -/
def readCase (w : CountWidth) (follow : Reference → Coding Value) (label : Label) :
    List (Case Layout) → Option (Coding Value)
  | [] => none
  | ⟨_, labels, content⟩ :: cases =>
    if labels.contains label then some (readWith w follow content)
    else readCase w follow label cases
termination_by structural cases => cases

end

/-- Reads a value that nests through at most `budget` references. -/
def read (types : Lookup) (w : CountWidth) : Nat → Layout → Coding Value
  | 0 => readWith w fun target => Coding.fail (nestingCause target.name)
  | budget + 1 => readWith w fun target =>
    match types target.id target.role with
    | .ok layout => read types w budget layout
    | .error fault => throw fault

end Cdr.Layout
