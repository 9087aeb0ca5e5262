import Cdr.Layout.Basic
import Cdr.Text.Utf8
import Cdr.Value

/-! Writing values.  A layout accepts every value that it can turn into one of its own without loss:
an integer of another type if its number fits, an integer as a float, an array of small integers as
bytes, an ordinal as an enumerator, and structs with members that are not declared.  A fault inside
a member, an element or a case carries the path that leads to it. -/

namespace Cdr.Layout

/-- The value is of a kind that the layout does not accept. -/
def kindMismatch (expected : String) (v : Value) : Cause := .mismatch expected v.kind

/-- The value is of an accepted kind, but its number is out of range. -/
def rangeMismatch (expected : String) (v : Value) : Cause := .mismatch expected v.outOfRangeText

def putByte (b : UInt8) : Coding Unit := Coding.put [b]

/-- Checks a length against a bound. -/
def checkBound (member : String) (length : Nat) (bound : Option UInt64) : Coding Unit :=
  match bound with
  | some bound =>
    if bound.toNat < length then Coding.fail (.boundExceeded member length bound.toNat)
    else pure ()
  | none => pure ()

def writeCount (w : CountWidth) (member : String) (count : Nat) : Coding Unit :=
  if w.greatest < count then Coding.fail (.boundExceeded member count w.greatest)
  else Coding.putWord w.bytes count

/-- The byte of a character or of a small integer. -/
def charByte (v : Value) : Except Cause UInt8 :=
  match v with
  | .char c =>
    if c.toNat < 256 then .ok (UInt8.ofNat c.toNat) else .error (rangeMismatch "char" v)
  | .integer ⟨.uint8, n, _⟩ => .ok (UInt8.ofNat n.toNat)
  | v => .error (kindMismatch "char" v)

def fittingNumber (t : IntegerType) (v : Value) : Except Cause Int :=
  match v.asInt? with
  | none => .error (kindMismatch t.name v)
  | some n => if t.Holds n then .ok n else .error (rangeMismatch t.name v)

def floatBits (expected : String) (v : Value) : Except Cause UInt64 :=
  match v.asFloat? with
  | some bits => .ok bits
  | none => .error (kindMismatch expected v)

def orFail {α : Type} : Except Cause α → Coding α
  | .ok x => pure x
  | .error cause => Coding.fail cause

def writePrimitive (p : Primitive) (v : Value) : Coding Unit :=
  match p with
  | .bool =>
    match v with
    | .bool b => putByte (if b then 1 else 0)
    | v => Coding.fail (kindMismatch "bool" v)
  | .char => do putByte (← orFail (charByte v))
  | .integer t => do
    let n ← orFail (fittingNumber t v)
    Coding.putWord t.size (t.toBits n)
  | .float32 => do
    let bits ← orFail (floatBits "float32" v)
    Coding.putWord 4 (Real.narrow bits).toNat
  | .float64 => do
    let bits ← orFail (floatBits "float64" v)
    Coding.putWord 8 bits.toNat

/-- The greatest number of bytes of a text: its count has to include the zero byte. -/
def greatestText : Nat := 2 ^ 32 - 2

/-- Writes a text behind its count and with a zero byte at its end. -/
def writeString (bound : Option UInt64) (v : Value) : Coding Unit :=
  match v.asString? with
  | none => Coding.fail (kindMismatch "string" v)
  | some text => do
    let bytes := Text.Utf8.encode text
    checkBound "string" bytes.length bound
    if greatestText < bytes.length then
      Coding.fail (.boundExceeded "string" bytes.length greatestText)
    Coding.putWord 4 (bytes.length + 1)
    Coding.put bytes
    putByte 0

/-- The bytes of the items of an array, after those already turned into bytes. -/
def itemBytes (done : List UInt8) : List Value → Except Cause (List UInt8)
  | [] => .ok done.reverse
  | v :: items =>
    match fittingNumber .uint8 v with
    | .ok n => itemBytes (UInt8.ofNat n.toNat :: done) items
    | .error cause => .error cause

def writeBytes (w : CountWidth) (bound : Option UInt64) (v : Value) : Coding Unit := do
  let data ← orFail <|
    match v with
    | .bytes data => .ok data
    | .array items => itemBytes [] items
    | v => .error (kindMismatch "bytes" v)
  checkBound "bytes" data.length bound
  writeCount w "bytes" data.length
  Coding.put data

/-- The ordinal of an enumerator, given by its name or by the ordinal. -/
def ordinalOf? (enumerators : List Enumerator) (v : Value) : Option UInt32 :=
  match v with
  | .enumerator name => Enumerator.ordinalOf? name enumerators
  | v => do
    let n ← v.asInt?
    if 0 ≤ n ∧ n < 2 ^ 32 then
      let ordinal := UInt32.ofNat n.toNat
      if (Enumerator.nameOf? ordinal enumerators).isSome then some ordinal else none
    else none

def writeEnumerator (name : String) (enumerators : List Enumerator) (v : Value) : Coding Unit :=
  match ordinalOf? enumerators v with
  | some ordinal => Coding.putWord 4 ordinal.toNat
  | none => Coding.fail (kindMismatch s!"enumerator of '{name}'" v)

/-- The name of the element at place `i` in a path. -/
def elementName (i : Nat) : String := "[" ++ toString i ++ "]"

/-- Writes the elements of a collection, the first of which is at place `i`. -/
def writeEach (element : Value → Coding Unit) (i : Nat) : List Value → Coding Unit
  | [] => pure ()
  | v :: items => do
    Coding.inField (elementName i) (element v)
    writeEach element (i + 1) items

/-- Writes the entries of a map, the first of which is at place `i`. -/
def writeEntries (key value : Value → Coding Unit) (i : Nat) :
    List (Value × Value) → Coding Unit
  | [] => pure ()
  | (k, v) :: entries => do
    Coding.inField (elementName i ++ ".key") (key k)
    Coding.inField (elementName i ++ ".value") (value v)
    writeEntries key value (i + 1) entries

mutual

/-- Writes a value, with `follow` for what lies behind a reference. -/
def writeWith (w : CountWidth) (follow : Reference → Value → Coding Unit) :
    Layout → Value → Coding Unit
  | primitive p, v => writePrimitive p v
  | string bound, v => writeString bound v
  | bytes bound, v => writeBytes w bound v
  | array element length, v =>
    match v.asItems? with
    | none => Coding.fail (kindMismatch "array" v)
    | some items =>
      if items.length = length.toNat then writeEach (writeWith w follow element) 0 items
      else
        Coding.fail (.mismatch s!"array of {length.toNat} elements" s!"{items.length} elements")
  | sequence element bound, v =>
    match v.asItems? with
    | none => Coding.fail (kindMismatch "sequence" v)
    | some items => do
      checkBound "sequence" items.length bound
      writeCount w "sequence" items.length
      writeEach (writeWith w follow element) 0 items
  | map key value bound, v =>
    match v with
    | .map entries => do
      checkBound "map" entries.length bound
      writeCount w "map" entries.length
      writeEntries (writeWith w follow key) (writeWith w follow value) 0 entries
    | v => Coding.fail (kindMismatch "map" v)
  | enumeration name enumerators, v => writeEnumerator name enumerators v
  | struct name members, v =>
    match v.asMembers? with
    | some given => writeMembers w follow name given members
    | none => Coding.fail (kindMismatch s!"struct '{name}'" v)
  | union ⟨name, discriminator, cases, fallback, tagOnly⟩, v =>
    match v with
    | .union label payload => do
      Coding.align (unionAlignment w ⟨name, discriminator, cases, fallback, tagOnly⟩)
      match label with
      | some label =>
        match writeCase w follow label payload cases, discriminator.contains label with
        | some content, true => do
          discriminator.write label
          if !tagOnly then content
        | _, _ => Coding.fail (.unknownLabel name label)
      | none =>
        match fallback with
        | some ⟨field, sentinel, content⟩ => do
          discriminator.write sentinel
          if !tagOnly then Coding.inField field (writeWith w follow content payload)
        | none =>
          Coding.fail
            (.mismatch s!"case label of union '{name}'" "default (union has no default case)")
    | v => Coding.fail (kindMismatch s!"union '{name}'" v)
  | optional inner, v =>
    if v.isNull then putByte 0
    else do
      putByte 1
      writeWith w follow inner v
  | reference target, v => follow target v
termination_by structural l => l

def writeMembers (w : CountWidth) (follow : Reference → Value → Coding Unit) (name : String)
    (given : List (String × Value)) : List (Member Layout) → Coding Unit
  | [] => pure ()
  | ⟨field, content⟩ :: members =>
    match Dictionary.find? field given with
    | none => Coding.fail (.missingMember name field)
    | some v => do
      Coding.inField field (writeWith w follow content v)
      writeMembers w follow name given members
termination_by structural members => members

/-- Writes the payload of the first case with a label, if there is one. -/
def writeCase (w : CountWidth) (follow : Reference → Value → Coding Unit) (label : Label)
    (payload : Value) : List (Case Layout) → Option (Coding Unit)
  | [] => none
  | ⟨field, labels, content⟩ :: cases =>
    if labels.contains label then
      some (Coding.inField field (writeWith w follow content payload))
    else writeCase w follow label payload cases
termination_by structural cases => cases

end

/-- Writes a value that nests through at most `budget` references. -/
def write (types : Lookup) (w : CountWidth) : Nat → Layout → Value → Coding Unit
  | 0 => writeWith w fun target _ => Coding.fail (nestingCause target.name)
  | budget + 1 => writeWith w fun target v =>
    match types target.id target.role with
    | .ok layout => write types w budget layout v
    | .error fault => throw fault

end Cdr.Layout
