import Cdr.Value
import Cdr.Json.Outline

/-! Values as JSON documents.  A value is an object of one entry, whose name is the title of its
kind and whose document is its content; the absent value is only its title.  Reading is from the
outline of a text, and a text whose arrays and objects nest too deeply is refused. -/

namespace Cdr.Value

open Json (Outline)

def title : Value → String
  | bool _ => "Bool"
  | char _ => "Char"
  | integer n => typeTitle n.type
  | float32 _ => "Float32"
  | float64 _ => "Float64"
  | string _ => "String"
  | bytes _ => "Bytes"
  | enumerator _ => "Enum"
  | array _ => "Array"
  | map _ => "Map"
  | struct _ => "Struct"
  | union .. => "Union"
  | null => "Null"

mutual

def toJson : Value → Json
  | bool b => .object [("Bool", .bool b)]
  | char c => .object [("Char", .string c.toString)]
  | integer n => .object [(typeTitle n.type, Json.ofInt n.number)]
  | float32 bits => .object [("Float32", Json.ofFloat (Real.widen bits))]
  | float64 bits => .object [("Float64", Json.ofFloat bits)]
  | string text => .object [("String", .string text)]
  | bytes data => .object [("Bytes", .array (data.map fun b => Json.ofInt b.toNat))]
  | enumerator name => .object [("Enum", .string name)]
  | array items => .object [("Array", .array (itemsToJson items))]
  | map entries => .object [("Map", .array (entriesToJson entries))]
  | struct members => .object [("Struct", .object (membersToJson members))]
  | union label payload =>
    .object [("Union", .object
      [("label", Json.ofOption (fun (l : Label) => Json.ofInt l.toInt) label),
        ("value", toJson payload)])]
  | null => .string "Null"
termination_by structural v => v

def itemsToJson : List Value → List Json
  | [] => []
  | item :: items => toJson item :: itemsToJson items
termination_by structural items => items

/-- The entries of a map value, each an array of its key and its value. -/
def entriesToJson : List (Value × Value) → List Json
  | [] => []
  | (key, value) :: entries => .array [toJson key, toJson value] :: entriesToJson entries
termination_by structural entries => entries

/-- The members of a struct value, each with its document. -/
def membersToJson : List (String × Value) → List (String × Json)
  | [] => []
  | (name, value) :: members => (name, toJson value) :: membersToJson members
termination_by structural members => members

end

def integerTypeOfTitle? (title : String) : Option IntegerType :=
  IntegerType.all.find? (typeTitle · == title)

def integerOfOutline? : Outline → Option Int
  | .number (some (.integer n)) => some n
  | _ => none

def byteOfOutline? (o : Outline) : Option UInt8 := do
  let n ← integerOfOutline? o
  if 0 ≤ n ∧ n < 256 then some (UInt8.ofNat n.toNat) else none

/-- The label of a union value, which may be absent. -/
def labelOfOutline? : Outline → Option (Option Label)
  | .null => some none
  | o => do return some (← Label.ofInt? (← integerOfOutline? o))

/-- The float of a part of a text, of thirty-two bits or of sixty-four. -/
def floatOfOutline? (single : Bool) : Outline → Option Value
  | .number (some (.integer n)) =>
    if single then some (float32 (UInt32.ofNat (Real.FloatFormat.single.ofInt n)))
    else some (float64 (Real.ofInt n))
  | .number (some (.float bits)) =>
    if single then some (float32 (Real.narrow bits)) else some (float64 bits)
  | _ => none

/-- The content of a value that holds no other values. -/
def scalarOfOutline? (title : String) (o : Outline) : Option Value :=
  match title, o with
  | "Bool", .bool b => some (bool b)
  | "Char", .string (some text) =>
    match text.toList with
    | [c] => some (char c)
    | _ => none
  | "Float32", o => floatOfOutline? true o
  | "Float64", o => floatOfOutline? false o
  | "String", .string (some text) => some (string text)
  | "Bytes", .array items true => (items.mapM byteOfOutline?).map bytes
  | "Enum", .string (some name) => some (enumerator name)
  | "Null", .null => some null
  | title, o => do
    let type ← integerTypeOfTitle? title
    return integer (← Integer.ofInt? type (← integerOfOutline? o))

/-- The content of a union value, from its entries read so far. -/
def unionOfParts? (label : Option (Option Label)) (payload : Option Value) : Option Value :=
  payload.map (union (label.getD none))

mutual

def ofOutline? : Outline → Option Value
  | .string (some "Null") => some null
  | .object [(some title, content)] true => contentOfOutline? title content
  | _ => none
termination_by structural o => o

/-- The value of the kind with a title whose content has the outline. -/
def contentOfOutline? (title : String) : Outline → Option Value
  | .array items true =>
    if title = "Array" then (itemsOfOutline? items).map array
    else if title = "Map" then (entriesOfOutline? items).map map
    else if title = "Union" then
      match items with
      | [label, payload] =>
        match labelOfOutline? label, ofOutline? payload with
        | some label, some payload => some (union label payload)
        | _, _ => none
      | _ => none
    else scalarOfOutline? title (.array items true)
  | .object entries true =>
    if title = "Struct" then (membersOfOutline? [] entries).map struct
    else if title = "Union" then unionOfOutline? none none entries
    else none
  | o => scalarOfOutline? title o
termination_by structural o => o

def itemsOfOutline? : List Outline → Option (List Value)
  | [] => some []
  | item :: items =>
    match ofOutline? item, itemsOfOutline? items with
    | some item, some items => some (item :: items)
    | _, _ => none
termination_by structural items => items

/-- The entries of a map value, each an array of its key and its value. -/
def entriesOfOutline? : List Outline → Option (List (Value × Value))
  | [] => some []
  | .array [key, value] true :: items =>
    match ofOutline? key, ofOutline? value, entriesOfOutline? items with
    | some key, some value, some entries => some ((key, value) :: entries)
    | _, _, _ => none
  | _ :: _ => none
termination_by structural items => items

/-- The members of a struct value after those already read.  The last entry of a name counts. -/
def membersOfOutline? (done : List (String × Value)) :
    List (Option String × Outline) → Option (List (String × Value))
  | [] => some done
  | (some name, value) :: entries =>
    match ofOutline? value with
    | some value => membersOfOutline? (Dictionary.insert name value done) entries
    | none => none
  | (none, _) :: _ => none
termination_by structural entries => entries

/-- The union value of the entries left, given the label and the payload among those already read.
Neither may be given twice, the label may be left out, and other entries are ignored. -/
def unionOfOutline? (label : Option (Option Label)) (payload : Option Value) :
    List (Option String × Outline) → Option Value
  | [] => unionOfParts? label payload
  | (some "label", value) :: entries =>
    match label, labelOfOutline? value with
    | none, some label => unionOfOutline? (some label) payload entries
    | _, _ => none
  | (some "value", value) :: entries =>
    match payload, ofOutline? value with
    | none, some payload => unionOfOutline? label (some payload) entries
    | _, _ => none
  | (some _, _) :: entries => unionOfOutline? label payload entries
  | (none, _) :: _ => none
termination_by structural entries => entries

end

def ofText? (text : String) : Option Value :=
  match Outline.ofText text with
  | (outline, true) => ofOutline? (outline.curb Json.nestingLimit)
  | (_, false) => none

end Cdr.Value
