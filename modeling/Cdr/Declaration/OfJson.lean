import Cdr.Declaration.Basic
import Cdr.Json.Record

/-! Declarations read from JSON documents.  Fields that are not known are ignored, and a record may
also be given as the array of its fields in order.  The content of a shape is set aside until its
kind is known, so within a shape everything has to have a value, a kind may be given by its number,
and the empty object stands for no content. -/

namespace Cdr

open Json (Source Flaw Reading Outline)

/-- The kinds of shapes, in the order of their numbers. -/
inductive Shape.Kind where
  | primitive | string | bytes | array | sequence | map | enumeration | union | optional | named
deriving DecidableEq, Repr

namespace Shape.Kind

/-- Every kind of shape, at the place of its number. -/
def all : List Shape.Kind :=
  [primitive, string, bytes, array, sequence, map, enumeration, union, optional, named]

def name : Shape.Kind → String
  | primitive => "primitive"
  | string => "string"
  | bytes => "bytes"
  | array => "array"
  | sequence => "sequence"
  | map => "map"
  | enumeration => "enum"
  | union => "union"
  | optional => "optional"
  | named => "named"

/-- The kind of a document, by its name or, in buffered content, by its number. -/
def read (source : Source) : Outline → Reading Shape.Kind
  | .string (some text) =>
    match all.find? (·.name == text) with
    | some kind => .ok kind
    | none => .error (.unknownVariant text)
  | .number (some (.integer n)) =>
    if source = .buffered ∧ 0 ≤ n then Outline.required all[n.toNat]? else .error .malformed
  | o => .error o.misfit

/-- The fields of a shape of the kind beside the kind itself. -/
def fields : Shape.Kind → List String
  | primitive => ["primitive"]
  | string | bytes => ["bound"]
  | array => ["element", "length"]
  | sequence => ["element", "bound"]
  | map => ["key", "value", "bound"]
  | enumeration => ["enumerators"]
  | union => ["discriminator", "cases", "default", "key_discriminator"]
  | optional => ["inner"]
  | named => ["name"]

end Shape.Kind

namespace Declaration

/-- A number that fits sixty-four bits. -/
def readCount (o : Outline) : Reading UInt64 := do
  return UInt64.ofNat (← o.readInt 0 (2 ^ 64 - 1)).toNat

/-- A bound, or none for `null`. -/
def readBound : Outline → Reading (Option UInt64) := Outline.readOptional readCount

def readLabel (o : Outline) : Reading Label := do
  return Int64.ofInt (← o.readInt (-2 ^ 63) (2 ^ 63 - 1))

/-- The fields of a named thing read so far. -/
structure NamedParts (α : Type) where
  name : Option String := none
  labels : Option (List Label) := none
  content : Option α := none

/-- Takes up a field of a named thing whose content is in the field `field`. -/
def stepNamed {α : Type} (field : String) (content : Outline → Reading α) (parts : NamedParts α)
    (name : String) (o : Outline) : Reading (NamedParts α) :=
  if name = "name" then
    return { parts with name := ← Outline.once parts.name o.readText }
  else if name = "labels" then
    return { parts with labels := ← Outline.once parts.labels (o.readList readLabel) }
  else if name = field then
    return { parts with content := ← Outline.once parts.content (content o) }
  else return parts

def readEnumerator (o : Outline) : Reading Enumerator := do
  let parts ← o.readRecord ["name", "ordinal"]
    (stepNamed "ordinal" fun o => o.readInt 0 (2 ^ 32 - 1)) { } true
  return ⟨← Outline.required parts.name, UInt32.ofNat (← Outline.required parts.content).toNat⟩

/-- The member of a document, with `shape` for its shape. -/
def readMember (shape : Outline → Reading Shape) (o : Outline) : Reading (Member Shape) := do
  let parts ← o.readRecord ["name", "shape"] (stepNamed "shape" shape) { } true
  return ⟨← Outline.required parts.name, ← Outline.required parts.content⟩

/-- The union case of a document, with `shape` for its shape. -/
def readCase (shape : Outline → Reading Shape) (o : Outline) : Reading (Case Shape) := do
  let parts ← o.readRecord ["name", "labels", "shape"] (stepNamed "shape" shape) { } true
  return ⟨← Outline.required parts.name, ← Outline.required parts.labels,
    ← Outline.required parts.content⟩

/-- The default case of a document, with `shape` for its shape. -/
def readDefaultCase (shape : Outline → Reading Shape) (o : Outline) :
    Reading (DefaultCase Shape) := do
  let parts ← o.readRecord ["name", "shape"] (stepNamed "shape" shape) { } true
  return ⟨← Outline.required parts.name, ← Outline.required parts.content⟩

/-- The fields of a shape read so far. -/
structure ShapeParts where
  primitive : Option Primitive := none
  bound : Option (Option UInt64) := none
  length : Option UInt64 := none
  element : Option Shape := none
  key : Option Shape := none
  value : Option Shape := none
  inner : Option Shape := none
  name : Option String := none
  enumerators : Option (List Enumerator) := none
  discriminator : Option Shape := none
  cases : Option (List (Case Shape)) := none
  fallback : Option (Option (DefaultCase Shape)) := none
  keyedByLabel : Option Bool := none

def stepShape (shape : Outline → Reading Shape) (parts : ShapeParts) (field : String)
    (o : Outline) : Reading ShapeParts :=
  match field with
  | "primitive" => return { parts with
      primitive := ← Outline.once parts.primitive (o.readChoice Primitive.ofName? .buffered) }
  | "bound" => return { parts with bound := ← Outline.once parts.bound (readBound o) }
  | "length" => return { parts with length := ← Outline.once parts.length (readCount o) }
  | "element" => return { parts with element := ← Outline.once parts.element (shape o) }
  | "key" => return { parts with key := ← Outline.once parts.key (shape o) }
  | "value" => return { parts with value := ← Outline.once parts.value (shape o) }
  | "inner" => return { parts with inner := ← Outline.once parts.inner (shape o) }
  | "name" => return { parts with name := ← Outline.once parts.name o.readText }
  | "enumerators" => return { parts with
      enumerators := ← Outline.once parts.enumerators (o.readList readEnumerator) }
  | "discriminator" => return { parts with
      discriminator := ← Outline.once parts.discriminator (shape o) }
  | "cases" => return { parts with
      cases := ← Outline.once parts.cases (o.readList (readCase shape)) }
  | "default" => return { parts with
      fallback := ← Outline.once parts.fallback (o.readOptional (readDefaultCase shape)) }
  | "key_discriminator" => return { parts with
      keyedByLabel := ← Outline.once parts.keyedByLabel o.readBool }
  | _ => return parts

def ShapeParts.union (parts : ShapeParts) : Reading (UnionOf Shape) := do
  return ⟨← Outline.required parts.discriminator, ← Outline.required parts.cases,
    parts.fallback.getD none, parts.keyedByLabel.getD false⟩

def ShapeParts.shape (parts : ShapeParts) : Shape.Kind → Reading Shape
  | .primitive => return .primitive (← Outline.required parts.primitive)
  | .string => return .string (parts.bound.getD none)
  | .bytes => return .bytes (parts.bound.getD none)
  | .array => return .array (← Outline.required parts.element) (← Outline.required parts.length)
  | .sequence => return .sequence (← Outline.required parts.element) (parts.bound.getD none)
  | .map => do
    let key ← Outline.required parts.key
    let value ← Outline.required parts.value
    return .map key value (parts.bound.getD none)
  | .enumeration => return .enumeration (← Outline.required parts.enumerators)
  | .union => return .union (← parts.union)
  | .optional => return .optional (← Outline.required parts.inner)
  | .named => return .named (← Outline.required parts.name)

/-- The kind of a shape and its other entries.  Entries of a streamed text have to have values. -/
def splitEntries (source : Source) (kind : Option Shape.Kind)
    (done : List (Option String × Outline)) :
    List (Option String × Outline) → Reading (Option Shape.Kind × List (Option String × Outline))
  | [] => .ok (kind, done.reverse)
  | (none, _) :: _ => .error .malformed
  | (some name, value) :: entries =>
    if name = "kind" then do
      let kind ← Outline.once kind (Shape.Kind.read source value)
      splitEntries source kind done entries
    else if source = .streamed ∧ !value.isSound then .error .malformed
    else splitEntries source kind ((some name, value) :: done) entries

/-- The kind of a shape and the rest of its document. -/
def splitShape (source : Source) : Outline → Reading (Shape.Kind × Outline)
  | .object entries closed => do
    let (kind, rest) ← splitEntries source none [] entries
    if closed then return (← Outline.required kind, .object rest true) else throw .malformed
  | .array items closed =>
    match items with
    | [] => .error .malformed
    | kind :: rest => do
      let kind ← Shape.Kind.read source kind
      if closed && (source ≠ .streamed || rest.all Outline.isSound) then
        return (kind, .array rest true)
      else throw .malformed
  | o => .error o.misfit

/-- The shape of a document of at most the given depth. -/
def readShape : Nat → Source → Outline → Reading Shape
  | 0, _, _ => .error .malformed
  | depth + 1, source, o => do
    let (kind, content) ← splitShape source o
    let parts ← content.readRecord kind.fields (stepShape (readShape depth .buffered)) { } true
    parts.shape kind

/-- The body of a kind whose content has the outline. -/
def readBodyOf (source : Source) (kind : String) (content : Outline) : Reading Body :=
  let shape := readShape content.depth source
  match kind with
  | "struct" => do
    let parts ← content.readRecord ["members"]
      (stepNamed "members" fun o => o.readList (readMember shape)) { } (source = .streamed)
    return .struct (← Outline.required parts.content)
  | "union" => do
    let parts ← content.readRecord Shape.Kind.union.fields (stepShape shape) { } true
    return .union (← parts.union)
  | "enum" => do
    let parts ← content.readRecord Shape.Kind.enumeration.fields (stepShape shape) { } true
    return .enumeration (← Outline.required parts.enumerators)
  | _ => .error (.unknownVariant kind)

/-- The kinds of bodies. -/
def bodyKinds : List String := ["struct", "union", "enum"]

/-- The body of a document: an object whose only entry names the kind. -/
def readBody (source : Source) : Outline → Reading Body
  | .string (some kind) =>
    if kind ∈ bodyKinds then .error .malformed else .error (.unknownVariant kind)
  | .object ((some kind, content) :: rest) closed =>
    if source ≠ .streamed ∧ !rest.isEmpty then .error .malformed
    else do
      let body ← readBodyOf source kind content
      if rest.isEmpty && closed then return body else throw .malformed
  | _ => .error .malformed

/-- The fields of a declaration read so far. -/
structure Parts where
  name : Option String := none
  extensibility : Option Extensibility := none
  keyMembers : Option (Option (List String)) := none
  body : Option Body := none

def step (source : Source) (parts : Parts) (field : String) (o : Outline) : Reading Parts :=
  match field with
  | "name" => return { parts with name := ← Outline.once parts.name o.readText }
  | "extensibility" => return { parts with
      extensibility :=
        ← Outline.once parts.extensibility (o.readChoice Extensibility.ofName? source) }
  | "key_members" => return { parts with
      keyMembers := ← Outline.once parts.keyMembers (o.readOptional (·.readList Outline.readText)) }
  | "body" => return { parts with body := ← Outline.once parts.body (readBody source o) }
  | _ => return parts

def read (source : Source) (o : Outline) : Reading Declaration := do
  let parts ← o.readRecord ["name", "extensibility", "key_members", "body"] (step source) { } true
  return ⟨← Outline.required parts.name, parts.extensibility.getD .final,
    parts.keyMembers.getD none, ← Outline.required parts.body⟩

def mentionsPhrase (phrase : List Char) : List Char → Bool
  | [] => phrase.isEmpty
  | c :: cs => phrase.isPrefixOf (c :: cs) || mentionsPhrase phrase cs

/-- The fault of a document that is no declaration.  A flaw whose text speaks of an unknown variant
is one of the shape, and any other is one of the schema. -/
def faultOf (flaw : Flaw) : Fault :=
  if mentionsPhrase "unknown variant".toList flaw.message.toList then
    (Cause.unencodable "<json>" flaw.message).fault
  else (Cause.invalidSchema "<json>" flaw.message).fault

/-- The declaration of a document that was read before. -/
def ofJson (j : Json) : Except Fault Declaration :=
  (read .stored (Outline.ofJson j)).mapError faultOf

/-- The declaration of a text. -/
def ofText (text : String) : Except Fault Declaration :=
  let (outline, ended) := Outline.ofText text
  match read .streamed (outline.curb Json.nestingLimit) with
  | .ok d => if ended then .ok d else .error (faultOf .malformed)
  | .error flaw => .error (faultOf flaw)

/-- The declarations of a text that holds one or an array of them. -/
def listOfText (text : String) : Except Fault (List Declaration) :=
  match Json.parse? text with
  | some (.array items) => items.mapM ofJson
  | some j => do return [← ofJson j]
  | none => .error (Cause.invalidSchema "json" "malformed document").fault

end Declaration

end Cdr
