import Cdr.Json.Outline
import Cdr.Text.Quoted

/-! Reading typed data from the outline of a JSON document.  The first flaw in the order of the text
is the one reported.  Where a document comes from decides how much of it is checked at which time:
a streamed text is read as it goes, a stored document is whole and its objects are in the order of
their names, and buffered content is whole but has its entries as they were written. -/

namespace Cdr.Json

/-- Where a document comes from. -/
inductive Source where
  | streamed
  | stored
  | buffered
deriving DecidableEq, Repr

/-- Why a document is not of the type that is read. -/
inductive Flaw where
  /-- The name of an alternative that does not exist. -/
  | unknownVariant (name : String)
  /-- A string stands where something else belongs. -/
  | wrongString (text : String)
  /-- Anything else: bad grammar, another type, a missing or repeated field, a number too large. -/
  | malformed
deriving DecidableEq, Repr

def Flaw.message : Flaw → String
  | unknownVariant name => s!"unknown variant '{name}'"
  | wrongString text => "invalid type: string " ++ Text.Quoted.ofText text
  | malformed => "malformed document"

/-- The result of reading, or the first flaw. -/
abbrev Reading (α : Type) := Except Flaw α

namespace Outline

/-- The flaw of an outline that has the wrong type. -/
def misfit : Outline → Flaw
  | string (some text) => .wrongString text
  | _ => .malformed

/-- The outline has a value throughout. -/
def isSound (o : Outline) : Bool := (toJson? o).isSome

def readText : Outline → Reading String
  | string (some text) => .ok text
  | _ => .error .malformed

def readBool : Outline → Reading Bool
  | bool b => .ok b
  | o => .error o.misfit

def readInt (least greatest : Int) : Outline → Reading Int
  | number (some (.integer n)) =>
    if least ≤ n ∧ n ≤ greatest then .ok n else .error .malformed
  | o => .error o.misfit

/-- A value, or nothing for `null`. -/
def readOptional {α : Type} (read : Outline → Reading α) : Outline → Reading (Option α)
  | null => .ok none
  | o => (read o).map some

def readItems {α : Type} (read : Outline → Reading α) : List Outline → Reading (List α)
  | [] => .ok []
  | item :: items => do
    let x ← read item
    let xs ← readItems read items
    return x :: xs

def readList {α : Type} (read : Outline → Reading α) : Outline → Reading (List α)
  | array items closed => do
    let xs ← readItems read items
    if closed then return xs else throw .malformed
  | o => .error o.misfit

/-- The only content that an alternative without content may have. -/
def readNothing (source : Source) : Outline → Reading Unit
  | null => .ok ()
  | object [] true => if source = .buffered then .ok () else .error .malformed
  | o => .error o.misfit

/-- One of several alternatives without content, given by its name or by an object of one entry. -/
def readChoice {α : Type} (ofName? : String → Option α) (source : Source) :
    Outline → Reading α
  | string (some name) =>
    match ofName? name with
    | some x => .ok x
    | none => .error (.unknownVariant name)
  | object ((some name, content) :: rest) closed =>
    if source ≠ .streamed ∧ !rest.isEmpty then .error .malformed
    else
      match ofName? name with
      | none => .error (.unknownVariant name)
      | some x => do
        readNothing source content
        if rest.isEmpty && closed then return x else throw .malformed
  | _ => .error .malformed

/-- The state of a record after the entries of an object, each known one taken up by `step`. -/
def readEntries {σ : Type} (names : List String) (step : σ → String → Outline → Reading σ)
    (state : σ) : List (Option String × Outline) → Reading σ
  | [] => .ok state
  | (none, _) :: _ => .error .malformed
  | (some name, value) :: entries =>
    if name ∈ names then do
      let state ← step state name value
      readEntries names step state entries
    else readEntries names step state entries

/-- The state of a record after the items of an array, which are its fields in order. -/
def readFields {σ : Type} (step : σ → String → Outline → Reading σ) (state : σ) :
    List String → List Outline → Reading σ
  | name :: names, item :: items => do
    let state ← step state name item
    readFields step state names items
  | [], _ :: _ => .error .malformed
  | _, [] => .ok state

/-- The state of a record, read from an object that names its fields or, where `positional` allows
it, from an array that has them in order. -/
def readRecord {σ : Type} (names : List String) (step : σ → String → Outline → Reading σ)
    (start : σ) (positional : Bool) : Outline → Reading σ
  | object entries closed => do
    let state ← readEntries names step start entries
    if closed then return state else throw .malformed
  | array items closed =>
    if positional then do
      let state ← readFields step start names items
      if closed then return state else throw .malformed
    else .error .malformed
  | o => .error o.misfit

/-- A field that has not been read before. -/
def once {α : Type} (field : Option α) (read : Reading α) : Reading (Option α) :=
  if field.isSome then .error .malformed else read.map some

/-- A field that has to be there. -/
def required {α : Type} : Option α → Reading α
  | some x => .ok x
  | none => .error .malformed

end Outline

end Cdr.Json
