import Cdr.Dictionary

/-! TOML values and the rules by which the parts of a text make up tables.  A table may be started
by its own header once; the tables that a longer header passes through, and those that a dotted key
passes through, come into being without one.  Such a table may still be given a header, unless it
came from a dotted key, and may be extended by the same means that made it. -/

namespace Cdr

/-- How a table came into being. -/
structure Toml.Origin where
  /-- It has no header, or no braces, of its own. -/
  implicit : Bool
  /-- It came from a dotted key. -/
  dotted : Bool
deriving DecidableEq, Repr

/-- A TOML value. -/
inductive Toml where
  | string (text : String)
  | integer (n : Int)
  | float (bits : UInt64)
  | bool (b : Bool)
  /-- A date, a time, or both. -/
  | moment (text : String)
  | array (items : List Toml)
  /-- A table in braces. -/
  | inline (origin : Toml.Origin) (entries : List (String × Toml))
  /-- A table with a header, or one that a header or a dotted key passes through. -/
  | table (origin : Toml.Origin) (entries : List (String × Toml))
  /-- The tables with the same header in double brackets, each of them an entry list. -/
  | tables (elements : List (List (String × Toml)))
deriving Repr, Inhabited

namespace Toml

/-- The origin of a table with a header or braces of its own. -/
def Origin.own : Origin := ⟨false, false⟩

abbrev Entries := List (String × Toml)

/-- A change of a table, which is refused if it breaks a rule. -/
abbrev Change := Origin → Entries → Option Entries

/-- Applies a change to the table behind a path of names, in a table with the given entries.  Tables
that are not there come into being, dotted if the path is part of a dotted key. -/
def descend (dotted : Bool) (change : Change) : List String → Change
  | [], origin, entries => change origin entries
  | name :: path, _, entries =>
    match Dictionary.find? name entries with
    | none => do
      let origin : Origin := ⟨true, dotted⟩
      let inner ← descend dotted change path origin []
      return Dictionary.insert name (table origin inner) entries
    | some (table origin inner) =>
      if dotted && !origin.implicit then none
      else do
        let inner ← descend dotted change path origin inner
        return Dictionary.insert name (table origin inner) entries
    | some (tables elements) =>
      match elements.reverse with
      | [] => none
      | last :: before => do
        let last ← descend dotted change path Origin.own last
        return Dictionary.insert name (tables (last :: before).reverse) entries
    | some _ => none

/-- Applies a change to the table behind a path of names in a table in braces. -/
def descendInline (change : Change) : List String → Change
  | [], origin, entries => change origin entries
  | name :: path, _, entries =>
    match Dictionary.find? name entries with
    | none => do
      let origin : Origin := ⟨true, true⟩
      let inner ← descendInline change path origin []
      return Dictionary.insert name (inline origin inner) entries
    | some (inline origin inner) =>
      if !origin.implicit then none
      else do
        let inner ← descendInline change path origin inner
        return Dictionary.insert name (inline origin inner) entries
    | some _ => none

/-- Adds an entry that is not there yet.  A dotted key adds to dotted tables only, and a key of one
part to none of them. -/
def addEntry (plain : Bool) (name : String) (value : Toml) : Change := fun origin entries =>
  if origin.dotted = plain || Dictionary.contains name entries then none
  else some (Dictionary.insert name value entries)

/-- The last name of a path and the names before it. -/
def splitLast? (path : List String) : Option (List String × String) :=
  path.getLast?.map fun name => (path.dropLast, name)

/-- Adds the value of a key to a table with a header. -/
def assign (key : List String) (value : Toml) (entries : Entries) : Option Entries := do
  let (path, name) ← splitLast? key
  descend true (addEntry path.isEmpty name value) path Origin.own entries

def assignInline (key : List String) (value : Toml) (entries : Entries) : Option Entries := do
  let (path, name) ← splitLast? key
  descendInline (addEntry path.isEmpty name value) path Origin.own entries

/-- The header of the part of a text that is being read. -/
inductive Header where
  /-- The part before the first header. -/
  | none
  /-- A header in brackets. -/
  | table (path : List String)
  /-- A header in double brackets. -/
  | element (path : List String)
deriving DecidableEq, Repr

/-- The tables read so far, and the table that is being read, which is put in its place at the next
header. -/
structure Draft where
  root : Entries := []
  header : Header := .none
  current : Entries := []

namespace Draft

/-- Puts the table that has been read in its place. -/
def close (d : Draft) : Option Entries :=
  match d.header with
  | .none => some d.current
  | .table path => do
    let (path, name) ← splitLast? path
    let put : Change := fun _ entries =>
      if Dictionary.contains name entries then Option.none
      else some (Dictionary.insert name (table Origin.own d.current) entries)
    descend false put path Origin.own d.root
  | .element path => do
    let (path, name) ← splitLast? path
    let put : Change := fun _ entries =>
      match Dictionary.find? name entries with
      | Option.none => some (Dictionary.insert name (tables [d.current]) entries)
      | some (tables elements) =>
        some (Dictionary.insert name (tables (elements ++ [d.current])) entries)
      | some _ => Option.none
    descend false put path Origin.own d.root

/-- Starts a table with a header in brackets.  A table that other headers passed through goes on. -/
def startTable (d : Draft) (path : List String) : Option Draft := do
  let root ← d.close
  let (front, name) ← splitLast? path
  let found ← find front root name
  let take : Change := fun _ entries => some (entries.filter (·.1 != name))
  let root ← descend false take front Origin.own root
  match found with
  | Option.none => return ⟨root, .table path, []⟩
  | some (Toml.table origin entries) =>
    if origin.implicit && !origin.dotted then return ⟨root, .table path, entries⟩
    else Option.none
  | some _ => Option.none
where
  /-- What stands under a name in the table behind a path. -/
  find : List String → Entries → String → Option (Option Toml)
    | [], entries, name => some (Dictionary.find? name entries)
    | step :: path, entries, name =>
      match Dictionary.find? step entries with
      | Option.none => some Option.none
      | some (Toml.table _ inner) => find path inner name
      | some (tables elements) => do find path (← elements.getLast?) name
      | some _ => Option.none

/-- Starts another table with the same header in double brackets. -/
def startElement (d : Draft) (path : List String) : Option Draft := do
  let root ← d.close
  let (front, name) ← splitLast? path
  let check : Change := fun _ entries =>
    match Dictionary.find? name entries with
    | Option.none | some (tables _) => some entries
    | some _ => Option.none
  let root ← descend false check front Origin.own root
  return ⟨root, .element path, []⟩

/-- Adds the value of a key to the table that is being read. -/
def assign (d : Draft) (key : List String) (value : Toml) : Option Draft := do
  return { d with current := ← Toml.assign key value d.current }

end Draft

end Toml

end Cdr
