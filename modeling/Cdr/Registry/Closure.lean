import Cdr.Layout.Measure
import Cdr.Registry.Catalog

/-! The types that a type reaches through references.  A type can be used when all of them are
built, and the names that are not registered among those they refer to are what it lacks. -/

namespace Cdr.Catalog

/-- The names of a list that are not registered and are not among those missing already, added to
these in order. -/
def addMissing (c : Catalog) (missing : List String) (names : List String) : List String :=
  names.foldl
    (fun missing name =>
      if (c.find? name).isSome || missing.contains name then missing else missing ++ [name])
    missing

/-- What stops the search at a type: it is broken, or it waits for a name that is registered. -/
def blocked (c : Catalog) (entry : Entry) : Option Fault :=
  match entry.state with
  | .broken fault => some fault
  | .waiting name =>
    if (c.find? name).isSome then some (Cause.unresolved entry.declaration.name [name]).fault
    else none
  | .built _ => none

/-- The missing names of the types that are reached from those on the stack, in the order in which
they are met.  The types seen are not visited again, so each round visits a new type. -/
def search (c : Catalog) (seen : List Nat) (missing : List String) :
    Nat → List Nat → Except Fault (List String)
  | 0, _ => .ok missing
  | rounds + 1, stack =>
    match stack.dropWhile seen.contains with
    | [] => .ok missing
    | current :: rest =>
      match c.entries[current]? with
      | none => search c (current :: seen) missing rounds rest
      | some entry =>
        match c.blocked entry with
        | some fault => .error fault
        | none =>
          let names := entry.declaration.referencedNames
          search c (current :: seen) (c.addMissing missing names) rounds
            ((names.filterMap c.find?).reverse ++ rest)

/-- The names that are missing for a type to be usable. -/
def missingNames (c : Catalog) (id : Nat) : Except Fault (List String) :=
  c.search [] [] (c.entries.size + 1) [id]

def nameOf (c : Catalog) (id : Nat) : String :=
  match c.entries[id]? with
  | some entry => entry.declaration.name
  | none => ""

/-- Checks that a type and all types that it reaches are built. -/
def checkClosure (c : Catalog) (id : Nat) : Except Fault Unit := do
  let missing ← c.missingNames id
  if missing.isEmpty then return ()
  else throw (Cause.unresolved (c.nameOf id) missing).fault

/-- The size of the longest key of a type, from its layouts. -/
def measureKey (c : Catalog) (config : Config) (id : Nat) : Except Fault Nat := do
  let layout ← c.keyLayout id
  let assumptions : Layout.Assumptions := ⟨config.countWidth, config.maxUnboundedLength⟩
  match layout.measure c.layout assumptions config.maxDepth [] Extent.zero with
  | .ok _ e => return e.offset
  | .error fault _ => throw fault

/-- The size of the longest key of a type, which has to be usable. -/
def maxKeySize (c : Catalog) (config : Config) (id : Nat) : Except Fault Nat :=
  match c.entries[id]? with
  | some ⟨_, _, some size⟩ => .ok size
  | _ => do
    c.checkClosure id
    c.measureKey config id

/-- The catalog with the size of the longest key of a type kept, if the type is usable. -/
def keepKeySize (config : Config) (c : Catalog) (id : Nat) : Catalog :=
  match c.maxKeySize config id with
  | .ok size =>
    { c with entries := c.entries.modify id fun entry => { entry with maxKeySize := some size } }
  | .error _ => c

end Cdr.Catalog
