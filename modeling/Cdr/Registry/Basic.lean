import Cdr.Registry.Closure

/-! Registries: catalogs under one configuration.  `Registering` is a step that works on a registry
and may fail. -/

namespace Cdr

/-- The registered types and the choices that they share. -/
structure Registry where
  config : Config := { }
  catalog : Catalog := { }
deriving Repr, Inhabited

/-- A type of a registry. -/
structure Handle where
  id : Nat
  name : String
deriving DecidableEq, Repr

/-- A step that works on a registry and may fail. -/
abbrev Registering := EStateM Fault Registry

namespace Registry

/-- The catalog with a new type, the types that waited for it built again, and the key sizes of
those that have become usable kept. -/
def add (config : Config) (c : Catalog) (d : Declaration) : Except Fault Catalog := do
  let id := c.entries.size
  let built ← (c.push d).build id
  let woken := built.waiters d.name
  return (id :: woken).foldl (Catalog.keepKeySize config) (built.wake d.name)

/-- Registers a declared type.  One that is registered already gives the same handle again, and
another declaration of its name is refused.  The new type has its place in the catalog while it is
built, and is taken out again when it cannot be built. -/
def register (d : Declaration) : Registering Handle := fun r =>
  match d.validate with
  | .error fault => .error fault r
  | .ok () =>
    match r.catalog.resolve d.name with
    | some (id, known) =>
      if known = d then .ok ⟨id, d.name⟩ r
      else
        .error
          (Cause.invalidSchema d.name "already registered with a different declaration").fault r
    | none =>
      match add r.config r.catalog d with
      | .ok c => .ok ⟨r.catalog.entries.size, d.name⟩ { r with catalog := c }
      | .error fault =>
        .error fault { r with catalog := (r.catalog.push d).retract d.name }

/-- Registers declared types in order.  The first that is refused ends the step, and those before it
stay registered. -/
def registerAll : List Declaration → Registering (List Handle)
  | [] => return []
  | d :: ds => do
    let handle ← register d
    let handles ← registerAll ds
    return handle :: handles

/-- The names of the registered types, in the order of their registration. -/
def names (r : Registry) : List String := r.catalog.entries.toList.map (·.declaration.name)

def size (r : Registry) : Nat := r.catalog.entries.size

def contains (r : Registry) (name : String) : Bool := (r.catalog.find? name).isSome

/-- The types that wait for a name, each with the name, in the order of their registration. -/
def pending (r : Registry) : List (String × String) :=
  r.catalog.entries.toList.filterMap fun entry =>
    match entry.state with
    | .waiting name => some (entry.declaration.name, name)
    | _ => none

def handle (r : Registry) (name : String) : Except Fault Handle :=
  match r.catalog.find? name with
  | some id => .ok ⟨id, name⟩
  | none => .error (Cause.unknownType name).fault

end Registry

end Cdr
