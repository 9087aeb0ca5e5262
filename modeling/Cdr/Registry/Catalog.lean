import Cdr.Dictionary
import Cdr.Layout.Build

/-! Catalogs of declared types.  A type that refers to a name that is not registered waits for that
name, and is built again when the name arrives; if it can then never be built it is broken.  So
types may be registered in any order, and types that refer to each other need none. -/

namespace Cdr

/-- How far the build of a registered type has come. -/
inductive BuildState where
  /-- The build stopped at a name that is not registered. -/
  | waiting (name : String)
  | built (layouts : Layouts)
  /-- A later build met a fault that no registration can mend. -/
  | broken (fault : Fault)
deriving Repr, Inhabited

/-- A registered type. -/
structure Entry where
  declaration : Declaration
  state : BuildState
  /-- The size of the longest key, once all types that the type reaches are built. -/
  maxKeySize : Option Nat := none
deriving Repr

/-- The registered types, each with its place as its number. -/
structure Catalog where
  entries : Array Entry := #[]
  /-- The place of each name. -/
  index : List (String × Nat) := []
  /-- The places of the types that wait for each name. -/
  waiting : List (String × List Nat) := []
deriving Repr, Inhabited

namespace Catalog

def find? (c : Catalog) (name : String) : Option Nat := Dictionary.find? name c.index

/-- The place and the declaration of a registered name. -/
def resolve (c : Catalog) (name : String) : Option (Nat × Declaration) := do
  let id ← c.find? name
  let entry ← c.entries[id]?
  return (id, entry.declaration)

/-- The types that are not registered wait under these names. -/
def waiters (c : Catalog) (name : String) : List Nat :=
  (Dictionary.find? name c.waiting).getD []

def layout (c : Catalog) (id : Nat) (role : Role) : Except Fault Layout :=
  match c.entries[id]? with
  | none => .error (Cause.unknownType ("#" ++ toString id)).fault
  | some entry =>
    match entry.state with
    | .built layouts =>
      match role with
      | .full => .ok layouts.full
      | .key => .ok layouts.memberKey
    | .waiting name => .error (Cause.unresolved entry.declaration.name [name]).fault
    | .broken fault => .error fault

/-- The layout of the type's own key. -/
def keyLayout (c : Catalog) (id : Nat) : Except Fault Layout :=
  match c.entries[id]? with
  | some ⟨_, .built layouts, _⟩ => .ok layouts.key
  | _ => c.layout id .key

def setState (c : Catalog) (id : Nat) (state : BuildState) : Catalog :=
  { c with entries := c.entries.modify id fun entry => { entry with state := state } }

/-- The catalog with a type waiting for a name. -/
def awaitName (c : Catalog) (id : Nat) (name : String) : Catalog :=
  { c.setState id (.waiting name) with
    waiting := Dictionary.insert name (c.waiters name ++ [id]) c.waiting }

/-- Builds a type, or sets it waiting for a name.  A fault leaves the catalog as it is. -/
def build (c : Catalog) (id : Nat) : Except Fault Catalog :=
  match c.entries[id]? with
  | none => .ok c
  | some entry =>
    match Layouts.build c.resolve entry.declaration with
    | .ok layouts => .ok (c.setState id (.built layouts))
    | .error (.awaits name) => .ok (c.awaitName id name)
    | .error (.fatal fault) => .error fault

/-- Builds a type that was waiting.  A fault breaks it. -/
def rebuild (c : Catalog) (id : Nat) : Catalog :=
  match c.build id with
  | .ok c => c
  | .error fault => c.setState id (.broken fault)

/-- Builds the types that wait for a name, which wait for it no longer. -/
def wake (c : Catalog) (name : String) : Catalog :=
  (c.waiters name).foldl rebuild { c with waiting := c.waiting.filter (·.1 != name) }

/-- The catalog with a new type at its end, which is not built yet. -/
def push (c : Catalog) (d : Declaration) : Catalog :=
  { c with
    entries := c.entries.push ⟨d, .waiting "", none⟩
    index := Dictionary.insert d.name c.entries.size c.index }

/-- The catalog without the type at its end, whose name is given. -/
def retract (c : Catalog) (name : String) : Catalog :=
  { c with
    entries := c.entries.pop
    index := c.index.filter (·.1 != name) }

end Catalog

end Cdr
