import Cdr.Declaration.Shape
import Cdr.Fault

/-! Declared types: a name, a body, and the members that form the key of an instance.  A list of key
members restricts the key to them, an empty list makes the type keyless, and without a list every
member is a key member. -/

namespace Cdr

/-- How a type may change later.  It has no effect on layouts. -/
inductive Extensibility where
  | final
  | appendable
  | mutable
deriving DecidableEq, Repr, Inhabited

namespace Extensibility

def all : List Extensibility := [final, appendable, mutable]

def name : Extensibility → String
  | final => "final"
  | appendable => "appendable"
  | mutable => "mutable"

def ofName? (name : String) : Option Extensibility := all.find? (·.name == name)

end Extensibility

/-- The body of a declared type. -/
inductive Body where
  | struct (members : List (Member Shape))
  | union (u : UnionOf Shape)
  | enumeration (enumerators : List Enumerator)
deriving DecidableEq, Repr

/-- A declared type. -/
structure Declaration where
  name : String
  extensibility : Extensibility := .final
  /-- The members of the key, if it is restricted. -/
  keyMembers : Option (List String) := none
  body : Body
deriving DecidableEq, Repr

namespace Declaration

def members? (d : Declaration) : Option (List (Member Shape)) :=
  match d.body with
  | .struct members => some members
  | _ => none

def isKeyMember (d : Declaration) (member : String) : Bool :=
  match d.keyMembers with
  | none => true
  | some keys => keys.contains member

/-- The type lists key members. -/
def hasExplicitKeys (d : Declaration) : Bool :=
  match d.keyMembers with
  | some (_ :: _) => true
  | _ => false

def isKeyless (d : Declaration) : Bool := d.keyMembers == some []

/-- The names that the body refers to, in the order in which they appear, with repetitions. -/
def mentions (d : Declaration) : List String :=
  match d.body with
  | .struct members => members.flatMap (·.content.names)
  | .union u => Shape.names (.union u)
  | .enumeration _ => []

/-- The list without the elements that occur earlier in it or among those seen. -/
def distinct (seen : List String) : List String → List String
  | [] => []
  | name :: rest =>
    if name ∈ seen then distinct seen rest else name :: distinct (name :: seen) rest

/-- The names that the body refers to, each once, in the order in which they first appear. -/
def referencedNames (d : Declaration) : List String := distinct [] d.mentions

/-- The first element of a list that occurs earlier in it or among those seen. -/
def firstRepeated {α : Type} [DecidableEq α] (seen : List α) : List α → Option α
  | [] => none
  | x :: rest => if x ∈ seen then some x else firstRepeated (x :: seen) rest

/-- Checks the rules that need no other type: the type has a name, the members of a struct have
different names, and only the members of a struct are key members. -/
def validate (d : Declaration) : Except Fault Unit :=
  if d.name.isEmpty then .error (Cause.invalidSchema "<unnamed>" "type name is empty").fault
  else
    match d.body with
    | .struct members =>
      let names := members.map (·.name)
      match firstRepeated [] names, (d.keyMembers.getD []).find? (!names.contains ·) with
      | some name, _ => .error (Cause.invalidSchema d.name s!"duplicate member '{name}'").fault
      | none, some key =>
        .error (Cause.invalidSchema d.name s!"key member '{key}' is not a member").fault
      | none, none => .ok ()
    | .union _ | .enumeration _ =>
      if d.hasExplicitKeys then
        .error (Cause.invalidSchema d.name "key members are only valid on structs").fault
      else .ok ()

end Declaration

end Cdr
