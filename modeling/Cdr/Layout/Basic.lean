import Cdr.Config
import Cdr.Layout.Discriminator

/-! Layouts: trees that say how values are laid out in bytes.  A layout refers to another type by
the place of that type among those registered, so a type can contain itself without its layout being
infinite. -/

namespace Cdr

/-- Which layout of a type a reference means. -/
inductive Role where
  /-- The layout of all members. -/
  | full
  /-- The layout of the key members. -/
  | key
deriving DecidableEq, Repr

/-- A reference to a layout of a registered type. -/
structure Reference where
  name : String
  id : Nat
  role : Role
deriving DecidableEq, Repr

/-- The default case of a union, with the tag that selects it. -/
structure Fallback (α : Type) where
  name : String
  sentinel : Label
  content : α
deriving DecidableEq, Repr

/-- The parts of the layout of a union. -/
structure UnionLayout (α : Type) where
  name : String
  discriminator : Discriminator
  cases : List (Case α)
  fallback : Option (Fallback α)
  /-- Only the tag is laid out. -/
  tagOnly : Bool
deriving DecidableEq, Repr

/-- How a value is laid out. -/
inductive Layout where
  | primitive (p : Primitive)
  /-- A count of four bytes, the bytes of the text, and a zero byte that the count includes. -/
  | string (bound : Option UInt64)
  /-- A count and the bytes. -/
  | bytes (bound : Option UInt64)
  /-- The elements. -/
  | array (element : Layout) (length : UInt64)
  /-- A count and the elements. -/
  | sequence (element : Layout) (bound : Option UInt64)
  /-- A count and the entries, the key of an entry before its value. -/
  | map (key value : Layout) (bound : Option UInt64)
  /-- The ordinal in four bytes. -/
  | enumeration (name : String) (enumerators : List Enumerator)
  /-- The members in the order of their declaration. -/
  | struct (name : String) (members : List (Member Layout))
  /-- The tag and the payload of the case that it selects. -/
  | union (u : UnionLayout Layout)
  /-- A byte that says whether there is a value, and the value. -/
  | optional (inner : Layout)
  | reference (target : Reference)
deriving Repr, Inhabited

/-- The layouts of the registered types. -/
abbrev Lookup := Nat → Role → Except Fault Layout

namespace Layout

mutual

/-- The alignment of what the layout starts with.  Structs, optional values and references align
their parts themselves. -/
def alignment (w : CountWidth) : Layout → Nat
  | primitive p => p.alignment
  | string _ | enumeration .. => 4
  | bytes _ | sequence .. | map .. => w.bytes
  | array element _ => alignment w element
  | union ⟨_, discriminator, cases, fallback, _⟩ =>
    max discriminator.alignment (max (casesAlignment w cases) (fallbackAlignment w fallback))
  | struct .. | optional _ | reference _ => 1
termination_by structural l => l

/-- The greatest alignment of the payloads of the cases. -/
def casesAlignment (w : CountWidth) : List (Case Layout) → Nat
  | [] => 0
  | ⟨_, _, content⟩ :: cases => max (alignment w content) (casesAlignment w cases)
termination_by structural cases => cases

/-- The alignment of the payload of the default case. -/
def fallbackAlignment (w : CountWidth) : Option (Fallback Layout) → Nat
  | none => 0
  | some ⟨_, _, content⟩ => alignment w content
termination_by structural fallback => fallback

end

/-- The alignment of a union: the greatest of its tag and of its payloads. -/
def unionAlignment (w : CountWidth) (u : UnionLayout Layout) : Nat := alignment w (union u)

/-- A value nests through more references than are allowed. -/
def nestingCause (name : String) : Cause :=
  .invalidData "nesting" s!"reference to '{name}' exceeds the nesting limit"

end Layout

end Cdr
