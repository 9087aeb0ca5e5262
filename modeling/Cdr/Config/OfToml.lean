import Cdr.Config
import Cdr.Fault
import Cdr.Toml.Document

/-! Configurations read from TOML texts.  Keys that are not known are ignored, and what has no key
keeps its default. -/

namespace Cdr.Config

/-- One of several choices, by its name: a string, or a table whose only entry has the name and
holds nothing. -/
def choice? {α : Type} (ofName? : String → Option α) : Toml → Option α
  | .string name => ofName? name
  | .inline _ [(name, .array [])] | .table _ [(name, .array [])]
  | .inline _ [(name, .inline _ [])] | .table _ [(name, .inline _ [])]
  | .inline _ [(name, .table _ [])] | .table _ [(name, .table _ [])] => ofName? name
  | _ => none

/-- A number that is not negative. -/
def count? : Toml → Option Nat
  | .integer n => if 0 ≤ n then some n.toNat else none
  | _ => none

def orderOfName? : String → Option ByteOrder
  | "big" => some .big
  | "little" => some .little
  | _ => none

def countWidthOfName? : String → Option CountWidth
  | "u16" => some .u16
  | "u32" => some .u32
  | _ => none

/-- The value of a key, or the default where there is none. -/
def entry? {α : Type} (read : Toml → Option α) (default : α) (name : String)
    (entries : Toml.Entries) : Option α :=
  match Dictionary.find? name entries with
  | none => some default
  | some value => read value

def ofEntries? (entries : Toml.Entries) : Option Config := do
  let c : Config := { }
  return {
    order := ← entry? (choice? orderOfName?) c.order "endianness" entries
    countWidth := ← entry? (choice? countWidthOfName?) c.countWidth "length_prefix" entries
    initialCapacity := ← entry? count? c.initialCapacity "initial_capacity" entries
    maxUnboundedLength := ← entry? count? c.maxUnboundedLength "max_unbounded_length" entries
    maxDepth := ← entry? count? c.maxDepth "max_depth" entries }

def ofToml (text : String) : Except Fault Config :=
  match Toml.parse? text >>= ofEntries? with
  | some config => .ok config
  | none => .error (Cause.configuration "malformed configuration").fault

end Cdr.Config
