import Cdr.Real.FloatFormat

/-! JSON documents.  An integer that fits sixty-four bits is kept as an integer; every other number
is a float of sixty-four bits.  The entries of an object are a dictionary when the document was read
from a text. -/

namespace Cdr

/-- A number of a JSON document. -/
inductive Json.Number where
  /-- An integer from `-2 ^ 63` to `2 ^ 64 - 1`. -/
  | integer (n : Int)
  /-- A finite number by its bits. -/
  | float (bits : UInt64)
deriving DecidableEq, Repr

/-- A JSON document. -/
inductive Json where
  | null
  | bool (b : Bool)
  | number (n : Json.Number)
  | string (text : String)
  | array (items : List Json)
  | object (entries : List (String × Json))
deriving Repr, Inhabited

namespace Json

def ofInt (n : Int) : Json := number (.integer n)

/-- A float, or `null` where the format has no number for it. -/
def ofFloat (bits : UInt64) : Json :=
  match Real.FloatFormat.double.datum bits.toNat with
  | .finite _ => number (.float bits)
  | _ => null

/-- The document, or `null` for none. -/
def ofOption {α : Type} (f : α → Json) : Option α → Json
  | none => null
  | some x => f x

/-- The entry of the name, if the document is an object that has one. -/
def field? (name : String) : Json → Option Json
  | object entries => (entries.find? (·.1 == name)).map (·.2)
  | _ => none

end Json

end Cdr
