import Cdr.Dictionary
import Cdr.Label
import Cdr.Primitive
import Cdr.Real.FloatFormat
import Cdr.Text.Quoted

/-! The values that layouts write and read.  A value carries its own kind, which need not be that of
the layout: a layout accepts every value that it can turn into one of its own without loss.  The
members of a struct value are a dictionary, so their order does not matter; the entries of a map
value keep their order, since they are written in it. -/

namespace Cdr

/-- A value of any kind. -/
inductive Value where
  | bool (b : Bool)
  | char (c : Char)
  | integer (n : Integer)
  /-- A float of thirty-two bits. -/
  | float32 (bits : UInt32)
  /-- A float of sixty-four bits. -/
  | float64 (bits : UInt64)
  | string (text : String)
  | bytes (data : List UInt8)
  /-- A value of an enumeration, by its name. -/
  | enumerator (name : String)
  /-- The elements of an array or a sequence. -/
  | array (items : List Value)
  | map (entries : List (Value × Value))
  | struct (members : List (String × Value))
  /-- The payload of the case with a label, or of the default case. -/
  | union (label : Option Label) (payload : Value)
  /-- An optional value that is absent. -/
  | null
deriving Repr, Inhabited

namespace Value

def kind : Value → String
  | bool _ => "bool"
  | char _ => "char"
  | integer n => n.type.name
  | float32 _ => "float32"
  | float64 _ => "float64"
  | string _ => "string"
  | bytes _ => "bytes"
  | enumerator _ => "enum"
  | array _ => "array"
  | map _ => "map"
  | struct _ => "struct"
  | union .. => "union"
  | null => "null"

/-- The struct value of a list of members, the last member of a name counting. -/
def ofMembers (members : List (String × Value)) : Value := struct (Dictionary.ofList members)

def isNull : Value → Bool
  | null => true
  | _ => false

def asInt? : Value → Option Int
  | integer n => some n.number
  | _ => none

/-- A number as a float of sixty-four bits.  An integer is rounded to the nearest float. -/
def asFloat? : Value → Option UInt64
  | float32 bits => some (Real.widen bits)
  | float64 bits => some bits
  | integer n => some (Real.ofInt n.number)
  | _ => none

def asString? : Value → Option String
  | string text => some text
  | _ => none

def asMembers? : Value → Option (List (String × Value))
  | struct members => some members
  | _ => none

def asItems? : Value → Option (List Value)
  | array items => some items
  | _ => none

def member? (name : String) (v : Value) : Option Value :=
  v.asMembers?.bind (Dictionary.find? name)

mutual

/-- Equality of values.  Floats are compared as numbers, so the two zeros are equal and what is not
a number differs from itself. -/
def equal : Value → Value → Bool
  | bool a, bool b => a == b
  | char a, char b => a == b
  | integer a, integer b => a == b
  | float32 a, float32 b => Real.FloatFormat.single.equal a.toNat b.toNat
  | float64 a, float64 b => Real.FloatFormat.double.equal a.toNat b.toNat
  | string a, string b => a == b
  | bytes a, bytes b => a == b
  | enumerator a, enumerator b => a == b
  | array a, array b => equalItems a b
  | map a, map b => equalEntries a b
  | struct a, struct b => equalMembers a b
  | union l a, union m b => l == m && equal a b
  | null, null => true
  | _, _ => false
termination_by structural a => a

/-- Equality of lists of values, element by element. -/
def equalItems : List Value → List Value → Bool
  | [], [] => true
  | a :: as, b :: bs => equal a b && equalItems as bs
  | _, _ => false
termination_by structural as => as

def equalEntries : List (Value × Value) → List (Value × Value) → Bool
  | [], [] => true
  | (k, v) :: as, (l, w) :: bs => equal k l && equal v w && equalEntries as bs
  | _, _ => false
termination_by structural as => as

def equalMembers : List (String × Value) → List (String × Value) → Bool
  | [], [] => true
  | (n, v) :: as, (m, w) :: bs => n == m && equal v w && equalMembers as bs
  | _, _ => false
termination_by structural as => as

end

/-- The name of an integer type in a message about a value. -/
def typeTitle : IntegerType → String
  | .int8 => "Int8"
  | .int16 => "Int16"
  | .int32 => "Int32"
  | .int64 => "Int64"
  | .uint8 => "UInt8"
  | .uint16 => "UInt16"
  | .uint32 => "UInt32"
  | .uint64 => "UInt64"

/-- A number or character in a message that says that it is out of range. -/
def outOfRangeText : Value → String
  | integer n => s!"{typeTitle n.type}({n.number}) (out of range)"
  | char c => s!"Char({Text.Quoted.ofChar c}) (out of range)"
  | v => s!"{v.kind} (out of range)"

end Value

end Cdr
