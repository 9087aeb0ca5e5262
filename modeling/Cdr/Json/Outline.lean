import Cdr.Json.Numeral
import Cdr.Text.Hex
import Cdr.Dictionary

/-! The outline of a JSON text: its grammatical structure, kept also where the text breaks off or
holds something that has no value.  A reader that ignores part of a text asks nothing of that part
but its grammar, so a number beyond every float, a string with half a surrogate pair and a nesting
too deep to follow are recorded in the outline and are errors only where a value is wanted. -/

namespace Cdr.Json

/-- The structure of a JSON text. -/
inductive Outline where
  /-- The text breaks the grammar here, or nests too deeply to go on. -/
  | broken
  | null
  | bool (b : Bool)
  /-- A number, absent if it is beyond the greatest float. -/
  | number (value : Option Number)
  /-- A string, absent if half of a surrogate pair stands in it. -/
  | string (text : Option String)
  /-- The items of an array up to its end, or up to where the text breaks. -/
  | array (items : List Outline) (closed : Bool)
  /-- The entries of an object up to its end, or up to where the text breaks. -/
  | object (entries : List (Option String × Outline)) (closed : Bool)
deriving Repr, Inhabited

namespace Outline

/-- A part of a string: a character, or a code of sixteen bits given by an escape. -/
inductive Part where
  | plain (c : Char)
  | coded (n : Nat)
deriving DecidableEq, Repr

def ofLetter? : Char → Option Char
  | '"' => some '"'
  | '\\' => some '\\'
  | '/' => some '/'
  | 'b' => some (Char.ofNat 8)
  | 'f' => some (Char.ofNat 12)
  | 'n' => some '\n'
  | 'r' => some '\r'
  | 't' => some '\t'
  | _ => none

/-- The parts of a string, in front of those already read, up to its closing quote. -/
def scanString (done : List Part) : List Char → Option (List Part × List Char)
  | [] => none
  | '"' :: rest => some (done.reverse, rest)
  | '\\' :: 'u' :: a :: b :: c :: d :: rest =>
    match Text.Hex.number? [a, b, c, d] with
    | some n => scanString (.coded n :: done) rest
    | none => none
  | '\\' :: letter :: rest =>
    match ofLetter? letter with
    | some c => scanString (.plain c :: done) rest
    | none => none
  | c :: rest => if c.toNat < 32 then none else scanString (.plain c :: done) rest

/-- The characters that the parts of a string stand for: two codes that form a surrogate pair are
one character, and half of a pair is none. -/
def assemble (done : List Char) : List Part → Option (List Char)
  | [] => some done.reverse
  | .plain c :: parts => assemble (c :: done) parts
  | .coded n :: parts =>
    if n < 0xD800 ∨ 0xDFFF < n then assemble (Char.ofNat n :: done) parts
    else if 0xDBFF < n then none
    else
      match parts with
      | .coded m :: parts =>
        if 0xDC00 ≤ m ∧ m ≤ 0xDFFF then
          assemble (Char.ofNat (0x10000 + (n - 0xD800) * 0x400 + (m - 0xDC00)) :: done) parts
        else none
      | _ => none

/-- The text of a string after its opening quote and what follows the string. -/
def scanText (text : List Char) : Option (Option String × List Char) :=
  (scanString [] text).map fun (parts, rest) => ((assemble [] parts).map String.ofList, rest)

def skipBlanks (text : List Char) : List Char :=
  text.dropWhile fun c => c == ' ' || c == '\n' || c == '\t' || c == '\r'

def scanWord (word : List Char) (value : Outline) (text : List Char) :
    Outline × Option (List Char) :=
  if word.isPrefixOf text then (value, some (text.drop word.length)) else (.broken, none)

mutual

/-- The outline of the value at the start of a text and what follows it, if it is whole. -/
def scanValue : Nat → List Char → Outline × Option (List Char)
  | 0, _ => (.broken, none)
  | fuel + 1, text =>
    match skipBlanks text with
    | '"' :: rest =>
      match scanText rest with
      | some (text, rest) => (.string text, some rest)
      | none => (.broken, none)
    | '[' :: rest =>
      match skipBlanks rest with
      | ']' :: rest => (.array [] true, some rest)
      | rest => scanItems fuel [] rest
    | '{' :: rest =>
      match skipBlanks rest with
      | '}' :: rest => (.object [] true, some rest)
      | rest => scanEntries fuel [] rest
    | 'n' :: rest => scanWord ['u', 'l', 'l'] .null rest
    | 't' :: rest => scanWord ['r', 'u', 'e'] (.bool true) rest
    | 'f' :: rest => scanWord ['a', 'l', 's', 'e'] (.bool false) rest
    | text =>
      match Numeral.scan text with
      | some (parts, rest) => (.number (Numeral.value? parts), some rest)
      | none => (.broken, none)

/-- The outline of an array from an item on, after the items already read. -/
def scanItems : Nat → List Outline → List Char → Outline × Option (List Char)
  | 0, done, _ => (.array done.reverse false, none)
  | fuel + 1, done, text =>
    match scanValue fuel text with
    | (item, none) => (.array (item :: done).reverse false, none)
    | (item, some rest) =>
      match skipBlanks rest with
      | ']' :: rest => (.array (item :: done).reverse true, some rest)
      | ',' :: rest => scanItems fuel (item :: done) rest
      | _ => (.array (item :: done).reverse false, none)

/-- The outline of an object from an entry on, after the entries already read. -/
def scanEntries :
    Nat → List (Option String × Outline) → List Char → Outline × Option (List Char)
  | 0, done, _ => (.object done.reverse false, none)
  | fuel + 1, done, text =>
    match skipBlanks text with
    | '"' :: rest =>
      match scanText rest with
      | none => (.object done.reverse false, none)
      | some (key, rest) =>
        match skipBlanks rest with
        | ':' :: rest =>
          match scanValue fuel rest with
          | (value, none) => (.object ((key, value) :: done).reverse false, none)
          | (value, some rest) =>
            match skipBlanks rest with
            | '}' :: rest => (.object ((key, value) :: done).reverse true, some rest)
            | ',' :: rest => scanEntries fuel ((key, value) :: done) rest
            | _ => (.object ((key, value) :: done).reverse false, none)
        | _ => (.object ((key, .broken) :: done).reverse false, none)
    | _ => (.object done.reverse false, none)

end

/-- The outline of the value that a text starts with, and whether only blanks follow it. -/
def ofText (text : String) : Outline × Bool :=
  let chars := text.toList
  match scanValue (2 * chars.length + 2) chars with
  | (outline, some rest) => (outline, (skipBlanks rest).isEmpty)
  | (outline, none) => (outline, false)

mutual

/-- The outline with every array and object below the given number of levels broken. -/
def curb : Nat → Outline → Outline
  | limit, array items closed =>
    match limit with
    | 0 => broken
    | limit + 1 => array (curbItems limit items) closed
  | limit, object entries closed =>
    match limit with
    | 0 => broken
    | limit + 1 => object (curbEntries limit entries) closed
  | _, broken => broken
  | _, null => null
  | _, bool b => bool b
  | _, number n => number n
  | _, string s => string s
termination_by structural _ o => o

/-- The items with what nests too deeply broken off. -/
def curbItems (limit : Nat) : List Outline → List Outline
  | [] => []
  | item :: items => curb limit item :: curbItems limit items
termination_by structural items => items

/-- The entries with what nests too deeply broken off. -/
def curbEntries (limit : Nat) :
    List (Option String × Outline) → List (Option String × Outline)
  | [] => []
  | (key, value) :: entries => (key, curb limit value) :: curbEntries limit entries
termination_by structural entries => entries

end

mutual

/-- The document of an outline that has a value throughout.  The last entry of a name counts. -/
def toJson? : Outline → Option Json
  | broken => none
  | null => some .null
  | bool b => some (.bool b)
  | number n => n.map .number
  | string s => s.map .string
  | array items closed =>
    match toJsonItems? items with
    | some items => if closed then some (.array items) else none
    | none => none
  | object entries closed =>
    match toJsonEntries? [] entries with
    | some entries => if closed then some (.object entries) else none
    | none => none
termination_by structural o => o

/-- The documents of items that all have a value. -/
def toJsonItems? : List Outline → Option (List Json)
  | [] => some []
  | item :: items =>
    match toJson? item, toJsonItems? items with
    | some item, some items => some (item :: items)
    | _, _ => none
termination_by structural items => items

/-- The entries of an object after those already read, if all of them have a value. -/
def toJsonEntries? (done : List (String × Json)) :
    List (Option String × Outline) → Option (List (String × Json))
  | [] => some done
  | (key, value) :: entries =>
    match key, toJson? value with
    | some key, some value => toJsonEntries? (Dictionary.insert key value done) entries
    | _, _ => none
termination_by structural entries => entries

end

mutual

def ofJson : Json → Outline
  | .null => null
  | .bool b => bool b
  | .number n => number (some n)
  | .string s => string (some s)
  | .array items => array (ofJsonItems items) true
  | .object entries => object (ofJsonEntries entries) true
termination_by structural j => j

def ofJsonItems : List Json → List Outline
  | [] => []
  | item :: items => ofJson item :: ofJsonItems items
termination_by structural items => items

def ofJsonEntries : List (String × Json) → List (Option String × Outline)
  | [] => []
  | (key, value) :: entries => (some key, ofJson value) :: ofJsonEntries entries
termination_by structural entries => entries

end

mutual

/-- One more than the number of arrays and objects around the innermost value. -/
def depth : Outline → Nat
  | array items _ => depthItems items + 1
  | object entries _ => depthEntries entries + 1
  | _ => 1
termination_by structural o => o

def depthItems : List Outline → Nat
  | [] => 0
  | item :: items => max (depth item) (depthItems items)
termination_by structural items => items

/-- The greatest depth of the value of an entry. -/
def depthEntries : List (Option String × Outline) → Nat
  | [] => 0
  | (_, value) :: entries => max (depth value) (depthEntries entries)
termination_by structural entries => entries

end

end Outline

/-- The deepest nesting of arrays and objects that a text may have where its value is wanted. -/
def nestingLimit : Nat := 127

/-- The document of a text whose nesting stays within a limit. -/
def parseWithin? (limit : Nat) (text : String) : Option Json :=
  match Outline.ofText text with
  | (outline, true) => (outline.curb limit).toJson?
  | (_, false) => none

def parse? (text : String) : Option Json := parseWithin? nestingLimit text

/-- The document of a text of any nesting. -/
def parseDeep? (text : String) : Option Json :=
  match Outline.ofText text with
  | (outline, true) => outline.toJson?
  | (_, false) => none

end Cdr.Json
