import Cdr.Toml.Number
import Cdr.Toml.Table

/-! TOML texts.  A text is a list of lines, each of them blank, a header, or a key with its value.
-/

namespace Cdr.Toml

/-- The word at the start of a text, if it is the given one. -/
def word? (word : List Char) (value : Toml) (text : List Char) : Option (Toml × List Char) :=
  if word.isPrefixOf text then some (value, text.drop word.length) else none

/-- The date, time or number at the start of a text. -/
def scalar? (text : List Char) : Option (Toml × List Char) :=
  match dateTime? text with
  | some rest => do
    let rest ← rest
    return (.moment (String.ofList (text.take (text.length - rest.length))), rest)
  | none => do
    match ← numeral? text with
    | (.integer n, rest) => return (.integer n, rest)
    | (.float bits, rest) => return (.float bits, rest)

mutual

/-- The value at the start of a text, with at most `levels` levels of arrays and tables in it. -/
def value? : Nat → Nat → List Char → Option (Toml × List Char)
  | 0, _, _ => none
  | fuel + 1, levels, text =>
    match text with
    | '[' :: rest =>
      match levels with
      | 0 => none
      | levels + 1 => items? fuel levels [] rest
    | '{' :: rest =>
      match levels with
      | 0 => none
      | levels + 1 =>
        match skipBlanks rest with
        | '}' :: rest => some (.inline Origin.own [], rest)
        | rest => pairs? fuel levels [] rest
    | 't' :: _ => word? ['t', 'r', 'u', 'e'] (.bool true) text
    | 'f' :: _ => word? ['f', 'a', 'l', 's', 'e'] (.bool false) text
    | '"' :: _ | '\'' :: _ => do
      let (s, rest) ← string? text
      return (.string s, rest)
    | _ => scalar? text

/-- The rest of an array, after the items already read. -/
def items? : Nat → Nat → List Toml → List Char → Option (Toml × List Char)
  | 0, _, _, _ => none
  | fuel + 1, levels, done, text =>
    match skipLines text with
    | ']' :: rest => some (.array done.reverse, rest)
    | text =>
      match value? fuel levels text with
      | none => none
      | some (item, rest) =>
        match skipLines rest with
        | ',' :: rest => items? fuel levels (item :: done) rest
        | ']' :: rest => some (.array (item :: done).reverse, rest)
        | _ => none

/-- The rest of a table in braces, after the entries already read. -/
def pairs? : Nat → Nat → Entries → List Char → Option (Toml × List Char)
  | 0, _, _, _ => none
  | fuel + 1, levels, done, text =>
    match key? text with
    | some (key, '=' :: rest) =>
      match value? fuel levels (skipBlanks rest) with
      | none => none
      | some (value, rest) =>
        match assignInline key value done with
        | none => none
        | some done =>
          match skipBlanks rest with
          | ',' :: rest => pairs? fuel levels done rest
          | '}' :: rest => some (.inline Origin.own done, rest)
          | _ => none
    | _ => none

end

/-- The path of a header behind its opening brackets, and what follows the line. -/
def header? (closing text : List Char) : Option (List String × List Char) := do
  let (path, rest) ← key? text
  if closing.isPrefixOf rest then
    return (path, ← lineEnd? (rest.drop closing.length))
  else none

/-- Reads an expression, which starts behind the blanks of its line. -/
def expression? (d : Draft) (text : List Char) : Option (Draft × List Char) :=
  match text with
  | '[' :: '[' :: rest => do
    let (path, rest) ← header? [']', ']'] rest
    return (← d.startElement path, rest)
  | '[' :: rest => do
    let (path, rest) ← header? [']'] rest
    return (← d.startTable path, rest)
  | '#' :: _ => do return (d, ← lineEnd? text)
  | '\n' :: _ | '\r' :: _ => do return (d, ← newline? text)
  | _ =>
    match key? text with
    | some (key, '=' :: rest) => do
      let rest := skipBlanks rest
      let (value, rest) ← value? (2 * rest.length + 2) (nestingLimit - 1) rest
      let rest ← lineEnd? rest
      return (← d.assign key value, rest)
    | _ => none

def expressions? (d : Draft) : Nat → List Char → Option Draft
  | 0, _ => none
  | fuel + 1, text =>
    match skipBlanks text with
    | [] => some d
    | text => do
      let (d, rest) ← expression? d text
      expressions? d fuel rest

/-- The entries of the table that a text describes. -/
def parse? (text : String) : Option Entries := do
  let chars := text.toList
  let chars := if chars.head? = some (Char.ofNat 0xFEFF) then chars.tail else chars
  let d ← expressions? { } (chars.length + 1) chars
  d.close

end Cdr.Toml
