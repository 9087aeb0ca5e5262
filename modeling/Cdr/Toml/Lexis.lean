import Cdr.Text.Hex

/-! The small parts of TOML texts: blanks, line ends, comments, keys and strings.  Each reader takes
the part at the start of a text and gives what follows it. -/

namespace Cdr.Toml

/-- The characters that are allowed outside of control: a tab, and everything from the space on but
the last control character of ASCII. -/
def isPlain (c : Char) : Bool := c == '\t' || (32 ≤ c.toNat && c.toNat ≠ 127)

/-- The text without the spaces and tabs at its start. -/
def skipBlanks (text : List Char) : List Char := text.dropWhile fun c => c == ' ' || c == '\t'

def newline? : List Char → Option (List Char)
  | '\n' :: rest => some rest
  | '\r' :: '\n' :: rest => some rest
  | _ => none

def skipComment : List Char → List Char
  | '#' :: rest => rest.dropWhile isPlain
  | text => text

/-- What follows the blanks, the comment and the line end, or end of the text, behind an
expression. -/
def lineEnd? (text : List Char) : Option (List Char) :=
  match skipComment (skipBlanks text) with
  | [] => some []
  | rest => newline? rest

/-- The text without blanks, comments and line ends at its start. -/
def skipLines : List Char → List Char
  | ' ' :: rest | '\t' :: rest | '\n' :: rest => skipLines rest
  | '\r' :: '\n' :: rest => skipLines rest
  | '#' :: rest => skipLinesAfterComment rest
  | text => text
where
  /-- The same inside a comment. -/
  skipLinesAfterComment : List Char → List Char
    | '\n' :: rest => skipLines rest
    | '\r' :: '\n' :: rest => skipLines rest
    | c :: rest => if isPlain c then skipLinesAfterComment rest else c :: rest
    | [] => []

def ofLetter? : Char → Option Char
  | 'b' => some (Char.ofNat 8)
  | 't' => some '\t'
  | 'n' => some '\n'
  | 'f' => some (Char.ofNat 12)
  | 'r' => some '\r'
  | '"' => some '"'
  | '\\' => some '\\'
  | _ => none

/-- The character of a code given by hexadecimal digits. -/
def ofCode? (digits : List Char) : Option Char := do
  let n ← Text.Hex.number? digits
  if n < 0xD800 ∨ (0xDFFF < n ∧ n < 0x110000) then some (Char.ofNat n) else none

/-- The character of an escape, behind its backslash. -/
def escape? : List Char → Option (Char × List Char)
  | 'u' :: a :: b :: c :: d :: rest => do return (← ofCode? [a, b, c, d], rest)
  | 'U' :: a :: b :: c :: d :: e :: f :: g :: h :: rest => do
    return (← ofCode? [a, b, c, d, e, f, g, h], rest)
  | letter :: rest => do return (← ofLetter? letter, rest)
  | [] => none

/-- The rest of a string of one line between double quotes, after the characters already read, last
one first. -/
def basicString? (done : List Char) : Nat → List Char → Option (String × List Char)
  | 0, _ => none
  | _, [] => none
  | _, '"' :: rest => some (String.ofList done.reverse, rest)
  | fuel + 1, '\\' :: rest => do
    let (c, rest) ← escape? rest
    basicString? (c :: done) fuel rest
  | fuel + 1, c :: rest => if isPlain c then basicString? (c :: done) fuel rest else none

/-- The rest of a string of one line between single quotes, after the characters already read. -/
def literalString? (done : List Char) : List Char → Option (String × List Char)
  | [] => none
  | '\'' :: rest => some (String.ofList done.reverse, rest)
  | c :: rest => if isPlain c then literalString? (c :: done) rest else none

/-- What follows a backslash at the end of a line: the blanks and line ends there are skipped. -/
def continuation? (text : List Char) : Option (List Char) := do
  let rest ← newline? (skipBlanks text)
  return skipBreaks rest
where
  /-- The text without blanks and line ends at its start. -/
  skipBreaks : List Char → List Char
    | ' ' :: rest | '\t' :: rest | '\n' :: rest => skipBreaks rest
    | '\r' :: '\n' :: rest => skipBreaks rest
    | text => text

/-- The end of a string of several lines: three quotes, before which up to two more belong to the
string. -/
def closing? (quote : Char) (done : List Char) (text : List Char) :
    Option (String × List Char) :=
  let quotes := (text.takeWhile (· == quote)).length
  if 3 ≤ quotes then
    let kept := min (quotes - 3) 2
    some (String.ofList (List.replicate kept quote ++ done).reverse, text.drop (kept + 3))
  else none

/-- The rest of a string of several lines, after the characters already read, last one first.  The
quote decides whether a backslash starts an escape. -/
def longString? (quote : Char) (done : List Char) : Nat → List Char →
    Option (String × List Char)
  | 0, _ => none
  | _, [] => none
  | fuel + 1, c :: rest =>
    if c = quote then
      match closing? quote done (c :: rest) with
      | some result => some result
      | none => longString? quote (c :: done) fuel rest
    else if c = '\\' ∧ quote = '"' then
      match continuation? rest with
      | some rest => longString? quote done fuel rest
      | none => do
        let (c, rest) ← escape? rest
        longString? quote (c :: done) fuel rest
    else
      match newline? (c :: rest) with
      | some rest => longString? quote ('\n' :: done) fuel rest
      | none => if isPlain c then longString? quote (c :: done) fuel rest else none

/-- A line end right behind the opening quotes is no part of the string. -/
def skipFirstBreak (text : List Char) : List Char := (newline? text).getD text

def string? (text : List Char) : Option (String × List Char) :=
  let fuel := text.length + 1
  match text with
  | '"' :: '"' :: '"' :: rest => longString? '"' [] fuel (skipFirstBreak rest)
  | '\'' :: '\'' :: '\'' :: rest => longString? '\'' [] fuel (skipFirstBreak rest)
  | '"' :: rest => basicString? [] fuel rest
  | '\'' :: rest => literalString? [] rest
  | _ => none

def isBare (c : Char) : Bool := c.isAlphanum || c == '-' || c == '_'

def simpleKey? (text : List Char) : Option (String × List Char) :=
  match text with
  | '"' :: rest => basicString? [] (text.length + 1) rest
  | '\'' :: rest => literalString? [] rest
  | text =>
    let name := text.takeWhile isBare
    if name.isEmpty then none else some (String.ofList name, text.drop name.length)

/-- The parts of a key, separated by dots, after those already read. -/
def keyParts? (done : List String) : Nat → List Char → Option (List String × List Char)
  | 0, _ => none
  | fuel + 1, text => do
    let (part, rest) ← simpleKey? (skipBlanks text)
    match skipBlanks rest with
    | '.' :: rest => keyParts? (part :: done) fuel rest
    | rest => return ((part :: done).reverse, rest)

/-- The nesting of tables and arrays, and the number of the parts of a key, stay below this. -/
def nestingLimit : Nat := 80

def key? (text : List Char) : Option (List String × List Char) := do
  let (parts, rest) ← keyParts? [] (text.length + 1) text
  if parts.length < nestingLimit then some (parts, rest) else none

end Cdr.Toml
