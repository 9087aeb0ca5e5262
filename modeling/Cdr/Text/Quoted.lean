import Cdr.Text.Unseen
import Cdr.Text.Hex

/-! Characters and texts between quotes, as they appear in messages.  Controls that have a letter
are written with it, and every other character that shows nothing of its own by its code. -/

namespace Cdr.Text.Quoted

/-- The code of a character in hexadecimal digits, without zeros in front. -/
def code (c : Char) : List Char := Nat.toDigits 16 c.toNat

def escape (quote c : Char) : List Char :=
  if c = quote ∨ c = '\\' then ['\\', c]
  else if c.toNat = 0 then ['\\', '0']
  else if c = '\t' then ['\\', 't']
  else if c = '\r' then ['\\', 'r']
  else if c = '\n' then ['\\', 'n']
  else if isUnseen c then '\\' :: 'u' :: '{' :: code c ++ ['}']
  else [c]

def ofChar (c : Char) : String := String.ofList ('\'' :: escape '\'' c ++ ['\''])

def ofText (text : String) : String :=
  String.ofList ('"' :: text.toList.flatMap (escape '"') ++ ['"'])

end Cdr.Text.Quoted
