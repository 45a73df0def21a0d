/-
Quoted text: a text between double quotes, in which quotes, backslashes and
control characters are escaped and an unprintable character is given by its
code point in braces.
-/
import Parterre.Text.Unprintable

namespace Parterre.Text

/-- The code point of a character in lowercase hexadecimal digits. -/
def hexadecimal (c : Char) : List Char :=
  Nat.toDigits 16 c.toNat

/-- One character of a quoted text. -/
def quoteChar (c : Char) : List Char :=
  match c with
  | '"' => ['\\', '"']
  | '\\' => ['\\', '\\']
  | '\n' => ['\\', 'n']
  | '\r' => ['\\', 'r']
  | '\t' => ['\\', 't']
  | '\x00' => ['\\', '0']
  | c =>
      if isUnprintable c then
        ['\\', 'u', '\x7b'] ++ hexadecimal c ++ ['\x7d']
      else [c]

def quote (text : String) : String :=
  String.ofList (['"'] ++ text.toList.flatMap quoteChar ++ ['"'])

end Parterre.Text
