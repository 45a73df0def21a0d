/-
Reading JSON texts.  A reader takes the characters that belong to what it
reads and returns the rest.  Of fields with the same key the last one counts.
-/
import Parterre.Json.Number

namespace Parterre.Json

open Decimal (isDigit digitValue natOfDigits)

def isBlank (c : Char) : Bool :=
  c == ' ' || c == '\n' || c == '\t' || c == '\r'

def skipBlanks (input : List Char) : List Char :=
  input.dropWhile isBlank

/-- The value of a hexadecimal digit. -/
def hexValue? (c : Char) : Option Nat :=
  if isDigit c then some (digitValue c)
  else if 'a' ≤ c && c ≤ 'f' then some (c.toNat - 'a'.toNat + 10)
  else if 'A' ≤ c && c ≤ 'F' then some (c.toNat - 'A'.toNat + 10)
  else none

/-- Four hexadecimal digits. -/
def readHex : List Char → Option (Nat × List Char)
  | a :: b :: c :: d :: rest => do
      let a ← hexValue? a
      let b ← hexValue? b
      let c ← hexValue? c
      let d ← hexValue? d
      return (((a * 16 + b) * 16 + c) * 16 + d, rest)
  | _ => none

def isHighSurrogate (unit : Nat) : Bool :=
  0xd800 ≤ unit && unit < 0xdc00

def isLowSurrogate (unit : Nat) : Bool :=
  0xdc00 ≤ unit && unit < 0xe000

/-- The character of an escape by code units; surrogates must be paired. -/
def readUnicode (input : List Char) : Option (Char × List Char) := do
  let (unit, rest) ← readHex input
  if isLowSurrogate unit then none
  else if isHighSurrogate unit then
    match rest with
    | '\\' :: 'u' :: rest => do
        let (low, rest) ← readHex rest
        if isLowSurrogate low then
          return (Char.ofNat
            (0x10000 + (unit - 0xd800) * 0x400 + (low - 0xdc00)), rest)
        else none
    | _ => none
  else return (Char.ofNat unit, rest)

/-- The character behind a backslash. -/
def readEscape : List Char → Option (Char × List Char)
  | '"' :: rest => some ('"', rest)
  | '\\' :: rest => some ('\\', rest)
  | '/' :: rest => some ('/', rest)
  | 'b' :: rest => some ('\x08', rest)
  | 'f' :: rest => some ('\x0c', rest)
  | 'n' :: rest => some ('\n', rest)
  | 'r' :: rest => some ('\r', rest)
  | 't' :: rest => some ('\t', rest)
  | 'u' :: rest => readUnicode rest
  | _ => none

/-- The characters of a string up to its closing quote, in front of those
already read.  Every round takes at least one character. -/
def readString : Nat → List Char → List Char → Option (String × List Char)
  | 0, _, _ => none
  | rounds + 1, read, input =>
      match input with
      | '"' :: rest => some (String.ofList read.reverse, rest)
      | '\\' :: rest => do
          let (c, rest) ← readEscape rest
          readString rounds (c :: read) rest
      | c :: rest =>
          if c.toNat < 0x20 then none else readString rounds (c :: read) rest
      | [] => none

/-- At least one digit. -/
def readDigits (input : List Char) : Option (List Char × List Char) :=
  match input.span isDigit with
  | ([], _) => none
  | (digits, rest) => some (digits, rest)

/-- Digits without a zero in front of others. -/
def readWhole (input : List Char) : Option (List Char × List Char) := do
  let (digits, rest) ← readDigits input
  match digits with
  | '0' :: _ :: _ => none
  | _ => return (digits, rest)

/-- The digits behind a point, if there is one. -/
def readFraction : List Char → Option (Option (List Char) × List Char)
  | '.' :: rest => do
      let (digits, rest) ← readDigits rest
      return (some digits, rest)
  | input => some (none, input)

/-- The digits of an exponent behind its sign. -/
def readPower (negative : Bool) (input : List Char) :
    Option (Option Int × List Char) := do
  let (digits, rest) ← readDigits input
  let power : Int := natOfDigits digits
  return (some (if negative then -power else power), rest)

/-- An exponent, if there is one. -/
def readExponent : List Char → Option (Option Int × List Char)
  | c :: rest =>
      if c == 'e' || c == 'E' then
        match rest with
        | '+' :: rest => readPower false rest
        | '-' :: rest => readPower true rest
        | rest => readPower false rest
      else some (none, c :: rest)
  | [] => some (none, [])

/-- A number behind its sign. -/
def readNumber (negative : Bool) (input : List Char) :
    Option (Json × List Char) := do
  let (whole, rest) ← readWhole input
  let (fraction, rest) ← readFraction rest
  let (exponent, rest) ← readExponent rest
  let value ← NumberText.value? ⟨negative, whole, fraction, exponent⟩
  return (value, rest)

mutual

/-- A value with at most `levels` arrays and objects around each other.  The
first number bounds the calls, of which every two take a character. -/
def readValue : Nat → Nat → List Char → Option (Json × List Char)
  | 0, _, _ => none
  | calls + 1, levels, input =>
      match skipBlanks input with
      | 'n' :: 'u' :: 'l' :: 'l' :: rest => some (.null, rest)
      | 't' :: 'r' :: 'u' :: 'e' :: rest => some (.boolean true, rest)
      | 'f' :: 'a' :: 'l' :: 's' :: 'e' :: rest => some (.boolean false, rest)
      | '"' :: rest => do
          let (text, rest) ← readString (rest.length + 1) [] rest
          return (.string text, rest)
      | '[' :: rest =>
          match levels with
          | 0 => none
          | levels + 1 =>
              match skipBlanks rest with
              | ']' :: rest => some (.array [], rest)
              | rest => readElements calls levels [] rest
      | '{' :: rest =>
          match levels with
          | 0 => none
          | levels + 1 =>
              match skipBlanks rest with
              | '}' :: rest => some (.object [], rest)
              | rest => readFields calls levels [] rest
      | '-' :: rest => readNumber true rest
      | rest => readNumber false rest

/-- The elements of an array behind those already read. -/
def readElements : Nat → Nat → List Json → List Char → Option (Json × List Char)
  | 0, _, _, _ => none
  | calls + 1, levels, read, input => do
      let (value, rest) ← readValue calls levels input
      match skipBlanks rest with
      | ',' :: rest => readElements calls levels (value :: read) rest
      | ']' :: rest => return (.array (value :: read).reverse, rest)
      | _ => none

/-- The fields of an object beside those already read. -/
def readFields : Nat → Nat → List (String × Json) → List Char →
    Option (Json × List Char)
  | 0, _, _, _ => none
  | calls + 1, levels, read, input =>
      match skipBlanks input with
      | '"' :: rest => do
          let (key, rest) ← readString (rest.length + 1) [] rest
          match skipBlanks rest with
          | ':' :: rest => do
              let (value, rest) ← readValue calls levels rest
              let read := insertField key value read
              match skipBlanks rest with
              | ',' :: rest => readFields calls levels read rest
              | '}' :: rest => return (.object read, rest)
              | _ => none
          | _ => none
      | _ => none

end

/-- How many arrays and objects may stand around each other. -/
def maxLevels : Nat := 127

/-- The value of a whole text. -/
def parse? (text : String) : Option Json := do
  let input := text.toList
  let (value, rest) ← readValue (2 * input.length + 2) maxLevels input
  if (skipBlanks rest).isEmpty then return value else none

end Parterre.Json
