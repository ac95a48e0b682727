import ClaudeReplay.Lib.Lines
import Mathlib.Data.List.Basic

/-!
# ClaudeReplay.Text

The text functions the fold applies before a string becomes block content:

* `trim` — `str::trim`, which strips every character with the Unicode
  `White_Space` property from both ends (not only the ASCII blanks);
* `stripAnsi` — `engine::ansi::strip_ansi`, the removal of CSI sequences, OSC
  strings and two-byte escapes. The source walks a peekable iterator; here the
  peeked position is an `AnsiState`, one character at a time;
* `strLines` — `str::lines`.
-/

namespace ClaudeReplay

/-- The Unicode `White_Space` property, as `char::is_whitespace` reads it. -/
def isWhitespace (c : Char) : Bool :=
  let n := c.toNat
  (9 ≤ n && n ≤ 13) || n == 0x20 || n == 0x85 || n == 0xA0 || n == 0x1680 ||
    (0x2000 ≤ n && n ≤ 0x200A) || n == 0x2028 || n == 0x2029 || n == 0x202F ||
    n == 0x205F || n == 0x3000

/-- Drop the whitespace at both ends of a character list. -/
def trimChars (cs : List Char) : List Char :=
  (((cs.dropWhile isWhitespace).reverse).dropWhile isWhitespace).reverse

/-- `str::trim`. -/
def trim (s : String) : String := String.ofList (trimChars s.toList)

/-- `s.trim().is_empty()`. -/
def isBlank (s : String) : Bool := s.toList.all isWhitespace

/-! ## escape removal -/

/-- The escape character. -/
def escChar : Char := Char.ofNat 0x1b

/-- Where the scanner of `stripAnsi` stands. -/
inductive AnsiState
  /-- in ordinary text -/
  | text
  /-- after an escape, before the character that says its kind -/
  | esc
  /-- inside a CSI sequence, up to its final byte -/
  | csi
  /-- inside an OSC string -/
  | osc
  /-- after an escape inside an OSC string: a backslash completes the terminator -/
  | oscEsc
  deriving DecidableEq, Repr

/-- A CSI sequence's final byte: `'@'..='~'`. -/
def isCsiFinal (c : Char) : Bool := 0x40 ≤ c.toNat && c.toNat ≤ 0x7e

/-- One character in state `text`: it is copied unless it opens an escape. -/
def ansiText (c : Char) : AnsiState × List Char :=
  if c = escChar then (.esc, []) else (.text, [c])

/-- One step of the scanner: the next state, and what it copies to the output. -/
def ansiStep : AnsiState → Char → AnsiState × List Char
  | .text, c => ansiText c
  | .esc, c => if c = '[' then (.csi, []) else if c = ']' then (.osc, []) else (.text, [])
  | .csi, c => (if isCsiFinal c then .text else .csi, [])
  | .osc, c => (if c = Char.ofNat 7 then .text else if c = escChar then .oscEsc else .osc, [])
  -- the terminator's backslash is only taken when it is there
  | .oscEsc, c => if c = '\\' then (.text, []) else ansiText c

/-- The characters `strip_ansi` keeps, from a scanner state on. -/
def ansiKept : AnsiState → List Char → List Char
  | _, [] => []
  | s, c :: cs => (ansiStep s c).2 ++ ansiKept (ansiStep s c).1 cs

/-- `strip_ansi`: the text without its terminal styling, untouched when it
holds no escape at all. -/
def stripAnsi (s : String) : String :=
  if s.toList.contains escChar then String.ofList (ansiKept .text s.toList) else s

example : stripAnsi "\x1b[1;31merror\x1b[0m done" = "error done" := by decide

/-! ## lines -/

/-- `str::lines`: the lines of a text, without what ends them. -/
def strLines (text : List Char) : List (List Char) :=
  let (ended, tail) := Lib.splitLines '\n' text
  (ended.map fun l => if l.getLast? = some '\r' then l.dropLast else l) ++
    if tail = [] then [] else [tail]

end ClaudeReplay
