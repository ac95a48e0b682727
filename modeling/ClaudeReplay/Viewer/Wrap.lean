import ClaudeReplay.Text
import Mathlib.Algebra.GroupWithZero.Nat

/-!
# ClaudeReplay.Viewer.Wrap

Styled lines, wrapped to a width.

A line is made safe to write first: tabs become the spaces to the next tab stop, other control
characters go. Then its words, runs of spaces or of anything else within one span, are put on rows
one after the other. A word that does not fit begins a new row, behind an indent as deep as the
line's own opening; a blank one that would begin a row is dropped; and one that fits no row is put
down character by character. How wide a character is drawn is a parameter (`Widths`).

What wrapping is to keep is `Wrapped`: rows that fit, which read one after the other are the text
but for the indents and the blanks dropped, in the styles it had, and a single row where the text
fits.
-/

namespace ClaudeReplay.Viewer

/-- How many columns a character takes. -/
structure Widths where
  width : Char → Nat
  le_two : ∀ c, width c ≤ 2
  space : width ' ' = 1

/-- The columns of a text. -/
def Widths.textWidth (W : Widths) (text : List Char) : Nat := (text.map W.width).sum

/-- How a text is drawn; the modifiers are sets of flags. -/
structure Style (Color : Type) where
  fg : Option Color := none
  bg : Option Color := none
  addModifier : BitVec 16 := 0
  subModifier : BitVec 16 := 0
  deriving DecidableEq

structure Span (Color : Type) where
  content : List Char
  style : Style Color := {}
  deriving DecidableEq

structure Line (Color : Type) where
  spans : List (Span Color)
  style : Style Color := {}
  deriving DecidableEq

/-- A character as it is drawn: in its span's style over its line's. -/
structure Cell (Color : Type) where
  char : Char
  line : Style Color
  span : Style Color
  deriving DecidableEq

variable {Color : Type}

def Span.cells (line : Style Color) (span : Span Color) : List (Cell Color) :=
  span.content.map fun c => ⟨c, line, span.style⟩

namespace Line

def text (line : Line Color) : List Char := line.spans.flatMap Span.content

def cells (line : Line Color) : List (Cell Color) := line.spans.flatMap (Span.cells line.style)

end Line

/-! ## making a line safe -/

/-- The Unicode control characters, as `char::is_control` reads them. -/
def isControl (c : Char) : Bool := c.toNat < 32 || (127 ≤ c.toNat && c.toNat < 160)

def tabStop : Nat := 8

/-- A character of a line, after so many columns. -/
def sanitizeChar (W : Widths) (s : Nat × List Char) (ch : Char) : Nat × List Char :=
  if ch = '\t' then
    let n := tabStop - s.1 % tabStop
    (s.1 + n, s.2 ++ List.replicate n ' ')
  else if isControl ch then s
  else (s.1 + W.width ch, s.2 ++ [ch])

/-- The spans of a line, from a column on. -/
def sanitizeSpans (W : Widths) (col : Nat) : List (Span Color) → List (Span Color)
  | [] => []
  | sp :: sps =>
    let s := sp.content.foldl (sanitizeChar W) (col, [])
    { content := s.2, style := sp.style } :: sanitizeSpans W s.1 sps

/-- `sanitize_line` -/
def sanitizeLine (W : Widths) (line : Line Color) : Line Color :=
  if line.spans.any fun sp => sp.content.any isControl then
    { spans := sanitizeSpans W 0 line.spans }
  else line

/-! ## indent and words -/

/-- The glyphs that open a turn or a call. -/
def isMarker (c : Char) : Bool := ['⏺', '❯', '✻', '⎿', '※', '•', '●', '○'].contains c

/-- `leading_indent` -/
def leadingIndent (line : Line Color) : Nat :=
  let spaces := (line.text.takeWhile (· = ' ')).length
  if 0 < spaces then spaces
  else
    match line.text with
    | c :: ' ' :: _ => if isMarker c then 2 else 0
    | _ => 0

/-- A character more of a text that is split: what is split off, the word begun, and whether it is
of spaces. -/
def splitStep (s : List (List Char) × List Char × Bool) (ch : Char) :
    List (List Char) × List Char × Bool :=
  let sp := ch == ' '
  if s.2.1.isEmpty then (s.1, [ch], sp)
  else if sp == s.2.2 then (s.1, s.2.1 ++ [ch], s.2.2)
  else (s.1 ++ [s.2.1], [ch], sp)

/-- `split_keep_spaces` -/
def splitKeepSpaces (text : List Char) : List (List Char) :=
  let s := text.foldl splitStep ([], [], false)
  if s.2.1.isEmpty then s.1 else s.1 ++ [s.2.1]

/-! ## wrapping -/

/-- What the rows of a line are laid out by. -/
structure Page (Color : Type) where
  width : Nat
  indent : Nat
  indentStyle : Style Color

/-- The page of a line: its own indent, less than the width, over the background of its first
span. -/
def pageOf (line : Line Color) (width : Nat) : Page Color where
  width := width
  indent := min (leadingIndent line) (width - 1)
  indentStyle := { bg := line.spans.head?.bind (·.style.bg) }

/-- The rows so far, the one begun, the column it is at and the one it started at. -/
structure Cursor (Color : Type) where
  rows : List (List (Span Color)) := []
  cur : List (Span Color) := []
  col : Nat := 0
  floor : Nat := 0

/-- `hang` -/
def Page.hang (p : Page Color) : List (Span Color) :=
  if 0 < p.indent then [⟨List.replicate p.indent ' ', p.indentStyle⟩] else []

namespace Cursor

def breakRow (p : Page Color) (s : Cursor Color) : Cursor Color where
  rows := s.rows ++ [s.cur]
  cur := p.hang
  col := p.indent
  floor := p.indent

/-- A new row, if there is something on this one and so many columns more do not fit. -/
def makeRoom (p : Page Color) (w : Nat) (s : Cursor Color) : Cursor Color :=
  if p.width < s.col + w ∧ s.floor < s.col then s.breakRow p else s

/-- Put a span down where the row is at. -/
def place (W : Widths) (s : Cursor Color) (span : Span Color) : Cursor Color :=
  { s with cur := s.cur ++ [span], col := s.col + W.textWidth span.content }

/-- A character of a word that fits no row. -/
def putChar (W : Widths) (p : Page Color) (style : Style Color) (s : Cursor Color) (ch : Char) :
    Cursor Color :=
  (s.makeRoom p (W.width ch)).place W ⟨[ch], style⟩

/-- A word, in its span's style. -/
def putWord (W : Widths) (p : Page Color) (s : Cursor Color) (word : Span Color) : Cursor Color :=
  let w := W.textWidth word.content
  let wraps := decide (p.width < s.col + w ∧ s.floor < s.col)
  let s := s.makeRoom p w
  -- a blank that would start a row
  if wraps && word.content.all isWhitespace then s
  else if p.width - s.floor < w then word.content.foldl (putChar W p word.style) s
  else s.place W word

end Cursor

/-- `wrap_line` -/
def wrapLine (W : Widths) (line : Line Color) (width : Nat) : List (Line Color) :=
  let line := sanitizeLine W line
  if width = 0 then [line]
  else
    let s : Cursor Color := line.spans.foldl (fun s span =>
      (splitKeepSpaces span.content).foldl (fun s word =>
        s.putWord W (pageOf line width) ⟨word, span.style⟩) s) {}
    (s.rows ++ [s.cur]).map fun spans => { spans }

/-! ## what wrapping is to keep -/

/-- Rows that, read one after the other, are a text but for the indent of all but the first and
for blanks between them. -/
inductive Rejoined (hang : List (Cell Color)) : List (List (Cell Color)) → List (Cell Color) → Prop
  | first (row : List (Cell Color)) : Rejoined hang [row] row
  | next {rows : List (List (Cell Color))} {text : List (Cell Color)} (gap row : List (Cell Color)) :
      Rejoined hang rows text → (∀ c ∈ gap, isWhitespace c.char = true) →
        Rejoined hang (rows ++ [hang ++ row]) (text ++ gap ++ row)

/-- **A line well wrapped.** -/
structure Wrapped (W : Widths) (line : Line Color) (width : Nat) : Prop where
  fits : ∀ row ∈ wrapLine W line width, W.textWidth row.text ≤ width
  /-- nothing is lost, and every character keeps its style -/
  rejoined :
    Rejoined (Line.cells { spans := (pageOf (sanitizeLine W line) width).hang })
      ((wrapLine W line width).map Line.cells)
      (Line.cells { sanitizeLine W line with style := line.style })
  oneRow : W.textWidth (sanitizeLine W line).text ≤ width → (wrapLine W line width).length = 1

end ClaudeReplay.Viewer
