import ClaudeReplay.Lib.Lines

/-!
# ClaudeReplay.Lib.Vt

What a terminal draws of the text that it is fed, and what of it is drawn dim.

The parser is that of the DEC VT500, which terminals follow: a control sequence ends at its
final byte, a string at its terminator, and an escape in the middle of either begins
another one. Of the attributes only faintness is kept, and the sequences that change it:
SGR, the two resets, and saving and restoring the cursor. Where the cursor goes is left
out: the characters drawn are listed in the order in which they are drawn.
-/

namespace ClaudeReplay.Lib.Vt

/-- A character drawn, and whether it is dim. -/
abbrev Cell := Char × Bool

/-- The C0 and C1 controls, and DEL. They are executed, not drawn. -/
def isControl (c : Char) : Bool := c.toNat < 0x20 || (0x7f ≤ c.toNat && c.toNat < 0xa0)

/-- The escape character. -/
def escape : Char := Char.ofNat 0x1b

/-- CAN and SUB, which abandon a sequence. -/
def isCancel (c : Char) : Bool := c.toNat = 0x18 || c.toNat = 0x1a

/-- A parameter or intermediate byte of a control sequence. -/
def isParameter (c : Char) : Bool := 0x20 ≤ c.toNat && c.toNat ≤ 0x3f

/-- The byte that ends a control sequence. -/
def isFinal (c : Char) : Bool := 0x40 ≤ c.toNat && c.toNat ≤ 0x7e

/-- Where the parser stands. -/
inductive Mode
  | ground
  | esc
  /-- An escape with intermediate bytes, such as the choice of a character set. -/
  | escIntermediate
  | csi (bytes : List Char)
  | osc
  /-- A string of another kind: DCS, SOS, PM or APC. -/
  | string
  deriving DecidableEq

/-- A terminal, as far as a row's looks depend on it. -/
structure Terminal where
  mode : Mode
  dim : Bool
  /-- What the saved cursor has. -/
  saved : Bool
  deriving DecidableEq

/-- A terminal at rest that draws plainly. -/
def Terminal.fresh : Terminal := ⟨.ground, false, false⟩

/-! ## attributes -/

/-- A decimal without its leading zeros: zero is empty. -/
def significant (p : List Char) : List Char := p.dropWhile (· = '0')

/-- The parameters that begin a colour. -/
def isColour (v : List Char) : Bool :=
  v = ['3', '8'] || v = ['4', '8'] || v = ['5', '8']

/-- How many parameters a colour takes: a kind, and what the kind has. -/
def colourArgs (ps : List (List Char)) : Nat :=
  match ps.head?.map significant with
  | none => 0
  | some v => if v = ['5'] then 2 else if v = ['2'] then 4 else 1

/-- Select graphic rendition, of faintness alone: 2 sets it, and 0 and 22 clear it. The first
argument counts the parameters that a colour takes. -/
def sgr : Nat → List (List Char) → Bool → Bool
  | _, [], dim => dim
  | skip + 1, _ :: ps, dim => sgr skip ps dim
  | 0, p :: ps, dim =>
    let v := significant p
    if v = ['2'] then sgr 0 ps true
    else if v = [] ∨ v = ['2', '2'] then sgr 0 ps false
    else if isColour v then sgr (colourArgs ps) ps dim
    else sgr 0 ps dim

/-- The parameters of a sequence that is not private and has no intermediate byte. -/
def isPlain (bytes : List Char) : Bool := bytes.all fun c => c.isDigit || c = ';' || c = ':'

namespace Terminal

/-- A control sequence, once it has ended. -/
def csiEnd (t : Terminal) (bytes : List Char) (final : Char) : Terminal :=
  if final = 'm' ∧ isPlain bytes then
    { t with mode := .ground, dim := sgr 0 (bytes.splitOn ';') t.dim }
  else if final = 'p' ∧ bytes = ['!'] then .fresh
  else { t with mode := .ground }

/-- An escape sequence of one byte. -/
def escEnd (t : Terminal) (c : Char) : Terminal :=
  if c = 'c' then .fresh
  else if c = '7' then { t with mode := .ground, saved := t.dim }
  else if c = '8' then { t with mode := .ground, dim := t.saved }
  else { t with mode := .ground }

/-- The mode behind an escape, unless the byte ends the sequence. -/
def escMode (c : Char) : Option Mode :=
  if c = '[' then some (.csi [])
  else if c = ']' then some .osc
  else if c = 'P' ∨ c = 'X' ∨ c = '^' ∨ c = '_' then some .string
  else if c.toNat ≤ 0x2f then some .escIntermediate
  else none

/-- One character: the terminal behind it, and what is drawn. -/
def step (t : Terminal) (c : Char) : Terminal × List Cell :=
  if isCancel c then ({ t with mode := .ground }, [])
  else if c = escape then ({ t with mode := .esc }, [])
  else
    match t.mode with
    | .ground => (t, if isControl c then [] else [(c, t.dim)])
    | .esc =>
      if isControl c then (t, [])
      else ((escMode c).elim (t.escEnd c) fun mode => { t with mode }, [])
    | .escIntermediate =>
      (if isControl c ∨ c.toNat ≤ 0x2f then t else { t with mode := .ground }, [])
    | .csi bytes =>
      (if isFinal c then t.csiEnd bytes c
      else if isParameter c then { t with mode := .csi (bytes ++ [c]) }
      else t, [])
    | .osc => (if c.toNat = 7 then { t with mode := .ground } else t, [])
    | .string => (t, [])

/-- The terminal behind a text, and the characters that it draws of it. -/
def feed (t : Terminal) : List Char → Terminal × List Cell
  | [] => (t, [])
  | c :: cs => (((t.step c).1.feed cs).1, (t.step c).2 ++ ((t.step c).1.feed cs).2)

@[simp] theorem feed_nil (t : Terminal) : t.feed [] = (t, []) := rfl

theorem feed_cons (t : Terminal) (c : Char) (cs : List Char) :
    t.feed (c :: cs) =
      (((t.step c).1.feed cs).1, (t.step c).2 ++ ((t.step c).1.feed cs).2) := rfl

/-- A text is read one part after the other. -/
theorem feed_append (t : Terminal) (cs ds : List Char) :
    t.feed (cs ++ ds) =
      (((t.feed cs).1.feed ds).1, (t.feed cs).2 ++ ((t.feed cs).1.feed ds).2) := by
  induction cs generalizing t with
  | nil => simp
  | cons c cs ih => simp only [List.cons_append, feed_cons, ih, List.append_assoc]

/-- A line break draws nothing, and no sequence ends at it. -/
theorem step_break (t : Terminal) : t.step '\n' = (t, []) := by
  obtain ⟨mode, dim, saved⟩ := t
  cases mode <;> rfl

/-! ## what each kind of text does at rest -/

variable {t : Terminal}

/-- Bytes of a control sequence are collected. -/
theorem feed_csi_bytes {bytes : List Char} (h : bytes.all isParameter = true)
    (hmode : t.mode = .csi pre) :
    t.feed bytes = ({ t with mode := .csi (pre ++ bytes) }, []) := by
  induction bytes generalizing t pre with
  | nil =>
    obtain ⟨mode, dim, saved⟩ := t
    simp only at hmode
    simp [hmode]
  | cons b bytes ih =>
    simp only [List.all_cons, Bool.and_eq_true] at h
    have hb := h.1
    simp only [isParameter, Bool.and_eq_true, decide_eq_true_eq] at hb
    have hstep : t.step b = ({ t with mode := .csi (pre ++ [b]) }, []) := by
      have hcancel : isCancel b = false := by simp [isCancel]; omega
      have hesc : b ≠ escape := by
        rintro rfl
        simp [escape] at hb
      have hfinal : isFinal b = false := by simp [isFinal]; omega
      simp [step, hcancel, hesc, hmode, hfinal, h.1]
    rw [feed_cons, hstep, ih h.2 rfl]
    simp

/-- The text of a string is passed over, up to what may end it. -/
theorem feed_osc_body {body : List Char} (hmode : t.mode = .osc)
    (h : body.all (fun c => !isCancel c && c ≠ escape && c.toNat ≠ 7) = true) :
    t.feed body = (t, []) := by
  induction body with
  | nil => rfl
  | cons c body ih =>
    simp only [List.all_cons, Bool.and_eq_true, Bool.not_eq_true', decide_eq_true_eq] at h
    have hstep : t.step c = (t, []) := by
      simp [step, h.1.1.1, h.1.1.2, h.1.2, hmode]
    rw [feed_cons, hstep, ih h.2]
    rfl

end Terminal

end ClaudeReplay.Lib.Vt
