import ClaudeReplay.Lib.Cut
import ClaudeReplay.Lib.ListScan
import ClaudeReplay.Lib.Vt
import ClaudeReplay.Monitor.Tmux
import ClaudeReplay.Text

/-!
# ClaudeReplay.Monitor.InputLine

What a pane's input holds, as the monitor reads it off a captured screen.

`visibleCells` skips the escape sequences of a line and keeps the dim attribute.
`herdrInputLine` finds the last pair of rules with the prompt between them, and
`codexInputLine` the last line that begins with Codex's prompt. A box in which a character
is not dim holds a draft, and nothing may be typed over it.

`Sound` are the lines that a terminal reads as the code does. A private sequence that ends
in `m`, an escape with intermediate bytes, and a string that is not ended on its line are
not among them (`private_read_as_dim`).
-/

namespace ClaudeReplay.Monitor.Screen

open Lib Lib.Vt Tmux

/-! ## attributes -/

/-- How many parameters behind a colour are skipped. -/
def colourSkip (ps : List (List Char)) : Nat :=
  match ps.head? with
  | none => 0
  | some v => if v = ['5'] then 2 else if v = ['2'] then 4 else 0

/-- The loop of `sgr_attr`, with the number of parameters still to skip. -/
def sgrFrom (set clear : List Char) : Nat → List (List Char) → Bool → Bool
  | _, [], on => on
  | skip + 1, _ :: ps, on => sgrFrom set clear skip ps on
  | 0, p :: ps, on =>
    if p = set then sgrFrom set clear 0 ps true
    else if p = clear ∨ p = [] ∨ p = ['0'] then sgrFrom set clear 0 ps false
    else if isColour p then sgrFrom set clear (colourSkip ps) ps on
    else sgrFrom set clear 0 ps on

/-- `sgr_attr`: one SGR code's effect on an attribute. -/
def sgrAttr (code set clear : List Char) (on : Bool) : Bool :=
  sgrFrom set clear 0 (code.splitOn ';') on

def sgrDim (code : List Char) (dim : Bool) : Bool := sgrAttr code ['2'] ['2', '2'] dim

/-! ## the cells of a line -/

/-- Where the reading of a line stands. -/
inductive Scan
  | text
  | esc
  | csi (code : List Char)
  | osc
  /-- An escape in an OSC: a backslash behind it ends the string. -/
  | oscEsc
  deriving DecidableEq

/-- The next state inside an OSC string. -/
def oscStep (c : Char) : Scan :=
  if c.toNat = 7 then .text else if c = escape then .oscEsc else .osc

/-- One character: where the reading stands behind it, the attribute, and the cell. -/
def scanStep (s : Scan) (dim : Bool) (c : Char) : Scan × Bool × List Cell :=
  match s with
  | .text => if c = escape then (.esc, dim, []) else (.text, dim, [(c, dim)])
  | .esc => (if c = '[' then .csi [] else if c = ']' then .osc else .text, dim, [])
  | .csi code =>
    if isFinal c then (.text, if c = 'm' then sgrDim code dim else dim, [])
    else (.csi (code ++ [c]), dim, [])
  | .osc => (oscStep c, dim, [])
  | .oscEsc => (if c = '\\' then .text else oscStep c, dim, [])

def visibleFrom (s : Scan) (dim : Bool) : List Char → List Cell × Bool
  | [] => ([], dim)
  | c :: cs =>
    let r := scanStep s dim c
    let rest := visibleFrom r.1 r.2.1 cs
    (r.2.2 ++ rest.1, rest.2)

/-- `visible_cells`: the characters of a line without its escape sequences, each with the
attribute, and the attribute behind the line. -/
def visibleCells (line : List Char) (dim : Bool) : List Cell × Bool := visibleFrom .text dim line

/-- The text of one line. -/
def textOf (line : List Char) : List Char := (visibleCells line false).1.map Prod.fst

/-- The cells of some lines, with the attribute carried from one to the next. -/
def cellsOf : List (List Char) → Bool → List Cell
  | [], _ => []
  | line :: lines, dim => (visibleCells line dim).1 ++ cellsOf lines (visibleCells line dim).2

/-- Some character is neither blank nor dim. -/
def drafted (cells : List Cell) : Bool := cells.any fun cell => !isWhitespace cell.1 && !cell.2

/-! ## Claude's box -/

/-- The prompt and a no-break space. -/
def herdrPrompt : List Char := [Char.ofNat 0x276f, Char.ofNat 0xa0]

/-- The line is a rule: its text begins with `─`. -/
def isRule (line : List Char) : Bool :=
  ((textOf line).dropWhile isWhitespace).head? = some (Char.ofNat 0x2500)

/-- `herdr_input_line`. -/
def herdrInputLine (screen : List Char) : InputLine :=
  let lines := strLines screen
  match rposition isRule lines with
  | none => .missing
  | some bottom =>
    match rposition isRule (lines.take bottom) with
    | none => .missing
    | some top =>
      match (lines.take bottom).drop (top + 1) with
      | [] => .missing
      | first :: more =>
        match splitAt? herdrPrompt first with
        | none => .missing
        | some (_, after) => if drafted (cellsOf (after :: more) false) then .draft else .empty

/-! ## Codex's composer -/

/-- The prompt and a space. -/
def codexPrompt : List Char := [Char.ofNat 0x203a, ' ']

/-- The loop of `starts_reversed`. -/
def reversedFrom : Scan → Bool → List Char → Bool
  | .text, reversed, c :: cs => if c = escape then reversedFrom .esc reversed cs else reversed
  | .esc, reversed, c :: cs => reversedFrom (if c = '[' then .csi [] else .text) reversed cs
  | .csi code, reversed, c :: cs =>
    if isFinal c then
      reversedFrom .text (if c = 'm' then sgrAttr code ['7'] ['2', '7'] reversed else reversed) cs
    else reversedFrom (.csi (code ++ [c])) reversed cs
  | _, _, _ => false

/-- `starts_reversed`: the first visible character is drawn in reverse video. -/
def startsReversed (line : List Char) : Bool := reversedFrom .text false line

/-- The line begins with Codex's prompt. -/
def isComposer (line : List Char) : Bool := codexPrompt.isPrefixOf (textOf line)

/-- The line is a chosen option of a menu, and not a composer. -/
def isMenu (line : List Char) (below : List (List Char)) : Bool :=
  let words := ((textOf line).drop codexPrompt.length).dropWhile isWhitespace
  let digits := words.takeWhile Char.isDigit
  digits ≠ [] && ['.', ' '].isPrefixOf (words.drop digits.length) &&
    (startsReversed line ||
      below.any fun l => occurs "Press enter to confirm".toList (textOf l))

/-- `codex_input_line`. -/
def codexInputLine (screen : List Char) : InputLine :=
  let lines := strLines screen
  match rposition isComposer lines with
  | none => .missing
  | some i =>
    let line := lines.getD i []
    if isMenu line (lines.drop (i + 1)) then .missing
    else if drafted ((visibleCells line false).1.drop codexPrompt.length) then .draft
    else .empty

/-! ## the sequences that are read as a terminal reads them -/

/-- The parameters that change faintness or begin a colour. -/
def counted : List (List Char) := [[], ['2'], ['2', '2'], ['3', '8'], ['4', '8'], ['5', '8']]

/-- A parameter that counts is written without leading zeros, unless it is a zero. -/
def Spelled (p : List Char) : Prop := significant p ∈ counted → p ∈ ['0'] :: counted

/-- The kind of a colour is 2 or 5, written so, or it is one that nothing reads. -/
def KindSpelled (ps : List (List Char)) : Prop :=
  ∀ q, ps.head? = some q → q = ['2'] ∨ q = ['5'] ∨ significant q ∉ ['5'] :: counted

/-- All parameters that are read are spelled so. -/
def AllSpelled : Nat → List (List Char) → Prop
  | _, [] => True
  | skip + 1, _ :: ps => AllSpelled skip ps
  | 0, p :: ps =>
    Spelled p ∧ (isColour p = true → KindSpelled ps) ∧
      AllSpelled (if isColour p then colourSkip ps else 0) ps

/-- A control sequence that is not an SGR is not read as one, and an SGR is spelled out. A
soft reset is neither. -/
def CsiAgrees (bytes : List Char) (final : Char) : Prop :=
  if final = 'm' then
    if isPlain bytes then AllSpelled 0 (bytes.splitOn ';') else ∀ dim, sgrDim bytes dim = dim
  else ¬(final = 'p' ∧ bytes = ['!'])

/-- The byte of a string, neither its end nor what abandons it. -/
def isBody (c : Char) : Bool := !isCancel c && c ≠ escape && c.toNat ≠ 7

/-- An escape of one byte that keeps the attributes. -/
def isPlainEsc (c : Char) : Bool :=
  0x30 ≤ c.toNat && c.toNat ≤ 0x7e && c ∉ ['[', ']', 'P', 'X', '^', '_', 'c', '8']

/-- A line made of text, control sequences, OSC strings that end on it, and escapes of one
byte. No control but the blank ones is in its text. -/
inductive Sound : List Char → Prop
  | nil : Sound []
  | text (c : Char) {line : List Char} (hesc : c ≠ escape)
      (hcontrol : isControl c = true → isWhitespace c = true) (hline : Sound line) :
      Sound (c :: line)
  | csi (bytes : List Char) (final : Char) {line : List Char}
      (hbytes : bytes.all isParameter = true) (hfinal : isFinal final = true)
      (hagrees : CsiAgrees bytes final) (hline : Sound line) :
      Sound (escape :: '[' :: (bytes ++ final :: line))
  | oscBell (body : List Char) {line : List Char} (hbody : body.all isBody = true)
      (hline : Sound line) :
      Sound (escape :: ']' :: (body ++ Char.ofNat 7 :: line))
  | oscString (body : List Char) {line : List Char} (hbody : body.all isBody = true)
      (hline : Sound line) :
      Sound (escape :: ']' :: (body ++ escape :: '\\' :: line))
  | esc (c : Char) {line : List Char} (hc : isPlainEsc c = true) (hline : Sound line) :
      Sound (escape :: c :: line)

theorem Spelled.significant_eq {p : List Char} (h : Spelled p) :
    significant p = (if p = ['0'] then [] else p) ∨
      significant p ∉ counted ∧ p ∉ ['0'] :: counted := by
  by_cases hp : p ∈ ['0'] :: counted
  · left
    simp only [counted, List.mem_cons, List.not_mem_nil, or_false] at hp
    rcases hp with rfl | rfl | rfl | rfl | rfl | rfl | rfl <;> decide
  · exact .inr ⟨fun hs => hp (h hs), hp⟩

/-- A parameter that does not count may as well be skipped. -/
theorem sgr_skip {q : List Char} (hq : significant q ∉ counted) (qs : List (List Char))
    (dim : Bool) : sgr 1 (q :: qs) dim = sgr 0 (q :: qs) dim := by
  simp only [counted, List.mem_cons, List.not_mem_nil, or_false, not_or] at hq
  obtain ⟨hnil, htwo, hclear, hfg, hbg, hline⟩ := hq
  simp [sgr, isColour, hnil, htwo, hclear, hfg, hbg, hline]

/-- The parameters of a colour are skipped, unless nothing reads them. -/
theorem colour_skips {ps : List (List Char)} (h : KindSpelled ps) (dim : Bool) :
    sgr (colourArgs ps) ps dim = sgr (colourSkip ps) ps dim := by
  cases ps with
  | nil => rfl
  | cons q qs =>
    rcases h q rfl with rfl | rfl | hq
    · rfl
    · rfl
    · have hfive : significant q ≠ ['5'] := fun heq => hq (by simp [heq])
      have htwo : significant q ≠ ['2'] := fun heq => hq (by simp [heq, counted])
      have hfive' : q ≠ ['5'] := by
        rintro rfl
        exact hfive rfl
      have htwo' : q ≠ ['2'] := by
        rintro rfl
        exact htwo rfl
      have hargs : colourArgs (q :: qs) = 1 := by simp [colourArgs, hfive, htwo]
      have hskip : colourSkip (q :: qs) = 0 := by simp [colourSkip, hfive', htwo']
      rw [hargs, hskip]
      exact sgr_skip (fun hmem => hq (List.mem_cons_of_mem _ hmem)) qs dim

/-- The parameters are read as a terminal reads them. -/
theorem sgrFrom_eq {skip : Nat} {ps : List (List Char)} (h : AllSpelled skip ps) (dim : Bool) :
    sgrFrom ['2'] ['2', '2'] skip ps dim = sgr skip ps dim := by
  induction ps generalizing skip dim with
  | nil => cases skip <;> rfl
  | cons p ps ih =>
    cases skip with
    | succ skip => exact ih h dim
    | zero =>
      obtain ⟨hp, hkind, hrest⟩ := h
      rcases hp.significant_eq with hsame | ⟨hsig, hplain⟩
      · by_cases hzero : p = ['0']
        · subst hzero
          exact ih hrest false
        · rw [if_neg hzero] at hsame
          simp only [sgrFrom, sgr, hsame, hzero, or_false]
          by_cases htwo : p = ['2']
          · subst htwo
            exact ih hrest true
          · by_cases hclear : p = ['2', '2'] ∨ p = []
            · rcases hclear with rfl | rfl <;> exact ih hrest false
            · obtain ⟨hclear, hnil⟩ := not_or.mp hclear
              simp only [htwo, hclear, hnil, if_false, or_false]
              by_cases hcolour : isColour p = true
              · rw [if_pos hcolour] at hrest
                rw [if_pos hcolour, if_pos hcolour, colour_skips (hkind hcolour), ih hrest]
              · rw [if_neg hcolour] at hrest
                rw [if_neg hcolour, if_neg hcolour, ih hrest]
      · simp only [counted, List.mem_cons, List.not_mem_nil, or_false, not_or] at hsig hplain
        have hcolour : isColour p = false := by simp [isColour, hplain]
        have hcolour' : isColour (significant p) = false := by simp [isColour, hsig]
        rw [hcolour] at hrest
        simp only [sgrFrom, sgr, hplain, hsig, hcolour, hcolour', or_self, if_false,
          Bool.false_eq_true]
        exact ih hrest dim

/-! ## the line as a terminal reads it -/

variable (dim : Bool) (line : List Char)

theorem visibleFrom_csi {bytes : List Char} (h : bytes.all isParameter = true) {final : Char}
    (hfinal : isFinal final = true) (pre : List Char) :
    visibleFrom (.csi pre) dim (bytes ++ final :: line) =
      visibleFrom .text (if final = 'm' then sgrDim (pre ++ bytes) dim else dim) line := by
  induction bytes generalizing pre with
  | nil => simp [visibleFrom, scanStep, hfinal]
  | cons b bytes ih =>
    simp only [List.all_cons, Bool.and_eq_true] at h
    have hb := h.1
    simp only [isParameter, Bool.and_eq_true, decide_eq_true_eq] at hb
    have hnot : isFinal b = false := by
      simp [isFinal]
      omega
    have hrest := ih h.2 (pre ++ [b])
    simp only [List.append_assoc, List.singleton_append] at hrest
    simp [visibleFrom, scanStep, hnot, hrest]

theorem visibleFrom_osc {body : List Char} (h : body.all isBody = true) (rest : List Char) :
    visibleFrom .osc dim (body ++ rest) = visibleFrom .osc dim rest := by
  induction body with
  | nil => rfl
  | cons c body ih =>
    simp only [List.all_cons, Bool.and_eq_true, isBody, Bool.not_eq_true',
      decide_eq_true_eq] at h
    have hbody : body.all isBody = true := by simpa [isBody] using h.2
    simp [visibleFrom, scanStep, oscStep, h.1.1.2, h.1.2, ih hbody]

variable {line : List Char}

/-- A terminal at rest is at rest behind the line, with the attribute that the reading has,
and draws the characters that it lists, but for the controls, which are blank. -/
def ReadAlike (line : List Char) : Prop :=
  ∀ t : Terminal, t.mode = .ground →
    (t.feed line).1.mode = .ground ∧ (t.feed line).1.dim = (visibleCells line t.dim).2 ∧
      (t.feed line).2 = (visibleCells line t.dim).1.filter (fun cell => !isControl cell.1) ∧
      ∀ cell ∈ (visibleCells line t.dim).1, isControl cell.1 = true → isWhitespace cell.1 = true

theorem csiEnd_dim {bytes : List Char} {final : Char} (h : CsiAgrees bytes final)
    (t : Terminal) : (t.csiEnd bytes final).mode = .ground ∧
      (t.csiEnd bytes final).dim = if final = 'm' then sgrDim bytes t.dim else t.dim := by
  unfold CsiAgrees at h
  unfold Terminal.csiEnd
  by_cases hm : final = 'm'
  · subst hm
    rw [if_pos rfl] at h
    by_cases hplain : isPlain bytes = true
    · rw [if_pos hplain] at h
      simp [hplain, sgrDim, sgrAttr, sgrFrom_eq h]
    · rw [if_neg hplain] at h
      simp [hplain, h t.dim]
  · rw [if_neg hm] at h
    simp [hm, h]

/-- What stands at the head of a line, as a terminal and the reading take it alike. -/
theorem ReadAlike.head (hline : ReadAlike line) (chunk : List Char)
    (after : Terminal → Terminal) (hafter : ∀ t : Terminal, t.mode = .ground →
      (after t).mode = .ground ∧ t.feed chunk = (after t, []) ∧
        visibleCells (chunk ++ line) t.dim = visibleCells line (after t).dim) :
    ReadAlike (chunk ++ line) := by
  intro t ht
  obtain ⟨hmode, hfeed, hcells⟩ := hafter t ht
  rw [Terminal.feed_append, hfeed, hcells]
  simpa using hline (after t) hmode

theorem step_escape (t : Terminal) : t.step escape = ({ t with mode := .esc }, []) := by
  simp [Terminal.step, isCancel, escape]

theorem feed_csi {bytes : List Char} {final : Char} (hbytes : bytes.all isParameter = true)
    (hfinal : isFinal final = true) (t : Terminal) :
    t.feed (escape :: '[' :: (bytes ++ [final])) = (t.csiEnd bytes final, []) := by
  have hopen : ({ t with mode := .esc } : Terminal).step '[' =
      ({ t with mode := .csi [] }, []) := rfl
  have hcollect := Terminal.feed_csi_bytes (t := { t with mode := .csi [] }) hbytes rfl
  have hbounds := hfinal
  simp only [isFinal, Bool.and_eq_true, decide_eq_true_eq] at hbounds
  have hcancel : isCancel final = false := by
    simp [isCancel]
    omega
  have hesc : final ≠ escape := by
    rintro rfl
    simp [escape] at hbounds
  have hend : ({ t with mode := .csi bytes } : Terminal).step final =
      (t.csiEnd bytes final, []) := by
    simp [Terminal.step, hcancel, hesc, hfinal, Terminal.csiEnd]
  rw [Terminal.feed_cons, step_escape, Terminal.feed_cons, hopen, Terminal.feed_append, hcollect]
  simp [Terminal.feed_cons, hend]

theorem feed_osc {body : List Char} (hbody : body.all isBody = true) (rest : List Char)
    (t : Terminal) : t.feed (escape :: ']' :: (body ++ rest)) =
      ({ t with mode := .osc } : Terminal).feed rest := by
  have hopen : ({ t with mode := .esc } : Terminal).step ']' = ({ t with mode := .osc }, []) := rfl
  have hpass := Terminal.feed_osc_body (t := { t with mode := .osc }) rfl hbody
  rw [Terminal.feed_cons, step_escape, Terminal.feed_cons, hopen, Terminal.feed_append, hpass]
  simp

/-- **A sound line is read as a terminal reads it.** -/
theorem Sound.readAlike (h : Sound line) : ReadAlike line := by
  induction h with
  | nil => exact fun t ht => ⟨ht, rfl, rfl, by simp [visibleCells, visibleFrom]⟩
  | text c hesc hcontrol hline ih =>
    intro t ht
    have hcancel : isCancel c = false := by
      by_contra hc
      simp only [isCancel, Bool.not_eq_false, Bool.or_eq_true, decide_eq_true_eq] at hc
      have hspace := hcontrol (by simp [isControl]; omega)
      simp only [isWhitespace, Bool.or_eq_true, Bool.and_eq_true, decide_eq_true_eq,
        beq_iff_eq] at hspace
      omega
    have hstep : t.step c = (t, if isControl c then [] else [(c, t.dim)]) := by
      simp [Terminal.step, hcancel, hesc, ht]
    obtain ⟨hmode, hdim, hcells, hblank⟩ := ih t ht
    have hvisible : ∀ line : List Char, visibleCells (c :: line) t.dim =
        ((c, t.dim) :: (visibleCells line t.dim).1, (visibleCells line t.dim).2) := by
      intro line
      simp [visibleCells, visibleFrom, scanStep, hesc]
    rw [Terminal.feed_cons, hstep, hvisible]
    refine ⟨hmode, hdim, ?_, List.forall_mem_cons.mpr ⟨hcontrol, hblank⟩⟩
    rw [List.filter_cons, hcells]
    cases isControl c <;> rfl
  | @csi bytes final line hbytes hfinal hagrees hline ih =>
    have hhead := ih.head (escape :: '[' :: (bytes ++ [final]))
      (fun t => t.csiEnd bytes final) fun t ht => by
        obtain ⟨hmode, hdim⟩ := csiEnd_dim hagrees t
        refine ⟨hmode, feed_csi hbytes hfinal t, ?_⟩
        have hcode := visibleFrom_csi t.dim line hbytes hfinal []
        rw [hdim]
        simpa [visibleCells, visibleFrom, scanStep] using hcode
    simpa using hhead
  | @oscBell body line hbody hline ih =>
    have hhead := ih.head (escape :: ']' :: (body ++ [Char.ofNat 7]))
      (fun t => t) fun t ht => by
        refine ⟨ht, ?_, ?_⟩
        · rw [feed_osc hbody]
          obtain ⟨mode, dim, saved⟩ := t
          cases ht
          rfl
        · have hpass := visibleFrom_osc t.dim hbody (Char.ofNat 7 :: line)
          have hend : visibleFrom .osc t.dim (Char.ofNat 7 :: line) =
              visibleFrom .text t.dim line := rfl
          simp [visibleCells, visibleFrom, scanStep, hpass.trans hend]
    simpa using hhead
  | @oscString body line hbody hline ih =>
    have hhead := ih.head (escape :: ']' :: (body ++ [escape, '\\']))
      (fun t => t) fun t ht => by
        refine ⟨ht, ?_, ?_⟩
        · rw [feed_osc hbody, Terminal.feed_cons, step_escape]
          obtain ⟨mode, dim, saved⟩ := t
          cases ht
          rfl
        · have hpass := visibleFrom_osc t.dim hbody (escape :: '\\' :: line)
          have hend : visibleFrom .osc t.dim (escape :: '\\' :: line) =
              visibleFrom .text t.dim line := rfl
          simp [visibleCells, visibleFrom, scanStep, hpass.trans hend]
    simpa using hhead
  | @esc c line hc hline ih =>
    simp only [isPlainEsc, Bool.and_eq_true, decide_eq_true_eq, List.mem_cons,
      List.not_mem_nil, or_false, not_or] at hc
    obtain ⟨⟨hlow, hhigh⟩, hcsi, hosc, hdcs, hsos, hpm, hapc, hreset, hrestore⟩ := hc
    have hhead := ih.head [escape, c] (fun t => t.escEnd c) fun t ht => by
      have hcancel : isCancel c = false := by
        simp [isCancel]
        omega
      have hcontrol : isControl c = false := by
        simp [isControl]
        omega
      have hesc : c ≠ escape := by
        rintro rfl
        simp [escape] at hlow
      have hmode : Terminal.escMode c = none := by
        simp [Terminal.escMode, hcsi, hosc, hdcs, hsos, hpm, hapc]
        omega
      have hstep : ({ t with mode := .esc } : Terminal).step c = (t.escEnd c, []) := by
        simp [Terminal.step, hcancel, hcontrol, hesc, hmode, Terminal.escEnd]
      have hdim : (t.escEnd c).mode = .ground ∧ (t.escEnd c).dim = t.dim := by
        simp only [Terminal.escEnd, hreset, hrestore, if_false]
        split <;> exact ⟨rfl, rfl⟩
      refine ⟨hdim.1, ?_, ?_⟩
      · simp [Terminal.feed_cons, step_escape, hstep]
      · simp [visibleCells, visibleFrom, scanStep, hcsi, hosc, hdim.2]
    simpa using hhead

/-! ## the boxes of a screen -/

/-- Sound lines are drafted as a terminal draws them. -/
theorem drafted_feed {lines : List (List Char)} (h : ∀ line ∈ lines, Sound line) {t : Terminal}
    (ht : t.mode = .ground) :
    drafted (cellsOf lines t.dim) = drafted (t.feed (unlines '\n' lines)).2 := by
  induction lines generalizing t with
  | nil => rfl
  | cons line lines ih =>
    obtain ⟨hline, hlines⟩ := List.forall_mem_cons.mp h
    obtain ⟨hmode, hdim, hcells, hblank⟩ := hline.readAlike t ht
    have hrest := ih hlines hmode
    have hhead : drafted (visibleCells line t.dim).1 = drafted (t.feed line).2 := by
      rw [hcells, drafted, drafted, List.any_filter, Bool.eq_iff_iff]
      simp only [List.any_eq_true, Bool.and_eq_true, Bool.not_eq_true']
      grind
    rw [unlines_cons, Terminal.feed_append, Terminal.feed_cons, Terminal.step_break, cellsOf]
    simp only [drafted, List.any_append, List.nil_append] at hhead hrest ⊢
    rw [hhead, ← hdim, hrest]

theorem drafted_iff {cells : List Cell} : drafted cells = true ↔
    ∃ cell ∈ cells, isWhitespace cell.1 = false ∧ cell.2 = false := by
  simp [drafted]

/-- What the two answers say of the cells. -/
theorem answer_iff (cells : List Cell) :
    ((if drafted cells then InputLine.draft else .empty) = .empty ↔
        ∀ cell ∈ cells, isWhitespace cell.1 = true ∨ cell.2 = true) ∧
      ((if drafted cells then InputLine.draft else .empty) = .draft ↔
        ∃ cell ∈ cells, isWhitespace cell.1 = false ∧ cell.2 = false) := by
  rw [← drafted_iff]
  cases hdraft : drafted cells with
  | true =>
    obtain ⟨cell, hmem, hblank, hdim⟩ := drafted_iff.mp hdraft
    simp only [if_true, reduceCtorEq, false_iff, not_forall, and_true]
    exact ⟨cell, hmem, by simp [hblank, hdim]⟩
  | false =>
    simp only [Bool.false_eq_true, if_false, true_iff, reduceCtorEq, and_true]
    intro cell hmem
    by_contra hcell
    have : drafted cells = true := drafted_iff.mpr ⟨cell, hmem, by simpa using hcell⟩
    simp [hdraft] at this

/-- What Claude's box holds behind the prompt, on a screen that ends with one: the last rule,
a rule above it, and the prompt on the first line between them. -/
structure InputBox (screen : List Char) where
  above : List (List Char)
  top : List Char
  before : List Char
  after : List Char
  more : List (List Char)
  bottom : List Char
  below : List (List Char)
  lines_eq : strLines screen =
    above ++ top :: (before ++ herdrPrompt ++ after) :: more ++ bottom :: below
  top_rule : isRule top = true
  bottom_rule : isRule bottom = true
  last : ∀ line ∈ below, isRule line = false
  first : splitAt? herdrPrompt (before ++ herdrPrompt ++ after) = some (before, after)

namespace InputBox

variable {screen screen' : List Char} (box : InputBox screen)

/-- The terminal that has read the screen up to the prompt. -/
def atPrompt : Terminal :=
  (Terminal.fresh.feed
    (unlines '\n' (box.above ++ [box.top]) ++ (box.before ++ herdrPrompt))).1

/-- The characters that it draws of the box behind the prompt. -/
def drawn : List Cell := (box.atPrompt.feed (unlines '\n' (box.after :: box.more))).2

/-- No line between the two rules is itself drawn as a rule. -/
def Clear : Prop :=
  ∀ line ∈ (box.before ++ herdrPrompt ++ box.after) :: box.more, isRule line = false

/-- The terminal is at rest and not dim at the prompt, and the box is sound. -/
structure Readable : Prop where
  atRest : box.atPrompt.mode = .ground
  notDim : box.atPrompt.dim = false
  clear : box.Clear
  sound : ∀ line ∈ box.after :: box.more, Sound line

/-- The reading of a box whose lines are not rules. -/
theorem herdrInputLine_eq (hclear : box.Clear) : herdrInputLine screen =
    if drafted (cellsOf (box.after :: box.more) false) then .draft else .empty := by
  have hbottom := rposition_of_split
    (box.above ++ box.top :: (box.before ++ herdrPrompt ++ box.after) :: box.more) box.bottom
    box.below box.bottom_rule box.last
  have htop := rposition_of_split box.above box.top
    ((box.before ++ herdrPrompt ++ box.after) :: box.more) box.top_rule hclear
  unfold herdrInputLine
  simp only [box.lines_eq, hbottom, List.take_left, htop]
  rw [List.drop_append, List.drop_eq_nil_of_le (Nat.le_succ _), Nat.add_sub_cancel_left,
    List.nil_append, List.drop_succ_cons, List.drop_zero]
  simp only [box.first]

/-- **What the box holds, as the terminal draws it.** -/
theorem Readable.herdrInputLine_iff {box : InputBox screen} (h : box.Readable) :
    (herdrInputLine screen = .empty ↔
        ∀ cell ∈ box.drawn, isWhitespace cell.1 = true ∨ cell.2 = true) ∧
      (herdrInputLine screen = .draft ↔
        ∃ cell ∈ box.drawn, isWhitespace cell.1 = false ∧ cell.2 = false) := by
  have hdrawn : drafted (cellsOf (box.after :: box.more) false) = drafted box.drawn := by
    rw [← h.notDim]
    exact drafted_feed h.sound h.atRest
  rw [box.herdrInputLine_eq h.clear, hdrawn]
  exact answer_iff box.drawn

/-- What is above the box does not matter. -/
theorem herdrInputLine_above (box : InputBox screen) (box' : InputBox screen')
    (hclear : box.Clear) (hclear' : box'.Clear) (hafter : box'.after = box.after)
    (hmore : box'.more = box.more) : herdrInputLine screen' = herdrInputLine screen := by
  rw [box.herdrInputLine_eq hclear, box'.herdrInputLine_eq hclear', hafter, hmore]

end InputBox

/-- Codex's composer: the last line that begins with its prompt, which is not a menu's. -/
structure Composer (screen : List Char) where
  above : List (List Char)
  line : List Char
  below : List (List Char)
  lines_eq : strLines screen = above ++ line :: below
  composes : isComposer line = true
  last : ∀ l ∈ below, isComposer l = false
  noMenu : isMenu line below = false

namespace Composer

variable {screen screen' : List Char} (composer : Composer screen)

/-- The terminal that has read the screen up to the composer. -/
def before : Terminal := (Terminal.fresh.feed (unlines '\n' composer.above)).1

/-- The characters that it draws of the composer behind the prompt. -/
def drawn : List Cell := (composer.before.feed composer.line).2.drop codexPrompt.length

/-- The terminal is at rest and not dim before the composer, and the line is sound. -/
structure Readable : Prop where
  atRest : composer.before.mode = .ground
  notDim : composer.before.dim = false
  sound : Sound composer.line

theorem codexInputLine_eq : codexInputLine screen =
    if drafted ((visibleCells composer.line false).1.drop codexPrompt.length) then .draft
    else .empty := by
  have hline := rposition_of_split composer.above composer.line composer.below
    composer.composes composer.last
  have hget : (composer.above ++ composer.line :: composer.below).getD composer.above.length [] =
      composer.line := by
    simp
  have hbelow : (composer.above ++ composer.line :: composer.below).drop
      (composer.above.length + 1) = composer.below := by
    simp
  unfold codexInputLine
  simp only [composer.lines_eq, hline, hget, hbelow, composer.noMenu, Bool.false_eq_true, if_false]

/-- The cells behind the prompt, which has no controls. -/
theorem drop_prompt {cells : List Cell} (h : codexPrompt.isPrefixOf (cells.map Prod.fst) = true) :
    (cells.filter fun cell => !isControl cell.1).drop codexPrompt.length =
      (cells.drop codexPrompt.length).filter fun cell => !isControl cell.1 := by
  obtain ⟨rest, hrest⟩ := List.isPrefixOf_iff_prefix.mp h
  cases cells with
  | nil => simp [codexPrompt] at hrest
  | cons a cells =>
    cases cells with
    | nil => simp [codexPrompt] at hrest
    | cons b cells =>
      simp only [codexPrompt, List.cons_append, List.nil_append, List.map_cons,
        List.cons.injEq] at hrest
      have ha : isControl a.1 = false := by
        rw [← hrest.1]
        decide
      have hb : isControl b.1 = false := by
        rw [← hrest.2.1]
        decide
      simp [codexPrompt, ha, hb]

/-- **What the composer holds, as the terminal draws it.** -/
theorem Readable.codexInputLine_iff {composer : Composer screen} (h : composer.Readable) :
    (codexInputLine screen = .empty ↔
        ∀ cell ∈ composer.drawn, isWhitespace cell.1 = true ∨ cell.2 = true) ∧
      (codexInputLine screen = .draft ↔
        ∃ cell ∈ composer.drawn, isWhitespace cell.1 = false ∧ cell.2 = false) := by
  obtain ⟨-, -, hcells, hblank⟩ := h.sound.readAlike composer.before h.atRest
  rw [h.notDim] at hcells hblank
  have hdrawn : drafted ((visibleCells composer.line false).1.drop codexPrompt.length) =
      drafted composer.drawn := by
    rw [drawn, hcells, drop_prompt composer.composes, drafted, drafted, List.any_filter,
      Bool.eq_iff_iff]
    simp only [List.any_eq_true, Bool.and_eq_true, Bool.not_eq_true']
    constructor
    · rintro ⟨cell, hmem, hspace, hdim⟩
      have hcontrol := hblank cell (List.mem_of_mem_drop hmem)
      exact ⟨cell, hmem, by grind, hspace, hdim⟩
    · rintro ⟨cell, hmem, -, hdrafted⟩
      exact ⟨cell, hmem, hdrafted⟩
  rw [composer.codexInputLine_eq, hdrawn]
  exact answer_iff composer.drawn

/-- What is above the composer does not matter. -/
theorem codexInputLine_above (composer : Composer screen) (composer' : Composer screen')
    (hline : composer'.line = composer.line) : codexInputLine screen' = codexInputLine screen := by
  rw [composer.codexInputLine_eq, composer'.codexInputLine_eq, hline]

end Composer

/-! ## the two inputs -/

/-- **Only text that a terminal draws dim counts as no draft**, where it reads the box, or
the composer's line, as the code does. What is above them does not matter. -/
theorem input_read_as_drawn {screen codex : List Char} (box : InputBox screen)
    (composer : Composer codex) (hbox : box.Readable) (hcomposer : composer.Readable) :
    ((herdrInputLine screen = .empty ↔
          ∀ cell ∈ box.drawn, isWhitespace cell.1 = true ∨ cell.2 = true) ∧
        (herdrInputLine screen = .draft ↔
          ∃ cell ∈ box.drawn, isWhitespace cell.1 = false ∧ cell.2 = false)) ∧
      ((codexInputLine codex = .empty ↔
          ∀ cell ∈ composer.drawn, isWhitespace cell.1 = true ∨ cell.2 = true) ∧
        (codexInputLine codex = .draft ↔
          ∃ cell ∈ composer.drawn, isWhitespace cell.1 = false ∧ cell.2 = false)) ∧
      (∀ (screen' : List Char) (box' : InputBox screen'), box'.Clear → box'.after = box.after →
        box'.more = box.more → herdrInputLine screen' = herdrInputLine screen) ∧
      ∀ (codex' : List Char) (composer' : Composer codex'), composer'.line = composer.line →
        codexInputLine codex' = codexInputLine codex :=
  ⟨hbox.herdrInputLine_iff, hcomposer.codexInputLine_iff,
    fun _ box' hclear hafter hmore => box.herdrInputLine_above box' hbox.clear hclear hafter hmore,
    fun _ composer' hline => composer.codexInputLine_above composer' hline⟩

/-- A rule of four dashes. -/
def rule : List Char := List.replicate 4 (Char.ofNat 0x2500)

/-- A screen that is a box of one line. -/
def boxed (after : List Char) : List Char := unlines '\n' [rule, herdrPrompt ++ after, rule]

/-- A dim word: the suggestion of an empty input. -/
def suggestion : List Char := escape :: "[2mTry".toList

def suggestionBox : InputBox (boxed suggestion) where
  above := []
  top := rule
  before := []
  after := suggestion
  more := []
  bottom := rule
  below := []
  lines_eq := by decide +kernel
  top_rule := by decide +kernel
  bottom_rule := by decide +kernel
  last := by simp
  first := by decide +kernel

def suggestionComposer : Composer (codexPrompt ++ suggestion) where
  above := []
  line := codexPrompt ++ suggestion
  below := []
  lines_eq := by decide +kernel
  composes := by decide +kernel
  last := by simp
  noMenu := by decide +kernel

theorem input_read_as_drawn_suggestion :
    herdrInputLine (boxed suggestion) = .empty ∧
      codexInputLine (codexPrompt ++ suggestion) = .empty := by
  have hword : Sound "Try".toList := by
    apply Sound.text 'T' (by decide) (by decide)
    apply Sound.text 'r' (by decide) (by decide)
    exact Sound.text 'y' (by decide) (by decide) .nil
  have hsound : Sound suggestion := by
    refine Sound.csi ['2'] 'm' (by decide) (by decide) ?_ hword
    show AllSpelled 0 [['2']]
    exact ⟨fun _ => by decide, fun h => absurd h (by decide), trivial⟩
  have hbox : suggestionBox.Readable :=
    { atRest := by decide +kernel
      notDim := by decide +kernel
      clear := by
        intro line hline
        obtain rfl := List.mem_singleton.mp hline
        decide +kernel
      sound := by
        intro line hline
        obtain rfl := List.mem_singleton.mp hline
        exact hsound }
  have hcomposer : suggestionComposer.Readable :=
    { atRest := rfl
      notDim := rfl
      sound := by
        apply Sound.text (Char.ofNat 0x203a) (by decide) (by decide)
        exact Sound.text ' ' (by decide) (by decide) hsound }
  have h := input_read_as_drawn suggestionBox suggestionComposer hbox hcomposer
  exact ⟨h.1.1.mpr (by decide +kernel), h.2.1.1.mpr (by decide +kernel)⟩

/-- The choice of a keyboard protocol is read as an SGR that turns dim on, so a draft behind
it counts as no draft. -/
theorem private_read_as_dim :
    ∃ (screen : List Char) (box : InputBox screen), herdrInputLine screen = .empty ∧
      ∃ cell ∈ box.drawn, isWhitespace cell.1 = false ∧ cell.2 = false := by
  refine ⟨boxed (escape :: "[>4;2mdraft".toList), ⟨[], rule, [], escape :: "[>4;2mdraft".toList, [],
    rule, [], by decide +kernel, by decide +kernel, by decide +kernel, by simp,
    by decide +kernel⟩, by decide +kernel, ('d', false), by decide +kernel, by decide, rfl⟩

end ClaudeReplay.Monitor.Screen
