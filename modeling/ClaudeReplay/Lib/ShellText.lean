import Mathlib.Data.List.Basic

/-!
# ClaudeReplay.Lib.ShellText

Words as they are written for a POSIX shell, without expansions.

A word is written as pieces put side by side: a character that stands for itself, one behind a
backslash, text between single quotes, text between double quotes. Between double quotes a
backslash quotes four characters only and is kept before any other. A backslash before a newline
is nothing at all, wherever it stands outside single quotes. Blanks part the words.

Every text is written like that up to its end, where a quote may be left open
(`exists_written`).
-/

namespace ClaudeReplay.Lib.Shell

/-- The characters a backslash quotes between double quotes: the dollar sign, the backquote, the
double quote and the backslash. -/
def quotedInDouble (c : Char) : Bool := c = '$' || c = Char.ofNat 96 || c = '"' || c = '\\'

def isBlank (c : Char) : Bool := c = ' ' || c = '\t' || c = '\n'

/-- A piece of the text between double quotes. -/
inductive DPiece
  | char (c : Char) (h : c ≠ '"' ∧ c ≠ '\\')
  | esc (c : Char) (h : quotedInDouble c = true)
  /-- a backslash and a newline -/
  | cont
  /-- a backslash that quotes nothing -/
  | back (c : Char) (h : quotedInDouble c = false ∧ c ≠ '\n')

/-- A piece of a word. -/
inductive Piece
  | char (c : Char) (h : isBlank c = false ∧ c ≠ '\\' ∧ c ≠ '\'' ∧ c ≠ '"')
  | esc (c : Char) (h : c ≠ '\n')
  /-- a backslash and a newline -/
  | cont
  | single (cs : List Char) (h : '\'' ∉ cs)
  | double (ds : List DPiece)

inductive Item
  | blank (c : Char) (h : isBlank c = true)
  | piece (p : Piece)

/-- How a text ends. -/
inductive Ending
  | closed
  /-- a backslash with nothing behind it -/
  | backslash
  | single (cs : List Char) (h : '\'' ∉ cs)
  | double (ds : List DPiece) (torn : Bool)

/-! ## what is written, and what it means -/

def DPiece.text : DPiece → List Char
  | .char c _ => [c]
  | .esc c _ | .back c _ => ['\\', c]
  | .cont => ['\\', '\n']

def DPiece.meaning : DPiece → List Char
  | .char c _ | .esc c _ => [c]
  | .cont => []
  | .back c _ => ['\\', c]

/-- Is a backslash kept? -/
def DPiece.keepsBackslash : DPiece → Bool
  | .back _ _ => true
  | _ => false

def Piece.text : Piece → List Char
  | .char c _ => [c]
  | .esc c _ => ['\\', c]
  | .cont => ['\\', '\n']
  | .single cs _ => '\'' :: cs ++ ['\'']
  | .double ds => '"' :: ds.flatMap DPiece.text ++ ['"']

def Piece.meaning : Piece → List Char
  | .char c _ | .esc c _ => [c]
  | .cont => []
  | .single cs _ => cs
  | .double ds => ds.flatMap DPiece.meaning

namespace Item

def text : Item → List Char
  | .blank c _ => [c]
  | .piece p => p.text

def meaning : Item → List Char
  | .blank _ _ => []
  | .piece p => p.meaning

def isBlank : Item → Bool
  | .blank _ _ => true
  | .piece _ => false

/-- Does the item make a word, if only an empty one? -/
def marks : Item → Bool
  | .blank _ _ | .piece .cont => false
  | .piece _ => true

end Item

/-- The word of items without a blank, if they make one. -/
def wordOf (items : List Item) : Option (List Char) :=
  if items.any Item.marks then some (items.flatMap Item.meaning) else none

/-- The words of a text. -/
def wordsOf (items : List Item) : List (List Char) :=
  (items.splitOnP Item.isBlank).filterMap wordOf

def textOf (items : List Item) : List Char := items.flatMap Item.text

namespace Ending

def text : Ending → List Char
  | .closed => []
  | .backslash => ['\\']
  | .single cs _ => '\'' :: cs
  | .double ds torn => '"' :: ds.flatMap DPiece.text ++ if torn then ['\\'] else []

/-- Is a quote left open? -/
def isOpen : Ending → Bool
  | .closed | .backslash => false
  | .single _ _ | .double _ _ => true

end Ending

/-! ## words -/

theorem meaning_of_not_marks {item : Item} (h : item.marks = false) : item.meaning = [] := by
  match item with
  | .blank _ _ => rfl
  | .piece .cont => rfl

theorem flatten_wordOf (items : List Item) :
    (wordOf items).toList.flatten = items.flatMap Item.meaning := by
  unfold wordOf
  split
  case isTrue => simp
  case isFalse h =>
    rw [List.any_eq_true] at h
    refine (List.flatMap_eq_nil_iff.mpr fun item hitem => ?_).symm
    exact meaning_of_not_marks (Bool.eq_false_iff.mpr fun hmarks => h ⟨item, hitem, hmarks⟩)

/-- The words hold what the items mean, and nothing else. -/
theorem flatten_wordsOf (items : List Item) :
    (wordsOf items).flatten = items.flatMap Item.meaning := by
  have hgroups (groups : List (List Item)) :
      (groups.filterMap wordOf).flatten = groups.flatten.flatMap Item.meaning := by
    induction groups with
    | nil => rfl
    | cons g groups ih =>
      rw [List.flatten_cons, List.flatMap_append, ← ih, ← flatten_wordOf]
      cases hg : wordOf g <;> simp [hg]
  rw [wordsOf, hgroups]
  induction items with
  | nil => rfl
  | cons item items ih =>
    rw [List.splitOnP_cons_eq_if_modifyHead, List.flatMap_cons, ← ih]
    match item with
    | .blank _ _ => rfl
    | .piece p =>
      obtain ⟨g, gs, hsplit⟩ :=
        List.exists_cons_of_ne_nil (List.splitOnP_ne_nil Item.isBlank items)
      simp [Item.isBlank, hsplit]

/-! ## every text is written -/

/-- Text behind a double quote goes on to the next that no backslash quotes, or to the end. -/
theorem exists_double (cs : List Char) :
    ∃ ds : List DPiece, (∃ rest, cs = ds.flatMap DPiece.text ++ '"' :: rest) ∨
      ∃ torn : Bool, cs = ds.flatMap DPiece.text ++ if torn then ['\\'] else [] := by
  match cs with
  | [] => exact ⟨[], .inr ⟨false, rfl⟩⟩
  | c :: cs =>
    by_cases hquote : c = '"'
    · exact ⟨[], .inl ⟨cs, by rw [hquote]; rfl⟩⟩
    · by_cases hback : c = '\\'
      · match cs with
        | [] => exact ⟨[], .inr ⟨true, by rw [hback]; rfl⟩⟩
        | n :: cs =>
          obtain ⟨d, hd⟩ : ∃ d : DPiece, d.text = ['\\', n] := by
            by_cases hline : n = '\n'
            · exact ⟨.cont, by rw [hline]; rfl⟩
            · cases hn : quotedInDouble n with
              | true => exact ⟨.esc n hn, rfl⟩
              | false => exact ⟨.back n ⟨hn, hline⟩, rfl⟩
          obtain ⟨ds, ⟨rest, hrest⟩ | ⟨b, hb⟩⟩ := exists_double cs
          · exact ⟨d :: ds, .inl ⟨rest, by simp [hd, hback, hrest]⟩⟩
          · exact ⟨d :: ds, .inr ⟨b, by simp [hd, hback, hb]⟩⟩
      · obtain ⟨ds, ⟨rest, hrest⟩ | ⟨b, hb⟩⟩ := exists_double cs
        · exact ⟨.char c ⟨hquote, hback⟩ :: ds, .inl ⟨rest, by simp [DPiece.text, hrest]⟩⟩
        · exact ⟨.char c ⟨hquote, hback⟩ :: ds, .inr ⟨b, by simp [DPiece.text, hb]⟩⟩

/-- The first item of a text, or the way it ends. -/
theorem exists_first {c : Char} {cs : List Char} :
    (∃ (item : Item) (rest : List Char), c :: cs = item.text ++ rest ∧ rest.length ≤ cs.length) ∨
      ∃ ending : Ending, c :: cs = ending.text := by
  by_cases hquote : c = '\''
  · by_cases hclosed : '\'' ∈ cs
    · obtain ⟨quoted, rest, hrest, hquoted⟩ := List.eq_append_cons_of_mem hclosed
      refine .inl ⟨.piece (.single quoted hquoted), rest, ?_, ?_⟩
      · simp [hquote, hrest, Item.text, Piece.text]
      · simp [hrest]
        omega
    · exact .inr ⟨.single cs hclosed, by rw [hquote]; rfl⟩
  by_cases hdouble : c = '"'
  · obtain ⟨ds, ⟨rest, hrest⟩ | ⟨b, hb⟩⟩ := exists_double cs
    · refine .inl ⟨.piece (.double ds), rest, ?_, ?_⟩
      · simp [hdouble, hrest, Item.text, Piece.text]
      · simp [hrest]
        omega
    · exact .inr ⟨.double ds b, by rw [hdouble, hb]; rfl⟩
  by_cases hback : c = '\\'
  · match cs with
    | [] => exact .inr ⟨.backslash, by rw [hback]; rfl⟩
    | n :: cs =>
      by_cases hline : n = '\n'
      · exact .inl ⟨.piece .cont, cs, by rw [hback, hline]; rfl, by simp⟩
      · exact .inl ⟨.piece (.esc n hline), cs, by rw [hback]; rfl, by simp⟩
  cases hblank : isBlank c with
  | true => exact .inl ⟨.blank c hblank, cs, rfl, Nat.le_refl _⟩
  | false => exact .inl ⟨.piece (.char c ⟨hblank, hback, hquote, hdouble⟩), cs, rfl, Nat.le_refl _⟩

/-- **Every text is written**: items, and an ending. -/
theorem exists_written (cs : List Char) :
    ∃ (items : List Item) (ending : Ending), cs = textOf items ++ ending.text := by
  match cs with
  | [] => exact ⟨[], .closed, rfl⟩
  | c :: cs =>
    rcases @exists_first c cs with ⟨item, rest, hfirst, hlength⟩ | ⟨ending, hending⟩
    · obtain ⟨items, ending, hrest⟩ := exists_written rest
      exact ⟨item :: items, ending, by rw [hfirst, hrest]; simp [textOf]⟩
    · exact ⟨[], ending, hending⟩
  termination_by cs.length
  decreasing_by simp; omega

end ClaudeReplay.Lib.Shell
