import ClaudeReplay.Lib.ShellText
import ClaudeReplay.Text
import Mathlib.Algebra.Order.BigOperators.Group.List
import Mathlib.Algebra.Order.Group.Nat

/-!
# ClaudeReplay.Taskq.Words

The words of a shell command, as the reader of task-queue calls splits them.

`shellWords` goes through the command once, with the word begun and the quote it is in. A backslash
outside single quotes takes the character behind it as it is, and with a newline it is nothing; any
whitespace outside quotes ends a word.

It is held against how words are written for a shell. The two agree but for two things: between
double quotes the shell keeps a backslash before most characters, and it parts words at spaces,
tabs and newlines only (`shellWords_written_iff`).
-/

namespace ClaudeReplay.Taskq

open Lib.Shell

/-- The words so far, the one begun, whether there is one, and the quote the reader is in. -/
structure WordState where
  out : List (List Char) := []
  cur : List Char := []
  has : Bool := false
  dq : Bool := false
  sq : Bool := false
  deriving DecidableEq

namespace WordState

/-- Take characters into the word. -/
def add (s : WordState) (cs : List Char) : WordState := { s with cur := s.cur ++ cs, has := true }

/-- End the word, if there is one. -/
def flush (s : WordState) : WordState :=
  if s.has then { s with out := s.out ++ [s.cur], cur := [], has := false } else s

/-- A character that no backslash stands before. -/
def next (s : WordState) (c : Char) : WordState :=
  if c = '"' ∧ s.sq = false then { s with dq := !s.dq, has := true }
  else if c = '\'' ∧ s.dq = false then { s with sq := !s.sq, has := true }
  else if isWhitespace c ∧ s.dq = false ∧ s.sq = false then s.flush
  else s.add [c]

/-- A character that a backslash stands before. -/
def quoted (s : WordState) (c : Char) : WordState := if c = '\n' then s else s.add [c]

end WordState

/-- The reader on a text. -/
def readWords (s : WordState) : List Char → WordState
  | [] => s
  | '\\' :: cs =>
    if s.sq then readWords (s.next '\\') cs
    else
      match cs with
      | [] => s
      | n :: cs => readWords (s.quoted n) cs
  | c :: cs => readWords (s.next c) cs

/-- `shell_words`: the words, and whether every quote is closed. -/
def shellWords (cmd : List Char) : List (List Char) × Bool :=
  let s := readWords {} cmd
  (if s.has then s.out ++ [s.cur] else s.out, !s.dq && !s.sq)

/-! ## what the reader makes of what is written -/

/-- What is read of a piece between double quotes: no backslash is kept. -/
def readD : DPiece → List Char
  | .char c _ | .esc c _ | .back c _ => [c]
  | .cont => []

/-- What an item does to a reader outside quotes. -/
def WordState.item (s : WordState) : Item → WordState
  | .blank _ _ => s.flush
  | .piece (.char c _) => if isWhitespace c then s.flush else s.add [c]
  | .piece (.esc c _) => s.add [c]
  | .piece .cont => s
  | .piece (.single cs _) => s.add cs
  | .piece (.double ds) => s.add (ds.flatMap readD)

/-- A reader outside quotes. -/
structure WordState.Bare (s : WordState) : Prop where
  dq : s.dq = false
  sq : s.sq = false

namespace WordState

variable {s : WordState}

theorem Bare.flush (h : s.Bare) : s.flush.Bare := by
  unfold WordState.flush
  split
  · exact ⟨h.dq, h.sq⟩
  · exact h

theorem Bare.add (h : s.Bare) (cs : List Char) : (s.add cs).Bare := ⟨h.dq, h.sq⟩

theorem Bare.item (h : s.Bare) (item : Item) : (s.item item).Bare := by
  match item with
  | .blank _ _ => exact h.flush
  | .piece (.char c _) =>
    show (if isWhitespace c then s.flush else s.add [c]).Bare
    split
    · exact h.flush
    · exact h.add [c]
  | .piece (.esc c _) => exact h.add [c]
  | .piece .cont => exact h
  | .piece (.single cs _) => exact h.add cs
  | .piece (.double ds) => exact h.add (ds.flatMap readD)

end WordState

/-- A character that is no backslash, or one in single quotes, is read as it is. -/
theorem readWords_cons {s : WordState} {c : Char} (h : c ≠ '\\' ∨ s.sq = true) (cs : List Char) :
    readWords s (c :: cs) = readWords (s.next c) cs := by
  by_cases hc : c = '\\'
  · subst hc
    have hs := h.resolve_left (· rfl)
    cases cs <;> simp [readWords, hs]
  · rw [readWords]
    exact fun h => hc h

theorem readWords_quoted {s : WordState} (h : s.sq = false) (c : Char) (cs : List Char) :
    readWords s ('\\' :: c :: cs) = readWords (s.quoted c) cs := by
  rw [readWords, h]
  rfl

/-- Between single quotes everything is taken as it is. -/
theorem readWords_single (out : List (List Char)) (cur : List Char) {cs : List Char}
    (h : '\'' ∉ cs) (rest : List Char) :
    readWords ⟨out, cur, true, false, true⟩ (cs ++ rest) =
      readWords ⟨out, cur ++ cs, true, false, true⟩ rest := by
  induction cs generalizing cur with
  | nil => rw [List.nil_append, List.append_nil]
  | cons c cs ih =>
    rw [List.mem_cons, not_or] at h
    have hnext : WordState.next ⟨out, cur, true, false, true⟩ c =
        ⟨out, cur ++ [c], true, false, true⟩ := by
      simp [WordState.next, Ne.symm h.1, WordState.add]
    rw [List.cons_append, readWords_cons (.inr rfl), hnext, ih (cur ++ [c]) h.2, List.append_assoc,
      List.singleton_append]

/-- A piece between double quotes. -/
theorem readWords_dpiece (out : List (List Char)) (cur : List Char) (d : DPiece)
    (rest : List Char) :
    readWords ⟨out, cur, true, true, false⟩ (d.text ++ rest) =
      readWords ⟨out, cur ++ readD d, true, true, false⟩ rest := by
  cases d with
  | char c h =>
    refine (readWords_cons (.inl h.2) rest).trans ?_
    simp [WordState.next, h.1, WordState.add, readD]
  | esc c h =>
    have hline : c ≠ '\n' := by
      rintro rfl
      exact absurd h (by decide)
    refine (readWords_quoted rfl c rest).trans ?_
    simp [WordState.quoted, hline, WordState.add, readD]
  | cont =>
    refine (readWords_quoted rfl '\n' rest).trans ?_
    simp [WordState.quoted, readD]
  | back c h =>
    refine (readWords_quoted rfl c rest).trans ?_
    simp [WordState.quoted, h.2, WordState.add, readD]

/-- Between double quotes. -/
theorem readWords_double (out : List (List Char)) (cur : List Char) (ds : List DPiece)
    (rest : List Char) :
    readWords ⟨out, cur, true, true, false⟩ (ds.flatMap DPiece.text ++ rest) =
      readWords ⟨out, cur ++ ds.flatMap readD, true, true, false⟩ rest := by
  induction ds generalizing cur with
  | nil => simp
  | cons d ds ih =>
    rw [List.flatMap_cons, List.append_assoc, readWords_dpiece, ih, List.flatMap_cons,
      List.append_assoc]

theorem next_single {s : WordState} (hs : s.sq = false) (hd : s.dq = false) :
    s.next '\'' = ⟨s.out, s.cur, true, false, true⟩ := by simp [WordState.next, hs, hd]

theorem next_double {s : WordState} (hs : s.sq = false) (hd : s.dq = false) :
    s.next '"' = ⟨s.out, s.cur, true, true, false⟩ := by simp [WordState.next, hs, hd]

theorem isWhitespace_of_isBlank {c : Char} (h : Lib.Shell.isBlank c = true) :
    isWhitespace c = true := by
  simp only [Lib.Shell.isBlank, Bool.or_eq_true, decide_eq_true_eq] at h
  rcases h with (rfl | rfl) | rfl <;> rfl

/-- A reader outside quotes goes over an item. -/
theorem readWords_item {s : WordState} (h : s.Bare) (item : Item) (rest : List Char) :
    readWords s (item.text ++ rest) = readWords (s.item item) rest := by
  obtain ⟨hd, hs⟩ := h
  match item with
  | .blank c hc =>
    have hne : c ≠ '\\' ∧ c ≠ '"' ∧ c ≠ '\'' := by
      refine ⟨?_, ?_, ?_⟩ <;> rintro rfl <;> exact absurd hc (by decide)
    have hnext : s.next c = s.flush := by
      simp [WordState.next, hs, hd, hne, isWhitespace_of_isBlank hc]
    exact (readWords_cons (.inl hne.1) rest).trans (by rw [hnext]; rfl)
  | .piece (.char c hc) =>
    have hnext : s.next c = if isWhitespace c then s.flush else s.add [c] := by
      simp [WordState.next, hs, hd, hc]
    exact (readWords_cons (.inl hc.2.1) rest).trans (by rw [hnext]; rfl)
  | .piece (.esc c hc) =>
    have hquoted : s.quoted c = s.add [c] := by simp [WordState.quoted, hc]
    exact (readWords_quoted hs c rest).trans (by rw [hquoted]; rfl)
  | .piece .cont =>
    refine (readWords_quoted hs '\n' rest).trans ?_
    simp [WordState.quoted, WordState.item]
  | .piece (.single cs hcs) =>
    have htext : (Item.piece (.single cs hcs)).text ++ rest = '\'' :: (cs ++ '\'' :: rest) := by
      simp [Item.text, Piece.text]
    rw [htext, readWords_cons (.inl (by decide)), next_single hs hd, readWords_single _ _ hcs,
      readWords_cons (.inl (by decide))]
    simp [WordState.next, WordState.item, WordState.add, hs, hd]
  | .piece (.double ds) =>
    have htext : (Item.piece (.double ds)).text ++ rest =
        '"' :: (ds.flatMap DPiece.text ++ '"' :: rest) := by
      simp [Item.text, Piece.text]
    rw [htext, readWords_cons (.inl (by decide)), next_double hs hd, readWords_double,
      readWords_cons (.inl (by decide))]
    simp [WordState.next, WordState.item, WordState.add, hs, hd]

theorem readWords_items {s : WordState} (h : s.Bare) (items : List Item) (rest : List Char) :
    readWords s (textOf items ++ rest) = readWords (items.foldl WordState.item s) rest := by
  induction items generalizing s with
  | nil => rfl
  | cons item items ih =>
    rw [textOf, List.flatMap_cons, List.append_assoc, readWords_item h]
    exact ih (h.item item)

theorem WordState.Bare.items {s : WordState} (h : s.Bare) (items : List Item) :
    (items.foldl WordState.item s).Bare := by
  induction items generalizing s with
  | nil => exact h
  | cons item items ih => exact ih (h.item item)

/-! ## open quotes -/

/-- An ending leaves the reader in the quote it leaves open. -/
theorem open_readWords_ending {s : WordState} (h : s.Bare) (ending : Ending) :
    (!(readWords s ending.text).dq && !(readWords s ending.text).sq) = !ending.isOpen := by
  obtain ⟨hd, hs⟩ := h
  cases ending with
  | closed => simp [Ending.text, Ending.isOpen, readWords, hd, hs]
  | backslash => simp [Ending.text, Ending.isOpen, readWords, hd, hs]
  | single cs hcs =>
    have hread := readWords_single s.out s.cur hcs []
    rw [List.append_nil] at hread
    rw [Ending.text, readWords_cons (.inl (by decide)), next_single hs hd, hread]
    rfl
  | double ds torn =>
    have hread := readWords_double s.out s.cur ds (if torn then ['\\'] else [])
    rw [Ending.text, List.cons_append, readWords_cons (.inl (by decide)), next_double hs hd, hread]
    cases torn <;> rfl

/-! ## the words -/

/-- The words once the text has ended. -/
def WordState.finish (s : WordState) : List (List Char) :=
  if s.has then s.out ++ [s.cur] else s.out

/-- Is the item read as the shell reads it? No backslash is dropped that the shell keeps, and no
word is ended where the shell does not end one. -/
def readAsWritten : Item → Bool
  | .piece (.char c _) => !isWhitespace c
  | .piece (.double ds) => ds.all (!·.keepsBackslash)
  | _ => true

/-- No word is begun without a character or a quote. -/
def WordState.Clean (s : WordState) : Prop := s.has = false → s.cur = []

namespace WordState

variable {s : WordState}

theorem clean_flush : s.flush.Clean ↔ s.Clean := by
  unfold WordState.flush
  split
  case isTrue h => simp [Clean, h]
  case isFalse => rfl

theorem clean_add (cs : List Char) : (s.add cs).Clean := by simp [Clean, add]

theorem Clean.item (h : s.Clean) (item : Item) : (s.item item).Clean := by
  match item with
  | .blank _ _ => exact clean_flush.mpr h
  | .piece (.char c _) =>
    show (if isWhitespace c then s.flush else s.add [c]).Clean
    split
    · exact clean_flush.mpr h
    · exact clean_add [c]
  | .piece (.esc c _) => exact clean_add [c]
  | .piece .cont => exact h
  | .piece (.single cs _) => exact clean_add cs
  | .piece (.double ds) => exact clean_add (ds.flatMap readD)

end WordState

/-! ### what is read -/

/-- What is read of an item. -/
def readItem : Item → List Char
  | .piece (.char c _) => if isWhitespace c then [] else [c]
  | .piece (.double ds) => ds.flatMap readD
  | item => item.meaning

theorem flatten_finish_flush (s : WordState) :
    s.flush.finish.flatten = s.finish.flatten := by
  unfold WordState.flush
  split
  case isTrue hhas => simp [WordState.finish, hhas]
  case isFalse => rfl

theorem flatten_finish_add (s : WordState) (h : s.Clean) (cs : List Char) :
    (s.add cs).finish.flatten = s.finish.flatten ++ cs := by
  cases hhas : s.has with
  | true => simp [WordState.finish, WordState.add, hhas]
  | false => simp [WordState.finish, WordState.add, hhas, h hhas]

theorem flatten_finish_item (s : WordState) (h : s.Clean) (item : Item) :
    (s.item item).finish.flatten = s.finish.flatten ++ readItem item := by
  match item with
  | .blank _ _ => exact (flatten_finish_flush s).trans (List.append_nil _).symm
  | .piece (.char c _) =>
    show (if isWhitespace c then s.flush else s.add [c]).finish.flatten =
      s.finish.flatten ++ if isWhitespace c then [] else [c]
    split
    · rw [flatten_finish_flush s, List.append_nil]
    · exact flatten_finish_add s h [c]
  | .piece (.esc c _) => exact flatten_finish_add s h [c]
  | .piece .cont => exact (List.append_nil _).symm
  | .piece (.single cs _) => exact flatten_finish_add s h cs
  | .piece (.double ds) => exact flatten_finish_add s h (ds.flatMap readD)

theorem flatten_finish_items (s : WordState) (h : s.Clean) (items : List Item) :
    (items.foldl WordState.item s).finish.flatten = s.finish.flatten ++ items.flatMap readItem := by
  induction items generalizing s with
  | nil => simp
  | cons item items ih =>
    rw [List.foldl_cons, ih (s.item item) (h.item item), flatten_finish_item s h, List.flatMap_cons,
      List.append_assoc]

/-! ### the words, where all is read as written -/

/-- An item read as the shell reads it. -/
theorem item_of_readAsWritten (s : WordState) {item : Item} (h : readAsWritten item = true) :
    s.item item =
      if item.isBlank then s.flush else if item.marks then s.add item.meaning else s := by
  match item with
  | .blank _ _ => rfl
  | .piece (.char c _) =>
    have hc : isWhitespace c = false := by simpa [readAsWritten] using h
    show (if isWhitespace c then s.flush else s.add [c]) = s.add [c]
    rw [hc]
    rfl
  | .piece (.esc c _) => rfl
  | .piece .cont => rfl
  | .piece (.single cs _) => rfl
  | .piece (.double ds) =>
    have hds : ds.flatMap readD = ds.flatMap DPiece.meaning := by
      refine List.flatMap_congr fun d hd => ?_
      have := List.all_eq_true.mp h d hd
      cases d with
      | back c _ => cases this
      | _ => rfl
    show s.add (ds.flatMap readD) = s.add (ds.flatMap DPiece.meaning)
    rw [hds]

/-- The words that are still to come of the groups of items between blanks, the first of which
goes on with the word begun. -/
def wordsWith (s : WordState) : List (List Item) → List (List Char)
  | [] => []
  | g :: gs =>
    (if s.has || g.any Item.marks then [s.cur ++ g.flatMap Item.meaning] else []) ++
      gs.filterMap wordOf

theorem out_flush (s : WordState) : s.flush.out = s.finish := by
  unfold WordState.flush WordState.finish
  split <;> rfl

theorem wordsWith_flush (s : WordState) (h : s.Clean) (groups : List (List Item)) :
    wordsWith s.flush groups = groups.filterMap wordOf := by
  have hhas : s.flush.has = false := by
    unfold WordState.flush
    split
    case isTrue => rfl
    case isFalse hhas => simpa using hhas
  have hcur : s.flush.cur = [] := WordState.clean_flush.mpr h hhas
  cases groups with
  | nil => rfl
  | cons g gs =>
    rw [wordsWith, hhas, hcur, Bool.false_or, List.nil_append, List.filterMap_cons, wordOf]
    split <;> rfl

theorem finish_items (s : WordState) (h : s.Clean) {items : List Item}
    (hitems : ∀ item ∈ items, readAsWritten item = true) :
    (items.foldl WordState.item s).finish = s.out ++ wordsWith s (items.splitOnP Item.isBlank) := by
  induction items generalizing s with
  | nil => cases hhas : s.has <;> simp [wordsWith, WordState.finish, hhas]
  | cons item items ih =>
    obtain ⟨hitem, hrest⟩ := List.forall_mem_cons.mp hitems
    obtain ⟨g, gs, hsplit⟩ := List.exists_cons_of_ne_nil (List.splitOnP_ne_nil Item.isBlank items)
    rw [List.foldl_cons, ih (s.item item) (h.item item) hrest,
      List.splitOnP_cons_eq_if_modifyHead, item_of_readAsWritten s hitem, hsplit]
    cases hblank : item.isBlank with
    | true =>
      rw [if_pos rfl, if_pos rfl, out_flush, wordsWith_flush s h]
      simp [wordsWith, WordState.finish]
      split <;> simp
    | false =>
      rw [if_neg Bool.false_ne_true, if_neg Bool.false_ne_true, List.modifyHead_cons]
      cases hmarks : item.marks with
      | true => simp [wordsWith, WordState.add, hmarks]
      | false => simp [wordsWith, hmarks, meaning_of_not_marks hmarks]

/-! ## the shell's words -/

theorem length_readD_le (d : DPiece) : (readD d).length ≤ d.meaning.length := by
  cases d <;> simp [readD, DPiece.meaning]

theorem length_readItem_le (item : Item) : (readItem item).length ≤ item.meaning.length := by
  match item with
  | .piece (.char c _) =>
    show (if isWhitespace c then [] else [c]).length ≤ 1
    split <;> simp
  | .piece (.double ds) =>
    show (ds.flatMap readD).length ≤ (ds.flatMap DPiece.meaning).length
    rw [List.length_flatMap, List.length_flatMap]
    exact List.sum_le_sum fun d _ => length_readD_le d
  | .blank _ _ | .piece (.esc _ _) | .piece .cont | .piece (.single _ _) => exact Nat.le_refl _

/-- Of an item that is not read as written less is read than it means. -/
theorem length_readItem_lt {item : Item} (h : readAsWritten item = false) :
    (readItem item).length < item.meaning.length := by
  match item with
  | .piece (.char c _) =>
    have hc : isWhitespace c = true := by simpa [readAsWritten] using h
    show (if isWhitespace c then [] else [c]).length < 1
    rw [hc]
    exact Nat.one_pos
  | .piece (.double ds) =>
    show (ds.flatMap readD).length < (ds.flatMap DPiece.meaning).length
    obtain ⟨d, hd, hkeeps⟩ := List.all_eq_false.mp h
    rw [List.length_flatMap, List.length_flatMap]
    refine List.sum_lt_sum _ _ (fun d _ => length_readD_le d) ⟨d, hd, ?_⟩
    cases d with
    | back c hc => exact Nat.lt_succ_self 1
    | _ => simp [DPiece.keepsBackslash] at hkeeps
  | .blank _ _ | .piece (.esc _ _) | .piece .cont | .piece (.single _ _) => cases h

theorem shellWords_items (items : List Item) :
    (shellWords (textOf items)).1 = (items.foldl WordState.item {}).finish := by
  have hbare : WordState.Bare {} := ⟨rfl, rfl⟩
  have hread := readWords_items hbare items []
  rw [List.append_nil, readWords] at hread
  simp only [shellWords, hread]
  rfl

/-- **When the words are the shell's.** Every text is written in some way, and the reader says
that it is balanced exactly where no quote is left open. The words of a text that is written to
its end are the shell's exactly where no backslash between double quotes stands before a character
it does not quote, and no whitespace but spaces, tabs and newlines stands outside quotes. -/
theorem shellWords_written_iff (cmd : List Char) (items : List Item) (ending : Ending) :
    (∃ (items : List Item) (ending : Ending), cmd = textOf items ++ ending.text) ∧
    (shellWords (textOf items ++ ending.text)).2 = !ending.isOpen ∧
    (shellWords (textOf items) = (wordsOf items, true) ↔
      ∀ item ∈ items, readAsWritten item = true) := by
  have hbare : WordState.Bare {} := ⟨rfl, rfl⟩
  have hopen (ending : Ending) :
      (shellWords (textOf items ++ ending.text)).2 = !ending.isOpen := by
    rw [shellWords, readWords_items hbare]
    exact open_readWords_ending (hbare.items items) ending
  refine ⟨exists_written cmd, hopen ending, ?_⟩
  have hclosed : (shellWords (textOf items)).2 = true := by
    have := hopen .closed
    rwa [Ending.text, List.append_nil] at this
  rw [Prod.ext_iff, and_iff_left hclosed, shellWords_items]
  constructor
  · intro hwords
    have hflatten := flatten_finish_items {} (fun _ => rfl) items
    rw [hwords, flatten_wordsOf] at hflatten
    intro item hitem
    by_contra hread
    have hlt : (items.flatMap readItem).length < (items.flatMap Item.meaning).length := by
      rw [List.length_flatMap, List.length_flatMap]
      exact List.sum_lt_sum _ _ (fun item _ => length_readItem_le item)
        ⟨item, hitem, length_readItem_lt (Bool.eq_false_iff.mpr hread)⟩
    exact absurd (congrArg List.length hflatten) (Nat.ne_of_gt hlt)
  · intro hitems
    rw [finish_items {} (fun _ => rfl) hitems]
    exact wordsWith_flush {} (fun _ => rfl) _

/-- A path between double quotes, with a backslash before a letter. -/
def quotedPath : List Item :=
  [.piece (.double [.char 'a' (by decide), .back 'b' (by decide)])]

/-- The shell's word is `a\b`, the reader's is `ab`. -/
theorem backslash_dropped :
    shellWords (textOf quotedPath) ≠ (wordsOf quotedPath, true) ∧
      shellWords (textOf quotedPath) = ([['a', 'b']], true) ∧
      wordsOf quotedPath = [['a', '\\', 'b']] := by
  decide

end ClaudeReplay.Taskq
