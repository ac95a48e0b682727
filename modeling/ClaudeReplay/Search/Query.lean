import ClaudeReplay.Lib.Trim
import ClaudeReplay.Search.Letters
import Mathlib.Data.Finset.Basic
import Mathlib.Algebra.GroupWithZero.Nat

/-!
# ClaudeReplay.Search.Query

The search box. `splitQuery` reads it: a prefix of scope letters and tools at its very start, then
the text; a leading colon escapes. `writePrefix` writes it: the prefix of another choice in place of
the one it has, before the reader's own words.

What is written is read back, and written once more unchanged, exactly where nothing of the words
is taken for a prefix or an escape that was not, and the other way round (`reads_back_iff`).

A box is the list of its code points; a span has the offsets of its text in it.
-/

namespace ClaudeReplay.Search

open Lib

abbrev Text := List Char

/-- `\\s`, and what `trim` drops. -/
def isSpace (c : Char) : Bool :=
  c = ' ' || (9 ≤ c.toNat && c.toNat ≤ 13) || (0x2000 ≤ c.toNat && c.toNat ≤ 0x200a) ||
    [0xa0, 0x1680, 0x2028, 0x2029, 0x202f, 0x205f, 0x3000, 0xfeff].contains c.toNat

/-! ## the prefix -/

/-- The scope classes, and whole words. -/
inductive Letter
  | u | a | t | o | w
  deriving DecidableEq

/-- All letters, in canonical order. -/
def Letter.all : List Letter := [.u, .a, .t, .o, .w]

def Letter.char : Letter → Char
  | .u => 'u'
  | .a => 'a'
  | .t => 't'
  | .o => 'o'
  | .w => 'w'

/-- The letter a character is, in either case. -/
def letterOf (c : Char) : Option Letter := Letter.all.find? fun k => k.char = c.toLower

/-- A prefix: its letters, the text between the parentheses of `o(…)`, and its length. -/
structure Scope where
  set : Finset Letter
  tools : Text
  len : Nat
  deriving DecidableEq

/-- What cannot stand between the parentheses. -/
def notInTools (c : Char) : Bool := isSpace c || c = '(' || c = ')' || c = ':'

/-- The letters from position `i` on; `inside` is what was read of an open parenthesis. -/
def parseFrom (set : Finset Letter) (tools : Text) (i : Nat) (inside : Option Text) :
    Text → Option Scope
  | [] => none
  | c :: cs =>
    match inside with
    | some text =>
      if c = ')' then
        if text.any notInTools then none else parseFrom set text (i + 1) none cs
      else parseFrom set tools (i + 1) (some (text ++ [c])) cs
    | none =>
      if c = ':' then
        if i = 0 then none else some { set, tools, len := i + 1 }
      else
        match letterOf c with
        | none => none
        | some k =>
          if k ∈ set then none
          else
            match cs with
            | '(' :: after =>
              if k = .o then parseFrom (insert k set) tools (i + 2) (some []) after
              else parseFrom (insert k set) tools (i + 1) none ('(' :: after)
            | cs => parseFrom (insert k set) tools (i + 1) none cs

/-- `parsePrefix` -/
def parsePrefix (s : Text) : Option Scope := parseFrom ∅ [] 0 none s

/-! ## spans -/

inductive Span
  | scope (start stop : Nat) (set : Finset Letter) (tools : Text)
  | text (start stop : Nat) (escaped : Bool)
  deriving DecidableEq

def slice (s : Text) (start stop : Nat) : Text := (s.take stop).drop start

/-- The text of the box from position `i` on, if there is any. -/
def textSpan (s : Text) (i : Nat) : List Span :=
  let start := i + leadLen isSpace (s.drop i)
  let stop := (trimEndBy isSpace s).length
  if start < stop then [.text start stop false] else []

/-- `querySpans` -/
def querySpans (s : Text) : List Span :=
  let lead := leadLen isSpace s
  if s[lead]? = some ':' ∧ lead + 1 < s.length then [.text lead (trimEndBy isSpace s).length true]
  else
    match parsePrefix (s.drop lead) with
    | some p => .scope lead (lead + p.len) p.set p.tools :: textSpan s (lead + p.len)
    | none => textSpan s lead

/-! ## reading -/

/-- What to search. -/
structure Query where
  needle : Text
  lc : Text
  set : Option (Finset Letter)
  tools : List NamedTool
  toolSpec : Text
  tooShort : Bool

/-- The length of a string of the language, in code units. -/
def jsLength (s : Text) : Nat := (s.map fun c => if c.toNat < 0x10000 then 1 else 2).sum

def readSpan (s : Text) : Option (Finset Letter) × Text × Text → Span →
    Option (Finset Letter) × Text × Text
  | (_, _, text), .scope _ _ set tools => (some set, tools, text)
  | (set, spec, _), .text start stop escaped =>
    (set, spec, slice s (start + if escaped then 1 else 0) stop)

/-- `splitQuery`; `resolve` is the page's own, or reads the tools as names. -/
def splitQuery (lower : Text → Text) (resolve : Text → List NamedTool) (minLen : Nat) (raw : Text) :
    Query :=
  let s := trimBy isSpace raw
  let read := (querySpans s).foldl (readSpan s) (none, [], [])
  let text := trimBy isSpace read.2.2
  { needle := text
    lc := lower text
    set := read.1
    tools := if read.2.1 ≠ [] then resolve read.2.1 else []
    toolSpec := read.2.1
    tooShort := 0 < jsLength text && jsLength text < minLen }

/-! ## writing -/

/-- The letters of a choice; tools imply `o`. -/
def lettersOn (letters : Finset Letter) (tools : Text) : Finset Letter :=
  if tools ≠ [] then insert .o letters else letters

/-- One letter of a prefix, `o` with its tools. -/
def letterText (tools : Text) (k : Letter) : Text :=
  if k = .o ∧ tools ≠ [] then "o(".toList ++ tools ++ [')'] else [k.char]

/-- `prefixOf` -/
def prefixOf (letters : Finset Letter) (tools : Text) : Text :=
  let run := (Letter.all.filter (· ∈ lettersOn letters tools)).flatMap (letterText tools)
  if run = [] then [] else run ++ [':']

/-- The texts that are there, a blank between them. -/
def joined (head rest : Text) : Text :=
  if head = [] then rest else if rest = [] then head else head ++ ' ' :: rest

/-- The end of the prefix the box has. -/
def scopeEnd (spans : List Span) : Nat :=
  (spans.findSome? fun
    | .scope _ stop _ _ => some stop
    | .text _ _ _ => none).getD 0

/-- `writePrefix` -/
def writePrefix (raw : Text) (letters : Finset Letter) (tools : Text) : Text :=
  joined (prefixOf letters tools) (trimBy isSpace (raw.drop (scopeEnd (querySpans raw))))

/-! ## the prefix that is read -/

variable {set : Finset Letter} {tools spec s : Text} {i : Nat} {inside : Option Text} {p : Scope}

theorem parseFrom_inner (text : Text) (c : Char) (cs : Text) :
    parseFrom set spec i (some text) (c :: cs) =
      if c = ')' then
        if text.any notInTools then none else parseFrom set text (i + 1) none cs
      else parseFrom set spec (i + 1) (some (text ++ [c])) cs :=
  rfl

theorem parseFrom_outer (c : Char) (cs : Text) :
    parseFrom set spec i none (c :: cs) =
      if c = ':' then
        if i = 0 then none else some { set, tools := spec, len := i + 1 }
      else
        match letterOf c with
        | none => none
        | some k =>
          if k ∈ set then none
          else
            match cs with
            | '(' :: after =>
              if k = .o then parseFrom (insert k set) spec (i + 2) (some []) after
              else parseFrom (insert k set) spec (i + 1) none ('(' :: after)
            | cs => parseFrom (insert k set) spec (i + 1) none cs :=
  parseFrom.eq_def set spec i none (c :: cs)

/-- A prefix is read a character at a time, or two where a parenthesis opens. -/
theorem text_induction {P : Text → Prop} (nil : P [])
    (cons : ∀ c cs, P cs → (∀ after, cs = '(' :: after → P after) → P (c :: cs)) : ∀ s, P s
  | [] => nil
  | [c] => cons c [] nil fun _ h => by cases h
  | c :: d :: ds =>
    cons c (d :: ds) (text_induction nil cons (d :: ds)) fun _ h => by
      cases h
      exact text_induction nil cons ds

theorem parseFrom_len (h : parseFrom set spec i inside s = some p) :
    i < p.len ∧ p.len ≤ i + s.length := by
  induction s using text_induction generalizing set spec i inside with
  | nil => contradiction
  | cons c cs ih ih' =>
    rw [List.length_cons]
    cases inside with
    | some text =>
      rw [parseFrom_inner] at h
      split at h
      · split at h
        · contradiction
        · have := ih h
          omega
      · have := ih h
        omega
    | none =>
      rw [parseFrom_outer] at h
      split at h
      · split at h
        · contradiction
        · cases h
          show i < i + 1 ∧ i + 1 ≤ _
          omega
      · split at h
        · contradiction
        · split at h
          · contradiction
          · split at h
            · next after =>
              split at h
              · have := ih' after rfl h
                rw [List.length_cons]
                omega
              · have := ih h
                omega
            · have := ih h
              omega

/-- No character of a prefix is a blank. -/
theorem letterOf_space {c : Char} (h : isSpace c = true) : letterOf c = none := by
  rw [letterOf, List.find?_eq_none]
  intro k _ hk
  rw [decide_eq_true_eq] at hk
  have hlower : c.toLower ≠ c → c.toNat ≤ 90 ∧ 65 ≤ c.toNat := by
    intro hne
    unfold Char.toLower at hne
    split at hne
    · next hrange =>
      simpa [UInt32.le_iff_toNat_le, and_comm] using hrange
    · contradiction
  by_cases hsame : c.toLower = c
  · rw [hsame] at hk
    subst hk
    cases k <;> revert h <;> decide
  · have hrange := hlower hsame
    simp only [isSpace, Bool.or_eq_true, decide_eq_true_eq, Bool.and_eq_true,
      List.contains_iff_mem, List.mem_cons, List.not_mem_nil, or_false] at h
    obtain ((rfl | h) | h) | h := h
    · revert hrange
      decide
    · omega
    · omega
    · omega

theorem parseFrom_space (h : ∀ c ∈ s, isSpace c = true) : parseFrom set spec i inside s = none := by
  induction s generalizing i inside with
  | nil => rfl
  | cons c cs ih =>
    have hc := h c List.mem_cons_self
    have hcs : ∀ d ∈ cs, isSpace d = true := fun d hd => h d (List.mem_cons_of_mem _ hd)
    have hclose : c ≠ ')' := by
      rintro rfl
      revert hc
      decide
    have hcolon : c ≠ ':' := by
      rintro rfl
      revert hc
      decide
    cases inside with
    | some text =>
      rw [parseFrom_inner, if_neg hclose]
      exact ih hcs
    | none =>
      rw [parseFrom_outer, if_neg hcolon]
      simp only [letterOf_space hc]

/-- A letter that opens no parenthesis. -/
theorem parseFrom_letter {c : Char} {k : Letter} {cs : Text} (hc : c ≠ ':')
    (hk : letterOf c = some k) (hnew : k ∉ set) (hopen : k = .o → cs.head? ≠ some '(') :
    parseFrom set spec i none (c :: cs) = parseFrom (insert k set) spec (i + 1) none cs := by
  rw [parseFrom_outer]
  simp only [if_neg hc, hk, if_neg hnew]
  split
  · next after =>
    rw [if_neg fun ho => hopen ho rfl]
  · rfl

/-- Blanks after a text make no prefix of it, and take none away. -/
theorem parseFrom_append {ws : Text} (hws : ∀ c ∈ ws, isSpace c = true) :
    parseFrom set spec i inside (s ++ ws) = parseFrom set spec i inside s := by
  induction s using text_induction generalizing set spec i inside with
  | nil => exact parseFrom_space hws
  | cons c cs ih ih' =>
    cases inside with
    | some text =>
      rw [List.cons_append, parseFrom_inner, parseFrom_inner]
      simp only [ih]
    | none =>
      by_cases hc : c = ':'
      · rw [List.cons_append, parseFrom_outer, parseFrom_outer]
        simp only [if_pos hc]
      cases hk : letterOf c with
      | none =>
        rw [List.cons_append, parseFrom_outer, parseFrom_outer]
        simp only [if_neg hc, hk]
      | some k =>
        by_cases hmem : k ∈ set
        · rw [List.cons_append, parseFrom_outer, parseFrom_outer]
          simp only [if_neg hc, hk, if_pos hmem]
        by_cases hopen : k = .o → cs.head? ≠ some '('
        · have hopen' : k = .o → (cs ++ ws).head? ≠ some '(' := by
            intro ho hhead
            rw [List.head?_append, Option.or_eq_some_iff] at hhead
            obtain hhead | ⟨-, hhead⟩ := hhead
            · exact hopen ho hhead
            · exact absurd (hws '(' (List.mem_of_mem_head? hhead)) (by decide)
          rw [List.cons_append, parseFrom_letter hc hk hmem hopen,
            parseFrom_letter hc hk hmem hopen', ih]
        · rw [Classical.not_imp, not_not] at hopen
          obtain ⟨ho, hhead⟩ := hopen
          obtain ⟨after, rfl⟩ := List.head?_eq_some_iff.mp hhead
          rw [List.cons_append, parseFrom_outer, parseFrom_outer]
          simp only [if_neg hc, hk, if_neg hmem, if_pos ho, List.cons_append]
          exact ih' after rfl

/-! ## the prefix that is written -/

/-- The text between the parentheses, up to the first that closes. -/
theorem parseFrom_inside {text acc tail : Text} (h : ')' ∉ text) :
    parseFrom set spec i (some acc) (text ++ ')' :: tail) =
      if (acc ++ text).any notInTools then none
      else parseFrom set (acc ++ text) (i + text.length + 1) none tail := by
  induction text generalizing acc i with
  | nil => simp [parseFrom_inner]
  | cons c text ih =>
    rw [List.mem_cons, not_or] at h
    rw [List.cons_append, parseFrom_inner, if_neg (Ne.symm h.1), ih h.2]
    simp only [List.append_assoc, List.cons_append, List.nil_append, List.length_cons]
    congr 2
    omega

/-- The tools of a prefix are read once. -/
theorem parseFrom_tools (h : parseFrom set spec i none s = some p) (ho : Letter.o ∈ set) :
    p.tools = spec := by
  induction s generalizing set i with
  | nil => contradiction
  | cons c cs ih =>
    rw [parseFrom_outer] at h
    split at h
    · split at h
      · contradiction
      · cases h
        rfl
    · split at h
      · contradiction
      · next k _ =>
        split at h
        · contradiction
        · next hnew =>
          have hk : k ≠ .o := by
            rintro rfl
            exact hnew ho
          split at h
          · rw [if_neg hk] at h
            exact ih h (Finset.mem_insert_of_mem ho)
          · exact ih h (Finset.mem_insert_of_mem ho)

theorem letterOf_char (k : Letter) : letterOf k.char = some k ∧ k.char ≠ ':' := by
  cases k <;> decide

/-- The letters of a prefix, written one after the other. -/
def runText (tools : Text) (ks : List Letter) : Text := ks.flatMap (letterText tools)

theorem runText_cons (tools : Text) (k : Letter) (ks : List Letter) :
    runText tools (k :: ks) = letterText tools k ++ runText tools ks := List.flatMap_cons

/-- What follows a letter opens no parenthesis. -/
theorem head_runText (tools : Text) (ks : List Letter) (rest : Text) :
    (runText tools ks ++ ':' :: rest).head? ≠ some '(' := by
  cases ks with
  | nil => simp [runText]
  | cons k ks =>
    rw [runText_cons, letterText]
    split
    · simp
    · cases k <;> simp [Letter.char]

/-- Letters that are new stay new behind the first of them. -/
theorem new_cons {k : Letter} {ks : List Letter} (hks : (k :: ks).Nodup)
    (hnew : ∀ l ∈ k :: ks, l ∉ set) : k ∉ set ∧ ∀ l ∈ ks, l ∉ insert k set := by
  refine ⟨hnew k List.mem_cons_self, fun l hl hmem => ?_⟩
  obtain rfl | hmem := Finset.mem_insert.mp hmem
  · exact (List.nodup_cons.mp hks).1 hl
  · exact hnew l (List.mem_cons_of_mem _ hl) hmem

/-- **A prefix that was written** is read back, if its tools can stand between parentheses. -/
theorem parseFrom_runText {ks : List Letter} (hks : ks.Nodup) (hnew : ∀ k ∈ ks, k ∉ set)
    (hsome : i ≠ 0 ∨ ks ≠ []) (htools : .o ∈ ks → tools.any notInTools = false) (rest : Text) :
    parseFrom set spec i none (runText tools ks ++ ':' :: rest) = some
      { set := set ∪ ks.toFinset
        tools := if .o ∈ ks ∧ tools ≠ [] then tools else spec
        len := i + (runText tools ks).length + 1 } := by
  induction ks generalizing set spec i with
  | nil =>
    have hi : i ≠ 0 := by simpa using hsome
    simp [runText, parseFrom_outer, hi]
  | cons k ks ih =>
    obtain ⟨hk, hrest⟩ := new_cons hks hnew
    rw [List.nodup_cons] at hks
    rw [runText_cons, letterText]
    split
    · next hopen =>
      obtain ⟨rfl, hne⟩ := hopen
      have hclean := htools List.mem_cons_self
      have hclose : ')' ∉ tools := by
        intro hmem
        rw [List.any_eq_false] at hclean
        exact hclean ')' hmem (by decide)
      show parseFrom set spec i none ('o' :: '(' :: ((tools ++ [')'] ++ runText tools ks) ++
        ':' :: rest)) = _
      rw [parseFrom_outer, if_neg (by decide)]
      simp only [show letterOf 'o' = some .o from by decide, if_neg hk, if_true]
      rw [List.append_assoc, List.append_assoc, List.cons_append, List.nil_append,
        parseFrom_inside hclose, List.nil_append, if_neg (by simp [hclean]),
        ih hks.2 hrest (.inl (by omega)) (fun ho => absurd ho hks.1)]
      rw [Option.some.injEq, Scope.mk.injEq]
      refine ⟨?_, by simp [hne], ?_⟩
      · ext l
        simp only [Finset.mem_union, Finset.mem_insert, List.mem_toFinset, List.mem_cons]
        grind
      · simp
        omega
    · next hplain =>
      rw [List.append_assoc]
      show parseFrom set spec i none (k.char :: (runText tools ks ++ ':' :: rest)) = _
      obtain ⟨hletter, hcolon⟩ := letterOf_char k
      rw [parseFrom_letter hcolon hletter hk (fun _ => head_runText tools ks rest),
        ih hks.2 hrest (.inl (by omega)) (fun ho => htools (List.mem_cons_of_mem _ ho))]
      rw [Option.some.injEq, Scope.mk.injEq]
      refine ⟨?_, ?_, ?_⟩
      · ext l
        simp only [Finset.mem_union, Finset.mem_insert, List.mem_toFinset, List.mem_cons]
        grind
      · by_cases hne : tools = []
        · simp [hne]
        · have hk' : .o ≠ k := fun heq => hplain ⟨heq.symm, hne⟩
          simp [hne, hk']
      · simp
        omega

/-- Tools that cannot stand between parentheses are not read back. -/
theorem tools_ne_of_parseFrom {ks : List Letter} (hks : ks.Nodup) (hnew : ∀ k ∈ ks, k ∉ set)
    (ho : .o ∈ ks) (htools : tools.any notInTools = true) (rest : Text)
    (h : parseFrom set spec i none (runText tools ks ++ ':' :: rest) = some p) :
    p.tools ≠ tools := by
  have hne : tools ≠ [] := by
    rintro rfl
    contradiction
  induction ks generalizing set i with
  | nil => contradiction
  | cons k ks ih =>
    obtain ⟨hk, hrest⟩ := new_cons hks hnew
    rw [List.nodup_cons] at hks
    rw [runText_cons, letterText] at h
    split at h
    · next hopen =>
      obtain ⟨rfl, -⟩ := hopen
      have h : parseFrom set spec i none ('o' :: '(' :: ((tools ++ [')'] ++ runText tools ks) ++
        ':' :: rest)) = some p := h
      rw [parseFrom_outer, if_neg (by decide)] at h
      simp only [show letterOf 'o' = some .o from by decide, if_neg hk, if_true] at h
      rw [List.append_assoc, List.append_assoc, List.cons_append, List.nil_append] at h
      by_cases hmem : ')' ∈ tools
      · -- the parenthesis closes within the tools
        obtain ⟨text, more, htext, hclose⟩ := List.eq_append_cons_of_mem hmem
        rw [htext, List.append_assoc, List.cons_append, parseFrom_inside hclose,
          List.nil_append] at h
        split at h
        · contradiction
        · rw [parseFrom_tools h (Finset.mem_insert_self _ _), htext]
          simp
      · rw [parseFrom_inside hmem, List.nil_append, if_pos htools] at h
        contradiction
    · next hplain =>
      have hk' : k ≠ .o := fun heq => hplain ⟨heq, hne⟩
      have ho' : .o ∈ ks := by
        obtain rfl | ho := List.mem_cons.mp ho
        · exact absurd rfl hk'
        · exact ho
      obtain ⟨hletter, hcolon⟩ := letterOf_char k
      rw [List.append_assoc] at h
      have h : parseFrom set spec i none (k.char :: (runText tools ks ++ ':' :: rest)) = some p := h
      rw [parseFrom_letter hcolon hletter hk (fun _ => head_runText tools ks rest)] at h
      exact ih hks.2 hrest ho' h

/-! ## the text that is read -/

/-- The text span from a position on is what stands there, trimmed. -/
theorem foldl_textSpan {s : Text} {i : Nat} (hi : i ≤ s.length) (found : Option (Finset Letter))
    (spec : Text) :
    (textSpan s i).foldl (readSpan s) (found, spec, []) =
      (found, spec, trimBy isSpace (s.drop i)) := by
  obtain ⟨before, after, hrest, hlead, hbefore, hafter⟩ := @eq_trimBy _ isSpace (s.drop i)
  have htrimmed := @trimmed_trimBy _ isSpace (s.drop i)
  generalize trimBy isSpace (s.drop i) = text at hrest htrimmed
  have hs : s = s.take i ++ (before ++ text ++ after) := by
    rw [← hrest, List.take_append_drop]
  have htake : (s.take i).length = i := by
    rw [List.length_take]
    omega
  unfold textSpan
  simp only [← hlead]
  by_cases htext : text = []
  · have hspaces : ∀ c ∈ before ++ text ++ after, isSpace c = true := by
      subst htext
      intro c hc
      rw [List.append_nil, List.mem_append] at hc
      exact hc.elim (hbefore c) (hafter c)
    have hstop : (trimEndBy isSpace s).length ≤ i := by
      have hle := @length_trimEndBy_le _ isSpace (s.take i) (before ++ text ++ after) hspaces
      rw [← hs, htake] at hle
      exact hle
    rw [if_neg (by omega), htext]
    rfl
  · have hsplit : s = s.take i ++ before ++ text ++ after :=
      hs.trans (by simp only [List.append_assoc])
    have hend : trimEndBy isSpace s = s.take i ++ before ++ text := by
      have hlast : ∀ c ∈ (s.take i ++ before ++ text).getLast?, isSpace c = false := by
        intro c hc
        rw [List.getLast?_append_of_ne_nil _ htext] at hc
        exact htrimmed.stop c hc
      have happend := trimEndBy_append hlast hafter
      rwa [← hsplit] at happend
    have hpos := List.length_pos_iff.mpr htext
    have hstop : (trimEndBy isSpace s).length = i + before.length + text.length := by
      rw [hend, List.length_append, List.length_append, htake]
    have hslice (head : Text) (h : head.length = i + before.length) :
        slice (head ++ text ++ after) (i + before.length) (i + before.length + text.length) =
          text := by
      rw [slice, ← h, ← List.length_append, List.take_left, List.drop_left]
    have hread := hslice (s.take i ++ before) (by rw [List.length_append, htake])
    rw [← hsplit] at hread
    rw [if_pos (by omega), hstop]
    simp only [List.foldl_cons, List.foldl_nil, readSpan, Bool.false_eq_true, if_false,
      Nat.add_zero, hread]

/-- The text escapes what looks like a prefix of it. -/
def isEscaped (s : Text) : Bool := decide (s.head? = some ':') && decide (1 < s.length)

/-- The words of a trimmed text, after its prefix if it has one. -/
def afterPrefix (s : Text) : Text :=
  match parsePrefix s with
  | some p => trimBy isSpace (s.drop p.len)
  | none => s

theorem parsePrefix_colon {s : Text} (h : s.head? = some ':') : parsePrefix s = none := by
  obtain ⟨cs, rfl⟩ := List.head?_eq_some_iff.mp h
  simp [parsePrefix, parseFrom_outer]

theorem parsePrefix_len {s : Text} {p : Scope} (h : parsePrefix s = some p) :
    0 < p.len ∧ p.len ≤ s.length := by
  have := parseFrom_len h
  omega

/-- **What is read** of a trimmed box. -/
theorem foldl_querySpans {s : Text} (h : Trimmed isSpace s) :
    (querySpans s).foldl (readSpan s) (none, [], []) =
      ((parsePrefix s).map (·.set), ((parsePrefix s).map (·.tools)).getD [],
        if isEscaped s then s.drop 1 else afterPrefix s) := by
  unfold querySpans
  simp only [leadLen_eq_zero h, trimEndBy_eq_self h, List.drop_zero, Nat.zero_add]
  have hescaped : (s[0]? = some ':' ∧ 1 < s.length) ↔ isEscaped s = true := by
    simp [isEscaped, List.head?_eq_getElem?]
  by_cases hesc : isEscaped s = true
  · rw [if_pos (hescaped.mpr hesc), if_pos hesc]
    have hhead : s.head? = some ':' := by
      rw [List.head?_eq_getElem?]
      exact (hescaped.mpr hesc).1
    simp [readSpan, slice, parsePrefix_colon hhead]
  · rw [if_neg (fun hc => hesc (hescaped.mp hc)), if_neg hesc, afterPrefix]
    cases hparse : parsePrefix s with
    | some p =>
      simp only [List.foldl_cons, readSpan]
      rw [foldl_textSpan (parsePrefix_len hparse).2]
      rfl
    | none =>
      simp only
      rw [foldl_textSpan (Nat.zero_le _), List.drop_zero, trimBy_eq_self h]
      rfl

theorem trimmed_afterPrefix {s : Text} (h : Trimmed isSpace s) :
    Trimmed isSpace (afterPrefix s) := by
  unfold afterPrefix
  split
  · exact trimmed_trimBy _
  · exact h

/-- **What is left** for a new prefix to stand before. -/
theorem rest_writePrefix (raw : Text) :
    trimBy isSpace (raw.drop (scopeEnd (querySpans raw))) =
      afterPrefix (trimBy isSpace raw) := by
  obtain ⟨before, after, hraw, hlead, hbefore, hafter⟩ := @eq_trimBy _ isSpace raw
  have htrimmed := @trimmed_trimBy _ isSpace raw
  have hnone (i : Nat) : scopeEnd (textSpan raw i) = 0 := by
    unfold textSpan scopeEnd
    simp only
    split
    · rfl
    · rfl
  have hdrop : raw.drop (leadLen isSpace raw) = trimBy isSpace raw ++ after := by
    rw [← hlead]
    conv_lhs => rw [hraw, List.append_assoc]
    exact List.drop_left
  have hparse : parsePrefix (raw.drop (leadLen isSpace raw)) = parsePrefix (trimBy isSpace raw) := by
    rw [hdrop]
    exact parseFrom_append hafter
  unfold querySpans
  simp only [hparse]
  split
  · next hescaped =>
    have hhead : (trimBy isSpace raw).head? = some ':' := by
      have hdropped : (raw.drop (leadLen isSpace raw)).head? = some ':' := by
        rw [List.head?_drop]
        exact hescaped.1
      rw [hdrop, List.head?_append, Option.or_eq_some_iff] at hdropped
      obtain hhead | ⟨-, hhead⟩ := hdropped
      · exact hhead
      · exact absurd (hafter ':' (List.mem_of_mem_head? hhead)) (by decide)
    rw [afterPrefix, parsePrefix_colon hhead]
    rfl
  · unfold afterPrefix
    cases hscope : parsePrefix (trimBy isSpace raw) with
    | some p =>
      show trimBy isSpace (raw.drop (leadLen isSpace raw + p.len)) = _
      rw [← List.drop_drop, hdrop, List.drop_append_of_le_length (parsePrefix_len hscope).2,
        trimBy_append hafter]
    | none =>
      simp only
      rw [hnone, List.drop_zero]

/-! ## written and read -/

section

variable (lower : Text → Text) (resolve : Text → List NamedTool) (minLen : Nat)

/-- `splitQuery` by the trimmed box. -/
theorem splitQuery_eq (raw : Text) :
    (splitQuery lower resolve minLen raw).set = (parsePrefix (trimBy isSpace raw)).map (·.set) ∧
      (splitQuery lower resolve minLen raw).toolSpec =
        ((parsePrefix (trimBy isSpace raw)).map (·.tools)).getD [] ∧
      (splitQuery lower resolve minLen raw).needle =
        if isEscaped (trimBy isSpace raw) then trimBy isSpace ((trimBy isSpace raw).drop 1)
        else afterPrefix (trimBy isSpace raw) := by
  have hread := foldl_querySpans (trimmed_trimBy (p := isSpace) raw)
  unfold splitQuery
  simp only [hread]
  refine ⟨trivial, trivial, ?_⟩
  split
  · rfl
  · exact trimBy_eq_self (trimmed_afterPrefix (trimmed_trimBy raw))

/-- What was chosen is read back beside the same needle, and writing it once more changes
nothing. -/
structure ReadsBack (raw : Text) (letters : Finset Letter) (tools : Text) : Prop where
  scope : (splitQuery lower resolve minLen (writePrefix raw letters tools)).set =
    if lettersOn letters tools = ∅ then none else some (lettersOn letters tools)
  spec : (splitQuery lower resolve minLen (writePrefix raw letters tools)).toolSpec = tools
  needle : (splitQuery lower resolve minLen (writePrefix raw letters tools)).needle =
    (splitQuery lower resolve minLen raw).needle
  again : writePrefix (writePrefix raw letters tools) letters tools =
    writePrefix raw letters tools

end

/-- Nothing of a box is mistaken when the prefix is replaced: under a prefix, the tools can stand
between parentheses and the box escapes nothing; without one, the words after a prefix neither
escape nor have one themselves. -/
def Unmistaken (raw : Text) (letters : Finset Letter) (tools : Text) : Prop :=
  if lettersOn letters tools = ∅ then
    (parsePrefix (trimBy isSpace raw)).isSome = true →
      isEscaped (afterPrefix (trimBy isSpace raw)) = false ∧
        parsePrefix (afterPrefix (trimBy isSpace raw)) = none
  else tools.any notInTools = false ∧ isEscaped (trimBy isSpace raw) = false

theorem prefixOf_of_none {letters : Finset Letter} (h : lettersOn letters tools = ∅) :
    prefixOf letters tools = [] := by
  simp [prefixOf, h]

/-- The letters of a choice in canonical order. -/
def canonical (letters : Finset Letter) (tools : Text) : List Letter :=
  Letter.all.filter (· ∈ lettersOn letters tools)

theorem canonical_spec (letters : Finset Letter) (tools : Text) :
    (canonical letters tools).Nodup ∧ (canonical letters tools).toFinset = lettersOn letters tools ∧
      ∀ k, k ∈ canonical letters tools ↔ k ∈ lettersOn letters tools := by
  have hmem : ∀ k, k ∈ canonical letters tools ↔ k ∈ lettersOn letters tools := by
    intro k
    rw [canonical, List.mem_filter, decide_eq_true_eq]
    exact and_iff_right (by cases k <;> decide)
  refine ⟨List.Nodup.filter _ (by decide), ?_, hmem⟩
  ext k
  rw [List.mem_toFinset, hmem]

theorem prefixOf_of_some {letters : Finset Letter} (h : lettersOn letters tools ≠ ∅) :
    prefixOf letters tools = runText tools (canonical letters tools) ++ [':'] ∧
      canonical letters tools ≠ [] := by
  obtain ⟨-, hset, -⟩ := canonical_spec letters tools
  have hne : canonical letters tools ≠ [] := by
    intro hnil
    rw [hnil] at hset
    exact h hset.symm
  refine ⟨?_, hne⟩
  have hrun : runText tools (canonical letters tools) ≠ [] := by
    obtain ⟨k, ks, hcons⟩ := List.exists_cons_of_ne_nil hne
    rw [hcons, runText_cons, letterText]
    split
    · simp
    · simp
  exact if_neg hrun

/-- What stands after a written prefix. -/
def tailText (rest : Text) : Text := if rest = [] then [] else ' ' :: rest

theorem joined_of_some {letters : Finset Letter} (h : lettersOn letters tools ≠ ∅) (rest : Text) :
    joined (prefixOf letters tools) rest =
      runText tools (canonical letters tools) ++ ':' :: tailText rest := by
  rw [(prefixOf_of_some h).1, joined, if_neg (by simp), tailText]
  split
  · rfl
  · simp

/-- The characters a prefix starts with. -/
theorem head_written {letters : Finset Letter} (h : lettersOn letters tools ≠ ∅) (rest : Text) :
    ∃ k : Letter, (runText tools (canonical letters tools) ++ ':' :: rest).head? = some k.char := by
  obtain ⟨k, ks, hcons⟩ := List.exists_cons_of_ne_nil (prefixOf_of_some h).2
  refine ⟨k, ?_⟩
  rw [hcons, runText_cons, letterText]
  split
  · next hopen =>
    rw [hopen.1]
    rfl
  · rfl

theorem trimmed_written {letters : Finset Letter} (h : lettersOn letters tools ≠ ∅) {rest : Text}
    (hrest : Trimmed isSpace rest) :
    Trimmed isSpace (joined (prefixOf letters tools) rest) := by
  rw [joined_of_some h]
  constructor
  · obtain ⟨k, hk⟩ := @head_written tools letters h (tailText rest)
    rw [hk]
    intro c hc
    cases hc
    cases k <;> decide
  · intro c hc
    rw [List.getLast?_append_of_ne_nil _ (by simp), tailText] at hc
    split at hc
    · cases hc
      decide
    · next hne =>
      rw [show ':' :: ' ' :: rest = [':', ' '] ++ rest from rfl,
        List.getLast?_append_of_ne_nil _ hne] at hc
      exact hrest.stop c hc

theorem isEscaped_written {letters : Finset Letter} (h : lettersOn letters tools ≠ ∅)
    (rest : Text) : isEscaped (joined (prefixOf letters tools) rest) = false := by
  rw [joined_of_some h, isEscaped]
  obtain ⟨k, hk⟩ := @head_written tools letters h (tailText rest)
  rw [hk]
  cases k <;> simp [Letter.char]

/-- A written prefix with tools that can stand in it is read back before the same words. -/
theorem parsePrefix_written {letters : Finset Letter} (h : lettersOn letters tools ≠ ∅)
    (htools : tools.any notInTools = false) {rest : Text} (hrest : Trimmed isSpace rest) :
    ∃ p, parsePrefix (joined (prefixOf letters tools) rest) = some p ∧
      p.set = lettersOn letters tools ∧ p.tools = tools ∧
        afterPrefix (joined (prefixOf letters tools) rest) = rest := by
  obtain ⟨hnodup, hset, hmem⟩ := canonical_spec letters tools
  have hparse : parsePrefix (runText tools (canonical letters tools) ++ ':' :: tailText rest) =
      some _ :=
    parseFrom_runText hnodup (fun _ _ => by simp) (.inr (prefixOf_of_some h).2) (fun _ => htools)
      (tailText rest)
  rw [← joined_of_some h] at hparse
  refine ⟨_, hparse, ?_, ?_, ?_⟩
  · simp [hset]
  · simp only
    split
    · rfl
    · next hnot =>
      by_cases hne : tools = []
      · exact hne.symm
      · exact absurd ⟨(hmem .o).mpr (by simp [lettersOn, hne]), hne⟩ hnot
  · rw [afterPrefix, hparse]
    simp only [Nat.zero_add]
    rw [joined_of_some h, show (runText tools (canonical letters tools) ++ ':' :: tailText rest) =
      (runText tools (canonical letters tools) ++ [':']) ++ tailText rest from by simp,
      show (runText tools (canonical letters tools)).length + 1 =
        (runText tools (canonical letters tools) ++ [':']).length from by simp, List.drop_left,
      tailText]
    split
    · next hnil =>
      rw [hnil]
      rfl
    · rw [trimBy_cons (by decide), trimBy_eq_self hrest]

/-- Tools that cannot stand in a prefix are not read back. -/
theorem tools_ne_of_written {letters : Finset Letter} (htools : tools.any notInTools = true)
    (rest : Text) (h : parsePrefix (joined (prefixOf letters tools) rest) = some p) :
    p.tools ≠ tools := by
  obtain ⟨hnodup, -, hmem⟩ := canonical_spec letters tools
  have hne : tools ≠ [] := by
    rintro rfl
    contradiction
  have ho : .o ∈ lettersOn letters tools := by simp [lettersOn, hne]
  rw [joined_of_some (Finset.ne_empty_of_mem ho)] at h
  exact tools_ne_of_parseFrom hnodup (fun _ _ => by simp) ((hmem .o).mpr ho) htools _ h

theorem afterPrefix_of_none {s : Text} (h : parsePrefix s = none) : afterPrefix s = s := by
  rw [afterPrefix, h]

/-- An escaped text has no prefix, and its colon is not searched. -/
theorem escaped_spec {s : Text} (h : isEscaped s = true) :
    parsePrefix s = none ∧ trimBy isSpace (s.drop 1) ≠ s := by
  rw [isEscaped, Bool.and_eq_true, decide_eq_true_eq, decide_eq_true_eq] at h
  refine ⟨parsePrefix_colon h.1, fun heq => ?_⟩
  have hle := @length_trimBy_le _ isSpace (s.drop 1)
  rw [heq, List.length_drop] at hle
  omega

/-- Writing once more, by the words that were left. -/
theorem writePrefix_eq (raw : Text) (letters : Finset Letter) (tools : Text) :
    writePrefix raw letters tools =
      joined (prefixOf letters tools) (afterPrefix (trimBy isSpace raw)) := by
  rw [writePrefix, rest_writePrefix]

theorem not_escaped_of_scope {s : Text} {p : Scope} (h : parsePrefix s = some p) :
    isEscaped s = false := by
  cases hesc : isEscaped s with
  | false => rfl
  | true =>
    rw [(escaped_spec hesc).1] at h
    contradiction

section

variable (lower : Text → Text) (resolve : Text → List NamedTool) (minLen : Nat) (raw : Text)
  {letters : Finset Letter}

/-- No prefix is written: the box is the words alone. -/
theorem reads_back_plain (hon : lettersOn letters tools = ∅) :
    ReadsBack lower resolve minLen raw letters tools ↔
      ((parsePrefix (trimBy isSpace raw)).isSome = true →
        isEscaped (afterPrefix (trimBy isSpace raw)) = false ∧
          parsePrefix (afterPrefix (trimBy isSpace raw)) = none) := by
  have hrest : Trimmed isSpace (afterPrefix (trimBy isSpace raw)) :=
    trimmed_afterPrefix (trimmed_trimBy raw)
  have hplain (box : Text) : writePrefix box letters tools = afterPrefix (trimBy isSpace box) := by
    rw [writePrefix_eq, prefixOf_of_none hon, joined, if_pos rfl]
  obtain ⟨-, -, hneedle⟩ := splitQuery_eq lower resolve minLen raw
  obtain ⟨hset, hspec, hneedle'⟩ :=
    splitQuery_eq lower resolve minLen (afterPrefix (trimBy isSpace raw))
  have hagain := hplain (afterPrefix (trimBy isSpace raw))
  have htools : tools = [] := by
    by_contra hne
    simp [lettersOn, hne] at hon
  rw [trimBy_eq_self hrest] at hset hspec hneedle' hagain
  constructor
  · intro h hscope
    obtain ⟨p, hscope⟩ := Option.isSome_iff_exists.mp hscope
    have hnone : parsePrefix (afterPrefix (trimBy isSpace raw)) = none := by
      have hread := h.scope
      rw [hplain, hset, if_pos hon, Option.map_eq_none_iff] at hread
      exact hread
    refine ⟨?_, hnone⟩
    cases hesc : isEscaped (afterPrefix (trimBy isSpace raw)) with
    | false => rfl
    | true =>
      have hsame := h.needle
      rw [hplain, hneedle', hneedle, if_pos hesc, not_escaped_of_scope hscope,
        if_neg (by decide)] at hsame
      exact absurd hsame (escaped_spec hesc).2
  · intro h
    cases hscope : parsePrefix (trimBy isSpace raw) with
    | none =>
      have hwords := afterPrefix_of_none hscope
      rw [hwords] at hset hspec hneedle' hagain
      constructor
      · rw [hplain, hwords, hset, hscope, if_pos hon]
        rfl
      · rw [hplain, hwords, hspec, hscope, htools]
        rfl
      · rw [hplain, hwords, hneedle', hneedle, hwords]
      · rw [hplain raw, hwords, hagain, hwords]
    | some p =>
      obtain ⟨hesc, hnone⟩ := h (by rw [hscope]; rfl)
      constructor
      · rw [hplain, hset, hnone, if_pos hon]
        rfl
      · rw [hplain, hspec, hnone, htools]
        rfl
      · rw [hplain, hneedle', hneedle, hesc, not_escaped_of_scope hscope, afterPrefix_of_none hnone]
        rfl
      · rw [hplain raw, hagain, afterPrefix_of_none hnone]

/-- A prefix is written before the words. -/
theorem reads_back_prefixed (hon : lettersOn letters tools ≠ ∅) :
    ReadsBack lower resolve minLen raw letters tools ↔
      tools.any notInTools = false ∧ isEscaped (trimBy isSpace raw) = false := by
  have hrest : Trimmed isSpace (afterPrefix (trimBy isSpace raw)) :=
    trimmed_afterPrefix (trimmed_trimBy raw)
  obtain ⟨-, -, hneedle⟩ := splitQuery_eq lower resolve minLen raw
  obtain ⟨hset, hspec, hneedle'⟩ :=
    splitQuery_eq lower resolve minLen (writePrefix raw letters tools)
  have hwritten := writePrefix_eq raw letters tools
  have hagain := writePrefix_eq (writePrefix raw letters tools) letters tools
  have htrimmed := trimmed_written hon hrest
  have hopen := isEscaped_written hon (afterPrefix (trimBy isSpace raw))
  rw [← hwritten] at htrimmed hopen
  rw [trimBy_eq_self htrimmed] at hset hspec hneedle' hagain
  rw [hopen, if_neg (by decide)] at hneedle'
  constructor
  · intro h
    have hclean : tools.any notInTools = false := by
      cases hbad : tools.any notInTools with
      | false => rfl
      | true =>
        have hread := h.spec
        rw [hspec] at hread
        cases hparse : parsePrefix (writePrefix raw letters tools) with
        | none =>
          rw [hparse, Option.map_none, Option.getD_none] at hread
          rw [← hread] at hbad
          exact absurd hbad (by decide)
        | some p =>
          rw [hparse, Option.map_some, Option.getD_some] at hread
          rw [hwritten] at hparse
          exact absurd hread (tools_ne_of_written hbad _ hparse)
    refine ⟨hclean, ?_⟩
    obtain ⟨p, -, -, -, hwords⟩ := parsePrefix_written hon hclean hrest
    rw [← hwritten] at hwords
    cases hesc : isEscaped (trimBy isSpace raw) with
    | false => rfl
    | true =>
      have hsame := h.needle
      rw [hneedle', hwords, hneedle, if_pos hesc, afterPrefix_of_none (escaped_spec hesc).1]
        at hsame
      exact absurd hsame.symm (escaped_spec hesc).2
  · intro ⟨hclean, hesc⟩
    obtain ⟨p, hparse, hset', hspec', hwords⟩ := parsePrefix_written hon hclean hrest
    rw [← hwritten] at hparse hwords
    constructor
    · rw [hset, hparse, if_neg hon, Option.map_some, hset']
    · rw [hspec, hparse, Option.map_some, Option.getD_some, hspec']
    · rw [hneedle', hwords, hneedle, hesc, if_neg (by decide)]
    · rw [hagain, hwords, ← hwritten]

end

/-- **What the search box writes it reads back**, exactly where nothing of the box is mistaken. -/
theorem reads_back_iff (lower : Text → Text) (resolve : Text → List NamedTool) (minLen : Nat)
    (raw : Text) (letters : Finset Letter) (tools : Text) :
    ReadsBack lower resolve minLen raw letters tools ↔ Unmistaken raw letters tools := by
  unfold Unmistaken
  split
  · next hon => exact reads_back_plain lower resolve minLen raw hon
  · next hon => exact reads_back_prefixed lower resolve minLen raw hon

/-- A box whose letter is taken away: what stood after its prefix has one itself. -/
theorem cleared_box_reads_scope :
    ¬∀ (raw : Text) (letters : Finset Letter) (tools : Text),
      ReadsBack asciiLower (fun spec => resolveTools asciiLower spec []) 2 raw letters tools := by
  intro h
  exact absurd (h "u:a:x".toList ∅ []).scope (by decide +kernel)

end ClaudeReplay.Search
