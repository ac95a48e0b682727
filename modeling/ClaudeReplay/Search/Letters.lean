import ClaudeReplay.Lib.Distinct
import Mathlib.Data.List.Infix
import Mathlib.Data.List.Sort

/-!
# ClaudeReplay.Search.Letters

The letters of a session's tools. `toolLetters` gives each tool one letter, most-used tools first;
`resolveTools` reads the text of an `o(…)` back, as names of tools or as a run of letters.

No two tools share a letter, and a reserved letter is only given to its own tool
(`toolLetters_lettered`). A run of letters is read back as its tools unless it is itself the name of
a tool, two of the tools differ in case only, or the name of one ends in `*`
(`letters_resolve_iff`): a name is looked for before letters are, and without regard to case.

How a text is lowercased and how names are ordered are parameters; names are lists of code points.
-/

namespace ClaudeReplay.Search

open Lib

abbrev Name := List Char

/-! ## reserved letters -/

/-- Tools whose letter never changes. -/
def reservedTools : List (Char × Name) :=
  [('B', "Bash".toList), ('R', "Read".toList), ('W', "Write".toList), ('E', "Update".toList),
    ('A', "Agent".toList), ('S', "Skill".toList), ('Q', "AskUserQuestion".toList),
    ('F', "WebFetch".toList)]

/-- Tool names a reader may type for the name a record carries. -/
def toolAliases : List (Name × Name) :=
  [("edit".toList, "Update".toList), ("multiedit".toList, "Update".toList)]

/-- The letter reserved for a tool. -/
def reservedLetter (key : Name) : Option Char :=
  (reservedTools.find? fun r => r.2 = key).map Prod.fst

/-! ## the tools of a session -/

/-- The text before the first two underscores. -/
def upToUnderscores : Name → Option Name
  | '_' :: '_' :: _ => some []
  | c :: cs => (upToUnderscores cs).map (c :: ·)
  | [] => none

/-- The server of an MCP tool: `/^mcp__([^_]+(?:_[^_]+)*)__/`. -/
def mcpServer (name : Name) : Option Name :=
  if "mcp__".toList.isPrefixOf name then
    (upToUnderscores (name.drop 5)).filter fun server => server ≠ [] ∧ server.head? ≠ some '_'
  else none

/-- A tool, or the family of the tools of one MCP server. -/
structure ToolEntry where
  key : Name
  label : Name
  count : Nat
  family : Bool
  key_of_family : family = true → key.getLast? = some '*'

/-- The entry a tool is counted under. -/
def entryOf (name : Name) : ToolEntry :=
  match mcpServer name with
  | some server =>
    { key := "mcp__".toList ++ server ++ "__*".toList, label := server, count := 0, family := true
      key_of_family := fun _ => by rw [List.getLast?_append]; rfl }
  | none => { key := name, label := name, count := 0, family := false, key_of_family := nofun }

/-- Count the calls of one tool. -/
def addCalls (entries : List ToolEntry) (calls : Name × Nat) : List ToolEntry :=
  if entries.any fun e => e.key = (entryOf calls.1).key then
    entries.map fun e =>
      if e.key = (entryOf calls.1).key then { e with count := e.count + calls.2 } else e
  else entries ++ [{ entryOf calls.1 with count := calls.2 }]

/-- The tools by their keys. -/
def toolEntries (counts : List (Name × Nat)) : List ToolEntry := counts.foldl addCalls []

/-- Most-used first, then by label. -/
def before (localeLe : Name → Name → Bool) (a b : ToolEntry) : Bool :=
  decide (b.count < a.count) || (a.count = b.count && localeLe a.label b.label)

def ordered (localeLe : Name → Name → Bool) (entries : List ToolEntry) : List ToolEntry :=
  entries.insertionSort fun a b => before localeLe a b = true

/-! ## letters -/

def swapCase (c : Char) : Char := if c = c.toLower then c.toUpper else c.toLower

def pool : List Char :=
  "abcdefghijklmnopqrstuvwxyzABCDEFGHIJKLMNOPQRSTUVWXYZ0123456789".toList

/-- The letters a tool may take, best first. -/
def tries (label : Name) : List Char :=
  let own := label.filter Char.isAlphanum
  own.head?.toList ++ own.head?.toList.map swapCase ++ own.drop 1 ++ (own.drop 1).map swapCase ++ pool

/-- A tool and its letter. -/
structure ToolLetter extends ToolEntry where
  letter : Char

/-- A tool takes its reserved letter, or the first that is not used. -/
def assign (used : List Char) : List ToolEntry → List ToolLetter
  | [] => []
  | e :: es =>
    match reservedLetter e.key with
    | some letter => { e with letter } :: assign used es
    | none =>
      match (tries e.label).find? (· ∉ used) with
      | some letter => { e with letter } :: assign (letter :: used) es
      | none => assign used es

/-- `toolLetters`, of the entries of `counts` in the order the object has them. -/
def toolLetters (localeLe : Name → Name → Bool) (counts : List (Name × Nat)) : List ToolLetter :=
  assign (reservedTools.map Prod.fst) (ordered localeLe (toolEntries counts))

/-! ## reading them back -/

/-- A tool an `o(…)` names: by its name, or by what its name starts with. -/
structure NamedTool where
  name : Name
  isPrefix : Bool
  deriving DecidableEq

def asTool (key : Name) : NamedTool :=
  if key.getLast? = some '*' then ⟨key.dropLast, true⟩ else ⟨key, false⟩

section

variable (lower : Name → Name)

def dedupeKey (tool : NamedTool) : Name := (if tool.isPrefix then '^' else '=') :: lower tool.name

def dedupeTools (tools : List NamedTool) : List NamedTool := distinctBy (dedupeKey lower) tools

/-- The names that are known, lowercased, and the tools they are for. -/
def knownTools (letters : List ToolLetter) : List (Name × Name) :=
  toolAliases ++ reservedTools.map (fun r => (lower r.2, r.2)) ++
    letters.map fun e => (lower e.key, e.key)

/-- The part is the name of a known tool, in any case. -/
def isKnown (letters : List ToolLetter) (part : Name) : Bool :=
  (lastOf (knownTools lower letters) (lower part)).isSome

/-- The tool that is known by this name, or the name itself. -/
def namedBy (letters : List ToolLetter) (part : Name) : Name :=
  ((lastOf (knownTools lower letters) (lower part)).filter (· ≠ [])).getD part

def byLetter (letters : List ToolLetter) : List (Char × Name) :=
  reservedTools ++ letters.map fun e => (e.letter, e.key)

/-- `resolveTools` -/
def resolveTools (spec : Name) (letters : List ToolLetter) : List NamedTool :=
  let parts := (spec.splitOn ',').filter (· ≠ [])
  if parts = [] then []
  else
    let named := parts.map (namedBy lower letters)
    if parts.all fun p => isKnown lower letters p || decide (p.getLast? = some '*') then
      dedupeTools lower (named.map asTool)
    else if parts.length = 1 ∧ spec.all fun c => (lastOf (byLetter letters) c).isSome then
      dedupeTools lower (spec.map fun c => asTool ((lastOf (byLetter letters) c).getD []))
    else dedupeTools lower (named.map asTool)

end

/-- The tool an entry stands for. -/
def ToolEntry.tool (e : ToolEntry) : NamedTool :=
  if e.family then ⟨e.key.dropLast, true⟩ else ⟨e.key, false⟩

/-- The letters of some tools, as an `o(…)` has them. -/
def run (chosen : List ToolLetter) : Name := chosen.map (·.letter)

/-! ## which letters are given -/

theorem nodup_addCalls {entries : List ToolEntry} (h : (entries.map (·.key)).Nodup)
    (calls : Name × Nat) : ((addCalls entries calls).map (·.key)).Nodup := by
  unfold addCalls
  split
  · have hkeys : (entries.map fun e => if e.key = (entryOf calls.1).key then
        { e with count := e.count + calls.2 } else e).map (·.key) = entries.map (·.key) := by
      rw [List.map_map]
      apply List.map_congr_left
      intro e _
      simp only [Function.comp_apply]
      split
      · rfl
      · rfl
    rwa [hkeys]
  · next hnew =>
    rw [List.map_append, List.nodup_append]
    refine ⟨h, by simp, ?_⟩
    intro key hkey added hadded
    obtain ⟨e, he, rfl⟩ := List.mem_map.mp hkey
    rw [List.map_singleton, List.mem_singleton] at hadded
    subst hadded
    intro heq
    exact hnew (List.any_eq_true.mpr ⟨e, he, by simpa using heq⟩)

theorem nodup_toolEntries (counts : List (Name × Nat)) {entries : List ToolEntry}
    (h : (entries.map (·.key)).Nodup) : ((counts.foldl addCalls entries).map (·.key)).Nodup := by
  induction counts generalizing entries with
  | nil => exact h
  | cons calls counts ih =>
    rw [List.foldl_cons]
    exact ih (nodup_addCalls h calls)

theorem nodup_ordered (localeLe : Name → Name → Bool) (counts : List (Name × Nat)) :
    ((ordered localeLe (toolEntries counts)).map (·.key)).Nodup := by
  have hentries : ((toolEntries counts).map (·.key)).Nodup :=
    nodup_toolEntries counts (by simp)
  exact ((List.perm_insertionSort _ _).map _).nodup_iff.mpr hentries

/-- A reserved letter is reserved for one tool. -/
theorem reservedLetter_inj {key other : Name} {letter : Char}
    (h : reservedLetter key = some letter) (h' : reservedLetter other = some letter) :
    key = other := by
  unfold reservedLetter at h h'
  obtain ⟨row, hrow, hletter⟩ := Option.map_eq_some_iff.mp h
  obtain ⟨row', hrow', hletter'⟩ := Option.map_eq_some_iff.mp h'
  have hkey : row.2 = key := by simpa using List.find?_some hrow
  have hkey' : row'.2 = other := by simpa using List.find?_some hrow'
  have hnodup : (reservedTools.map Prod.fst).Nodup := by decide
  have hvalue := lastOf_of_mem hnodup (List.mem_of_find?_eq_some hrow)
  have hvalue' := lastOf_of_mem hnodup (List.mem_of_find?_eq_some hrow')
  rw [hletter] at hvalue
  rw [hletter', hvalue, Option.some.injEq] at hvalue'
  rw [← hkey, ← hkey', hvalue']

theorem reservedLetter_mem {key : Name} {letter : Char} (h : reservedLetter key = some letter) :
    letter ∈ reservedTools.map Prod.fst := by
  obtain ⟨row, hrow, rfl⟩ := Option.map_eq_some_iff.mp h
  exact List.mem_map_of_mem (List.mem_of_find?_eq_some hrow)

theorem isAlphanum_swapCase (c : Char) (h : c.isAlphanum = true) :
    (swapCase c).isAlphanum = true := by
  have hall : ∀ n : Fin 128, (Char.ofNat n).isAlphanum = true →
      (swapCase (Char.ofNat n)).isAlphanum = true := by decide +kernel
  have hlt : c.toNat < 128 := by
    delta Char.isAlphanum Char.isAlpha Char.isUpper Char.isLower Char.isDigit at h
    simp only [Bool.or_eq_true, Bool.and_eq_true, decide_eq_true_eq, UInt32.le_iff_toNat_le] at h
    have hval : c.val.toNat = c.toNat := rfl
    simp at h
    omega
  have hc := hall ⟨c.toNat, hlt⟩
  rw [Char.ofNat_toNat] at hc
  exact hc h

/-- Whatever letter is tried is a letter or a digit. -/
theorem isAlphanum_of_mem_tries {label : Name} {c : Char} (h : c ∈ tries label) :
    c.isAlphanum = true := by
  have hpool : pool.all Char.isAlphanum = true := by decide
  have hown : ∀ c ∈ label.filter Char.isAlphanum, c.isAlphanum = true := fun c hc =>
    (List.mem_filter.mp hc).2
  simp only [tries, List.mem_append, List.mem_map, Option.mem_toList] at h
  obtain (((h | ⟨d, h, rfl⟩) | h) | ⟨d, h, rfl⟩) | h := h
  · exact hown c (List.mem_of_mem_head? h)
  · exact isAlphanum_swapCase d (hown d (List.mem_of_mem_head? h))
  · exact hown c (List.mem_of_mem_drop h)
  · exact isAlphanum_swapCase d (hown d (List.mem_of_mem_drop h))
  · exact List.all_eq_true.mp hpool c h

/-- What one tool is given: its reserved letter, or a letter or digit that is not used. -/
structure Given (used : List Char) (e : ToolLetter) : Prop where
  alphanum : e.letter.isAlphanum = true
  reserved : reservedLetter e.key = some e.letter ∨ reservedLetter e.key = none ∧ e.letter ∉ used

theorem Given.of_used {used : List Char} {letter : Char} {e : ToolLetter}
    (h : Given (letter :: used) e) : Given used e :=
  { h with reserved := h.reserved.imp_right fun ⟨hkey, hnew⟩ =>
      ⟨hkey, fun hmem => hnew (List.mem_cons_of_mem _ hmem)⟩ }

/-- **Letters**, of tools under different keys, while the reserved ones are used. -/
theorem assign_given {used : List Char} (hused : reservedTools.map Prod.fst ⊆ used)
    {es : List ToolEntry} (hkeys : (es.map (·.key)).Nodup) :
    (∀ e ∈ assign used es, Given used e) ∧ ((assign used es).map (·.key)).Sublist (es.map (·.key)) ∧
      ((assign used es).map (·.letter)).Nodup := by
  induction es generalizing used with
  | nil => simp [assign]
  | cons e es ih =>
    rw [List.map_cons, List.nodup_cons] at hkeys
    rw [assign]
    split
    · next letter hreserved =>
      obtain ⟨hgiven, hsub, hnodup⟩ := ih hused hkeys.2
      constructor
      · intro other hother
        obtain rfl | hother := List.mem_cons.mp hother
        · refine ⟨?_, .inl hreserved⟩
          have hall : (reservedTools.map Prod.fst).all Char.isAlphanum = true := by decide
          exact List.all_eq_true.mp hall letter (reservedLetter_mem hreserved)
        · exact hgiven other hother
      · constructor
        · exact hsub.cons_cons _
        · rw [List.map_cons, List.nodup_cons]
          refine ⟨fun hmem => ?_, hnodup⟩
          obtain ⟨other, hother, heq⟩ := List.mem_map.mp hmem
          obtain hkey | ⟨-, hnew⟩ := (hgiven other hother).reserved
          · have hsame : other.key = e.key := by
              rw [heq] at hkey
              exact reservedLetter_inj hkey hreserved
            exact hkeys.1 (hsame ▸ hsub.subset (List.mem_map_of_mem hother))
          · rw [heq] at hnew
            exact hnew (hused (reservedLetter_mem hreserved))
    · next hordinary =>
      split
      · next letter hfound =>
        have hnew : letter ∉ used := by simpa using List.find?_some hfound
        have hused' : reservedTools.map Prod.fst ⊆ letter :: used := fun c hc =>
          List.mem_cons_of_mem _ (hused hc)
        obtain ⟨hgiven, hsub, hnodup⟩ := ih hused' hkeys.2
        constructor
        · intro other hother
          obtain rfl | hother := List.mem_cons.mp hother
          · exact ⟨isAlphanum_of_mem_tries (List.mem_of_find?_eq_some hfound),
              .inr ⟨hordinary, hnew⟩⟩
          · exact (hgiven other hother).of_used
        · constructor
          · exact hsub.cons_cons _
          · rw [List.map_cons, List.nodup_cons]
            refine ⟨fun hmem => ?_, hnodup⟩
            obtain ⟨other, hother, heq⟩ := List.mem_map.mp hmem
            obtain hkey | ⟨-, hother⟩ := (hgiven other hother).reserved
            · rw [heq] at hkey
              exact hnew (hused (reservedLetter_mem hkey))
            · exact hother (heq ▸ List.mem_cons_self)
      · obtain ⟨hgiven, hsub, hnodup⟩ := ih hused hkeys.2
        exact ⟨hgiven, hsub.cons _, hnodup⟩

/-- Each tool has at most one letter, no two tools share one, and a reserved letter is only given
to its own tool. -/
structure Lettered (letters : List ToolLetter) : Prop where
  once : (letters.map (·.key)).Nodup
  distinct : (letters.map (·.letter)).Nodup
  reserved : ∀ e ∈ letters, e.letter ∈ reservedTools.map Prod.fst →
    reservedLetter e.key = some e.letter

/-- **The letters of a session**, whatever its tools are named. -/
theorem toolLetters_lettered (localeLe : Name → Name → Bool) (counts : List (Name × Nat)) :
    Lettered (toolLetters localeLe counts) := by
  have hkeys := nodup_ordered localeLe counts
  obtain ⟨hgiven, hsub, hletters⟩ := assign_given (List.Subset.refl _) hkeys
  constructor
  · exact hkeys.sublist hsub
  · exact hletters
  · intro e he hmem
    obtain hkey | ⟨-, hnew⟩ := (hgiven e he).reserved
    · exact hkey
    · exact absurd hmem hnew

theorem toolLetters_alphanum {localeLe : Name → Name → Bool} {counts : List (Name × Nat)}
    {e : ToolLetter} (he : e ∈ toolLetters localeLe counts) : e.letter.isAlphanum = true :=
  ((assign_given (List.Subset.refl _) (nodup_ordered localeLe counts)).1 e he).alphanum

/-! ## what is read back -/

/-- A key is read as the tool of an entry exactly when it is that entry's, and the name of a tool
that is not a family does not end like one. -/
theorem asTool_eq_tool_iff (key : Name) (e : ToolEntry) :
    asTool key = e.tool ↔ key = e.key ∧ (e.family = false → e.key.getLast? ≠ some '*') := by
  unfold asTool ToolEntry.tool
  cases hfamily : e.family with
  | true =>
    have hstar := e.key_of_family hfamily
    simp only [if_true, Bool.true_eq_false, false_imp_iff, and_true]
    constructor
    · intro h
      split at h
      · next hkey =>
        rw [NamedTool.mk.injEq] at h
        rw [← List.dropLast_append_getLast? _ hkey, ← List.dropLast_append_getLast? _ hstar, h.1]
      · rw [NamedTool.mk.injEq] at h
        exact absurd h.2 (by decide)
    · rintro rfl
      rw [if_pos hstar]
  | false =>
    simp only [Bool.false_eq_true, if_false, true_imp_iff]
    constructor
    · intro h
      split at h
      · rw [NamedTool.mk.injEq] at h
        exact absurd h.2 (by decide)
      · next hkey =>
        rw [NamedTool.mk.injEq] at h
        obtain ⟨rfl, -⟩ := h
        exact ⟨rfl, hkey⟩
    · rintro ⟨rfl, hplain⟩
      rw [if_neg hplain]

section

variable {lower : Name → Name} {letters chosen : List ToolLetter}

theorem Lettered.lastOf_letter (h : Lettered letters) {e : ToolLetter} (he : e ∈ letters) :
    lastOf (byLetter letters) e.letter = some e.key := by
  have hrows : ((letters.map fun e => (e.letter, e.key)).map Prod.fst).Nodup := by
    rw [List.map_map]
    exact h.distinct
  rw [byLetter, lastOf_append, lastOf_of_mem hrows (List.mem_map_of_mem he), Option.some_or]

theorem alphanum_of_mem_run (halnum : ∀ e ∈ chosen, e.letter.isAlphanum = true) {c : Char}
    (h : c ∈ run chosen) : c.isAlphanum = true := by
  obtain ⟨e, he, rfl⟩ := List.mem_map.mp h
  exact halnum e he

/-- The letters of some tools are one part, which is no family. -/
theorem parts_run (halnum : ∀ e ∈ chosen, e.letter.isAlphanum = true) (hne : chosen ≠ []) :
    ((run chosen).splitOn ',').filter (· ≠ []) = [run chosen] ∧
      (run chosen).getLast? ≠ some '*' := by
  have hcomma : ∀ c ∈ run chosen, (c == ',') = false := by
    intro c hc
    rw [beq_eq_false_iff_ne]
    rintro rfl
    exact absurd (alphanum_of_mem_run halnum hc) (by decide)
  constructor
  · rw [List.splitOn_eq_singleton_of_beq_eq_false hcomma, List.filter_cons_of_pos]
    · rfl
    · simpa [run] using hne
  · intro hstar
    exact absurd (alphanum_of_mem_run halnum (List.mem_of_getLast? hstar)) (by decide)

/-- A run of letters is read as a name if it is one, and else letter by letter. -/
theorem resolveTools_run (h : Lettered letters) (hchosen : ∀ e ∈ chosen, e ∈ letters)
    (halnum : ∀ e ∈ chosen, e.letter.isAlphanum = true) (hne : chosen ≠ []) :
    resolveTools lower (run chosen) letters =
      if isKnown lower letters (run chosen) then [asTool (namedBy lower letters (run chosen))]
      else dedupeTools lower (chosen.map fun e => asTool e.key) := by
  obtain ⟨hparts, hstar⟩ := parts_run halnum hne
  have hletters : (run chosen).all (fun c => (lastOf (byLetter letters) c).isSome) = true := by
    rw [List.all_eq_true]
    intro c hc
    obtain ⟨e, he, rfl⟩ := List.mem_map.mp hc
    rw [h.lastOf_letter (hchosen e he)]
    rfl
  have hread : (run chosen).map (fun c => asTool ((lastOf (byLetter letters) c).getD [])) =
      chosen.map fun e => asTool e.key := by
    rw [run, List.map_map]
    apply List.map_congr_left
    intro e he
    rw [Function.comp_apply, h.lastOf_letter (hchosen e he), Option.getD_some]
  unfold resolveTools
  simp only [hparts, hread, hletters]
  rw [if_neg (List.cons_ne_nil _ _)]
  cases hknown : isKnown lower letters (run chosen) with
  | true =>
    rw [if_pos rfl, if_pos (by simp [hknown])]
    rfl
  | false =>
    rw [if_neg (by simp [hknown, hstar]), if_pos (by simp)]
    rfl

/-- The tools whose letters can be read back. -/
structure Readable (lower : Name → Name) (letters chosen : List ToolLetter) : Prop where
  /-- no two of them differ in case only -/
  apart : (chosen.map fun e => dedupeKey lower e.tool).Nodup
  /-- only a family ends in `*` -/
  plain : ∀ e ∈ chosen, e.family = false → e.key.getLast? ≠ some '*'
  /-- their letters are not the name of a tool, unless they are one tool of that name -/
  unspelled : chosen ≠ [] → isKnown lower letters (run chosen) = true →
    ∃ e, chosen = [e] ∧ namedBy lower letters (run chosen) = e.key

/-- **Tool letters resolve to their tools**, exactly where the run of letters can be told from a
name and the tools from each other. -/
theorem letters_resolve_iff (lower : Name → Name) (localeLe : Name → Name → Bool)
    (counts : List (Name × Nat)) {chosen : List ToolLetter}
    (hchosen : ∀ e ∈ chosen, e ∈ toolLetters localeLe counts) :
    Lettered (toolLetters localeLe counts) ∧
        resolveTools lower (run chosen) (toolLetters localeLe counts) =
          chosen.map (·.tool) ↔
      Readable lower (toolLetters localeLe counts) chosen := by
  have hlettered := toolLetters_lettered localeLe counts
  have halnum : ∀ e ∈ chosen, e.letter.isAlphanum = true := fun e he =>
    toolLetters_alphanum (hchosen e he)
  rw [and_iff_right hlettered]
  generalize toolLetters localeLe counts = letters at *
  by_cases hne : chosen = []
  · subst hne
    exact ⟨fun _ => ⟨by simp, nofun, fun h => absurd rfl h⟩, fun _ => rfl⟩
  · rw [resolveTools_run hlettered hchosen halnum hne]
    cases hknown : isKnown lower letters (run chosen) with
    | true =>
      rw [if_pos rfl]
      constructor
      · intro heq
        obtain ⟨e, rfl⟩ : ∃ e, chosen = [e] :=
          List.length_eq_one_iff.mp (by simpa using (congrArg List.length heq).symm)
        rw [List.map_singleton, List.singleton_inj, asTool_eq_tool_iff] at heq
        exact ⟨by simp, by simpa using heq.2, fun _ _ => ⟨e, rfl, heq.1⟩⟩
      · intro hread
        obtain ⟨e, rfl, hname⟩ := hread.unspelled hne hknown
        rw [List.map_singleton, List.singleton_inj, asTool_eq_tool_iff]
        exact ⟨hname, hread.plain e (by simp)⟩
    | false =>
      rw [if_neg (by decide)]
      have hsame (hplain : ∀ e ∈ chosen, e.family = false → e.key.getLast? ≠ some '*') :
          (chosen.map fun e => asTool e.key) = chosen.map (·.tool) :=
        List.map_congr_left fun e he => (asTool_eq_tool_iff _ _).mpr ⟨rfl, hplain e he⟩
      constructor
      · intro heq
        have hlength := congrArg List.length heq
        have hkept : chosen.length = (chosen.map fun e => asTool e.key).length :=
          (List.length_map _).symm
        rw [List.length_map, hkept, dedupeTools, length_distinctBy_iff] at hlength
        rw [dedupeTools, distinctBy_eq_self hlength] at heq
        have hplain : ∀ e ∈ chosen, e.family = false → e.key.getLast? ≠ some '*' := fun e he =>
          ((asTool_eq_tool_iff _ _).mp (List.map_inj_left.mp heq e he)).2
        rw [heq, List.map_map] at hlength
        exact ⟨hlength, hplain, fun _ h => by rw [h] at hknown; contradiction⟩
      · intro hread
        rw [hsame hread.plain, dedupeTools]
        apply distinctBy_eq_self
        rw [List.map_map]
        exact hread.apart

/-- Lowercase, for names of ASCII letters. -/
def asciiLower (name : Name) : Name := name.map Char.toLower

/-- The order of labels, for labels of letters of one case. -/
def labelLe : Name → Name → Bool
  | [], _ => true
  | _ :: _, [] => false
  | a :: as, b :: bs => decide (a < b) || (a = b && labelLe as bs)

/-- The letters of a session that called Bash and a server's tools. -/
theorem letters_resolve_session :
    let letters := toolLetters labelLe
      [("Bash".toList, 3), ("mcp__github__get_issue".toList, 1), ("Bench".toList, 1)]
    (Lettered letters ∧ resolveTools asciiLower (run letters) letters = letters.map (·.tool)) ∧
      run letters = "Bbg".toList := by
  refine ⟨(letters_resolve_iff asciiLower labelLe _ fun _ h => h).mpr ⟨?_, ?_, fun _ h => ?_⟩, ?_⟩
  · decide +kernel
  · decide +kernel
  · exact absurd h (by decide +kernel)
  · decide +kernel

/-- In a session with a tool named `a`, the letter `A`, which is reserved for Agent, is read as that
tool. -/
theorem reserved_letter_names_tool :
    ¬∀ (counts : List (Name × Nat)) (chosen : List ToolLetter),
      (∀ e ∈ chosen, e ∈ toolLetters labelLe counts) →
        resolveTools asciiLower (run chosen) (toolLetters labelLe counts) =
          chosen.map (·.tool) := by
  intro h
  have hread := h [("a".toList, 2), ("Agent".toList, 1)]
    ((toolLetters labelLe [("a".toList, 2), ("Agent".toList, 1)]).drop 1)
    fun _ => List.mem_of_mem_drop
  exact absurd hread (by decide +kernel)

end

end ClaudeReplay.Search
