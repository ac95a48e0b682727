import ClaudeReplay.Store.ArcLog

/-!
# ClaudeReplay.Store.Appends

Appends that fail.

`put` lets a write that fails go and goes on. A write that stopped part-way leaves a fragment,
and the next record lands on the fragment's line: the log ends there for every reader, and what
was read is what was put first. A write that left nothing leaves no trace either, and the next
record takes its place (`reload_putAll`). So a reload is a prefix of what was put as long as no
write that left nothing is followed by a whole one that a reader still comes to (`Shortens`).
-/

namespace ClaudeReplay.Store

open Lib (unlines leading splitLines)

/-! ## what is relied on -/

/-- A block is written on one line and reads back; and what is left of writes that stopped, with
a block behind it on the line, is no block. -/
structure Codec.Lawful {Block : Type} (codec : Codec Block) : Prop where
  oneLine : ∀ b, Index.newline ∉ codec.toVec b
  nonempty : ∀ b, codec.toVec b ≠ []
  reads : ∀ b, codec.fromSlice (codec.toVec b) = some b
  torn : ∀ (cuts : List (List UInt8)) (b : Block), cuts ≠ [] →
    (∀ c ∈ cuts, c ≠ [] ∧ ∃ b', c <+: codec.toVec b') →
      codec.fromSlice (cuts.flatten ++ codec.toVec b) = none

namespace ArcLog

variable {Block : Type} {codec : Codec Block}

/-! ## the file -/

/-- Blocks put, each with what became of its write. -/
def putAll (codec : Codec Block) (s : ArcLog) (puts : List (Block × Written)) : ArcLog :=
  puts.foldl (fun s p => s.put codec p.1 p.2) s

/-- What the writes leave in the file. -/
def trace (codec : Codec Block) (puts : List (Block × Written)) : List UInt8 :=
  puts.flatMap fun p => File.landed (codec.toVec p.1 ++ [Index.newline]) p.2

theorem putAll_bytes {s : ArcLog} {f : File} (hfile : s.file = some f)
    (puts : List (Block × Written)) :
    ∃ g, (putAll codec s puts).file = some g ∧ g.bytes = f.bytes ++ trace codec puts := by
  induction puts generalizing s f with
  | nil => exact ⟨f, hfile, (List.append_nil _).symm⟩
  | cons p puts ih =>
    have hput : (s.put codec p.1 p.2).file =
        some (f.writeAll (codec.toVec p.1 ++ [Index.newline]) p.2) := by
      simp only [put, hfile]
    obtain ⟨g, hg, hbytes⟩ := ih hput
    refine ⟨g, hg, ?_⟩
    rw [hbytes, File.writeAll_bytes, List.append_assoc]
    rfl

/-- What a write that stopped leaves: a piece of the record's text, and nothing only if it
stopped at once. -/
theorem landed_stopped (hlaw : codec.Lawful) (b : Block) (n : Nat) :
    File.landed (codec.toVec b ++ [Index.newline]) (.stopped n) <+: codec.toVec b ∧
      (File.landed (codec.toVec b ++ [Index.newline]) (.stopped n) = [] ↔ n = 0) := by
  have hlanded : File.landed (codec.toVec b ++ [Index.newline]) (.stopped n) =
      (codec.toVec b).take n := by
    rw [File.landed, List.length_append, List.length_singleton, Nat.add_sub_cancel,
      List.take_append_of_le_length (Nat.min_le_right _ _), ← List.take_eq_take_min]
  rw [hlanded]
  refine ⟨List.take_prefix _ _, ?_⟩
  rw [List.take_eq_nil_iff]
  simp [hlaw.nonempty b]

/-! ## what a reader comes to -/

/-- The blocks written whole before a write stopped part-way. -/
def kept : List (Block × Written) → List Block
  | [] => []
  | (b, .whole) :: puts => b :: kept puts
  | (_, .stopped n) :: puts => if n = 0 then kept puts else []

/-- The lines a load accepts. -/
def parses (codec : Codec Block) (line : List UInt8) : Bool := (codec.fromSlice line).isSome

/-- Behind a fragment nothing is read. -/
theorem leading_fragment (hlaw : codec.Lawful) {cuts : List (List UInt8)} (hne : cuts ≠ [])
    (hcuts : ∀ c ∈ cuts, c ≠ [] ∧ ∃ b, c <+: codec.toVec b) (puts : List (Block × Written)) :
    leading Index.newline (parses codec) (cuts.flatten ++ trace codec puts) = [] := by
  have hline : ∀ cuts : List (List UInt8), (∀ c ∈ cuts, c ≠ [] ∧ ∃ b, c <+: codec.toVec b) →
      Index.newline ∉ cuts.flatten := by
    intro cuts hcuts hmem
    obtain ⟨c, hc, hin⟩ := List.mem_flatten.mp hmem
    obtain ⟨-, b, hfront⟩ := hcuts c hc
    exact hlaw.oneLine b (hfront.subset hin)
  induction puts generalizing cuts with
  | nil =>
    rw [leading, trace, List.flatMap_nil, List.append_nil, Lib.splitLines_torn (hline cuts hcuts)]
    rfl
  | cons p puts ih =>
    obtain ⟨b, w⟩ := p
    cases w with
    | whole =>
      have htext : Index.newline ∉ cuts.flatten ++ codec.toVec b := by
        rw [List.mem_append, not_or]
        exact ⟨hline cuts hcuts, hlaw.oneLine b⟩
      have hbytes : cuts.flatten ++ trace codec ((b, .whole) :: puts) =
          (cuts.flatten ++ codec.toVec b) ++ Index.newline :: trace codec puts := by
        simp [trace, File.landed]
      rw [hbytes, leading, Lib.splitLines_line htext, List.takeWhile_cons_of_neg]
      rw [parses, hlaw.torn cuts b hne hcuts]
      exact Bool.false_ne_true
    | stopped n =>
      obtain ⟨hfront, -⟩ := landed_stopped hlaw b n
      have hbytes : trace codec ((b, .stopped n) :: puts) =
          File.landed (codec.toVec b ++ [Index.newline]) (.stopped n) ++ trace codec puts := rfl
      rw [hbytes]
      by_cases hnil : File.landed (codec.toVec b ++ [Index.newline]) (.stopped n) = []
      · rw [hnil, List.nil_append]
        exact ih hne hcuts
      · rw [← List.append_assoc, ← List.flatten_concat]
        refine ih (by simp) (List.forall_mem_append.mpr ⟨hcuts, ?_⟩)
        simpa using ⟨hnil, b, hfront⟩

/-- **What is read of some puts**: the blocks written whole before a write stopped part-way. -/
theorem leading_trace (hlaw : codec.Lawful) (puts : List (Block × Written)) :
    leading Index.newline (parses codec) (trace codec puts) = (kept puts).map codec.toVec := by
  induction puts with
  | nil => rfl
  | cons p puts ih =>
    obtain ⟨b, w⟩ := p
    cases w with
    | whole =>
      have hbytes : trace codec ((b, .whole) :: puts) =
          codec.toVec b ++ Index.newline :: trace codec puts := by
        simp [trace, File.landed]
      rw [leading] at ih
      rw [hbytes, leading, Lib.splitLines_line (hlaw.oneLine b), List.takeWhile_cons_of_pos, ih]
      · rfl
      · rw [parses, hlaw.reads]
        rfl
    | stopped n =>
      obtain ⟨hfront, hempty⟩ := landed_stopped hlaw b n
      have hbytes : trace codec ((b, .stopped n) :: puts) =
          File.landed (codec.toVec b ++ [Index.newline]) (.stopped n) ++ trace codec puts := rfl
      rw [hbytes, kept]
      split
      · next hn => rw [hempty.mpr hn, List.nil_append, ih]
      · next hn =>
        have hnil := fun h => hn (hempty.mp h)
        have hfragment := leading_fragment hlaw
          (List.cons_ne_nil (File.landed (codec.toVec b ++ [Index.newline]) (.stopped n)) [])
          (by simpa using ⟨hnil, b, hfront⟩) puts
        rw [List.flatten_singleton] at hfragment
        rw [hfragment, List.map_nil]

/-- **A reload** gives what the log held and the blocks written whole before a write stopped
part-way. -/
theorem reload_putAll (hlaw : codec.Lawful) (t : Torn codec) {s : ArcLog} (hs : s.Holds t.recs)
    (puts : List (Block × Written)) :
    ∃ f, (putAll codec s puts).file = some f ∧
      ((openAppend f.bytes).load codec).2 = .ok (blocks codec t.recs ++ kept puts) := by
  obtain ⟨f, hfile, hbytes, -⟩ := hs
  obtain ⟨g, hg, htrace⟩ := @putAll_bytes _ codec _ _ hfile puts
  refine ⟨g, hg, ?_⟩
  have hlines : usable codec g.bytes = t.recs ++ (kept puts).map codec.toVec := by
    rw [htrace, hbytes, usable, leading, Lib.splitLines_unlines t.oneLine,
      List.takeWhile_append_of_pos t.whole]
    exact congrArg (t.recs ++ ·) (leading_trace hlaw puts)
  have hread : (t.recs ++ (kept puts).map codec.toVec).filterMap codec.fromSlice =
      blocks codec t.recs ++ kept puts := by
    rw [List.filterMap_append, List.filterMap_map, blocks]
    congr 1
    rw [show codec.fromSlice ∘ codec.toVec = some from funext hlaw.reads, List.filterMap_some]
  have hstarts : endsARecord g.bytes 0 = .ok () := by simp [endsARecord, Lib.StartsLine]
  simp only [load, loadFrom, openAppend, Nat.zero_min, hstarts, List.drop_zero, hlines, hread]

/-! ## when a log is only shorter -/

/-- No write that left nothing is followed by a whole one, up to the first that stopped
part-way. -/
def Shortens : List (Block × Written) → Prop
  | [] => True
  | (_, .whole) :: puts => Shortens puts
  | (_, .stopped n) :: puts => n = 0 → kept puts = []

theorem kept_sublist (puts : List (Block × Written)) :
    (kept puts).Sublist (puts.map Prod.fst) := by
  induction puts with
  | nil => exact List.Sublist.refl _
  | cons p puts ih =>
    obtain ⟨b, w⟩ := p
    cases w with
    | whole => exact ih.cons_cons b
    | stopped n =>
      rw [kept]
      split
      · exact ih.cons b
      · exact List.nil_sublist _

theorem Shortens.kept_prefix {puts : List (Block × Written)} (h : Shortens puts) :
    kept puts <+: puts.map Prod.fst := by
  induction puts with
  | nil => exact List.prefix_refl _
  | cons p puts ih =>
    obtain ⟨b, w⟩ := p
    cases w with
    | whole => exact List.cons_prefix_cons.mpr ⟨rfl, ih h⟩
    | stopped n =>
      rw [kept]
      split
      · next hn =>
        rw [h hn]
        exact List.nil_prefix
      · exact List.nil_prefix

/-- Blocks that are told apart show every hole. -/
theorem shortens_of_prefix {puts : List (Block × Written)} (hnodup : (puts.map Prod.fst).Nodup)
    (h : kept puts <+: puts.map Prod.fst) : Shortens puts := by
  induction puts with
  | nil => trivial
  | cons p puts ih =>
    obtain ⟨b, w⟩ := p
    obtain ⟨hb, hrest⟩ := List.nodup_cons.mp hnodup
    cases w with
    | whole => exact ih hrest (List.cons_prefix_cons.mp h).2
    | stopped n =>
      rintro rfl
      rw [kept, if_pos rfl] at h
      cases hkept : kept puts with
      | nil => rfl
      | cons b' rest =>
        rw [hkept] at h
        obtain rfl : b' = b := (List.cons_prefix_cons.mp h).1
        have hmem : b' ∈ kept puts := by
          rw [hkept]
          exact List.mem_cons_self
        exact absurd ((kept_sublist puts).subset hmem) hb

/-- **When failed appends only shorten the log.** Over a log of whole records, whatever the
writes come to, a reload gives a prefix of what was put exactly when the blocks written whole
before a write stopped part-way are the first ones put. So it is whenever no write that left
nothing is followed by a whole one up to there, and only then if the blocks put are told
apart. -/
theorem reload_prefix_iff (hlaw : codec.Lawful) (t : Torn codec) {s : ArcLog}
    (hs : s.Holds t.recs) (puts : List (Block × Written)) :
    ∃ f reloaded, (putAll codec s puts).file = some f ∧
      ((openAppend f.bytes).load codec).2 = .ok reloaded ∧
      (reloaded <+: blocks codec t.recs ++ puts.map Prod.fst ↔
        kept puts <+: puts.map Prod.fst) ∧
      (Shortens puts → kept puts <+: puts.map Prod.fst) ∧
      ((puts.map Prod.fst).Nodup → kept puts <+: puts.map Prod.fst → Shortens puts) := by
  obtain ⟨f, hfile, hload⟩ := reload_putAll hlaw t hs puts
  exact ⟨f, _, hfile, hload, List.prefix_append_right_inj _, Shortens.kept_prefix,
    shortens_of_prefix⟩

/-! ## a hole -/

/-- One of two texts, as JSON has it. -/
def textOf (b : Bool) : List UInt8 :=
  let text := if b then "a" else "b"
  ("\x7b\"UserText\":\"" ++ text ++ "\"\x7d").toUTF8.data.toList

def twoTexts : Codec Bool where
  toVec := textOf
  fromSlice := fun line =>
    if line = textOf true then some true else if line = textOf false then some false else none

theorem length_textOf : ∀ b, (textOf b).length = 16 := by decide +kernel

theorem twoTexts_lawful : twoTexts.Lawful where
  oneLine := by decide +kernel
  nonempty := by decide +kernel
  reads := by decide +kernel
  torn := by
    intro cuts b hne hcuts
    have hlong : ∀ b', cuts.flatten ++ textOf b ≠ textOf b' := by
      intro b' heq
      have hlen := congrArg List.length heq
      rw [List.length_append, length_textOf, length_textOf] at hlen
      have hnil : cuts.flatten = [] := List.eq_nil_of_length_eq_zero (by omega)
      obtain ⟨c, rest, rfl⟩ := List.exists_cons_of_ne_nil hne
      have hc := List.flatten_eq_nil_iff.mp hnil c List.mem_cons_self
      exact (hcuts c List.mem_cons_self).1 hc
    simp only [twoTexts]
    rw [if_neg (hlong true), if_neg (hlong false)]

/-- The second write stops in its record, and nothing is read behind it. -/
theorem reload_prefix_iff_torn :
    ∃ f reloaded, (putAll twoTexts create
        [(true, .whole), (false, .stopped 4), (true, .whole)]).file = some f ∧
      ((openAppend f.bytes).load twoTexts).2 = .ok reloaded ∧
      reloaded <+: [true, false, true] := by
  obtain ⟨f, reloaded, hfile, hload, hiff, hshortens, -⟩ :=
    reload_prefix_iff twoTexts_lawful ⟨[], [], by simp, by simp, by simp⟩
      (s := create) ⟨_, rfl, rfl, rfl⟩ [(true, .whole), (false, .stopped 4), (true, .whole)]
  exact ⟨f, reloaded, hfile, hload, hiff.mpr (hshortens (by simp [Shortens]))⟩

/-- The first write leaves nothing, and the second block is read in its place. -/
theorem reload_prefix_hole :
    ¬ ∀ puts : List (Bool × Written), ∀ f, (putAll twoTexts create puts).file = some f →
      ∀ reloaded, ((openAppend f.bytes).load twoTexts).2 = .ok reloaded →
        reloaded <+: puts.map Prod.fst := by
  intro h
  have hhole := h [(true, .stopped 0), (false, .whole)] _ rfl [false] (by decide +kernel)
  revert hhole
  decide

end ArcLog

end ClaudeReplay.Store
