import ClaudeReplay.Lib.Pieces
import ClaudeReplay.Shaping
import Mathlib.Data.List.TakeWhile

/-!
# ClaudeReplay.Shaping.Coalesce

What the coalescing of activity spans keeps.

The blocks fall into *stretches*, cut at the blocks that end a run. A stretch is written on
its own: the attachments before its run, its run, the attachments held back meanwhile. The
loop's span says no more about a stretch than what the stretch holds (`Span.of`), but for
one thing: the duration of a stretch without text and calls is written nowhere and stays in
the span, for the next run to take.

So the members of the runs and their order are conserved whatever the blocks, and a second
pass changes nothing. That a run's duration is its own, and that the turns are coalesced one
by one, holds exactly when no such duration meets a run and no run's durations wrap the
machine word they are added in (`grouped_iff`).
-/

namespace ClaudeReplay

open Lib

namespace Block

/-- A block that ends the run before it. -/
def endsRun : Block → Bool
  | .thinking .. | .attachment _ => false
  | .toolUse call => !(isActivityTool call.name || isEditTool call.name)
  | _ => true

/-- Is the block a thinking block, with or without calls? -/
def isThinking : Block → Bool
  | .thinking .. => true
  | _ => false

/-- The attachment a block is. -/
def attachment? : Block → Option Attachment
  | .attachment a => some a
  | _ => none

/-- Is the block an attachment? -/
def isAttachment (b : Block) : Bool := b.attachment?.isSome

/-- What a block stands for: the calls folded into it, or itself. -/
def members : Block → List Block
  | .thinking _ _ tools => tools.map .toolUse
  | b => [b]

/-- The text a block gives to its run. -/
def runText : Block → Option String
  | .thinking text _ _ => if isBlank text then none else some text
  | _ => none

/-- The duration a block gives to its run. -/
def runDuration : Block → Option Nat
  | .thinking _ durationSecs _ => durationSecs
  | _ => none

/-- The calls a block gives to its run. -/
def runCalls : Block → List ToolUse
  | .thinking _ _ tools => tools
  | .toolUse call => [call]
  | _ => []

/-- A block with which a run is open. -/
def opensRun (b : Block) : Bool := b.runText.isSome || !b.runCalls.isEmpty

theorem attachment?_of_opensRun (b : Block) (h : b.opensRun = true) : b.attachment? = none := by
  cases b <;> simp_all [opensRun, runText, runCalls, attachment?]

end Block

/-! ## a stretch -/

/-- The durations of a stretch. -/
def durations (st : List Block) : List Nat := st.filterMap Block.runDuration

/-- The duration a run of this stretch gets when `left` was left over before it. -/
def durationWith (left : Option Nat) (st : List Block) : Option Nat :=
  if durations st = [] then left else some ((left.getD 0 + (durations st).sum) % 2 ^ 64)

/-- A duration that fits a machine word. -/
def Word (dur : Option Nat) : Prop := ∀ d ∈ dur, d < 2 ^ 64

theorem word_none : Word none := fun _ h => nomatch h

theorem Word.durationWith {left : Option Nat} (h : Word left) (st : List Block) :
    Word (durationWith left st) := by
  rw [ClaudeReplay.durationWith]
  split
  · exact h
  · intro d hd
    rw [← Option.some.inj hd]
    exact Nat.mod_lt _ (by decide)

/-- The attachments of a stretch before its run opens. -/
def leading (st : List Block) : List Attachment :=
  (st.takeWhile fun b => !b.opensRun).filterMap Block.attachment?

/-- The attachments of a stretch once its run is open. -/
def waiting (st : List Block) : List Attachment :=
  (st.dropWhile fun b => !b.opensRun).filterMap Block.attachment?

/-- The span after a stretch, when `left` was left over before it. -/
def Span.of (left : Option Nat) (st : List Block) : Span :=
  ⟨st.filterMap Block.runText, durationWith left st, st.flatMap Block.runCalls, waiting st⟩

/-- What is written of a stretch. -/
def write (left : Option Nat) (st : List Block) : List Block :=
  (leading st).map .attachment ++ (Span.of left st).flush.1

/-- What a stretch leaves over. -/
def leftOver (left : Option Nat) (st : List Block) : Option Nat :=
  if st.any Block.opensRun then none else durationWith left st

theorem Word.leftOver {left : Option Nat} (h : Word left) (st : List Block) :
    Word (leftOver left st) := by
  rw [ClaudeReplay.leftOver]
  split
  · exact word_none
  · exact h.durationWith st

@[simp] theorem leading_nil : leading [] = [] := rfl

theorem durationWith_append (left : Option Nat) (st : List Block) (b : Block) :
    durationWith left (st ++ [b]) = match b.runDuration with
      | some d => some (((durationWith left st).getD 0 + d) % 2 ^ 64)
      | none => durationWith left st := by
  have happ : durations (st ++ [b]) = durations st ++ b.runDuration.toList := by
    cases hb : b.runDuration <;> simp [durations, hb]
  rw [durationWith, durationWith, happ]
  cases b.runDuration with
  | none => simp
  | some d =>
    by_cases hnil : durations st = []
    · simp [hnil]
    · simp [hnil, Nat.add_assoc, Nat.mod_add_mod]

theorem takeWhile_append_singleton (p : Block → Bool) (st : List Block) (b : Block) :
    (st ++ [b]).takeWhile p =
      st.takeWhile p ++ if st.all p && p b then [b] else [] := by
  induction st with
  | nil => cases h : p b <;> simp [h]
  | cons x st ih => cases h : p x <;> simp [h, ih]

theorem dropWhile_append_singleton (p : Block → Bool) (st : List Block) (b : Block) :
    (st ++ [b]).dropWhile p =
      st.dropWhile p ++ if st.all p && p b then [] else [b] := by
  induction st with
  | nil => cases h : p b <;> simp [h]
  | cons x st ih => cases h : p x <;> simp [h, ih]

theorem leading_append (st : List Block) (b : Block) :
    leading (st ++ [b]) = leading st ++ if st.any Block.opensRun then [] else b.attachment?.toList := by
  have hany : (st.all fun b => !b.opensRun) = !st.any Block.opensRun := by
    rw [List.any_eq_not_all_not, Bool.not_not]
  rw [leading, takeWhile_append_singleton, List.filterMap_append, hany, ← leading]
  congr 1
  cases hst : st.any Block.opensRun with
  | true => simp
  | false =>
    cases hb : b.opensRun with
    | true => simp [b.attachment?_of_opensRun hb]
    | false => cases b <;> rfl

theorem waiting_append (st : List Block) (b : Block) :
    waiting (st ++ [b]) =
      waiting st ++ if st.any Block.opensRun then b.attachment?.toList else [] := by
  have hany : (st.all fun b => !b.opensRun) = !st.any Block.opensRun := by
    rw [List.any_eq_not_all_not, Bool.not_not]
  rw [waiting, dropWhile_append_singleton, List.filterMap_append, hany, ← waiting]
  congr 1
  cases hst : st.any Block.opensRun with
  | true => cases b <;> rfl
  | false =>
    cases hb : b.opensRun with
    | true => simp [b.attachment?_of_opensRun hb]
    | false => simp

/-- The span is open when a block opened it. -/
theorem isOpen_of (left : Option Nat) (st : List Block) :
    (Span.of left st).isOpen = st.any Block.opensRun := by
  induction st with
  | nil => rfl
  | cons b st ih =>
    simp only [Span.isOpen, Span.of] at ih ⊢
    rw [List.any_cons, ← ih, Block.opensRun, List.flatMap_cons, List.filterMap_cons]
    cases b.runText with
    | none => cases b.runCalls <;> simp
    | some text => simp

/-- **One block of a stretch.** The span goes on to say what the stretch holds; only an
attachment before the run is written at once. -/
theorem step_of (left : Option Nat) (st : List Block) {b : Block} (hb : b.endsRun = false) :
    (leading st).map .attachment ++ ((Span.of left st).step b).1 =
        (leading (st ++ [b])).map .attachment ∧
      ((Span.of left st).step b).2 = Span.of left (st ++ [b]) := by
  have hopen := isOpen_of left st
  have hspan : Span.of left (st ++ [b]) =
      ⟨st.filterMap Block.runText ++ b.runText.toList, durationWith left (st ++ [b]),
        st.flatMap Block.runCalls ++ b.runCalls, waiting (st ++ [b])⟩ := by
    cases htext : b.runText <;> simp [Span.of, htext]
  rw [hspan, leading_append, waiting_append, durationWith_append]
  cases b with
  | thinking text durationSecs tools =>
    by_cases htext : isBlank text = true
    · cases durationSecs <;>
        simp [Span.step, Span.of, Block.runText, Block.runDuration, Block.runCalls,
          Block.attachment?, htext]
    · cases durationSecs <;>
        simp [Span.step, Span.of, Block.runText, Block.runDuration, Block.runCalls,
          Block.attachment?, htext]
  | toolUse call =>
    have hjoins : (isActivityTool call.name || isEditTool call.name) = true := by
      simpa only [Block.endsRun, Bool.not_eq_false'] using hb
    rw [Span.step, if_pos hjoins]
    simp [Span.of, Block.runText, Block.runDuration, Block.runCalls, Block.attachment?]
  | attachment a =>
    rw [Span.step, hopen]
    cases st.any Block.opensRun <;>
      simp [Span.of, Block.runText, Block.runDuration, Block.runCalls, Block.attachment?]
  | _ => simp [Block.endsRun] at hb

/-- A block that ends a run is written after the run. -/
theorem step_endsRun (s : Span) {b : Block} (hb : b.endsRun = true) :
    s.step b = (s.flush.1 ++ [b], s.flush.2) := by
  cases b with
  | thinking text durationSecs tools => simp [Block.endsRun] at hb
  | attachment a => simp [Block.endsRun] at hb
  | toolUse call =>
    have hends : (isActivityTool call.name || isEditTool call.name) = false := by
      simpa [Block.endsRun] using hb
    rw [Span.step, hends]
    rfl
  | _ => rfl

/-- The run is written, and only the duration of a stretch that has none stays. -/
theorem flush_of (left : Option Nat) (st : List Block) :
    (Span.of left st).flush.2 = Span.of (leftOver left st) [] := by
  have hopen := isOpen_of left st
  have hnil : ∀ d, Span.of d [] = ⟨[], d, [], []⟩ := fun d => rfl
  rw [leftOver, ← hopen, hnil, Span.flush]
  by_cases hedits : (Span.of left st).onlyEdits = true
  · rw [if_pos hedits]
    simp only [Span.onlyEdits, Bool.and_eq_true, List.isEmpty_iff,
      Option.isNone_iff_eq_none] at hedits
    obtain ⟨⟨htexts, hdur⟩, -⟩ := hedits
    have hdur' : durationWith left st = none := hdur
    simp [htexts, hdur, hdur']
  · rw [if_neg hedits]
    cases hisOpen : (Span.of left st).isOpen with
    | true => rfl
    | false =>
      simp only [Span.isOpen, Bool.or_eq_false_iff, Bool.not_eq_false', List.isEmpty_iff]
        at hisOpen
      simp [hisOpen.1, hisOpen.2]
      rfl

/-- **A stretch.** What the loop writes of it, and the span it goes on from. -/
theorem coalesceFrom_stretch (left : Option Nat) (st more rest : List Block)
    (hmore : ∀ b ∈ more, b.endsRun = false) :
    (leading st).map .attachment ++ coalesceFrom (Span.of left st) (more ++ rest) =
      (leading (st ++ more)).map .attachment ++ coalesceFrom (Span.of left (st ++ more)) rest := by
  induction more generalizing st with
  | nil => rw [List.append_nil, List.nil_append]
  | cons b more ih =>
    obtain ⟨hwritten, hspan⟩ := step_of left st (hmore b List.mem_cons_self)
    rw [List.cons_append, coalesceFrom, hspan, ← List.append_assoc, hwritten,
      ih (st ++ [b]) fun c hc => hmore c (List.mem_cons_of_mem b hc), List.append_assoc]
    rfl

/-- The stretches written one after another, each with what is left over before it. -/
def writeRest (left : Option Nat) : List (Block × List Block) → List (Block × List Block)
  | [] => []
  | (b, st) :: rest => (b, write left st) :: writeRest (leftOver left st) rest

/-- **The loop writes stretch by stretch.** -/
theorem coalesceFrom_paste (left : Option Nat) {first : List Block}
    {rest : List (Block × List Block)} (h : Pieces Block.endsRun first rest) :
    coalesceFrom (Span.of left []) (paste first rest) =
      paste (write left first) (writeRest (leftOver left first) rest) := by
  induction rest generalizing left first with
  | nil =>
    have hstretch := coalesceFrom_stretch left [] first [] h.first
    simpa [coalesceFrom, write, writeRest] using hstretch
  | cons piece rest ih =>
    obtain ⟨b, next⟩ := piece
    have hb : b.endsRun = true := h.cuts (b, next) List.mem_cons_self
    have hstretch := coalesceFrom_stretch left [] first (b :: paste next rest) h.first
    rw [List.nil_append, coalesceFrom, step_endsRun _ hb, flush_of, ih _ h.tail] at hstretch
    rw [paste_cons, writeRest, paste_cons, write]
    simpa using hstretch

/-! ## the runs -/

/-- A stretch's run with a duration: its thinking joined, its calls. A stretch of nothing has none,
nor has one of nothing but changes. -/
def runOf (dur : Option Nat) (st : List Block) : Option Block :=
  let texts := st.filterMap Block.runText
  let calls := st.flatMap Block.runCalls
  if texts = [] ∧ dur = none ∧ ∀ call ∈ calls, isEditTool call.name = true then none
  else if texts = [] ∧ calls = [] then none
  else some (.thinking ("\n\n".intercalate texts) dur calls)

/-- The run of a stretch when `left` was left over before it. -/
def runWith (left : Option Nat) (st : List Block) : Option Block := runOf (durationWith left st) st

/-- The run of a stretch with nothing but its own: its duration is the sum of its durations. -/
def ownRun (st : List Block) : Option Block :=
  runOf (if durations st = [] then none else some (durations st).sum) st

/-- The stretch's run is its own: it has none, or no time was left over before it that it shows, and
its durations fit a machine word. -/
def Fits (left : Option Nat) (st : List Block) : Prop :=
  st.any Block.opensRun = false ∨
    (left = none ∨ left = some 0 ∧ durations st ≠ []) ∧ (durations st).sum < 2 ^ 64

/-- Nothing left over shows in any stretch to come. -/
def Settled (left : Option Nat) : List (List Block) → Prop
  | [] => True
  | st :: sts => Fits left st ∧ Settled (leftOver left st) sts

/-- A stretch opens no run when it has neither text nor calls. -/
theorem any_opensRun_eq_false {st : List Block} :
    st.any Block.opensRun = false ↔
      st.filterMap Block.runText = [] ∧ st.flatMap Block.runCalls = [] := by
  rw [← isOpen_of none st]
  simp [Span.isOpen, Span.of]

/-- An open stretch's duration shows in its run. -/
theorem runOf_inj {dur dur' : Option Nat} {st : List Block} (h : st.any Block.opensRun = true) :
    runOf dur st = runOf dur' st ↔ dur = dur' := by
  refine ⟨fun heq => ?_, fun heq => heq ▸ rfl⟩
  have hidle : ¬(st.filterMap Block.runText = [] ∧ st.flatMap Block.runCalls = []) := by
    rw [← any_opensRun_eq_false, h]
    simp
  simp only [runOf, if_neg hidle] at heq
  split at heq
  · next hedits =>
    split at heq
    · next hedits' => rw [hedits.2.1, hedits'.2.1]
    · cases heq
  · split at heq
    · cases heq
    · simpa using heq

theorem runOf_of_idle {dur : Option Nat} {st : List Block} (h : st.any Block.opensRun = false) :
    runOf dur st = none := by
  obtain ⟨htexts, hcalls⟩ := any_opensRun_eq_false.mp h
  simp [runOf, htexts, hcalls]

/-- **Whose duration it is.** The run is the stretch's own exactly when what is left over
does not show and nothing wraps. -/
theorem runWith_eq_iff {left : Option Nat} (hleft : Word left) (st : List Block) :
    runWith left st = ownRun st ↔ Fits left st := by
  cases hopen : st.any Block.opensRun with
  | false =>
    have hnone : runWith left st = none := runOf_of_idle hopen
    exact iff_of_true (hnone.trans (runOf_of_idle hopen).symm) (.inl hopen)
  | true =>
    rw [runWith, ownRun, runOf_inj hopen, Fits, hopen, durationWith]
    by_cases hdurs : durations st = []
    · simp [hdurs]
    · cases left with
      | none => simp [hdurs]
      | some d =>
        have hd := hleft d rfl
        simp only [hdurs, if_false, Option.getD_some, Option.some.injEq, reduceCtorEq, false_or,
          ne_eq, not_false_eq_true, and_true, Bool.true_eq_false]
        omega

/-- What is written of a stretch: nothing but attachments, changes on their own, or a run. -/
inductive Written (left : Option Nat) (st : List Block) : Prop
  | idle (hopen : st.any Block.opensRun = false) (hrun : runWith left st = none)
      (hwrite : write left st = (leading st).map .attachment)
  | edits (hopen : st.any Block.opensRun = true) (hdur : durationWith left st = none)
      (hedits : ∀ call ∈ st.flatMap Block.runCalls, isEditTool call.name = true)
      (hne : st.flatMap Block.runCalls ≠ []) (hrun : runWith left st = none)
      (hwrite : write left st = (leading st).map .attachment ++
        (st.flatMap Block.runCalls).map .toolUse ++ (waiting st).map .attachment)
  | run (hopen : st.any Block.opensRun = true)
      (hmore : ¬(st.filterMap Block.runText = [] ∧ durationWith left st = none ∧
        ∀ call ∈ st.flatMap Block.runCalls, isEditTool call.name = true))
      (hne : ¬(st.filterMap Block.runText = [] ∧ st.flatMap Block.runCalls = []))
      (hrun : runWith left st = some (.thinking ("\n\n".intercalate (st.filterMap Block.runText))
        (durationWith left st) (st.flatMap Block.runCalls)))
      (hwrite : write left st = (leading st).map .attachment ++
        .thinking ("\n\n".intercalate (st.filterMap Block.runText)) (durationWith left st)
          (st.flatMap Block.runCalls) :: (waiting st).map .attachment)

/-- An idle stretch holds no attachment back. -/
theorem waiting_of_idle {st : List Block} (h : st.any Block.opensRun = false) :
    waiting st = [] := by
  have hnone : st.dropWhile (fun b => !b.opensRun) = [] := by
    rw [List.dropWhile_eq_nil_iff]
    intro b hb
    simpa using List.any_eq_false.mp h b hb
  rw [waiting, hnone, List.filterMap_nil]

theorem written (left : Option Nat) (st : List Block) : Written left st := by
  have hopen := isOpen_of left st
  cases hany : st.any Block.opensRun with
  | false =>
    obtain ⟨htexts, hcalls⟩ := any_opensRun_eq_false.mp hany
    refine .idle hany (runOf_of_idle hany) ?_
    rw [hany] at hopen
    have hflush : (Span.of left st).flush.1 = [] := by
      rw [Span.flush, hopen]
      simp [Span.of, hcalls, waiting_of_idle hany]
    rw [write, hflush, List.append_nil]
  | true =>
    have hne : ¬(st.filterMap Block.runText = [] ∧ st.flatMap Block.runCalls = []) := by
      rw [← any_opensRun_eq_false, hany]
      simp
    rw [hany] at hopen
    by_cases hedits : st.filterMap Block.runText = [] ∧ durationWith left st = none ∧
        ∀ call ∈ st.flatMap Block.runCalls, isEditTool call.name = true
    · have honly : (Span.of left st).onlyEdits = true := by
        simp only [Span.onlyEdits, Span.of, hedits.1, hedits.2.1, List.isEmpty_nil,
          Option.isNone_none, Bool.and_self, Bool.true_and, List.all_eq_true]
        exact hedits.2.2
      refine .edits hany hedits.2.1 hedits.2.2 (fun hnil => hne ⟨hedits.1, hnil⟩) ?_ ?_
      · rw [runWith, runOf, if_pos hedits]
      · rw [write, Span.flush, if_pos honly, List.append_assoc]
        rfl
    · have honly : ¬(Span.of left st).onlyEdits = true := by
        simp only [Span.onlyEdits, Span.of, Bool.and_eq_true, List.isEmpty_iff,
          Option.isNone_iff_eq_none, List.all_eq_true, and_assoc]
        exact hedits
      refine .run hany hedits hne ?_ ?_
      · rw [runWith, runOf, if_neg hedits, if_neg hne]
      · rw [write, Span.flush, if_neg honly, if_pos hopen]
        rfl

theorem endsRun_attachments (as : List Attachment) :
    ∀ b ∈ as.map Block.attachment, b.endsRun = false := by
  intro b hb
  obtain ⟨a, -, rfl⟩ := List.mem_map.mp hb
  rfl

/-- What is written of a stretch is a stretch. -/
theorem write_clear (left : Option Nat) (st : List Block) :
    ∀ b ∈ write left st, b.endsRun = false := by
  intro b hb
  cases written left st with
  | idle hopen hrun hwrite =>
    rw [hwrite] at hb
    exact endsRun_attachments _ b hb
  | edits hopen hdur hedits hne hrun hwrite =>
    rw [hwrite, List.mem_append, List.mem_append] at hb
    obtain (hb | hb) | hb := hb
    · exact endsRun_attachments _ b hb
    · obtain ⟨call, hcall, rfl⟩ := List.mem_map.mp hb
      simp [Block.endsRun, hedits call hcall]
    · exact endsRun_attachments _ b hb
  | run hopen hmore hne hrun hwrite =>
    rw [hwrite, List.mem_append, List.mem_cons] at hb
    obtain hb | rfl | hb := hb
    · exact endsRun_attachments _ b hb
    · rfl
    · exact endsRun_attachments _ b hb

theorem isThinking_attachments (as : List Attachment) :
    (as.map Block.attachment).filter Block.isThinking = [] := by
  rw [List.filter_eq_nil_iff]
  intro b hb
  obtain ⟨a, -, rfl⟩ := List.mem_map.mp hb
  simp [Block.isThinking]

/-- The thinking written of a stretch is its run. -/
theorem write_isThinking (left : Option Nat) (st : List Block) :
    (write left st).filter Block.isThinking = (runWith left st).toList := by
  cases written left st with
  | idle hopen hrun hwrite => rw [hwrite, hrun, isThinking_attachments]; rfl
  | edits hopen hdur hedits hne hrun hwrite =>
    have hcalls : ((st.flatMap Block.runCalls).map Block.toolUse).filter Block.isThinking = [] := by
      rw [List.filter_eq_nil_iff]
      intro b hb
      obtain ⟨call, -, rfl⟩ := List.mem_map.mp hb
      simp [Block.isThinking]
    rw [hwrite, hrun, List.filter_append, List.filter_append, hcalls, isThinking_attachments,
      isThinking_attachments]
    rfl
  | run hopen hmore hne hrun hwrite =>
    rw [hwrite, hrun, List.filter_append, List.filter_cons_of_pos (by rfl),
      isThinking_attachments, isThinking_attachments]
    rfl

/-! ## writing twice -/

theorem leading_attachments (as : List Attachment) (st : List Block) :
    leading (as.map .attachment ++ st) = as ++ leading st := by
  induction as with
  | nil => rfl
  | cons a as ih =>
    rw [List.map_cons, List.cons_append, List.cons_append, ← ih]
    rfl

/-- Behind a block that opens the run every attachment waits. -/
theorem leading_of_opensRun {b : Block} (hb : b.opensRun = true) (st : List Block) :
    leading (b :: st) = [] := by
  simp [leading, hb]

theorem waiting_of_opensRun {b : Block} (hb : b.opensRun = true) (st : List Block) :
    waiting (b :: st) = st.filterMap Block.attachment? := by
  simp [waiting, hb, b.attachment?_of_opensRun hb]

theorem of_attachments (left : Option Nat) (as : List Attachment) (st : List Block) :
    Span.of left (as.map .attachment ++ st) = Span.of left st := by
  induction as with
  | nil => rfl
  | cons a as ih =>
    rw [← ih]
    rfl

/-- Texts that are not blank join to one that is not. -/
theorem isBlank_intercalate {sep : String} {texts : List String} (hne : texts ≠ [])
    (h : ∀ text ∈ texts, isBlank text = false) : isBlank (sep.intercalate texts) = false := by
  have happend : ∀ a b : String, isBlank a = false → isBlank (a ++ b) = false := by
    intro a b ha
    simp only [isBlank, String.toList_append, List.all_append] at ha ⊢
    rw [ha, Bool.false_and]
  obtain ⟨text, texts, rfl⟩ := List.exists_cons_of_ne_nil hne
  have htext := h text List.mem_cons_self
  by_cases hnil : texts = []
  · rwa [hnil, String.intercalate_singleton]
  · rw [String.intercalate_cons_of_ne_nil hnil]
    exact happend _ _ (happend _ _ htext)

theorem not_isBlank_of_mem {st : List Block} {text : String}
    (h : text ∈ st.filterMap Block.runText) : isBlank text = false := by
  obtain ⟨b, -, hb⟩ := List.mem_filterMap.mp h
  cases b with
  | thinking text' durationSecs tools =>
    simp only [Block.runText] at hb
    split at hb
    · contradiction
    · next hblank =>
      obtain rfl := Option.some.inj hb
      simpa using hblank
  | _ => contradiction

/-- A run read again gives the text it was written with. -/
theorem runText_run (st : List Block) (durationSecs : Option Nat) (tools : List ToolUse) :
    (Block.thinking ("\n\n".intercalate (st.filterMap Block.runText)) durationSecs tools).runText =
      if st.filterMap Block.runText = [] then none
      else some ("\n\n".intercalate (st.filterMap Block.runText)) := by
  by_cases hnil : st.filterMap Block.runText = []
  · rw [hnil]
    rfl
  · rw [if_neg hnil, Block.runText,
      isBlank_intercalate hnil fun text htext => not_isBlank_of_mem htext]
    rfl

theorem attachment?_attachments (as : List Attachment) :
    (as.map Block.attachment).filterMap Block.attachment? = as := by
  rw [List.filterMap_map]
  exact List.filterMap_some

/-- The changes and what waited for them, read again. -/
theorem of_calls {calls : List ToolUse} (hne : calls ≠ []) (as : List Attachment) :
    Span.of none (calls.map .toolUse ++ as.map .attachment) = ⟨[], none, calls, as⟩ := by
  have htexts : (calls.map Block.toolUse ++ as.map Block.attachment).filterMap Block.runText =
      [] := by
    simp [Block.runText]
  have hdurs : durations (calls.map .toolUse ++ as.map .attachment) = [] := by
    simp [durations, Block.runDuration]
  have hcalls : (calls.map Block.toolUse ++ as.map Block.attachment).flatMap Block.runCalls =
      calls := by
    simp [List.flatMap_map, Block.runCalls]
  have hwaiting : waiting (calls.map .toolUse ++ as.map .attachment) = as := by
    obtain ⟨call, calls, rfl⟩ := List.exists_cons_of_ne_nil hne
    rw [List.map_cons, List.cons_append, waiting_of_opensRun rfl, List.filterMap_append,
      attachment?_attachments]
    simp [Block.attachment?]
  rw [Span.of, htexts, hcalls, hwaiting, durationWith, if_pos hdurs]

/-- A run and what waited for it, read again. -/
theorem of_run {text : String} {dur : Option Nat} (hdur : Word dur) {calls : List ToolUse}
    (hopen : (Block.thinking text dur calls).opensRun = true) (as : List Attachment) :
    Span.of none (.thinking text dur calls :: as.map .attachment) =
      ⟨(Block.thinking text dur calls).runText.toList, dur, calls, as⟩ := by
  have htexts : (Block.thinking text dur calls :: as.map Block.attachment).filterMap
      Block.runText = (Block.thinking text dur calls).runText.toList := by
    rw [List.filterMap_cons]
    cases (Block.thinking text dur calls).runText <;> simp [Block.runText]
  have hdurs : durationWith none (.thinking text dur calls :: as.map .attachment) = dur := by
    have hnone : durations (as.map .attachment) = [] := by simp [durations, Block.runDuration]
    rw [durations] at hnone
    cases dur with
    | none => simp [durationWith, durations, Block.runDuration]
    | some d => simpa [durationWith, durations, hnone, Block.runDuration] using hdur d rfl
  have hcalls : (Block.thinking text dur calls :: as.map Block.attachment).flatMap
      Block.runCalls = calls := by
    simp [List.flatMap_map, Block.runCalls]
  rw [Span.of, htexts, hdurs, hcalls, waiting_of_opensRun hopen, attachment?_attachments]

/-- An open span of more than changes is written as a run. -/
theorem flush_run {s : Span} (hmore : s.onlyEdits = false) (hopen : s.isOpen = true) :
    s.flush.1 =
      .thinking ("\n\n".intercalate s.texts) s.dur s.tools :: s.held.map .attachment := by
  rw [Span.flush, hmore, hopen]
  rfl

/-- **Writing twice.** What is written of a stretch is written as it is, and leaves nothing
over. -/
theorem write_write {left : Option Nat} (hleft : Word left) (st : List Block) :
    write none (write left st) = write left st ∧ leftOver none (write left st) = none := by
  cases written left st with
  | idle hopen hrun hwrite =>
    have hlead := leading_attachments (leading st) []
    have hof := of_attachments none (leading st) []
    have hnone : durations ((leading st).map .attachment) = [] := by
      simp [durations, Block.runDuration]
    rw [List.append_nil] at hlead hof
    rw [hwrite]
    constructor
    · rw [write, hlead, hof, leading_nil, List.append_nil]
      exact List.append_nil _
    · rw [leftOver, durationWith, if_pos hnone, ite_self]
  | edits hopen hdur hedits hne hrun hwrite =>
    have hhead : ∀ rest, leading ((st.flatMap Block.runCalls).map .toolUse ++ rest) = [] := by
      obtain ⟨call, calls, hcalls⟩ := List.exists_cons_of_ne_nil hne
      intro rest
      rw [hcalls]
      exact leading_of_opensRun rfl _
    have hof := of_calls hne (waiting st)
    rw [hwrite, List.append_assoc]
    constructor
    · have honly : (⟨[], none, st.flatMap Block.runCalls, waiting st⟩ : Span).onlyEdits = true := by
        simp only [Span.onlyEdits, List.isEmpty_nil, Option.isNone_none, Bool.and_self,
          Bool.true_and, List.all_eq_true]
        exact hedits
      rw [write, leading_attachments, of_attachments, hhead, hof, Span.flush, if_pos honly,
        List.append_nil]
    · have hdurs := of_attachments none (leading st)
        ((st.flatMap Block.runCalls).map .toolUse ++ (waiting st).map .attachment)
      rw [hof] at hdurs
      have hnone : durationWith none ((leading st).map .attachment ++
          ((st.flatMap Block.runCalls).map .toolUse ++ (waiting st).map .attachment)) = none :=
        congrArg Span.dur hdurs
      rw [leftOver, hnone, ite_self]
  | run hopen hmore hne hrun hwrite =>
    have htext := runText_run st (durationWith left st) (st.flatMap Block.runCalls)
    have hopensRun : (Block.thinking ("\n\n".intercalate (st.filterMap Block.runText))
        (durationWith left st) (st.flatMap Block.runCalls)).opensRun = true := by
      rw [Block.opensRun, htext]
      by_cases hnil : st.filterMap Block.runText = []
      · have hcalls : st.flatMap Block.runCalls ≠ [] := fun h => hne ⟨hnil, h⟩
        obtain ⟨call, calls, hcalls⟩ := List.exists_cons_of_ne_nil hcalls
        simp [Block.runCalls, hcalls]
      · simp [hnil]
    have hof := of_run (hleft.durationWith st) hopensRun (waiting st)
    rw [htext] at hof
    have hflush : (Span.of none (.thinking ("\n\n".intercalate (st.filterMap Block.runText))
        (durationWith left st) (st.flatMap Block.runCalls) ::
          (waiting st).map .attachment)).flush.1 =
        .thinking ("\n\n".intercalate (st.filterMap Block.runText)) (durationWith left st)
          (st.flatMap Block.runCalls) :: (waiting st).map .attachment := by
      by_cases hnil : st.filterMap Block.runText = []
      · rw [hof, if_pos hnil, hnil]
        refine flush_run ?_ ?_
        · have honly : ¬(durationWith left st = none ∧
              ∀ call ∈ st.flatMap Block.runCalls, isEditTool call.name = true) :=
            fun h => hmore ⟨hnil, h⟩
          rw [← Bool.not_eq_true]
          simp only [Span.onlyEdits, Option.toList_none, List.isEmpty_nil, Bool.true_and,
            Bool.and_eq_true, Option.isNone_iff_eq_none, List.all_eq_true]
          exact honly
        · have hcalls : st.flatMap Block.runCalls ≠ [] := fun h => hne ⟨hnil, h⟩
          obtain ⟨call, calls, hcalls⟩ := List.exists_cons_of_ne_nil hcalls
          simp [Span.isOpen, hcalls]
      · rw [hof, if_neg hnil, Option.toList_some]
        have hwrite := @flush_run ⟨["\n\n".intercalate (st.filterMap Block.runText)],
          durationWith left st, st.flatMap Block.runCalls, waiting st⟩ rfl rfl
        rwa [String.intercalate_singleton] at hwrite
    rw [hwrite]
    constructor
    · rw [write, leading_attachments, of_attachments, leading_of_opensRun hopensRun, hflush,
        List.append_nil]
    · rw [leftOver, if_pos]
      rw [List.any_append, List.any_cons, hopensRun, Bool.true_or, Bool.or_true]

/-! ## the whole list -/

/-- The stretches written one after another. -/
def writes (left : Option Nat) : List (List Block) → List (List Block)
  | [] => []
  | st :: sts => write left st :: writes (leftOver left st) sts

theorem writeRest_stretches (left : Option Nat) (rest : List (Block × List Block)) :
    (writeRest left rest).map (·.2) = writes left (rest.map (·.2)) := by
  induction rest generalizing left with
  | nil => rfl
  | cons piece rest ih =>
    rw [writeRest, List.map_cons, List.map_cons, writes, ih]

theorem pieces_write (left : Option Nat) {first : List Block} {rest : List (Block × List Block)}
    (h : Pieces Block.endsRun first rest) :
    Pieces Block.endsRun (write left first) (writeRest (leftOver left first) rest) := by
  induction rest generalizing left first with
  | nil => exact ⟨write_clear left first, by simp [writeRest], by simp [writeRest]⟩
  | cons piece rest ih =>
    obtain ⟨b, next⟩ := piece
    have hrest := ih (leftOver left first) h.tail
    have hb : b.endsRun = true := h.cuts (b, next) List.mem_cons_self
    constructor
    case first => exact write_clear left first
    case cuts =>
      intro piece hp
      obtain rfl | hp := List.mem_cons.mp hp
      · exact hb
      · exact hrest.cuts piece hp
    case clear =>
      intro piece hp
      obtain rfl | hp := List.mem_cons.mp hp
      · exact hrest.first
      · exact hrest.clear piece hp

/-- The pieces the output is cut into. -/
theorem cutAt_coalesceSpans (bs : List Block) :
    cutAt Block.endsRun (coalesceSpans bs) =
      (write none (cutAt Block.endsRun bs).1,
        writeRest (leftOver none (cutAt Block.endsRun bs).1) (cutAt Block.endsRun bs).2) := by
  have hpieces := pieces_cutAt Block.endsRun bs
  have hwrite := coalesceFrom_paste none hpieces
  rw [paste_cutAt] at hwrite
  rw [coalesceSpans, show Span.empty = Span.of none [] from rfl, hwrite,
    cutAt_paste (pieces_write none hpieces)]

/-- **The output's stretches** are the input's, written. -/
theorem stretches_coalesceSpans (bs : List Block) :
    stretches Block.endsRun (coalesceSpans bs) = writes none (stretches Block.endsRun bs) := by
  rw [stretches, cutAt_coalesceSpans, stretches, writes, writeRest_stretches]

/-- Whatever is the same of every stretch written is the same of the list. -/
theorem coalesceSpans_flatMap {f : Block → List β}
    (hf : ∀ left st, (∀ b ∈ st, b.endsRun = false) →
      (write left st).flatMap f = st.flatMap f) (bs : List Block) :
    (coalesceSpans bs).flatMap f = bs.flatMap f := by
  have hpaste : ∀ left first rest, Pieces Block.endsRun first rest →
      (paste (write left first) (writeRest (leftOver left first) rest)).flatMap f =
        (paste first rest).flatMap f := by
    intro left first rest h
    induction rest generalizing left first with
    | nil => simpa [writeRest] using hf left first h.first
    | cons piece rest ih =>
      rw [writeRest, paste_cons, paste_cons, List.flatMap_append, List.flatMap_append,
        hf left first h.first, List.flatMap_cons, List.flatMap_cons, ih _ _ h.tail]
  have hpieces := pieces_cutAt Block.endsRun bs
  have hwrite := coalesceFrom_paste none hpieces
  have hall := hpaste none _ _ hpieces
  rw [← hwrite, paste_cutAt] at hall
  exact hall

/-! ## what is conserved -/

/-- The blocks with the calls of every run in its place. -/
def spread (bs : List Block) : List Block := bs.flatMap Block.members

/-- In a stretch only calls and attachments stand for anything. -/
theorem members_stretch {st : List Block} (h : ∀ b ∈ st, b.endsRun = false) :
    (st.flatMap fun b => b.members.filter fun c => !c.isAttachment) =
        (st.flatMap Block.runCalls).map .toolUse ∧
      (st.flatMap fun b => b.members.filter Block.isAttachment) =
        (st.filterMap Block.attachment?).map .attachment := by
  induction st with
  | nil => exact ⟨rfl, rfl⟩
  | cons b st ih =>
    obtain ⟨hcalls, hattachments⟩ := ih fun c hc => h c (List.mem_cons_of_mem b hc)
    have hb := h b List.mem_cons_self
    rw [List.flatMap_cons, List.flatMap_cons, List.flatMap_cons, hcalls, hattachments,
      List.map_append]
    cases b with
    | thinking text durationSecs tools =>
      simp [Block.members, Block.runCalls, Block.attachment?, Block.isAttachment,
        List.filterMap_cons, List.filter_map, Function.comp_def]
    | toolUse call =>
      simp [Block.members, Block.runCalls, Block.attachment?, Block.isAttachment,
        List.filterMap_cons]
    | attachment a => exact ⟨rfl, rfl⟩
    | _ => simp [Block.endsRun] at hb

/-- The attachments of a stretch stand before the run or behind it. -/
theorem leading_append_waiting (st : List Block) :
    leading st ++ waiting st = st.filterMap Block.attachment? := by
  rw [leading, waiting, ← List.filterMap_append, List.takeWhile_append_dropWhile]

/-- Writing a stretch keeps its calls and its attachments, each in order. -/
theorem write_gives (left : Option Nat) (st : List Block) :
    (write left st).flatMap Block.runCalls = st.flatMap Block.runCalls ∧
      (write left st).filterMap Block.attachment? = st.filterMap Block.attachment? := by
  have hnone : ∀ as : List Attachment, (as.map Block.attachment).flatMap Block.runCalls = [] := by
    intro as
    simp [List.flatMap_map, Block.runCalls]
  rw [← leading_append_waiting st]
  cases written left st with
  | idle hopen hrun hwrite =>
    rw [hwrite, hnone, attachment?_attachments, waiting_of_idle hopen,
      (any_opensRun_eq_false.mp hopen).2, List.append_nil]
    exact ⟨rfl, rfl⟩
  | edits hopen hdur hedits hne hrun hwrite =>
    generalize st.flatMap Block.runCalls = calls at hwrite
    rw [hwrite]
    constructor
    · rw [List.flatMap_append, List.flatMap_append, hnone, hnone]
      simp [List.flatMap_map, Block.runCalls]
    · rw [List.filterMap_append, List.filterMap_append, attachment?_attachments,
        attachment?_attachments]
      simp [Block.attachment?]
  | run hopen hmore hne hrun hwrite =>
    generalize st.flatMap Block.runCalls = calls at hwrite
    rw [hwrite]
    constructor
    · rw [List.flatMap_append, List.flatMap_cons, hnone, hnone]
      simp [Block.runCalls]
    · rw [List.filterMap_append, List.filterMap_cons, attachment?_attachments,
        attachment?_attachments]
      rfl

/-- **Conservation.** Every block but the thinking is there once, at the top or in a run;
attachments keep their order, and so do all the others. -/
theorem spread_coalesceSpans (bs : List Block) :
    ((spread (coalesceSpans bs)).filter fun b => !b.isAttachment) =
        (spread bs).filter (fun b => !b.isAttachment) ∧
      (spread (coalesceSpans bs)).filter Block.isAttachment =
        (spread bs).filter Block.isAttachment := by
  simp only [spread, List.filter_flatMap]
  constructor
  · refine coalesceSpans_flatMap (fun left st hst => ?_) bs
    rw [(members_stretch (write_clear left st)).1, (members_stretch hst).1, (write_gives left st).1]
  · refine coalesceSpans_flatMap (fun left st hst => ?_) bs
    rw [(members_stretch (write_clear left st)).2, (members_stretch hst).2, (write_gives left st).2]

/-- **A second pass changes nothing.** -/
theorem coalesceSpans_idem (bs : List Block) :
    coalesceSpans (coalesceSpans bs) = coalesceSpans bs := by
  have hagain : ∀ left rest, Word left →
      writeRest none (writeRest left rest) = writeRest left rest := by
    intro left rest hword
    induction rest generalizing left with
    | nil => rfl
    | cons piece rest ih =>
      obtain ⟨hwrite, hleft⟩ := write_write hword piece.2
      rw [writeRest, writeRest, hwrite, hleft, ih _ (hword.leftOver piece.2)]
  have hcut := cutAt_coalesceSpans (coalesceSpans bs)
  rw [cutAt_coalesceSpans bs] at hcut
  obtain ⟨hwrite, hleft⟩ := write_write word_none (cutAt Block.endsRun bs).1
  rw [hwrite, hleft, hagain _ _ (word_none.leftOver _), ← cutAt_coalesceSpans bs] at hcut
  rw [← paste_cutAt Block.endsRun (coalesceSpans (coalesceSpans bs)), hcut, paste_cutAt]

/-! ## what is not -/

/-- A run's duration is its own as long as nothing left over shows. -/
theorem runs_iff {left : Option Nat} (hleft : Word left) (sts : List (List Block)) :
    (writes left sts).map (·.filter Block.isThinking) = sts.map (fun st => (ownRun st).toList) ↔
      Settled left sts := by
  induction sts generalizing left with
  | nil => simp [writes, Settled]
  | cons st sts ih =>
    have hhead : (runWith left st).toList = (ownRun st).toList ↔ Fits left st := by
      rw [← runWith_eq_iff hleft]
      cases runWith left st <;> cases ownRun st <;> simp
    rw [writes, List.map_cons, List.map_cons, List.cons.injEq, write_isThinking, hhead,
      ih (hleft.leftOver st), Settled]

theorem Settled.left {left : Option Nat} {sts more : List (List Block)}
    (h : Settled left (sts ++ more)) : Settled left sts := by
  induction sts generalizing left with
  | nil => trivial
  | cons st sts ih => exact ⟨h.1, ih h.2⟩

theorem length_writes (left : Option Nat) (sts : List (List Block)) :
    (writes left sts).length = sts.length := by
  induction sts generalizing left with
  | nil => rfl
  | cons st sts ih => rw [writes, List.length_cons, List.length_cons, ih]

/-- A stretch with its own run is written as if nothing had been left over. -/
theorem write_of_fits {left : Option Nat} {st : List Block} (h : Fits left st) :
    write left st = write none st := by
  have hwrite : ∀ left, write left st = (leading st).map .attachment ++
      (runWith left st).elim ((st.flatMap Block.runCalls).map .toolUse) (fun run => [run]) ++
      (waiting st).map .attachment := by
    intro left
    cases written left st with
    | idle hopen hrun hwrite =>
      rw [hwrite, hrun, waiting_of_idle hopen, (any_opensRun_eq_false.mp hopen).2]
      simp
    | edits hopen hdur hedits hne hrun hwrite => rw [hwrite, hrun]; rfl
    | run hopen hmore hne hrun hwrite => rw [hwrite, hrun]; simp
  have hown : runWith left st = runWith none st := by
    obtain hidle | ⟨hleft, hsum⟩ := h
    · exact (runOf_of_idle hidle).trans (runOf_of_idle hidle).symm
    · have hnone := (runWith_eq_iff word_none st).mpr (.inr ⟨.inl rfl, hsum⟩)
      have hword : Word left := by
        rintro d rfl
        obtain h | ⟨h, -⟩ := hleft
        · cases h
        · rw [Option.some.inj h]
          decide
      rw [hnone]
      exact (runWith_eq_iff hword st).mpr (.inr ⟨hleft, hsum⟩)
  rw [hwrite left, hwrite none, hown]

/-- The list with every stretch written on its own. -/
def regroup (bs : List Block) : List Block :=
  paste (write none (cutAt Block.endsRun bs).1)
    ((cutAt Block.endsRun bs).2.map fun piece => (piece.1, write none piece.2))

/-- **When nothing left over shows, every stretch is written on its own.** -/
theorem coalesceSpans_of_settled {bs : List Block}
    (h : Settled none (stretches Block.endsRun bs)) : coalesceSpans bs = regroup bs := by
  have hrest : ∀ left (rest : List (Block × List Block)), Settled left (rest.map (·.2)) →
      writeRest left rest = rest.map fun piece => (piece.1, write none piece.2) := by
    intro left rest hrest
    induction rest generalizing left with
    | nil => rfl
    | cons piece rest ih =>
      rw [writeRest, write_of_fits hrest.1, ih _ hrest.2]
      rfl
  have hcut := cutAt_coalesceSpans bs
  rw [hrest _ _ h.2] at hcut
  rw [← paste_cutAt Block.endsRun (coalesceSpans bs), hcut, regroup]

theorem regroup_append (xs : List Block) {b : Block} (hb : b.endsRun = true) (ys : List Block) :
    regroup (xs ++ b :: ys) = regroup xs ++ b :: regroup ys := by
  rw [regroup, cutAt_append_cons xs hb ys, List.map_append, paste_append, List.map_cons,
    List.flatMap_cons, regroup, regroup]
  simp [paste]

theorem endsRun_of_opensTurn {b : Block} (h : b.opensTurn = true) : b.endsRun = true := by
  cases b <;> simp_all [Block.opensTurn, Block.endsRun]

theorem stretches_split (xs : List Block) {b : Block} (hb : b.endsRun = true) (ys : List Block) :
    stretches Block.endsRun (xs ++ b :: ys) =
      stretches Block.endsRun xs ++ stretches Block.endsRun ys := by
  rw [stretches, cutAt_append_cons xs hb ys, List.map_append, List.map_cons, ← List.cons_append]
  rfl

/-- What begins at a block that ends runs begins with an empty stretch. -/
theorem settled_cons {b : Block} (hb : b.endsRun = true) {ys : List Block}
    (h : Settled none (stretches Block.endsRun ys)) :
    Settled none (stretches Block.endsRun (b :: ys)) := by
  rw [stretches, cutAt, if_pos hb]
  exact ⟨.inl rfl, h⟩

/-- **The turns are coalesced one by one** when nothing left over shows. -/
theorem coalesceSpans_distributes {xs : List Block} {b : Block} {ys : List Block}
    (h : Settled none (stretches Block.endsRun (xs ++ b :: ys))) (hb : b.endsRun = true)
    (hys : Settled none (stretches Block.endsRun ys)) :
    coalesceSpans (xs ++ b :: ys) = coalesceSpans xs ++ coalesceSpans (b :: ys) := by
  have hall := coalesceSpans_of_settled h
  rw [stretches_split xs hb ys] at h
  have hsplit := regroup_append [] hb ys
  rw [hall, coalesceSpans_of_settled h.left, coalesceSpans_of_settled (settled_cons hb hys),
    regroup_append xs hb ys]
  rw [List.nil_append] at hsplit
  rw [hsplit]
  rfl

/-- Grouping conserves and distributes. -/
structure Grouped (bs : List Block) : Prop where
  /-- the blocks that are no attachments, in order -/
  others : ((spread (coalesceSpans bs)).filter fun b => !b.isAttachment) =
    (spread bs).filter fun b => !b.isAttachment
  /-- the attachments, in order -/
  attachments : (spread (coalesceSpans bs)).filter Block.isAttachment =
    (spread bs).filter Block.isAttachment
  /-- the runs, each in its stretch with its own text, duration and calls -/
  runs : (stretches Block.endsRun (coalesceSpans bs)).map (·.filter Block.isThinking) =
    (stretches Block.endsRun bs).map fun st => (ownRun st).toList
  /-- the turns, one by one -/
  distributes : ∀ xs b ys, bs = xs ++ b :: ys → b.opensTurn = true →
    coalesceSpans bs = coalesceSpans xs ++ coalesceSpans (b :: ys)
  idempotent : coalesceSpans (coalesceSpans bs) = coalesceSpans bs

/-- No duration left over shows and none wraps, whether the list is coalesced whole or from a turn
on. -/
def SettledTurns (bs : List Block) : Prop :=
  Settled none (stretches Block.endsRun bs) ∧ ∀ xs b ys, bs = xs ++ b :: ys →
    b.opensTurn = true → Settled none (stretches Block.endsRun ys)

/-- The runs of a turn that is coalesced apart are its own, if those of the whole list are. -/
theorem Grouped.settled {xs : List Block} {b : Block} {ys : List Block}
    (h : Grouped (xs ++ b :: ys)) (hb : b.opensTurn = true) :
    Settled none (stretches Block.endsRun ys) := by
  have hends := endsRun_of_opensTurn hb
  have hwrite : coalesceSpans (b :: ys) = b :: coalesceSpans ys := by
    rw [coalesceSpans, coalesceFrom, step_endsRun _ hends]
    rfl
  have hruns := h.runs
  rw [h.distributes xs b ys rfl hb, hwrite, stretches_split _ hends, stretches_split _ hends,
    List.map_append, List.map_append] at hruns
  have hlen : ((stretches Block.endsRun (coalesceSpans xs)).map
      (·.filter Block.isThinking)).length =
        ((stretches Block.endsRun xs).map fun st => (ownRun st).toList).length := by
    rw [List.length_map, List.length_map, stretches_coalesceSpans, length_writes]
  have hys := (List.append_inj hruns hlen).2
  rw [stretches_coalesceSpans] at hys
  exact (runs_iff word_none _).mp hys

/-- **Grouping conserves and distributes** exactly when no duration left over by a stretch
without text and calls shows in a run to come, and no run's durations wrap. -/
theorem grouped_iff (bs : List Block) : Grouped bs ↔ SettledTurns bs := by
  constructor
  · intro h
    have hruns := h.runs
    rw [stretches_coalesceSpans] at hruns
    exact ⟨(runs_iff word_none _).mp hruns, fun xs b ys hbs hb => (hbs ▸ h).settled hb⟩
  · intro h
    constructor
    case others => exact (spread_coalesceSpans bs).1
    case attachments => exact (spread_coalesceSpans bs).2
    case runs =>
      rw [stretches_coalesceSpans]
      exact (runs_iff word_none _).mpr h.1
    case distributes =>
      rintro xs b ys rfl hb
      exact coalesceSpans_distributes h.1 (endsRun_of_opensTurn hb) (h.2 xs b ys rfl hb)
    case idempotent => exact coalesceSpans_idem bs

/-- A shell call. -/
def bashCall : ToolUse := ⟨"Bash", "ls", none, none, none, .null⟩

/-- The five seconds of a thought without words show in the run of the next turn; and two thoughts
that fill a machine word take no time. -/
theorem wordless_leaks :
    ¬ Grouped [.thinking "" (some 5) [], .userText "go", .toolUse bashCall] ∧
      coalesceSpans [.thinking "a" (some (2 ^ 64 - 1)) [], .thinking "b" (some 1) []] =
        [.thinking "a\n\nb" (some 0) []] := by
  refine ⟨fun h => ?_, by decide⟩
  have hsplit := h.distributes [.thinking "" (some 5) []] (.userText "go") [.toolUse bashCall]
    rfl rfl
  have hdiffer : coalesceSpans [.thinking "" (some 5) [], .userText "go", .toolUse bashCall] ≠
      coalesceSpans [.thinking "" (some 5) []] ++
        coalesceSpans [.userText "go", .toolUse bashCall] := by decide
  exact hdiffer hsplit

end ClaudeReplay
