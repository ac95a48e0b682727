import ClaudeReplay.Codex.Counted
import Mathlib.Data.List.DropRight

/-!
# ClaudeReplay.Codex.Answers

What the response clock times. A run tells it beats: a line with its time, a line that
could not be read, a reading that moved the counter, a version that says whether items are
hidden. The answer that a reading is handed with a start is a stretch of the beats before
it (`Timed`): it begins at the first item since the last cut, no cut is in it, and after it
comes nothing, or the recorded end and no item, prompt or compaction.

`Reads` is the invariant that carries this over any order of beats. It says of each field
of the clock what it knows of the beats: the request before the next item, the stretch that
is open, whether an unread line may hide the beginning of the next answer, and whether a
reading may have interrupted one.
-/

namespace ClaudeReplay.Codex

open Lib Claude

/-- What a run tells the clock. -/
inductive Beat (τ : Type)
  | line (ts : Option τ) (kind : RolloutLine)
  | unread
  /-- A reading that moved the counter. -/
  | counted (ts : Option τ)
  | version (hidden : Bool)

namespace Beat

variable {τ : Type}

def isItem : Beat τ → Bool
  | .line _ .item => true
  | _ => false

/-- The time of an item. -/
def itemTime : Beat τ → Option τ
  | .line ts .item => ts
  | _ => none

/-- What ends a run of items: a prompt, a recorded end, a counted reading, an unread line. -/
def cuts : Beat τ → Bool
  | .line _ .prompt | .line _ .ended | .counted _ | .unread => true
  | _ => false

/-- What the next request goes out with or after. -/
def isRequest : Beat τ → Bool
  | .line _ .prompt | .line _ .sent | .line _ .compaction | .counted _ => true
  | _ => false

/-- When. -/
def requestTime : Beat τ → Option τ
  | .line ts .prompt | .line ts .sent | .line ts .compaction | .counted ts => ts
  | _ => none

/-- What leaves the next request's start unknown. -/
def obscures : Beat τ → Bool
  | .line _ .ended | .unread => true
  | _ => false

/-- What tells, after an unread line, that the next item begins an answer. -/
def sights : Beat τ → Bool
  | .line _ .prompt | .line _ .item | .counted _ => true
  | _ => false

/-- What tells, after an interrupted answer, that the next item begins another. -/
def settles : Beat τ → Bool
  | .line _ .prompt | .line _ .ended => true
  | _ => false

/-- Whether items are hidden after a beat. -/
def hides (hidden : Bool) : Beat τ → Bool
  | .version h => h
  | _ => hidden

/-- What may come between a recorded end and the reading: no item, prompt, compaction, end or
unread line. -/
def passes : Beat τ → Bool
  | .line _ .sent | .line _ .other | .version _ => true
  | _ => false

end Beat

namespace ResponseClock

variable {τ : Type}

def beat (c : ResponseClock τ) : Beat τ → ResponseClock τ
  | .line ts kind => c.line ts kind
  | .unread => c.unread
  | .counted ts => (c.counted ts).1
  | .version hidden => { c with itemsUnseen := hidden }

def run (beats : List (Beat τ)) : ResponseClock τ := beats.foldl beat {}

theorem run_concat (beats : List (Beat τ)) (b : Beat τ) : run (beats ++ [b]) = (run beats).beat b := by
  simp [run]

end ResponseClock

/-! ## what the beats say -/

section

variable {τ : Type}

/-- No item since the last cut. -/
def Quiet (beats : List (Beat τ)) : Prop := ∀ b ∈ beats.rtakeWhile (!·.cuts), b.isItem = false

/-- The last version says that items are hidden. -/
def hiddenAt (beats : List (Beat τ)) : Bool :=
  beats.foldl Beat.hides false

/-- The request before the next item went out at `s`. -/
def Requested (beats : List (Beat τ)) (s : τ) : Prop :=
  ∃ pre b gap, beats = pre ++ b :: gap ∧ b.isRequest = true ∧ b.requestTime = some s ∧
    ∀ g ∈ gap, g.isRequest = false ∧ g.obscures = false

/-- After every unread line there is something that tells where the next answer begins. -/
def Sighted (beats : List (Beat τ)) : Prop :=
  ∀ pre post, beats = pre ++ .unread :: post → ∃ b ∈ post, b.sights = true

/-- A reading came while the items of an answer were hidden in part and its end was not recorded,
and nothing since tells where the next answer begins. -/
def Interrupted (beats : List (Beat τ)) : Prop :=
  ∃ pre ts post, beats = pre ++ .counted ts :: post ∧ hiddenAt pre = true ∧ ¬Quiet pre ∧
    ∀ b ∈ post, b.settles = false

theorem quiet_nil : Quiet ([] : List (Beat τ)) := by simp [Quiet]

theorem quiet_concat (beats : List (Beat τ)) (b : Beat τ) :
    Quiet (beats ++ [b]) ↔ b.cuts = true ∨ (b.isItem = false ∧ Quiet beats) := by
  rw [Quiet, List.rtakeWhile_concat]
  cases hcut : b.cuts with
  | true => simp
  | false => simp [Quiet, or_imp, forall_and, and_comm]

@[simp] theorem hiddenAt_concat (beats : List (Beat τ)) (b : Beat τ) :
    hiddenAt (beats ++ [b]) = b.hides (hiddenAt beats) := by
  simp [hiddenAt]

/-- A list that ends in `b`, split at an element: it is `b`, or `b` comes after it. -/
theorem concat_eq_split {α : Type} {xs pre post : List α} {b x : α}
    (h : xs ++ [b] = pre ++ x :: post) :
    (xs = pre ∧ b = x ∧ post = []) ∨ ∃ post', post = post' ++ [b] ∧ xs = pre ++ x :: post' := by
  cases post using List.reverseRecOn with
  | nil =>
    left
    obtain ⟨hpre, hx⟩ := List.append_inj' h rfl
    exact ⟨hpre, by simpa using hx, rfl⟩
  | append_singleton post y =>
    right
    rw [← List.cons_append, ← List.append_assoc] at h
    obtain ⟨hxs, hy⟩ := List.append_inj' h rfl
    exact ⟨post, by rw [List.singleton_inj.mp hy], hxs⟩

theorem requested_concat {beats : List (Beat τ)} {b : Beat τ} {s : τ} (h : Requested beats s)
    (hrequest : b.isRequest = false) (hobscures : b.obscures = false) :
    Requested (beats ++ [b]) s := by
  obtain ⟨pre, r, gap, rfl, hr, hs, hgap⟩ := h
  refine ⟨pre, r, gap ++ [b], by simp, hr, hs, ?_⟩
  simp only [List.mem_append, List.mem_singleton]
  rintro g (hg | rfl)
  · exact hgap g hg
  · exact ⟨hrequest, hobscures⟩

theorem requested_self (beats : List (Beat τ)) {b : Beat τ} {s : τ} (hb : b.isRequest = true)
    (hs : b.requestTime = some s) : Requested (beats ++ [b]) s :=
  ⟨beats, b, [], rfl, hb, hs, by simp⟩

theorem sighted_concat {beats : List (Beat τ)} {b : Beat τ}
    (h : b.sights = true ∨ (Sighted beats ∧ b.cuts = false)) : Sighted (beats ++ [b]) := by
  intro pre post hsplit
  obtain ⟨_, rfl, _⟩ | ⟨post', rfl, hbeats⟩ := concat_eq_split hsplit
  · obtain hsights | ⟨_, hcuts⟩ := h
    · cases hsights
    · cases hcuts
  · obtain hsights | ⟨hbefore, _⟩ := h
    · exact ⟨b, by simp, hsights⟩
    · obtain ⟨c, hc, hsights⟩ := hbefore pre post' hbeats
      exact ⟨c, by simp [hc], hsights⟩

theorem interrupted_concat {beats : List (Beat τ)} {b : Beat τ} (h : Interrupted (beats ++ [b])) :
    b.settles = false ∧ (Interrupted beats ∨
      ∃ ts, b = .counted ts ∧ hiddenAt beats = true ∧ ¬Quiet beats) := by
  obtain ⟨pre, ts, post, hsplit, hhidden, hquiet, hpost⟩ := h
  obtain ⟨rfl, rfl, _⟩ | ⟨post', rfl, hbeats⟩ := concat_eq_split hsplit
  · exact ⟨rfl, .inr ⟨ts, rfl, hhidden, hquiet⟩⟩
  · refine ⟨hpost b (by simp), .inl ⟨pre, ts, post', hbeats, hhidden, hquiet, ?_⟩⟩
    intro c hc
    exact hpost c (by simp [hc])

/-! ## the stretch of an answer -/

/-- The beats of an answer, those before it and those after, and the clock's record of it. -/
structure Stretch (before run after : List (Beat τ)) (o : OpenAnswer τ) : Prop where
  begins : ∃ ts rest, run = .line ts .item :: rest
  whole : ∀ b ∈ run, b.cuts = false
  maximal : Quiet before
  ends : (o.ended = false ∧ after = [] ∧ o.end_ = none ∧ o.uninterrupted = true) ∨
    (o.ended = true ∧ ∃ ts rest, after = .line ts .ended :: rest ∧ o.end_ = ts ∧
      (o.uninterrupted = true → ∀ b ∈ rest, b.passes = true))
  lines : o.lines = run.countP Beat.isItem
  last : o.last = (run.filterMap Beat.itemTime).getLast?
  first : ∀ f, o.first = some f → run.head? = some (.line (some f) .item)
  sent : ∀ s, o.sent = some s → Requested before s
  started : o.sent ≠ none ∨ o.first ≠ none → Sighted before ∧ ¬Interrupted before

theorem itemTime_of_not_item {b : Beat τ} (h : b.isItem = false) : b.itemTime = none := by
  cases b with
  | line ts kind => cases kind <;> simp_all [Beat.isItem, Beat.itemTime]
  | unread => rfl
  | counted ts => rfl
  | version hidden => rfl

namespace Stretch

variable {before run after : List (Beat τ)} {o : OpenAnswer τ} {b : Beat τ} {ts : Option τ}

theorem after_eq_nil (h : Stretch before run after o) (ho : o.ended = false) :
    after = [] ∧ o.end_ = none ∧ o.uninterrupted = true := by
  obtain ⟨_, hrest⟩ | ⟨hended, _⟩ := h.ends
  · exact hrest
  · simp [ho] at hended

/-- A beat that is neither an item nor a cut, while the answer is being written. -/
theorem extend (h : Stretch before run after o) (ho : o.ended = false) (hcuts : b.cuts = false)
    (hitem : b.isItem = false) : Stretch before (run ++ [b]) [] o where
  begins := by
    obtain ⟨ts, rest, hrun⟩ := h.begins
    exact ⟨ts, rest ++ [b], by simp [hrun]⟩
  whole := by
    simp only [List.mem_append, List.mem_singleton]
    rintro d (hd | rfl)
    · exact h.whole d hd
    · exact hcuts
  maximal := h.maximal
  ends := .inl ⟨ho, rfl, (h.after_eq_nil ho).2⟩
  lines := by simp [h.lines, hitem]
  last := by simp [h.last, itemTime_of_not_item hitem]
  first := by
    intro f hf
    simp [List.head?_append, h.first f hf]
  sent := h.sent
  started := h.started

/-- Another item. -/
theorem item (h : Stretch before run after o) (ho : o.ended = false) :
    Stretch before (run ++ [.line ts .item]) []
      { o with last := ts.or o.last, lines := o.lines + 1 } where
  begins := by
    obtain ⟨first, rest, hrun⟩ := h.begins
    exact ⟨first, rest ++ [.line ts .item], by simp [hrun]⟩
  whole := by
    simp only [List.mem_append, List.mem_singleton]
    rintro d (hd | rfl)
    · exact h.whole d hd
    · rfl
  maximal := h.maximal
  ends := .inl ⟨ho, rfl, (h.after_eq_nil ho).2⟩
  lines := by simp [h.lines, Beat.isItem]
  last := by
    cases ts <;> simp [h.last, Beat.itemTime]
  first := by
    intro f hf
    simp [List.head?_append, h.first f hf]
  sent := h.sent
  started := h.started

/-- A beat that may come after the end. -/
theorem follow (h : Stretch before run after o) (ho : o.ended = true) (hb : b.passes = true) :
    Stretch before run (after ++ [b]) o where
  begins := h.begins
  whole := h.whole
  maximal := h.maximal
  ends := by
    obtain ⟨hended, _⟩ | ⟨_, end_, rest, rfl, hend, hrest⟩ := h.ends
    · simp [ho] at hended
    · refine .inr ⟨ho, end_, rest ++ [b], rfl, hend, fun hun => ?_⟩
      simp only [List.mem_append, List.mem_singleton]
      rintro d (hd | rfl)
      · exact hrest hun d hd
      · exact hb
  lines := h.lines
  last := h.last
  first := h.first
  sent := h.sent
  started := h.started

/-- A prompt or a compaction after the end. -/
theorem interrupt (h : Stretch before run after o) (ho : o.ended = true) :
    Stretch before run (after ++ [b]) { o with uninterrupted := false } where
  begins := h.begins
  whole := h.whole
  maximal := h.maximal
  ends := by
    obtain ⟨hended, _⟩ | ⟨_, end_, rest, rfl, hend, _⟩ := h.ends
    · simp [ho] at hended
    · exact .inr ⟨ho, end_, rest ++ [b], rfl, hend, by simp⟩
  lines := h.lines
  last := h.last
  first := h.first
  sent := h.sent
  started := h.started

/-- The response ended. -/
theorem end_ (h : Stretch before run after o) (ho : o.ended = false) :
    Stretch before run (after ++ [.line ts .ended]) { o with ended := true, end_ := ts } where
  begins := h.begins
  whole := h.whole
  maximal := h.maximal
  ends := by
    rw [(h.after_eq_nil ho).1]
    exact .inr ⟨rfl, ts, [], rfl, rfl, by simp⟩
  lines := h.lines
  last := h.last
  first := h.first
  sent := h.sent
  started := h.started

end Stretch

/-! ## the invariant -/

/-- What the clock knows of the beats. -/
structure Reads (beats : List (Beat τ)) (c : ResponseClock τ) : Prop where
  hidden : c.itemsUnseen = hiddenAt beats
  prev : ∀ s, c.prev = some s → Requested beats s
  running : (∃ o, c.open_ = some o ∧ o.ended = false) ↔ ¬Quiet beats
  stretch : ∀ o, c.open_ = some o → ∃ before run after,
    beats = before ++ (run ++ after) ∧ Stretch before run after o
  sighted : c.blind = false → Sighted beats
  interrupted : Interrupted beats → c.continuationUnknown = true ∧
    (c.blind = true ∨ ∃ o, c.open_ = some o ∧ o.ended = false ∧ o.sent = none ∧ o.first = none)

namespace Reads

variable {beats : List (Beat τ)} {c : ResponseClock τ} {ts : Option τ}

theorem init : Reads ([] : List (Beat τ)) {} where
  hidden := rfl
  prev := by simp
  running := by simp [quiet_nil]
  stretch := by simp
  sighted := by
    intro _ pre post hsplit
    simp at hsplit
  interrupted := by
    rintro ⟨pre, ts, post, hsplit, _⟩
    simp at hsplit

/-- The answer that an item opens. -/
theorem stretch_opening (h : Reads beats c) (hquiet : Quiet beats) :
    Stretch beats [.line ts .item] [] (c.opening ts) where
  begins := ⟨ts, [], rfl⟩
  whole := by simp [Beat.cuts]
  maximal := hquiet
  ends := .inl ⟨rfl, rfl, rfl, rfl⟩
  lines := rfl
  last := by cases ts <;> rfl
  first := by
    intro f hf
    simp only [ResponseClock.opening] at hf
    split at hf
    · cases hf
    · rw [hf]
      rfl
  sent := by
    intro s hs
    simp only [ResponseClock.opening] at hs
    split at hs
    · cases hs
    · exact h.prev s hs
  started := by
    intro hstart
    have hseen : c.blind = false := by
      by_contra hblind
      simp [ResponseClock.opening, hblind] at hstart
    refine ⟨h.sighted hseen, fun hinterrupted => ?_⟩
    obtain ⟨_, hblind | ⟨o, ho, hended, _⟩⟩ := h.interrupted hinterrupted
    · simp [hseen] at hblind
    · exact h.running.mp ⟨o, ho, hended⟩ hquiet

theorem item (h : Reads beats c) : Reads (beats ++ [.line ts .item]) (c.line ts .item) := by
  have hnotQuiet : ¬Quiet (beats ++ [Beat.line ts .item]) := by
    rw [quiet_concat]
    simp [Beat.cuts, Beat.isItem]
  by_cases hrunning : ∃ o, c.open_ = some o ∧ o.ended = false
  · obtain ⟨o, ho, hended⟩ := hrunning
    have hline : c.line ts .item =
        { c with open_ := some { o with last := ts.or o.last, lines := o.lines + 1 } } := by
      simp [ResponseClock.line, ho, hended]
    rw [hline]
    exact {
      hidden := by simp [h.hidden, Beat.hides]
      prev := fun s hs => requested_concat (h.prev s hs) rfl rfl
      running := ⟨fun _ => hnotQuiet, fun _ => ⟨_, rfl, hended⟩⟩
      stretch := by
        intro o' ho'
        obtain rfl := Option.some.inj ho'
        obtain ⟨before, run, after, hbeats, hstretch⟩ := h.stretch o ho
        refine ⟨before, run ++ [.line ts .item], [], ?_, hstretch.item hended⟩
        simp [hbeats, (hstretch.after_eq_nil hended).1]
      sighted := fun hblind => sighted_concat (.inr ⟨h.sighted hblind, rfl⟩)
      interrupted := by
        intro hinterrupted
        obtain ⟨_, hbefore | ⟨_, hcounted, _⟩⟩ := interrupted_concat hinterrupted
        · obtain ⟨hunknown, hblind | ⟨o', ho', hended', hsent, hfirst⟩⟩ := h.interrupted hbefore
          · exact ⟨hunknown, .inl hblind⟩
          · obtain rfl : o = o' := by simpa [ho] using ho'
            exact ⟨hunknown, .inr ⟨_, rfl, hended, hsent, hfirst⟩⟩
        · cases hcounted }
  · have hquiet : Quiet beats := by
      by_contra hne
      exact hrunning (h.running.mpr hne)
    have hline : c.line ts .item = { c with open_ := some (c.opening ts), blind := false } := by
      simp only [ResponseClock.line]
      cases ho : c.open_ with
      | none => rfl
      | some o =>
        have hended : o.ended = true := by
          by_contra hne
          exact hrunning ⟨o, ho, by simpa using hne⟩
        simp [hended]
    rw [hline]
    exact {
      hidden := by simp [h.hidden, Beat.hides]
      prev := fun s hs => requested_concat (h.prev s hs) rfl rfl
      running := ⟨fun _ => hnotQuiet, fun _ => ⟨_, rfl, rfl⟩⟩
      stretch := by
        intro o ho
        obtain rfl := Option.some.inj ho
        exact ⟨beats, [.line ts .item], [], by simp, h.stretch_opening hquiet⟩
      sighted := fun _ => sighted_concat (.inl rfl)
      interrupted := by
        intro hinterrupted
        obtain ⟨_, hbefore | ⟨_, hcounted, _⟩⟩ := interrupted_concat hinterrupted
        · obtain ⟨hunknown, hblind | ⟨o, ho, hended, _⟩⟩ := h.interrupted hbefore
          · exact ⟨hunknown, .inr ⟨_, rfl, rfl, by simp [ResponseClock.opening, hblind],
              by simp [ResponseClock.opening, hblind]⟩⟩
          · exact absurd ⟨o, ho, hended⟩ hrunning
        · cases hcounted }

theorem passes_plain {b : Beat τ} (h : b.passes = true) : b.cuts = false ∧ b.isItem = false := by
  cases b with
  | line ts kind => cases kind <;> simp_all [Beat.passes, Beat.cuts, Beat.isItem]
  | unread => simp [Beat.passes] at h
  | counted ts => simp [Beat.passes] at h
  | version hidden => exact ⟨rfl, rfl⟩

theorem quiet_of_plain {b : Beat τ} (hcuts : b.cuts = false) (hitem : b.isItem = false) :
    Quiet (beats ++ [b]) ↔ Quiet beats := by
  simp [quiet_concat, hcuts, hitem]

/-- A beat that is neither an item nor a cut, as far as the unread lines and the interrupted
readings go. -/
theorem interrupted_of_plain {b : Beat τ} (hcuts : b.cuts = false)
    (hinterrupted : Interrupted (beats ++ [b])) : Interrupted beats := by
  obtain ⟨_, hbefore | ⟨ts, rfl, _⟩⟩ := interrupted_concat hinterrupted
  · exact hbefore
  · cases hcuts

/-- A line sent to the model, a line that is nothing to the clock, a version. -/
theorem pass (h : Reads beats c) {b : Beat τ} (hb : b.passes = true) {c' : ResponseClock τ}
    (hopen : c'.open_ = c.open_) (hblind : c'.blind = c.blind)
    (hunknown : c'.continuationUnknown = c.continuationUnknown)
    (hhidden : c'.itemsUnseen = b.hides c.itemsUnseen)
    (hprev : ∀ s, c'.prev = some s → Requested (beats ++ [b]) s) : Reads (beats ++ [b]) c' := by
  obtain ⟨hcuts, hitem⟩ := passes_plain hb
  exact {
    hidden := by rw [hhidden, h.hidden, hiddenAt_concat]
    prev := hprev
    running := by rw [hopen, h.running, quiet_of_plain hcuts hitem]
    stretch := by
      intro o ho
      rw [hopen] at ho
      obtain ⟨before, run, after, hbeats, hstretch⟩ := h.stretch o ho
      cases hended : o.ended with
      | false =>
        refine ⟨before, run ++ [b], [], ?_, hstretch.extend hended hcuts hitem⟩
        simp [hbeats, (hstretch.after_eq_nil hended).1]
      | true =>
        exact ⟨before, run, after ++ [b], by simp [hbeats], hstretch.follow hended hb⟩
    sighted := by
      rw [hblind]
      exact fun hb => sighted_concat (.inr ⟨h.sighted hb, hcuts⟩)
    interrupted := by
      rw [hopen, hblind, hunknown]
      exact fun hi => h.interrupted (interrupted_of_plain hcuts hi) }

theorem compaction (h : Reads beats c) :
    Reads (beats ++ [.line ts .compaction]) (c.line ts .compaction) where
  hidden := by simp [h.hidden, Beat.hides, ResponseClock.line]
  prev := fun s hs => requested_self beats rfl hs
  running := by
    rw [quiet_of_plain rfl rfl, ← h.running]
    simp only [ResponseClock.line]
    cases ho : c.open_ with
    | none => simp
    | some o => cases hended : o.ended <;> simp [hended]
  stretch := by
    intro o' ho'
    obtain ⟨o, ho, rfl⟩ := Option.map_eq_some_iff.mp ho'
    obtain ⟨before, run, after, hbeats, hstretch⟩ := h.stretch o ho
    by_cases hended : o.ended = true
    · rw [if_pos hended]
      exact ⟨before, run, after ++ [.line ts .compaction], by simp [hbeats],
        hstretch.interrupt hended⟩
    · rw [if_neg hended]
      rw [Bool.not_eq_true] at hended
      refine ⟨before, run ++ [.line ts .compaction], [], ?_, hstretch.extend hended rfl rfl⟩
      simp [hbeats, (hstretch.after_eq_nil hended).1]
  sighted := fun hblind => sighted_concat (.inr ⟨h.sighted hblind, rfl⟩)
  interrupted := by
    intro hinterrupted
    obtain ⟨hunknown, hblind | ⟨o, ho, hended, hsent, hfirst⟩⟩ :=
      h.interrupted (interrupted_of_plain rfl hinterrupted)
    · exact ⟨hunknown, .inl hblind⟩
    · exact ⟨hunknown, .inr ⟨o, by simp [ResponseClock.line, ho, hended], hended, hsent, hfirst⟩⟩

theorem not_interrupted_of_settles {b : Beat τ} (hb : b.settles = true) :
    ¬Interrupted (beats ++ [b]) := by
  intro hinterrupted
  have hnot := (interrupted_concat hinterrupted).1
  simp [hb] at hnot

theorem prompt (h : Reads beats c) : Reads (beats ++ [.line ts .prompt]) (c.line ts .prompt) where
  hidden := by simp [h.hidden, Beat.hides, ResponseClock.line]
  prev := fun s hs => requested_self beats rfl hs
  running := by
    simp only [quiet_concat, Beat.cuts, true_or, not_true, iff_false, ResponseClock.line]
    cases ho : c.open_ with
    | none => simp
    | some o => cases hended : o.ended <;> simp [hended]
  stretch := by
    intro o' ho'
    simp only [ResponseClock.line] at ho'
    cases ho : c.open_ with
    | none => simp [ho] at ho'
    | some o =>
      cases hended : o.ended with
      | false => simp [ho, hended] at ho'
      | true =>
        obtain rfl : { o with uninterrupted := false } = o' := by simpa [ho, hended] using ho'
        obtain ⟨before, run, after, hbeats, hstretch⟩ := h.stretch o ho
        exact ⟨before, run, after ++ [.line ts .prompt], by simp [hbeats],
          hstretch.interrupt hended⟩
  sighted := fun _ => sighted_concat (.inl rfl)
  interrupted := fun hinterrupted => absurd hinterrupted (not_interrupted_of_settles rfl)

theorem ended (h : Reads beats c) : Reads (beats ++ [.line ts .ended]) (c.line ts .ended) where
  hidden := by simp [h.hidden, Beat.hides, ResponseClock.line]
  prev := by simp [ResponseClock.line]
  running := by
    simp only [quiet_concat, Beat.cuts, true_or, not_true, iff_false, ResponseClock.line]
    cases ho : c.open_ with
    | none => simp
    | some o => cases hended : o.ended <;> simp
  stretch := by
    intro o' ho'
    simp only [ResponseClock.line] at ho'
    cases ho : c.open_ with
    | none => simp [ho] at ho'
    | some o =>
      cases hended : o.ended with
      | true => simp [ho, hended] at ho'
      | false =>
        obtain rfl : { o with ended := true, end_ := ts } = o' := by simpa [ho, hended] using ho'
        obtain ⟨before, run, after, hbeats, hstretch⟩ := h.stretch o ho
        exact ⟨before, run, after ++ [.line ts .ended], by simp [hbeats], hstretch.end_ hended⟩
  sighted := by
    intro hblind
    refine fun pre post hsplit => ?_
    obtain ⟨_, hb, _⟩ | ⟨post', rfl, hbeats⟩ := concat_eq_split hsplit
    · cases hb
    · obtain ⟨d, hd, hsights⟩ := h.sighted hblind pre post' hbeats
      exact ⟨d, by simp [hd], hsights⟩
  interrupted := fun hinterrupted => absurd hinterrupted (not_interrupted_of_settles rfl)

theorem unread (h : Reads beats c) : Reads (beats ++ [.unread]) c.unread where
  hidden := by simp [h.hidden, Beat.hides, ResponseClock.unread]
  prev := by simp [ResponseClock.unread]
  running := by simp [quiet_concat, Beat.cuts, ResponseClock.unread]
  stretch := by simp [ResponseClock.unread]
  sighted := by simp [ResponseClock.unread]
  interrupted := by
    intro hinterrupted
    obtain ⟨_, hbefore | ⟨_, hcounted, _⟩⟩ := interrupted_concat hinterrupted
    · exact ⟨(h.interrupted hbefore).1, .inl rfl⟩
    · cases hcounted

/-- A counted reading closes what is open. -/
theorem counted_open (c : ResponseClock τ) (ts : Option τ) : (c.counted ts).1.open_ = none := by
  simp only [ResponseClock.counted]
  split
  · split
    · rfl
    · split <;> rfl
  · rfl

theorem counted (h : Reads beats c) : Reads (beats ++ [.counted ts]) (c.counted ts).1 := by
  have hsame : (c.counted ts).1.itemsUnseen = c.itemsUnseen ∧ (c.counted ts).1.prev = ts := by
    simp only [ResponseClock.counted]
    split
    · split
      · exact ⟨rfl, rfl⟩
      · split <;> exact ⟨rfl, rfl⟩
    · exact ⟨rfl, rfl⟩
  exact {
    hidden := by rw [hsame.1, h.hidden, hiddenAt_concat]; rfl
    prev := by
      rw [hsame.2]
      exact fun s hs => requested_self beats rfl hs
    running := by simp [quiet_concat, Beat.cuts, counted_open]
    stretch := by simp [counted_open]
    sighted := fun _ => sighted_concat (.inl rfl)
    interrupted := by
      intro hinterrupted
      rw [counted_open]
      obtain ⟨_, hbefore | ⟨_, _, hhidden, hnotQuiet⟩⟩ := interrupted_concat hinterrupted
      · have hunknown := (h.interrupted hbefore).1
        simp only [ResponseClock.counted]
        split
        · split
          · exact ⟨rfl, .inl rfl⟩
          · split <;> exact ⟨hunknown, .inl hunknown⟩
        · exact ⟨hunknown, .inl hunknown⟩
      · obtain ⟨o, ho, hended⟩ := h.running.mpr hnotQuiet
        have hunseen : c.itemsUnseen = true := h.hidden.trans hhidden
        simp [ResponseClock.counted, ho, hended, hunseen] }

/-- Any beat. -/
theorem beat (h : Reads beats c) (b : Beat τ) : Reads (beats ++ [b]) (c.beat b) := by
  cases b with
  | line ts kind =>
    cases kind with
    | item => exact h.item
    | prompt => exact h.prompt
    | sent => exact h.pass rfl rfl rfl rfl rfl fun s hs => requested_self beats rfl hs
    | compaction => exact h.compaction
    | ended => exact h.ended
    | other =>
      exact h.pass rfl rfl rfl rfl rfl fun s hs => requested_concat (h.prev s hs) rfl rfl
  | unread => exact h.unread
  | counted ts => exact h.counted
  | version hidden =>
    exact h.pass rfl rfl rfl rfl rfl fun s hs => requested_concat (h.prev s hs) rfl rfl

end Reads

/-- The clock reads any beats, in any order. -/
theorem run_reads (beats : List (Beat τ)) : Reads beats (ResponseClock.run beats) := by
  induction beats using List.reverseRecOn with
  | nil => exact .init
  | append_singleton beats b ih =>
    rw [ResponseClock.run_concat]
    exact ih.beat b

/-! ## timed answers -/

/-- When the response ended, if what comes after the items says it. -/
def endTime : List (Beat τ) → Option τ
  | .line ts .ended :: _ => ts
  | _ => none

/-- An answer handed out with a start: its beats, those before them and those between them and the
reading. -/
structure Timed (hidden : Bool) (before run after : List (Beat τ)) (sent first last : Option τ)
    (lines : Nat) : Prop where
  /-- It begins at an item, the first one since the last cut. -/
  begins : ∃ ts rest, run = .line ts .item :: rest
  maximal : Quiet before
  whole : ∀ b ∈ run, b.cuts = false
  /-- It reaches to the reading, where every item is read, or to its recorded end, which no item,
  prompt, compaction, end or unread line follows. -/
  ends : (after = [] ∧ hidden = false) ∨
    ∃ ts rest, after = .line ts .ended :: rest ∧ ∀ b ∈ rest, b.passes = true
  sent : ∀ s, sent = some s → Requested before s
  first : ∀ f, first = some f → run.head? = some (.line (some f) .item)
  last : last = (endTime after).or (if hidden then none else (run.filterMap Beat.itemTime).getLast?)
  lines : lines = run.countP Beat.isItem
  /-- No unread line hides where it begins, and it continues no interrupted answer. -/
  sighted : Sighted before
  fresh : ¬Interrupted before

theorem Reads.timed {beats : List (Beat τ)} {c : ResponseClock τ} (h : Reads beats c) (ts : Option τ)
    (hstart : (c.counted ts).2.1 ≠ none ∨ (c.counted ts).2.2.1 ≠ none) :
    ∃ before run after, beats = before ++ (run ++ after) ∧
      Timed (hiddenAt beats) before run after (c.counted ts).2.1 (c.counted ts).2.2.1
        (c.counted ts).2.2.2.1 (c.counted ts).2.2.2.2 := by
  rw [← h.hidden]
  cases ho : c.open_ with
  | none => simp [ResponseClock.counted, ho] at hstart
  | some o =>
    by_cases hpart : (c.itemsUnseen && !o.ended) = true
    · simp [ResponseClock.counted, ho, hpart] at hstart
    · by_cases hun : o.uninterrupted = true
      · have hcounted : (c.counted ts).2 =
            (o.sent, o.first, o.end_.or (if c.itemsUnseen then none else o.last), o.lines) := by
          simp only [ResponseClock.counted, ho, if_neg hpart, if_pos hun]
        rw [hcounted] at hstart ⊢
        obtain ⟨before, run, after, hbeats, hstretch⟩ := h.stretch o ho
        obtain ⟨hsighted, hfresh⟩ := hstretch.started hstart
        have hends : ((after = [] ∧ c.itemsUnseen = false) ∨ ∃ ts rest,
            after = .line ts .ended :: rest ∧ ∀ b ∈ rest, b.passes = true) ∧
            o.end_ = endTime after := by
          obtain ⟨hended, rfl, hend, _⟩ | ⟨_, end_, rest, rfl, hend, hrest⟩ := hstretch.ends
          · exact ⟨.inl ⟨rfl, by simpa [hended] using hpart⟩, hend⟩
          · exact ⟨.inr ⟨end_, rest, rfl, hrest hun⟩, hend⟩
        exact ⟨before, run, after, hbeats, {
          begins := hstretch.begins
          maximal := hstretch.maximal
          whole := hstretch.whole
          ends := hends.1
          sent := hstretch.sent
          first := hstretch.first
          last := by rw [hends.2, hstretch.last]
          lines := hstretch.lines
          sighted := hsighted
          fresh := hfresh }⟩
      · simp [ResponseClock.counted, ho, hpart, hun] at hstart

/-! ## in order of time -/

/-- The time a beat carries. -/
def Beat.time : Beat τ → Option τ
  | .line ts _ => ts
  | .counted ts => ts
  | _ => none

/-- The times of the beats. -/
def times (beats : List (Beat τ)) : List τ := beats.filterMap Beat.time

theorem times_append (beats more : List (Beat τ)) :
    times (beats ++ more) = times beats ++ times more :=
  List.filterMap_append

theorem mem_times_of_requested {beats : List (Beat τ)} {s : τ} (h : Requested beats s) :
    s ∈ times beats := by
  obtain ⟨pre, b, gap, rfl, _, hs, _⟩ := h
  refine List.mem_filterMap.mpr ⟨b, by simp, ?_⟩
  cases b with
  | line ts kind => cases kind <;> first | exact hs | cases hs
  | counted ts => exact hs
  | unread => cases hs
  | version hidden => cases hs

theorem itemTimes_sublist (beats : List (Beat τ)) :
    (beats.filterMap Beat.itemTime).Sublist (times beats) := by
  induction beats with
  | nil => exact .slnil
  | cons b beats ih =>
    simp only [times, List.filterMap_cons] at ih ⊢
    cases b with
    | line ts kind =>
      cases kind <;> cases ts <;> simp only [Beat.itemTime, Beat.time] <;>
        first | exact ih.cons_cons _ | exact ih.cons _ | exact ih
    | counted ts => cases ts <;> simp only [Beat.itemTime, Beat.time] <;> first | exact ih.cons _ | exact ih
    | unread => exact ih
    | version hidden => exact ih

/-- Where no time is before an earlier one, an answer is sent before it begins, and begins before
it ends. -/
theorem Timed.ordered [Preorder τ] {hidden : Bool} {before run after : List (Beat τ)}
    {sent first last : Option τ} {lines : Nat} (h : Timed hidden before run after sent first last lines)
    (hsorted : (times (before ++ (run ++ after))).Pairwise (· ≤ ·)) :
    (∀ s ∈ sent, ∀ f ∈ first, s ≤ f) ∧ (∀ f ∈ first, ∀ l ∈ last, f ≤ l) ∧
      ∀ s ∈ sent, ∀ l ∈ last, s ≤ l := by
  rw [times_append, times_append, List.pairwise_append, List.pairwise_append] at hsorted
  obtain ⟨_, ⟨hrun, _, hcross⟩, hbefore⟩ := hsorted
  have hsent : ∀ s ∈ sent, s ∈ times before := fun s hs => mem_times_of_requested (h.sent s hs)
  have hfirst : ∀ f ∈ first, ∃ rest, times run = f :: times rest := by
    intro f hf
    obtain ⟨rest, hrest⟩ := List.head?_eq_some_iff.mp (h.first f hf)
    exact ⟨rest, by rw [hrest]; rfl⟩
  have hlast : ∀ l ∈ last, l ∈ times run ∨ l ∈ times after := by
    intro l hl
    rw [h.last, Option.mem_def, Option.or_eq_some_iff] at hl
    obtain hend | ⟨_, hitem⟩ := hl
    · right
      obtain ⟨rfl, _⟩ | ⟨ts, rest, rfl, _⟩ := h.ends
      · cases hend
      · exact List.mem_filterMap.mpr ⟨_, List.mem_cons_self, hend⟩
    · left
      cases hidden with
      | true => cases hitem
      | false => exact (itemTimes_sublist run).mem (List.mem_of_getLast? hitem)
  refine ⟨fun s hs f hf => ?_, fun f hf l hl => ?_, fun s hs l hl => ?_⟩
  · obtain ⟨rest, hrest⟩ := hfirst f hf
    exact hbefore s (hsent s hs) f (by simp [hrest])
  · obtain ⟨rest, hrest⟩ := hfirst f hf
    obtain hl | hl := hlast l hl
    · rw [hrest] at hl hrun
      obtain rfl | hl := List.mem_cons.mp hl
      · exact le_rfl
      · exact List.rel_of_pairwise_cons hrun hl
    · exact hcross f (by simp [hrest]) l hl
  · obtain hl | hl := hlast l hl
    · exact hbefore s (hsent s hs) l (by simp [hl])
    · exact hbefore s (hsent s hs) l (by simp [hl])

end

end ClaudeReplay.Codex
