import ClaudeReplay.Codex.Answers

/-!
# ClaudeReplay.Codex.Timing

What the fold tells its clock, and what it hands out of it. A line is a beat with its
time, after it the version it names, and after that the reading if it moves the counter
(`beatsOf`); a fold that is parked and resumed tells nothing. The clock of a run has read
the beats of the run (`clock_run`), so every answer handed out with a start is a stretch of
them, and the increment that counts it is its own request's (`answers_timed`).
-/

namespace ClaudeReplay.Codex

open Lib Claude

variable {τ : Type}


/-- The time of a line. -/
def timeOf (epochSecs : String → Option τ) (value : Lib.Value) : Option τ :=
  (strField value "timestamp").bind epochSecs

/-- The version a session names. -/
def versionOf (value : Lib.Value) : Option String :=
  if strField value "type" = some "session_meta" then
    (pointer value ["payload", "cli_version"]).bind Lib.Value.asStr
  else none

namespace CodexMetricsAcc

/-- The beats of a line before its reading. -/
def lineBeats (epochSecs : String → Option τ) (value : Lib.Value) : List (Beat τ) :=
  .line (timeOf epochSecs value) (.of value) ::
    ((versionOf value).map fun version => .version (transportIgnored version)).toList

/-- Whether a line is a reading that moves the counter. -/
def moves (acc : CodexMetricsAcc τ) (value : Lib.Value) : Bool :=
  (readingOf value).any fun r => acc.increment r ≠ {}

/-- What an event tells the clock. -/
def beatsOf (epochSecs : String → Option τ) (acc : CodexMetricsAcc τ) : Event → List (Beat τ)
  | .line value =>
    lineBeats epochSecs value ++ if acc.moves value then [.counted (timeOf epochSecs value)] else []
  | .malformed => [.unread]
  | .resumed => []

/-- What a fold that goes on tells the clock. -/
def beatsFrom (epochSecs : String → Option τ) (acc : CodexMetricsAcc τ) : List Event → List (Beat τ)
  | [] => []
  | e :: events => acc.beatsOf epochSecs e ++ beatsFrom epochSecs (acc.step epochSecs e) events

/-- What a run tells the clock. -/
def beats (epochSecs : String → Option τ) (events : List Event) : List (Beat τ) :=
  beatsFrom epochSecs {} events

theorem beatsFrom_concat (epochSecs : String → Option τ) (acc : CodexMetricsAcc τ)
    (events : List Event) (e : Event) :
    beatsFrom epochSecs acc (events ++ [e]) =
      beatsFrom epochSecs acc events ++
        (events.foldl (step epochSecs) acc).beatsOf epochSecs e := by
  induction events generalizing acc with
  | nil => simp [beatsFrom]
  | cons d events ih => simp [beatsFrom, ih]

/-- The clock of a fold that has noted a line. -/
theorem clock_noteLine (epochSecs : String → Option τ) (acc : CodexMetricsAcc τ)
    (value : Lib.Value) :
    (acc.noteLine epochSecs value).clock =
      (lineBeats epochSecs value).foldl ResponseClock.beat acc.clock := by
  simp only [noteLine, lineBeats, versionOf]
  cases hversion : (pointer value ["payload", "cli_version"]).bind Lib.Value.asStr with
  | none => simp [ResponseClock.beat, timeOf]
  | some version =>
    by_cases hmeta : strField value "type" = some "session_meta" <;>
      simp [hmeta, ResponseClock.beat, timeOf]

theorem clock_noteContext (acc : CodexMetricsAcc τ) (value : Lib.Value) :
    (acc.noteContext value).clock = acc.clock := by
  simp only [noteContext]
  split <;> rfl

/-- What the clock and the answer of a push depend on: the fold once the line is noted. -/
def noted (epochSecs : String → Option τ) (acc : CodexMetricsAcc τ) (value : Lib.Value) :
    CodexMetricsAcc τ :=
  if isTokenCount value then (acc.noteLine epochSecs value).noteContext value
  else acc.noteLine epochSecs value

theorem noted_facts (epochSecs : String → Option τ) (acc : CodexMetricsAcc τ) (value : Lib.Value) :
    (acc.noted epochSecs value).clock =
        (lineBeats epochSecs value).foldl ResponseClock.beat acc.clock ∧
      (acc.noted epochSecs value).lastTotal = acc.lastTotal ∧
      (acc.noted epochSecs value).seenUsage = acc.seenUsage ∧
      (acc.noted epochSecs value).answer = none := by
  have hclock := clock_noteLine epochSecs acc value
  by_cases hcount : isTokenCount value = true
  · rw [noted, if_pos hcount, clock_noteContext]
    refine ⟨hclock, ?_⟩
    simp only [noteContext]
    split <;> exact ⟨rfl, rfl, rfl⟩
  · rw [noted, if_neg hcount]
    exact ⟨hclock, rfl, rfl, rfl⟩

/-- A line is noted first, then counted if it carries a reading. -/
theorem push_eq (epochSecs : String → Option τ) (acc : CodexMetricsAcc τ) (value : Lib.Value) :
    acc.push epochSecs value = (readingOf value).elim (acc.noted epochSecs value)
      ((acc.noted epochSecs value).count epochSecs value) := by
  cases hr : readingOf value <;> simp [push, noted, hr]

/-- The clock takes every beat of a line. -/
theorem clock_push (epochSecs : String → Option τ) (acc : CodexMetricsAcc τ) (value : Lib.Value) :
    (acc.push epochSecs value).clock =
      (acc.beatsOf epochSecs (.line value)).foldl ResponseClock.beat acc.clock := by
  obtain ⟨hclock, hlast, hseen, _⟩ := noted_facts epochSecs acc value
  rw [push_eq, beatsOf, List.foldl_append, ← hclock]
  cases hr : readingOf value with
  | none => simp [moves, hr]
  | some r =>
    simp only [Option.elim_some, count, increment_congr hlast hseen r, moves, hr, Option.any_some]
    by_cases hzero : acc.increment r = {}
    · simp [hzero]
    · simp [hzero, ResponseClock.beat, timeOf]

theorem clock_step (epochSecs : String → Option τ) (acc : CodexMetricsAcc τ) (e : Event) :
    (acc.step epochSecs e).clock = (acc.beatsOf epochSecs e).foldl ResponseClock.beat acc.clock := by
  cases e with
  | line value => exact acc.clock_push epochSecs value
  | malformed => rfl
  | resumed =>
    rw [step, restore_state]
    rfl

/-- A fold's clock has read the beats of its run. -/
theorem clock_run (epochSecs : String → Option τ) (events : List Event) :
    (run epochSecs events).clock = ResponseClock.run (beats epochSecs events) := by
  have hfold : ∀ (acc : CodexMetricsAcc τ), (events.foldl (step epochSecs) acc).clock =
      (beatsFrom epochSecs acc events).foldl ResponseClock.beat acc.clock := by
    induction events with
    | nil => exact fun acc => rfl
    | cons e events ih =>
      intro acc
      rw [List.foldl_cons, ih, beatsFrom, List.foldl_append, clock_step]
  exact hfold {}

/-- What an answer is made of: the reading, and what the clock says of it. -/
theorem answer_push {epochSecs : String → Option τ} {acc : CodexMetricsAcc τ} {value : Lib.Value}
    {a : AnswerTiming τ} (h : (acc.push epochSecs value).answer = some a) :
    ∃ r, readingOf value = some r ∧ acc.increment r ≠ {} ∧
      let counted := (((lineBeats epochSecs value).foldl ResponseClock.beat acc.clock).counted
        (timeOf epochSecs value)).2
      let one := acc.oneRequest r && !acc.inheritedHistory r
      a.sent = counted.1.filter (fun _ => one) ∧ a.first = counted.2.1.filter (fun _ => one) ∧
        a.last = counted.2.2.1 ∧ a.lines = counted.2.2.2 := by
  obtain ⟨hclock, hlast, hseen, hnone⟩ := noted_facts epochSecs acc value
  rw [push_eq] at h
  cases hr : readingOf value with
  | none => simp [hr, hnone] at h
  | some r =>
    have hincrement := increment_congr hlast hseen r
    have hbaseline : (acc.noted epochSecs value).baseline r = acc.baseline r := by
      simp only [baseline, hlast, hseen]
    by_cases hzero : acc.increment r = {}
    · simp [hr, count, hincrement, hzero, hnone] at h
    · have hone : (acc.noted epochSecs value).oneRequest r = acc.oneRequest r := by
        simp only [oneRequest, hincrement]
      have hinherited : (acc.noted epochSecs value).inheritedHistory r = acc.inheritedHistory r := by
        simp only [inheritedHistory, hseen, hbaseline]
      simp only [hr, Option.elim_some, count, hincrement, ne_eq, hzero, not_false_eq_true, if_true,
        hone, hinherited, hclock, Option.some.injEq] at h
      refine ⟨r, rfl, hzero, ?_⟩
      rw [← h]
      exact ⟨rfl, rfl, rfl, rfl⟩

/-! ## answers with a start -/

/-- The time of an event's line. -/
def eventTime (epochSecs : String → Option τ) : Event → Option τ
  | .line value => timeOf epochSecs value
  | _ => none

/-- The beats of an event carry no other time than its line's. -/
theorem mem_times_beatsOf {epochSecs : String → Option τ} {acc : CodexMetricsAcc τ} {e : Event}
    {t : τ} (h : t ∈ times (acc.beatsOf epochSecs e)) : eventTime epochSecs e = some t := by
  obtain ⟨b, hb, htime⟩ := List.mem_filterMap.mp h
  cases e with
  | line value =>
    simp only [beatsOf, lineBeats, List.mem_append, List.mem_cons, Option.mem_toList] at hb
    obtain (rfl | hversion) | hcounted := hb
    · exact htime
    · obtain ⟨version, _, rfl⟩ := Option.map_eq_some_iff.mp hversion
      cases htime
    · split at hcounted
      · rw [List.mem_singleton.mp hcounted] at htime
        exact htime
      · simp at hcounted
  | malformed =>
    rw [List.mem_singleton.mp hb] at htime
    cases htime
  | resumed => simp [beatsOf] at hb

theorem mem_times_beatsFrom {epochSecs : String → Option τ} {acc : CodexMetricsAcc τ}
    {events : List Event} {t : τ} (h : t ∈ times (acc.beatsFrom epochSecs events)) :
    t ∈ events.filterMap (eventTime epochSecs) := by
  induction events generalizing acc with
  | nil => simp [beatsFrom, times] at h
  | cons e events ih =>
    rw [beatsFrom, times_append, List.mem_append] at h
    obtain h | h := h
    · exact List.mem_filterMap.mpr ⟨e, List.mem_cons_self, mem_times_beatsOf h⟩
    · obtain ⟨d, hd, htime⟩ := List.mem_filterMap.mp (ih h)
      exact List.mem_filterMap.mpr ⟨d, List.mem_cons_of_mem e hd, htime⟩

/-- Lines in order of time make beats in order of time. -/
theorem sorted_beatsFrom [Preorder τ] (epochSecs : String → Option τ) (acc : CodexMetricsAcc τ)
    {events : List Event} (h : (events.filterMap (eventTime epochSecs)).Pairwise (· ≤ ·)) :
    (times (acc.beatsFrom epochSecs events)).Pairwise (· ≤ ·) := by
  induction events generalizing acc with
  | nil => exact .nil
  | cons e events ih =>
    rw [beatsFrom, times_append, List.pairwise_append]
    have hrest : (events.filterMap (eventTime epochSecs)).Pairwise (· ≤ ·) :=
      h.sublist ((List.sublist_cons_self e events).filterMap _)
    refine ⟨?_, ih _ hrest, ?_⟩
    · rw [List.pairwise_iff_forall_sublist]
      intro t u htu
      have ht := mem_times_beatsOf (htu.subset List.mem_cons_self)
      have hu := mem_times_beatsOf (htu.subset (List.mem_cons_of_mem t List.mem_cons_self))
      rw [ht, Option.some.injEq] at hu
      exact hu ▸ le_rfl
    · intro t ht u hu
      rw [List.filterMap_cons_some (mem_times_beatsOf ht)] at h
      exact List.rel_of_pairwise_cons h (mem_times_beatsFrom hu)

/-- **An answer handed out with a start**: its increment is one request's, the session's own, and
its times are those of its own beats; in order, where the rollout's are. -/
structure StartedRight [Preorder τ] (epochSecs : String → Option τ) (events : List Event)
    (value : Lib.Value) (a : AnswerTiming τ) : Prop where
  request : ∃ r last, readingOf value = some r ∧ r.last = some last ∧
    last.counts = (run epochSecs events).increment r ∧
    (run epochSecs events).inheritedHistory r = false
  timed : ∃ before run after,
    beats epochSecs (events ++ [Event.line value]) =
      before ++ (run ++ after) ++ [.counted (timeOf epochSecs value)] ∧
    Timed (hiddenAt (before ++ (run ++ after))) before run after a.sent a.first a.last a.lines
  ordered : ((events ++ [Event.line value]).filterMap (eventTime epochSecs)).Pairwise (· ≤ ·) →
    (∀ s ∈ a.sent, ∀ f ∈ a.first, s ≤ f) ∧ (∀ f ∈ a.first, ∀ l ∈ a.last, f ≤ l) ∧
      ∀ s ∈ a.sent, ∀ l ∈ a.last, s ≤ l

/-- **Codex answers are timed from their own lines**, in every rollout, whatever its lines are and
wherever the fold is parked. -/
theorem answers_timed [Preorder τ] (epochSecs : String → Option τ) (events : List Event)
    (value : Lib.Value) (a : AnswerTiming τ)
    (ha : ((run epochSecs events).push epochSecs value).answer = some a)
    (hstart : a.sent ≠ none ∨ a.first ≠ none) : StartedRight epochSecs events value a := by
  obtain ⟨r, hr, hmoves, hsent, hfirst, hlast, hlines⟩ := answer_push ha
  have hone : ((run epochSecs events).oneRequest r && !(run epochSecs events).inheritedHistory r) =
      true := by
    by_contra hnot
    rw [Bool.not_eq_true] at hnot
    simp [hsent, hfirst, hnot] at hstart
  have hfilter (t : Option τ) : t.filter (fun _ => true) = t := by cases t <;> simp
  simp only [hone, hfilter] at hsent hfirst
  have hclock : (lineBeats epochSecs value).foldl ResponseClock.beat (run epochSecs events).clock =
      ResponseClock.run (beats epochSecs events ++ lineBeats epochSecs value) := by
    rw [clock_run, ResponseClock.run, ResponseClock.run, List.foldl_append]
  rw [hclock] at hsent hfirst hlast hlines
  have hbeats : beats epochSecs (events ++ [.line value]) =
      beats epochSecs events ++ lineBeats epochSecs value ++ [.counted (timeOf epochSecs value)] := by
    have hcounted : (run epochSecs events).moves value = true := by simpa [moves, hr] using hmoves
    show beatsFrom epochSecs {} (events ++ [.line value]) = _
    rw [beatsFrom_concat, beatsOf, ← List.append_assoc]
    show _ ++ (if (run epochSecs events).moves value then _ else _) = _
    rw [if_pos hcounted]
    rfl
  rw [hsent, hfirst] at hstart
  obtain ⟨before, run', after, hsplit, htimed⟩ :=
    (run_reads (beats epochSecs events ++ lineBeats epochSecs value)).timed
      (timeOf epochSecs value) hstart
  rw [← hsent, ← hfirst, ← hlast, ← hlines, hsplit] at htimed
  rw [hsplit] at hbeats
  refine ⟨?_, ⟨before, run', after, hbeats, htimed⟩, fun hsorted => htimed.ordered ?_⟩
  · rw [Bool.and_eq_true, Bool.not_eq_true'] at hone
    obtain ⟨hone, hinherited⟩ := hone
    cases hrlast : r.last with
    | none => simp [oneRequest, hrlast] at hone
    | some last =>
      have hcounts : last.counts = (run epochSecs events).increment r ∧
          (run epochSecs events).increment r ≠ {} := by
        simpa [oneRequest, hrlast] using hone
      exact ⟨r, last, hr, hrlast, hcounts.1, hinherited⟩
  · have hall := sorted_beatsFrom epochSecs {} hsorted
    rw [show beatsFrom epochSecs {} (events ++ [.line value]) =
        before ++ (run' ++ after) ++ [.counted (timeOf epochSecs value)] from hbeats,
      times_append, List.pairwise_append] at hall
    exact hall.1

/-- Reads a time of a small clock. -/
def tick (ts : String) : Option Nat := [("a", 1), ("b", 2), ("c", 3), ("d", 4), ("e", 5)].lookup ts

/-- A line of a rollout, with a time or without. -/
def rolloutLine (ts : Option String) (type : String) (payload : List (String × Lib.Value)) :
    Lib.Value :=
  .obj ((ts.map fun t => ("timestamp", .str t)).toList ++
    [("type", .str type), ("payload", .obj payload)])

def promptLine (ts : String) : Lib.Value :=
  rolloutLine (some ts) "response_item" [("type", .str "message"), ("role", .str "user")]

def itemLine (ts : Option String) : Lib.Value :=
  rolloutLine ts "response_item" [("type", .str "reasoning")]

def endedLine (ts : String) : Lib.Value := rolloutLine (some ts) "token_usage_record" []

/-- A reading: what the counter stands at, and what its last request used. -/
def readingLine (ts : String) (total last : Nat) : Lib.Value :=
  rolloutLine (some ts) "event_msg" [("type", .str "token_count"), ("info", .obj [
    ("total_token_usage", .obj [("output_tokens", .num total)]),
    ("last_token_usage", .obj [("output_tokens", .num last)])])]

def metaLine (version : String) : Lib.Value :=
  rolloutLine none "session_meta" [("cli_version", .str version)]

theorem answers_timed_short : StartedRight tick
    [.line (promptLine "a"), .line (itemLine (some "b")), .line (readingLine "c" 100 100), .resumed,
      .line (itemLine (some "d")), .line (itemLine none)]
    (readingLine "e" 300 200) ⟨"e/0/300", "", none, some 3, some 4, some 4, 2, some 200⟩ :=
  answers_timed tick _ _ _ (by decide) (by decide)

/-- An answer after a reading that moved nothing is sent with the reading before it; an item without
a time leaves the time of the one before; and where items are hidden, a reading for which no item
was read and no end recorded leaves the next answer its start. -/
theorem answers_by_design :
    ((run tick [.line (readingLine "a" 100 100), .line (readingLine "b" 100 100),
      .line (itemLine (some "c")), .line (readingLine "d" 300 200)]).answer.map (·.sent)) =
        some (some 1) ∧
    ((run tick [.line (promptLine "a"), .line (itemLine (some "b")), .line (itemLine none),
      .line (readingLine "d" 300 300)]).answer.map fun a => (a.sent, a.last)) =
        some (some 1, some 2) ∧
    ((run tick [.line (metaLine "0.147.0"), .line (promptLine "a"), .line (readingLine "b" 100 100),
      .line (itemLine (some "c")), .line (endedLine "d"), .line (readingLine "e" 300 200)]).answer.map
        (·.sent)) = some (some 2) := by
  decide +kernel

end CodexMetricsAcc

end ClaudeReplay.Codex
