import ClaudeReplay.Lib.Table
import Mathlib.Data.List.Chain
import Mathlib.Data.List.Basic
import Mathlib.Data.List.DropRight

/-!
# ClaudeReplay.Monitor.StateStream

The agent-state pass: once a tick the monitor derives a verdict for every session it
lists, publishes what changed to a stream of events, and rewrites a snapshot.

A change is published at once when its reason is one that a consumer waits for, and
otherwise when it was derived on two ticks in a row (`stage`). The first verdict of a
session is not announced when it says no more than that the session has exited. A session
that leaves the list is forgotten, so what the stream tells is told for each stay in the
list by itself (`Told`).

How a verdict is derived is not modelled here: a tick is given, for each session, what
the derivation and herdr made of it.
-/

namespace ClaudeReplay.StateStream

open Lib

inductive AgentState
  | busy | wait | idle
  deriving DecidableEq, Repr

/-- Why the state is what it is. -/
inductive StateReason
  | exited | exitedMidWork | question | planApproval | queuedPrompt | tool | thinking
  | permission | endedQuestion | error | failed | done | starting | fleet | stalled
  deriving DecidableEq, Repr

inductive Confidence
  | observed | inferred
  deriving DecidableEq, Repr

/-- One tick's answer about one session. -/
structure Verdict where
  state : AgentState
  reason : StateReason
  detail : String
  confidence : Confidence
  deriving DecidableEq

namespace Verdict

/-- What two verdicts are compared by. -/
def key (v : Verdict) : AgentState × StateReason := (v.state, v.reason)

/-- What a consumer is told. -/
def told (v : Verdict) : AgentState × StateReason × String := (v.state, v.reason, v.detail)

theorem key_eq_of_told {v w : Verdict} (h : v.told = w.told) : v.key = w.key := by
  simp only [told, Prod.mk.injEq] at h
  simp [key, h.1, h.2.1]

end Verdict

/-- A session without a process that has been quiet for longer is exited, unread. -/
def interestQuietSecs : Nat := 3600

/-- What the scan hands over for one session. -/
structure RowFacts where
  sid : String
  agent : String
  cwd : Option String
  title : String
  quietSecs : Nat
  pid : Option Nat
  term : Option String
  /-- What the derivation makes of the session, and herdr where it decides. -/
  derived : Verdict
  /-- Whether herdr decided. -/
  herdrDecides : Bool

namespace RowFacts

def interesting (f : RowFacts) : Bool := f.pid.isSome || f.quietSecs < interestQuietSecs

/-- Rule 1 without any reads: long quiet and without a process is exited. -/
def exitedVerdict : Verdict := ⟨.idle, .exited, "", .observed⟩

def verdict (f : RowFacts) : Verdict := if f.interesting then f.derived else exitedVerdict

def byHerdr (f : RowFacts) : Bool := f.interesting && f.herdrDecides

/-- The reasons that are published at once, and a wait that herdr saw. -/
def immediate (f : RowFacts) : Bool :=
  f.verdict.reason ∈ [.question, .planApproval, .exited, .exitedMidWork] ||
    (f.byHerdr && f.verdict.state = .wait)

end RowFacts

/-- One transition, as it is written to the stream. -/
structure StateEvent where
  v : Nat
  ts : String
  sid : String
  agent : String
  cwd : Option String
  title : String
  state : AgentState
  /-- The state this transition left. -/
  prev : Option AgentState
  reason : StateReason
  detail : String
  confidence : Confidence
  pid : Option Nat
  term : Option String
  deriving DecidableEq

def StateEvent.verdict (e : StateEvent) : Verdict := ⟨e.state, e.reason, e.detail, e.confidence⟩

/-- One session of the snapshot. -/
structure Current where
  sid : String
  agent : String
  cwd : Option String
  title : String
  state : AgentState
  reason : StateReason
  detail : String
  confidence : Confidence
  since : String
  pid : Option Nat
  term : Option String
  deriving DecidableEq

def Current.verdict (c : Current) : Verdict := ⟨c.state, c.reason, c.detail, c.confidence⟩

structure Staged where
  /-- The last verdict published, and when. -/
  published : Option (Verdict × String)
  /-- The previous tick's derivation. -/
  candidate : Option (AgentState × StateReason)
  /-- Herdr decided the published verdict. -/
  byHerdr : Bool

namespace Staged

def fresh : Staged := ⟨none, none, false⟩

/-- The published verdict has another state or reason, or there is none. -/
def differs (s : Staged) (v : Verdict) : Bool := s.published.all fun p => p.1.key ≠ v.key

/-- Whether this verdict is published now. -/
def publishes (s : Staged) (f : RowFacts) : Bool :=
  s.differs f.verdict && (f.immediate || s.candidate = some f.verdict.key)

/-- A first sighting that is merely exited is bookkeeping, not news. -/
def newsworthy (s : Staged) (f : RowFacts) : Bool :=
  !(s.published.isNone && f.verdict.reason = .exited)

/-- The verdict last published. -/
def last (s : Staged) : Option Verdict := s.published.map (·.1)

end Staged

/-- The event of a publication. -/
def event (now : String) (f : RowFacts) (s : Staged) : StateEvent where
  v := 1
  ts := now
  sid := f.sid
  agent := f.agent
  cwd := f.cwd
  title := f.title
  state := f.verdict.state
  prev := s.last.map (·.state)
  reason := f.verdict.reason
  detail := f.verdict.detail
  confidence := f.verdict.confidence
  pid := f.pid
  term := f.term

/-- What one tick makes of one session: its record, and the event if there is one. -/
def stage (now : String) (f : RowFacts) (s : Staged) : Staged × Option StateEvent :=
  let differs := s.differs f.verdict
  let published := if s.publishes f then some (f.verdict, now) else s.published
  -- the same state and reason: the published verdict says how it is known
  let published := if differs then published else
    published.map fun p => ({ p.1 with confidence := f.verdict.confidence }, p.2)
  ({ published
     candidate := some f.verdict.key
     byHerdr := if !differs || published.any (fun p => p.1 = f.verdict) then f.byHerdr
       else s.byHerdr },
    if s.publishes f && s.newsworthy f then some (event now f s) else none)

/-- The row of the snapshot for a session with a published verdict. -/
def currentRow (f : RowFacts) (s : Staged) : Option Current :=
  s.published.map fun p =>
    ⟨f.sid, f.agent, f.cwd, f.title, p.1.state, p.1.reason, p.1.detail, p.1.confidence, p.2, f.pid,
      f.term⟩

/-- What a tick hands over: the time, and one observation for each listed session. -/
structure Tick where
  now : String
  facts : List RowFacts
  distinct : (facts.map (·.sid)).Nodup

/-- The pass and its two files. -/
structure Tracker where
  staged : Table String Staged
  events : List StateEvent
  current : List Current

namespace Tracker

def init : Tracker := ⟨Table.empty, [], []⟩

def observe (now : String) (t : Tracker) (f : RowFacts) : Tracker :=
  let (staged, news) := stage now f ((t.staged.find? f.sid).getD .fresh)
  ⟨t.staged.put f.sid staged, t.events ++ news.toList, t.current ++ (currentRow f staged).toList⟩

/-- One tick: every session's verdict, then the sessions that left the list are dropped. -/
def tick (t : Tracker) (k : Tick) : Tracker :=
  let t := k.facts.foldl (observe k.now) { t with current := [] }
  { t with staged := t.staged.retain fun sid _ => sid ∈ k.facts.map (·.sid) }

def run (ticks : List Tick) : Tracker := ticks.foldl tick init

end Tracker

/-! ## one session -/

namespace Staged

variable {now : String} {f : RowFacts} {s : Staged}

theorem differs_iff {v : Verdict} : s.differs v = true ↔ ∀ p ∈ s.last, p.key ≠ v.key := by
  cases h : s.published <;> simp [differs, last, h]

/-- What a tick does to a session's record: the published verdict stands, or it is replaced, or
the new one waits for another tick. -/
theorem stage_cases (now : String) (f : RowFacts) (s : Staged) :
    (∃ p ∈ s.last, p.key = f.verdict.key ∧ (stage now f s).2 = none ∧
      (stage now f s).1.last = some { p with confidence := f.verdict.confidence }) ∨
    ((∀ p ∈ s.last, p.key ≠ f.verdict.key) ∧ (stage now f s).1.last = some f.verdict ∧
      (stage now f s).2 = if s.newsworthy f then some (event now f s) else none) ∨
    ((∀ p ∈ s.last, p.key ≠ f.verdict.key) ∧ f.immediate = false ∧
      s.candidate ≠ some f.verdict.key ∧ (stage now f s).1.last = s.last ∧
      (stage now f s).2 = none) := by
  by_cases hdiffers : s.differs f.verdict = true
  · right
    by_cases hpub : s.publishes f = true
    · left
      refine ⟨differs_iff.mp hdiffers, ?_, ?_⟩
      · simp [stage, hdiffers, hpub, last]
      · simp [stage, hpub]
    · right
      have hheld : f.immediate = false ∧ s.candidate ≠ some f.verdict.key := by
        simpa [publishes, hdiffers] using hpub
      refine ⟨differs_iff.mp hdiffers, hheld.1, hheld.2, ?_, ?_⟩
      · simp [stage, hdiffers, hpub, last]
      · simp [stage, hpub]
  · left
    have hpub : s.publishes f = false := by simp [publishes, hdiffers]
    cases hs : s.published with
    | none => simp [differs, hs] at hdiffers
    | some p =>
      have hkey : p.1.key = f.verdict.key := by simpa [differs, hs] using hdiffers
      refine ⟨p.1, by simp [last, hs], hkey, ?_, ?_⟩
      · simp [stage, hpub]
      · simp [stage, hdiffers, hpub, last, hs]

@[simp] theorem stage_candidate : (stage now f s).1.candidate = some f.verdict.key := rfl

theorem stage_sid : ∀ e ∈ (stage now f s).2, e.sid = f.sid := by
  intro e he
  obtain ⟨_, rfl⟩ : (s.publishes f = true ∧ s.newsworthy f = true) ∧ event now f s = e := by
    simpa [stage] using he
  rfl

theorem currentRow_sid : ∀ c ∈ currentRow f s, c.sid = f.sid := by
  intro c hc
  obtain ⟨p, _, rfl⟩ := Option.map_eq_some_iff.mp (Option.mem_def.mp hc)
  rfl

/-- A reason that is published at once, and a verdict derived a second time, leave the session
published under that verdict's state and reason. -/
theorem stage_publishes (h : f.immediate = true ∨ s.candidate = some f.verdict.key) :
    (stage now f s).1.last.map Verdict.key = some f.verdict.key := by
  obtain ⟨p, _, hkey, _, hlast⟩ | ⟨_, hlast, _⟩ | ⟨_, himm, hcand, _⟩ := stage_cases now f s
  · rw [hlast, ← hkey]
    rfl
  · rw [hlast]
    rfl
  · simp [himm, hcand] at h

end Staged

/-! ## what the stream tells -/

/-- Each event names the state of the one before it, the first one `prev`. -/
def Named : Option AgentState → List StateEvent → Prop
  | _, [] => True
  | prev, e :: es => e.prev = prev ∧ Named (some e.state) es

/-- What was published of a session: the first verdict, if it was not announced, and then what
the events say. -/
def story (first : Option Verdict) (es : List StateEvent) : List Verdict :=
  first.toList ++ es.map StateEvent.verdict

theorem story_concat (first : Option Verdict) (es : List StateEvent) (e : StateEvent) :
    story first (es ++ [e]) = story first es ++ [e.verdict] := by
  simp [story]

theorem named_concat {prev : Option AgentState} {es : List StateEvent} {e : StateEvent} :
    Named prev (es ++ [e]) ↔
      Named prev es ∧ e.prev = ((es.getLast?.map (·.state)).or prev) := by
  induction es generalizing prev with
  | nil => simp [Named]
  | cons d es ih =>
    rw [List.cons_append, Named, Named, ih, and_assoc]
    cases es <;> simp [List.getLast?_cons]

/-- The last state of the story is that of the last event, and before any that of the first. -/
theorem state_getLast?_story (first : Option Verdict) (es : List StateEvent) :
    (story first es).getLast?.map (·.state) =
      (es.getLast?.map (·.state)).or (first.map (·.state)) := by
  cases es using List.reverseRecOn with
  | nil => cases first <;> simp [story]
  | append_singleton es e => simp [story_concat, StateEvent.verdict]

/-- The record of a session and the events about it, after a stay in which `verdicts` were derived
for it. -/
structure Told (verdicts : List Verdict) (s : Staged) (first : Option Verdict)
    (es : List StateEvent) : Prop where
  /-- Only an exit goes unannounced, and only the first one of the stay. -/
  quiet : ∀ v ∈ first, v.reason = .exited ∧ verdicts.find? (·.reason = .exited) = some v
  named : Named (first.map (·.state)) es
  changes : (story first es).IsChain (·.key ≠ ·.key)
  last : s.last.map Verdict.told = (story first es).getLast?.map Verdict.told
  derived : ∀ p ∈ s.last, ∃ v ∈ verdicts, v.told = p.told
  candidate : s.candidate = verdicts.getLast?.map Verdict.key
  unseen : s.last = none → ∀ v ∈ verdicts, v.reason ≠ .exited

namespace Told

theorem fresh : Told [] .fresh none [] where
  quiet := by simp
  named := trivial
  changes := by simp [story]
  last := by simp [story, Staged.last, Staged.fresh]
  derived := by simp [Staged.last, Staged.fresh]
  candidate := rfl
  unseen := by simp

variable {verdicts : List Verdict} {s : Staged} {first : Option Verdict} {es : List StateEvent}

/-- Nothing is told as long as nothing is published. -/
theorem silent (h : Told verdicts s first es) (hs : s.last = none) : first = none ∧ es = [] := by
  have hlast := h.last
  rw [hs, Option.map_none, eq_comm, Option.map_eq_none_iff, List.getLast?_eq_none_iff] at hlast
  simpa [story] using hlast

/-- What a verdict that is not published, or published already, leaves as it was. -/
theorem keep (h : Told verdicts s first es) {s' : Staged} {v : Verdict}
    (hlast : s'.last.map Verdict.told = s.last.map Verdict.told)
    (hcand : s'.candidate = some v.key) (hseen : s'.last = none → v.reason ≠ .exited) :
    Told (verdicts ++ [v]) s' first es where
  quiet := by
    intro w hw
    have := h.quiet w hw
    simp [List.find?_append, this]
  named := h.named
  changes := h.changes
  last := hlast.trans h.last
  derived := by
    intro p hp
    rw [Option.mem_def.mp hp, Option.map_some, eq_comm, Option.map_eq_some_iff] at hlast
    obtain ⟨q, hq, htold⟩ := hlast
    obtain ⟨w, hw, hwq⟩ := h.derived q hq
    exact ⟨w, List.mem_append_left _ hw, hwq.trans htold⟩
  candidate := by simp [hcand]
  unseen := by
    intro hnone w hw
    have hs : s.last = none := by simpa [hnone] using hlast.symm
    rw [List.mem_append, List.mem_singleton] at hw
    obtain hw | rfl := hw
    · exact h.unseen hs w hw
    · exact hseen hnone

/-- **One tick**: what the stream tells of a session stays true. -/
theorem stage (h : Told verdicts s first es) (now : String) (f : RowFacts) :
    ∃ first', Told (verdicts ++ [f.verdict]) (stage now f s).1 first'
      (es ++ (stage now f s).2.toList) := by
  obtain ⟨p, hp, hkey, hnews, hlast⟩ | ⟨hne, hlast, hnews⟩ | ⟨hne, himm, _, hlast, hnews⟩ :=
    Staged.stage_cases now f s
  · refine ⟨first, ?_⟩
    rw [hnews, Option.toList_none, List.append_nil]
    apply h.keep
    · rw [hlast, Option.mem_def.mp hp]
      rfl
    · rfl
    · simp [hlast]
  · by_cases hworth : s.newsworthy f = true
    · refine ⟨first, ?_⟩
      rw [hnews, if_pos hworth, Option.toList_some]
      have htold := h.last
      exact {
        quiet := by
          intro v hv
          have := h.quiet v hv
          simp [List.find?_append, this]
        named := by
          rw [named_concat]
          refine ⟨h.named, ?_⟩
          rw [← state_getLast?_story]
          have := congrArg (Option.map Prod.fst) h.last
          simpa [Verdict.told, Function.comp_def, event] using this
        changes := by
          rw [story_concat, List.isChain_append]
          refine ⟨h.changes, by simp, ?_⟩
          intro w hw v hv
          obtain rfl : v = (event now f s).verdict := by simpa [eq_comm] using hv
          rw [Option.mem_def.mp hw, Option.map_some, Option.map_eq_some_iff] at htold
          obtain ⟨p, hp, hpw⟩ := htold
          rw [← Verdict.key_eq_of_told hpw]
          exact hne p hp
        last := by
          rw [story_concat, hlast]
          simp [StateEvent.verdict, event]
        derived := by
          intro p hp
          rw [hlast, Option.mem_some_iff] at hp
          exact ⟨f.verdict, by simp, by rw [hp]⟩
        candidate := by simp
        unseen := by simp [hlast] }
    · have hnone : s.last = none ∧ f.verdict.reason = .exited := by
        simpa [Staged.newsworthy, Staged.last] using hworth
      obtain ⟨rfl, rfl⟩ := h.silent hnone.1
      refine ⟨some f.verdict, ?_⟩
      rw [hnews, if_neg hworth]
      have hunseen := h.unseen hnone.1
      exact {
        quiet := by
          intro v hv
          obtain rfl := Option.mem_some_iff.mp hv
          have hfind : verdicts.find? (·.reason = .exited) = none := by simpa using hunseen
          simp [List.find?_append, hfind, hnone.2]
        named := trivial
        changes := by simp [story]
        last := by simp [story, hlast]
        derived := by
          intro p hp
          rw [hlast, Option.mem_some_iff] at hp
          exact ⟨f.verdict, by simp, by rw [hp]⟩
        candidate := by simp
        unseen := by simp [hlast] }
  · refine ⟨first, ?_⟩
    rw [hnews, Option.toList_none, List.append_nil]
    apply h.keep
    · rw [hlast]
    · rfl
    · intro _ hexited
      simp [RowFacts.immediate, hexited] at himm

end Told

/-! ## one tick, session by session -/

namespace Tick

/-- Whether a tick lists the session. -/
def has (sid : String) (k : Tick) : Bool := sid ∈ k.facts.map (·.sid)

/-- What a tick derives for a session. -/
def verdicts (sid : String) (k : Tick) : List Verdict :=
  (k.facts.filter (·.sid = sid)).map RowFacts.verdict

/-- A session is observed once a tick, among observations of others. -/
theorem split {sid : String} {k : Tick} (h : k.has sid = true) :
    ∃ before f after, k.facts = before ++ f :: after ∧ f.sid = sid ∧
      (∀ g ∈ before, g.sid ≠ sid) ∧ ∀ g ∈ after, g.sid ≠ sid := by
  obtain ⟨f, hf, hsid⟩ := List.mem_map.mp (of_decide_eq_true h)
  obtain ⟨before, after, hk⟩ := List.append_of_mem hf
  have hnodup := k.distinct
  rw [hk, List.map_append, List.map_cons, List.nodup_append, List.nodup_cons] at hnodup
  refine ⟨before, f, after, hk, hsid, ?_, ?_⟩
  · intro g hg heq
    exact hnodup.2.2 _ (List.mem_map_of_mem hg) _ List.mem_cons_self (heq.trans hsid.symm)
  · intro g hg heq
    exact hnodup.2.1.1 (List.mem_map.mpr ⟨g, hg, heq.trans hsid.symm⟩)

end Tick

namespace Tracker

/-- The events about one session. -/
def eventsOf (t : Tracker) (sid : String) : List StateEvent := t.events.filter (·.sid = sid)

/-- The snapshot's rows of one session. -/
def rowsOf (t : Tracker) (sid : String) : List Current := t.current.filter (·.sid = sid)

/-- All that a tracker holds about one session. -/
def view (t : Tracker) (sid : String) : Option Staged × List StateEvent × List Current :=
  (t.staged.find? sid, t.eventsOf sid, t.rowsOf sid)

variable {sid now : String}

theorem view_observe_of_ne (t : Tracker) {f : RowFacts} (h : f.sid ≠ sid) :
    (observe now t f).view sid = t.view sid := by
  have hnews (s : Staged) : (stage now f s).2.toList.filter (·.sid = sid) = [] := by
    rw [List.filter_eq_nil_iff]
    intro e he
    simpa [Staged.stage_sid e (Option.mem_toList.mp he)] using h
  have hrow (s : Staged) : (currentRow f s).toList.filter (·.sid = sid) = [] := by
    rw [List.filter_eq_nil_iff]
    intro c hc
    simpa [Staged.currentRow_sid c (Option.mem_toList.mp hc)] using h
  simp [view, observe, eventsOf, rowsOf, Table.find?_put, h.symm, hnews, hrow]

theorem view_observe_self (t : Tracker) (f : RowFacts) :
    (observe now t f).view f.sid =
      let s := stage now f ((t.staged.find? f.sid).getD .fresh)
      (some s.1, t.eventsOf f.sid ++ s.2.toList, t.rowsOf f.sid ++ (currentRow f s.1).toList) := by
  have hnews (s : Staged) :
      (stage now f s).2.toList.filter (·.sid = f.sid) = (stage now f s).2.toList := by
    rw [List.filter_eq_self]
    intro e he
    simp [Staged.stage_sid e (Option.mem_toList.mp he)]
  have hrow (s : Staged) :
      (currentRow f s).toList.filter (·.sid = f.sid) = (currentRow f s).toList := by
    rw [List.filter_eq_self]
    intro c hc
    simp [Staged.currentRow_sid c (Option.mem_toList.mp hc)]
  simp [view, observe, eventsOf, rowsOf, Table.find?_put, hnews, hrow]

theorem view_foldl_of_ne (now : String) (t : Tracker) {facts : List RowFacts}
    (h : ∀ f ∈ facts, f.sid ≠ sid) :
    (facts.foldl (observe now) t).view sid = t.view sid := by
  induction facts generalizing t with
  | nil => rfl
  | cons f facts ih =>
    rw [List.forall_mem_cons] at h
    rw [List.foldl_cons, ih _ h.2, view_observe_of_ne t h.1]

/-- A tick that does not list a session forgets it, and says nothing of it. -/
theorem view_tick_of_absent (t : Tracker) {k : Tick} (h : k.has sid = false) :
    (t.tick k).view sid = (none, t.eventsOf sid, []) := by
  have hout : sid ∉ k.facts.map (·.sid) := of_decide_eq_false h
  have hne : ∀ f ∈ k.facts, f.sid ≠ sid :=
    fun f hf heq => hout (List.mem_map.mpr ⟨f, hf, heq⟩)
  have hfold := view_foldl_of_ne k.now { t with current := [] } hne
  simp only [view, eventsOf, rowsOf, Prod.mk.injEq] at hfold
  obtain ⟨_, hevents, hrows⟩ := hfold
  have hgone (s : Option Staged) : (s.filter fun _ => sid ∈ k.facts.map (·.sid)) = none := by
    cases s <;> simp [hout]
  simp only [view, tick, eventsOf, rowsOf, Table.find?_retain, hevents, hrows, hgone]
  rfl

/-- A tick that lists a session stages what it derived for it. -/
theorem view_tick_of_present (t : Tracker) {k : Tick} (h : k.has sid = true) :
    ∃ f, k.verdicts sid = [f.verdict] ∧ (t.tick k).view sid =
      let s := stage k.now f ((t.staged.find? sid).getD .fresh)
      (some s.1, t.eventsOf sid ++ s.2.toList, (currentRow f s.1).toList) := by
  obtain ⟨before, f, after, hk, rfl, hbefore, hafter⟩ := Tick.split h
  refine ⟨f, ?_, ?_⟩
  · have hnil {facts : List RowFacts} (h : ∀ g ∈ facts, g.sid ≠ f.sid) :
        facts.filter (·.sid = f.sid) = [] := by
      simpa using h
    simp [Tick.verdicts, hk, hnil hbefore, hnil hafter]
  · have hfold : (k.facts.foldl (observe k.now) { t with current := [] }).view f.sid =
        let s := stage k.now f ((t.staged.find? f.sid).getD .fresh)
        (some s.1, t.eventsOf f.sid ++ s.2.toList, (currentRow f s.1).toList) := by
      have hstart := view_foldl_of_ne k.now { t with current := [] } hbefore
      simp only [view, Prod.mk.injEq] at hstart
      rw [hk, List.foldl_append, List.foldl_cons, view_foldl_of_ne k.now _ hafter,
        view_observe_self]
      simp only [hstart]
      simp [eventsOf, rowsOf]
    have hlisted : f.sid ∈ k.facts.map (·.sid) := of_decide_eq_true h
    simp only [view, Prod.mk.injEq] at hfold
    simp only [view, tick, Table.find?_retain, hfold.1]
    simp only [eventsOf, rowsOf] at hfold ⊢
    simp only [hfold.2.1, hfold.2.2]
    simp only [hlisted, decide_true, Option.filter_some, if_true]

/-! ## the run -/

theorem run_concat (ticks : List Tick) (k : Tick) : run (ticks ++ [k]) = (run ticks).tick k := by
  simp [run]

/-- What the ticks derived for a session. -/
def derived (sid : String) (ticks : List Tick) : List Verdict := ticks.flatMap (Tick.verdicts sid)

/-- The ticks of the session's present stay in the list. -/
def stay (sid : String) (ticks : List Tick) : List Tick := ticks.rtakeWhile (Tick.has sid)

/-- The ticks before it. -/
def earlier (sid : String) (ticks : List Tick) : List Tick := ticks.rdropWhile (Tick.has sid)

/-- The invariant of a run: what the stream tells of a session's present stay. -/
theorem run_told (ticks : List Tick) (sid : String) :
    ∃ first es, (run ticks).eventsOf sid = (run (earlier sid ticks)).eventsOf sid ++ es ∧
      Told (derived sid (stay sid ticks)) (((run ticks).staged.find? sid).getD .fresh) first es ∧
      ((run ticks).rowsOf sid).map Current.verdict =
        (((run ticks).staged.find? sid).getD .fresh).last.toList := by
  induction ticks using List.reverseRecOn with
  | nil => exact ⟨none, [], rfl, .fresh, rfl⟩
  | append_singleton ticks k ih =>
    rw [run_concat]
    cases hk : k.has sid with
    | false =>
      have hview := view_tick_of_absent (run ticks) hk
      simp only [view, Prod.mk.injEq] at hview
      refine ⟨none, [], ?_, ?_, ?_⟩
      · simp [earlier, List.rdropWhile_concat_neg, hk, run_concat]
      · rw [hview.1, stay, List.rtakeWhile_concat_neg _ _ _ (by simp [hk])]
        exact .fresh
      · rw [hview.1, hview.2.2]
        rfl
    | true =>
      obtain ⟨first, es, hevents, htold, _⟩ := ih
      obtain ⟨f, hf, hview⟩ := view_tick_of_present (run ticks) hk
      simp only [view, Prod.mk.injEq] at hview
      generalize ((run ticks).staged.find? sid).getD .fresh = s at htold hview
      obtain ⟨first', htold'⟩ := htold.stage k.now f
      refine ⟨first', es ++ (stage k.now f s).2.toList, ?_, ?_, ?_⟩
      · rw [hview.2.1, hevents, List.append_assoc, earlier, earlier,
          List.rdropWhile_concat_pos _ _ _ hk]
      · rw [hview.1, stay, List.rtakeWhile_concat_pos _ _ _ hk, derived, List.flatMap_append,
          List.flatMap_singleton, hf]
        exact htold'
      · rw [hview.2.2, hview.1, Option.getD_some]
        generalize (stage k.now f s).1 = s'
        cases hs : s'.published <;> simp [currentRow, Staged.last, hs, Current.verdict]

/-- A state and reason derived on two ticks in a row are published after the second. -/
theorem published_of_twice (ticks : List Tick) {k₁ k₂ : Tick} {v w : Verdict}
    (h₁ : k₁.verdicts sid = [v]) (h₂ : k₂.verdicts sid = [w]) (hkey : v.key = w.key) :
    (((run (ticks ++ [k₁, k₂])).staged.find? sid).getD .fresh).last.map Verdict.key =
      some w.key := by
  have hhas {k : Tick} {v : Verdict} (h : k.verdicts sid = [v]) : k.has sid = true := by
    obtain ⟨f, hf, _⟩ := List.map_eq_singleton_iff.mp h
    have hmem : f ∈ k.facts.filter (·.sid = sid) := by simp [hf]
    rw [List.mem_filter, decide_eq_true_eq] at hmem
    exact decide_eq_true (List.mem_map.mpr ⟨f, hmem⟩)
  obtain ⟨_, _, _, htold, _⟩ := run_told (ticks ++ [k₁]) sid
  have hcand := htold.candidate
  rw [stay, List.rtakeWhile_concat_pos _ _ _ (hhas h₁), derived, List.flatMap_append,
    List.flatMap_singleton, h₁, List.getLast?_concat, Option.map_some] at hcand
  obtain ⟨f, hf, hview⟩ := view_tick_of_present (run (ticks ++ [k₁])) (hhas h₂)
  obtain rfl : w = f.verdict := by simpa [h₂] using hf
  rw [List.append_cons, run_concat]
  simp only [view, Prod.mk.injEq] at hview
  rw [hview.1, Option.getD_some]
  exact Staged.stage_publishes (.inr (hcand.trans (congrArg some hkey)))

/-- **The stream tells the state.** In every run, what is written of a session since it came into
the list last: each event names the state published before it, no two publications in a row have
one state and reason, and the last publication is what the snapshot shows, with a detail that was
derived for that state and reason. Only an exit can go unannounced, and only before any event. A
state and reason derived on two ticks in a row are in the snapshot after the second. -/
theorem stream_tells (ticks : List Tick) (sid : String) :
    (∃ first es, (run ticks).eventsOf sid = (run (earlier sid ticks)).eventsOf sid ++ es ∧
      (∀ v ∈ first, v.reason = .exited ∧
        (derived sid (stay sid ticks)).find? (·.reason = .exited) = some v) ∧
      Named (first.map (·.state)) es ∧
      (story first es).IsChain (·.key ≠ ·.key) ∧
      ((run ticks).rowsOf sid).map (·.verdict.told) =
        ((story first es).getLast?.map Verdict.told).toList ∧
      ∀ row ∈ (run ticks).rowsOf sid, ∃ v ∈ derived sid (stay sid ticks),
        v.told = row.verdict.told) ∧
    ∀ before k₁ k₂ v w, ticks = before ++ [k₁, k₂] → k₁.verdicts sid = [v] →
      k₂.verdicts sid = [w] → v.key = w.key →
      ∃ row ∈ (run ticks).rowsOf sid, row.verdict.key = w.key := by
  obtain ⟨first, es, hevents, htold, hrows⟩ := run_told ticks sid
  constructor
  · refine ⟨first, es, hevents, htold.quiet, htold.named, htold.changes, ?_, ?_⟩
    · have htolds : ((run ticks).rowsOf sid).map (·.verdict.told) =
          (((run ticks).rowsOf sid).map Current.verdict).map Verdict.told := by simp
      rw [← htold.last, htolds, hrows]
      cases (((run ticks).staged.find? sid).getD Staged.fresh).last <;> rfl
    · intro row hrow
      have hmem : row.verdict ∈ ((run ticks).rowsOf sid).map Current.verdict :=
        List.mem_map_of_mem hrow
      rw [hrows, Option.mem_toList] at hmem
      exact htold.derived row.verdict hmem
  · rintro before k₁ k₂ v w rfl h₁ h₂ hkey
    have hpub := published_of_twice before h₁ h₂ hkey
    obtain ⟨p, hp, hpkey⟩ := Option.map_eq_some_iff.mp hpub
    rw [hp, Option.toList_some, List.map_eq_singleton_iff] at hrows
    obtain ⟨row, hrow, hverdict⟩ := hrows
    exact ⟨row, by simp [hrow], by rw [hverdict, hpkey]⟩

/-- A tick that lists one session, with a process, as it was derived. -/
def single (derived : Verdict) : Tick where
  now := "2026-10-28T10:00:00Z"
  facts := [⟨"s", "claude", none, "", 0, some 7, none, derived, false⟩]
  distinct := by simp

/-- A tick that lists no session. -/
def nobody : Tick := ⟨"2026-10-28T10:00:01Z", [], List.nodup_nil⟩

/-- A session that leaves the list and comes back is announced again as it was, without a `prev`;
and a second question in a row leaves the first one in the snapshot. -/
theorem told_anew :
    ((run [single ⟨.wait, .question, "one?", .observed⟩, nobody,
        single ⟨.wait, .question, "one?", .observed⟩]).eventsOf "s").map
        (fun e => (e.prev, e.state, e.reason)) =
      [(none, .wait, .question), (none, .wait, .question)] ∧
    ((run [single ⟨.wait, .question, "one?", .observed⟩,
        single ⟨.wait, .question, "two?", .observed⟩]).rowsOf "s").map (·.detail) = ["one?"] := by
  constructor <;> rfl

end Tracker

end ClaudeReplay.StateStream
