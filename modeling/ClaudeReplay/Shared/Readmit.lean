import ClaudeReplay.Shared.Converge

/-!
# ClaudeReplay.Shared.Readmit

A cursor kept across re-admission. A client pulls from one session; that session
goes away, and another is opened on the transcript, cold or from a durable
cache. Its epoch and generation start afresh, so the kept cursor is read against
counters of a different history.

`readmit_iff` says exactly when the client's next pull is right: when what it
kept is `Servable` by the new session. `servable_of_grown` spells this out where
the new session's committed zone extends the client's: another epoch or a
committed zone that has grown past the client always resynchronizes it, and what
remains is the open turn, which the two generations must not confuse.
-/

namespace ClaudeReplay

open Lib

namespace SharedSession

variable {ad : Adapter} {ι : Type} [DecidableEq ι]

/-- **A kept cursor, exactly.** Whatever was pulled from the first session, and
whatever the second has become, the client's next pull leaves it with the second
session's view if and only if what it kept is servable by it. -/
theorem readmit_iff (had : ad.shaping.Lawful) (o₁ o₂ : Open) (events₁ events₂ : List (Event ι))
    (i : ι) :
    let c := ((System.init ad ι o₁).run events₁).clients i
    let s := ((System.init ad ι o₂).run events₂).session
    (s.exchange c).Agrees s.view ↔ c.Servable s.view := by
  intro c s
  have hcoh : Coherent ((System.init ad ι o₁).run events₁) := (coherent_init had o₁).run events₁
  exact PullClient.apply_pull_iff (hcoh.follows i).counts s.view

/-- Where the new committed zone extends the client's, only the open turn can go
wrong, and only at the same epoch with nothing newly committed. -/
theorem servable_of_grown {v : ServerView} {c : PullClient} (hc : c.Counts)
    (hgrown : c.committed <+: v.committed) :
    c.Servable v ↔
      (c.cursor.epoch = v.epoch → c.committed = v.committed →
        (c.cursor.provisionalGen = v.gen → c.provisional <+: v.provisional) ∧
        (c.cursor.provisionalGen ≠ v.gen → v.provisional = [] → c.provisional = [])) := by
  have hle : c.cursor.committedId ≤ v.committed.length := hc.committed ▸ hgrown.length_le
  have hsame : c.cursor.committedId = v.committed.length ↔ c.committed = v.committed := by
    rw [hc.committed]
    exact ⟨hgrown.eq_of_length, fun h => by rw [h]⟩
  unfold PullClient.Servable
  simp only [hle, Nat.not_lt.mpr hle, false_implies, true_implies, true_and, hgrown, hsame]

/-! ## two histories under one cursor -/

/-- A turn with two calls. -/
def twoCalls : String → List Message
  | "prompt" => [.lineStart none, .userText "look these up"]
  | "call 1" => [.lineStart none, .toolUse "t1" "WebFetch" .null ""]
  | "result 1" => [.lineStart none, .toolResult "t1" "first" .null none]
  | "call 2" => [.lineStart none, .toolUse "t2" "WebFetch" .null ""]
  | "result 2" => [.lineStart none, .toolResult "t2" "second" .null none]
  | _ => []

/-- The transcript when the first session folds it. -/
def beforeRestart : List (Nat × String) :=
  [(0, "prompt"), (80, "call 1"), (160, "result 1"), (240, "call 2")]

/-- The transcript when the second session folds it: one result later. -/
def afterRestart : List (Nat × String) := beforeRestart ++ [(320, "result 2")]

/-- The kept client: it pulled after the first session's one tick. -/
def keptClient : PullClient :=
  ((System.init (.scripted twoCalls) Unit (.withStore [])).run
    [.advance { lines := beforeRestart }, .pull ()]).clients ()

/-- The second session, after its one tick. -/
def readmitted : SharedSession (.scripted twoCalls) :=
  ((System.init (.scripted twoCalls) Unit (.withStore [])).run
    [.advance { lines := afterRestart }]).session

/-- One more line, and the second session serves the client whole again. -/
theorem readmit_next_prompt :
    let s := ((System.init (.scripted twoCalls) Unit (.withStore [])).run
      [.advance { lines := afterRestart ++ [(400, "prompt")] }]).session
    ((s.exchange keptClient).Agrees s.view ↔ keptClient.Servable s.view) ∧
      (s.exchange keptClient).Agrees s.view :=
  ⟨readmit_iff Shaping.scripted_lawful (.withStore []) (.withStore [])
    [.advance { lines := beforeRestart }, .pull ()]
    [.advance { lines := afterRestart ++ [(400, "prompt")] }] (), by decide +kernel⟩

/-- The two sessions count alike, so the second result never reaches the client. -/
theorem readmit_misses_result :
    keptClient.isIdleTick (readmitted.pull keptClient.cursor) = true ∧
      ¬(readmitted.exchange keptClient).Agrees readmitted.view ∧
      (readmitted.exchange keptClient).blocks.getLast? =
        some (.toolUse ⟨"WebFetch", "", none, none, none, .null⟩) ∧
      readmitted.blocks.getLast? =
        some (.toolUse ⟨"WebFetch", "", some "second", none, none, .null⟩) := by
  decide +kernel

end SharedSession

end ClaudeReplay
