import ClaudeReplay.Shared

/-!
# ClaudeReplay.Shared.Converge

Any number of clients pulling from one shared session. A schedule is a sequence
of events: the session advances, or its owner attaches, releases or thaws it, or
one client pulls and applies the reply.

`Follows` is what a client's copy keeps of the session's history: its cursor
counts its zones, its epoch and generation are not from the future, and within
the epoch its committed copy is a prefix; while the generation has not moved
neither has the committed count, and the provisional copy is a prefix as well.
Every event keeps it for every client, so an exchange is never out of step, with
one exception: `Emptied`. A provisional zone that empties without a commit is
sent as a reply with no blocks, which the client takes for an idle tick.
-/

namespace ClaudeReplay

open Lib

namespace SharedSession

variable {ad : Adapter} {ι : Type} [DecidableEq ι]

/-- One event of a schedule. -/
inductive Event (ι : Type)
  | advance (poll : Poll)
  | attachWriter (w : List MetaRecord)
  | quiesce
  | thaw
  | pull (i : ι)

/-- A session and its clients. -/
structure System (ad : Adapter) (ι : Type) where
  session : SharedSession ad
  clients : ι → PullClient

/-- One client's pull: its cursor is served, and it applies the reply. -/
def exchange (s : SharedSession ad) (c : PullClient) : PullClient := (c.apply (s.pull c.cursor)).1

/-- One event. -/
def System.step (st : System ad ι) : Event ι → System ad ι
  | .advance poll => { st with session := (st.session.advance poll).1 }
  | .attachWriter w => { st with session := st.session.attachWriter w }
  | .quiesce => { st with session := st.session.quiesce }
  | .thaw => { st with session := st.session.thaw }
  | .pull i => { st with
      clients := Function.update st.clients i (st.session.exchange (st.clients i)) }

/-- A schedule. -/
def System.run (st : System ad ι) (events : List (Event ι)) : System ad ι := events.foldl step st

/-- A session just opened, and clients that have pulled nothing. -/
def System.init (ad : Adapter) (ι : Type) (o : Open) : System ad ι := ⟨start ad o, fun _ => {}⟩

/-! ## what a client keeps -/

/-- What a client's copy keeps of the history of what it is served. -/
structure Follows (v : ServerView) (c : PullClient) : Prop where
  counts : c.Counts
  epoch_le : c.cursor.epoch ≤ v.epoch
  gen_le : c.cursor.epoch = v.epoch → c.cursor.provisionalGen ≤ v.gen
  committed : c.cursor.epoch = v.epoch → c.committed <+: v.committed
  gen_eq : c.cursor.epoch = v.epoch → c.cursor.provisionalGen = v.gen →
    c.committed = v.committed ∧ c.provisional <+: v.provisional

/-- A client that has pulled nothing follows any session: epochs start at 1. -/
theorem follows_new (v : ServerView) (h : 0 < v.epoch) : Follows v {} where
  counts := ⟨rfl, rfl⟩
  epoch_le := Nat.zero_le _
  gen_le _ := Nat.zero_le _
  committed _ := List.nil_prefix
  gen_eq he := absurd he h.ne

/-- **Whatever the session does, a client goes on following it.** -/
theorem Follows.moves {v v' : ServerView} {c : PullClient} (h : Follows v c) (hm : Moves v v') :
    Follows v' c := by
  cases hm with
  | idle heq => exact heq ▸ h
  | reset hepoch =>
    have hlt : c.cursor.epoch < v'.epoch := by rw [hepoch]; exact Nat.lt_succ_of_le h.epoch_le
    exact ⟨h.counts, hlt.le, fun he => absurd he hlt.ne, fun he => absurd he hlt.ne,
      fun he => absurd he hlt.ne⟩
  | regen hepoch hgen hcommitted =>
    have hpast : c.cursor.epoch = v'.epoch → c.cursor.provisionalGen < v'.gen := fun he => by
      rw [hgen]
      exact Nat.lt_succ_of_le (h.gen_le (he.trans hepoch))
    exact ⟨h.counts, hepoch ▸ h.epoch_le, fun he => (hpast he).le,
      fun he => (h.committed (he.trans hepoch)).trans hcommitted,
      fun he hg => absurd hg (hpast he).ne⟩
  | extend hepoch hgen hcommitted hprovisional =>
    refine ⟨h.counts, hepoch ▸ h.epoch_le, fun he => hgen ▸ h.gen_le (he.trans hepoch),
      fun he => hcommitted ▸ h.committed (he.trans hepoch), fun he hg => ?_⟩
    obtain ⟨hc, hp⟩ := h.gen_eq (he.trans hepoch) (hg.trans hgen)
    exact ⟨hc.trans hcommitted.symm, hp.trans hprovisional⟩

/-- The exception: within the epoch, with nothing newly committed, the provisional
zone has emptied under a client that still holds some of it. -/
def Emptied (v : ServerView) (c : PullClient) : Prop :=
  c.cursor.epoch = v.epoch ∧ c.cursor.committedId = v.committed.length ∧
    v.provisional = [] ∧ c.provisional ≠ []

instance (v : ServerView) (c : PullClient) : Decidable (Emptied v c) :=
  inferInstanceAs (Decidable (_ ∧ _))

/-- A following client is servable, save for that exception. -/
theorem Follows.servable_iff {v : ServerView} {c : PullClient} (h : Follows v c) :
    c.Servable v ↔ ¬Emptied v c := by
  unfold PullClient.Servable Emptied
  constructor
  · rintro hs ⟨he, heq, hnil, hne⟩
    obtain ⟨-, hprov⟩ := (hs he).2 heq.le
    obtain ⟨happend, hgen⟩ := hprov heq
    by_cases hg : c.cursor.provisionalGen = v.gen
    · exact hne (List.prefix_nil.mp (hnil ▸ happend hg))
    · exact hne (hgen hg hnil)
  · intro hn he
    have hle : c.cursor.committedId ≤ v.committed.length := by
      rw [h.counts.committed]
      exact (h.committed he).length_le
    refine ⟨fun hlt => absurd hlt (Nat.not_lt.mpr hle), fun _ => ⟨h.committed he, fun heq => ?_⟩⟩
    refine ⟨fun hg => (h.gen_eq he hg).2, fun _ hnil => ?_⟩
    by_contra hne
    exact hn ⟨he, heq, hnil, hne⟩

/-- A client goes on following the session across its own pull, even one that
left it with a stale provisional zone. -/
theorem Follows.exchange {s : SharedSession ad} {c : PullClient} (h : Follows s.view c) :
    Follows s.view (s.exchange c) := by
  unfold SharedSession.exchange SharedSession.pull
  cases hidle : c.isIdleTick (ClaudeReplay.pull s.view c.cursor) with
  | true => rwa [PullClient.apply_idle hidle]
  | false =>
    have hcur : (c.apply (ClaudeReplay.pull s.view c.cursor)).1.cursor = s.view.endCursor := by
      rw [PullClient.apply_cursor, hidle, if_neg Bool.false_ne_true]
    have hle : c.cursor.epoch = s.view.epoch → c.cursor.committedId ≤ s.view.committed.length :=
      fun he => by
        rw [h.counts.committed]
        exact (h.committed he).length_le
    have hok : (c.apply (ClaudeReplay.pull s.view c.cursor)).1.Agrees s.view := by
      rw [PullClient.apply_pull_iff h.counts, h.servable_iff]
      rintro ⟨he, heq, hnil, -⟩
      -- an emptied zone is sent as an idle tick
      have hpull : c.isIdleTick (ClaudeReplay.pull s.view c.cursor) = true := by
        simp [PullClient.isIdleTick, PullReply.isIdle, ClaudeReplay.pull, pullIndices, he, heq, hnil]
      rw [hpull] at hidle
      contradiction
    refine ⟨PullClient.apply_counts h.counts s.view hle, ?_, ?_, ?_, ?_⟩
    · rw [hcur]
      exact le_rfl
    · intro _
      rw [hcur]
      exact le_rfl
    · intro _
      exact hok.1 ▸ List.prefix_refl _
    · intro _ _
      exact ⟨hok.1, hok.2 ▸ List.prefix_refl _⟩

/-! ## schedules -/

/-- What holds after any schedule. -/
structure Coherent (st : System ad ι) : Prop where
  settled : st.session.Settled
  follows : ∀ i, Follows st.session.view (st.clients i)

omit [DecidableEq ι] in
theorem coherent_init (had : ad.shaping.Lawful) (o : Open) :
    Coherent (System.init ad ι o) where
  settled := start_settled had o
  follows _ := follows_new _ (by cases o <;> exact Nat.one_pos)

theorem Coherent.step {st : System ad ι} (h : Coherent st) (e : Event ι) :
    Coherent (st.step e) := by
  cases e with
  | advance poll =>
    obtain ⟨hm, hs⟩ := st.session.advance_moves poll h.settled
    exact ⟨hs, fun i => (h.follows i).moves hm⟩
  | attachWriter w =>
    exact ⟨h.settled.attachWriter w, fun i => (attachWriter_view _ w).symm ▸ h.follows i⟩
  | quiesce => exact ⟨h.settled.quiesce, fun i => (quiesce_view _).symm ▸ h.follows i⟩
  | thaw => exact ⟨h.settled, h.follows⟩
  | pull i =>
    refine ⟨h.settled, fun j => ?_⟩
    simp only [System.step]
    by_cases hij : j = i
    · subst hij
      rw [Function.update_self]
      exact (h.follows j).exchange
    · rw [Function.update_of_ne hij]
      exact h.follows j

theorem Coherent.run {st : System ad ι} (h : Coherent st) (events : List (Event ι)) :
    Coherent (st.run events) :=
  List.foldlRecOn (motive := Coherent) events System.step h fun _ hst e _ => hst.step e

/-- The events a client's state can depend on: everything but other clients' pulls. -/
def Event.concerns (i : ι) : Event ι → Bool
  | .pull j => decide (j = i)
  | _ => true

/-- One client's part of a system. -/
def System.part (st : System ad ι) (i : ι) : SharedSession ad × PullClient :=
  (st.session, st.clients i)

/-- An event acts on a client's part alone, and another client's pull does not. -/
theorem System.step_part {st st' : System ad ι} {i : ι} (h : st.part i = st'.part i)
    (e : Event ι) : (st.step e).part i = (st'.step e).part i ∧
      (e.concerns i = false → (st.step e).part i = st'.part i) := by
  obtain ⟨hs, hc⟩ := Prod.mk.injEq .. ▸ h
  cases e with
  | pull j =>
    by_cases hji : j = i
    · subst hji
      simp [part, step, Event.concerns, hs, hc]
    · have hij : i ≠ j := fun h => hji h.symm
      simp [part, step, Event.concerns, hs, hc, hij]
  | _ => simp [part, step, Event.concerns, hs, hc]

/-- **Schedules do not interfere.** A client's part is the same with the pulls of
all other clients left out. -/
theorem System.run_part (st st' : System ad ι) (i : ι) (h : st.part i = st'.part i)
    (events : List (Event ι)) :
    (st.run events).part i = (st'.run (events.filter (Event.concerns i))).part i := by
  induction events generalizing st st' with
  | nil => exact h
  | cons e events ih =>
    cases hc : e.concerns i with
    | true =>
      rw [List.filter_cons_of_pos hc]
      exact ih _ _ (step_part h e).1
    | false =>
      rw [List.filter_cons_of_neg (by simp [hc])]
      exact ih _ _ ((step_part h e).2 hc)

/-- **Convergence, exactly.** After any schedule, a client that pulls and applies
the reply holds the session's two zones, and was told "idle" only if it held them
already, if and only if the open turn has not emptied under it. Its part of the
system is the same whatever the other clients did. -/
theorem pull_converges_iff (had : ad.shaping.Lawful) (o : Open) (events : List (Event ι)) (i : ι) :
    let st := (System.init ad ι o).run events
    let c := st.clients i
    (((st.session.exchange c).Agrees st.session.view ∧
        (c.isIdleTick (st.session.pull c.cursor) = true → c.Agrees st.session.view)) ↔
      ¬Emptied st.session.view c) ∧
    st.part i = ((System.init ad ι o).run (events.filter (Event.concerns i))).part i := by
  intro st c
  have hcoh : Coherent st := (coherent_init had o).run events
  have hf : Follows st.session.view c := hcoh.follows i
  refine ⟨?_, System.run_part _ _ i rfl events⟩
  rw [← hf.servable_iff, ← PullClient.apply_pull_iff hf.counts]
  exact ⟨And.left, fun h => ⟨h, PullClient.agrees_of_idle h⟩⟩

/-! ## the exception happens -/

/-- A prompt is queued, and the queue gives it up again. -/
def queuedThenRemoved : String → List Message
  | "enqueue" => [.lineStart none, .queueOp .enqueue (some "run the tests") true]
  | "remove" => [.lineStart none, .queueOp .remove (some "run the tests") true]
  | _ => []

/-- Two ticks, with a pull after the first. -/
def queuedSchedule : List (Event Unit) :=
  [.advance { lines := [(0, "enqueue")] }, .pull (), .advance { lines := [(40, "remove")] }]

theorem pull_converges_queued :
    let st := (System.init (.scripted queuedThenRemoved) Unit (.withStore [])).run
      (queuedSchedule.take 2)
    (((st.session.exchange (st.clients ())).Agrees st.session.view ∧
        ((st.clients ()).isIdleTick (st.session.pull (st.clients ()).cursor) = true →
          (st.clients ()).Agrees st.session.view)) ↔
      ¬Emptied st.session.view (st.clients ())) ∧ ¬Emptied st.session.view (st.clients ()) :=
  ⟨(pull_converges_iff Shaping.scripted_lawful (.withStore []) (queuedSchedule.take 2) ()).1,
    by decide +kernel⟩

/-- The client is told the tick is idle, and keeps the marker of a prompt the
session no longer shows. -/
theorem pull_misses_emptied :
    let st := (System.init (.scripted queuedThenRemoved) Unit (.withStore [])).run queuedSchedule
    (st.clients ()).isIdleTick (st.session.pull (st.clients ()).cursor) = true ∧
      (st.session.exchange (st.clients ())).blocks = [.queueEvent "run the tests"] ∧
      st.session.blocks = [] := by
  decide +kernel

end SharedSession

end ClaudeReplay
