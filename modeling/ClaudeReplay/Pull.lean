import ClaudeReplay.Lib.Splice
import ClaudeReplay.Model

/-!
# ClaudeReplay.Pull

The pull protocol. A server holds two zones, `committed` (append-only within an
epoch) and `provisional` (the open turn, rewritten in place); a client holds a
copy of each and a `Cursor` of four numbers.

* `pullIndices`, `pull` — the server's half: where in each zone the reply starts;
* `PullClient.apply` — the client's half: per zone, truncate to `from` and extend.

`PullClient.apply_pull_iff` settles one exchange exactly: given nothing about
the client but that its cursor counts its zones, it says when applying the reply
leaves it with the server's zones. What makes the answer "always" is for the
session's history to provide (`Shared`).
-/

namespace ClaudeReplay

open Lib

/-- A client's read position. -/
structure Cursor where
  epoch : Nat := 0
  committedId : Nat := 0
  provisionalGen : Nat := 0
  provisionalIndex : Nat := 0
  deriving DecidableEq, Repr

/-- A pull result. Each `from` is where its zone's blocks go. -/
structure PullReply where
  epoch : Nat
  committedFrom : Nat
  committed : List Block
  provisionalGen : Nat
  provisionalFrom : Nat
  provisional : List Block
  deriving DecidableEq, Repr

namespace PullReply

/-- `is_idle`: the reply carries no blocks. -/
def isIdle (r : PullReply) : Bool := r.committed.isEmpty && r.provisional.isEmpty

/-- `next_cursor`: the cursor a client holds after applying the reply. -/
def nextCursor (r : PullReply) : Cursor where
  epoch := r.epoch
  committedId := r.committedFrom + r.committed.length
  provisionalGen := r.provisionalGen
  provisionalIndex := r.provisionalFrom + r.provisional.length

end PullReply

/-! ## the client -/

/-- `PullClient`: the client's zones, and its cursor. -/
structure PullClient where
  cursor : Cursor := {}
  committed : List Block := []
  provisional : List Block := []
  deriving DecidableEq, Repr

/-- What one `apply` did: the first changed block of the joined view, if any, and
whether the view was rebuilt. -/
structure Applied where
  firstChanged : Option Nat
  resync : Bool
  deriving DecidableEq, Repr

namespace PullClient

/-- `blocks`: the joined view. -/
def blocks (c : PullClient) : List Block := c.committed ++ c.provisional

/-- The committed zone's rule. -/
def applyCommitted (c : PullClient) (r : PullReply) : List Block × Option Nat :=
  if r.epoch ≠ c.cursor.epoch ∨ r.committed.isEmpty = false then
    (splice c.committed r.committedFrom r.committed, some r.committedFrom)
  else (c.committed, none)

/-- The provisional zone's rule, after the committed zone's left `nCommitted` there. -/
def applyProvisional (c : PullClient) (r : PullReply) (nCommitted : Nat) :
    List Block × Option Nat :=
  if r.provisionalFrom < c.provisional.length ∨ r.provisional.isEmpty = false then
    (splice c.provisional r.provisionalFrom r.provisional, some (nCommitted + r.provisionalFrom))
  else (c.provisional, none)

/-- `first.min(…)`. -/
def minChanged : Option Nat → Option Nat → Option Nat
  | some a, some b => some (min a b)
  | some a, none => some a
  | none, b => b

/-- Is the reply an idle tick for this client: the same epoch, and no blocks? -/
def isIdleTick (c : PullClient) (r : PullReply) : Bool :=
  decide (r.epoch = c.cursor.epoch) && r.isIdle

/-- `PullClient::apply`. -/
def apply (c : PullClient) (r : PullReply) : PullClient × Applied :=
  if c.isIdleTick r then (c, ⟨none, false⟩)
  else
    let (committed, first) := c.applyCommitted r
    let (provisional, first') := c.applyProvisional r committed.length
    (⟨r.nextCursor, committed, provisional⟩,
      ⟨minChanged first first', decide (r.epoch ≠ c.cursor.epoch)⟩)

/-- The cursor counts the zones it stands for. -/
structure Counts (c : PullClient) : Prop where
  committed : c.cursor.committedId = c.committed.length
  provisional : c.cursor.provisionalIndex = c.provisional.length

end PullClient

/-! ## the server -/

/-- What a pull reads of a session: its counters and its two zones. -/
structure ServerView where
  epoch : Nat
  gen : Nat
  committed : List Block
  provisional : List Block
  deriving DecidableEq, Repr

/-- `end_cursor`: the cursor of a client that has everything. -/
def ServerView.endCursor (s : ServerView) : Cursor :=
  ⟨s.epoch, s.committed.length, s.gen, s.provisional.length⟩

/-- `pull_indices`: where each zone of the reply starts. -/
def pullIndices (epoch nCommitted nProvisional gen : Nat) (cursor : Cursor) : Nat × Nat :=
  if cursor.epoch ≠ epoch then (0, 0)
  -- a cursor ahead of the committed prefix is served everything
  else if nCommitted < cursor.committedId then (0, 0)
  else
    (cursor.committedId,
      if cursor.committedId < nCommitted ∨ cursor.provisionalGen ≠ gen then 0
      else min cursor.provisionalIndex nProvisional)

/-- `pull`: the reply for a cursor. -/
def pull (s : ServerView) (cursor : Cursor) : PullReply :=
  let (committedFrom, provisionalFrom) :=
    pullIndices s.epoch s.committed.length s.provisional.length s.gen cursor
  { epoch := s.epoch
    committedFrom
    committed := s.committed.drop committedFrom
    provisionalGen := s.gen
    provisionalFrom
    provisional := s.provisional.drop provisionalFrom }

theorem pullIndices_le (epoch nCommitted nProvisional gen : Nat) (cursor : Cursor) :
    (pullIndices epoch nCommitted nProvisional gen cursor).1 ≤ nCommitted ∧
      (pullIndices epoch nCommitted nProvisional gen cursor).2 ≤ nProvisional := by
  unfold pullIndices
  split
  · simp
  · split
    · simp
    · next h =>
      refine ⟨Nat.not_lt.mp h, ?_⟩
      simp only
      split
      · exact Nat.zero_le _
      · exact min_le_right _ _

/-- The provisional zone of a reply never starts past what the cursor holds. -/
theorem pullIndices_le_index (epoch nCommitted nProvisional gen : Nat) (cursor : Cursor) :
    (pullIndices epoch nCommitted nProvisional gen cursor).2 ≤ cursor.provisionalIndex := by
  unfold pullIndices
  split
  · exact Nat.zero_le _
  · split
    · exact Nat.zero_le _
    · simp only
      split
      · exact Nat.zero_le _
      · exact min_le_left _ _

/-- Whatever a reply leaves out, it brings its client to the end of the view. -/
theorem pull_nextCursor (s : ServerView) (cursor : Cursor) :
    (pull s cursor).nextCursor = s.endCursor := by
  obtain ⟨hc, hp⟩ := pullIndices_le s.epoch s.committed.length s.provisional.length s.gen cursor
  simp only [PullReply.nextCursor, pull, ServerView.endCursor, List.length_drop, Cursor.mk.injEq,
    true_and]
  omega

/-! ## one exchange -/

/-- The client's zones are the server's. -/
def PullClient.Agrees (c : PullClient) (s : ServerView) : Prop :=
  c.committed = s.committed ∧ c.provisional = s.provisional

instance (c : PullClient) (s : ServerView) : Decidable (c.Agrees s) :=
  inferInstanceAs (Decidable (_ ∧ _))

/-- What an exchange needs of what the client already holds. At another epoch,
nothing. A cursor ahead of the server's committed count is served from the start,
which an empty committed zone cannot say. Otherwise the committed copy must be a
prefix, and, when the committed zone has not grown past it: under the same
generation the provisional copy must be one too, and under another a provisional
zone that is now empty must already have been. -/
def PullClient.Servable (c : PullClient) (s : ServerView) : Prop :=
  c.cursor.epoch = s.epoch →
    (s.committed.length < c.cursor.committedId → s.committed ≠ []) ∧
    (c.cursor.committedId ≤ s.committed.length → c.committed <+: s.committed ∧
      (c.cursor.committedId = s.committed.length →
        (c.cursor.provisionalGen = s.gen → c.provisional <+: s.provisional) ∧
        (c.cursor.provisionalGen ≠ s.gen → s.provisional = [] → c.provisional = [])))

namespace PullClient

variable {c : PullClient} {s : ServerView}

/-- The committed zone after a reply, idle or not. -/
theorem apply_committed (c : PullClient) (r : PullReply) :
    (c.apply r).1.committed = (c.applyCommitted r).1 := by
  unfold apply
  split
  · next hidle =>
    simp only [isIdleTick, PullReply.isIdle, Bool.and_eq_true, decide_eq_true_eq] at hidle
    rw [applyCommitted, if_neg (by simp [hidle.1, hidle.2.1])]
  · rfl

/-- The provisional zone after a reply: unless the tick is idle, a splice. -/
theorem apply_provisional (c : PullClient) (r : PullReply) :
    (c.apply r).1.provisional =
      if c.isIdleTick r then c.provisional
      else splice c.provisional r.provisionalFrom r.provisional := by
  unfold apply
  split
  · rfl
  · simp only [applyProvisional]
    split
    · rfl
    · next hkeep =>
      -- nothing came and nothing is stale: the splice keeps the copy whole
      simp only [not_or, Bool.not_eq_false, List.isEmpty_iff, Nat.not_lt] at hkeep
      rw [hkeep.2, splice, List.take_of_length_le hkeep.1, List.append_nil]

/-- At another epoch the reply is the whole view, and replaces whatever was held. -/
theorem apply_resync (c : PullClient) (s : ServerView) (h : c.cursor.epoch ≠ s.epoch) :
    (c.apply (pull s c.cursor)).1.Agrees s := by
  have hidle : c.isIdleTick (pull s c.cursor) = false := by
    simp [isIdleTick, pull, Ne.symm h]
  have hresync : (pull s c.cursor).epoch ≠ c.cursor.epoch := Ne.symm h
  rw [Agrees, apply_committed, apply_provisional, hidle, applyCommitted, if_pos (.inl hresync)]
  simp [pull, pullIndices, h]

/-- A cursor ahead of the committed prefix is served from the start. -/
theorem apply_ahead_iff (hc : c.Counts) (he : c.cursor.epoch = s.epoch)
    (hlt : s.committed.length < c.cursor.committedId) :
    (c.apply (pull s c.cursor)).1.Agrees s ↔ s.committed ≠ [] := by
  have hpull : pull s c.cursor = ⟨s.epoch, 0, s.committed, s.gen, 0, s.provisional⟩ := by
    simp [pull, pullIndices, he, hlt]
  rw [hpull, Agrees, apply_committed, apply_provisional]
  cases hC : s.committed with
  | nil =>
    have hne : c.committed ≠ [] := by
      intro hnil
      rw [hc.committed, hnil] at hlt
      simp at hlt
    simp [applyCommitted, he, hne]
  | cons b bs => simp [applyCommitted, isIdleTick, PullReply.isIdle]

/-- Within an epoch, the committed copy is extended past its own end. -/
theorem apply_committed_eq (hc : c.Counts) (he : c.cursor.epoch = s.epoch)
    (hle : c.cursor.committedId ≤ s.committed.length) :
    (c.apply (pull s c.cursor)).1.committed =
      splice c.committed c.committed.length (s.committed.drop c.committed.length) := by
  have hfrom : (pull s c.cursor).committedFrom = c.committed.length := by
    rw [← hc.committed]
    simp [pull, pullIndices, he, Nat.not_lt.mpr hle]
  have hdrop : (pull s c.cursor).committed = s.committed.drop c.committed.length := by
    rw [← hfrom]
    rfl
  rw [apply_committed, applyCommitted, hfrom, hdrop]
  split
  · rfl
  · next hkeep =>
    simp only [not_or, Bool.not_eq_false, List.isEmpty_iff] at hkeep
    simp only [hkeep.2, splice_length, List.append_nil]

/-- Within an epoch, the committed copy ends up right exactly when it was a prefix. -/
theorem apply_committed_iff (hc : c.Counts) (he : c.cursor.epoch = s.epoch)
    (hle : c.cursor.committedId ≤ s.committed.length) :
    (c.apply (pull s c.cursor)).1.committed = s.committed ↔ c.committed <+: s.committed := by
  rw [apply_committed_eq hc he hle, splice_length_drop_iff]

/-- Growth of the committed zone resends the provisional zone whole. -/
theorem apply_provisional_of_grew (he : c.cursor.epoch = s.epoch)
    (hlt : c.cursor.committedId < s.committed.length) :
    (c.apply (pull s c.cursor)).1.provisional = s.provisional := by
  have hpull : pull s c.cursor = ⟨s.epoch, c.cursor.committedId,
      s.committed.drop c.cursor.committedId, s.gen, 0, s.provisional⟩ := by
    simp [pull, pullIndices, he, hlt, Nat.not_lt.mpr hlt.le]
  have hidle : c.isIdleTick (pull s c.cursor) = false := by
    simp [hpull, isIdleTick, PullReply.isIdle, hlt]
  rw [apply_provisional, hidle, hpull]
  simp

/-- With no growth and another generation, the provisional zone is resent whole,
which an empty one does not show. -/
theorem apply_provisional_of_gen (he : c.cursor.epoch = s.epoch)
    (heq : c.cursor.committedId = s.committed.length) (hg : c.cursor.provisionalGen ≠ s.gen) :
    (c.apply (pull s c.cursor)).1.provisional = s.provisional ↔
      (s.provisional = [] → c.provisional = []) := by
  have hpull : pull s c.cursor = ⟨s.epoch, s.committed.length, [], s.gen, 0, s.provisional⟩ := by
    simp [pull, pullIndices, he, heq, hg]
  rw [apply_provisional, hpull]
  cases hP : s.provisional with
  | nil => simp [isIdleTick, PullReply.isIdle, he]
  | cons b bs => simp [isIdleTick, PullReply.isIdle]

/-- With no growth and the same generation only the suffix is sent. -/
theorem apply_provisional_of_append (hc : c.Counts) (he : c.cursor.epoch = s.epoch)
    (heq : c.cursor.committedId = s.committed.length) (hg : c.cursor.provisionalGen = s.gen) :
    (c.apply (pull s c.cursor)).1.provisional = s.provisional ↔ c.provisional <+: s.provisional := by
  have hpull : pull s c.cursor = ⟨s.epoch, s.committed.length, [], s.gen,
      min c.provisional.length s.provisional.length,
      s.provisional.drop (min c.provisional.length s.provisional.length)⟩ := by
    simp [pull, pullIndices, he, heq, hg, hc.provisional]
  rw [apply_provisional, hpull]
  by_cases hlen : s.provisional.length ≤ c.provisional.length
  · -- nothing to send: the copy stands as it is
    have hidle : c.isIdleTick ⟨s.epoch, s.committed.length, [], s.gen,
        min c.provisional.length s.provisional.length,
        s.provisional.drop (min c.provisional.length s.provisional.length)⟩ = true := by
      simp [isIdleTick, PullReply.isIdle, he, min_eq_right hlen]
    rw [if_pos hidle]
    constructor
    · intro h
      exact h ▸ List.prefix_refl _
    · intro h
      exact h.eq_of_length (le_antisymm h.length_le hlen)
  · have hidle : c.isIdleTick ⟨s.epoch, s.committed.length, [], s.gen,
        min c.provisional.length s.provisional.length,
        s.provisional.drop (min c.provisional.length s.provisional.length)⟩ = false := by
      simp only [isIdleTick, PullReply.isIdle]
      simp
      omega
    rw [hidle, min_eq_left (by omega)]
    simpa using splice_length_drop_iff c.provisional s.provisional

/-- **One exchange, exactly.** A client whose cursor counts its zones ends up
with the server's zones if and only if what it held was servable. -/
theorem apply_pull_iff (hc : c.Counts) (s : ServerView) :
    (c.apply (pull s c.cursor)).1.Agrees s ↔ c.Servable s := by
  by_cases he : c.cursor.epoch = s.epoch
  · obtain hlt | heq | hgt := lt_trichotomy c.cursor.committedId s.committed.length
    · rw [Agrees, apply_committed_iff hc he hlt.le, apply_provisional_of_grew he hlt]
      simp [Servable, he, hlt.le, hlt.ne, Nat.not_lt.mpr hlt.le]
    · rw [Agrees, apply_committed_iff hc he heq.le]
      by_cases hg : c.cursor.provisionalGen = s.gen
      · rw [apply_provisional_of_append hc he heq hg]
        simp [Servable, he, heq, hg]
      · rw [apply_provisional_of_gen he heq hg]
        simp [Servable, he, heq, hg]
    · rw [apply_ahead_iff hc he hgt]
      simp [Servable, he, hgt, Nat.not_le.mpr hgt]
  · exact ⟨fun _ h => absurd h he, fun _ => c.apply_resync s he⟩

/-- After a tick that is not idle the cursor stands at the end of the server's view. -/
theorem apply_cursor (c : PullClient) (s : ServerView) :
    (c.apply (pull s c.cursor)).1.cursor =
      if c.isIdleTick (pull s c.cursor) then c.cursor else s.endCursor := by
  unfold apply
  split
  · rfl
  · exact pull_nextCursor s c.cursor

/-- An idle tick leaves the client as it was. -/
theorem apply_idle (h : c.isIdleTick r = true) : (c.apply r).1 = c := by
  rw [apply, if_pos h]

/-- **A client that ends up with the server's zones is idle only if it had them.** -/
theorem agrees_of_idle (h : (c.apply (pull s c.cursor)).1.Agrees s)
    (hidle : c.isIdleTick (pull s c.cursor) = true) : c.Agrees s := by
  rwa [apply_idle hidle] at h

/-- Within the committed prefix, the cursor goes on counting the zones. -/
theorem apply_counts (hc : c.Counts) (s : ServerView)
    (h : c.cursor.epoch = s.epoch → c.cursor.committedId ≤ s.committed.length) :
    (c.apply (pull s c.cursor)).1.Counts := by
  cases hidle : c.isIdleTick (pull s c.cursor) with
  | true => rwa [apply_idle hidle]
  | false =>
    have hcur : (c.apply (pull s c.cursor)).1.cursor = s.endCursor := by
      rw [apply_cursor, hidle, if_neg Bool.false_ne_true]
    by_cases he : c.cursor.epoch = s.epoch
    · have hle := h he
      refine ⟨?_, ?_⟩
      · rw [hcur, apply_committed_eq hc he hle, splice, List.length_append, List.take_length,
          List.length_drop]
        simp only [ServerView.endCursor]
        rw [hc.committed] at hle
        omega
      · have hp : (pull s c.cursor).provisionalFrom ≤ c.provisional.length := by
          rw [← hc.provisional]
          exact pullIndices_le_index s.epoch s.committed.length s.provisional.length s.gen c.cursor
        have hp' : (pull s c.cursor).provisionalFrom ≤ s.provisional.length :=
          (pullIndices_le s.epoch s.committed.length s.provisional.length s.gen c.cursor).2
        have hlen : (pull s c.cursor).provisional.length =
            s.provisional.length - (pull s c.cursor).provisionalFrom := List.length_drop
        rw [hcur, apply_provisional, hidle, if_neg Bool.false_ne_true, splice, List.length_append,
          List.length_take, min_eq_left hp, hlen]
        simp only [ServerView.endCursor]
        omega
    · obtain ⟨hcom, hprov⟩ := c.apply_resync s he
      exact ⟨by rw [hcur, hcom]; rfl, by rw [hcur, hprov]; rfl⟩

end PullClient

end ClaudeReplay
