import ClaudeReplay.Gateway.Marks

/-!
# ClaudeReplay.Gateway.Unread

A finished message of a legacy thread is not left unread.

When a message or a turn of a legacy thread ends, its history is to be read again: a read that was
issued before does not have it. Until one is remembered that was issued after, the snapshots of
the thread say that it is dirty (`Unread.shown`). Where the marks that say so are dropped, the
thread is not shown as an active one, and what was read before is refused (`Fenced`); only the
failure of a resume that had reserved the thread does not see to it.

What an event does to one thread is told in moves (`Moves`), each of which keeps what is unread.
-/

namespace ClaudeReplay.Gateway

open Lib

variable {t : String}

/-! ## what a session keeps of a thread -/

namespace Session

variable {g g' : Session} {e : Event} {seq : Nat}

/-- The event is a full read of the thread, taken, that was issued at `seq` or later. -/
def Reads (t : String) (seq : Nat) (g : Session) : Event → Prop
  | .reply read result scope => read.threadId = t ∧ seq ≤ read.after ∧
      g.state.takes result t read.after scope = true
  | .archived thread epoch after scope => isText (thread.get "id") t = true ∧ seq ≤ after ∧
      (g.state.rememberArchivedScoped thread epoch after scope).isSome = true
  | _ => False

/-- Every read of the thread in flight was issued after its dirty mark, or will be refused. -/
def NoneStale (t : String) (g : Session) : Prop :=
  ∀ read ∈ g.reads, read.threadId = t →
    (g.state.legacyHistoryDirtySequences.find? t).all (· ≤ read.after) = true ∨
      g.state.snapshotInvalidatedAfter t read.after = true

/-- The history of the thread was read up to its dirty mark. -/
def ReadUp (t : String) (s : State) : Prop :=
  ∀ d, s.legacyHistoryDirtySequences.find? t = some d →
    d ≤ (s.legacyHistoryReadSequences.find? t).getD 0

/-- What an event of a session on the legacy thread `t` must find. What is told of the thread says
that it is a legacy one, and it starts before anything else of it; the connection is not replaced;
a resume that had reserved the thread fails only where the thread is not shown as an active one,
or read up; and then, as where the thread is not recovered, none of its reads in flight is stale. -/
def OnLegacy (t : String) (g : Session) : Event → Prop
  | .notify message _ => State.starts message t = true →
      isLegacy ((message.get "params").get "thread") = true ∧
        ((g.state.threads.find? t).isSome = true ∨ g.state.newerThan t 0 = false)
  | .reply read result _ => read.threadId = t → isLegacy (result.get "thread") = true
  | .archived thread _ _ _ => isText (thread.get "id") t = true → isLegacy thread = true
  | .connect connection => g.state.replaces connection = false
  | .reconnect _ => False
  | .release threadId => threadId = t →
      (Hidden t g.state ∨ ReadUp t g.state) ∧ NoneStale t g
  | .recoverArchived threadId => threadId = t → NoneStale t g
  | .recoverFailed threadId _ => threadId = t → NoneStale t g
  | _ => True

/-- What holds of the thread all along. -/
structure Held (t : String) (g : Session) : Prop where
  legacy : (g.state.threads.find? t).all isLegacy = true
  read : ∀ r, g.state.legacyHistoryReadSequences.find? t = some r → r ≤ g.state.sequence
  reads : ∀ read ∈ g.reads, read.after ≤ g.state.sequence

/-- The thread is not shown as an active one, and what was read of it before `seq` is refused. -/
structure Fenced (t : String) (seq : Nat) (g : Session) : Prop where
  hidden : Hidden t g.state
  refused : ∀ read ∈ g.reads, read.threadId = t → read.after < seq →
    g.state.snapshotInvalidatedAfter t read.after = true

/-- Nothing was read since `seq`, and the thread is dirty since then, or fenced. -/
structure Unread (t : String) (seq : Nat) (g : Session) : Prop where
  held : Held t g
  pos : 0 < seq
  le : seq ≤ g.state.sequence
  read : ∀ r, g.state.legacyHistoryReadSequences.find? t = some r → r < seq
  newer : (∀ after < seq, g.state.TurnAfter t after) ∨
    ∃ changed, g.state.scopeChangeSequences.find? t = some changed ∧ seq ≤ changed
  dirty : (∃ d, g.state.legacyHistoryDirtySequences.find? t = some d ∧ seq ≤ d) ∨ Fenced t seq g

theorem held_start (roots : List String) (requestNamespace : String) :
    Held t (start roots requestNamespace) :=
  ⟨rfl, fun _ h => (nomatch h), fun _ h => (nomatch h)⟩

/-- What was not read is dirty, if it is shown. -/
theorem Unread.shown (h : Unread t seq g) (hknown : (g.state.threads.find? t).isSome = true)
    (hactive : t ∉ g.state.archivedThreads) : g.state.legacyHistoryDirty t = true := by
  obtain ⟨thread, hthread⟩ := Option.isSome_iff_exists.mp hknown
  have hlegacy := h.held.legacy
  rw [hthread] at hlegacy
  obtain ⟨d, hd, hle⟩ | hfenced := h.dirty
  · rw [State.legacyHistoryDirty, hthread, hd]
    simp only [hactive, not_false_eq_true, decide_true, Option.any_some, Bool.true_and,
      Bool.and_eq_true, decide_eq_true_eq]
    refine ⟨hlegacy, ?_⟩
    cases hread : g.state.legacyHistoryReadSequences.find? t with
    | none =>
      rw [Option.getD_none]
      exact Nat.lt_of_lt_of_le h.pos hle
    | some r =>
      rw [Option.getD_some]
      exact Nat.lt_of_lt_of_le (h.read r hread) hle
  · obtain hnone | harchived := hfenced.hidden
    · rw [hnone] at hthread
      cases hthread
    · exact absurd harchived hactive

/-- The reads of a session after a step: those in flight before, and one issued at it. -/
def ReadsFrom (g g' : Session) : Prop :=
  ∀ r' ∈ g'.reads, (∃ r ∈ g.reads, r.threadId = r'.threadId ∧ r.after = r'.after) ∨
    r'.after = g.state.sequence

theorem readsFrom_of_mem (h : ∀ r ∈ g'.reads, r ∈ g.reads) : ReadsFrom g g' :=
  fun r hr => .inl ⟨r, h r hr, rfl, rfl⟩

theorem ReadsFrom.after_le (h : ReadsFrom g g') (hheld : Held t g) {r : Read} (hr : r ∈ g'.reads) :
    r.after ≤ g.state.sequence := by
  obtain ⟨r', hr', _, hafter⟩ | hafter := h r hr
  · rw [← hafter]
    exact hheld.reads r' hr'
  · exact Nat.le_of_eq hafter

/-! ## steady steps -/

section

variable {started : Prop} (hsteady : Steady t started g.state g'.state) (hreads : ReadsFrom g g')

include hsteady hreads

theorem Held.steady (h : Held t g) : Held t g' where
  legacy := hsteady.legacy h.legacy
  read r hr := by
    rw [hsteady.read] at hr
    exact Nat.le_trans (h.read r hr) hsteady.sequence
  reads r hr := Nat.le_trans (hreads.after_le h hr) hsteady.sequence

theorem Unread.steady (h : Unread t seq g)
    (hstarted : started → (g.state.threads.find? t).isSome = true) : Unread t seq g' where
  held := h.held.steady hsteady hreads
  pos := h.pos
  le := Nat.le_trans h.le hsteady.sequence
  read r hr := by
    rw [hsteady.read] at hr
    exact h.read r hr
  newer := by
    obtain hturns | ⟨changed, hchanged, hle⟩ := h.newer
    · refine .inl fun after hlt => hsteady.turns after ?_ (hturns after hlt)
      exact Nat.le_trans (Nat.le_of_lt hlt) h.le
    · obtain hsame | ⟨n, hn, hlt⟩ := hsteady.scope
      · exact .inr ⟨changed, hsame.trans hchanged, hle⟩
      · exact .inr ⟨n, hn, Nat.le_of_lt (Nat.lt_of_le_of_lt h.le hlt)⟩
  dirty := by
    obtain ⟨d, hd, hle⟩ | hfenced := h.dirty
    · obtain hsame | ⟨n, hn, hlt⟩ := hsteady.dirty
      · exact .inl ⟨d, hsame.trans hd, hle⟩
      · exact .inl ⟨n, hn, Nat.le_of_lt (Nat.lt_of_le_of_lt h.le hlt)⟩
    · refine .inr ⟨?_, fun r hr hid hlt => ?_⟩
      · obtain hnone | harchived := hfenced.hidden
        · left
          rw [← Option.not_isSome_iff_eq_none]
          intro hknown
          have hknown : (g.state.threads.find? t).isSome = true := by
            obtain hknown | hstart := hsteady.known hknown
            · exact hknown
            · exact hstarted hstart
          rw [hnone] at hknown
          nomatch hknown
        · exact .inr (hsteady.archived.mpr harchived)
      · obtain ⟨r', hr', hid', hafter⟩ | hafter := hreads r hr
        · -- what refused the read still does, or something newer
          have hrefused := hfenced.refused r' hr' (hid'.trans hid) (by omega)
          have hle := h.held.reads r' hr'
          rw [State.invalidated_iff] at hrefused ⊢
          rw [← hafter]
          obtain hscope | haccess := hrefused
          · left
            obtain hsame | ⟨n, hn, hlt⟩ := hsteady.scope
            · rwa [hsame]
            · rw [hn, Option.any_some, decide_eq_true_eq]
              omega
          · right
            obtain hsame | ⟨n, hn, hlt⟩ := hsteady.access
            · rwa [hsame]
            · rw [hn, Option.any_some, decide_eq_true_eq]
              omega
        · have hle := h.le
          omega

end

/-! ## moves that drop the marks -/

theorem Held.drops (h : Held t g) (hdrops : Drops t g.state g'.state) (hreads : ReadsFrom g g') :
    Held t g' where
  legacy := hdrops.legacy h.legacy
  read r hr := by
    rw [hdrops.read] at hr
    nomatch hr
  reads r hr := Nat.le_trans (hreads.after_le h hr) hdrops.sequence

theorem Unread.drops (h : Unread t seq g) (hdrops : Drops t g.state g'.state)
    (hreads : ReadsFrom g g') (hfenced : Fenced t seq g') : Unread t seq g' where
  held := h.held.drops hdrops hreads
  pos := h.pos
  le := Nat.le_trans h.le hdrops.sequence
  read r hr := by
    rw [hdrops.read] at hr
    nomatch hr
  newer := by
    obtain ⟨hturns, hscope⟩ | ⟨n, hn, hlt⟩ := hdrops.newer
    · obtain hold | ⟨changed, hchanged, hle⟩ := h.newer
      · refine .inl fun after hlt => hturns after ?_ (hold after hlt)
        exact Nat.le_trans (Nat.le_of_lt hlt) h.le
      · obtain hsame | ⟨n, hn, hlt⟩ := hscope
        · exact .inr ⟨changed, hsame.trans hchanged, hle⟩
        · exact .inr ⟨n, hn, Nat.le_of_lt (Nat.lt_of_le_of_lt h.le hlt)⟩
    · exact .inr ⟨n, hn, Nat.le_of_lt (Nat.lt_of_le_of_lt h.le hlt)⟩
  dirty := .inr hfenced

/-- What is not read up to its mark is unread. -/
theorem Unread.not_readUp (h : Unread t seq g) {d : Nat}
    (hd : g.state.legacyHistoryDirtySequences.find? t = some d) (hle : seq ≤ d) :
    ¬ReadUp t g.state := by
  intro hup
  have hread := hup d hd
  have hpos := h.pos
  cases hr : g.state.legacyHistoryReadSequences.find? t with
  | none =>
    rw [hr, Option.getD_none] at hread
    omega
  | some r =>
    have hlt := h.read r hr
    rw [hr, Option.getD_some] at hread
    omega

/-- **Where no read in flight is stale**, the marks may be dropped without a fence. -/
theorem Unread.drops_of_noneStale (h : Unread t seq g) (hstale : NoneStale t g)
    (hdrops : Drops t g.state g'.state) (hreads : g'.reads = g.reads)
    (hscope : g'.state.scopeChangeSequences = g.state.scopeChangeSequences)
    (haccess : g'.state.accessSequences = g.state.accessSequences)
    (hhidden : Hidden t g'.state) : Unread t seq g' := by
  refine h.drops hdrops (readsFrom_of_mem fun r hr => hreads ▸ hr) ⟨hhidden, ?_⟩
  intro r hr hid hlt
  rw [hreads] at hr
  have hrefused : g.state.snapshotInvalidatedAfter t r.after = true := by
    obtain ⟨d, hd, hle⟩ | hfenced := h.dirty
    · obtain hfresh | hrefused := hstale r hr hid
      · rw [hd, Option.all_some, decide_eq_true_eq] at hfresh
        omega
      · exact hrefused
    · exact hfenced.refused r hr hid hlt
  rw [State.invalidated_iff] at hrefused ⊢
  rwa [hscope, haccess]

/-! ## moves -/

/-- What a step does to the thread: it may change what is not its history, close it, give it up, or
read its history at `after`. -/
inductive Moves (t : String) (g : Session) : Option Nat → Session → Prop
  | steady {g' : Session} (started : Prop) :
      Steady t started g.state g'.state → ReadsFrom g g' →
      (started → (g.state.threads.find? t).isSome = true ∨ g.state.newerThan t 0 = false) →
      Moves t g none g'
  | fences {g' : Session} : Fences t g.state g'.state → ReadsFrom g g' → Moves t g none g'
  | drops {g' : Session} : Drops t g.state g'.state → g'.reads = g.reads →
      g'.state.scopeChangeSequences = g.state.scopeChangeSequences →
      g'.state.accessSequences = g.state.accessSequences →
      (Hidden t g.state ∨ ¬ReadUp t g.state → Hidden t g'.state) → NoneStale t g →
      Moves t g none g'
  | takes {g' : Session} (after : Nat) : Takes t after g.state g'.state → ReadsFrom g g' →
      (∃ r ∈ g.reads, r.threadId = t ∧ r.after = after) → Moves t g (some after) g'
  | archived {g' : Session} (after : Nat) : Drops t g.state g'.state → g'.reads = g.reads →
      g.state.newerThan t after = false → Moves t g (some after) g'

theorem Held.moves (h : Held t g) {read : Option Nat} (hmoves : Moves t g read g') :
    Held t g' := by
  cases hmoves with
  | steady started hsteady hreads _ => exact h.steady hsteady hreads
  | fences hfences hreads => exact h.drops hfences.toDrops hreads
  | drops hdrops hreads _ _ _ _ =>
    exact h.drops hdrops (readsFrom_of_mem fun r hr => hreads ▸ hr)
  | takes after htakes hreads hissued =>
    constructor
    · exact htakes.legacy
    · intro r hr
      rw [htakes.read] at hr
      cases hr
      obtain ⟨read, hread, -, rfl⟩ := hissued
      rw [htakes.sequence]
      exact h.reads read hread
    · intro r hr
      rw [htakes.sequence]
      exact hreads.after_le h hr
  | archived after hdrops hreads _ =>
    exact h.drops hdrops (readsFrom_of_mem fun r hr => hreads ▸ hr)

/-- Something of an unread thread is newer than every read issued before it ended. -/
theorem Unread.newerThan (h : Unread t seq g) {after : Nat} (hlt : after < seq) :
    g.state.newerThan t after = true := by
  unfold State.newerThan
  rw [Bool.or_eq_true]
  obtain hturns | ⟨changed, hchanged, hle⟩ := h.newer
  · right
    obtain ⟨turnId, changed, hchanged, hafter⟩ := hturns after hlt
    rw [List.any_eq_true]
    refine ⟨_, Table.mem_iff.mpr hchanged, ?_⟩
    rw [decide_eq_true rfl, decide_eq_true hafter, Bool.and_self]
  · left
    simp only [List.any_cons, Bool.or_eq_true]
    left
    rw [hchanged, Option.any_some, decide_eq_true_eq]
    omega

/-- **One move** of a thread leaves it unread, unless it reads what ended. -/
theorem Unread.moves (h : Unread t seq g) {read : Option Nat} (hmoves : Moves t g read g')
    (hread : ∀ after, read = some after → after < seq) : Unread t seq g' := by
  cases hmoves with
  | steady started hsteady hreads hstarted =>
    refine h.steady hsteady hreads fun hstart => ?_
    obtain hknown | hnothing := hstarted hstart
    · exact hknown
    · rw [h.newerThan h.pos] at hnothing
      nomatch hnothing
  | fences hfences hreads =>
    refine h.drops hfences.toDrops hreads ⟨hfences.hidden, fun r hr _ _ => ?_⟩
    exact hfences.refused r.after (hreads.after_le h.held hr)
  | drops hdrops hreads hscope haccess hhides hstale =>
    refine h.drops_of_noneStale hstale hdrops hreads hscope haccess (hhides ?_)
    obtain ⟨d, hd, hle⟩ | hfenced := h.dirty
    · exact .inr (h.not_readUp hd hle)
    · exact .inl hfenced.hidden
  | takes after htakes hreads hissued =>
    have hlt := hread after rfl
    exact
      { held := h.held.moves (.takes after htakes hreads hissued)
        pos := h.pos
        le := by
          rw [htakes.sequence]
          exact h.le
        read := fun r hr => by
          rw [htakes.read] at hr
          cases hr
          exact hlt
        newer := by
          rw [htakes.scope]
          refine h.newer.imp_left fun hturns before hbefore => ?_
          refine htakes.turns before ?_ (hturns before hbefore)
          exact Nat.le_trans (Nat.le_of_lt hbefore) h.le
        dirty := by
          obtain hdirty | hfenced := h.dirty
          · left
            rw [htakes.dirty]
            exact hdirty
          · -- what is fenced is not taken
            obtain ⟨r, hr, hid, rfl⟩ := hissued
            have hrefused := hfenced.refused r hr hid hlt
            rw [htakes.valid] at hrefused
            nomatch hrefused }
  | archived after hdrops hreads hnewer =>
    rw [h.newerThan (hread after rfl)] at hnewer
    nomatch hnewer

/-! ## the moves of a step -/

/-- A step told in moves, none of which reads what the event does not. -/
def InMoves (t : String) (g : Session) (e : Event) (g' : Session) : Prop :=
  ∃ ls, Run (Moves t) g ls g' ∧
    ∀ seq, ¬Reads t seq g e → ∀ after, some after ∈ ls → after < seq

theorem Moves.inMoves (h : Moves t g none g') : InMoves t g e g' :=
  ⟨[none], .cons h (.nil _), fun _ _ _ hmem => by simp at hmem⟩

theorem inMoves_of_steady (h : Steady t False g.state g'.state) (hreads : ReadsFrom g g') :
    InMoves t g e g' :=
  (Moves.steady False h hreads False.elim).inMoves

theorem readsFrom_mark {archived : Option String}
    (h : g'.reads = g.reads.map (Read.mark archived)) : ReadsFrom g g' := by
  intro r' hr'
  rw [h] at hr'
  obtain ⟨r, hr, rfl⟩ := List.mem_map.mp hr'
  refine .inl ⟨r, hr, ?_⟩
  unfold Read.mark
  split
  · exact ⟨rfl, rfl⟩
  · exact ⟨rfl, rfl⟩

theorem moves_forget (g : Session) (id : String) (scope : DirectoryScope) :
    Moves t g none { g with state := g.state.forgetOutsideScope id scope } := by
  by_cases hid : t = id
  · subst hid
    exact .fences (State.fences_forget _ _ _) (readsFrom_of_mem fun _ h => h)
  · exact .steady False (State.steady_forget hid scope) (readsFrom_of_mem fun _ h => h) False.elim

theorem notify_inMoves {message : Value} {scope : DirectoryScope}
    (h : OnLegacy t g (.notify message scope))
    (hstep : g.step (.notify message scope) = some g') :
    InMoves t g (.notify message scope) g' := by
  obtain rfl := Option.some.inj hstep
  let noted : Session :=
    { state := g.state.noteArchive message, reads := g.reads.map (Read.mark (archivedId message)) }
  have hnoted : Moves t g none noted := by
    obtain hsteady | hfences := g.state.noteArchive_steady message
    · exact .steady False hsteady (readsFrom_mark rfl) False.elim
    · exact .fences hfences (readsFrom_mark rfl)
  have hmove (u : State) (hu : Steady t (State.starts message t = true) noted.state u) :
      Moves t noted none { noted with state := u } := by
    refine .steady _ hu (readsFrom_of_mem fun _ h => h) fun hstarts => ?_
    show ((g.state.noteArchive message).threads.find? t).isSome = true ∨
      (g.state.noteArchive message).newerThan t 0 = false
    rw [State.noteArchive_of_starts hstarts]
    exact (h hstarts).2
  obtain hsteady | ⟨u, id, hsteady, hforget⟩ := g.state.steady_reduceScoped scope
    fun hstarts => ⟨hstarts, (h hstarts).1⟩
  · exact ⟨[none, none], .cons hnoted (.cons (hmove _ hsteady) (.nil _)),
      fun _ _ _ hmem => by simp at hmem⟩
  · rw [hforget]
    exact ⟨[none, none, none], .cons hnoted (.cons (hmove u hsteady)
      (.cons (moves_forget _ id scope) (.nil _))), fun _ _ _ hmem => by simp at hmem⟩

theorem reply_inMoves {read : Read} {result : Value} {scope : DirectoryScope}
    (h : OnLegacy t g (.reply read result scope))
    (hstep : g.step (.reply read result scope) = some g') :
    InMoves t g (.reply read result scope) g' := by
  simp only [step] at hstep
  split at hstep
  · next hguard =>
    obtain rfl := Option.some.inj hstep
    obtain ⟨hread, hname⟩ := hguard
    have hreads (u : State) : ReadsFrom g { state := u, reads := g.reads.erase read } :=
      readsFrom_of_mem fun r hr => List.mem_of_mem_erase hr
    obtain ⟨htakes, hmerge⟩ | hsame | hforget :=
      @State.rememberScoped_takes g.state result _ read.after scope hname
    · rw [hmerge]
      by_cases hid : t = read.threadId
      · subst hid
        have hvalid : g.state.snapshotInvalidatedAfter read.threadId read.after = false := by
          rw [State.takes, Bool.and_eq_true, Bool.not_eq_true'] at htakes
          exact htakes.1
        refine ⟨[some read.after], .cons (.takes read.after (State.takes_merge hvalid (h rfl))
          (hreads _) ⟨read, hread, rfl, rfl⟩) (.nil _), fun seq hnot after hmem => ?_⟩
        simp only [List.mem_singleton, Option.some.injEq] at hmem
        subst hmem
        rw [← Nat.not_le]
        exact fun hle => hnot ⟨rfl, hle, htakes⟩
      · exact inMoves_of_steady (State.steady_merge hid _ _ _) (hreads _)
    · rw [hsame]
      exact inMoves_of_steady (.refl _) (hreads _)
    · rw [hforget]
      by_cases hid : t = read.threadId
      · subst hid
        exact Moves.inMoves (.fences (State.fences_forget _ _ _) (hreads _))
      · exact inMoves_of_steady (State.steady_forget hid scope) (hreads _)
  · contradiction

theorem archived_inMoves {thread : Value} {epoch after : Nat} {scope : DirectoryScope}
    (h : OnLegacy t g (.archived thread epoch after scope))
    (hstep : g.step (.archived thread epoch after scope) = some g') :
    InMoves t g (.archived thread epoch after scope) g' := by
  obtain rfl := Option.some.inj hstep
  cases hstored : g.state.rememberArchivedScoped thread epoch after scope with
  | none => exact inMoves_of_steady (.refl _) (readsFrom_of_mem fun _ h => h)
  | some u =>
    obtain hsteady | ⟨hname, hnewer, hdrops⟩ := State.rememberArchived_steady hstored
    · exact inMoves_of_steady hsteady (readsFrom_of_mem fun _ h => h)
    · have hmove : Moves t g (some after) { g with state := u } :=
        .archived after (hdrops (h hname)) rfl hnewer
      refine ⟨[some after], .cons hmove (.nil _), fun seq hnot after' hmem => ?_⟩
      simp only [List.mem_singleton, Option.some.injEq] at hmem
      subst hmem
      rw [← Nat.not_le]
      exact fun hle => hnot ⟨hname, hle, by rw [hstored]; rfl⟩

/-- **A step** is told in moves. -/
theorem step_inMoves (h : OnLegacy t g e) (hstep : g.step e = some g') : InMoves t g e g' := by
  -- what the worker writes itself leaves the reads in flight
  have hsteady (u : State) (hu : Steady t False g.state u) :
      InMoves t g e { g with state := u } :=
    inMoves_of_steady hu (readsFrom_of_mem fun _ h => h)
  cases e with
  | notify message scope => exact notify_inMoves h hstep
  | reply read result scope => exact reply_inMoves h hstep
  | archived thread epoch after scope => exact archived_inMoves h hstep
  | issue threadId =>
    obtain rfl := Option.some.inj hstep
    refine inMoves_of_steady (.refl _) fun r hr => ?_
    obtain hr | hr := List.mem_append.mp hr
    · exact .inl ⟨r, hr, rfl, rfl⟩
    · obtain rfl := List.mem_singleton.mp hr
      exact .inr rfl
  | lose read =>
    obtain rfl := Option.some.inj hstep
    exact inMoves_of_steady (.refl _) (readsFrom_of_mem fun r hr => List.mem_of_mem_erase hr)
  | begin threadId =>
    obtain rfl := Option.some.inj hstep
    exact hsteady _ (State.steady_beginResume _ _)
  | finish threadId =>
    obtain rfl := Option.some.inj hstep
    exact hsteady _ (State.steady_finishResume _ _)
  | connect connection =>
    obtain rfl := Option.some.inj hstep
    exact hsteady _ (State.steady_connect _ h)
  | reconnect cause => exact False.elim h
  | reserve threadId =>
    obtain rfl := Option.some.inj hstep
    exact hsteady _ (.of_histories rfl (Nat.le_refl _))
  | clearRequests =>
    obtain rfl := Option.some.inj hstep
    exact hsteady _ (.of_histories rfl (Nat.le_refl _))
  | deactivate =>
    obtain rfl := Option.some.inj hstep
    exact hsteady _ (State.steady_deactivate _)
  | release threadId =>
    obtain rfl := Option.some.inj hstep
    by_cases hid : t = threadId
    · subst hid
      obtain ⟨hshown, hstale⟩ := h rfl
      refine Moves.inMoves (.drops (State.drops_of_cleared (Nat.le_refl _) (fun h => h) rfl rfl rfl)
        rfl rfl rfl ?_ hstale)
      rintro (hhidden | hunread)
      · exact hhidden
      · exact hshown.resolve_right hunread
    · exact hsteady _ (State.steady_release hid _)
  | recoverArchived threadId =>
    obtain rfl := Option.some.inj hstep
    by_cases hid : t = threadId
    · subst hid
      exact Moves.inMoves (.drops (State.drops_of_cleared (Nat.le_succ _) (fun h => h) rfl rfl rfl)
        rfl rfl rfl (fun _ => .inr (Finset.mem_insert_self t _)) (h rfl))
    · exact hsteady _ (State.steady_recoverArchived hid _)
  | recoverFailed threadId message =>
    obtain rfl := Option.some.inj hstep
    by_cases hid : t = threadId
    · subst hid
      have hgone : (g.state.recoverFailed t message).threads.find? t = none := by
        show (g.state.threads.erase t).find? t = none
        rw [Table.find?_erase, if_pos rfl]
      exact Moves.inMoves (.drops (State.drops_of_cleared (Nat.le_succ _)
        (fun _ => by rw [hgone]; rfl) rfl rfl rfl) rfl rfl rfl (fun _ => .inl hgone) (h rfl))
    · exact hsteady _ (State.steady_recoverFailed hid _ message)

/-! ## runs -/

theorem InMoves.held (h : InMoves t g e g') (hheld : Held t g) : Held t g' := by
  obtain ⟨ls, hmoves, -⟩ := h
  exact hmoves.kept (Q := fun _ => True) (fun _ _ _ _ hmove hheld => hheld.moves hmove)
    (fun _ _ => trivial) hheld

theorem InMoves.unread (h : InMoves t g e g') (hnot : ¬Reads t seq g e) (hunread : Unread t seq g) :
    Unread t seq g' := by
  obtain ⟨ls, hmoves, hreads⟩ := h
  refine hmoves.kept (Q := fun l => ∀ after, l = some after → after < seq)
    (fun _ _ _ hless hmove hunread => hunread.moves hmove hless) ?_ hunread
  rintro l hl after rfl
  exact hreads seq hnot after hl

/-- **What ends** is unread from then on. -/
theorem unread_of_finishes {message : Value} {scope : DirectoryScope} (hheld : Held t g)
    (hfinishes : g.state.Finishes message t)
    (honLegacy : OnLegacy t g (.notify message scope))
    (hstep : g.step (.notify message scope) = some g') :
    Unread t (g.state.sequence + 1) g' := by
  have hheld' := (step_inMoves honLegacy hstep).held hheld
  obtain rfl := Option.some.inj hstep
  have hmarked := hfinishes.marked hheld.legacy scope
  have htold := hfinishes.told scope
  exact
    { held := hheld'
      pos := Nat.succ_pos _
      le := htold
      read := fun r hr => by
        rw [(hfinishes.steady scope).read] at hr
        exact Nat.lt_succ_of_le (hheld.read r hr)
      newer := .inl fun after hlt => hmarked.turns after (Nat.le_of_lt_succ hlt)
      dirty := .inl hmarked.dirty }

/-- A step whose event finds what the legacy thread needs. -/
def LegacyStep (t : String) (g : Session) (e : Event) (g' : Session) : Prop :=
  OnLegacy t g e ∧ g.step e = some g'

/-- **A finished message is not left unread.** In a run on a legacy thread, a message or a turn of
it ends; as long as no read of it is remembered that was issued since, every snapshot that shows the
thread as an active one says that its history is dirty. -/
theorem finished_dirty_until_read {roots : List String} {requestNamespace : String}
    {pre post : List Event} {message : Value} {scope : DirectoryScope} {g₁ g₂ g₃ : Session}
    (hpre : Run (LegacyStep t) (start roots requestNamespace) pre g₁)
    (hfinishes : g₁.state.Finishes message t)
    (hfinish : LegacyStep t g₁ (.notify message scope) g₂)
    (hpost : Run (fun g e g' => LegacyStep t g e g' ∧ ¬Reads t (g₁.state.sequence + 1) g e)
      g₂ post g₃)
    (hknown : (g₃.state.threads.find? t).isSome = true) (hactive : t ∉ g₃.state.archivedThreads)
    (queue : Value) :
    (g₃.state.snapshot t queue).get "legacyHistoryDirty" = .bool true := by
  have hheld : Held t g₁ := by
    refine hpre.kept (Q := fun _ => True) ?_ (fun _ _ => trivial) (held_start roots _)
    intro g e g' _ hstep hheld
    exact (step_inMoves hstep.1 hstep.2).held hheld
  have hunread : Unread t (g₁.state.sequence + 1) g₃ := by
    refine hpost.kept (Q := fun _ => True) ?_ (fun _ _ => trivial)
      (unread_of_finishes hheld hfinishes hfinish.1 hfinish.2)
    intro g e g' _ hstep hunread
    exact (step_inMoves hstep.1.1 hstep.1.2).unread hstep.2 hunread
  have hdirty := hunread.shown hknown hactive
  show Value.bool (g₃.state.legacyHistoryDirty t) = _
  rw [hdirty]

/-- The end of turn `u` of thread `t`. -/
def turnEnd : Value :=
  .obj [("method", .str "turn/completed"), ("params", .obj
    [("threadId", .str "t"), ("turn", .obj [("id", .str "u"), ("status", .str "completed")])])]

/-- The history of thread `t`, as it is before a turn of it ends. -/
def legacyHistory : Value :=
  .obj [("thread", .obj [("id", .str "t"), ("historyMode", .str "legacy"), ("turns", .arr [])])]

theorem turnEnd_finishes {s : State} (hsubscribed : "t" ∈ s.subscribed)
    (hactive : "t" ∉ s.archivedThreads) : s.Finishes turnEnd "t" :=
  ⟨by decide, hsubscribed, hactive, ⟨"u", by decide, by decide⟩, .inl (by decide)⟩

/-- Thread `t`, reserved, with a read of it in flight. -/
def waiting : Session where
  state := ((start [] "n").state.connect .connected).reserve "t"
  reads := [⟨"t", 1, false⟩]

/-- A turn that ends before the first history of its thread is there. -/
theorem finished_dirty_before_snapshot :
    Run (LegacyStep "t") (start [] "n") [.connect .connected, .reserve "t", .issue "t"] waiting ∧
    ∃ g₂ g₃, LegacyStep "t" waiting (.notify turnEnd .unrestricted) g₂ ∧
      LegacyStep "t" g₂ (.reply ⟨"t", 1, false⟩ legacyHistory .unrestricted) g₃ ∧
      (g₃.state.snapshot "t" .null).get "legacyHistoryDirty" = .bool true := by
  have hopen : (start [] "n").state.replaces .connected = false := by decide
  have hpre : Run (LegacyStep "t") (start [] "n") [.connect .connected, .reserve "t", .issue "t"]
      waiting :=
    .cons ⟨hopen, rfl⟩ <| .cons ⟨trivial, rfl⟩ <| .cons ⟨trivial, rfl⟩ <| .nil _
  let g₂ : Session :=
    { state := waiting.state.reduceScoped turnEnd .unrestricted
      reads := waiting.reads.map (Read.mark (archivedId turnEnd)) }
  have hfinish : LegacyStep "t" waiting (.notify turnEnd .unrestricted) g₂ :=
    ⟨fun hstarts => absurd hstarts (by decide), rfl⟩
  let g₃ : Session :=
    { state := g₂.state.rememberScoped legacyHistory (some 1) .unrestricted
      reads := g₂.reads.erase ⟨"t", 1, false⟩ }
  have hreply : LegacyStep "t" g₂ (.reply ⟨"t", 1, false⟩ legacyHistory .unrestricted) g₃ :=
    ⟨fun _ => by decide, by rw [step, if_pos ⟨by decide +kernel, by decide +kernel⟩]⟩
  refine ⟨hpre, g₂, g₃, hfinish, hreply, finished_dirty_until_read hpre
    (turnEnd_finishes (by decide +kernel) (by decide +kernel)) hfinish
    (.cons ⟨hreply, ?_⟩ (.nil _)) (by decide +kernel) (by decide +kernel) .null⟩
  rintro ⟨-, hle, -⟩
  exact absurd hle (by decide +kernel)

/-- Two resumes of one thread: the first reserved it, the second is answered first. -/
def overlapped : List Event :=
  [.connect .connected, .reserve "t", .issue "t", .issue "t",
    .reply ⟨"t", 1, false⟩ legacyHistory .unrestricted]

/-- The resume that had reserved the thread fails after a turn of it ended: the thread is shown as
read. -/
theorem reserved_resume_fails :
    ∃ g₁ g₂ g₃ : Session,
      Run (fun g e g' => g.step e = some g') (start [] "n") overlapped g₁ ∧
      g₁.state.Finishes turnEnd "t" ∧ g₁.step (.notify turnEnd .unrestricted) = some g₂ ∧
      g₂.step (.release "t") = some g₃ ∧ ¬Reads "t" (g₁.state.sequence + 1) g₂ (.release "t") ∧
      (g₃.state.threads.find? "t").any isLegacy = true ∧ "t" ∉ g₃.state.archivedThreads ∧
      (g₃.state.snapshot "t" .null).get "legacyHistoryDirty" = .bool false := by
  have hrun : ((overlapped.foldlM step (start [] "n")).any fun g₁ =>
      decide ("t" ∈ g₁.state.subscribed) && decide ("t" ∉ g₁.state.archivedThreads) &&
        (g₁.step (.notify turnEnd .unrestricted)).any fun g₂ =>
          (g₂.step (.release "t")).any fun g₃ =>
            (g₃.state.threads.find? "t").any isLegacy &&
              decide ("t" ∉ g₃.state.archivedThreads) && !g₃.state.legacyHistoryDirty "t") =
      true := by decide +kernel
  obtain ⟨g₁, hg₁, hend⟩ := (Option.any_eq_true _ _).mp hrun
  simp only [Bool.and_eq_true, decide_eq_true_eq] at hend
  obtain ⟨⟨hsubscribed, hactive⟩, hend⟩ := hend
  obtain ⟨g₂, hg₂, hend⟩ := (Option.any_eq_true _ _).mp hend
  obtain ⟨g₃, hg₃, hend⟩ := (Option.any_eq_true _ _).mp hend
  simp only [Bool.and_eq_true, decide_eq_true_eq, Bool.not_eq_true'] at hend
  obtain ⟨⟨hlegacy, hshown⟩, hclean⟩ := hend
  refine ⟨g₁, g₂, g₃, .of_foldlM hg₁, turnEnd_finishes hsubscribed hactive, hg₂, hg₃, False.elim,
    hlegacy, hshown, ?_⟩
  show Value.bool (g₃.state.legacyHistoryDirty "t") = _
  rw [hclean]

end Session

end ClaudeReplay.Gateway
