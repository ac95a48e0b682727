import ClaudeReplay.Codex.Metrics
import Mathlib.Data.List.Chain
import Mathlib.Data.List.Induction

/-!
# ClaudeReplay.Codex.Counted

Usage is counted exactly once. A fold reads lines, meets lines it cannot read, and may be
parked and resumed anywhere; beside it stands a ledger (`Book`) that only enters what each
reading adds and the model in force, without buckets, 64-bit words or cursors. Every
bucket of the fold is what the ledger credits to it, modulo `2 ^ 64` (`run_agrees`).

For the counters of a real session nothing wraps, and the buckets add up to the last
reading less what the first one inherited. For arbitrary counters, which may jump back and
rise again, the buckets are exact as long as the rises of each one fit 64 bits.
-/

namespace ClaudeReplay.Codex

open Lib Claude

variable {τ : Type}

/-! ## runs -/

/-- What happens to a fold: it reads a line, it meets one that it cannot read, or it is parked and
resumed. -/
inductive Event
  | line (value : Lib.Value)
  | malformed
  | resumed

namespace CodexMetricsAcc

def step (epochSecs : String → Option τ) (acc : CodexMetricsAcc τ) : Event → CodexMetricsAcc τ
  | .line value => acc.push epochSecs value
  | .malformed => acc.malformedLine
  | .resumed => restore {} acc.state

def run (epochSecs : String → Option τ) (events : List Event) : CodexMetricsAcc τ :=
  events.foldl (step epochSecs) {}

theorem run_concat (epochSecs : String → Option τ) (events : List Event) (e : Event) :
    run epochSecs (events ++ [e]) = (run epochSecs events).step epochSecs e := by
  simp [run]

/-- **The cursor carries all of it**: a fold that is parked and resumed has lost only what it said
of its last line. -/
theorem restore_state (acc : CodexMetricsAcc τ) :
    restore {} acc.state = { acc with requestPricing := none, usageId := none, answer := none } := by
  cases acc
  simp [restore, state, ClockState.restore]

/-- What the counting depends on. -/
def books (acc : CodexMetricsAcc τ) :
    Table String TokenCounts × TokenCounts × Bool × String × String :=
  (acc.perModel, acc.lastTotal, acc.seenUsage, acc.model, acc.firstModel)

theorem books_noteContext (acc : CodexMetricsAcc τ) (value : Lib.Value) :
    (acc.noteContext value).books = acc.books := by
  simp only [noteContext]
  split <;> rfl

theorem increment_congr {acc acc' : CodexMetricsAcc τ} (hlast : acc.lastTotal = acc'.lastTotal)
    (hseen : acc.seenUsage = acc'.seenUsage) (r : Reading) :
    acc.increment r = acc'.increment r := by
  simp only [increment, baseline, hlast, hseen]

/-- What a line does to the books: the model it names is in force, and a reading adds its
increment to that model's bucket. -/
theorem books_push (epochSecs : String → Option τ) (acc : CodexMetricsAcc τ) (value : Lib.Value) :
    (acc.push epochSecs value).books =
      let model := (modelOf value).getD acc.model
      let first := nameFirst acc.firstModel (modelOf value)
      (readingOf value).elim (acc.perModel, acc.lastTotal, acc.seenUsage, model, first) fun r =>
        (bank acc.perModel model (acc.increment r), r.total.counts, true, model, first) := by
  have hnoted : ∀ acc' : CodexMetricsAcc τ,
      acc' = (if isTokenCount value then (acc.noteLine epochSecs value).noteContext value
        else acc.noteLine epochSecs value) →
      acc'.books = (acc.noteLine epochSecs value).books := by
    rintro acc' rfl
    split
    · exact books_noteContext _ value
    · rfl
  simp only [push]
  generalize hacc : (if isTokenCount value then (acc.noteLine epochSecs value).noteContext value
        else acc.noteLine epochSecs value) = acc'
  have hbooks := hnoted acc' hacc.symm
  simp only [books, noteLine, Prod.mk.injEq] at hbooks
  obtain ⟨hper, hlast, hseen, hmodel, hfirst⟩ := hbooks
  cases hr : readingOf value with
  | none => simp only [books, hper, hlast, hseen, hmodel, hfirst, Option.elim_none]
  | some r =>
    have hcount : (acc'.count epochSecs value r).books =
        (bank acc'.perModel acc'.model (acc'.increment r), r.total.counts, true, acc'.model,
          acc'.firstModel) := by
      simp only [count, books]
      split <;> rfl
    rw [hcount, hper, hmodel, hfirst, increment_congr hlast hseen r, Option.elim_some]

/-! ## 64-bit counts -/

/-- Every class fits 64 bits. -/
def Fits (t : TokenCounts) : Prop :=
  t.input < 2 ^ 64 ∧ t.cacheCreation < 2 ^ 64 ∧ t.cacheRead < 2 ^ 64 ∧ t.output < 2 ^ 64

theorem Fits.of_le {t u : TokenCounts} (h : Fits u) (hle : t ≤ u) : Fits t := by
  rw [TokenCounts.le_def] at hle
  simp only [Fits] at h ⊢
  omega

theorem wrap_eq_iff {t : TokenCounts} : wrap t = t ↔ Fits t := by
  simp only [wrap, Fits, TokenCounts.ext_iff, Nat.mod_eq_iff_lt (show 2 ^ 64 ≠ 0 by decide)]
  tauto

theorem fits_wrap (t : TokenCounts) : Fits (wrap t) := by
  simp only [wrap, Fits]
  omega

theorem wrap_add_wrap (t u : TokenCounts) : wrap (wrap t + u) = wrap (t + u) := by
  simp only [wrap, TokenCounts.add_def, Nat.mod_add_mod]

theorem add_wrap (t u : TokenCounts) : wrap (t + wrap u) = wrap (t + u) := by
  simp only [wrap, TokenCounts.add_def, Nat.add_mod_mod]

@[simp] theorem wrap_zero : wrap 0 = 0 := rfl

theorem amount_bank (t : Table String TokenCounts) (k : String) (a : TokenCounts) (j : String) :
    (bank t k a).amount j = if j = k then wrap (t.amount k + a) else t.amount j :=
  Table.amount_put t k _ j

end CodexMetricsAcc

open CodexMetricsAcc

/-! ## the ledger -/

/-- What a session's readings add up to, without a bucket: the model in force, the one named
first, the reading before, and each reading's rise under the model it is credited to. -/
structure Book where
  model : String := ""
  first : String := ""
  last : Option TokenCounts := none
  credits : List (String × TokenCounts) := []

namespace Book

def enter (b : Book) : Event → Book
  | .line value =>
    let model := (modelOf value).getD b.model
    let first := nameFirst b.first (modelOf value)
    match readingOf value with
    | some r =>
      ⟨model, first, some r.total.counts,
        b.credits ++ [(model, r.total.counts - b.last.getD r.inherited)]⟩
    | none => { b with model, first }
  | _ => b

def ofEvents (events : List Event) : Book := events.foldl enter {}

theorem ofEvents_concat (events : List Event) (e : Event) :
    ofEvents (events ++ [e]) = (ofEvents events).enter e := by
  simp [ofEvents]

/-- A credit without a name is the first named model's. -/
def owner (b : Book) (model : String) : String := if model = "" then b.first else model

/-- The credits under the names they end up with. -/
def attributed (b : Book) : List (String × TokenCounts) :=
  b.credits.map fun c => (b.owner c.1, c.2)

/-- All that was credited. -/
def sum (b : Book) : TokenCounts := (b.credits.map (·.2)).sum

end Book

/-- A fold and its ledger say the same, the buckets as far as 64 bits go. -/
structure Agrees (acc : CodexMetricsAcc τ) (b : Book) : Prop where
  model : acc.model = b.model
  first : acc.firstModel = b.first
  last : b.last = if acc.seenUsage then some acc.lastTotal else none
  fresh : acc.seenUsage = false → acc.lastTotal = {}
  unnamed : b.first = "" → b.model = ""
  amounts : ∀ m, acc.perModel.amount m = wrap (creditedTo b.credits m)

namespace Agrees

variable {acc acc' : CodexMetricsAcc τ} {b : Book}

theorem init : Agrees ({} : CodexMetricsAcc τ) {} where
  model := rfl
  first := rfl
  last := rfl
  fresh := fun _ => rfl
  unnamed := fun _ => rfl
  amounts := fun _ => rfl

theorem congr (h : Agrees acc b) (hbooks : acc'.books = acc.books) : Agrees acc' b := by
  simp only [books, Prod.mk.injEq] at hbooks
  obtain ⟨hper, hlast, hseen, hmodel, hfirst⟩ := hbooks
  exact {
    model := hmodel.trans h.model
    first := hfirst.trans h.first
    last := by rw [hseen, hlast, h.last]
    fresh := by rw [hseen, hlast]; exact h.fresh
    unnamed := h.unnamed
    amounts := by rw [hper]; exact h.amounts }

/-- The increment of a reading is its rise over the reading before. -/
theorem increment_eq (h : Agrees acc b) (r : Reading) :
    acc.increment r = r.total.counts - b.last.getD r.inherited := by
  rw [increment, baseline, h.last]
  cases hseen : acc.seenUsage with
  | true => simp
  | false =>
    cases hlast : r.last with
    | none => simp [Reading.inherited, hlast, h.fresh hseen]
    | some last => simp

theorem unnamed_nameFirst {first model : String} (h : first = "" → model = "")
    (named : Option String) (hnone : nameFirst first named = "") : named.getD model = "" := by
  cases named with
  | none => exact h hnone
  | some next =>
    by_cases hfirst : first = ""
    · by_cases hnext : next = ""
      · simp [hnext]
      · simp [nameFirst, hfirst, hnext] at hnone
    · simp [nameFirst, hfirst] at hnone

/-- A line is entered as it is pushed. -/
theorem push (h : Agrees acc b) (epochSecs : String → Option τ) (value : Lib.Value) :
    Agrees (acc.push epochSecs value) (b.enter (.line value)) := by
  have hbooks := books_push epochSecs acc value
  rw [h.model, h.first] at hbooks
  simp only [Book.enter]
  cases hr : readingOf value with
  | none =>
    simp only [hr, books, Option.elim_none, Prod.mk.injEq] at hbooks
    obtain ⟨hper, hlast, hseen, hmodel, hfirst⟩ := hbooks
    exact {
      model := hmodel
      first := hfirst
      last := by rw [hseen, hlast]; exact h.last
      fresh := by rw [hseen, hlast]; exact h.fresh
      unnamed := unnamed_nameFirst h.unnamed _
      amounts := by rw [hper]; exact h.amounts }
  | some r =>
    simp only [hr, books, Option.elim_some, Prod.mk.injEq] at hbooks
    obtain ⟨hper, hlast, hseen, hmodel, hfirst⟩ := hbooks
    exact {
      model := hmodel
      first := hfirst
      last := by rw [hseen, hlast]; rfl
      fresh := by simp [hseen]
      unnamed := unnamed_nameFirst h.unnamed _
      amounts := by
        intro m
        rw [hper, amount_bank, h.amounts, h.amounts, creditedTo_concat, h.increment_eq]
        by_cases hm : m = (modelOf value).getD b.model
        · rw [if_pos hm, wrap_add_wrap, ← hm, if_pos rfl]
        · rw [if_neg hm, if_neg (Ne.symm hm), add_zero] }

theorem step (h : Agrees acc b) (epochSecs : String → Option τ) (e : Event) :
    Agrees (acc.step epochSecs e) (b.enter e) := by
  cases e with
  | line value => exact h.push epochSecs value
  | malformed => exact h.congr rfl
  | resumed =>
    apply h.congr
    rw [CodexMetricsAcc.step, restore_state]
    rfl

end Agrees

/-- **The invariant of a run**: the fold agrees with the ledger, whatever it reads and wherever it
is parked. -/
theorem run_agrees (epochSecs : String → Option τ) (events : List Event) :
    Agrees (run epochSecs events) (.ofEvents events) := by
  induction events using List.reverseRecOn with
  | nil => exact .init
  | append_singleton events e ih =>
    rw [run_concat, Book.ofEvents_concat]
    exact ih.step epochSecs e

/-! ## the finished buckets -/

namespace Agrees

variable {acc : CodexMetricsAcc τ} {b : Book}

theorem claimant_eq (h : Agrees acc b) : acc.claimant = b.first := by
  rw [claimant, h.first, h.model]
  by_cases hfirst : b.first = ""
  · rw [if_pos hfirst, h.unnamed hfirst, hfirst]
  · rw [if_neg hfirst]

/-- What was read before a model was named ends up under the one named first. -/
theorem amount_finished (h : Agrees acc b) (m : String) :
    acc.finishedModels.amount m = wrap (creditedTo b.attributed m) := by
  rw [finishedModels, h.claimant_eq]
  by_cases hfirst : b.first = ""
  · have hsame : b.attributed = b.credits := by
      simp only [Book.attributed, Book.owner, hfirst]
      rw [List.map_congr_left (g := id), List.map_id]
      intro c _
      by_cases hc : c.1 = "" <;> simp [hc, Prod.ext_iff]
    simp only [ne_eq, hfirst, not_true, if_false, hsame, h.amounts]
  · have hmoved := creditedTo_moved b.credits hfirst m
    rw [if_pos hfirst, Book.attributed]
    simp only [Book.owner, hmoved]
    have hnone := h.amounts ""
    cases hfind : acc.perModel.find? "" with
    | some inherited =>
      have hinherited : inherited = wrap (creditedTo b.credits "") := by
        rw [← hnone, Table.amount, hfind, Option.getD_some]
      simp only [amount_bank, Table.amount_erase, if_neg hfirst, h.amounts]
      by_cases hm : m = b.first
      · simp [hm, hfirst, hinherited, wrap_add_wrap, add_wrap]
      · by_cases hm' : m = "" <;> simp [hm, hm', Ne.symm hfirst]
    | none =>
      have hzero : wrap (creditedTo b.credits "") = 0 := by
        rw [← hnone, Table.amount, hfind, Option.getD_none]
      simp only [h.amounts]
      by_cases hm' : m = ""
      · simp [hm', hzero]
      · by_cases hm : m = b.first
        · have hwrap := wrap_add_wrap (creditedTo b.credits "") (creditedTo b.credits b.first)
          rw [hzero, zero_add] at hwrap
          simp [hm, hfirst, hwrap, add_comm]
        · simp [hm, hm']

end Agrees

/-! ## which counters fit -/

/-- The credits of the beginning of a run are the beginning of its credits. -/
theorem credits_append (pre post : List Event) :
    ∃ more, (Book.ofEvents (pre ++ post)).credits = (Book.ofEvents pre).credits ++ more := by
  induction post using List.reverseRecOn with
  | nil => exact ⟨[], by simp⟩
  | append_singleton post e ih =>
    obtain ⟨more, hmore⟩ := ih
    rw [← List.append_assoc, Book.ofEvents_concat]
    cases e with
    | line value =>
      cases hr : readingOf value with
      | none => exact ⟨more, by simp [Book.enter, hr, hmore]⟩
      | some r =>
        simp only [Book.enter, hr, hmore, List.append_assoc]
        exact ⟨_, rfl⟩
    | malformed => exact ⟨more, hmore⟩
    | resumed => exact ⟨more, hmore⟩

/-- The rises of each bucket, those without a name with the first named model's, fit 64 bits. -/
def Within (events : List Event) : Prop :=
  ∀ m, Fits (creditedTo (Book.ofEvents events).attributed m)

/-- Every bucket is the sum of the rises credited to it, at every time, so it never decreases; and
at the end each rise is credited to the model that was in force, or else to the one named first. -/
structure Exact (epochSecs : String → Option τ) (events : List Event) : Prop where
  buckets : ∀ pre post, events = pre ++ post → ∀ m,
    (run epochSecs pre).perModel.amount m = creditedTo (Book.ofEvents pre).credits m
  grows : ∀ pre e post, events = pre ++ e :: post → ∀ m,
    (run epochSecs pre).perModel.amount m ≤ (run epochSecs (pre ++ [e])).perModel.amount m
  finished : ∀ m, (run epochSecs events).finish.perModel.amount m =
    creditedTo (Book.ofEvents events).attributed m

theorem Within.prefix_ {pre post : List Event} (h : Within (pre ++ post)) (m : String) :
    Fits (creditedTo (Book.ofEvents pre).credits m) := by
  obtain ⟨more, hmore⟩ := credits_append pre post
  apply (h ((Book.ofEvents (pre ++ post)).owner m)).of_le
  calc creditedTo (Book.ofEvents pre).credits m
      ≤ creditedTo (Book.ofEvents (pre ++ post)).credits m := by
        rw [hmore, creditedTo_append]
        exact le_self_add
    _ ≤ _ := creditedTo_le_map (Book.ofEvents (pre ++ post)).owner _ m

/-- Nothing wraps exactly where the rises of each bucket fit. -/
theorem exact_iff (epochSecs : String → Option τ) (events : List Event) :
    Exact epochSecs events ↔ Within events := by
  constructor
  · intro h m
    rw [← h.finished m]
    exact (run_agrees epochSecs events).amount_finished m ▸ fits_wrap _
  · intro h
    have hbuckets : ∀ pre post, events = pre ++ post → ∀ m,
        (run epochSecs pre).perModel.amount m = creditedTo (Book.ofEvents pre).credits m := by
      rintro pre post rfl m
      rw [(run_agrees epochSecs pre).amounts, wrap_eq_iff]
      exact h.prefix_ m
    refine ⟨hbuckets, ?_, ?_⟩
    · intro pre e post hevents m
      rw [hbuckets pre _ hevents, hbuckets (pre ++ [e]) post (by simp [hevents])]
      obtain ⟨more, hmore⟩ := credits_append pre [e]
      rw [hmore, creditedTo_append]
      exact le_self_add
    · intro m
      show (run epochSecs events).finishedModels.amount m = _
      rw [(run_agrees epochSecs events).amount_finished, wrap_eq_iff]
      exact h m

/-! ## genuine counters -/

/-- The reading an event is, if it is one. -/
def Event.reading : Event → Option Reading
  | .line value => readingOf value
  | _ => none

/-- The readings of a run. -/
def readings (events : List Event) : List Reading := events.filterMap Event.reading

theorem readings_concat (events : List Event) (e : Event) :
    readings (events ++ [e]) = readings events ++ e.reading.toList := by
  cases he : e.reading <;> simp [readings, he]

/-- A counter that only rises, its cached and written input by no more than its input. -/
def Usage.Rises (u w : Usage) : Prop :=
  u.input ≤ w.input ∧ u.cached ≤ w.cached ∧ u.cacheWrite ≤ w.cacheWrite ∧ u.output ≤ w.output ∧
    (w.cached - u.cached) + (w.cacheWrite - u.cacheWrite) ≤ w.input - u.input

/-- The counters of a real session: each rises from reading to reading, and both cache classes are
parts of the input. -/
structure Genuine (rs : List Reading) : Prop where
  whole : ∀ r ∈ rs.head?, r.total.cached + r.total.cacheWrite ≤ r.total.input
  rises : rs.IsChain fun r s => r.total.Rises s.total

theorem counts_le_counts {u w : Usage} (h : u.Rises w) (hu : u.cached + u.cacheWrite ≤ u.input) :
    u.counts ≤ w.counts ∧ w.cached + w.cacheWrite ≤ w.input := by
  simp only [Usage.Rises] at h
  constructor
  · simp only [Usage.counts, TokenCounts.le_def, LongPrompt.le_def]
    omega
  · omega

theorem inherited_le (r : Reading) : r.inherited ≤ r.total.counts := by
  rw [Reading.inherited]
  cases r.last with
  | none => exact zero_le (a := r.total.counts)
  | some last => exact tsub_le_self

theorem last_ofEvents (events : List Event) :
    (Book.ofEvents events).last = (readings events).getLast?.map (·.total.counts) := by
  induction events using List.reverseRecOn with
  | nil => rfl
  | append_singleton events e ih =>
    rw [Book.ofEvents_concat, readings_concat]
    cases e with
    | line value =>
      cases hr : readingOf value <;> simp [Book.enter, Event.reading, hr, ih]
    | malformed => simpa [Book.enter, Event.reading] using ih
    | resumed => simpa [Book.enter, Event.reading] using ih

/-- What a reading adds to the ledger. -/
theorem sum_enter (b : Book) (e : Event) :
    (b.enter e).sum =
      b.sum + e.reading.elim 0 fun r => r.total.counts - b.last.getD r.inherited := by
  cases e with
  | line value =>
    cases hr : readingOf value <;> simp [Book.enter, Book.sum, Event.reading, hr]
  | malformed => simp [Book.enter, Book.sum, Event.reading]
  | resumed => simp [Book.enter, Book.sum, Event.reading]

/-- **The rises telescope**: all that is credited, and what the first reading inherited, is the
last reading. -/
theorem sum_of_genuine {events : List Event} (h : Genuine (readings events)) :
    (readings events = [] → (Book.ofEvents events).sum = 0) ∧
    ∀ r₀ ∈ (readings events).head?, ∀ r ∈ (readings events).getLast?,
      (Book.ofEvents events).sum + r₀.inherited = r.total.counts ∧
        r.total.cached + r.total.cacheWrite ≤ r.total.input := by
  induction events using List.reverseRecOn with
  | nil => simp [readings, Book.ofEvents, Book.sum]
  | append_singleton events e ih =>
    have hlast := last_ofEvents events
    rw [Book.ofEvents_concat, sum_enter, readings_concat]
    rw [readings_concat] at h
    cases he : e.reading with
    | none =>
      simp only [he, Option.toList_none, List.append_nil] at h ⊢
      simpa using ih h
    | some r =>
      simp only [he, Option.toList_some] at h ⊢
      have hbefore : Genuine (readings events) := by
        refine ⟨fun r₀ hr₀ => h.whole r₀ ?_, (List.isChain_append.mp h.rises).1⟩
        simp [List.head?_append, Option.mem_def.mp hr₀]
      obtain ⟨hnil, hsome⟩ := ih hbefore
      refine ⟨by simp, fun r₀ hr₀ r' hr' => ?_⟩
      obtain rfl : r = r' := by simpa using hr'
      cases hrs : (readings events).getLast? with
      | none =>
        have hempty : readings events = [] := List.getLast?_eq_none_iff.mp hrs
        obtain rfl : r = r₀ := by simpa [hempty] using hr₀
        rw [hnil hempty, hlast, hrs, zero_add, Option.elim_some]
        exact ⟨tsub_add_cancel_of_le (inherited_le r), h.whole r hr₀⟩
      | some r' =>
        have hne : readings events ≠ [] := by
          rintro hempty
          simp [hempty] at hrs
        obtain ⟨first, hfirst⟩ : ∃ first, (readings events).head? = some first :=
          ⟨_, List.head?_eq_some_head hne⟩
        obtain rfl : first = r₀ := by simpa [List.head?_append, hfirst] using hr₀
        obtain ⟨hsum, hwhole⟩ := hsome first hfirst r' hrs
        have hrises : r'.total.Rises r.total :=
          (List.isChain_append.mp h.rises).2.2 r' hrs r rfl
        obtain ⟨hle, hwhole'⟩ := counts_le_counts hrises hwhole
        refine ⟨?_, hwhole'⟩
        rw [hlast, hrs, Option.map_some, Option.elim_some, Option.getD_some, add_right_comm, hsum]
        exact add_tsub_cancel_of_le hle

theorem field_lt (v : Lib.Value) (k : String) : field v k < 2 ^ 64 := by
  rw [field]
  cases (v.get? k).bind Lib.Value.asU64 with
  | none => simp
  | some n => exact n.toNat_lt

/-- A reading's classes fit 64 bits, as the counters of a line do. -/
theorem fits_of_reading {events : List Event} {r : Reading} (h : r ∈ readings events) :
    Fits r.total.counts := by
  obtain ⟨e, _, he⟩ := List.mem_filterMap.mp h
  cases e with
  | line value =>
    simp only [Event.reading, readingOf] at he
    split at he
    · obtain ⟨total, _, rfl⟩ := Option.map_eq_some_iff.mp he
      have hinput := field_lt total "input_tokens"
      have hcached := field_lt total "cached_input_tokens"
      have hwrite := field_lt total "cache_write_input_tokens"
      have houtput := field_lt total "output_tokens"
      simp only [Fits, Usage.counts, Usage.read]
      omega
    · cases he
  | malformed => cases he
  | resumed => cases he

theorem sum_attributed (b : Book) : (b.attributed.map (·.2)).sum = b.sum := by
  simp [Book.attributed, Book.sum, Function.comp_def]

/-- Genuine counters fit: no bucket is more than the last reading. -/
theorem within_of_genuine {events : List Event} (h : Genuine (readings events)) :
    Within events := by
  intro m
  have hle := creditedTo_le_sum (Book.ofEvents events).attributed m
  rw [sum_attributed] at hle
  obtain ⟨hnil, hsome⟩ := sum_of_genuine h
  cases hrs : (readings events).getLast? with
  | none =>
    rw [hnil (List.getLast?_eq_none_iff.mp hrs)] at hle
    exact Fits.of_le (by simp [Fits, TokenCounts.zero_def]) hle
  | some r =>
    have hmem : r ∈ readings events := List.mem_of_getLast? hrs
    obtain ⟨r₀, hr₀⟩ : ∃ r₀, (readings events).head? = some r₀ :=
      ⟨_, List.head?_eq_some_head (List.ne_nil_of_mem hmem)⟩
    have hsum := (hsome r₀ hr₀ r hrs).1
    exact (fits_of_reading hmem).of_le (hle.trans (hsum ▸ le_self_add))

/-- **Usage is counted once.** For genuine counters, however often a reading repeats, the model
changes and the fold is parked and resumed, every bucket is the sum of the rises credited to it,
and all of them are the last reading less what the first one inherited. A reading that repeats
adds nothing. For arbitrary counters the buckets are exact, and so never decrease, where the rises
of each one fit 64 bits, and nowhere else. -/
theorem usage_counted_once (epochSecs : String → Option τ) (events : List Event) :
    (Genuine (readings events) → Exact epochSecs events ∧
      ∀ r₀ ∈ (readings events).head?, ∀ r ∈ (readings events).getLast?,
        sent (run epochSecs events).finish.perModel.total + sent r₀.inherited = r.total.input ∧
        (run epochSecs events).finish.perModel.total.output + r₀.inherited.output =
          r.total.output) ∧
    (∀ value r, readingOf value = some r →
      (readings events).getLast?.map (·.total) = some r.total → ∀ m,
      (run epochSecs (events ++ [.line value])).perModel.amount m =
        (run epochSecs events).perModel.amount m) ∧
    (Exact epochSecs events ↔ Within events) := by
  refine ⟨fun h => ?_, fun value r hr hrepeat m => ?_, exact_iff epochSecs events⟩
  · have hexact := (exact_iff epochSecs events).mpr (within_of_genuine h)
    refine ⟨hexact, fun r₀ hr₀ r hr => ?_⟩
    obtain ⟨hsum, hwhole⟩ := (sum_of_genuine h).2 r₀ hr₀ r hr
    have htotal : (run epochSecs events).finish.perModel.total + r₀.inherited = r.total.counts := by
      rw [Table.total_of_amounts hexact.finished, sum_attributed, hsum]
    rw [TokenCounts.ext_iff] at htotal
    simp only [TokenCounts.add_def, Usage.counts] at htotal
    simp only [sent]
    omega
  · have hlast : (Book.ofEvents events).last = some r.total.counts := by
      rw [last_ofEvents]
      have := congrArg (Option.map Usage.counts) hrepeat
      simpa [Function.comp_def] using this
    rw [(run_agrees epochSecs _).amounts, (run_agrees epochSecs _).amounts, Book.ofEvents_concat]
    simp only [Book.enter, hr, hlast, Option.getD_some, tsub_self]
    rw [creditedTo_concat, ite_self, add_zero]

/-- A counter of input, of which the last request took `last`. -/
def lastReading (n last : Nat) : Event :=
  .line (.obj [("type", .str "event_msg"), ("payload", .obj [("type", .str "token_count"),
    ("info", .obj [("total_token_usage", .obj [("input_tokens", .num n)]),
      ("last_token_usage", .obj [("input_tokens", .num last)])])])])

/-- A line that puts a model in force. -/
def modelLine (model : String) : Event :=
  .line (.obj [("type", .str "turn_context"), ("payload", .obj [("model", .str model)])])

/-- A counter that inherits 3 and rises by 7 and by 15. Its first reading is printed again
when the fold has been parked, and the model changes. -/
def inheriting : List Event :=
  [modelLine "a", lastReading 10 7, .resumed, lastReading 10 7, modelLine "b", lastReading 25 15]

theorem usage_counted_once_inheriting :
    Exact (fun _ => none : String → Option Unit) inheriting ∧
      sent (run (fun _ => none : String → Option Unit) inheriting).finish.perModel.total + 3 =
        25 := by
  have hread : readings inheriting = [⟨⟨10, 0, 0, 0⟩, some ⟨7, 0, 0, 0⟩⟩,
      ⟨⟨10, 0, 0, 0⟩, some ⟨7, 0, 0, 0⟩⟩, ⟨⟨25, 0, 0, 0⟩, some ⟨15, 0, 0, 0⟩⟩] := by decide
  have hgenuine : Genuine (readings inheriting) := by
    rw [hread]
    exact ⟨by simp, by simp [Usage.Rises]⟩
  obtain ⟨hexact, hsum⟩ := (usage_counted_once (fun _ => none) inheriting).1 hgenuine
  rw [hread] at hsum
  exact ⟨hexact, (hsum _ rfl _ rfl).1⟩

/-- A line that reads a counter of input. -/
def inputReading (n : Nat) : Event :=
  .line (.obj [("type", .str "event_msg"), ("payload", .obj [("type", .str "token_count"),
    ("info", .obj [("total_token_usage", .obj [("input_tokens", .num n)])])])])

/-- A counter that reaches half of the range, is reset, and reaches it again. -/
theorem bucket_wraps :
    (run (fun _ => none : String → Option Unit) [inputReading (2 ^ 63)]).perModel.amount "" =
      { input := 2 ^ 63 } ∧
    (run (fun _ => none : String → Option Unit)
      [inputReading (2 ^ 63), inputReading 0, inputReading (2 ^ 63)]).perModel.amount "" = {} := by
  decide

end ClaudeReplay.Codex
