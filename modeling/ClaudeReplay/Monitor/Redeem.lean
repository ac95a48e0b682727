import ClaudeReplay.Lib.Run
import ClaudeReplay.Monitor.Pairing
import Mathlib.Data.List.Perm.Basic

/-!
# ClaudeReplay.Monitor.Redeem

Who mints and redeems pairing codes over one file. A call reads the whole file and later writes the
whole file; inside one process a lock keeps calls apart, between processes nothing does. So a write
may put back an old reading (`Desk.stale`), and a write may fail, which an attempt does not tell
(`Desk.failed`).

Without these a code pairs at most once for each time it was minted (`paired_at_most`), the file is
what one call after the other makes it (`run_replay`), and five wrong attempts in a row leave no
code that was there before (`missed_burn`).
-/

namespace ClaudeReplay.Pairing

open Lib

/-! ## calls -/

inductive Job
  | mint (code : String) (now : Nat)
  | redeem (typed : String) (now : Nat)

/-- A call between its reading and its write. -/
structure Held where
  process : Nat
  job : Job
  read : Store

/-- What was printed, and what was answered. -/
inductive Outcome
  | minted (code : String) (now : Nat)
  | answered (typed : String) (now : Nat) (paired : Bool)
  deriving DecidableEq

/-- The pairing file, the calls that have read it, and what has come of those before. -/
structure Desk where
  file : List Char := []
  held : List Held := []
  log : List Outcome := []
  /-- writes that did not follow their reading -/
  stale : Nat := 0
  /-- attempts whose write failed -/
  failed : Nat := 0

/-- A step of one process. -/
inductive Desk.Event
  | mint (process : Nat) (bytes : List UInt8) (now : Nat)
  | redeem (process : Nat) (typed : String) (now : Nat)
  | write (process : Nat) (ok : Bool)
  | die (process : Nat)

namespace Job

/-- What a call writes, and what comes of it: minting tells nothing when its write fails. -/
def finish (job : Job) (read : Store) (ok : Bool) : Store × List Outcome :=
  match job with
  | .mint code now => (read.mint code now, if ok then [.minted code now] else [])
  | .redeem typed now =>
    let (paired, store) := read.redeem typed now
    (store, [.answered typed now paired])

def isRedeem : Job → Bool
  | .mint _ _ => false
  | .redeem _ _ => true

/-- What is minted is a code, and has time to expire. -/
def Good : Job → Prop
  | .mint code now => IsCode code ∧ now + pairCodeTtlSecs < 2 ^ 64
  | .redeem _ _ => True

end Job

namespace Desk

/-- A process calls, under its lock. -/
def call (d : Desk) (process : Nat) (job : Job) : Option Desk :=
  if d.held.any (·.process = process) then none
  else some { d with held := d.held ++ [⟨process, job, readStore d.file⟩] }

/-- The call of a process writes. -/
def finish (d : Desk) (h : Held) (ok : Bool) : Desk :=
  let (store, outcomes) := h.job.finish h.read ok
  { file := if ok then writeStore store else d.file
    held := d.held.filter (·.process ≠ h.process)
    log := d.log ++ outcomes
    stale := d.stale + if ok ∧ h.read ≠ readStore d.file then 1 else 0
    failed := d.failed + if !ok ∧ h.job.isRedeem then 1 else 0 }

def step (d : Desk) : Event → Option Desk
  | .mint process bytes now =>
    if now + pairCodeTtlSecs < 2 ^ 64 then
      (draw bytes).bind fun code => d.call process (.mint code now)
    else none
  | .redeem process typed now => d.call process (.redeem typed now)
  | .write process ok => (d.held.find? (·.process = process)).map fun h => d.finish h ok
  | .die process => some { d with held := d.held.filter (·.process ≠ process) }

end Desk

/-! ## what a call does to the codes -/

namespace Store

variable {store : Store} {code c : String} {now : Nat}

/-- How many entries a code has. -/
def entries (store : Store) (code : String) : Nat := store.codes.countP fun e => e.1 = code

theorem entries_fresh_le (store : Store) (now : Nat) (c : String) :
    (store.fresh now).entries c ≤ store.entries c :=
  List.Sublist.countP_le List.filter_sublist

theorem entries_mint_le (store : Store) (code : String) (now : Nat) (c : String) :
    (store.mint code now).entries c ≤ store.entries c + if code = c then 1 else 0 := by
  have hfresh := store.entries_fresh_le now c
  simp only [entries, mint, List.countP_append, List.countP_singleton,
    decide_eq_true_eq] at hfresh ⊢
  omega

theorem mem_mint {e : String × Nat} (h : e ∈ (store.mint code now).codes) :
    e ∈ store.codes ∨ e = (code, now + pairCodeTtlSecs) := by
  obtain h | h := List.mem_append.mp h
  · exact .inl (List.mem_of_mem_filter h)
  · exact .inr (List.mem_singleton.mp h)

theorem Valid.mint (h : store.Valid) (hcode : IsCode code) (hnow : now + pairCodeTtlSecs < 2 ^ 64) :
    (store.mint code now).Valid where
  word e he := by
    obtain he | rfl := mem_mint he
    · exact h.word e he
    · exact hcode.isWord
  exp e he := by
    obtain he | rfl := mem_mint he
    · exact h.exp e he
    · exact hnow
  fails := h.fails

/-- What an attempt does. -/
theorem redeem_cases (store : Store) (typed : String) (now : Nat) :
    (∃ i exp, (store.fresh now).codes[i]? = some (normalizeCode typed, exp) ∧
      store.redeem typed now =
        (true, { codes := (store.fresh now).codes.eraseIdx i, fails := 0 })) ∨
    (normalizeCode typed = "" ∨ ∀ exp, (normalizeCode typed, exp) ∉ (store.fresh now).codes) ∧
      store.redeem typed now = (false,
        if pairCodeTries ≤ store.fails + 1 then {}
        else { codes := (store.fresh now).codes, fails := store.fails + 1 }) := by
  simp only [redeem]
  obtain ⟨i, exp, hhit, hi⟩ | ⟨hhit, hnone⟩ := hit_cases (store.fresh now) (normalizeCode typed)
  · by_cases hempty : normalizeCode typed = ""
    · have hdrop : ((store.fresh now).hit (normalizeCode typed)).filter
          (fun _ => !(normalizeCode typed).isEmpty) = none := by simp [hempty]
      refine .inr ⟨.inl hempty, ?_⟩
      simp only [hdrop]
      rfl
    · have hkeep : ((store.fresh now).hit (normalizeCode typed)).filter
          (fun _ => !(normalizeCode typed).isEmpty) = some i := by simp [hhit, hempty]
      refine .inl ⟨i, exp, hi, ?_⟩
      simp only [hkeep]
  · have hdrop : ((store.fresh now).hit (normalizeCode typed)).filter
        (fun _ => !(normalizeCode typed).isEmpty) = none := by simp [hhit]
    refine .inr ⟨.inr hnone, ?_⟩
    simp only [hdrop]
    rfl

theorem mem_redeem {typed : String} {e : String × Nat} (h : e ∈ (store.redeem typed now).2.codes) :
    e ∈ store.codes := by
  obtain ⟨i, exp, -, heq⟩ | ⟨-, heq⟩ := store.redeem_cases typed now
  · rw [heq] at h
    exact List.mem_of_mem_filter (List.mem_of_mem_eraseIdx h)
  · rw [heq] at h
    split at h
    · exact absurd h List.not_mem_nil
    · exact List.mem_of_mem_filter h

/-- An attempt that pairs takes an entry away; no attempt adds one. -/
theorem entries_redeem_le (store : Store) (typed : String) (now : Nat) (c : String) :
    (store.redeem typed now).2.entries c +
      (if (store.redeem typed now).1 = true ∧ normalizeCode typed = c then 1 else 0) ≤
    store.entries c := by
  have hfresh := store.entries_fresh_le now c
  obtain ⟨i, exp, hi, heq⟩ | ⟨-, heq⟩ := store.redeem_cases typed now
  · obtain ⟨hlt, hget⟩ := List.getElem?_eq_some_iff.mp hi
    have hperm := List.getElem_cons_eraseIdx_perm hlt
    have hcount := hperm.countP_eq fun e => decide (e.1 = c)
    rw [hget, List.countP_cons] at hcount
    simp only [heq, entries, true_and] at hfresh ⊢
    simp only [decide_eq_true_eq] at hcount
    omega
  · rw [heq]
    simp only [Bool.false_eq_true, false_and, if_false, Nat.add_zero]
    split
    · exact Nat.zero_le _
    · exact hfresh

theorem fails_redeem_lt (store : Store) (typed : String) (now : Nat) :
    (store.redeem typed now).2.fails < pairCodeTries := by
  obtain ⟨i, exp, -, heq⟩ | ⟨-, heq⟩ := store.redeem_cases typed now
  · rw [heq]
    exact Nat.zero_lt_succ _
  · rw [heq]
    split
    · exact Nat.zero_lt_succ _
    · next hlt => exact Nat.lt_of_not_le hlt

theorem Valid.redeem (h : store.Valid) (typed : String) (now : Nat) :
    (store.redeem typed now).2.Valid where
  word e he := h.word e (mem_redeem he)
  exp e he := h.exp e (mem_redeem he)
  fails := store.fails_redeem_lt typed now

theorem valid_empty : ({} : Store).Valid where
  word _ he := absurd he List.not_mem_nil
  exp _ he := absurd he List.not_mem_nil
  fails := by decide

end Store

/-! ## every order of calls -/

/-- How often a code was minted, and how often an attempt with it paired. -/
def mints (log : List Outcome) (c : String) : Nat := log.countP fun
  | .minted code _ => code = c
  | .answered _ _ _ => false

def pairings (log : List Outcome) (c : String) : Nat := log.countP fun
  | .minted _ _ => false
  | .answered typed _ paired => paired && decide (normalizeCode typed = c)

theorem mints_append (log outcomes : List Outcome) (c : String) :
    mints (log ++ outcomes) c = mints log c + mints outcomes c :=
  List.countP_append

theorem pairings_append (log outcomes : List Outcome) (c : String) :
    pairings (log ++ outcomes) c = pairings log c + pairings outcomes c :=
  List.countP_append

/-- Every entry of a store was minted, and expires when its time is up. -/
structure Store.Known (store : Store) (log : List Outcome) : Prop where
  valid : store.Valid
  few : ∀ c, store.entries c ≤ mints log c
  minted : ∀ e ∈ store.codes, ∃ now, .minted e.1 now ∈ log ∧ e.2 = now + pairCodeTtlSecs

theorem Store.Known.append {store : Store} {log : List Outcome} (h : store.Known log)
    (outcomes : List Outcome) : store.Known (log ++ outcomes) where
  valid := h.valid
  few c := by
    have hfew := h.few c
    rw [mints_append]
    omega
  minted e he := by
    obtain ⟨now, hmem, hexp⟩ := h.minted e he
    exact ⟨now, List.mem_append_left _ hmem, hexp⟩

theorem Store.known_empty (log : List Outcome) : ({} : Store).Known log where
  valid := Store.valid_empty
  few _ := Nat.zero_le _
  minted _ he := absurd he List.not_mem_nil

namespace Job

variable {job : Job} {read : Store} {ok : Bool}

theorem finish_valid (hread : read.Valid) (hjob : job.Good) (ok : Bool) :
    (job.finish read ok).1.Valid := by
  cases job with
  | mint code now => exact hread.mint hjob.1 hjob.2
  | redeem typed now => exact hread.redeem typed now

/-- A write adds no entry that is not minted, and takes one away for each attempt that pairs. -/
theorem finish_entries (job : Job) (read : Store) (c : String) :
    (job.finish read true).1.entries c + pairings (job.finish read true).2 c ≤
      read.entries c + mints (job.finish read true).2 c := by
  cases job with
  | mint code now =>
    have hle := read.entries_mint_le code now c
    simpa [finish, pairings, mints, List.countP_singleton] using hle
  | redeem typed now =>
    have hle := read.entries_redeem_le typed now c
    simpa [finish, pairings, mints, List.countP_singleton] using hle

theorem finish_pairings (job : Job) (read : Store) (ok : Bool) (c : String) :
    pairings (job.finish read ok).2 c ≤ if job.isRedeem then read.entries c else 0 := by
  cases job with
  | mint code now => cases ok <;> simp [finish, pairings]
  | redeem typed now =>
    have hle := read.entries_redeem_le typed now c
    simp only [isRedeem, if_true, finish, pairings, List.countP_singleton, Bool.and_eq_true,
      decide_eq_true_eq]
    omega

theorem mem_finish {e : String × Nat} (h : e ∈ (job.finish read true).1.codes) :
    e ∈ read.codes ∨
      ∃ now, .minted e.1 now ∈ (job.finish read true).2 ∧ e.2 = now + pairCodeTtlSecs := by
  cases job with
  | mint code now =>
    obtain h | rfl := Store.mem_mint h
    · exact .inl h
    · exact .inr ⟨now, List.mem_singleton_self _, rfl⟩
  | redeem typed now => exact .inl (Store.mem_redeem h)

theorem finish_known {log : List Outcome} (hread : read.Known log) (hjob : job.Good) :
    (job.finish read true).1.Known (log ++ (job.finish read true).2) where
  valid := finish_valid hread.valid hjob true
  few c := by
    have hfew := hread.few c
    have hentries := job.finish_entries read c
    rw [mints_append]
    omega
  minted e he := by
    obtain he | ⟨now, hmem, hexp⟩ := mem_finish he
    · exact (hread.append _).minted e he
    · exact ⟨now, List.mem_append_right _ hmem, hexp⟩

theorem finish_timely {typed : String} {now : Nat}
    (h : .answered typed now true ∈ (job.finish read ok).2) :
    ∃ exp, (normalizeCode typed, exp) ∈ read.codes ∧ now < exp := by
  cases job with
  | mint code now =>
    cases ok <;> simp [finish] at h
  | redeem typed' now' =>
    simp only [finish, List.mem_singleton, Outcome.answered.injEq] at h
    obtain ⟨rfl, rfl, hpaired⟩ := h
    obtain ⟨i, exp, hi, -⟩ | ⟨-, heq⟩ := read.redeem_cases typed now
    · obtain ⟨hmem, hlt⟩ := List.mem_filter.mp (List.mem_of_getElem? hi)
      exact ⟨exp, hmem, by simpa using hlt⟩
    · rw [heq] at hpaired
      cases hpaired

end Job

namespace Desk

variable {d d' : Desk}

/-- What every reachable desk keeps. -/
structure Sound (d : Desk) : Prop where
  file : (readStore d.file).Known d.log
  held : ∀ h ∈ d.held, h.read.Known d.log ∧ h.job.Good
  once : ∀ c, pairings d.log c + (readStore d.file).entries c ≤
    mints d.log c * (1 + d.stale + d.failed)
  timely : ∀ typed now, .answered typed now true ∈ d.log →
    ∃ m, .minted (normalizeCode typed) m ∈ d.log ∧ now < m + pairCodeTtlSecs

theorem sound_start : ({} : Desk).Sound where
  file := Store.known_empty _
  held _ hh := absurd hh List.not_mem_nil
  once _ := Nat.zero_le _
  timely _ _ hmem := absurd hmem List.not_mem_nil

theorem Sound.call {process : Nat} {job : Job} (h : d.Sound) (hjob : job.Good)
    (hcall : d.call process job = some d') : d'.Sound := by
  obtain ⟨-, ⟨⟩⟩ := Option.ite_none_left_eq_some.mp hcall
  constructor
  case file => exact h.file
  case held =>
    intro held hheld
    obtain hheld | hheld := List.mem_append.mp hheld
    · exact h.held held hheld
    · rw [List.mem_singleton.mp hheld]
      exact ⟨h.file, hjob⟩
  case once => exact h.once
  case timely => exact h.timely

theorem Sound.die (h : d.Sound) (process : Nat) :
    { d with held := d.held.filter (·.process ≠ process) }.Sound where
  file := h.file
  held x hx := h.held x (List.mem_of_mem_filter hx)
  once := h.once
  timely := h.timely

/-- Room for what was minted before, once more for each write of the second kind. -/
theorem le_mul_of_room {m new k i : Nat} (hk : 1 ≤ k) :
    m * k + m * i + new ≤ (m + new) * (k + i) := by
  have hnew : new ≤ new * (k + i) := Nat.le_mul_of_pos_right _ (by omega)
  rw [Nat.add_mul, Nat.mul_add]
  omega

theorem Sound.finish {x : Held} (h : d.Sound) (hx : x ∈ d.held) (ok : Bool) :
    (d.finish x ok).Sound := by
  obtain ⟨hread, hjob⟩ := h.held x hx
  have hlog : (d.finish x ok).log = d.log ++ (x.job.finish x.read ok).2 := rfl
  have hfile : readStore (d.finish x ok).file =
      if ok then (x.job.finish x.read ok).1 else readStore d.file := by
    cases ok
    · rfl
    · exact readStore_writeStore (Job.finish_valid hread.valid hjob true)
  constructor
  case file =>
    rw [hfile, hlog]
    cases ok with
    | false => exact h.file.append _
    | true => exact Job.finish_known hread hjob
  case held =>
    intro y hy
    obtain ⟨hknown, hgood⟩ := h.held y (List.mem_of_mem_filter hy)
    exact ⟨hknown.append _, hgood⟩
  case once =>
    intro c
    have honce := h.once c
    have hfew := hread.few c
    have hpairings := x.job.finish_pairings x.read ok c
    rw [hfile, hlog, pairings_append, mints_append]
    have hfactor : 1 + (d.finish x ok).stale + (d.finish x ok).failed = 1 + d.stale + d.failed +
        ((if ok ∧ x.read ≠ readStore d.file then 1 else 0) +
          if !ok ∧ x.job.isRedeem then 1 else 0) := by
      simp only [Desk.finish]
      omega
    rw [hfactor]
    refine Nat.le_trans ?_ (le_mul_of_room (Nat.le_add_right_of_le (Nat.le_add_right 1 _)))
    cases ok with
    | false =>
      simp only [Bool.false_eq_true, false_and, if_false, Bool.not_false, true_and, Nat.zero_add]
      split at hpairings
      · next hredeem =>
        rw [if_pos hredeem, Nat.mul_one]
        omega
      · next hmint =>
        rw [if_neg hmint, Nat.mul_zero]
        omega
    | true =>
      have hentries := x.job.finish_entries x.read c
      simp only [true_and, if_true, Bool.not_true, Bool.false_eq_true, false_and, if_false,
        Nat.add_zero]
      by_cases hstale : x.read = readStore d.file
      · rw [if_neg (not_not.mpr hstale), Nat.mul_zero]
        rw [hstale] at hentries ⊢
        omega
      · rw [if_pos hstale, Nat.mul_one]
        omega
  case timely =>
    intro typed now hmem
    rw [hlog] at hmem ⊢
    obtain hmem | hmem := List.mem_append.mp hmem
    · obtain ⟨m, hm, hlt⟩ := h.timely typed now hmem
      exact ⟨m, List.mem_append_left _ hm, hlt⟩
    · obtain ⟨exp, hexp, hlt⟩ := Job.finish_timely hmem
      obtain ⟨m, hm, rfl⟩ := hread.minted _ hexp
      exact ⟨m, List.mem_append_left _ hm, hlt⟩

/-- **Step lemma.** -/
theorem Sound.step {e : Event} (h : d.Sound) (hstep : d.step e = some d') : d'.Sound := by
  cases e with
  | mint process bytes now =>
    obtain ⟨hnow, hbind⟩ := Option.ite_none_right_eq_some.mp hstep
    obtain ⟨code, hcode, hcall⟩ := Option.bind_eq_some_iff.mp hbind
    have hgood : (Job.mint code now).Good := ⟨draw_isCode hcode, hnow⟩
    exact h.call hgood hcall
  | redeem process typed now =>
    have hgood : (Job.redeem typed now).Good := trivial
    exact h.call hgood hstep
  | write process ok =>
    obtain ⟨x, hx, rfl⟩ := Option.map_eq_some_iff.mp hstep
    exact h.finish (List.mem_of_find?_eq_some hx) ok
  | die process =>
    obtain rfl := Option.some.inj hstep
    exact h.die process

/-- **Run lemma.** -/
theorem run_sound {es : List Event} (h : Run (fun d e d' => d.step e = some d') {} es d) :
    d.Sound :=
  h.kept (P := Sound) (Q := fun _ => True) (fun _ _ _ _ hstep hs => hs.step hstep)
    (fun _ _ => trivial) sound_start

/-- **Codes are good once, and in time.** In every order of the calls of any number of processes,
attempts with a code pair at most once for each time it was minted, unless a write puts back an old
reading or an attempt fails to write, and then at most once more for each; and an attempt pairs
only before a code that was minted expires. -/
theorem paired_at_most {es : List Event} (h : Run (fun d e d' => d.step e = some d') {} es d) :
    (∀ c, pairings d.log c ≤ mints d.log c * (1 + d.stale + d.failed)) ∧
    ∀ typed now, .answered typed now true ∈ d.log →
      ∃ m, .minted (normalizeCode typed) m ∈ d.log ∧ now < m + pairCodeTtlSecs := by
  have hsound := run_sound h
  refine ⟨?_, hsound.timely⟩
  intro c
  have honce := hsound.once c
  omega

/-- A code is minted, and is typed in small letters with its dash. -/
def pairedRun : List Event :=
  [.mint 1 (List.replicate 8 0) 10, .write 1 true, .redeem 2 "aaaa-aaaa" 20, .write 2 true]

theorem pairedRun_ends : ∃ d : Desk, Run (fun d e d' => d.step e = some d') {} pairedRun d ∧
    d.log = [.minted "AAAAAAAA" 10, .answered "aaaa-aaaa" 20 true] ∧
    d.stale = 0 ∧ d.failed = 0 := by
  have hrun : ((pairedRun.foldlM step {}).any fun d =>
      decide (d.log = [.minted "AAAAAAAA" 10, .answered "aaaa-aaaa" 20 true]) &&
        decide (d.stale = 0) && decide (d.failed = 0)) = true := by decide +kernel
  obtain ⟨d, hd, hend⟩ := (Option.any_eq_true _ _).mp hrun
  simp only [Bool.and_eq_true, decide_eq_true_eq] at hend
  exact ⟨d, .of_foldlM hd, hend.1.1, hend.1.2, hend.2⟩

theorem paired_at_most_once : ∃ d : Desk, d.stale = 0 ∧ d.failed = 0 ∧
    (∀ c, pairings d.log c ≤ mints d.log c * (1 + d.stale + d.failed)) ∧
    ∃ m, .minted (normalizeCode "aaaa-aaaa") m ∈ d.log ∧ 20 < m + pairCodeTtlSecs := by
  obtain ⟨d, hrun, hlog, hstale, hfailed⟩ := pairedRun_ends
  obtain ⟨hmost, htimely⟩ := paired_at_most hrun
  exact ⟨d, hstale, hfailed, hmost, htimely "aaaa-aaaa" 20 (by simp [hlog])⟩

end Desk

/-! ## one call after the other -/

/-- What is left of a store after the calls that a log tells of. -/
def Outcome.apply (store : Store) : Outcome → Store
  | .minted code now => store.mint code now
  | .answered typed now _ => (store.redeem typed now).2

def replay (store : Store) (log : List Outcome) : Store := log.foldl Outcome.apply store

/-- Every attempt of a log is answered as the store answers it. -/
def Answers (store : Store) : List Outcome → Prop
  | [] => True
  | .minted code now :: log => Answers (store.mint code now) log
  | .answered typed now paired :: log =>
    (store.redeem typed now).1 = paired ∧ Answers (store.redeem typed now).2 log

theorem replay_append (store : Store) (log more : List Outcome) :
    replay store (log ++ more) = replay (replay store log) more := List.foldl_append

theorem answers_append (store : Store) (log more : List Outcome) :
    Answers store (log ++ more) ↔ Answers store log ∧ Answers (replay store log) more := by
  induction log generalizing store with
  | nil => simp [Answers, replay]
  | cons o log ih =>
    cases o with
    | minted code now =>
      simp only [List.cons_append, Answers, ih]
      rfl
    | answered typed now paired =>
      simp only [List.cons_append, Answers, ih, and_assoc]
      rfl

namespace Desk

variable {d d' : Desk}

/-- The file is what its log makes of an empty one. -/
def InOrder (d : Desk) : Prop :=
  d.stale = 0 → d.failed = 0 → readStore d.file = replay {} d.log ∧ Answers {} d.log

theorem finish_replay (job : Job) (read : Store) :
    (job.finish read true).1 = replay read (job.finish read true).2 ∧
      Answers read (job.finish read true).2 := by
  cases job with
  | mint code now => exact ⟨rfl, trivial⟩
  | redeem typed now => exact ⟨rfl, rfl, trivial⟩

theorem InOrder.finish {x : Held} (h : d.InOrder) (hsound : d.Sound) (hx : x ∈ d.held) (ok : Bool) :
    (d.finish x ok).InOrder := by
  intro hstale hfailed
  have hstale : d.stale + (if ok ∧ x.read ≠ readStore d.file then 1 else 0) = 0 := hstale
  have hfailed : d.failed + (if !ok ∧ x.job.isRedeem then 1 else 0) = 0 := hfailed
  obtain ⟨hfile, hanswers⟩ := h (by omega) (by omega)
  have hlog : (d.finish x ok).log = d.log ++ (x.job.finish x.read ok).2 := rfl
  cases ok with
  | false =>
    have hmint : x.job.isRedeem = false := by
      by_contra hredeem
      simp [hredeem] at hfailed
    have hnone : (x.job.finish x.read false).2 = [] := by
      cases hjob : x.job with
      | mint code now => rfl
      | redeem typed now =>
        rw [hjob] at hmint
        cases hmint
    rw [hlog, hnone, List.append_nil]
    exact ⟨hfile, hanswers⟩
  | true =>
    have hread : x.read = readStore d.file := by
      by_contra hne
      simp [hne] at hstale
    obtain ⟨hstore, hanswered⟩ := finish_replay x.job x.read
    have hvalid := Job.finish_valid (hsound.held x hx).1.valid (hsound.held x hx).2 true
    have hwritten : readStore (d.finish x true).file = (x.job.finish x.read true).1 :=
      readStore_writeStore hvalid
    rw [hwritten, hlog, replay_append, answers_append, ← hfile, ← hread]
    exact ⟨hstore, hanswers, hanswered⟩

theorem run_inOrder {es : List Event} (h : Run (fun d e d' => d.step e = some d') {} es d) :
    d.InOrder := by
  refine (h.kept (P := fun d => d.Sound ∧ d.InOrder) (Q := fun _ => True) ?_ (fun _ _ => trivial)
    ⟨sound_start, fun _ _ => ⟨rfl, trivial⟩⟩).2
  rintro d e d' - hstep ⟨hsound, horder⟩
  refine ⟨hsound.step hstep, ?_⟩
  cases e with
  | mint process bytes now =>
    obtain ⟨-, hbind⟩ := Option.ite_none_right_eq_some.mp hstep
    obtain ⟨code, -, hcall⟩ := Option.bind_eq_some_iff.mp hbind
    obtain ⟨-, ⟨⟩⟩ := Option.ite_none_left_eq_some.mp hcall
    exact horder
  | redeem process typed now =>
    obtain ⟨-, ⟨⟩⟩ := Option.ite_none_left_eq_some.mp hstep
    exact horder
  | write process ok =>
    obtain ⟨x, hx, rfl⟩ := Option.map_eq_some_iff.mp hstep
    exact horder.finish hsound (List.mem_of_find?_eq_some hx) ok
  | die process =>
    obtain rfl := Option.some.inj hstep
    exact horder

/-- **One call after the other.** Where no old reading is put back and no write fails, calls in any
order leave the file that the logged calls make one after the other, and are answered so. -/
theorem run_replay {es : List Event} (h : Run (fun d e d' => d.step e = some d') {} es d)
    (hstale : d.stale = 0) (hfailed : d.failed = 0) :
    readStore d.file = replay {} d.log ∧ Answers {} d.log :=
  run_inOrder h hstale hfailed

theorem run_replay_paired : ∃ d : Desk, d.log.length = 2 ∧
    readStore d.file = replay {} d.log ∧ Answers {} d.log := by
  obtain ⟨d, hrun, hlog, hstale, hfailed⟩ := pairedRun_ends
  exact ⟨d, by simp [hlog], run_replay hrun hstale hfailed⟩

end Desk

/-! ## wrong attempts -/

/-- How many attempts missed. -/
def misses (log : List Outcome) : Nat := log.countP fun
  | .minted _ _ => false
  | .answered _ _ paired => !paired

/-- No attempt paired. -/
def NonePaired (log : List Outcome) : Prop := ∀ typed now, .answered typed now true ∉ log

theorem fails_replay_lt {store : Store} (h : store.fails < pairCodeTries) (log : List Outcome) :
    (replay store log).fails < pairCodeTries := by
  refine List.foldlRecOn (motive := fun s : Store => s.fails < pairCodeTries) log _ h ?_
  intro s hs o _
  cases o with
  | minted code now => exact hs
  | answered typed now paired => exact s.fails_redeem_lt typed now

/-- While nothing pairs, the misses are counted up to the fifth; from then on the codes are those
that were minted since. -/
theorem replay_misses {store : Store} {log : List Outcome} (hfails : store.fails < pairCodeTries)
    (hnone : NonePaired log) (hanswers : Answers store log) :
    (replay store log).fails = store.fails + misses log ∧ store.fails + misses log < pairCodeTries ∨
    ∀ e ∈ (replay store log).codes, ∃ now, .minted e.1 now ∈ log := by
  induction log using List.reverseRecOn with
  | nil => exact .inl ⟨rfl, hfails⟩
  | append_singleton log o ih =>
    have hprefix : NonePaired log := fun typed now hmem =>
      hnone typed now (List.mem_append_left _ hmem)
    obtain ⟨hbefore, hlast⟩ := (answers_append store log [o]).mp hanswers
    have hrest := ih hprefix hbefore
    rw [replay_append]
    cases o with
    | minted code now =>
      have hmisses : misses (log ++ [.minted code now]) = misses log := by simp [misses]
      rw [hmisses]
      obtain hcount | hsince := hrest
      · exact .inl hcount
      · refine .inr ?_
        intro e he
        obtain he | rfl := Store.mem_mint he
        · obtain ⟨m, hm⟩ := hsince e he
          exact ⟨m, List.mem_append_left _ hm⟩
        · exact ⟨now, List.mem_append_right _ (List.mem_singleton_self _)⟩
    | answered typed now paired =>
      cases paired with
      | true => exact absurd (List.mem_append_right _ (List.mem_singleton_self _)) (hnone typed now)
      | false =>
        have hmisses : misses (log ++ [.answered typed now false]) = misses log + 1 := by
          simp [misses]
        have hsub {e : String × Nat}
            (he : e ∈ (replay (replay store log) [.answered typed now false]).codes) :
            e ∈ (replay store log).codes := Store.mem_redeem he
        have hmissed : ((replay store log).redeem typed now).1 = false := hlast.1
        rw [hmisses]
        obtain ⟨hcount, hlt⟩ | hsince := hrest
        · obtain ⟨i, exp, -, heq⟩ | ⟨-, heq⟩ := (replay store log).redeem_cases typed now
          · rw [heq] at hmissed
            cases hmissed
          · have hafter : replay (replay store log) [.answered typed now false] =
                ((replay store log).redeem typed now).2 := rfl
            rw [hafter, heq, hcount]
            by_cases hburn : pairCodeTries ≤ store.fails + misses log + 1
            · rw [if_pos hburn]
              exact .inr fun e he => absurd he List.not_mem_nil
            · rw [if_neg hburn]
              exact .inl ⟨Nat.add_assoc _ _ _, by omega⟩
        · refine .inr ?_
          intro e he
          obtain ⟨m, hm⟩ := hsince e (hsub he)
          exact ⟨m, List.mem_append_left _ hm⟩

namespace Desk

variable {d : Desk}

/-- **Wrong attempts burn.** Five misses without a pairing between them leave no code that was
there before: what the file still holds was minted since. -/
theorem missed_burn {es : List Event} (h : Run (fun d e d' => d.step e = some d') {} es d)
    (hstale : d.stale = 0) (hfailed : d.failed = 0) {before since : List Outcome}
    (hlog : d.log = before ++ since) (hnone : NonePaired since)
    (hmisses : pairCodeTries ≤ misses since) :
    ∀ e ∈ (readStore d.file).codes, ∃ now, .minted e.1 now ∈ since := by
  obtain ⟨hfile, hanswers⟩ := run_inOrder h hstale hfailed
  rw [hlog, replay_append] at hfile
  rw [hlog, answers_append] at hanswers
  have hfails : (replay {} before).fails < pairCodeTries :=
    fails_replay_lt (Nat.zero_lt_succ _) before
  rw [hfile]
  obtain ⟨-, hlt⟩ | hsince := replay_misses hfails hnone hanswers.2
  · omega
  · exact hsince

/-- A code is minted, and five attempts miss. -/
def burnedRun : List Event :=
  [.mint 1 (List.replicate 8 0) 10, .write 1 true] ++
    (List.replicate 5 [.redeem 2 "b" 20, .write 2 true]).flatten

theorem missed_burn_five : ∃ d : Desk, d.log.head? = some (.minted "AAAAAAAA" 10) ∧
    ∀ e ∈ (readStore d.file).codes, ∃ now, Outcome.minted e.1 now ∈
      List.replicate 5 (Outcome.answered "b" 20 false) := by
  have hrun : ((burnedRun.foldlM step {}).any fun d =>
      decide (d.log = [.minted "AAAAAAAA" 10] ++ List.replicate 5 (.answered "b" 20 false)) &&
        decide (d.stale = 0) && decide (d.failed = 0)) = true := by decide +kernel
  obtain ⟨d, hd, hend⟩ := (Option.any_eq_true _ _).mp hrun
  simp only [Bool.and_eq_true, decide_eq_true_eq] at hend
  obtain ⟨⟨hlog, hstale⟩, hfailed⟩ := hend
  refine ⟨d, by simp [hlog], missed_burn (.of_foldlM hd) hstale hfailed hlog ?_ (by decide)⟩
  intro typed now hmem
  simp at hmem

/-! ## a fresh code -/

theorem find?_call {d' : Desk} {process : Nat} {job : Job} (h : d.call process job = some d') :
    d'.held.find? (·.process = process) = some ⟨process, job, readStore d.file⟩ ∧
      d'.file = d.file ∧ d'.log = d.log := by
  obtain ⟨hfree, ⟨⟩⟩ := Option.ite_none_left_eq_some.mp h
  refine ⟨?_, rfl, rfl⟩
  have hnone : d.held.find? (·.process = process) = none := by
    simpa [List.find?_eq_none] using hfree
  rw [List.find?_append, hnone]
  simp

/-- **A fresh code pairs.** Whatever happened before: a code that was just minted pairs when it is
typed as it was shown, in letters of any case, within its time. -/
theorem fresh_code_pairs {d' : Desk} {es : List Event}
    (h : Run (fun d e d' => d.step e = some d') {} es d) {p q now now' : Nat} {bytes : List UInt8}
    {code typed : String} (hcode : draw bytes = some code)
    (htyped : typed.toList.map Char.toUpper = (displayCode code).toList.map Char.toUpper)
    (htime : now' < now + pairCodeTtlSecs)
    (hsteps : Run (fun d e d' => d.step e = some d') d
      [.mint p bytes now, .write p true, .redeem q typed now', .write q true] d') :
    d'.log = d.log ++ [.minted code now, .answered typed now' true] := by
  have hvalid := (run_sound h).file.valid
  have hiscode := draw_isCode hcode
  have hnormal := normalizeCode_displayCode hiscode htyped
  simp only [Run.cons_iff, Run.nil_iff] at hsteps
  obtain ⟨d₁, hmint, d₂, hwrite, d₃, hredeem, d₄, hlast, rfl⟩ := hsteps
  obtain ⟨hnow, hbind⟩ := Option.ite_none_right_eq_some.mp hmint
  rw [hcode, Option.bind_some] at hbind
  obtain ⟨hfind, -, hlog⟩ := find?_call hbind
  simp only [step, hfind, Option.map_some, Option.some.injEq] at hwrite
  obtain ⟨hfind', hfile', hlog'⟩ := find?_call hredeem
  simp only [step, hfind', Option.map_some, Option.some.injEq] at hlast
  have hread : readStore d₂.file = (readStore d.file).mint code now := by
    rw [← hwrite]
    exact readStore_writeStore (hvalid.mint hiscode hnow)
  have hpaired : (((readStore d.file).mint code now).redeem typed now').1 = true := by
    obtain ⟨i, exp, -, heq⟩ | ⟨hnone, -⟩ :=
      ((readStore d.file).mint code now).redeem_cases typed now'
    · rw [heq]
    · rw [hnormal] at hnone
      obtain hempty | hnone := hnone
      · exact absurd (hempty ▸ hiscode.length) (by decide)
      · refine absurd ?_ (hnone (now + pairCodeTtlSecs))
        refine List.mem_filter.mpr ⟨List.mem_append_right _ (List.mem_singleton_self _), ?_⟩
        simpa using htime
  have hminted : d₂.log = d.log ++ [.minted code now] := by
    rw [← hwrite, ← hlog]
    rfl
  rw [← hlast]
  show d₃.log ++ [.answered typed now' ((readStore d₂.file).redeem typed now').1] = _
  rw [hlog', hminted, hread, hpaired, List.append_assoc]
  rfl

theorem fresh_code_pairs_first : ∃ d : Desk,
    d.log = [] ++ [.minted "AAAAAAAA" 10, .answered "aaaa-aaaa" 20 true] := by
  obtain ⟨d, hrun, -, -, -⟩ := pairedRun_ends
  exact ⟨d, fresh_code_pairs (.nil _) (by decide) (by decide) (by decide) hrun⟩

end Desk

end ClaudeReplay.Pairing
