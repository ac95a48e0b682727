import ClaudeReplay.Lib.Chase
import ClaudeReplay.Lib.Table
import Mathlib.Algebra.BigOperators.Group.Finset.Basic
import Mathlib.Algebra.Ring.Rat

/-!
# ClaudeReplay.Monitor.SubCosts

The costs of sub-agents, rolled up onto the rows that spawned them.

Each scan chases the parents of every sub-agent's rollout until one is a row, asks the
ledger for the rollout's price, and keeps that price under the rollout's path with the row
it belongs to. Entries live from scan to scan: an answer may move one, replace it or
remove it, and a rollout that is gone or reaches no row takes its entry along. The totals
are added up anew from the entries.

`lastPrice` says without entries what a rollout costs after some scans, and
`sub_costs_counted_once` that each row's total is the sum of these prices over the rollouts
that belong to it. A chain is followed for 64 looks. The ledger's answers are given, and
prices are of any type that adds.
-/

namespace ClaudeReplay.Cost

/-- One folded transcript's pricing result. -/
structure CostSummary (Usd : Type) where
  knownUsd : Option Usd
  isPartial : Bool
  deriving DecidableEq, Repr

/-- What a refresh does to the row. -/
inductive CostUpdate (Usd : Type)
  | keep
  | invalidate
  | replace (summary : Option (CostSummary Usd))
  deriving DecidableEq, Repr

end ClaudeReplay.Cost

namespace ClaudeReplay.SubCosts

open Lib Cost

/-- A row's id, the stem of its transcript. -/
abbrev Sid := String

abbrev Uuid := String

abbrev Path := String

/-! ## the lineage of one scan -/

/-- `is_uuid`, of the characters. -/
def isUuid (t : List Char) : Bool :=
  t.length = 36 && t.zipIdx.all fun c =>
    if c.2 = 8 ∨ c.2 = 13 ∨ c.2 = 18 ∨ c.2 = 23 then c.1 = '-'
    else c.1.isDigit || 'a' ≤ c.1 && c.1 ≤ 'f' || 'A' ≤ c.1 && c.1 ≤ 'F'

/-- `trailing_uuid`: the UUID a row's file stem ends with. -/
def trailingUuid (stem : Sid) : Option Uuid :=
  let tail := stem.toList.drop (stem.toList.length - 36)
  if isUuid tail then some (String.ofList tail) else none

variable {Usd : Type}

/-- A sub-agent's rollout, as an adapter lists it, and what the ledger would answer. -/
structure Sub (Usd : Type) where
  path : Path
  own : Uuid
  up : Uuid
  answer : CostUpdate Usd

/-- What one scan finds: the rows, and each adapter's sub-agents. -/
structure Scan (Usd : Type) where
  rows : List Sid
  distinct : rows.Nodup
  adapters : List (List (Sub Usd))

/-- `root_of`: the rows by the UUIDs that their stems end with. -/
def rootOf (rows : List Sid) : Table Uuid Sid :=
  rows.foldl (fun t sid => (trailingUuid sid).elim t fun u => t.put u sid) .empty

/-- The parents that one adapter's sub-agents name. -/
def parentOf (subs : List (Sub Usd)) : Table Uuid Uuid :=
  subs.foldl (fun t sub => t.put sub.own sub.up) .empty

/-- The loop from a parent to a row, for some looks. -/
def findRoot (roots : Table Uuid Sid) (parent : Table Uuid Uuid) : Nat → Uuid → Option Sid
  | 0, _ => none
  | looks + 1, cur =>
    match roots.find? cur with
    | some stem => some stem
    | none =>
      match parent.find? cur with
      | some next => if next ≠ cur then findRoot roots parent looks next else none
      | none => none

/-- A rollout that belongs to a row, and the ledger's answer for it. -/
structure Visit (Usd : Type) where
  path : Path
  root : Sid
  answer : CostUpdate Usd

/-- The visits of the loop: a rollout whose lineage dangles is none. -/
def Scan.visits (e : Scan Usd) : List (Visit Usd) :=
  e.adapters.flatMap fun subs => subs.filterMap fun sub =>
    (findRoot (rootOf e.rows) (parentOf subs) 64 sub.up).map fun root =>
      ⟨sub.path, root, sub.answer⟩

/-! ## the entries -/

abbrev Entries (Usd : Type) := Table Path (Sid × CostSummary Usd)

/-- `apply_sub_cost_update`. -/
def applySubCostUpdate (entries : Entries Usd) (v : Visit Usd) : Entries Usd :=
  match v.answer with
  | .keep =>
    match entries.find? v.path with
    | some (_, summary) => entries.put v.path (v.root, summary)
    | none => entries
  | .replace (some summary) => entries.put v.path (v.root, summary)
  | .invalidate | .replace none => entries.erase v.path

section Sums

variable [Add Usd]

/-- `CostSummary::merge`. -/
def merge (a b : CostSummary Usd) : CostSummary Usd where
  knownUsd := match a.knownUsd, b.knownUsd with
    | some a, some b => some (a + b)
    | some a, none => some a
    | none, some b => some b
    | none, none => none
  isPartial := a.isPartial || b.isPartial

/-- `aggregate_sub_costs`. -/
def aggregateSubCosts (entries : Entries Usd) : Table Sid (CostSummary Usd) :=
  entries.rows.foldl (fun totals entry =>
    totals.put entry.2.1 (((totals.find? entry.2.1).map (merge · entry.2.2)).getD entry.2.2))
    .empty

/-- What a scan leaves to the next one, and to the page. -/
structure State (Usd : Type) where
  subCostEntries : Entries Usd
  subCosts : Table Sid (CostSummary Usd)

def State.empty : State Usd := ⟨.empty, .empty⟩

/-- The roll-up of one scan. -/
def State.scan (s : State Usd) (e : Scan Usd) : State Usd :=
  let entries := (e.visits.foldl applySubCostUpdate s.subCostEntries).retain fun path _ =>
    path ∈ e.visits.map (·.path)
  ⟨entries, aggregateSubCosts entries⟩

end Sums

/-! ## what a rollout costs, said without entries -/

/-- What an answer makes of the last authoritative price. -/
def respond (price : Option (CostSummary Usd)) : CostUpdate Usd → Option (CostSummary Usd)
  | .keep => price
  | .invalidate => none
  | .replace summary => summary

/-- The answers that a scan has for a rollout that belongs to a row. -/
def Scan.answers (e : Scan Usd) (path : Path) : List (CostUpdate Usd) :=
  (e.visits.filter (·.path = path)).map (·.answer)

/-- The last authoritative price of a rollout since it last reached a row, after some scans. -/
def lastPrice (es : List (Scan Usd)) (path : Path) : Option (CostSummary Usd) :=
  es.foldl (fun price e =>
    if e.answers path = [] then none else (e.answers path).foldl respond price) none

/-- The row that a rollout belongs to in a scan. -/
def Scan.rowOf (e : Scan Usd) (path : Path) : Option Sid :=
  ((e.visits.filter (·.path = path)).getLast?).map (·.root)

/-- The rollouts that belong to a row. -/
def Scan.belonging (e : Scan Usd) (sid : Sid) : Finset Path :=
  (e.visits.map (·.path)).toFinset.filter fun path => e.rowOf path = some sid

/-- The known amount of a price, if any. -/
def amount [Zero Usd] (price : Option (CostSummary Usd)) : Usd := (price.bind (·.knownUsd)).getD 0

def isPartial (price : Option (CostSummary Usd)) : Bool := price.any (·.isPartial)

/-! ## the chase -/

/-- From a sub-agent to its parent. A row has none. -/
def climb (roots : Table Uuid Sid) (parent : Table Uuid Uuid) (u : Uuid) : Option Uuid :=
  if (roots.find? u).isSome then none else parent.find? u

/-- Fewer than `looks` parents lead from one to a row. -/
def ReachesRow (roots : Table Uuid Sid) (parent : Table Uuid Uuid) (looks : Nat) (up : Uuid)
    (sid : Sid) : Prop :=
  ∃ n < looks, ∃ u, Leads (climb roots parent) n up u ∧ roots.find? u = some sid

variable {roots : Table Uuid Sid} {parent : Table Uuid Uuid}

theorem climb_of_row {u : Uuid} {sid : Sid} (h : roots.find? u = some sid) :
    climb roots parent u = none := by simp [climb, h]

theorem climb_of_none {u : Uuid} (h : roots.find? u = none) :
    climb roots parent u = parent.find? u := by simp [climb, h]

/-- One look more, at a sub-agent that has a parent. -/
theorem reachesRow_succ {looks : Nat} {up next : Uuid} {sid : Sid} (hrow : roots.find? up = none)
    (hnext : parent.find? up = some next) :
    ReachesRow roots parent (looks + 1) up sid ↔ ReachesRow roots parent looks next sid := by
  have hclimb : climb roots parent up = some next := (climb_of_none hrow).trans hnext
  constructor
  · rintro ⟨n, hn, u, hway, hu⟩
    cases n with
    | zero =>
      cases hway
      simp [hrow] at hu
    | succ n =>
      obtain ⟨v, hv, hrest⟩ := hway
      rw [hclimb] at hv
      cases hv
      exact ⟨n, Nat.lt_of_succ_lt_succ hn, u, hrest, hu⟩
  · rintro ⟨n, hn, u, hway, hu⟩
    exact ⟨n + 1, Nat.succ_lt_succ hn, u, ⟨next, hclimb, hway⟩, hu⟩

/-- **The loop finds** the row that the chain of parents reaches. -/
theorem findRoot_eq_some {looks : Nat} {up : Uuid} {sid : Sid} :
    findRoot roots parent looks up = some sid ↔ ReachesRow roots parent looks up sid := by
  induction looks generalizing up with
  | zero => simp [findRoot, ReachesRow]
  | succ looks ih =>
    cases hrow : roots.find? up with
    | some stem =>
      simp only [findRoot, hrow, Option.some.injEq]
      constructor
      · rintro rfl
        exact ⟨0, Nat.succ_pos looks, up, rfl, hrow⟩
      · rintro ⟨n, -, u, hway, hu⟩
        have hstill : Still (climb roots parent) up := by simp [Still, climb_of_row hrow]
        obtain rfl := hway.stays hstill
        simpa [hrow] using hu
    | none =>
      cases hnext : parent.find? up with
      | none =>
        have hstill : Still (climb roots parent) up := by simp [Still, climb_of_none hrow, hnext]
        simp only [findRoot, hrow, hnext, reduceCtorEq, false_iff]
        rintro ⟨n, -, u, hway, hu⟩
        obtain rfl := hway.stays hstill
        simp [hrow] at hu
      | some next =>
        by_cases hself : next = up
        · subst hself
          have hstill : Still (climb roots parent) next := by
            simp [Still, climb_of_none hrow, hnext]
          simp only [findRoot, hrow, hnext, ne_eq, not_true_eq_false, if_false, reduceCtorEq,
            false_iff]
          rintro ⟨n, -, u, hway, hu⟩
          obtain rfl := hway.stays hstill
          simp [hrow] at hu
        · rw [reachesRow_succ hrow hnext, ← ih]
          simp [findRoot, hrow, hnext, hself]

/-- What the rows' table finds is a row, by the UUID its stem ends with. -/
theorem rootOf_eq_some {rows : List Sid} {u : Uuid} {sid : Sid}
    (h : (rootOf rows).find? u = some sid) : sid ∈ rows ∧ trailingUuid sid = some u := by
  suffices hfold : ∀ (rows : List Sid) (t : Table Uuid Sid),
      (rows.foldl (fun t sid => (trailingUuid sid).elim t fun u => t.put u sid) t).find? u =
        some sid → (sid ∈ rows ∧ trailingUuid sid = some u) ∨ t.find? u = some sid by
    rcases hfold rows .empty h with hrow | hempty
    · exact hrow
    · cases hempty
  intro rows
  induction rows with
  | nil => exact fun t h => .inr h
  | cons row rows ih =>
    intro t h
    rcases ih _ h with ⟨hmem, hu⟩ | hput
    · exact .inl ⟨List.mem_cons_of_mem _ hmem, hu⟩
    · cases huuid : trailingUuid row with
      | none => exact .inr (by simpa [huuid] using hput)
      | some v =>
        simp only [huuid, Option.elim_some, Table.find?_put] at hput
        split at hput
        · next hv =>
          cases hput
          exact .inl ⟨List.mem_cons_self, by rw [huuid, hv]⟩
        · exact .inr hput

/-- **A visit** is a rollout whose chain of parents reaches a row. -/
theorem Scan.mem_visits {e : Scan Usd} {v : Visit Usd} :
    v ∈ e.visits ↔ ∃ subs ∈ e.adapters, ∃ sub ∈ subs,
      ReachesRow (rootOf e.rows) (parentOf subs) 64 sub.up v.root ∧
        v = ⟨sub.path, v.root, sub.answer⟩ := by
  simp only [Scan.visits, List.mem_flatMap, List.mem_filterMap, Option.map_eq_some_iff,
    findRoot_eq_some]
  grind

theorem Scan.root_mem {e : Scan Usd} {v : Visit Usd} (h : v ∈ e.visits) : v.root ∈ e.rows := by
  obtain ⟨subs, -, sub, -, ⟨n, -, u, -, hu⟩, -⟩ := Scan.mem_visits.mp h
  exact (rootOf_eq_some hu).1

/-! ## the entries of a run -/

/-- What a visit makes of the entry of its path. -/
def Visit.onEntry (entry : Option (Sid × CostSummary Usd)) (v : Visit Usd) :
    Option (Sid × CostSummary Usd) :=
  (respond (entry.map Prod.snd) v.answer).map fun summary => (v.root, summary)

theorem find?_applySubCostUpdate (entries : Entries Usd) (v : Visit Usd) (path : Path) :
    (applySubCostUpdate entries v).find? path =
      if v.path = path then v.onEntry (entries.find? path) else entries.find? path := by
  by_cases hpath : v.path = path
  · subst hpath
    cases hanswer : v.answer with
    | keep =>
      cases hfind : entries.find? v.path with
      | none => simp [applySubCostUpdate, hanswer, hfind, Visit.onEntry, respond]
      | some entry =>
        simp [applySubCostUpdate, hanswer, hfind, Visit.onEntry, respond, Table.find?_put]
    | invalidate => simp [applySubCostUpdate, hanswer, Visit.onEntry, respond, Table.find?_erase]
    | replace summary =>
      cases summary with
      | none => simp [applySubCostUpdate, hanswer, Visit.onEntry, respond, Table.find?_erase]
      | some summary =>
        simp [applySubCostUpdate, hanswer, Visit.onEntry, respond, Table.find?_put]
  · have hother := Ne.symm hpath
    cases hanswer : v.answer with
    | keep =>
      cases hfind : entries.find? v.path <;>
        simp [applySubCostUpdate, hanswer, hfind, Table.find?_put, hpath, hother]
    | invalidate => simp [applySubCostUpdate, hanswer, Table.find?_erase, hpath, hother]
    | replace summary =>
      cases summary <;>
        simp [applySubCostUpdate, hanswer, Table.find?_erase, Table.find?_put, hpath, hother]

/-- Visits change the entry of a path by its own. -/
theorem find?_foldl_apply (visits : List (Visit Usd)) (entries : Entries Usd) (path : Path) :
    (visits.foldl applySubCostUpdate entries).find? path =
      (visits.filter (·.path = path)).foldl Visit.onEntry (entries.find? path) := by
  induction visits generalizing entries with
  | nil => rfl
  | cons v visits ih =>
    rw [List.foldl_cons, ih, find?_applySubCostUpdate, List.filter_cons]
    by_cases hpath : v.path = path <;> simp [hpath]

/-- The entry that visits leave has the row of the last one and the price of them all. -/
theorem foldl_onEntry (visits : List (Visit Usd)) (h : visits ≠ [])
    (entry : Option (Sid × CostSummary Usd)) :
    visits.foldl Visit.onEntry entry = (visits.getLast?.map (·.root)).bind fun root =>
      ((visits.map (·.answer)).foldl respond (entry.map Prod.snd)).map fun summary =>
        (root, summary) := by
  induction visits generalizing entry with
  | nil => exact absurd rfl h
  | cons v visits ih =>
    cases visits with
    | nil => rfl
    | cons w visits =>
      rw [List.foldl_cons, ih (by simp), List.getLast?_cons_cons]
      simp [Visit.onEntry, Function.comp_def]

theorem answers_eq_nil_iff {e : Scan Usd} {path : Path} :
    e.answers path = [] ↔ e.rowOf path = none := by
  simp [Scan.answers, Scan.rowOf]

theorem lastPrice_concat (es : List (Scan Usd)) (e : Scan Usd) (path : Path) :
    lastPrice (es ++ [e]) path =
      if e.answers path = [] then none else (e.answers path).foldl respond (lastPrice es path) := by
  rw [lastPrice, List.foldl_concat, ← lastPrice]

/-- A rollout that belongs to a row was visited. -/
theorem mem_of_rowOf {e : Scan Usd} {path : Path} {sid : Sid} (h : e.rowOf path = some sid) :
    ∃ v ∈ e.visits, v.path = path ∧ v.root = sid := by
  obtain ⟨v, hv, hroot⟩ := Option.map_eq_some_iff.mp h
  have hmem := List.mem_filter.mp (List.mem_of_getLast? hv)
  exact ⟨v, hmem.1, by simpa using hmem.2, hroot⟩

theorem mem_belonging {e : Scan Usd} {sid : Sid} {path : Path} :
    path ∈ e.belonging sid ↔ e.rowOf path = some sid := by
  simp only [Scan.belonging, Finset.mem_filter, List.mem_toFinset, and_iff_right_iff_imp]
  intro hrow
  obtain ⟨v, hv, hpath, -⟩ := mem_of_rowOf hrow
  exact List.mem_map.mpr ⟨v, hv, hpath⟩

/-- A visited rollout belongs to one of the scan's rows. -/
theorem exists_rowOf {e : Scan Usd} {path : Path} (h : path ∈ e.visits.map (·.path)) :
    ∃ sid ∈ e.rows, e.rowOf path = some sid := by
  obtain ⟨v, hv, hpath⟩ := List.mem_map.mp h
  cases hrow : e.rowOf path with
  | none =>
    have hnil : e.visits.filter (·.path = path) = [] := by simpa [Scan.rowOf] using hrow
    rw [List.filter_eq_nil_iff] at hnil
    exact absurd (by simpa using hpath) (hnil v hv)
  | some sid =>
    obtain ⟨w, hw, -, rfl⟩ := mem_of_rowOf hrow
    exact ⟨_, Scan.root_mem hw, rfl⟩

variable [Add Usd]

/-- The entry of a path behind one scan. -/
theorem find?_scan (s : State Usd) (e : Scan Usd) (path : Path) :
    (s.scan e).subCostEntries.find? path = (e.rowOf path).bind fun root =>
      ((e.answers path).foldl respond ((s.subCostEntries.find? path).map Prod.snd)).map
        fun summary => (root, summary) := by
  simp only [State.scan, Table.find?_retain, find?_foldl_apply]
  by_cases hmem : path ∈ e.visits.map (·.path)
  · have hne : e.visits.filter (·.path = path) ≠ [] := by
      obtain ⟨v, hv, hpath⟩ := List.mem_map.mp hmem
      exact List.ne_nil_of_mem (List.mem_filter.mpr ⟨hv, by simpa using hpath⟩)
    rw [foldl_onEntry _ hne, Scan.rowOf, Scan.answers]
    have hkeep : ∀ entry : Option (Sid × CostSummary Usd),
        entry.filter (fun _ => true) = entry := by
      intro entry
      cases entry <;> rfl
    simp only [hmem, decide_true]
    exact hkeep _
  · have hnil : e.visits.filter (·.path = path) = [] := by
      rw [List.filter_eq_nil_iff]
      intro v hv hpath
      exact hmem (List.mem_map.mpr ⟨v, hv, by simpa using hpath⟩)
    simp [hmem, Scan.rowOf, hnil]

/-- The price that an entry holds is the last authoritative one. -/
theorem find?_run (es : List (Scan Usd)) (path : Path) :
    ((es.foldl State.scan State.empty).subCostEntries.find? path).map Prod.snd =
      lastPrice es path := by
  induction es using List.reverseRecOn with
  | nil => rfl
  | append_singleton es e ih =>
    rw [List.foldl_concat, find?_scan, ih, lastPrice_concat]
    cases hrow : e.rowOf path with
    | none => simp [answers_eq_nil_iff.mpr hrow]
    | some root =>
      have hanswers : e.answers path ≠ [] := by simp [answers_eq_nil_iff, hrow]
      simp [hanswers, Function.comp_def]

/-- **The entries** behind a scan are the rollouts that belong to a row, each with its row
and its last authoritative price. -/
theorem find?_run_concat (es : List (Scan Usd)) (e : Scan Usd) (path : Path) :
    ((es ++ [e]).foldl State.scan State.empty).subCostEntries.find? path =
      (e.rowOf path).bind fun root => (lastPrice (es ++ [e]) path).map fun summary =>
        (root, summary) := by
  have hprice := find?_run (es ++ [e]) path
  rw [List.foldl_concat] at hprice ⊢
  rw [← hprice, find?_scan]
  cases hrow : e.rowOf path with
  | none => rfl
  | some root => simp [Function.comp_def]

/-! ## the totals -/

section Totals

variable {Usd : Type} [AddCommMonoid Usd]

/-- What one more entry makes of a row's total. -/
def onTotal (total : Option (CostSummary Usd)) (summary : CostSummary Usd) :
    Option (CostSummary Usd) := some ((total.map (merge · summary)).getD summary)

theorem find?_aggregate (entries : Entries Usd) (sid : Sid) :
    (aggregateSubCosts entries).find? sid =
      ((entries.rows.filter (·.2.1 = sid)).map (·.2.2)).foldl onTotal none := by
  suffices hfold : ∀ (rows : List (Path × Sid × CostSummary Usd))
      (t : Table Sid (CostSummary Usd)),
      (rows.foldl (fun totals entry => totals.put entry.2.1
        (((totals.find? entry.2.1).map (merge · entry.2.2)).getD entry.2.2)) t).find? sid =
      ((rows.filter (·.2.1 = sid)).map (·.2.2)).foldl onTotal (t.find? sid) from
    hfold entries.rows .empty
  intro rows
  induction rows with
  | nil => exact fun _ => rfl
  | cons entry rows ih =>
    intro t
    rw [List.foldl_cons, ih, Table.find?_put, List.filter_cons]
    by_cases hsid : entry.2.1 = sid
    · simp [hsid, onTotal]
    · simp [hsid, Ne.symm hsid]

theorem amount_onTotal (total : Option (CostSummary Usd)) (summary : CostSummary Usd) :
    amount (onTotal total summary) = amount total + amount (some summary) := by
  cases total with
  | none => simp [onTotal, amount]
  | some t =>
    cases ht : t.knownUsd <;> cases hs : summary.knownUsd <;> simp [onTotal, amount, merge, ht, hs]

theorem isPartial_onTotal (total : Option (CostSummary Usd)) (summary : CostSummary Usd) :
    isPartial (onTotal total summary) = (isPartial total || summary.isPartial) := by
  cases total <;> simp [onTotal, isPartial, merge]

/-- A row's total: the amounts add up, one partial part makes it partial, and a row without
parts has none. -/
theorem foldl_onTotal (summaries : List (CostSummary Usd)) (total : Option (CostSummary Usd)) :
    amount (summaries.foldl onTotal total) =
        amount total + (summaries.map fun s => amount (some s)).sum ∧
      isPartial (summaries.foldl onTotal total) =
        (isPartial total || summaries.any (·.isPartial)) ∧
      (summaries.foldl onTotal total).isSome = (total.isSome || !summaries.isEmpty) := by
  induction summaries generalizing total with
  | nil => simp
  | cons summary summaries ih =>
    obtain ⟨hamount, hpartial, hsome⟩ := ih (onTotal total summary)
    rw [List.foldl_cons, hamount, hpartial, hsome, amount_onTotal, isPartial_onTotal]
    simp [onTotal, add_assoc, Bool.or_assoc]

variable (es : List (Scan Usd)) (e : Scan Usd) (sid : Sid)

/-- The state that some scans leave. -/
def State.after (es : List (Scan Usd)) : State Usd := es.foldl State.scan State.empty

/-- The entries that a row's total is added up from. -/
def State.parts (s : State Usd) (sid : Sid) : List (Path × Sid × CostSummary Usd) :=
  s.subCostEntries.rows.filter (·.2.1 = sid)

theorem mem_parts {path : Path} {root : Sid} {summary : CostSummary Usd} :
    (path, root, summary) ∈ (State.after (es ++ [e])).parts sid ↔
      root = sid ∧ e.rowOf path = some sid ∧ lastPrice (es ++ [e]) path = some summary := by
  rw [State.parts, List.mem_filter, Table.mem_iff, State.after, find?_run_concat]
  simp only [decide_eq_true_eq]
  cases hrow : e.rowOf path with
  | none => simp
  | some row =>
    cases hprice : lastPrice (es ++ [e]) path with
    | none => simp
    | some price => grind

/-- The amounts of the parts are those of the rollouts that belong to the row. -/
theorem sum_parts :
    (((State.after (es ++ [e])).parts sid).map fun part => amount (some part.2.2)).sum =
      ∑ path ∈ e.belonging sid, amount (lastPrice (es ++ [e]) path) := by
  have hnodup : (((State.after (es ++ [e])).parts sid).map Prod.fst).Nodup :=
    (State.after (es ++ [e])).subCostEntries.unique.sublist (List.filter_sublist.map _)
  have hprices : ((State.after (es ++ [e])).parts sid).map (fun part => amount (some part.2.2)) =
      (((State.after (es ++ [e])).parts sid).map Prod.fst).map fun path =>
        amount (lastPrice (es ++ [e]) path) := by
    rw [List.map_map]
    apply List.map_congr_left
    intro part hpart
    simp [((mem_parts es e sid).mp hpart).2.2]
  rw [hprices, ← List.sum_toFinset _ hnodup]
  apply Finset.sum_subset
  · intro path hpath
    obtain ⟨part, hpart, rfl⟩ := List.mem_map.mp (List.mem_toFinset.mp hpath)
    exact mem_belonging.mpr ((mem_parts es e sid).mp hpart).2.1
  · intro path hpath hnot
    cases hprice : lastPrice (es ++ [e]) path with
    | none => rfl
    | some summary =>
      have hpart := (mem_parts es e sid).mpr ⟨rfl, mem_belonging.mp hpath, hprice⟩
      exact absurd (List.mem_toFinset.mpr (List.mem_map.mpr ⟨_, hpart, rfl⟩)) hnot

theorem subCosts_find? : (State.after (es ++ [e])).subCosts.find? sid =
    (((State.after (es ++ [e])).parts sid).map (·.2.2)).foldl onTotal none := by
  have hcosts : (State.after (es ++ [e])).subCosts =
      aggregateSubCosts (State.after (es ++ [e])).subCostEntries := by
    rw [State.after, List.foldl_concat]
    rfl
  rw [hcosts, find?_aggregate]
  rfl

/-- **Every sub-agent's price is counted on one row.** Behind every sequence of scans, the
total of each row is the sum of the last authoritative prices of the rollouts that belong to
it, the totals of all rows together are the prices of the rollouts that belong to some row,
a total is partial exactly when one of its parts is, and a row without parts has none. A
rollout belongs to the row that its chain of parents reaches. -/
theorem sub_costs_counted_once :
    (∀ sid, amount ((State.after (es ++ [e])).subCosts.find? sid) =
      ∑ path ∈ e.belonging sid, amount (lastPrice (es ++ [e]) path)) ∧
    (∀ sid, isPartial ((State.after (es ++ [e])).subCosts.find? sid) = true ↔
      ∃ path ∈ e.belonging sid, isPartial (lastPrice (es ++ [e]) path) = true) ∧
    (∀ sid, ((State.after (es ++ [e])).subCosts.find? sid).isSome = true ↔
      ∃ path ∈ e.belonging sid, (lastPrice (es ++ [e]) path).isSome = true) ∧
    (e.rows.map fun sid => amount ((State.after (es ++ [e])).subCosts.find? sid)).sum =
      ∑ path ∈ (e.visits.map (·.path)).toFinset, amount (lastPrice (es ++ [e]) path) ∧
    (∀ path, ((State.after (es ++ [e])).subCostEntries.find? path).isSome = true →
      path ∈ e.visits.map (·.path)) ∧
    ∀ v, v ∈ e.visits ↔ ∃ subs ∈ e.adapters, ∃ sub ∈ subs,
      ReachesRow (rootOf e.rows) (parentOf subs) 64 sub.up v.root ∧
        v = ⟨sub.path, v.root, sub.answer⟩ := by
  have htotal : ∀ sid, amount ((State.after (es ++ [e])).subCosts.find? sid) =
      ∑ path ∈ e.belonging sid, amount (lastPrice (es ++ [e]) path) := by
    intro sid
    rw [subCosts_find?, (foldl_onTotal _ none).1, ← sum_parts, List.map_map]
    simp [amount, Function.comp_def]
  refine ⟨htotal, ?_, ?_, ?_, ?_, fun v => Scan.mem_visits⟩
  · intro sid
    rw [subCosts_find?, (foldl_onTotal _ none).2.1]
    simp only [isPartial, Option.any_none, Bool.false_or, List.any_eq_true, List.mem_map,
      Option.any_eq_true]
    constructor
    · rintro ⟨_, ⟨⟨path, root, summary⟩, hpart, rfl⟩, hpartial⟩
      obtain ⟨-, hrow, hprice⟩ := (mem_parts es e sid).mp hpart
      exact ⟨path, mem_belonging.mpr hrow, summary, hprice, hpartial⟩
    · rintro ⟨path, hpath, summary, hprice, hpartial⟩
      have hpart := (mem_parts es e sid).mpr ⟨rfl, mem_belonging.mp hpath, hprice⟩
      exact ⟨summary, ⟨_, hpart, rfl⟩, hpartial⟩
  · intro sid
    rw [subCosts_find?, (foldl_onTotal _ none).2.2]
    simp only [Option.isSome_none, Bool.false_or, Bool.not_eq_true',
      List.isEmpty_eq_false_iff_exists_mem, List.mem_map, Option.isSome_iff_exists]
    constructor
    · rintro ⟨_, ⟨path, root, summary⟩, hpart, -⟩
      obtain ⟨-, hrow, hprice⟩ := (mem_parts es e sid).mp hpart
      exact ⟨path, mem_belonging.mpr hrow, summary, hprice⟩
    · rintro ⟨path, hpath, summary, hprice⟩
      exact ⟨_, _, (mem_parts es e sid).mpr ⟨rfl, mem_belonging.mp hpath, hprice⟩, rfl⟩
  · have hrows : ∀ path ∈ (e.visits.map (·.path)).toFinset,
        e.rowOf path ∈ e.rows.toFinset.map Function.Embedding.some := by
      intro path hpath
      obtain ⟨sid, hsid, hrow⟩ := exists_rowOf (List.mem_toFinset.mp hpath)
      exact Finset.mem_map.mpr ⟨sid, List.mem_toFinset.mpr hsid, hrow.symm⟩
    simp only [htotal]
    rw [← List.sum_toFinset _ e.distinct, ← Finset.sum_fiberwise_of_maps_to hrows, Finset.sum_map]
    rfl
  · intro path hsome
    rw [State.after, find?_run_concat] at hsome
    cases hrow : e.rowOf path with
    | none => simp [hrow] at hsome
    | some root =>
      obtain ⟨v, hv, hpath, -⟩ := mem_of_rowOf hrow
      exact List.mem_map.mpr ⟨v, hv, hpath⟩

end Totals

/-- A row whose stem is a UUID. -/
def mainRow : Sid := "00000000-0000-0000-0000-000000000000"

/-- A scan of that row and of some sub-agents. -/
def Scan.ofMain (subs : List (Sub Usd)) : Scan Usd := ⟨[mainRow], by simp, [subs]⟩

/-- The UUID of a sub-agent `k` levels above the first. -/
def level (k : Nat) : Uuid := String.ofList (List.replicate k 'a')

/-- Sub-agents in a row, 65 deep. The ledger has a price for the lowest. -/
def deepChain : List (Sub ℚ) :=
  (List.range 65).map fun k =>
    ⟨level k, level k, if k = 64 then mainRow else level (k + 1),
      if k = 0 then .replace (some ⟨some 1, false⟩) else .keep⟩

/-- A sub-agent's rollout under the row, for which the ledger has some answer. -/
def oneChild (answer : CostUpdate ℚ) : List (Sub ℚ) := [⟨"child", "child", mainRow, answer⟩]

/-- The lowest of the chain reaches the row, and its price is on none. And a price that the
ledger gave stays forgotten when the rollout was gone for a scan and the ledger has no new
answer. -/
theorem sub_costs_left_out :
    ((∃ n u, Leads (climb (rootOf [mainRow]) (parentOf deepChain)) n (level 1) u ∧
        (rootOf [mainRow]).find? u = some mainRow) ∧
      (State.after [Scan.ofMain deepChain]).subCosts.find? mainRow = none) ∧
    (State.after [Scan.ofMain (oneChild (.replace (some ⟨some 1, false⟩)))]).subCosts.find?
        mainRow = some ⟨some 1, false⟩ ∧
      (State.after [Scan.ofMain (oneChild (.replace (some ⟨some 1, false⟩))), Scan.ofMain [],
        Scan.ofMain (oneChild .keep)]).subCosts.find? mainRow = none := by
  have hway := leads_chase (climb (rootOf [mainRow]) (parentOf deepChain)) 64 (level 1)
  have hrow : (rootOf [mainRow]).find?
      (chase (climb (rootOf [mainRow]) (parentOf deepChain)) 64 (level 1)) = some mainRow := by
    decide +kernel
  obtain ⟨n, -, hleads⟩ := hway
  exact ⟨⟨⟨n, _, hleads, hrow⟩, by decide +kernel⟩, by decide +kernel, by decide +kernel⟩

end ClaudeReplay.SubCosts
