import ClaudeReplay.Lib.Cut
import ClaudeReplay.Lib.StrMap
import ClaudeReplay.Lib.Value

/-!
# ClaudeReplay.Index.Entry

The turn index: one entry for each committed record of a session's log, and the reply
that is put together from the entries. An entry holds the record's place in the log and
what the page's panes read from it, nested records included; the reply covers the records
below a boundary, and gives every turn that opens there its whole span.
-/

namespace ClaudeReplay.Index

open Lib (Value StrMap)

/-! ## entries -/

/-- The record kinds the page counts as tool calls. -/
def toolKinds : List String := ["bash", "read", "write", "edit", "skill", "tool"]

/-- The record kinds that open a turn. -/
def turnKinds : List String := ["user", "command", "peer"]

/-- A path a record offers, with its stamps. -/
structure Offer where
  path : String
  fsig : String
  sig : String
  deriving DecidableEq, Repr

/-- One line of the index: one committed record. -/
structure Entry where
  o : Nat := 0
  n : Nat := 0
  h : String := ""
  k : String := ""
  c : Bool := false
  id : String := ""
  agents : List String := []
  turn : Option Value := none
  tools : StrMap Nat := ∅
  compaction : Option Value := none
  files : List Offer := []
  artifacts : List Value := []

/-- The first non-empty string among `keys`. -/
def firstStr (v : Value) (keys : List String) : String :=
  ((keys.filterMap fun k => (v.get? k).bind Value.asStr).find? fun s => s != "").getD ""

/-- A record's nested records: the items of its `blocks` parts. -/
def children (record : Value) : List Value :=
  (((record.get? "body").bind Value.asArray).getD []).flatMap fun part =>
    if (part.get? "p").bind Value.asStr = some "blocks" then
      ((part.get? "items").bind Value.asArray).getD []
    else []

/-- The `session` query parameter of a link. -/
def sessionOf (link : String) : String :=
  match Lib.splitOnce '?' (link.toList.takeWhile (· ≠ '#')) with
  | none => ""
  | some (_, query) =>
    ((query.splitOn '&').findSome? fun pair =>
      if "session=".toList.isPrefixOf pair then
        some (String.ofList (pair.drop "session=".length))
      else none).getD ""

/-- FNV-1a over 64 bits. -/
def fnv (bytes : List UInt8) : UInt64 :=
  bytes.foldl (fun h b => (h ^^^ b.toUInt64) * 0x100000001B3) 0xCBF29CE484222325

/-- The fingerprint of a record: sixteen hexadecimal digits. -/
def fingerprint (bytes : List UInt8) : String :=
  let digits := Nat.toDigits 16 (fnv bytes).toNat
  String.ofList (List.replicate (16 - digits.length) '0' ++ digits)

/-- An object with the fields of `v` under these keys. -/
def pick (v : Value) (keys : List String) : Value :=
  keys.foldl (fun row k => match v.get? k with
    | some x => row.set k x
    | none => row) (.obj [])

theorem sizeOf_get? {v x : Value} {k : String} (h : v.get? k = some x) : sizeOf x < sizeOf v := by
  cases v with
  | obj fields =>
    have hmem : (k, x) ∈ fields := by
      simp only [Value.get?] at h
      induction fields with
      | nil => contradiction
      | cons f fields ih =>
        rw [List.lookup_cons] at h
        split at h
        · next heq =>
          rw [beq_iff_eq] at heq
          cases h
          rw [heq]
          exact List.mem_cons_self
        · exact List.mem_cons_of_mem _ (ih h)
    have hlist := List.sizeOf_lt_of_mem hmem
    have hfield : sizeOf x < sizeOf (k, x) := by
      rw [Prod.mk.sizeOf_spec]
      omega
    simp only [Value.obj.sizeOf_spec]
    omega
  | _ => contradiction

theorem sizeOf_asArray {v : Value} {items : List Value} (h : v.asArray = some items) {x : Value}
    (hx : x ∈ items) : sizeOf x < sizeOf v := by
  cases v with
  | arr items' =>
    cases h
    have hlist := List.sizeOf_lt_of_mem hx
    simp only [Value.arr.sizeOf_spec]
    omega
  | _ => contradiction

theorem sizeOf_children {record c : Value} (h : c ∈ children record) :
    sizeOf c < sizeOf record := by
  have hitem : ∀ {v x : Value} {k : String},
      x ∈ ((v.get? k).bind Value.asArray).getD [] → sizeOf x < sizeOf v := by
    intro v x k hx
    cases hfield : (v.get? k).bind Value.asArray with
    | none =>
      rw [hfield] at hx
      contradiction
    | some items =>
      rw [hfield] at hx
      obtain ⟨w, hw, hitems⟩ := Option.bind_eq_some_iff.mp hfield
      exact Nat.lt_trans (sizeOf_asArray hitems hx) (sizeOf_get? hw)
  obtain ⟨part, hpart, hc⟩ := List.mem_flatMap.mp h
  split at hc
  · exact Nat.lt_trans (hitem hc) (hitem hpart)
  · contradiction

/-- A record and those nested in it, in the order they are visited. -/
def nested (record : Value) : List Value :=
  record :: (children record).attach.flatMap fun c => nested c.1
termination_by sizeOf record
decreasing_by exact sizeOf_children c.2

/-- A file stamp beats a reveal stamp; otherwise the first offer stands. -/
def offer (files : List Offer) (f : Offer) : List Offer :=
  if files.any (·.path = f.path) then
    files.map fun g =>
      if g.path = f.path ∧ g.fsig = "" ∧ f.fsig ≠ "" then { g with fsig := f.fsig, sig := f.sig }
      else g
  else files ++ [f]

namespace Entry

/-- `visit`, at one record. -/
def visit (e : Entry) (record : Value) : Entry :=
  let head := record.get "head"
  let kind := ((record.get? "kind").bind Value.asStr).getD ""
  let tools :=
    if toolKinds.contains kind then
      let name :=
        if firstStr record ["tool"] ≠ "" then firstStr record ["tool"]
        else if firstStr head ["name"] ≠ "" then firstStr head ["name"]
        else kind
      e.tools.insert name (e.tools[name]?.getD 0 + 1)
    else e.tools
  let artifacts :=
    match head.get? "artifact" with
    | some a =>
      if firstStr a ["url"] ≠ "" then
        e.artifacts ++ [pick a ["url", "name", "icon", "desc"]]
      else e.artifacts
    | none => e.artifacts
  let child :=
    if firstStr head ["child_id"] ≠ "" then firstStr head ["child_id"]
    else sessionOf (firstStr head ["child"])
  let agents := if child ≠ "" ∧ child ∉ e.agents then e.agents ++ [child] else e.agents
  let path := firstStr head ["att_path", "path"]
  let fsig := firstStr head ["att_fsig", "fsig"]
  let sig := firstStr head ["att_sig", "sig"]
  let files := if path ≠ "" ∧ (fsig ≠ "" ∨ sig ≠ "") then offer e.files ⟨path, fsig, sig⟩
    else e.files
  { e with tools, artifacts, agents, files }

/-- What one rendered record holds. -/
def of (record : Value) (o : Nat) (bytes : List UInt8) : Entry :=
  let kind := ((record.get? "kind").bind Value.asStr).getD ""
  let row := pick record ["kind", "id", "turn", "label", "ts", "reply_context"]
  let e : Entry :=
    { o
      n := bytes.length
      h := fingerprint bytes
      k := kind
      c := kind == "assistant" && (record.get? "phase").bind Value.asStr == some "commentary"
      id := firstStr record ["id"]
      turn :=
        if turnKinds.contains kind then
          some (if kind = "peer" then row.set "head" (pick (record.get "head") ["from", "mode"])
            else row)
        else none
      compaction :=
        if kind = "compaction" then
          some (pick (record.get "head") ["compact_trigger", "compact_pre", "compact_post"])
        else none }
  (nested record).foldl visit e

/-- The log bytes this entry covers through: its record and the newline. -/
def stop (e : Entry) : Nat := e.o + e.n + 1

end Entry

/-! ## the reply -/

/-- A turn's row, and the records and bytes it spans. -/
structure TurnRow where
  row : Value
  r : Nat
  last : Nat
  o : Nat
  stop : Nat

def TurnRow.value (t : TurnRow) : Value :=
  (((t.row.set "r" (.num t.r)).set "last" (.num t.last)).set "o" (.num t.o)).set "end" (.num t.stop)

/-- The records that open a turn. -/
def opens (entries : List Entry) : List Nat :=
  (List.range entries.length).filter fun i => (entries[i]?.bind Entry.turn).isSome

/-- Each with the next one. -/
def withNext : List Nat → List (Nat × Option Nat)
  | [] => []
  | r :: rs => (r, rs.head?) :: withNext rs

/-- The row of the turn that record `r` opens. -/
def turnRow (entries : List Entry) (logLen r : Nat) (next : Option Nat) : TurnRow where
  row := (entries[r]?.bind Entry.turn).getD (.obj [])
  r
  last := next.getD entries.length - 1
  o := (entries[r]?.map Entry.o).getD 0
  stop := match next with
    | some n => (entries[n]?.map Entry.o).getD 0
    | none => logLen

/-- The turns that open below `upto`. -/
def turnRows (entries : List Entry) (logLen upto : Nat) : List TurnRow :=
  ((withNext (opens entries)).takeWhile fun p => p.1 < upto).map fun p =>
    turnRow entries logLen p.1 p.2

/-- What is gathered from the entries below the boundary. -/
structure Tally where
  tools : StrMap Nat := ∅
  compactions : List Value := []
  artifacts : List Value := []
  files : List (Offer × Nat) := []
  facts : List Value := []
  agents : List (String × Nat) := []

namespace Tally

/-- A file of record `r`. -/
def file (r : Nat) (files : List (Offer × Nat)) (f : Offer) : List (Offer × Nat) :=
  if files.any (·.1.path = f.path) then
    files.map fun g => if g.1.path = f.path ∧ g.1.fsig = "" ∧ f.fsig ≠ "" then (f, r) else g
  else files ++ [(f, r)]

/-- The entry of record `r`. -/
def add (t : Tally) (r : Nat) (e : Entry) : Tally where
  tools := e.tools.toList.foldl
    (fun tools p => tools.insert p.1 (tools[p.1]?.getD 0 + p.2)) t.tools
  compactions := match e.compaction with
    | some c => t.compactions ++ [.obj [("r", .num r), ("head", c)]]
    | none => t.compactions
  artifacts := t.artifacts ++ e.artifacts.map fun a => a.set "at" (.num r)
  files := e.files.foldl (file r) t.files
  facts := t.facts ++
    [.arr (if e.c then [.str e.k, .str e.id, .num 1] else [.str e.k, .str e.id])]
  agents := e.agents.foldl
    (fun agents a => if agents.any (·.1 = a) then agents else agents ++ [(a, r)]) t.agents

/-- Those from record `r` on. -/
def addAll (t : Tally) (r : Nat) : List Entry → Tally
  | [] => t
  | e :: es => (t.add r e).addAll (r + 1) es

end Tally

/-- `reply`: for a page still waiting for the records below `upto`. -/
def replyOf (entries : List Entry) (logLen epoch upto : Nat) : Value :=
  let upto := min upto entries.length
  let tally := ({} : Tally).addAll 0 (entries.take upto)
  .obj
    [("t", .str "turn-index"), ("epoch", .num epoch), ("upto", .num upto),
      ("records", .num entries.length), ("bytes", .num logLen),
      ("turns", .arr ((turnRows entries logLen upto).map TurnRow.value)),
      ("compactions", .arr tally.compactions),
      ("tools", .obj (tally.tools.toList.map fun p => (p.1, .num p.2))),
      ("artifacts", .arr tally.artifacts),
      ("files", .arr (tally.files.map fun f => .obj
        [("path", .str f.1.path), ("fsig", .str f.1.fsig), ("sig", .str f.1.sig),
          ("r", .num f.2)])),
      ("facts", .arr tally.facts),
      ("agents", .arr (tally.agents.map fun a => .obj [("id", .str a.1), ("r", .num a.2)]))]

/-! ## places -/

/-- What an entry says of nested records is not its place, nor what it opens. -/
theorem foldl_visit (records : List Value) (e : Entry) :
    (records.foldl Entry.visit e).o = e.o ∧ (records.foldl Entry.visit e).n = e.n ∧
      (records.foldl Entry.visit e).h = e.h ∧ (records.foldl Entry.visit e).turn = e.turn := by
  induction records generalizing e with
  | nil => exact ⟨rfl, rfl, rfl, rfl⟩
  | cons record records ih => exact ih (e.visit record)

@[simp] theorem of_o (record : Value) (o : Nat) (bytes : List UInt8) :
    (Entry.of record o bytes).o = o :=
  (foldl_visit (nested record) _).1

@[simp] theorem of_n (record : Value) (o : Nat) (bytes : List UInt8) :
    (Entry.of record o bytes).n = bytes.length :=
  (foldl_visit (nested record) _).2.1

end ClaudeReplay.Index
