import ClaudeReplay.Lib.Walks
import Mathlib.Algebra.Order.Ring.NNRat
import Mathlib.Algebra.Order.Ring.Rat
import Mathlib.Algebra.Field.Rat

/-!
# ClaudeReplay.Spawn.Enrich

Loading the sub-agent tree. A transcript's spawn blocks name their agents by id; each
adapter finds the child transcript an id stands for, loads it, enriches it in turn, and
rolls the costs up.

The Claude adapter resolves every id of a session against one `subagents/` directory,
and walks down without looking where it has been. The Codex adapter resolves an id
against the rollouts below the transcript it stands in, and keeps the paths it has loaded
for the whole walk. Both recursions are driven by what the files say, so they take fuel:
running out of it is the stack's overflow.

Of a block only the spawn's id and the two fields the enrichment fills are kept, and of
a file its spawns and its own cost. A path stands for the file it names.

A cost is an `f64`. An own cost is a finite number and never below zero, as tokens and
prices are; what is added up is rounded at each step, and may pass the largest `f64`.
-/

namespace ClaudeReplay.Spawn

open Lib

/-- `UsdCost`: a number, or the infinity above all numbers. -/
abbrev UsdCost := WithTop ℚ≥0

namespace UsdCost

/-- The place of the last bit an `f64` of the size of `q` has. -/
def lastBit (q : ℚ≥0) : ℤ :=
  let e : ℤ := q.num.log2 - q.den.log2
  max ((if q < 2 ^ e then e - 1 else e) - 52) (-1074)

/-- The nearest whole number, of two the even one. -/
def nearest (q : ℚ≥0) : ℕ :=
  let whole := q.num / q.den
  let rest := 2 * (q.num % q.den)
  if rest < q.den then whole else if q.den < rest then whole + 1 else whole + whole % 2

/-- The `f64` a number is rounded to. -/
def round (q : ℚ≥0) : UsdCost :=
  let rounded : ℚ≥0 := nearest (q / 2 ^ lastBit q) * 2 ^ lastBit q
  if rounded < 2 ^ 1024 then rounded else ⊤

/-- `+` of two `f64`s. A zero adds nothing, so there is nothing to round. -/
def add : UsdCost → UsdCost → UsdCost
  | some a, some b => if a = 0 ∨ b = 0 then ((a + b : ℚ≥0) : UsdCost) else round (a + b)
  | _, _ => ⊤

/-- `sum` of `f64`s, one after the other. -/
def sum (costs : List UsdCost) : UsdCost := costs.foldl add 0

theorem add_coe (a b : ℚ≥0) :
    add a b = if a = 0 ∨ b = 0 then ((a + b : ℚ≥0) : UsdCost) else round (a + b) := rfl

@[simp] theorem add_zero_right (a : UsdCost) : add a 0 = a := by
  cases a using WithTop.recTopCoe with
  | top => rfl
  | coe a => rw [← WithTop.coe_zero, add_coe, if_pos (.inr rfl), add_zero]

@[simp] theorem add_zero_left (a : UsdCost) : add 0 a = a := by
  cases a using WithTop.recTopCoe with
  | top => rfl
  | coe a => rw [← WithTop.coe_zero, add_coe, if_pos (.inl rfl), zero_add]

end UsdCost

/-- A `SubAgent` block: its agent, and what the enrichment fills in. -/
inductive SubAgent
  | mk (agentId : String) (subtreeCost : Option UsdCost) (blocks : List SubAgent)

namespace SubAgent

def agentId : SubAgent → String
  | mk agentId _ _ => agentId

def subtreeCost : SubAgent → Option UsdCost
  | mk _ subtreeCost _ => subtreeCost

def blocks : SubAgent → List SubAgent
  | mk _ _ blocks => blocks

@[simp] theorem agentId_mk (a : String) (cost : Option UsdCost) (bs : List SubAgent) :
    (mk a cost bs).agentId = a := rfl

@[simp] theorem subtreeCost_mk (a : String) (cost : Option UsdCost) (bs : List SubAgent) :
    (mk a cost bs).subtreeCost = cost := rfl

@[simp] theorem blocks_mk (a : String) (cost : Option UsdCost) (bs : List SubAgent) :
    (mk a cost bs).blocks = bs := rfl

/-- A spawn as the parser leaves it. -/
def spawned (agentId : String) : SubAgent := mk agentId none []

end SubAgent

/-- What parsing a file gives: the agents its spawn blocks name, in order, and the cost its
own metrics add up to. -/
structure Transcript where
  agents : List String
  cost : Option ℚ≥0

/-- The spawn blocks of a parsed transcript. -/
def Transcript.blocks (t : Transcript) : List SubAgent := t.agents.map SubAgent.spawned

/-- `subtree_cost`: a transcript's own cost and its descendants'. -/
def subtreeCost (own : Option ℚ≥0) (childBlocks : List SubAgent) : Option UsdCost :=
  let desc := UsdCost.sum (childBlocks.filterMap (·.subtreeCost))
  match own with
  | some o => some (UsdCost.add o desc)
  | none => if 0 < desc then some desc else none

/-! ## Claude -/

/-- A `subagents/` directory: its own files by name, and those of each run under
`workflows/`, in the order the directory is read. A file that cannot be parsed is `none`. -/
structure Sadir where
  flat : List (String × Option Transcript)
  workflows : List (List (String × Option Transcript))

/-- The path of a transcript: the session's own, or a file of its directory. -/
inductive ClaudePath
  | session
  | flat (leaf : String)
  | workflow (run : Nat) (leaf : String)
  deriving DecidableEq, Repr

namespace Sadir

/-- `child_file`: the flat directory first, then each run's. -/
def childFile (sadir : Sadir) (agentId : String) : Option ClaudePath :=
  let leaf := "agent-" ++ agentId ++ ".jsonl"
  if (sadir.flat.lookup leaf).isSome then some (.flat leaf)
  else (sadir.workflows.findIdx? fun run => (run.lookup leaf).isSome).map (.workflow · leaf)

/-- `parse_file`, of a file of the directory. -/
def parseFile (sadir : Sadir) : ClaudePath → Option Transcript
  | .session => none
  | .flat leaf => (sadir.flat.lookup leaf).join
  | .workflow run leaf => (sadir.workflows[run]?.bind fun files => files.lookup leaf).join

/-- The body of `enrich_subagents`, for one block; `walk` is its call of itself. -/
def enrichBlock (sadir : Sadir) (walk : List SubAgent → Option (List SubAgent)) (sa : SubAgent) :
    Option SubAgent :=
  if sa.agentId = "" then some sa
  else
    match sadir.childFile sa.agentId with
    | none => some sa
    | some child =>
      match sadir.parseFile child with
      | none => some sa
      | some t => do
        let cb ← walk t.blocks
        return .mk sa.agentId (Spawn.subtreeCost t.cost cb) cb

/-- `enrich_subagents`. -/
def enrichSubagents (sadir : Sadir) : Nat → List SubAgent → Option (List SubAgent)
  | 0, _ => none
  | fuel + 1, blocks => blocks.mapM (sadir.enrichBlock (sadir.enrichSubagents fuel))

/-- `enrich_tree`: nothing without a directory. -/
def enrichTree (sadir : Option Sadir) (fuel : Nat) (blocks : List SubAgent) :
    Option (List SubAgent) :=
  match sadir with
  | some sadir => sadir.enrichSubagents fuel blocks
  | none => some blocks

end Sadir

/-! ## Codex -/

/-- `CodexRelationship`: what a rollout's session record says of it. -/
structure Relationship where
  id : String
  path : String
  parentThreadId : Option String
  agentPath : Option String

/-- `CodexRelationshipIndex`, with the rollouts it was read from. -/
structure Rollouts where
  nodes : List Relationship
  files : List (String × Transcript)
  /-- `decode_agent_path` -/
  decodeAgentPath : String → Option String

namespace Rollouts

/-- The transcript at a path, if it parses. -/
def parsePath (ix : Rollouts) (path : String) : Option Transcript := ix.files.lookup path

/-- `root_id`. -/
def rootId (ix : Rollouts) (root : String) : Option String :=
  (ix.nodes.find? fun node => node.path = root).map (·.id)

/-- The climb of `reaches_root`, which stops where it has been. -/
def climb (ix : Rollouts) (rootId : String) : Nat → Option String → List String → Bool
  | 0, _, _ => false
  | _ + 1, none, _ => false
  | fuel + 1, some id, seen =>
    if id = rootId then true
    else if id ∈ seen then false
    else
      ix.climb rootId fuel ((ix.nodes.find? fun node => node.id = id).bind (·.parentThreadId))
        (id :: seen)

/-- `reaches_root`. A climb meets each id of the index once, and at most one id more. -/
def reachesRoot (ix : Rollouts) (rootId : String) (candidate : Relationship) : Bool :=
  ix.climb rootId (ix.nodes.length + 2) candidate.parentThreadId []

/-- The only one, if there is one. -/
def unique : List Relationship → Option String
  | [node] => some node.path
  | _ => none

/-- `subagent_source`: the rollout below `root` that an id names, by its thread or by its
encoded agent path. -/
def subagentSource (ix : Rollouts) (root childId : String) : Option String := do
  let rootId ← ix.rootId root
  match unique (ix.nodes.filter fun node => node.id = childId && ix.reachesRoot rootId node) with
  | some path => some path
  | none =>
    let agentPath ← ix.decodeAgentPath childId
    unique (ix.nodes.filter fun node =>
      node.agentPath = some agentPath && ix.reachesRoot rootId node)

/-- The body of `enrich_descendants`, for one block: a path already seen is left alone. -/
def enrichBlock (ix : Rollouts)
    (walk : String → List SubAgent → List String → Option (List SubAgent × List String))
    (root : String) (sa : SubAgent) (seen : List String) : Option (SubAgent × List String) :=
  match ix.subagentSource root sa.agentId with
  | none => some (sa, seen)
  | some child =>
    if child ∈ seen then some (sa, seen)
    else
      match ix.parsePath child with
      | none => some (sa, seen ++ [child])
      | some t => do
        let (cb, seen) ← walk child t.blocks (seen ++ [child])
        return (.mk sa.agentId (Spawn.subtreeCost t.cost cb) cb, seen)

/-- A loop over blocks that carries the paths seen. -/
def forBlocks (body : SubAgent → List String → Option (SubAgent × List String)) :
    List SubAgent → List String → Option (List SubAgent × List String)
  | [], seen => some ([], seen)
  | sa :: blocks, seen => do
    let (sa, seen) ← body sa seen
    let (blocks, seen) ← forBlocks body blocks seen
    return (sa :: blocks, seen)

/-- `enrich_descendants`. -/
def enrichDescendants (ix : Rollouts) :
    Nat → String → List SubAgent → List String → Option (List SubAgent × List String)
  | 0, _, _, _ => none
  | fuel + 1, root, blocks, seen =>
    forBlocks (ix.enrichBlock (ix.enrichDescendants fuel) root) blocks seen

/-- `enrich_tree`: nothing for a root the index does not know. -/
def enrichTree (ix : Rollouts) (fuel : Nat) (root : String) (blocks : List SubAgent) :
    Option (List SubAgent) :=
  match ix.rootId root with
  | some _ => (ix.enrichDescendants fuel root blocks [root]).map (·.1)
  | none => some blocks

end Rollouts

/-! ## the spawn graph -/

/-- A set of transcripts and what the agent ids in them name. -/
structure Store (V : Type) where
  source : V → String → Option V
  transcript : V → Option Transcript
  files : List V
  mem_files : ∀ v, (transcript v).isSome = true → v ∈ files

namespace Store

variable {V : Type} [DecidableEq V]

/-- The transcripts the spawn blocks of one name, in order. -/
def next (s : Store V) (v : V) : List V :=
  match s.transcript v with
  | some t => t.agents.filterMap (s.source v)
  | none => []

/-- A transcript's own cost. -/
def own (s : Store V) (v : V) : ℚ≥0 := ((s.transcript v).bind (·.cost)).getD 0

/-- The exact sum over the distinct transcripts reachable from one of each one's own cost. -/
noncomputable def total (s : Store V) (v : V) : ℚ≥0 :=
  Lib.total s.next s.files.toFinset s.own v

/-- A transcript's own cost and its children's totals, block by block, added up as `f64`s. -/
noncomputable def rolled (s : Store V) (v : V) : UsdCost :=
  UsdCost.add (s.own v) (UsdCost.sum ((s.next v).map fun c => (s.total c : UsdCost)))

/-- The sum at a transcript comes out as the exact total. -/
def Adds (s : Store V) (v : V) : Prop := s.rolled v = s.total v

/-- The sum at a transcript neither rounds nor overflows. -/
def Exact (s : Store V) (v : V) : Prop :=
  s.rolled v = (s.own v + ((s.next v).map s.total).sum : ℚ≥0)

/-- `Met p blocks q sa`: the spawn block `sa` stands in the tree of `blocks`, the blocks of
the transcript `p`, directly in the blocks of `q`. -/
inductive Met (s : Store V) : V → List SubAgent → V → SubAgent → Prop
  | top {p : V} {blocks : List SubAgent} {sa : SubAgent} (h : sa ∈ blocks) : Met s p blocks p sa
  | nested {p c q : V} {blocks : List SubAgent} {sa sb : SubAgent} (h : sa ∈ blocks)
      (hc : s.source p sa.agentId = some c) (hb : Met s c sa.blocks q sb) : Met s p blocks q sb

/-- Every spawn block of a tree ends up with the cost of what is reachable from its child. -/
def Billed (s : Store V) (p : V) (blocks : List SubAgent) : Prop :=
  ∀ q sa, s.Met p blocks q sa →
    sa.subtreeCost.getD 0 = (((s.source q sa.agentId).map s.total).getD 0 : ℚ≥0)

/-- A walk that ends, and whose spawn blocks are billed right. `run` is the walk, by the
fuel it is given. -/
def Settles (s : Store V) (p : V) (run : Nat → Option (List SubAgent)) : Prop :=
  (∃ fuel blocks, run fuel = some blocks) ∧
    ∀ fuel blocks, run fuel = some blocks → s.Billed p blocks

end Store

theorem mem_of_lookup {α : Type} {files : List (String × α)} {name : String} {a : α}
    (h : files.lookup name = some a) : (name, a) ∈ files := by
  obtain ⟨l₁, l₂, rfl, -⟩ := List.lookup_eq_some_iff.mp h
  simp

/-- The transcripts of a Claude session. -/
def Sadir.store (session : Transcript) (sadir : Sadir) : Store ClaudePath where
  source _ agentId := if agentId = "" then none else sadir.childFile agentId
  transcript
    | .session => some session
    | path => sadir.parseFile path
  files :=
    .session :: sadir.flat.map (fun f => .flat f.1) ++
      sadir.workflows.zipIdx.flatMap fun run => run.1.map fun f => .workflow run.2 f.1
  mem_files v h := by
    have hlookup {files : List (String × Option Transcript)} {leaf : String}
        (h : (files.lookup leaf).join.isSome = true) : ∃ t, (leaf, t) ∈ files := by
      cases hl : files.lookup leaf with
      | none => simp [hl] at h
      | some t => exact ⟨t, mem_of_lookup hl⟩
    cases v with
    | session => simp
    | flat leaf =>
      obtain ⟨t, ht⟩ := hlookup h
      simp only [List.mem_append, List.mem_cons, List.mem_map]
      exact .inl (.inr ⟨_, ht, rfl⟩)
    | workflow run leaf =>
      simp only [parseFile] at h
      cases hrun : sadir.workflows[run]? with
      | none => simp [hrun] at h
      | some files =>
        rw [hrun, Option.bind_some] at h
        obtain ⟨t, ht⟩ := hlookup h
        simp only [List.mem_append, List.mem_flatMap, List.mem_map]
        refine .inr ⟨(files, run), ?_, _, ht, rfl⟩
        rw [List.mem_zipIdx_iff_getElem?]
        exact hrun

/-- The transcripts of a Codex session, itself at `root`. -/
def Rollouts.store (ix : Rollouts) (root : String) (session : Transcript) : Store String where
  source := ix.subagentSource
  transcript path := if path = root then some session else ix.parsePath path
  files := root :: ix.files.map (·.1)
  mem_files v h := by
    by_cases hv : v = root
    · simp [hv]
    · simp only [hv, if_false] at h
      obtain ⟨t, ht⟩ := Option.isSome_iff_exists.mp h
      exact .tail _ (List.mem_map.mpr ⟨_, mem_of_lookup ht, rfl⟩)

/-! ## what a tree costs -/

namespace Store

variable {V : Type} [DecidableEq V] {s : Store V} {p c : V} {a : String} {t : Transcript}

/-- A tree is billed right at its top, and below every block. -/
theorem billed_iff {blocks : List SubAgent} : s.Billed p blocks ↔
    ∀ sa ∈ blocks,
      sa.subtreeCost.getD 0 = (((s.source p sa.agentId).map s.total).getD 0 : ℚ≥0) ∧
        ∀ c, s.source p sa.agentId = some c → s.Billed c sa.blocks := by
  constructor
  · intro h sa hsa
    exact ⟨h p sa (.top hsa), fun c hc q sb hb => h q sb (.nested hsa hc hb)⟩
  · intro h q sb hmet
    cases hmet with
    | top hsa => exact (h sb hsa).1
    | nested hsa hc hb => exact (h _ hsa).2 _ hc q sb hb

theorem billed_cons {sa : SubAgent} {blocks : List SubAgent} : s.Billed p (sa :: blocks) ↔
    (sa.subtreeCost.getD 0 = (((s.source p sa.agentId).map s.total).getD 0 : ℚ≥0) ∧
      ∀ c, s.source p sa.agentId = some c → s.Billed c sa.blocks) ∧ s.Billed p blocks := by
  rw [billed_iff, List.forall_mem_cons, ← billed_iff]

theorem billed_nil : s.Billed p [] := billed_iff.mpr (by simp)

omit [DecidableEq V] in
theorem own_eq (h : s.transcript c = some t) : s.own c = t.cost.getD 0 := by
  rw [own, h, Option.bind_some]

omit [DecidableEq V] in
theorem next_eq (h : s.transcript c = some t) : s.next c = t.agents.filterMap (s.source c) := by
  rw [next, h]

theorem mem_files_of_own (u : V) (h : s.own u ≠ 0) : u ∈ s.files.toFinset := by
  rw [List.mem_toFinset]
  apply s.mem_files
  cases ht : s.transcript u with
  | none => simp [own, ht] at h
  | some t => rfl

omit [DecidableEq V] in
theorem mem_next (h : s.transcript p = some t) (ha : a ∈ t.agents) (hc : s.source p a = some c) :
    c ∈ s.next p := by
  rw [next_eq h]
  exact List.mem_filterMap.mpr ⟨a, ha, hc⟩

omit [DecidableEq V] in
/-- Nothing is reachable from a transcript that does not parse. -/
theorem barren_of_none (h : s.transcript c = none) : Barren s.next (s.own · ≠ 0) c := by
  intro u hu
  obtain rfl | ⟨d, hd, -⟩ := reaches_iff.mp hu
  · simp [own, h]
  · simp [next, h] at hd

omit [DecidableEq V] in
/-- What holds of all that is reachable holds of the transcript and below its children. -/
theorem forall_reaches_iff {P : V → Prop} : (∀ u, Reaches s.next c u → P u) ↔
    P c ∧ ∀ d ∈ s.next c, ∀ u, Reaches s.next d u → P u := by
  simp only [reaches_iff (v := c)]
  grind

theorem total_eq_zero (h : Barren s.next (s.own · ≠ 0) c) : s.total c = 0 :=
  (total_eq_zero_iff mem_files_of_own).mpr h

/-- A transcript without children costs what it costs itself. -/
theorem total_of_leaf (hmem : c ∈ s.files.toFinset) (hnext : s.next c = []) :
    s.total c = s.own c := by
  have hapart : Apart s.next (s.own · ≠ 0) c := by
    rw [Apart, hnext]
    exact ⟨fun _ => nofun, .nil⟩
  have h := (total_eq_iff_apart hmem mem_files_of_own).mpr hapart
  rw [hnext] at h
  exact h.trans (add_zero _)

/-- Where nothing costs, nothing is added. -/
theorem adds_of_barren (h : Barren s.next (s.own · ≠ 0) c) : s.Adds c := by
  have hown : s.own c = 0 := by_contra (h c (.refl _ c))
  have hsum (ds : List V) (hds : ∀ d ∈ ds, d ∈ s.next c) :
      UsdCost.sum (ds.map fun d => (s.total d : UsdCost)) = 0 := by
    induction ds with
    | nil => rfl
    | cons d ds ih =>
      have hd : s.total d = 0 :=
        total_eq_zero fun u hu => h u ((Reaches.turn (hds d (.head _))).trans hu)
      rw [List.map_cons, hd, UsdCost.sum, List.foldl_cons, WithTop.coe_zero, UsdCost.add_zero_right]
      exact ih fun d hd => hds d (.tail _ hd)
  rw [Adds, rolled, hown, hsum _ fun _ => id, UsdCost.add_zero_right, total_eq_zero h]

/-- **Where nothing rounds, the sums come out exactly where what costs is reached by one
chain.** -/
theorem adds_iff_sole (hexact : ∀ u, Reaches s.next c u → s.Exact u) :
    (∀ u, Reaches s.next c u → s.Adds u) ↔ Sole s.next (s.own · ≠ 0) c := by
  rw [sole_iff_reaches]
  refine forall₂_congr fun u hu => ?_
  cases ht : s.transcript u with
  | none =>
    have hb := barren_of_none ht
    exact iff_of_true (adds_of_barren hb) hb.sole.apart
  | some t =>
    have hmem : u ∈ s.files.toFinset := List.mem_toFinset.mpr (s.mem_files u (by rw [ht]; rfl))
    rw [Adds, hexact u hu, WithTop.coe_inj, eq_comm]
    exact total_eq_iff_apart hmem mem_files_of_own

end Store

/-- What a transcript's blocks cost, added up. -/
theorem sum_filterMap_eq (blocks : List SubAgent) :
    UsdCost.sum (blocks.filterMap (·.subtreeCost)) =
      UsdCost.sum (blocks.map (·.subtreeCost.getD 0)) := by
  suffices h : ∀ acc, (blocks.filterMap (·.subtreeCost)).foldl UsdCost.add acc =
      (blocks.map (·.subtreeCost.getD 0)).foldl UsdCost.add acc from h 0
  induction blocks with
  | nil => exact fun _ => rfl
  | cons sa blocks ih =>
    intro acc
    cases h : sa.subtreeCost <;> simp [h, ih]

/-- A subtree's cost, as a number. -/
theorem subtreeCost_getD (own : Option ℚ≥0) (blocks : List SubAgent) :
    (subtreeCost own blocks).getD 0 =
      UsdCost.add (own.getD 0 : ℚ≥0) (UsdCost.sum (blocks.map (·.subtreeCost.getD 0))) := by
  simp only [subtreeCost, sum_filterMap_eq]
  cases own with
  | some o => rfl
  | none =>
    rw [Option.getD_none, WithTop.coe_zero, UsdCost.add_zero_left]
    by_cases h : 0 < UsdCost.sum (blocks.map (·.subtreeCost.getD 0))
    · rw [if_pos h, Option.getD_some]
    · rw [if_neg h, Option.getD_none, nonpos_iff_eq_zero.mp (not_lt.mp h)]

/-- The costs of a transcript's blocks, billed right, are the totals of its children. -/
theorem Store.Billed.sum_eq {V : Type} [DecidableEq V] {s : Store V} {p : V} {t : Transcript}
    {blocks : List SubAgent} (h : s.Billed p blocks) (ht : s.transcript p = some t)
    (hids : blocks.map (·.agentId) = t.agents) :
    UsdCost.sum (blocks.map (·.subtreeCost.getD 0)) =
      UsdCost.sum ((s.next p).map fun c => (s.total c : UsdCost)) := by
  rw [next_eq ht, ← hids]
  clear hids ht
  suffices hfold : ∀ acc, (blocks.map (·.subtreeCost.getD 0)).foldl UsdCost.add acc =
      (((blocks.map (·.agentId)).filterMap (s.source p)).map
        fun c => (s.total c : UsdCost)).foldl UsdCost.add acc from hfold 0
  induction blocks with
  | nil => exact fun _ => rfl
  | cons sa blocks ih =>
    intro acc
    obtain ⟨⟨hsa, -⟩, hrest⟩ := billed_cons.mp h
    rw [List.map_cons, List.foldl_cons, hsa, ih hrest]
    cases hc : s.source p sa.agentId <;> simp [hc]

end ClaudeReplay.Spawn
