import ClaudeReplay.Model

/-!
# ClaudeReplay.Session

The live header of a session: how many turns and tool calls its blocks hold, and
which children they spawned. `SessionMeta.push` folds one finalized block in;
`SessionMeta.build` is the whole-list form, so a header kept incrementally over
a prefix continues over the rest (`build_append`).
-/

namespace ClaudeReplay

/-- One spawned sub-agent of a header. -/
structure ChildMeta where
  id : AgentId
  description : String
  agentType : String
  phase : Option String
  running : Bool
  deriving DecidableEq, Repr

/-- Live-header facts, maintained as blocks are committed. -/
structure SessionMeta where
  turns : Nat := 0
  tools : Nat := 0
  children : List ChildMeta := []
  deriving DecidableEq, Repr

/-- Clear `running` on every child with this id, duplicates included. -/
def finishChildren (id : AgentId) (children : List ChildMeta) : List ChildMeta :=
  children.map fun c => if c.id = id then { c with running := false } else c

/-- `SessionMeta::push`: fold one finalized block into the header. -/
def SessionMeta.push (m : SessionMeta) (b : Block) : SessionMeta :=
  if b.opensTurn then { m with turns := m.turns + 1 }
  else
    match b with
    | .toolUse _ => { m with tools := m.tools + 1 }
    | .thinking _ _ tools => { m with tools := m.tools + tools.length }
    | .subAgent sa =>
      if sa.agentId.isEmpty then m
      else { m with children := m.children ++
        [⟨sa.agentId, sa.description, sa.agentType, sa.phase, !sa.status.isTerminal⟩] }
    | .agentDone agentId _ _ _ _ =>
      if agentId.isEmpty then m
      else { m with children := finishChildren agentId m.children }
    | _ => m

/-- `SessionMeta::build`: one `push` per block. -/
def SessionMeta.build (blocks : List Block) : SessionMeta := blocks.foldl push {}

/-- The header of a concatenation continues the header of its first part. -/
theorem SessionMeta.build_append (xs ys : List Block) :
    build (xs ++ ys) = ys.foldl push (build xs) := List.foldl_append

/-- A block adds to `turns` exactly when it opens one. -/
theorem SessionMeta.push_turns (m : SessionMeta) (b : Block) :
    (m.push b).turns = m.turns + (if b.opensTurn then 1 else 0) := by
  unfold push
  split
  · rfl
  · split
    · rfl
    · rfl
    · split <;> rfl
    · split <;> rfl
    · rfl

theorem SessionMeta.foldl_push_turns (m : SessionMeta) (bs : List Block) :
    (bs.foldl push m).turns = m.turns + bs.countP Block.opensTurn := by
  induction bs generalizing m with
  | nil => rfl
  | cons b bs ih =>
    rw [List.foldl_cons, ih, push_turns, List.countP_cons]
    omega

end ClaudeReplay
