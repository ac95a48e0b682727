import ClaudeReplay.Message
import ClaudeReplay.Metrics
import ClaudeReplay.Shaping

/-!
# ClaudeReplay.Adapter

The per-agent contract: the four shaping hooks, the line preprocessor, the
decoder and the metrics accumulator, each with the opaque state it saves and
restores. The engine is generic over it.

`Adapter.scripted` is an adapter whose decoder is a table, for looking at what
the engine does with a given sequence of messages.
-/

namespace ClaudeReplay

/-- What a line preprocessor makes of a raw line. -/
inductive PreprocessedLine
  /-- decode it and fold its metrics -/
  | include
  /-- it belongs to embedded data, not to this session -/
  | ignore
  /-- use these messages instead, still folding its metrics -/
  | messages (ms : List Message)
  deriving DecidableEq, Repr

/-- The per-agent contract. -/
structure Adapter where
  shaping : Shaping
  /-- the line preprocessor's state -/
  Pre : Type
  linePreprocessor : Pre
  process : Pre → String → Pre × PreprocessedLine
  preState : Pre → Value
  preRestore : Pre → Value → Pre
  /-- `decode_line`: the working directory after the line, and its messages -/
  decodeLine : String → String → String × List Message
  /-- the metrics accumulator's state -/
  Acc : Type
  metricsAcc : Acc
  push : Acc → Value → Acc
  malformedLine : Acc → Acc
  bumpExtra : Acc → String → Nat → Acc
  totals : Acc → MetricsTotals
  metricsState : Acc → Value
  metricsRestore : Acc → Value → Acc
  reseed : Acc → MetricsTotals → Acc
  /-- `serde_json::from_str` on a line -/
  fromStr : String → Option Value

/-! ## what the engine relies on -/

/-- What the engine relies on of an adapter. `preState` and `metricsState` say all
there is, so that restoring one of them over any state gives back the state it
was taken of; and a line decodes the same under the working directory it leaves
behind, which is the one a resume has. -/
structure Adapter.Lawful (ad : Adapter) : Prop where
  shaping : ad.shaping.Lawful
  preRestore : ∀ p₀ p, ad.preRestore p₀ (ad.preState p) = p
  metricsRestore : ∀ m₀ m, ad.metricsRestore m₀ (ad.metricsState m) = m
  decodeLine_cwd : ∀ line cwd, ad.decodeLine line (ad.decodeLine line cwd).1 = ad.decodeLine line cwd
  decodeLine_shape : ∀ line cwd, LineShape (ad.decodeLine line cwd).2
  process_shape : ∀ p line ms, (ad.process p line).2 = .messages ms → LineShape ms

/-! ## a scripted adapter -/

/-- Build a call block that keeps the call's name and input. -/
def scriptedTool (_id name : String) (input : Value) (_cwd : String) : Block :=
  .toolUse ⟨name, "", none, none, none, input⟩

/-- Lay a result's text on its call. -/
def scriptedJoin (b : Block) (text : String) (_tur : Value) (_isError : Option Bool) : Block :=
  match b with
  | .toolUse call => .toolUse { call with output := some text }
  | b => b

/-- The shaping of a scripted adapter; it finishes turns as Claude does. -/
def Shaping.scripted : Shaping := ⟨scriptedTool, scriptedJoin, fun _ => true, coalesceSpans⟩

theorem Shaping.scripted_lawful : Shaping.scripted.Lawful := by
  refine lawful_coalesceSpans _ _ _ (fun _ _ _ _ => rfl) (fun _ _ _ _ => rfl) ?_ ?_
  all_goals
    intro b text tur e hb
    cases b <;> simp_all [scriptedJoin, Block.isCall, Block.phase]

/-- An adapter that decodes each line by a table, keeps no preprocessor state and
counts nothing. -/
def Adapter.scripted (script : String → List Message) : Adapter where
  shaping := .scripted
  Pre := Unit
  linePreprocessor := ()
  process _ _ := ((), .include)
  preState _ := .null
  preRestore _ _ := ()
  decodeLine line cwd := (cwd, script line)
  Acc := Unit
  metricsAcc := ()
  push _ _ := ()
  malformedLine _ := ()
  bumpExtra _ _ _ := ()
  totals _ := .empty
  metricsState _ := .null
  metricsRestore _ _ := ()
  reseed _ _ := ()
  fromStr _ := none

/-- A scripted adapter is lawful once its lines have the shape of lines. -/
theorem Adapter.scripted_lawful {script : String → List Message}
    (h : ∀ line, LineShape (script line)) : (Adapter.scripted script).Lawful where
  shaping := Shaping.scripted_lawful
  preRestore _ _ := rfl
  metricsRestore _ _ := rfl
  decodeLine_cwd _ _ := rfl
  decodeLine_shape line _ := h line
  process_shape _ _ _ hp := by simp [Adapter.scripted] at hp

end ClaudeReplay
