import ClaudeReplay.Lib.Counters
import ClaudeReplay.Model

/-!
# ClaudeReplay.Metrics

The resumable form of a metrics accumulator: per-model token counts, the bag of
agent-specific counters, and the observed time span.

`TokenCounts` adds and subtracts field by field, with the subtraction
saturating, so it is a counter in the sense of `Lib.Counters`: what an
accumulator persists is differences of two captures, and they sum back.
-/

namespace ClaudeReplay

open Lib

/-- The token classes of the requests over a model's long-prompt threshold. -/
@[ext] structure LongPrompt where
  input : Nat := 0
  cacheCreation : Nat := 0
  cacheRead : Nat := 0
  output : Nat := 0
  cacheCreation1h : Nat := 0
  deriving DecidableEq, Repr

/-- One model's token counts. `cacheCreation1h` and `longPrompt` are subsets of
the other classes, never added on top. -/
@[ext] structure TokenCounts where
  input : Nat := 0
  cacheCreation : Nat := 0
  cacheRead : Nat := 0
  output : Nat := 0
  cacheCreation1h : Nat := 0
  longPrompt : LongPrompt := {}
  deriving DecidableEq, Repr

namespace LongPrompt

instance : Zero LongPrompt := ⟨{}⟩

instance : Add LongPrompt where
  add a b := ⟨a.input + b.input, a.cacheCreation + b.cacheCreation, a.cacheRead + b.cacheRead,
    a.output + b.output, a.cacheCreation1h + b.cacheCreation1h⟩

instance : Sub LongPrompt where
  sub a b := ⟨a.input - b.input, a.cacheCreation - b.cacheCreation, a.cacheRead - b.cacheRead,
    a.output - b.output, a.cacheCreation1h - b.cacheCreation1h⟩

instance : LE LongPrompt where
  le a b := a.input ≤ b.input ∧ a.cacheCreation ≤ b.cacheCreation ∧ a.cacheRead ≤ b.cacheRead ∧
    a.output ≤ b.output ∧ a.cacheCreation1h ≤ b.cacheCreation1h

theorem zero_def : (0 : LongPrompt) = {} := rfl

theorem add_def (a b : LongPrompt) : a + b =
    ⟨a.input + b.input, a.cacheCreation + b.cacheCreation, a.cacheRead + b.cacheRead,
      a.output + b.output, a.cacheCreation1h + b.cacheCreation1h⟩ := rfl

theorem sub_def (a b : LongPrompt) : a - b =
    ⟨a.input - b.input, a.cacheCreation - b.cacheCreation, a.cacheRead - b.cacheRead,
      a.output - b.output, a.cacheCreation1h - b.cacheCreation1h⟩ := rfl

theorem le_def (a b : LongPrompt) : a ≤ b ↔ a.input ≤ b.input ∧
    a.cacheCreation ≤ b.cacheCreation ∧ a.cacheRead ≤ b.cacheRead ∧ a.output ≤ b.output ∧
    a.cacheCreation1h ≤ b.cacheCreation1h := Iff.rfl

instance : AddCommMonoid LongPrompt where
  add_assoc a b c := by simp only [add_def, Nat.add_assoc]
  zero_add a := by simp [add_def, zero_def]
  add_zero a := by simp [add_def, zero_def]
  add_comm a b := by simp only [add_def, Nat.add_comm]
  nsmul := nsmulRec

instance : PartialOrder LongPrompt where
  le_refl a := by simp [le_def]
  le_trans a b c := by simp only [le_def]; omega
  le_antisymm a b h h' := by rw [le_def] at h h'; ext <;> omega

instance : CanonicallyOrderedAdd LongPrompt where
  exists_add_of_le {a b} h := ⟨b - a, by rw [le_def] at h; ext <;> simp [add_def, sub_def] <;> omega⟩
  le_add_self a b := by simp [le_def, add_def]
  le_self_add a b := by simp [le_def, add_def]

instance : OrderedSub LongPrompt where
  tsub_le_iff_right a b c := by simp only [le_def, add_def, sub_def]; omega

end LongPrompt

namespace TokenCounts

instance : Zero TokenCounts := ⟨{}⟩

/-- `+=`. -/
instance : Add TokenCounts where
  add a b := ⟨a.input + b.input, a.cacheCreation + b.cacheCreation, a.cacheRead + b.cacheRead,
    a.output + b.output, a.cacheCreation1h + b.cacheCreation1h, a.longPrompt + b.longPrompt⟩

/-- `TokenCounts::saturating_sub`. -/
instance : Sub TokenCounts where
  sub a b := ⟨a.input - b.input, a.cacheCreation - b.cacheCreation, a.cacheRead - b.cacheRead,
    a.output - b.output, a.cacheCreation1h - b.cacheCreation1h, a.longPrompt - b.longPrompt⟩

instance : LE TokenCounts where
  le a b := a.input ≤ b.input ∧ a.cacheCreation ≤ b.cacheCreation ∧ a.cacheRead ≤ b.cacheRead ∧
    a.output ≤ b.output ∧ a.cacheCreation1h ≤ b.cacheCreation1h ∧ a.longPrompt ≤ b.longPrompt

theorem zero_def : (0 : TokenCounts) = {} := rfl

theorem add_def (a b : TokenCounts) : a + b =
    ⟨a.input + b.input, a.cacheCreation + b.cacheCreation, a.cacheRead + b.cacheRead,
      a.output + b.output, a.cacheCreation1h + b.cacheCreation1h,
      a.longPrompt + b.longPrompt⟩ := rfl

theorem sub_def (a b : TokenCounts) : a - b =
    ⟨a.input - b.input, a.cacheCreation - b.cacheCreation, a.cacheRead - b.cacheRead,
      a.output - b.output, a.cacheCreation1h - b.cacheCreation1h,
      a.longPrompt - b.longPrompt⟩ := rfl

theorem le_def (a b : TokenCounts) : a ≤ b ↔ a.input ≤ b.input ∧
    a.cacheCreation ≤ b.cacheCreation ∧ a.cacheRead ≤ b.cacheRead ∧ a.output ≤ b.output ∧
    a.cacheCreation1h ≤ b.cacheCreation1h ∧ a.longPrompt ≤ b.longPrompt := Iff.rfl

instance : AddCommMonoid TokenCounts where
  add_assoc a b c := by simp only [add_def, add_assoc]
  zero_add a := by ext1 <;> simp [add_def, zero_def, ← LongPrompt.zero_def]
  add_zero a := by ext1 <;> simp [add_def, zero_def, ← LongPrompt.zero_def]
  add_comm a b := by simp only [add_def, add_comm]
  nsmul := nsmulRec

instance : PartialOrder TokenCounts where
  le_refl a := by simp [le_def]
  le_trans a b c h h' :=
    ⟨h.1.trans h'.1, h.2.1.trans h'.2.1, h.2.2.1.trans h'.2.2.1, h.2.2.2.1.trans h'.2.2.2.1,
      h.2.2.2.2.1.trans h'.2.2.2.2.1, h.2.2.2.2.2.trans h'.2.2.2.2.2⟩
  le_antisymm a b h h' := by
    rw [le_def] at h h'
    ext1
    case longPrompt => exact le_antisymm h.2.2.2.2.2 h'.2.2.2.2.2
    all_goals omega

instance : CanonicallyOrderedAdd TokenCounts where
  exists_add_of_le {a b} h := by
    rw [le_def] at h
    refine ⟨b - a, ?_⟩
    ext1 <;> simp only [add_def, sub_def]
    case longPrompt => exact (add_tsub_cancel_of_le h.2.2.2.2.2).symm
    all_goals omega
  le_add_self a b := by simp [le_def, add_def]
  le_self_add a b := by simp [le_def, add_def]

instance : OrderedSub TokenCounts where
  tsub_le_iff_right a b c := by
    simp only [le_def, add_def, sub_def, tsub_le_iff_right]

end TokenCounts

/-- `MetricsTotals`: what an accumulator resumes from. -/
structure MetricsTotals where
  tokens : StrMap TokenCounts
  extra : StrMap Nat
  span : Option (EpochSeconds × EpochSeconds)
  deriving DecidableEq

/-- `Default::default()`. -/
def MetricsTotals.empty : MetricsTotals := ⟨∅, ∅, none⟩

/-- A later capture of the same fold: no counter falls, and a span once observed
stays observed. -/
structure MetricsTotals.Grows (t t' : MetricsTotals) : Prop where
  tokens : t.tokens.Grows t'.tokens
  extra : t.extra.Grows t'.extra
  span : t.span.isSome = true → t'.span.isSome = true

theorem MetricsTotals.Grows.refl (t : MetricsTotals) : t.Grows t :=
  ⟨StrMap.Grows.refl _, StrMap.Grows.refl _, id⟩

theorem MetricsTotals.Grows.trans {t₁ t₂ t₃ : MetricsTotals} (h : t₁.Grows t₂)
    (h' : t₂.Grows t₃) : t₁.Grows t₃ :=
  ⟨h.tokens.trans h'.tokens, h.extra.trans h'.extra, fun hs => h'.span (h.span hs)⟩

/-- The totals without their zero counters: what a stream of differences can say. -/
def MetricsTotals.nonzero (t : MetricsTotals) : MetricsTotals :=
  ⟨t.tokens.nonzero, t.extra.nonzero, t.span⟩

end ClaudeReplay
