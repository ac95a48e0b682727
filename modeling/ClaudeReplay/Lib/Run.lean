import Mathlib.Data.List.Basic
import Mathlib.Data.List.Induction

/-!
# ClaudeReplay.Lib.Run

Runs of a labelled transition relation: the states a system goes through while it
performs a list of events, in the order in which they were serialised.

A property of runs is proved from one step: `Run.kept` for a property of states,
`Run.traced` for one that also reads the events so far. A run is cut at any point
by `Run.append_iff`.
-/

namespace ClaudeReplay.Lib

variable {S E : Type*}

/-- `Run R s es t`: from `s`, performing `es` one after the other, `R` leads to `t`. -/
inductive Run (R : S → E → S → Prop) : S → List E → S → Prop
  | nil (s : S) : Run R s [] s
  | cons {s u t : S} {e : E} {es : List E} : R s e u → Run R u es t → Run R s (e :: es) t

namespace Run

variable {R R' : S → E → S → Prop} {s t : S} {e : E} {es fs : List E}

@[simp] theorem nil_iff : Run R s [] t ↔ s = t := by
  constructor
  · intro h
    cases h
    rfl
  · rintro rfl
    exact .nil s

@[simp] theorem cons_iff : Run R s (e :: es) t ↔ ∃ u, R s e u ∧ Run R u es t := by
  constructor
  · intro h
    cases h with
    | cons hstep hrest => exact ⟨_, hstep, hrest⟩
  · rintro ⟨u, hstep, hrest⟩
    exact .cons hstep hrest

theorem append_iff : Run R s (es ++ fs) t ↔ ∃ u, Run R s es u ∧ Run R u fs t := by
  induction es generalizing s with
  | nil => simp
  | cons e es ih =>
    simp only [List.cons_append, cons_iff, ih]
    grind

/-- The runs of a step function are its folds. -/
theorem of_foldlM {step : S → E → Option S} (h : es.foldlM step s = some t) :
    Run (fun s e t => step s e = some t) s es t := by
  induction es generalizing s with
  | nil => exact nil_iff.mpr (Option.some.inj h)
  | cons e es ih =>
    rw [List.foldlM_cons] at h
    obtain ⟨u, hstep, hrest⟩ := Option.bind_eq_some_iff.mp h
    exact .cons hstep (ih hrest)

/-- A run of a relation is a run of every weaker one. -/
theorem mono (hle : ∀ s e t, R s e t → R' s e t) (h : Run R s es t) : Run R' s es t := by
  induction h with
  | nil s => exact .nil s
  | cons hstep _ ih => exact .cons (hle _ _ _ hstep) ih

/-- **The invariant rule.** What every step under an event of a kind keeps, a run of
such events keeps. -/
theorem kept {P : S → Prop} {Q : E → Prop} (h : Run R s es t)
    (hstep : ∀ s e t, Q e → R s e t → P s → P t) (hes : ∀ e ∈ es, Q e) (hs : P s) : P t := by
  induction h with
  | nil s => exact hs
  | cons hfirst _ ih =>
    apply ih
    · intro e he
      exact hes e (List.mem_cons_of_mem _ he)
    · exact hstep _ _ _ (hes _ List.mem_cons_self) hfirst hs

/-- The invariant rule for a property that reads the events so far. -/
theorem traced {P : List E → S → Prop} (h : Run R s es t) (hs : P [] s)
    (hstep : ∀ pre u e v, Run R s pre u → R u e v → P pre u → P (pre ++ [e]) v) : P es t := by
  induction es using List.reverseRecOn generalizing t with
  | nil =>
    obtain rfl := nil_iff.mp h
    exact hs
  | append_singleton es e ih =>
    obtain ⟨u, hpre, hlast⟩ := append_iff.mp h
    obtain ⟨v, hfirst, hend⟩ := cons_iff.mp hlast
    obtain rfl := nil_iff.mp hend
    exact hstep es u e v hpre hfirst (ih hpre)

end Run

end ClaudeReplay.Lib
