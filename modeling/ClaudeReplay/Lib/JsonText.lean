import ClaudeReplay.Lib.JsonString
import ClaudeReplay.Lib.Utf8

/-!
# ClaudeReplay.Lib.JsonText

Broken UTF-8 in the content of a JSON string. A byte outside ASCII can only stand for
itself there, and what it is patched with is outside ASCII too, so patching a content
does not change where the decoder gets (`reach_lossy`).
-/

namespace ClaudeReplay.Lib

open Utf8 (State lossy lossyFrom patch flush replacement)

/-- Bytes outside ASCII. -/
def High (xs : List UInt8) : Prop := ∀ b ∈ xs, 0x80 ≤ b

theorem high_append {xs ys : List UInt8} : High (xs ++ ys) ↔ High xs ∧ High ys :=
  List.forall_mem_append

theorem high_replacement : High replacement := by
  have hall : replacement.all (fun b => decide (0x80 ≤ b)) = true := by decide
  exact fun b hb => of_decide_eq_true (List.all_eq_true.mp hall b hb)

namespace Decoder

/-- Where the decoder is after these bytes, if it has come through them. -/
def reach (s : Decoder) (xs : List UInt8) : Option Decoder := (s.feed xs).map Prod.fst

theorem reach_cons (s : Decoder) (b : UInt8) (xs : List UInt8) :
    s.reach (b :: xs) = (s.step b).bind fun r => r.1.reach xs := by
  rw [reach, feed]
  cases s.step b with
  | none => rfl
  | some r =>
    show Option.map _ (Option.map _ (r.1.feed xs)) = r.1.reach xs
    rw [Option.map_map]
    rfl

theorem reach_append (s : Decoder) (xs ys : List UInt8) :
    s.reach (xs ++ ys) = (s.reach xs).bind fun t => t.reach ys := by
  induction xs generalizing s with
  | nil => rfl
  | cons b xs ih =>
    rw [List.cons_append, reach_cons, reach_cons]
    cases s.step b with
    | none => rfl
    | some r => exact ih r.1

/-- A content is read if the decoder ends up between units. -/
theorem run_isSome (s : Decoder) (xs : List UInt8) :
    (s.run xs).isSome = true ↔ s.reach xs = some .plain := by
  rw [Option.isSome_iff_exists, reach]
  constructor
  · rintro ⟨v, hv⟩
    rw [run_eq_some_iff.mp hv]
    rfl
  · intro h
    obtain ⟨⟨t, v⟩, hfeed, rfl⟩ := Option.map_eq_some_iff.mp h
    exact ⟨v, run_eq_some_iff.mpr hfeed⟩

theorem reach_esc {s t : Decoder} {xs : List UInt8} (h : s.reach xs = some t) :
    t.esc = s.esc.run xs := by
  obtain ⟨⟨t', v⟩, hfeed, rfl⟩ := Option.map_eq_some_iff.mp h
  exact feed_esc hfeed

/-- What the decoder comes through holds no quote that closes the string. -/
theorem reach_inside {s t : Decoder} {xs : List UInt8} (h : s.reach xs = some t) :
    s.esc.inside xs = true := by
  induction xs generalizing s with
  | nil => rfl
  | cons b xs ih =>
    rw [reach_cons] at h
    obtain ⟨⟨s', out⟩, hstep, hrest⟩ := Option.bind_eq_some_iff.mp h
    have hopen : s.esc.closes b = false := by
      cases hc : s.esc.closes b with
      | false => rfl
      | true =>
        simp only [Esc.closes, Bool.and_eq_true, beq_iff_eq] at hc
        obtain ⟨hesc, rfl⟩ := hc
        have hslash : quote ≠ backslash := by decide
        cases s with
        | plain => simp [step, hslash] at hstep
        | high hi => simp [step, hslash] at hstep
        | _ => simp [esc] at hesc
    rw [Esc.inside, hopen, ← step_esc hstep, ih hrest]
    rfl

/-- **A part that is read between units is whole.** -/
theorem reach_whole {s t : Decoder} {xs : List UInt8} (h : s.reach xs = some t)
    (hs : s.esc = .plain) (ht : t.esc = .plain) : Whole xs := by
  constructor
  · rw [← hs]
    exact reach_inside h
  · rw [← hs, ← reach_esc h, ht, hs]

/-- A byte outside ASCII stands for itself, between units. -/
theorem reach_high_cons (s : Decoder) {b : UInt8} (hb : 0x80 ≤ b) (xs : List UInt8) :
    s.reach (b :: xs) = if s = .plain then plain.reach xs else none := by
  have hne : ∀ c : UInt8, c < 0x80 → b ≠ c := by
    rintro c hc rfl
    exact absurd (UInt8.lt_of_le_of_lt hb hc) (UInt8.lt_irrefl _)
  have hcontrol : ¬b < 0x20 := fun h =>
    absurd (UInt8.lt_of_le_of_lt hb h) (by decide)
  have hdigit : hexVal b = none := by
    unfold hexVal
    have h₁ : ¬b ≤ 0x39 := fun h => absurd (UInt8.le_trans hb h) (by decide)
    have h₂ : ¬b ≤ 0x66 := fun h => absurd (UInt8.le_trans hb h) (by decide)
    have h₃ : ¬b ≤ 0x46 := fun h => absurd (UInt8.le_trans hb h) (by decide)
    simp [h₁, h₂, h₃]
  have hshort : shortEscape b = none := by
    simp [shortEscape, hne quote (by decide), hne backslash (by decide), hne 0x2F (by decide),
      hne 0x62 (by decide), hne 0x66 (by decide), hne 0x6E (by decide), hne 0x72 (by decide),
      hne 0x74 (by decide)]
  have hslash := hne backslash (by decide)
  have hquote := hne quote (by decide)
  have hu := hne letterU (by decide)
  rw [reach_cons]
  cases s with
  | plain => simp [step, hslash, hquote, hcontrol]
  | slash => simp [step, hu, hshort]
  | hex n acc => simp [step, hdigit]
  | high hi => simp [step, hslash]
  | highSlash hi => simp [step, hu]
  | highHex hi n acc => simp [step, hdigit]

/-- **However many there are.** -/
theorem reach_high_append (s : Decoder) {hs : List UInt8} (h : High hs) (hne : hs ≠ [])
    (xs : List UInt8) : s.reach (hs ++ xs) = if s = .plain then plain.reach xs else none := by
  induction hs generalizing s with
  | nil => exact absurd rfl hne
  | cons b hs ih =>
    rw [List.cons_append, s.reach_high_cons (h b List.mem_cons_self)]
    by_cases hnil : hs = []
    · rw [hnil, List.nil_append]
    · rw [ih .plain (fun a ha => h a (List.mem_cons_of_mem _ ha)) hnil]
      rfl

end Decoder

/-- A byte outside ASCII is held or patched, and what comes of it is outside ASCII. -/
theorem patch_high {u : State} (hu : High u.held) {b : UInt8} (hb : 0x80 ≤ b) :
    High ((patch u b).2 ++ (patch u b).1.held) ∧ (patch u b).2 ++ (patch u b).1.held ≠ [] := by
  have hone : High [b] := fun a ha => List.mem_singleton.mp ha ▸ hb
  have hne : replacement ≠ [] := by decide
  unfold patch
  cases hstep : Utf8.step u b with
  | some r =>
    have hheld := @Utf8.step_held u r.1 b r.2 hstep
    simp only [hheld]
    exact ⟨high_append.mpr ⟨hu, hone⟩, by simp⟩
  | none =>
    cases u with
    | start => exact ⟨by simpa using high_replacement, by simp [hne]⟩
    | inside held lo hi left =>
      cases hfirst : Utf8.first b with
      | none =>
        refine ⟨?_, by simp [hne]⟩
        simpa [high_append] using high_replacement
      | some r =>
        have hheld := @Utf8.first_held b r.1 r.2 hfirst
        simp only [List.append_assoc, hheld]
        exact ⟨high_append.mpr ⟨high_replacement, hone⟩, by simp⟩

theorem reach_lossyFrom {u : State} (hok : u.Ok) (hu : High u.held) (s : Decoder)
    (xs : List UInt8) : s.reach (lossyFrom u xs) = s.reach (u.held ++ xs) := by
  induction xs generalizing u s with
  | nil =>
    cases u with
    | start => rfl
    | inside held lo hi left =>
      have hne : held ≠ [] := List.ne_nil_of_length_pos hok.2.2
      have hflush := s.reach_high_append high_replacement (by decide) []
      rw [List.append_nil] at hflush
      rw [s.reach_high_append hu hne]
      exact hflush
  | cons b xs ih =>
    by_cases hb : b < 0x80
    · have hrest : ∀ r : Decoder, r.reach (b :: lossyFrom .start xs) = r.reach (b :: xs) := by
        intro r
        rw [r.reach_cons, r.reach_cons]
        cases r.step b with
        | none => rfl
        | some q => exact ih (u := .start) trivial (fun _ ha => nomatch ha) q.1
      rw [lossyFrom, Utf8.patch_ascii hok hb, List.append_assoc, List.singleton_append]
      cases u with
      | start => exact hrest s
      | inside held lo hi left =>
        have hne : held ≠ [] := List.ne_nil_of_length_pos hok.2.2
        rw [flush, s.reach_high_append high_replacement (by decide), hrest,
          ← s.reach_high_append hu hne]
    · have hb' : 0x80 ≤ b := UInt8.not_lt.mp hb
      obtain ⟨hhigh, hne⟩ := patch_high hu hb'
      obtain ⟨hout, hheld⟩ := high_append.mp hhigh
      have hafter : s.reach (lossyFrom u (b :: xs)) =
          s.reach ((patch u b).2 ++ ((patch u b).1.held ++ xs)) := by
        rw [lossyFrom, s.reach_append, s.reach_append]
        exact congrArg _ (funext (ih (Utf8.patch_ok hok b) hheld))
      have hsplit : u.held ++ b :: xs = (u.held ++ [b]) ++ xs := by simp
      have hread : High (u.held ++ [b]) :=
        high_append.mpr ⟨hu, fun a ha => List.mem_singleton.mp ha ▸ hb'⟩
      rw [hafter, hsplit, ← List.append_assoc, s.reach_high_append hhigh hne,
        s.reach_high_append hread (by simp)]

/-- **Patching does not change where the decoder gets.** -/
theorem reach_lossy (s : Decoder) (xs : List UInt8) : s.reach (lossy xs) = s.reach xs :=
  reach_lossyFrom (u := .start) trivial (fun _ ha => nomatch ha) s xs

end ClaudeReplay.Lib
