import ClaudeReplay.Lib.JsonText

/-!
# ClaudeReplay.Lib.Overlay

Writing over the content of a JSON string in place. In `Overlaid c e xs ys` some bytes of
`xs` have become `c`: bytes that stand between escape units, in ASCII, and are no
backslash. Such a content is read as before (`Overlaid.reach`), and where the units of a
content are complete (`Esc.formed`) a separator can only stand between two of them.
-/

namespace ClaudeReplay.Lib

/-! ## complete units -/

namespace Esc

/-- The byte may stand at this place of a unit. -/
def fits : Esc → UInt8 → Bool
  | .plain, _ => true
  | .slash, b => b == letterU || (shortEscape b).isSome
  | .hex _, b => (hexVal b).isSome

/-- Every unit of the content is complete and may stand there. -/
def formed : Esc → List UInt8 → Bool
  | e, [] => e == .plain
  | e, b :: bs => e.fits b && (e.step b).formed bs

theorem formed_cons {e : Esc} {b : UInt8} {bs : List UInt8} :
    e.formed (b :: bs) = true ↔ e.fits b = true ∧ (e.step b).formed bs = true := by
  rw [formed, Bool.and_eq_true]

theorem formed_right {e : Esc} {xs ys : List UInt8} (h : e.formed (xs ++ ys) = true) :
    (e.run xs).formed ys = true := by
  induction xs generalizing e with
  | nil => exact h
  | cons b xs ih => exact ih (formed_cons.mp h).2

theorem plain_step {b : UInt8} (h : b ≠ backslash) : Esc.plain.step b = .plain := if_neg h

theorem step_eq_slash {e : Esc} {b : UInt8} (h : e.step b = .slash) : e = .plain ∧ b = backslash := by
  cases e with
  | plain =>
    simp only [step] at h
    split at h
    · next hb => exact ⟨rfl, hb⟩
    · contradiction
  | slash =>
    simp only [step] at h
    split at h <;> contradiction
  | hex n => cases n <;> contradiction

theorem step_eq_hex {e : Esc} {b : UInt8} {n : Nat} (h : e.step b = .hex n) :
    e = .hex (n + 1) ∨ e = .slash ∧ b = letterU ∧ n = 3 := by
  cases e with
  | plain =>
    simp only [step] at h
    split at h <;> contradiction
  | slash =>
    simp only [step] at h
    split at h
    · next hb =>
      cases h
      exact .inr ⟨rfl, hb, rfl⟩
    · contradiction
  | hex m =>
    cases m with
    | zero => contradiction
    | succ m =>
      cases h
      exact .inl rfl

/-- Bytes without a backslash begin no unit. -/
theorem plain_run {xs : List UInt8} (h : backslash ∉ xs) : Esc.plain.run xs = .plain := by
  induction xs with
  | nil => rfl
  | cons b xs ih =>
    rw [List.mem_cons, not_or] at h
    rw [run_cons, plain_step (Ne.symm h.1), ih h.2]

end Esc

theorem Decoder.step_fits {s s' : Decoder} {b : UInt8} {out : List UInt8}
    (h : s.step b = some (s', out)) : s.esc.fits b = true := by
  cases s with
  | plain => rfl
  | high hi => rfl
  | slash =>
    simp only [step] at h
    split at h
    · next hb => simp [esc, Esc.fits, hb]
    · obtain ⟨c, hc, -⟩ := Option.map_eq_some_iff.mp h
      simp [esc, Esc.fits, hc]
  | highSlash hi =>
    simp only [step] at h
    split at h <;> cases h
    next hb => simp [esc, Esc.fits, hb]
  | hex n acc =>
    obtain ⟨d, hd, -⟩ := Option.bind_eq_some_iff.mp h
    simp [esc, Esc.fits, hd]
  | highHex hi n acc =>
    obtain ⟨d, hd, -⟩ := Option.bind_eq_some_iff.mp h
    simp [esc, Esc.fits, hd]

/-- **The units of a content that is read are complete.** -/
theorem Decoder.reach_formed {s : Decoder} {xs : List UInt8} (h : s.reach xs = some .plain) :
    s.esc.formed xs = true := by
  induction xs generalizing s with
  | nil =>
    cases h
    rfl
  | cons b xs ih =>
    rw [reach_cons] at h
    obtain ⟨⟨s', out⟩, hstep, hrest⟩ := Option.bind_eq_some_iff.mp h
    rw [Esc.formed_cons, ← step_esc hstep]
    exact ⟨step_fits hstep, ih hrest⟩

/-- A separator stands between units. -/
theorem Separator.formed {b : UInt8} (h : Separator b) {e : Esc} {bs : List UInt8}
    (hformed : e.formed (b :: bs) = true) : e = .plain := by
  have hfits := (Esc.formed_cons.mp hformed).1
  cases e with
  | plain => rfl
  | slash => simp [Esc.fits, h.slash.1, h.slash.2] at hfits
  | hex n => simp [Esc.fits, h.hex] at hfits

/-- What comes after it begins a unit. -/
theorem Separator.run {b : UInt8} (h : Separator b) {e : Esc} {xs ys : List UInt8}
    (hformed : e.formed (xs ++ b :: ys) = true) : e.run (xs ++ [b]) = .plain := by
  have hne : b ≠ backslash := by
    rintro rfl
    exact absurd h.plain (by decide)
  rw [Esc.run_snoc, h.formed (Esc.formed_right hformed), Esc.plain_step hne]

/-- A text that begins with a separator stands between units, and so does what follows. -/
theorem Separator.run_text {b : UInt8} (h : Separator b) {bs : List UInt8} (hbs : backslash ∉ bs)
    {e : Esc} {xs ys : List UInt8} (hformed : e.formed (xs ++ b :: bs ++ ys) = true) :
    e.run xs = .plain ∧ e.run (xs ++ b :: bs) = .plain := by
  rw [List.append_assoc, List.cons_append] at hformed
  constructor
  · exact h.formed (Esc.formed_right hformed)
  · have hrun := h.run hformed
    rw [Esc.run_append] at hrun
    rw [Esc.run_append, ← List.singleton_append, Esc.run_append, hrun, Esc.plain_run hbs]

/-! ## writing over bytes -/

/-- Some bytes between units have become `c`. -/
inductive Overlaid (c : UInt8) : Esc → List UInt8 → List UInt8 → Prop
  | nil {e : Esc} : Overlaid c e [] []
  | keep {e : Esc} {b : UInt8} {xs ys : List UInt8} :
    Overlaid c (e.step b) xs ys → Overlaid c e (b :: xs) (b :: ys)
  | cover {b : UInt8} {xs ys : List UInt8} : b ≠ backslash → b < 0x80 →
    Overlaid c .plain xs ys → Overlaid c .plain (b :: xs) (c :: ys)

namespace Overlaid

variable {c : UInt8} {e : Esc} {xs ys zs : List UInt8}

theorem refl : Overlaid c e xs xs := by
  induction xs generalizing e with
  | nil => exact .nil
  | cons b xs ih => exact .keep ih

theorem length_eq (h : Overlaid c e xs ys) : ys.length = xs.length := by
  induction h with
  | nil => rfl
  | keep _ ih => simp [ih]
  | cover _ _ _ ih => simp [ih]

theorem take (h : Overlaid c e xs ys) (n : Nat) : Overlaid c e (xs.take n) (ys.take n) := by
  induction h generalizing n with
  | nil =>
    rw [List.take_nil]
    exact .nil
  | keep _ ih =>
    cases n with
    | zero => exact .nil
    | succ n => exact .keep (ih n)
  | cover hb hlow _ ih =>
    cases n with
    | zero => exact .nil
    | succ n => exact .cover hb hlow (ih n)

theorem append (h : Overlaid c e xs ys) {xs' ys' : List UInt8}
    (h' : Overlaid c (e.run xs) xs' ys') : Overlaid c e (xs ++ xs') (ys ++ ys') := by
  induction h with
  | nil => exact h'
  | keep _ ih => exact .keep (ih h')
  | cover hb hlow _ ih =>
    rw [Esc.run_cons, Esc.plain_step hb] at h'
    exact .cover hb hlow (ih h')

/-- What is kept of one part is followed by what is written over the next. -/
theorem append_left (h : Overlaid c (e.run xs) ys zs) : Overlaid c e (xs ++ ys) (xs ++ zs) :=
  refl.append h

/-- What is written over one text and back has not changed. -/
theorem antisymm (h : Overlaid c e xs ys) (h' : Overlaid c e ys xs) : ys = xs := by
  induction h with
  | nil => rfl
  | keep _ ih =>
    cases h' with
    | keep h' => rw [ih h']
    | cover hb _ h' => rw [ih (by rwa [Esc.plain_step hb])]
  | cover hb _ _ ih =>
    cases h' with
    | keep h' =>
      rw [Esc.plain_step hb] at h'
      rw [ih h']
    | cover _ _ h' => rw [ih h']

section

variable (hc : c ≠ backslash)
include hc

theorem trans (h : Overlaid c e xs ys) (h' : Overlaid c e ys zs) : Overlaid c e xs zs := by
  induction h generalizing zs with
  | nil => exact h'
  | keep _ ih =>
    cases h' with
    | keep h' => exact .keep (ih h')
    | cover hb hlow h' =>
      rw [Esc.plain_step hb] at ih
      exact .cover hb hlow (ih h')
  | cover hb hlow _ ih =>
    cases h' with
    | keep h' =>
      rw [Esc.plain_step hc] at h'
      exact .cover hb hlow (ih h')
    | cover _ _ h' => exact .cover hb hlow (ih h')

theorem formed (h : Overlaid c e xs ys) (hx : e.formed xs = true) : e.formed ys = true := by
  induction h with
  | nil => exact hx
  | keep _ ih =>
    rw [Esc.formed_cons] at hx ⊢
    exact ⟨hx.1, ih hx.2⟩
  | cover hb _ _ ih =>
    rw [Esc.formed_cons, Esc.plain_step hb] at hx
    rw [Esc.formed_cons, Esc.plain_step hc]
    exact ⟨rfl, ih hx.2⟩

end

/-- **The decoder comes through as before.** -/
theorem reach (hc : Decoder.plain.step c = some (.plain, [c])) {s t : Decoder}
    (h : Overlaid c s.esc xs ys) (hx : s.reach xs = some t) : s.reach ys = some t := by
  generalize he : s.esc = e at h
  induction h generalizing s with
  | nil => exact hx
  | keep _ ih =>
    rw [Decoder.reach_cons] at hx ⊢
    obtain ⟨⟨s', out⟩, hstep, hrest⟩ := Option.bind_eq_some_iff.mp hx
    rw [hstep, Option.bind_some]
    exact ih hrest (by rw [Decoder.step_esc hstep, he])
  | cover hb _ _ ih =>
    rw [Decoder.reach_cons] at hx ⊢
    obtain ⟨⟨s', out⟩, hstep, hrest⟩ := Option.bind_eq_some_iff.mp hx
    cases s with
    | plain =>
      -- a byte between units stands for itself, and so does what has been put in its place
      have hs' : s' = .plain := by
        simp only [Decoder.step, if_neg hb] at hstep
        split at hstep <;> cases hstep
        rfl
      subst hs'
      rw [hc, Option.bind_some]
      exact ih hrest rfl
    | high hi => simp [Decoder.step, hb] at hstep
    | _ => cases he

/-- A text of whole characters stays one. -/
theorem validFrom (hc : c < 0x80) {s : Utf8.State} (hs : s.Ok) (h : Overlaid c e xs ys)
    (hx : Utf8.validFrom s xs = true) : Utf8.validFrom s ys = true := by
  induction h generalizing s with
  | nil => exact hx
  | keep _ ih =>
    rw [Utf8.validFrom] at hx ⊢
    split at hx
    · next hstep => exact ih (Utf8.step_ok hstep) hx
    · contradiction
  | @cover b xs ys _ hlow _ ih =>
    cases s with
    | start =>
      have hrest := (Utf8.valid_cons_ascii hlow _).symm.trans hx
      exact (Utf8.valid_cons_ascii hc _).trans (ih trivial hrest)
    | inside held lo hi left =>
      have hfirst : (Utf8.first b).isSome := by simp [Utf8.first, hlow]
      rw [Utf8.validFrom, Utf8.step_inside_first hs hfirst] at hx
      contradiction

end Overlaid

end ClaudeReplay.Lib
