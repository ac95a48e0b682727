import Mathlib.Data.List.Basic

/-!
# ClaudeReplay.Lib.Utf8

UTF-8 as a machine that reads one byte at a time and holds the bytes of a character
until it is complete. `valid` says that every byte belongs to a complete character;
`lossy` patches the others, each maximal broken sequence with one replacement
character.

An ASCII byte is a character of its own, so what stands on either side of it is
patched on its own (`lossy_append_ascii`).
-/

namespace ClaudeReplay.Lib.Utf8

/-- Between characters, or in one: the bytes read, the range of the next byte, and
how many are to come after it. -/
inductive State
  | start
  | inside (held : List UInt8) (lo hi : UInt8) (left : Nat)
  deriving DecidableEq, Repr

/-- U+FFFD. -/
def replacement : List UInt8 := [0xEF, 0xBF, 0xBD]

/-- The first byte of a character: the state after it, and what is complete. `none`
if no character begins so. -/
def first (b : UInt8) : Option (State × List UInt8) :=
  if b < 0x80 then some (.start, [b])
  else if b < 0xC2 then none
  else if b < 0xE0 then some (.inside [b] 0x80 0xBF 0, [])
  else if b = 0xE0 then some (.inside [b] 0xA0 0xBF 1, [])
  else if b = 0xED then some (.inside [b] 0x80 0x9F 1, [])
  else if b < 0xF0 then some (.inside [b] 0x80 0xBF 1, [])
  else if b = 0xF0 then some (.inside [b] 0x90 0xBF 2, [])
  else if b < 0xF4 then some (.inside [b] 0x80 0xBF 2, [])
  else if b = 0xF4 then some (.inside [b] 0x80 0x8F 2, [])
  else none

/-- One byte: `none` where UTF-8 cannot hold it. -/
def step : State → UInt8 → Option (State × List UInt8)
  | .start, b => first b
  | .inside held lo hi left, b =>
    if lo ≤ b && b ≤ hi then
      match left with
      | 0 => some (.start, held ++ [b])
      | left + 1 => some (.inside (held ++ [b]) 0x80 0xBF left, [])
    else none

/-- One byte, patched: a broken sequence is replaced, and the byte that broke it
begins anew. -/
def patch (s : State) (b : UInt8) : State × List UInt8 :=
  match step s b with
  | some r => r
  | none =>
    match s with
    | .start => (.start, replacement)
    | .inside .. =>
      match first b with
      | some (s, out) => (s, replacement ++ out)
      | none => (.start, replacement ++ replacement)

/-- What is left at the end. -/
def flush : State → List UInt8
  | .start => []
  | .inside .. => replacement

/-- The patched text from a state on. -/
def lossyFrom (s : State) : List UInt8 → List UInt8
  | [] => flush s
  | b :: bs => (patch s b).2 ++ lossyFrom (patch s b).1 bs

/-- `String::from_utf8_lossy`. -/
def lossy (bs : List UInt8) : List UInt8 := lossyFrom .start bs

/-- The bytes from a state on are UTF-8. -/
def validFrom (s : State) : List UInt8 → Bool
  | [] => s == .start
  | b :: bs =>
    match step s b with
    | some (s, _) => validFrom s bs
    | none => false

/-- `str::from_utf8` accepts the bytes. -/
def valid (bs : List UInt8) : Bool := validFrom .start bs

/-! ## ASCII -/

/-- In a character its first byte is held, and every byte to come is a continuation
byte. -/
def State.Ok : State → Prop
  | .start => True
  | .inside held lo hi _ => 0x80 ≤ lo ∧ hi ≤ 0xBF ∧ 0 < held.length

theorem first_ok {b : UInt8} {s : State} {out : List UInt8} (h : first b = some (s, out)) :
    s.Ok := by
  unfold first at h
  repeat' split at h
  all_goals cases h
  all_goals first
    | trivial
    | exact ⟨by decide, by decide, Nat.one_pos⟩

theorem step_ok {s s' : State} {b : UInt8} {out : List UInt8} (h : step s b = some (s', out)) :
    s'.Ok := by
  cases s with
  | start => exact first_ok h
  | inside held lo hi left =>
    simp only [step] at h
    split at h
    · cases left with
      | zero =>
        cases h
        trivial
      | succ left =>
        cases h
        exact ⟨by decide, by decide, by simp⟩
    · contradiction

theorem patch_ok {s : State} (hs : s.Ok) (b : UInt8) : (patch s b).1.Ok := by
  unfold patch
  cases hstep : step s b with
  | some r => exact step_ok hstep
  | none =>
    cases s with
    | start => trivial
    | inside held lo hi left =>
      cases hfirst : first b with
      | none => trivial
      | some r => exact first_ok hfirst

/-- An ASCII byte ends whatever came before it. -/
theorem patch_ascii {s : State} (hs : s.Ok) {b : UInt8} (hb : b < 0x80) :
    patch s b = (.start, flush s ++ [b]) := by
  have hfirst : first b = some (.start, [b]) := by simp [first, hb]
  cases s with
  | start => simp [patch, step, hfirst, flush]
  | inside held lo hi left =>
    have hlo : ¬lo ≤ b := fun h => absurd (UInt8.lt_of_lt_of_le hb (UInt8.le_trans hs.1 h))
      (UInt8.lt_irrefl b)
    simp [patch, step, hlo, hfirst, flush]

theorem lossyFrom_append_ascii {s : State} (hs : s.Ok) (xs : List UInt8) {b : UInt8}
    (hb : b < 0x80) (ys : List UInt8) :
    lossyFrom s (xs ++ b :: ys) = lossyFrom s xs ++ b :: lossy ys := by
  induction xs generalizing s with
  | nil => simp [lossyFrom, patch_ascii hs hb, lossy]
  | cons a xs ih => simp [lossyFrom, ih (patch_ok hs a)]

/-- **What stands on either side of an ASCII byte is patched on its own.** -/
theorem lossy_append_ascii (xs : List UInt8) {b : UInt8} (hb : b < 0x80) (ys : List UInt8) :
    lossy (xs ++ b :: ys) = lossy xs ++ b :: lossy ys :=
  lossyFrom_append_ascii (s := .start) trivial xs hb ys

theorem lossy_cons_ascii {b : UInt8} (hb : b < 0x80) (ys : List UInt8) :
    lossy (b :: ys) = b :: lossy ys :=
  lossy_append_ascii [] hb ys

/-- ASCII text is left as it is. -/
theorem lossy_ascii_append {xs : List UInt8} (hx : ∀ b ∈ xs, b < 0x80) (ys : List UInt8) :
    lossy (xs ++ ys) = xs ++ lossy ys := by
  induction xs with
  | nil => rfl
  | cons b xs ih =>
    have hb := hx b List.mem_cons_self
    have := lossy_append_ascii [] hb (xs ++ ys)
    rw [List.nil_append] at this
    rw [List.cons_append, this, ih fun a ha => hx a (List.mem_cons_of_mem _ ha)]
    rfl

/-! ## lengths -/

/-- The bytes a state holds. -/
def State.held : State → List UInt8
  | .start => []
  | .inside held .. => held

@[simp] theorem held_start : State.start.held = [] := rfl

@[simp] theorem held_inside (held : List UInt8) (lo hi : UInt8) (left : Nat) :
    (State.inside held lo hi left).held = held := rfl

/-- What a step reads is held or complete. -/
theorem first_held {b : UInt8} {s : State} {out : List UInt8} (h : first b = some (s, out)) :
    out ++ s.held = [b] := by
  unfold first at h
  repeat' split at h
  all_goals cases h
  all_goals rfl

theorem step_held {s s' : State} {b : UInt8} {out : List UInt8} (h : step s b = some (s', out)) :
    out ++ s'.held = s.held ++ [b] := by
  cases s with
  | start => exact first_held h
  | inside held lo hi left =>
    simp only [step] at h
    split at h
    · cases left <;> cases h <;> simp
    · contradiction

theorem patch_length {s : State} (hs : s.Ok) (b : UInt8) :
    (patch s b).2.length + 3 * (patch s b).1.held.length ≤ 3 * s.held.length + 3 := by
  unfold patch
  cases hstep : step s b with
  | some r =>
    have := congrArg List.length (@step_held _ r.1 _ r.2 hstep)
    simp only [List.length_append, List.length_singleton] at this
    simp only
    omega
  | none =>
    cases s with
    | start => simp [replacement]
    | inside held lo hi left =>
      have hheld := hs.2.2
      cases hfirst : first b with
      | none =>
        simp only [replacement, held_inside, held_start, List.length_append, List.length_cons,
          List.length_nil]
        omega
      | some r =>
        have := congrArg List.length (@first_held _ r.1 r.2 hfirst)
        simp only [List.length_append, List.length_singleton] at this
        simp only [replacement, held_inside, List.length_append, List.length_cons,
          List.length_nil]
        omega

theorem lossyFrom_length {s : State} (hs : s.Ok) (bs : List UInt8) :
    (lossyFrom s bs).length ≤ 3 * s.held.length + 3 * bs.length := by
  induction bs generalizing s with
  | nil =>
    cases s with
    | start => simp [lossyFrom, flush]
    | inside held lo hi left =>
      have hheld := hs.2.2
      simp only [lossyFrom, flush, replacement, held_inside, List.length_cons, List.length_nil]
      omega
  | cons b bs ih =>
    have hstep := patch_length hs b
    have hrest := ih (patch_ok hs b)
    simp only [lossyFrom, List.length_append, List.length_cons]
    omega

/-- A patched text is three times as long at most. -/
theorem lossy_length (bs : List UInt8) : (lossy bs).length ≤ 3 * bs.length := by
  have := lossyFrom_length (s := .start) trivial bs
  rw [held_start, List.length_nil] at this
  unfold lossy
  omega

/-! ## whole characters -/

theorem lossyFrom_of_valid {s : State} {bs : List UInt8} (h : validFrom s bs = true) :
    lossyFrom s bs = s.held ++ bs := by
  induction bs generalizing s with
  | nil =>
    obtain rfl : s = .start := by simpa [validFrom] using h
    rfl
  | cons b bs ih =>
    simp only [validFrom] at h
    split at h
    · next s' out hstep =>
      have hpatch : patch s b = (s', out) := by simp [patch, hstep]
      have hheld := step_held hstep
      rw [lossyFrom, hpatch, ih h, ← List.append_assoc, hheld, List.append_assoc]
      rfl
    · contradiction

/-- Valid text is left as it is. -/
theorem lossy_of_valid {bs : List UInt8} (h : valid bs = true) : lossy bs = bs :=
  lossyFrom_of_valid h

theorem validFrom_append {s : State} {xs : List UInt8} (h : validFrom s xs = true)
    (ys : List UInt8) : validFrom s (xs ++ ys) = valid ys := by
  induction xs generalizing s with
  | nil =>
    obtain rfl : s = .start := by simpa [validFrom] using h
    rfl
  | cons b xs ih =>
    simp only [validFrom, List.cons_append] at h ⊢
    split at h
    · next hstep => exact ih h
    · contradiction

/-- Characters do not cross a seam between valid texts. -/
theorem valid_append {xs : List UInt8} (h : valid xs = true) (ys : List UInt8) :
    valid (xs ++ ys) = valid ys :=
  validFrom_append h ys

theorem valid_cons_ascii {b : UInt8} (hb : b < 0x80) (bs : List UInt8) :
    valid (b :: bs) = valid bs := by
  simp [valid, validFrom, step, first, hb]

theorem valid_ascii {bs : List UInt8} (h : ∀ b ∈ bs, b < 0x80) : valid bs = true := by
  induction bs with
  | nil => rfl
  | cons b bs ih =>
    rw [valid_cons_ascii (h b List.mem_cons_self)]
    exact ih fun a ha => h a (List.mem_cons_of_mem _ ha)

/-- A byte that begins a character does not continue one. -/
theorem step_inside_first {held : List UInt8} {lo hi : UInt8} {left : Nat} {b : UInt8}
    (hok : (State.inside held lo hi left).Ok) (hb : (first b).isSome) :
    step (.inside held lo hi left) b = none := by
  obtain ⟨hlo, hhi, -⟩ := hok
  have hrange : ¬(lo ≤ b && b ≤ hi) = true := by
    simp only [Bool.and_eq_true, decide_eq_true_eq, UInt8.le_iff_toNat_le] at hlo hhi ⊢
    rintro ⟨hl, hh⟩
    have hlow : ¬b < 0x80 := by
      rw [UInt8.lt_iff_toNat_lt]
      exact Nat.not_lt_of_le (Nat.le_trans hlo hl)
    have hcont : b < 0xC2 := by
      rw [UInt8.lt_iff_toNat_lt]
      exact Nat.lt_of_le_of_lt (Nat.le_trans hh hhi) (by decide)
    simp [first, hlow, hcont] at hb
  simp [step, hrange]

theorem validFrom_left {s : State} (hs : s.Ok) {xs ys : List UInt8}
    (h : validFrom s (xs ++ ys) = true) (hy : valid ys = true) : validFrom s xs = true := by
  induction xs generalizing s with
  | nil =>
    cases s with
    | start => rfl
    | inside held lo hi left =>
      cases ys with
      | nil => exact h
      | cons y ys =>
        have hfirst : (first y).isSome := by
          simp only [valid, validFrom, step] at hy
          split at hy
          · next hy' => rw [hy']; rfl
          · contradiction
        simp [validFrom, step_inside_first hs hfirst] at h
  | cons x xs ih =>
    simp only [validFrom, List.cons_append] at h ⊢
    split at h
    · next hstep => exact ih (step_ok hstep) h
    · contradiction

/-- **What stands before a valid text in a valid text is valid.** -/
theorem valid_left {xs ys : List UInt8} (h : valid (xs ++ ys) = true) (hy : valid ys = true) :
    valid xs = true :=
  validFrom_left (s := .start) trivial h hy

/-- The bytes that complete a character. -/
theorem validFrom_inside {held : List UInt8} {lo hi : UInt8} {left : Nat} {bs : List UInt8}
    (hs : (State.inside held lo hi left).Ok)
    (h : validFrom (.inside held lo hi left) bs = true) :
    ∃ cs rest, bs = cs ++ rest ∧ cs.length = left + 1 ∧ (∀ c ∈ cs, 0x80 ≤ c) ∧
      validFrom (.inside held lo hi left) cs = true ∧ valid rest = true := by
  induction bs generalizing held lo hi left with
  | nil => simp [validFrom] at h
  | cons b bs ih =>
    simp only [validFrom] at h
    split at h
    · next s' out hstep =>
      have hb : 0x80 ≤ b := by
        simp only [step] at hstep
        split at hstep
        · next hrange =>
          simp only [Bool.and_eq_true, decide_eq_true_eq] at hrange
          exact UInt8.le_trans hs.1 hrange.1
        · contradiction
      have hok := step_ok hstep
      cases left with
      | zero =>
        obtain rfl : s' = .start := by
          simp only [step] at hstep
          split at hstep <;> cases hstep
          rfl
        refine ⟨[b], bs, rfl, rfl, by simpa using hb, ?_, h⟩
        simp [validFrom, hstep]
      | succ left =>
        obtain ⟨held', lo', hi', rfl⟩ : ∃ held' lo' hi', s' = .inside held' lo' hi' left := by
          simp only [step] at hstep
          split at hstep <;> cases hstep
          exact ⟨_, _, _, rfl⟩
        obtain ⟨cs, rest, rfl, hlen, hhigh, hcs, hrest⟩ := ih hok h
        refine ⟨b :: cs, rest, rfl, by simp [hlen], ?_, by simp [validFrom, hstep, hcs], hrest⟩
        intro c hc
        obtain rfl | hc := List.mem_cons.mp hc
        · exact hb
        · exact hhigh c hc
    · contradiction

/-! ## boundaries -/

/-- The byte continues a character. -/
def continues (b : UInt8) : Bool := 0x80 ≤ b && b < 0xC0

/-- `str::is_char_boundary`. -/
def isBoundary (bs : List UInt8) (i : Nat) : Bool :=
  i = 0 ||
    match bs[i]? with
    | some b => !continues b
    | none => i = bs.length

theorem not_continues_of_ascii {b : UInt8} (hb : b < 0x80) : continues b = false := by
  have hlow : ¬0x80 ≤ b := UInt8.not_le.mpr hb
  simp [continues, hlow]

/-- A valid text does not begin in a character. -/
theorem not_continues_of_valid {b : UInt8} {bs : List UInt8} (h : valid (b :: bs) = true) :
    continues b = false := by
  simp only [valid, validFrom, step, first] at h
  by_cases hlow : b < 0x80
  · exact not_continues_of_ascii hlow
  · by_cases hcont : b < 0xC2
    · simp [hlow, hcont] at h
    · have hhigh : ¬b < 0xC0 := by
        simp only [UInt8.lt_iff_toNat_lt] at hcont ⊢
        exact fun hlt => hcont (Nat.lt_trans hlt (by decide))
      simp [continues, hhigh]

/-- Where a text is cut before a byte, or at its end. -/
theorem isBoundary_append (xs ys : List UInt8) (hx : xs ≠ []) :
    isBoundary (xs ++ ys) xs.length = !(ys.head?.any continues) := by
  have hlen : xs.length ≠ 0 := by simpa using hx
  cases ys with
  | nil => simp [isBoundary]
  | cons y ys => simp [isBoundary, hlen]

/-! ## what is patched is valid -/

/-- The state is the one after the bytes it holds. -/
def State.Reached (s : State) : Prop := ∀ ys, valid (s.held ++ ys) = validFrom s ys

theorem reached_start : State.start.Reached := fun _ => rfl

/-- What is complete leaves nothing held. -/
theorem step_complete {s s' : State} {b : UInt8} {out : List UInt8}
    (h : step s b = some (s', out)) : out = [] ∨ s' = .start := by
  cases s with
  | start =>
    simp only [step, first] at h
    repeat' split at h
    all_goals cases h
    all_goals simp
  | inside held lo hi left =>
    simp only [step] at h
    split at h
    · cases left <;> cases h <;> simp
    · contradiction

/-- A step writes whole characters, and reaches what it holds. -/
theorem step_reached {s s' : State} (hs : s.Reached) {b : UInt8} {out : List UInt8}
    (h : step s b = some (s', out)) : s'.Reached ∧ valid out = true := by
  have hheld := step_held h
  have hread : ∀ ys, valid (s.held ++ b :: ys) = validFrom s' ys := by
    intro ys
    rw [hs, validFrom, h]
  obtain rfl | rfl := step_complete h
  · refine ⟨fun ys => ?_, rfl⟩
    rw [List.nil_append] at hheld
    rw [hheld, List.append_assoc]
    exact hread ys
  · rw [held_start, List.append_nil] at hheld
    exact ⟨reached_start, by rw [hheld]; exact hread []⟩

theorem patch_reached {s : State} (hs : s.Reached) (b : UInt8) :
    (patch s b).1.Reached ∧ valid (patch s b).2 = true := by
  unfold patch
  cases hstep : step s b with
  | some r => exact @step_reached s r.1 hs b r.2 hstep
  | none =>
    cases s with
    | start => exact ⟨reached_start, rfl⟩
    | inside held lo hi left =>
      cases hfirst : first b with
      | none => exact ⟨reached_start, rfl⟩
      | some r =>
        obtain ⟨hreached, hout⟩ := @step_reached .start r.1 reached_start b r.2 hfirst
        exact ⟨hreached, by rw [valid_append (by rfl)]; exact hout⟩

theorem valid_lossyFrom {s : State} (hs : s.Reached) (xs : List UInt8) :
    valid (lossyFrom s xs) = true := by
  induction xs generalizing s with
  | nil => cases s <;> rfl
  | cons b xs ih =>
    obtain ⟨hreached, hout⟩ := patch_reached hs b
    rw [lossyFrom, valid_append hout]
    exact ih hreached

/-- **Patched text is UTF-8.** -/
theorem valid_lossy (xs : List UInt8) : valid (lossy xs) = true := valid_lossyFrom reached_start xs

end ClaudeReplay.Lib.Utf8
