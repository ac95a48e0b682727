import ClaudeReplay.Lib.Escapes

/-!
# ClaudeReplay.Lib.JsonString

The value of a JSON string, from the bytes between its quotes: a machine that reads
one byte at a time and writes UTF-8. Control characters and bad escapes are refused,
and so is a surrogate that is not half of a pair.

A byte that can only stand between units cuts a decoded content in two contents that
are decoded on their own (`decode_append_cons`).
-/

namespace ClaudeReplay.Lib

/-- The value of a hexadecimal digit. -/
def hexVal (b : UInt8) : Option Nat :=
  if 0x30 ≤ b && b ≤ 0x39 then some (b.toNat - 0x30)
  else if 0x61 ≤ b && b ≤ 0x66 then some (b.toNat - 0x61 + 10)
  else if 0x41 ≤ b && b ≤ 0x46 then some (b.toNat - 0x41 + 10)
  else none

/-- The UTF-8 bytes of a code point. -/
def encodeUtf8 (cp : Nat) : List UInt8 :=
  if cp < 0x80 then [UInt8.ofNat cp]
  else if cp < 0x800 then [UInt8.ofNat (0xC0 + cp / 64), UInt8.ofNat (0x80 + cp % 64)]
  else if cp < 0x10000 then
    [UInt8.ofNat (0xE0 + cp / 4096), UInt8.ofNat (0x80 + cp / 64 % 64),
      UInt8.ofNat (0x80 + cp % 64)]
  else
    [UInt8.ofNat (0xF0 + cp / 262144), UInt8.ofNat (0x80 + cp / 4096 % 64),
      UInt8.ofNat (0x80 + cp / 64 % 64), UInt8.ofNat (0x80 + cp % 64)]

/-- The character an escape of two bytes stands for. -/
def shortEscape (b : UInt8) : Option UInt8 :=
  if b = quote ∨ b = backslash ∨ b = 0x2F then some b
  else if b = 0x62 then some 0x08
  else if b = 0x66 then some 0x0C
  else if b = 0x6E then some 0x0A
  else if b = 0x72 then some 0x0D
  else if b = 0x74 then some 0x09
  else none

/-- A high surrogate. -/
def isHigh (cp : Nat) : Bool := 0xD800 ≤ cp && cp < 0xDC00

/-- A low surrogate. -/
def isLow (cp : Nat) : Bool := 0xDC00 ≤ cp && cp < 0xE000

/-- The code point of a surrogate pair. -/
def pairOf (hi lo : Nat) : Nat := 0x10000 + (hi - 0xD800) * 1024 + (lo - 0xDC00)

/-- Where the decoder stands. -/
inductive Decoder
  | plain
  | slash
  /-- in a `\u`, with `n + 1` digits to come -/
  | hex (n acc : Nat)
  /-- after a high surrogate -/
  | high (hi : Nat)
  | highSlash (hi : Nat)
  | highHex (hi n acc : Nat)
  deriving DecidableEq, Repr

namespace Decoder

/-- The four digits of a `\u` are read. -/
def unit (cp : Nat) : Option (Decoder × List UInt8) :=
  if isHigh cp then some (.high cp, [])
  else if isLow cp then none
  else some (.plain, encodeUtf8 cp)

/-- The four digits of the second half of a pair are read. -/
def pair (hi lo : Nat) : Option (Decoder × List UInt8) :=
  if isLow lo then some (.plain, encodeUtf8 (pairOf hi lo)) else none

/-- One byte, and what is written for it. -/
def step : Decoder → UInt8 → Option (Decoder × List UInt8)
  | .plain, b =>
    if b = backslash then some (.slash, [])
    else if b = quote ∨ b < 0x20 then none
    else some (.plain, [b])
  | .slash, b =>
    if b = letterU then some (.hex 3 0, [])
    else (shortEscape b).map fun c => (.plain, [c])
  | .hex n acc, b =>
    (hexVal b).bind fun d =>
      match n with
      | 0 => unit (acc * 16 + d)
      | n + 1 => some (.hex n (acc * 16 + d), [])
  | .high hi, b => if b = backslash then some (.highSlash hi, []) else none
  | .highSlash hi, b => if b = letterU then some (.highHex hi 3 0, []) else none
  | .highHex hi n acc, b =>
    (hexVal b).bind fun d =>
      match n with
      | 0 => pair hi (acc * 16 + d)
      | n + 1 => some (.highHex hi n (acc * 16 + d), [])

/-- The text from a state on, up to the end of the content. -/
def run : Decoder → List UInt8 → Option (List UInt8)
  | s, [] => if s = .plain then some [] else none
  | s, b :: bs => (step s b).bind fun r => (run r.1 bs).map (r.2 ++ ·)

theorem run_cons (s : Decoder) (b : UInt8) (bs : List UInt8) :
    s.run (b :: bs) = (s.step b).bind fun r => (r.1.run bs).map (r.2 ++ ·) := rfl

end Decoder

/-- The value of a string with this content. -/
def decode (xs : List UInt8) : Option (List UInt8) := Decoder.plain.run xs

/-! ## cutting a content in two -/

/-- A byte that stands for itself and for nothing else. -/
structure Separator (b : UInt8) : Prop where
  plain : Decoder.plain.step b = some (.plain, [b])
  slash : b ≠ letterU ∧ shortEscape b = none
  hex : hexVal b = none

instance (b : UInt8) : Decidable (Separator b) :=
  decidable_of_iff (Decoder.plain.step b = some (.plain, [b]) ∧
    (b ≠ letterU ∧ shortEscape b = none) ∧ hexVal b = none)
    ⟨fun h => ⟨h.1, h.2.1, h.2.2⟩, fun h => ⟨h.1, h.2, h.3⟩⟩

theorem Separator.step {b : UInt8} (h : Separator b) {s : Decoder} (hs : s ≠ .plain) :
    s.step b = none := by
  have hbs : b ≠ backslash := by
    rintro rfl
    exact absurd h.plain (by decide)
  cases s with
  | plain => exact absurd rfl hs
  | slash => simp [Decoder.step, h.slash.1, h.slash.2]
  | hex n acc => simp [Decoder.step, h.hex]
  | high hi => simp [Decoder.step, hbs]
  | highSlash hi => simp [Decoder.step, h.slash.1]
  | highHex hi n acc => simp [Decoder.step, h.hex]

theorem Decoder.run_append_cons {b : UInt8} (h : Separator b) (s : Decoder) (xs ys : List UInt8) :
    s.run (xs ++ b :: ys) =
      (s.run xs).bind fun p => (decode ys).map fun q => p ++ b :: q := by
  induction xs generalizing s with
  | nil =>
    by_cases hs : s = .plain
    · subst hs
      simp [run, h.plain, decode]
    · simp [run, h.step hs, hs]
  | cons a xs ih =>
    rw [List.cons_append, run_cons, run_cons]
    cases hstep : s.step a with
    | none => rfl
    | some r =>
      simp only [Option.bind_some, ih]
      cases run r.1 xs <;> cases decode ys <;> simp

/-- **A separator cuts a content in two.** -/
theorem decode_append_cons {b : UInt8} (h : Separator b) (xs ys : List UInt8) :
    decode (xs ++ b :: ys) = (decode xs).bind fun p => (decode ys).map fun q => p ++ b :: q :=
  Decoder.run_append_cons h .plain xs ys

/-- Bytes that stand for themselves. -/
theorem decode_plain_append {ms : List UInt8}
    (hms : ∀ b ∈ ms, Decoder.plain.step b = some (.plain, [b])) (ys : List UInt8) :
    decode (ms ++ ys) = (decode ys).map (ms ++ ·) := by
  induction ms with
  | nil => simp
  | cons b ms ih =>
    have hb := hms b List.mem_cons_self
    have hrest := ih fun a ha => hms a (List.mem_cons_of_mem _ ha)
    simp only [decode] at hrest
    simp only [decode, List.cons_append, Decoder.run_cons, hb, Option.bind_some, hrest,
      Option.map_map]
    rfl

/-! ## lengths -/

namespace Decoder

/-- The bytes read for what is not written yet. -/
def owed : Decoder → Nat
  | .plain => 0
  | .slash => 1
  | .hex n _ => 5 - n
  | .high _ => 6
  | .highSlash _ => 7
  | .highHex _ n _ => 11 - n

theorem encodeUtf8_length (cp : Nat) : (encodeUtf8 cp).length ≤ 4 := by
  unfold encodeUtf8
  repeat' split
  all_goals simp

/-- What a step writes has been read. -/
theorem step_length {s s' : Decoder} {b : UInt8} {out : List UInt8}
    (h : s.step b = some (s', out)) : out.length + s'.owed ≤ s.owed + 1 := by
  cases s with
  | plain =>
    simp only [step] at h
    repeat' split at h
    all_goals cases h
    all_goals simp [owed]
  | slash =>
    simp only [step] at h
    split at h
    · cases h
      simp [owed]
    · obtain ⟨c, -, hc⟩ := Option.map_eq_some_iff.mp h
      cases hc
      simp [owed]
  | hex n acc =>
    obtain ⟨d, -, hd⟩ := Option.bind_eq_some_iff.mp h
    cases n with
    | zero =>
      simp only [unit] at hd
      repeat' split at hd
      all_goals cases hd
      · simp [owed]
      · have := encodeUtf8_length (acc * 16 + d)
        simp only [owed]
        omega
    | succ n =>
      cases hd
      simp only [owed, List.length_nil]
      omega
  | high hi =>
    simp only [step] at h
    split at h <;> cases h
    simp [owed]
  | highSlash hi =>
    simp only [step] at h
    split at h <;> cases h
    simp [owed]
  | highHex hi n acc =>
    obtain ⟨d, -, hd⟩ := Option.bind_eq_some_iff.mp h
    cases n with
    | zero =>
      simp only [pair] at hd
      split at hd <;> cases hd
      have := encodeUtf8_length (pairOf hi (acc * 16 + d))
      simp only [owed]
      omega
    | succ n =>
      cases hd
      simp only [owed, List.length_nil]
      omega

theorem run_length {s : Decoder} {xs v : List UInt8} (h : s.run xs = some v) :
    v.length ≤ xs.length + s.owed := by
  induction xs generalizing s v with
  | nil =>
    simp only [run] at h
    split at h <;> cases h
    simp
  | cons b xs ih =>
    rw [run_cons] at h
    obtain ⟨⟨s', out⟩, hstep, hrun⟩ := Option.bind_eq_some_iff.mp h
    obtain ⟨w, hw, rfl⟩ := Option.map_eq_some_iff.mp hrun
    have hout := step_length hstep
    have hrest : w.length ≤ xs.length + s'.owed := ih hw
    simp only [List.length_append, List.length_cons]
    omega

end Decoder

/-- A value is not longer than the content that says it. -/
theorem decode_length {xs v : List UInt8} (h : decode xs = some v) : v.length ≤ xs.length :=
  Decoder.run_length h

namespace Decoder

/-- The digits to come are at most four. -/
def Ok : Decoder → Prop
  | .hex n _ => n ≤ 3
  | .highHex _ n _ => n ≤ 3
  | _ => True

theorem encodeUtf8_pos (cp : Nat) : 0 < (encodeUtf8 cp).length := by
  unfold encodeUtf8
  repeat' split
  all_goals simp

theorem encodeUtf8_pairOf (hi lo : Nat) : (encodeUtf8 (pairOf hi lo)).length = 4 := by
  have hbig : 0x10000 ≤ pairOf hi lo := by
    unfold pairOf
    omega
  unfold encodeUtf8
  rw [if_neg (by omega), if_neg (by omega), if_neg (by omega)]
  rfl

/-- At most six bytes are read for one that is written. -/
theorem step_written {s s' : Decoder} {b : UInt8} {out : List UInt8} (hs : s.Ok)
    (h : s.step b = some (s', out)) : s'.Ok ∧ s.owed + 1 ≤ 6 * out.length + s'.owed := by
  cases s with
  | plain =>
    simp only [step] at h
    repeat' split at h
    all_goals cases h
    all_goals exact ⟨trivial, by simp [owed]⟩
  | slash =>
    simp only [step] at h
    split at h
    · cases h
      exact ⟨Nat.le_refl 3, by simp [owed]⟩
    · obtain ⟨c, -, hc⟩ := Option.map_eq_some_iff.mp h
      cases hc
      exact ⟨trivial, by simp [owed]⟩
  | hex n acc =>
    obtain ⟨d, -, hd⟩ := Option.bind_eq_some_iff.mp h
    simp only [Ok] at hs
    cases n with
    | zero =>
      simp only [unit] at hd
      repeat' split at hd
      all_goals cases hd
      · exact ⟨trivial, by simp [owed]⟩
      · have := encodeUtf8_pos (acc * 16 + d)
        refine ⟨trivial, ?_⟩
        simp only [owed]
        omega
    | succ n =>
      cases hd
      refine ⟨by simp only [Ok]; omega, ?_⟩
      simp only [owed, List.length_nil]
      omega
  | high hi =>
    simp only [step] at h
    split at h <;> cases h
    exact ⟨trivial, by simp [owed]⟩
  | highSlash hi =>
    simp only [step] at h
    split at h <;> cases h
    exact ⟨Nat.le_refl 3, by simp [owed]⟩
  | highHex hi n acc =>
    obtain ⟨d, -, hd⟩ := Option.bind_eq_some_iff.mp h
    simp only [Ok] at hs
    cases n with
    | zero =>
      simp only [pair] at hd
      split at hd <;> cases hd
      refine ⟨trivial, ?_⟩
      rw [encodeUtf8_pairOf]
      simp [owed]
    | succ n =>
      cases hd
      refine ⟨by simp only [Ok]; omega, ?_⟩
      simp only [owed, List.length_nil]
      omega

theorem run_written {s : Decoder} (hs : s.Ok) {xs v : List UInt8} (h : s.run xs = some v) :
    xs.length + s.owed ≤ 6 * v.length := by
  induction xs generalizing s v with
  | nil =>
    simp only [run] at h
    split at h
    · next hplain =>
      cases h
      simp [hplain, owed]
    · contradiction
  | cons b xs ih =>
    rw [run_cons] at h
    obtain ⟨⟨s', out⟩, hstep, hrun⟩ := Option.bind_eq_some_iff.mp h
    obtain ⟨w, hw, rfl⟩ := Option.map_eq_some_iff.mp hrun
    obtain ⟨hok, hout⟩ := step_written hs hstep
    have hrest : xs.length + s'.owed ≤ 6 * w.length := ih hok hw
    simp only [List.length_append, List.length_cons]
    omega

end Decoder

/-- A content is not longer than six times its value. -/
theorem decode_written {xs v : List UInt8} (h : decode xs = some v) : xs.length ≤ 6 * v.length :=
  Decoder.run_written (s := .plain) trivial h

/-! ## cutting between units -/

namespace Decoder

/-- The state after some bytes of a content, and what is written for them. -/
def feed : Decoder → List UInt8 → Option (Decoder × List UInt8)
  | s, [] => some (s, [])
  | s, b :: bs => (step s b).bind fun r => (feed r.1 bs).map fun q => (q.1, r.2 ++ q.2)

theorem run_append (s : Decoder) (xs ys : List UInt8) :
    s.run (xs ++ ys) = (s.feed xs).bind fun r => (r.1.run ys).map (r.2 ++ ·) := by
  induction xs generalizing s with
  | nil => simp [feed]
  | cons b xs ih =>
    rw [List.cons_append, run_cons, feed]
    cases s.step b with
    | none => rfl
    | some r =>
      simp only [Option.bind_some, ih, Option.bind_map]
      cases r.1.feed xs <;> simp [Function.comp_def]

theorem run_eq_some_iff {s : Decoder} {xs v : List UInt8} :
    s.run xs = some v ↔ s.feed xs = some (.plain, v) := by
  have h := run_append s xs []
  rw [List.append_nil] at h
  rw [h]
  cases hfeed : s.feed xs with
  | none => simp
  | some r =>
    obtain ⟨s', out⟩ := r
    by_cases hs : s' = .plain <;> simp [run, hs]

/-- The place in a unit. -/
def esc : Decoder → Esc
  | .plain | .high _ => .plain
  | .slash | .highSlash _ => .slash
  | .hex n _ | .highHex _ n _ => .hex n

theorem step_esc {s s' : Decoder} {b : UInt8} {out : List UInt8} (h : s.step b = some (s', out)) :
    s'.esc = s.esc.step b := by
  cases s with
  | plain =>
    simp only [step] at h
    repeat' split at h
    all_goals cases h
    · next hb => simp [esc, Esc.step, hb]
    · next hb _ => simp [esc, Esc.step, hb]
  | slash =>
    simp only [step] at h
    split at h
    · next hb =>
      cases h
      simp [esc, Esc.step, hb]
    · next hb =>
      obtain ⟨c, -, ⟨⟩⟩ := Option.map_eq_some_iff.mp h
      simp [esc, Esc.step, hb]
  | hex n acc =>
    obtain ⟨d, -, hd⟩ := Option.bind_eq_some_iff.mp h
    cases n with
    | zero =>
      simp only [unit] at hd
      repeat' split at hd
      all_goals cases hd
      all_goals rfl
    | succ n =>
      cases hd
      rfl
  | high hi =>
    simp only [step] at h
    split at h <;> cases h
    next hb => simp [esc, Esc.step, hb]
  | highSlash hi =>
    simp only [step] at h
    split at h <;> cases h
    next hb => simp [esc, Esc.step, hb]
  | highHex hi n acc =>
    obtain ⟨d, -, hd⟩ := Option.bind_eq_some_iff.mp h
    cases n with
    | zero =>
      simp only [pair] at hd
      split at hd <;> cases hd
      rfl
    | succ n =>
      cases hd
      rfl

theorem feed_esc {s s' : Decoder} {xs out : List UInt8} (h : s.feed xs = some (s', out)) :
    s'.esc = s.esc.run xs := by
  induction xs generalizing s s' out with
  | nil =>
    cases h
    rfl
  | cons b xs ih =>
    obtain ⟨⟨s₁, out₁⟩, hstep, hrest⟩ := Option.bind_eq_some_iff.mp h
    obtain ⟨⟨s₂, out₂⟩, hfeed, ⟨⟩⟩ := Option.map_eq_some_iff.mp hrest
    rw [ih hfeed, step_esc hstep, Esc.run_cons]

end Decoder

/-- The digits of a `\u` escape. -/
def hex4 : List UInt8 → Option Nat
  | d₁ :: d₂ :: d₃ :: d₄ :: _ => do
    let a ← hexVal d₁
    let b ← hexVal d₂
    let c ← hexVal d₃
    let d ← hexVal d₄
    pure (((a * 16 + b) * 16 + c) * 16 + d)
  | _ => none

namespace Decoder

/-- States that count digits down. -/
structure Digits (K : Nat → Nat → Decoder) (fin : Nat → Option (Decoder × List UInt8)) : Prop where
  open_ : ∀ n acc, K n acc ≠ .plain
  next : ∀ n acc b, (K (n + 1) acc).step b = (hexVal b).map fun d => (K n (acc * 16 + d), [])
  last : ∀ acc b, (K 0 acc).step b = (hexVal b).bind fun d => fin (acc * 16 + d)

theorem digits_hex : Digits hex unit where
  open_ _ _ := by simp
  next n acc b := by
    simp only [step]
    cases hexVal b <;> rfl
  last _ _ := rfl

theorem digits_highHex (hi : Nat) : Digits (highHex hi) (pair hi) where
  open_ _ _ := by simp
  next n acc b := by
    simp only [step]
    cases hexVal b <;> rfl
  last _ _ := rfl

theorem Digits.run_next {K : Nat → Nat → Decoder} {fin : Nat → Option (Decoder × List UInt8)}
    (h : Digits K fin) {n acc : Nat} {bs v : List UInt8} (hrun : (K (n + 1) acc).run bs = some v) :
    ∃ b rest d, bs = b :: rest ∧ hexVal b = some d ∧ (K n (acc * 16 + d)).run rest = some v := by
  cases bs with
  | nil => simp [run, h.open_] at hrun
  | cons b rest =>
    rw [run_cons, h.next, Option.bind_map] at hrun
    obtain ⟨d, hd, hrest⟩ := Option.bind_eq_some_iff.mp hrun
    exact ⟨b, rest, d, rfl, hd, by simpa using hrest⟩

/-- **Four digits** are read as `hex4` reads them. -/
theorem Digits.run_hex4 {K : Nat → Nat → Decoder} {fin : Nat → Option (Decoder × List UInt8)}
    (h : Digits K fin) {bs v : List UInt8} (hrun : (K 3 0).run bs = some v) :
    ∃ cp, hex4 bs = some cp ∧
      ((fin cp).bind fun r => (r.1.run (bs.drop 4)).map (r.2 ++ ·)) = some v := by
  obtain ⟨b₁, rest₁, d₁, rfl, h₁, hrun₁⟩ := h.run_next hrun
  obtain ⟨b₂, rest₂, d₂, rfl, h₂, hrun₂⟩ := h.run_next hrun₁
  obtain ⟨b₃, rest₃, d₃, rfl, h₃, hrun₃⟩ := h.run_next hrun₂
  cases rest₃ with
  | nil => simp [run, h.open_] at hrun₃
  | cons b₄ rest₄ =>
    rw [run_cons, h.last, Option.bind_assoc] at hrun₃
    obtain ⟨d₄, h₄, hlast⟩ := Option.bind_eq_some_iff.mp hrun₃
    refine ⟨((d₁ * 16 + d₂) * 16 + d₃) * 16 + d₄, by simp [hex4, h₁, h₂, h₃, h₄], ?_⟩
    rw [Nat.zero_mul, Nat.zero_add] at hlast
    exact hlast

/-- A state that only one byte leads on from. -/
theorem run_only {s s' : Decoder} {b : UInt8} {bs v : List UInt8} (h : s.run bs = some v)
    (hs : s ≠ .plain) (hstep : ∀ a, s.step a = if a = b then some (s', []) else none) :
    ∃ rest, bs = b :: rest ∧ s'.run rest = some v := by
  cases bs with
  | nil => simp [run, hs] at h
  | cons a rest =>
    rw [run_cons, hstep] at h
    split at h
    · next ha => exact ⟨rest, by rw [ha], by simpa using h⟩
    · contradiction

/-- **The second half of a pair.** -/
theorem run_high {hi : Nat} {bs v : List UInt8} (h : (high hi).run bs = some v) :
    ∃ rest lo w, bs = backslash :: letterU :: rest ∧ hex4 rest = some lo ∧ isLow lo = true ∧
      decode (rest.drop 4) = some w ∧ v = encodeUtf8 (pairOf hi lo) ++ w := by
  obtain ⟨bs, rfl, hslash⟩ := run_only h (by simp) fun _ => rfl
  obtain ⟨bs, rfl, hdigits⟩ := run_only hslash (by simp) fun _ => rfl
  obtain ⟨lo, hlo, hpair⟩ := (digits_highHex hi).run_hex4 hdigits
  simp only [pair] at hpair
  split at hpair
  · next hlow =>
    obtain ⟨w, hw, hv⟩ := Option.map_eq_some_iff.mp hpair
    dsimp only at hv
    exact ⟨bs, lo, w, rfl, hlo, hlow, hw, hv.symm⟩
  · contradiction

theorem unit_low {cp : Nat} (h : isLow cp = true) : unit cp = none := by
  have hhigh : isHigh cp = false := by
    simp only [isHigh, isLow, Bool.and_eq_true, decide_eq_true_eq, Bool.and_eq_false_iff,
      decide_eq_false_iff_not] at h ⊢
    omega
  simp only [unit, hhigh, h, Bool.false_eq_true, if_false, if_true]

theorem decode_hex (bs : List UInt8) :
    decode (backslash :: letterU :: bs) = (hex 3 0).run bs := by
  have hslash : plain.step backslash = some (slash, []) := rfl
  have hhex : slash.step letterU = some (hex 3 0, []) := rfl
  rw [decode, run_cons, hslash, Option.bind_some, run_cons, hhex]
  simp

/-- It is refused on its own. -/
theorem run_high_decode {hi : Nat} {bs v : List UInt8} (h : (high hi).run bs = some v) :
    decode bs = none := by
  obtain ⟨rest, lo, w, rfl, hlo, hlow, -⟩ := run_high h
  rw [decode_hex]
  cases hdec : (hex 3 0).run rest with
  | none => rfl
  | some v =>
    obtain ⟨cp, hcp, hunit⟩ := digits_hex.run_hex4 hdec
    have heq : lo = cp := Option.some.inj (hlo.symm.trans hcp)
    rw [← heq, unit_low hlow] at hunit
    contradiction

end Decoder

end ClaudeReplay.Lib
