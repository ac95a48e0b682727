import ClaudeReplay.Elide
import ClaudeReplay.Lib.ListScan
import Mathlib.Data.List.Induction

/-!
# ClaudeReplay.Elide.Scan

What the filter does with a line, string by string. A line is a sequence of `Token`s,
the strings and the bytes between them, and perhaps a last string that is not closed.
`Scope.str` says what a whole string does, from its content alone: whether it is
elided, where its cuts fall, what is written and what is remembered of a key.
`feed_tokens` is the filter on a sequence of tokens; `Holding` is what it holds of a
string it is still in.
-/

namespace ClaudeReplay

open Lib (quote backslash letterU Esc Whole rposition)

/-! ## where the cuts fall -/

/-- The unit starts of the buffered content, as `begin_eliding` walks it. -/
def walkFlags (esc : Nat) : List UInt8 → List Bool
  | [] => []
  | b :: bs => (esc == 0) :: walkFlags (Elider.walkStep esc b) bs

/-- The unit starts of the content that comes after. -/
def escFlags (e : Esc) : List UInt8 → List Bool
  | [] => []
  | b :: bs => (e == .plain) :: escFlags (e.step b) bs

@[simp] theorem length_walkFlags (esc : Nat) (xs : List UInt8) :
    (walkFlags esc xs).length = xs.length := by
  induction xs generalizing esc with
  | nil => rfl
  | cons b xs ih => simp [walkFlags, ih]

@[simp] theorem length_escFlags (e : Esc) (xs : List UInt8) :
    (escFlags e xs).length = xs.length := by
  induction xs generalizing e with
  | nil => rfl
  | cons b xs ih => simp [escFlags, ih]

theorem escFlags_snoc (e : Esc) (xs : List UInt8) (b : UInt8) :
    escFlags e (xs ++ [b]) = escFlags e xs ++ [e.run xs == .plain] := by
  induction xs generalizing e with
  | nil => rfl
  | cons a xs ih => simp [escFlags, ih]

/-- The bytes of an oversized content at which the scanner has a unit start. -/
def unitFlags (xs : List UInt8) : List Bool :=
  walkFlags 0 (xs.take (elideStringBytes + 1)) ++
    escFlags (Esc.plain.run (xs.take (elideStringBytes + 1))) (xs.drop (elideStringBytes + 1))

@[simp] theorem length_unitFlags (xs : List UInt8) : (unitFlags xs).length = xs.length := by
  simp only [unitFlags, List.length_append, length_walkFlags, length_escFlags, List.length_take,
    List.length_drop]
  omega

/-- Where the prefix ends: the last unit start up to byte `prefixKeep`. -/
def headCut (xs : List UInt8) : Nat :=
  (rposition id ((walkFlags 0 xs).take (prefixKeep + 1))).getD 0

/-- The bytes of the ring before the first unit start in it. -/
def tailOverhang (xs : List UInt8) : Nat :=
  (((unitFlags xs).drop (xs.length - ringCap)).takeWhile fun f => !f).length

/-- Where the postfix begins. -/
def tailCut (xs : List UInt8) : Nat := xs.length - ringCap + tailOverhang xs

/-- The bytes between the cuts. -/
def dropped (xs : List UInt8) : Nat := tailCut xs - headCut xs

/-- What an elided content becomes, `off` being the file offset of its first byte. -/
def frame (off : Nat) (xs : List UInt8) : List UInt8 :=
  xs.take (headCut xs) ++ marker (off + headCut xs) (dropped xs) ++ xs.drop (tailCut xs)

theorem headCut_le (xs : List UInt8) : headCut xs ≤ prefixKeep := by
  unfold headCut
  cases h : rposition id ((walkFlags 0 xs).take (prefixKeep + 1)) with
  | none => exact Nat.zero_le _
  | some i =>
    obtain ⟨pre, x, post, heq, hlen, -⟩ := Lib.rposition_eq_some h
    have hl := congrArg List.length heq
    simp only [List.length_take, List.length_append, List.length_cons] at hl
    simp only [Option.getD_some]
    omega

theorem tailOverhang_le (xs : List UInt8) : tailOverhang xs ≤ ringCap := by
  unfold tailOverhang
  have h := (List.takeWhile_prefix (p := fun f => !f)
    (l := (unitFlags xs).drop (xs.length - ringCap))).length_le
  rw [List.length_drop, length_unitFlags] at h
  omega

theorem tailCut_le {xs : List UInt8} (h : ringCap ≤ xs.length) : tailCut xs ≤ xs.length := by
  have := tailOverhang_le xs
  unfold tailCut
  omega

/-! ## a whole string -/

namespace Scope

/-- The string at hand is elided if this is its content. -/
def elides (s : Scope) (xs : List UInt8) : Bool :=
  s.expectingValue && s.policyAllows && decide (elideStringBytes < xs.length)

/-- What a key is remembered as. -/
def trackedKey (xs : List UInt8) : TrackedKey :=
  if keyCap < xs.length then .unmatchable else .bytes xs

/-- A string with this content, and what is written for it. An oversized key is not
remembered: the one before it stays. -/
def str (s : Scope) (xs : List UInt8) : Scope × List UInt8 :=
  ({ s with
     pos := s.pos + xs.length + 2
     expectingValue := false
     lastKey :=
       if s.expectingValue || decide (elideStringBytes < xs.length) then s.lastKey
       else some (trackedKey xs)
     removed := if s.elides xs then s.removed + dropped xs else s.removed },
   [quote] ++ (if s.elides xs then frame (s.lineStart + s.pos + 1) xs else xs) ++ [quote])

end Scope

/-! ## inside a string -/

/-- The `escaped` flag of a unit state. -/
def escapedOf : Esc → Bool
  | .slash => true
  | _ => false

/-- The `escUnit` count of a unit state. -/
def unitOf : Esc → Nat
  | .plain => 0
  | .slash => 1
  | .hex n => n + 1

/-- What the filter holds of a string's content, and has written for it. -/
inductive Phase (c : Scope) (xs : List UInt8) (s : Elider) : List UInt8 → Prop
  /-- the content may still turn out small -/
  | buffering (hlen : xs.length ≤ elideStringBytes) (hp : s.passthrough = false)
      (he : s.eliding = false) (hpending : s.pending = quote :: xs)
      (hkey : c.expectingValue = false →
        s.keyCapture = xs.take keyCap ∧ s.keyOversized = decide (keyCap < xs.length)) :
      Phase c xs s []
  /-- it is oversized, and a value the policy gives up -/
  | eliding (hlen : elideStringBytes < xs.length)
      (hv : (c.expectingValue && c.policyAllows) = true) (hp : s.passthrough = false)
      (he : s.eliding = true) (hkept : s.keptPrefix = xs.take (headCut xs))
      (hoff : s.dropOff = c.lineStart + c.pos + 1 + headCut xs) (hl : s.contentLen = xs.length)
      (hring : s.ring = (xs.zip (unitFlags xs)).drop (xs.length - ringCap)) :
      Phase c xs s []
  /-- it is oversized, and a key or a value to keep -/
  | passing (hlen : elideStringBytes < xs.length)
      (hv : (c.expectingValue && c.policyAllows) = false) (hp : s.passthrough = true)
      (he : s.eliding = false) : Phase c xs s (quote :: xs)

/-- The filter is in the string that was opened in scope `c`, with content `xs` so far
and `out` written for it. -/
structure Holding (c : Scope) (xs : List UInt8) (s : Elider) (out : List UInt8) : Prop where
  scope : s.toScope = { c with pos := c.pos + xs.length + 1 }
  inString : s.inString = true
  escaped : s.escaped = escapedOf (Esc.plain.run xs)
  escUnit : s.escUnit = unitOf (Esc.plain.run xs)
  isValue : s.stringIsValue = c.expectingValue
  start : s.contentStart = c.pos + 1
  phase : Phase c xs s out

/-- The string is opened. -/
theorem holding_open {s : Elider} (h : s.inString = false) :
    Holding s.toScope [] (s.push quote).1 (s.push quote).2 := by
  have hpush : s.push quote = ({ s with pos := s.pos + 1 }.openString s.pos, []) := by
    simp [Elider.push, h]
  rw [hpush]
  refine ⟨rfl, rfl, rfl, rfl, rfl, rfl, .buffering (Nat.zero_le _) rfl rfl rfl fun _ => ⟨rfl, ?_⟩⟩
  rfl

/-- A content byte moves the unit state on, and is taken. -/
theorem push_content {c : Scope} {xs out : List UInt8} {s : Elider} (h : Holding c xs s out)
    {b : UInt8} (hb : (Esc.plain.run xs).closes b = false) :
    s.push b = Elider.takeStringByte { s with
      pos := s.pos + 1
      escaped := escapedOf (Esc.plain.run (xs ++ [b]))
      escUnit := unitOf (Esc.plain.run (xs ++ [b])) } b (Esc.plain.run xs == .plain) := by
  rw [Esc.run_snoc]
  have hescaped := h.escaped
  have hunit := h.escUnit
  unfold Elider.push Elider.inStringByte
  simp only [h.inString, if_true]
  cases he : Esc.plain.run xs with
  | plain =>
    rw [he] at hescaped hunit hb
    have hq : b ≠ quote := by
      rintro rfl
      simp [Esc.closes] at hb
    by_cases hbs : b = backslash
    · simp [hescaped, hunit, escapedOf, unitOf, Esc.step, hbs]
    · simp [hescaped, hunit, escapedOf, unitOf, Esc.step, hbs, hq]
  | slash =>
    rw [he] at hescaped hunit
    have hstart : (Esc.slash == Esc.plain) = false := rfl
    by_cases hu : b = letterU
    · simp [hescaped, hunit, escapedOf, unitOf, Esc.step, hu, hstart]
    · simp [hescaped, hunit, escapedOf, unitOf, Esc.step, hu, hstart]
  | hex n =>
    rw [he] at hescaped hunit
    have hstart : (Esc.hex n == Esc.plain) = false := beq_false_of_ne (by simp)
    cases n with
    | zero => simp [hescaped, hunit, escapedOf, unitOf, Esc.step, hstart]
    | succ n => simp [hescaped, hunit, escapedOf, unitOf, Esc.step, hstart]

theorem walkFlags_append (esc : Nat) (xs ys : List UInt8) :
    walkFlags esc (xs ++ ys) =
      walkFlags esc xs ++ walkFlags (xs.foldl Elider.walkStep esc) ys := by
  induction xs generalizing esc with
  | nil => rfl
  | cons b xs ih => simp [walkFlags, ih]

/-- The prefix is cut by the first `prefixKeep + 1` bytes. -/
theorem headCut_append {xs : List UInt8} (h : prefixKeep < xs.length) (ys : List UInt8) :
    headCut (xs ++ ys) = headCut xs := by
  unfold headCut
  rw [walkFlags_append, List.take_append_of_le_length]
  rw [length_walkFlags]
  exact h

/-- A byte more, once the size is decided. -/
theorem unitFlags_snoc {xs : List UInt8} (h : elideStringBytes < xs.length) (b : UInt8) :
    unitFlags (xs ++ [b]) = unitFlags xs ++ [Esc.plain.run xs == .plain] := by
  have htake : (xs ++ [b]).take (elideStringBytes + 1) = xs.take (elideStringBytes + 1) :=
    List.take_append_of_le_length h
  have hdrop : (xs ++ [b]).drop (elideStringBytes + 1) =
      xs.drop (elideStringBytes + 1) ++ [b] := List.drop_append_of_le_length h
  unfold unitFlags
  rw [htake, hdrop, escFlags_snoc, ← Esc.run_append, List.take_append_drop, List.append_assoc]

/-- A byte enters the ring, and the oldest leaves it. -/
theorem ring_snoc {xs : List UInt8} (h : elideStringBytes < xs.length) (b : UInt8) :
    ((xs ++ [b]).zip (unitFlags (xs ++ [b]))).drop ((xs ++ [b]).length - ringCap) =
      ((xs.zip (unitFlags xs)).drop (xs.length - ringCap)).tail ++
        [(b, Esc.plain.run xs == .plain)] := by
  have hcap : 0 < ringCap ∧ ringCap < elideStringBytes := by decide
  have hlen : (xs.zip (unitFlags xs)).length = xs.length := by simp
  rw [unitFlags_snoc h, List.zip_append (by simp), List.drop_append_of_le_length, List.tail_drop]
  · congr 2
    simp only [List.length_append, List.length_singleton]
    omega
  · rw [hlen, List.length_append, List.length_singleton]
    omega

/-- The walk of `begin_eliding`. -/
theorem boundaryWalk_eq (tailFrom i esc p : Nat) (xs : List UInt8) :
    Elider.boundaryWalk tailFrom i esc p xs =
      (((rposition id ((walkFlags esc xs).take (prefixKeep + 1 - i))).map (· + i)).getD p,
        (walkFlags esc xs).drop (tailFrom - i)) := by
  induction xs generalizing i esc p with
  | nil => simp [Elider.boundaryWalk, walkFlags, rposition]
  | cons b xs ih =>
    have hflags : (if tailFrom ≤ i then
          (esc == 0) :: (walkFlags (Elider.walkStep esc b) xs).drop (tailFrom - (i + 1))
        else (walkFlags (Elider.walkStep esc b) xs).drop (tailFrom - (i + 1))) =
          ((esc == 0) :: walkFlags (Elider.walkStep esc b) xs).drop (tailFrom - i) := by
      split
      · next hi =>
        rw [Nat.sub_eq_zero_of_le hi, Nat.sub_eq_zero_of_le (Nat.le_succ_of_le hi)]
        rfl
      · next hi =>
        obtain ⟨n, hn⟩ : ∃ n, tailFrom - i = n + 1 := ⟨tailFrom - i - 1, by omega⟩
        rw [hn, List.drop_succ_cons]
        congr 1
        omega
    simp only [Elider.boundaryWalk, ih, walkFlags, hflags, Prod.mk.injEq, and_true]
    by_cases hi : i ≤ prefixKeep
    · obtain ⟨n, hn⟩ : ∃ n, prefixKeep + 1 - i = n + 1 := ⟨prefixKeep - i, by omega⟩
      have hn' : prefixKeep + 1 - (i + 1) = n := by omega
      rw [hn, hn', List.take_succ_cons]
      simp only [rposition]
      cases h : rposition id ((walkFlags (Elider.walkStep esc b) xs).take n) with
      | some j =>
        simp only [Option.map_some, Option.getD_some]
        omega
      | none => cases he : (esc == 0) <;> simp [hi]
    · have hz : prefixKeep + 1 - i = 0 := by omega
      have hz' : prefixKeep + 1 - (i + 1) = 0 := by omega
      simp [hz, hz', rposition, hi]

/-- `begin_eliding`, at the byte that makes the content oversized. -/
theorem beginEliding_eq {s : Elider} {xs : List UInt8} (hp : s.pending = quote :: xs)
    (hlen : xs.length = elideStringBytes + 1) :
    s.beginEliding = { s with
      keptPrefix := xs.take (headCut xs)
      dropOff := s.lineStart + s.contentStart + headCut xs
      ring := (xs.zip (unitFlags xs)).drop (xs.length - ringCap)
      contentLen := xs.length
      eliding := true
      pending := [] } := by
  have hflags : unitFlags xs = walkFlags 0 xs := by
    simp only [unitFlags, ← hlen, List.take_length, List.drop_length, escFlags, List.append_nil]
  have hcut : ((rposition id ((walkFlags 0 xs).take (prefixKeep + 1))).map (· + 0)).getD 0 =
      headCut xs := by
    simp [headCut]
  unfold Elider.beginEliding
  simp only [hp, List.tail_cons, boundaryWalk_eq, Nat.sub_zero, hcut, hflags, List.zip,
    List.drop_zipWith]

/-- What `take_string_byte` leaves alone. -/
theorem takeStringByte_frame (s : Elider) (b : UInt8) (f : Bool) :
    (s.takeStringByte b f).1.toScope = s.toScope ∧ (s.takeStringByte b f).1.inString = s.inString ∧
      (s.takeStringByte b f).1.escaped = s.escaped ∧
      (s.takeStringByte b f).1.escUnit = s.escUnit ∧
      (s.takeStringByte b f).1.stringIsValue = s.stringIsValue ∧
      (s.takeStringByte b f).1.contentStart = s.contentStart := by
  unfold Elider.takeStringByte Elider.beginEliding
  split
  · simp
  · split
    · simp
    · dsimp only
      split
      · split <;> simp
      · simp

theorem take_snoc (n : Nat) (xs : List UInt8) (b : UInt8) :
    (xs ++ [b]).take n = if n ≤ xs.length then xs.take n else xs.take n ++ [b] := by
  split
  · next h => exact List.take_append_of_le_length h
  · next h =>
    have hlen : (xs ++ [b]).length ≤ n := by
      rw [List.length_append, List.length_singleton]
      omega
    rw [List.take_of_length_le hlen, List.take_of_length_le (by omega)]

theorem Phase.take {c : Scope} {xs out : List UInt8} {s : Elider} {n : Nat}
    (hscope : s.toScope = { c with pos := n }) (hvalue : s.stringIsValue = c.expectingValue)
    (hstart : s.contentStart = c.pos + 1) (h : Phase c xs s out) (b : UInt8) :
    Phase c (xs ++ [b]) (s.takeStringByte b (Esc.plain.run xs == .plain)).1
      (out ++ (s.takeStringByte b (Esc.plain.run xs == .plain)).2) := by
  have hlen' : (xs ++ [b]).length = xs.length + 1 := by simp
  have hkeep : prefixKeep < elideStringBytes := by decide
  cases h with
  | buffering hlen hp he hpending hkey =>
    let s₁ : Elider := { s with
      pending := quote :: (xs ++ [b])
      keyCapture :=
        if s.stringIsValue || decide (keyCap ≤ s.keyCapture.length) then s.keyCapture
        else s.keyCapture ++ [b]
      keyOversized :=
        s.keyOversized || (!s.stringIsValue && decide (keyCap ≤ s.keyCapture.length)) }
    have hallows : s.policyAllows = c.policyAllows := by rw [hscope]; rfl
    have hout : s.takeStringByte b (Esc.plain.run xs == .plain) =
        if elideStringBytes < xs.length + 1 then
          if c.expectingValue && c.policyAllows then (s₁.beginEliding, [])
          else ({ s₁ with pending := [], passthrough := true }, s₁.pending)
        else (s₁, []) := by
      have hlast : s₁.pending.length - 1 = xs.length + 1 := by simp [s₁]
      rw [← hvalue, ← hallows, ← hlast]
      simp [Elider.takeStringByte, hp, he, hpending, s₁]
    rw [hout]
    by_cases hsize : elideStringBytes < xs.length + 1
    · have hxs : (xs ++ [b]).length = elideStringBytes + 1 := by omega
      cases hv : c.expectingValue && c.policyAllows with
      | true =>
        rw [if_pos hsize, if_pos rfl, beginEliding_eq rfl hxs]
        refine .eliding (hlen'.symm ▸ hsize) hv hp rfl rfl ?_ rfl rfl
        have hl : s.lineStart = c.lineStart := by rw [hscope]
        show s.lineStart + s.contentStart + headCut (xs ++ [b]) = _
        rw [hl, hstart]
        omega
      | false =>
        rw [if_pos hsize, if_neg (by simp)]
        exact .passing (hlen'.symm ▸ hsize) hv rfl he
    · rw [if_neg hsize]
      refine .buffering (by omega) hp he rfl fun hkeyed => ?_
      obtain ⟨hk, ho⟩ := hkey hkeyed
      have hcap : keyCap ≤ s.keyCapture.length ↔ keyCap ≤ xs.length := by
        rw [hk, List.length_take]
        omega
      have hfalse : s.stringIsValue = false := hvalue.trans hkeyed
      refine ⟨?_, ?_⟩
      · show (if s.stringIsValue || decide (keyCap ≤ s.keyCapture.length) then s.keyCapture
          else s.keyCapture ++ [b]) = (xs ++ [b]).take keyCap
        rw [take_snoc, ← hk]
        simp only [hfalse, Bool.false_or, decide_eq_true_eq, hcap]
      · show (s.keyOversized || (!s.stringIsValue && decide (keyCap ≤ s.keyCapture.length))) =
          decide (keyCap < (xs ++ [b]).length)
        rw [hfalse, ho, hlen', Bool.eq_iff_iff]
        simp only [Bool.not_false, Bool.true_and, Bool.or_eq_true, decide_eq_true_eq, hcap]
        omega
  | eliding hlen hv hp he hkept hoff hl hring =>
    have hcut : headCut (xs ++ [b]) = headCut xs := headCut_append (Nat.lt_trans hkeep hlen) [b]
    have htake : (xs ++ [b]).take (headCut xs) = xs.take (headCut xs) :=
      List.take_append_of_le_length (by have := headCut_le xs; omega)
    have hout : s.takeStringByte b (Esc.plain.run xs == .plain) = ({ s with
        contentLen := xs.length + 1
        ring := ((xs ++ [b]).zip (unitFlags (xs ++ [b]))).drop ((xs ++ [b]).length - ringCap) },
        []) := by
      have hcap : ringCap < elideStringBytes := by decide
      have hfull : s.ring.length = ringCap := by
        rw [hring]
        simp only [List.length_drop, List.length_zip, length_unitFlags, Nat.min_self]
        omega
      rw [ring_snoc hlen b, ← hring]
      simp [Elider.takeStringByte, hp, he, hl, hfull]
    rw [hout]
    refine .eliding (hlen'.symm ▸ Nat.lt_succ_of_lt hlen) hv hp he ?_ ?_ hlen'.symm rfl
    · rw [hcut, htake]
      exact hkept
    · rw [hcut]
      exact hoff
  | passing hlen hv hp he =>
    have hout : s.takeStringByte b (Esc.plain.run xs == .plain) = (s, [b]) := by
      simp [Elider.takeStringByte, hp]
    rw [hout]
    exact .passing (hlen'.symm ▸ Nat.lt_succ_of_lt hlen) hv hp he

/-- **A content byte is taken.** -/
theorem Holding.step {c : Scope} {xs out : List UInt8} {s : Elider} (h : Holding c xs s out)
    {b : UInt8} (hb : (Esc.plain.run xs).closes b = false) :
    Holding c (xs ++ [b]) (s.push b).1 (out ++ (s.push b).2) := by
  rw [push_content h hb]
  obtain ⟨hscope, hin, hesc, hunit, hvalue, hstart⟩ := takeStringByte_frame { s with
      pos := s.pos + 1
      escaped := escapedOf (Esc.plain.run (xs ++ [b]))
      escUnit := unitOf (Esc.plain.run (xs ++ [b])) } b (Esc.plain.run xs == .plain)
  have hpos : ({ s.toScope with pos := s.pos + 1 } : Scope) =
      { c with pos := c.pos + (xs ++ [b]).length + 1 } := by
    simp only [h.scope, List.length_append, List.length_singleton]
    congr 1
  refine ⟨hscope.trans hpos, hin.trans h.inString, hesc, hunit, hvalue.trans h.isValue,
    hstart.trans h.start, ?_⟩
  refine Phase.take (s := { s with
      pos := s.pos + 1
      escaped := escapedOf (Esc.plain.run (xs ++ [b]))
      escUnit := unitOf (Esc.plain.run (xs ++ [b])) }) hpos h.isValue h.start ?_ b
  cases h.phase with
  | buffering h₁ h₂ h₃ h₄ h₅ => exact .buffering h₁ h₂ h₃ h₄ h₅
  | eliding h₁ h₂ h₃ h₄ h₅ h₆ h₇ h₈ => exact .eliding h₁ h₂ h₃ h₄ h₅ h₆ h₇ h₈
  | passing h₁ h₂ h₃ h₄ => exact .passing h₁ h₂ h₃ h₄

/-! ## feeding -/

@[simp] theorem feed_nil (s : Elider) : s.feed [] = (s, []) := rfl

theorem feed_cons (s : Elider) (b : UInt8) (bs : List UInt8) :
    s.feed (b :: bs) =
      (((s.push b).1.feed bs).1, (s.push b).2 ++ ((s.push b).1.feed bs).2) := rfl

theorem feed_append (s : Elider) (xs ys : List UInt8) :
    s.feed (xs ++ ys) = (((s.feed xs).1.feed ys).1, (s.feed xs).2 ++ ((s.feed xs).1.feed ys).2) := by
  induction xs generalizing s with
  | nil => simp
  | cons b xs ih => simp only [List.cons_append, feed_cons, ih, List.append_assoc]

/-- What the filter holds after some content. -/
theorem Holding.feed {c : Scope} {xs out : List UInt8} {s : Elider} (h : Holding c xs s out)
    {ys : List UInt8} (hys : (Esc.plain.run xs).inside ys = true) :
    Holding c (xs ++ ys) (s.feed ys).1 (out ++ (s.feed ys).2) := by
  induction ys generalizing xs out s with
  | nil => simpa using h
  | cons b ys ih =>
    simp only [Esc.inside, Bool.and_eq_true, Bool.not_eq_true'] at hys
    have := ih (h.step hys.1) (by rw [Esc.run_snoc]; exact hys.2)
    simpa only [feed_cons, List.append_assoc, List.singleton_append] using this

/-- The filter in a string that is not closed. -/
theorem feed_open {s : Elider} (h : s.inString = false) {xs : List UInt8}
    (hxs : Esc.plain.inside xs = true) :
    Holding s.toScope xs (s.feed (quote :: xs)).1 (s.feed (quote :: xs)).2 :=
  (holding_open h).feed hxs

theorem dropWhile_zip (xs : List UInt8) (fs : List Bool) :
    ((xs.zip fs).dropWhile fun x => !x.2) = (xs.zip fs).drop (fs.takeWhile fun f => !f).length := by
  induction xs generalizing fs with
  | nil => simp
  | cons x xs ih =>
    cases fs with
    | nil => simp
    | cons f fs => cases f <;> simp [ih]

/-- The ring from its first unit start on is the postfix. -/
theorem ring_postfix (xs : List UInt8) :
    (((xs.zip (unitFlags xs)).drop (xs.length - ringCap)).dropWhile fun x => !x.2).map Prod.fst =
      xs.drop (tailCut xs) := by
  have hsplit : (xs.zip (unitFlags xs)).drop (xs.length - ringCap) =
      (xs.drop (xs.length - ringCap)).zip ((unitFlags xs).drop (xs.length - ringCap)) := by
    simp only [List.zip, List.drop_zipWith]
  rw [hsplit, dropWhile_zip, List.map_drop, List.map_fst_zip, List.drop_drop]
  · rfl
  · simp

/-- The cuts of an oversized content come in order. -/
theorem cut_le {xs : List UInt8} (h : elideStringBytes < xs.length) :
    headCut xs ≤ tailCut xs ∧ tailCut xs ≤ xs.length := by
  have hcut := headCut_le xs
  have hbound : prefixKeep + ringCap < elideStringBytes := by decide
  refine ⟨?_, tailCut_le (by omega)⟩
  unfold tailCut
  omega

/-- The postfix of an elided content, and the bytes its marker counts. -/
theorem ring_dropped {s : Elider} {xs : List UInt8} (hlen : elideStringBytes < xs.length)
    (hkept : s.keptPrefix = xs.take (headCut xs)) (hl : s.contentLen = xs.length)
    (hring : s.ring = (xs.zip (unitFlags xs)).drop (xs.length - ringCap)) :
    (s.ring.dropWhile fun x => !x.2).map Prod.fst = xs.drop (tailCut xs) ∧
      s.contentLen - s.keptPrefix.length - (s.ring.dropWhile fun x => !x.2).length =
        dropped xs := by
  have hpost : (s.ring.dropWhile fun x => !x.2).map Prod.fst = xs.drop (tailCut xs) := by
    rw [hring, ring_postfix]
  refine ⟨hpost, ?_⟩
  obtain ⟨hcuts, htail⟩ := cut_le hlen
  have hring' : (s.ring.dropWhile fun x => !x.2).length = xs.length - tailCut xs := by
    rw [← List.length_map Prod.fst, hpost, List.length_drop]
  rw [hring', hl, hkept, List.length_take, dropped]
  omega

/-- **The closing quote.** -/
theorem Holding.close {c : Scope} {xs out : List UInt8} {s : Elider} (h : Holding c xs s out)
    (hxs : Esc.plain.run xs = .plain) :
    (s.push quote).1.inString = false ∧ (s.push quote).1.toScope = (c.str xs).1 ∧
      out ++ (s.push quote).2 = (c.str xs).2 := by
  have hescaped := h.escaped
  have hunit := h.escUnit
  rw [hxs] at hescaped hunit
  have hpush : s.push quote = Elider.closeString { s with pos := s.pos + 1 } := by
    have hq : quote ≠ backslash := by decide
    simp [Elider.push, Elider.inStringByte, h.inString, hescaped, hunit, escapedOf, unitOf, hq]
  rw [hpush]
  have hscope := h.scope
  have hvalue := h.isValue
  cases h.phase with
  | buffering hlen hp he hpending hkey =>
    have hsmall : ¬elideStringBytes < xs.length := by omega
    have hclose : Elider.closeString { s with pos := s.pos + 1 } = ({ s with
        pos := s.pos + 1
        inString := false
        lastKey :=
          if s.stringIsValue then s.lastKey
          else some (if s.keyOversized then .unmatchable else .bytes s.keyCapture)
        keyCapture := if s.stringIsValue || s.keyOversized then s.keyCapture else []
        pending := []
        expectingValue := false }, quote :: xs ++ [quote]) := by
      simp [Elider.closeString, hp, he, hpending]
    have hlast : (if s.stringIsValue then s.lastKey
        else some (if s.keyOversized then .unmatchable else .bytes s.keyCapture)) =
        if c.expectingValue then c.lastKey else some (Scope.trackedKey xs) := by
      rw [hvalue, hscope]
      cases hv : c.expectingValue with
      | true => rfl
      | false =>
        obtain ⟨hk, ho⟩ := hkey hv
        rw [ho, hk]
        unfold Scope.trackedKey
        by_cases hcap : keyCap < xs.length
        · simp [hcap]
        · simp [hcap, List.take_of_length_le (Nat.le_of_not_lt hcap)]
    rw [hclose]
    simp only [hscope] at hlast
    refine ⟨rfl, ?_, ?_⟩
    · simp [hlast, hscope, Scope.str, Scope.elides, hsmall]
    · simp [Scope.str, Scope.elides, hsmall]
  | eliding hlen hv hp he hkept hoff hl hring =>
    have helides : c.elides xs = true := by simp [Scope.elides, hv, hlen]
    obtain ⟨hpost, hdropped⟩ := ring_dropped hlen hkept hl hring
    have hclose : Elider.closeString { s with pos := s.pos + 1 } = ({ s with
        pos := s.pos + 1
        inString := false
        removed := s.removed + dropped xs
        eliding := false
        ring := []
        keptPrefix := []
        pending := []
        expectingValue := false },
        [quote] ++ frame (c.lineStart + c.pos + 1) xs ++ [quote]) := by
      have hframe : frame (c.lineStart + c.pos + 1) xs = s.keptPrefix ++
          marker s.dropOff (dropped xs) ++ (s.ring.dropWhile fun x => !x.2).map Prod.fst := by
        rw [hpost, hkept, hoff]
        rfl
      rw [hframe, ← hdropped]
      simp [Elider.closeString, Elider.emitElided, he]
    rw [hclose]
    refine ⟨rfl, ?_, ?_⟩
    · simp [hscope, Scope.str, helides, hlen]
    · simp [Scope.str, helides]
  | passing hlen hv hp he =>
    have helides : c.elides xs = false := by simp [Scope.elides, hv]
    have hclose : Elider.closeString { s with pos := s.pos + 1 } = ({ s with
        pos := s.pos + 1
        inString := false
        pending := []
        expectingValue := false }, [quote]) := by
      simp [Elider.closeString, hp, he]
    rw [hclose]
    refine ⟨rfl, ?_, ?_⟩
    · simp [hscope, Scope.str, helides, hlen]
    · simp [Scope.str, helides]

/-- **A whole string**, fed byte by byte, is one step of the scope. -/
theorem feed_string {s : Elider} (h : s.inString = false) {xs : List UInt8} (hxs : Whole xs) :
    (s.feed (quote :: xs ++ [quote])).1.inString = false ∧
      (s.feed (quote :: xs ++ [quote])).1.toScope = (s.toScope.str xs).1 ∧
      (s.feed (quote :: xs ++ [quote])).2 = (s.toScope.str xs).2 := by
  rw [feed_append]
  simpa only [feed_cons, feed_nil, List.append_nil] using
    (feed_open h hxs.inside).close hxs.ends

/-! ## tokens -/

/-- A string with its quotes, or a byte between strings. -/
inductive Token
  | str (content : List UInt8)
  | byte (b : UInt8)
  deriving DecidableEq, Repr

namespace Token

/-- The bytes of a token. -/
def render : Token → List UInt8
  | .str xs => quote :: xs ++ [quote]
  | .byte b => [b]

/-- A token the scanner sees as one: a whole string, or a byte that opens none. -/
def Valid : Token → Prop
  | .str xs => Whole xs
  | .byte b => b ≠ quote

end Token

/-- The bytes of a sequence of tokens. -/
def renderTokens (ts : List Token) : List UInt8 := ts.flatMap Token.render

theorem renderTokens_cons (t : Token) (ts : List Token) :
    renderTokens (t :: ts) = t.render ++ renderTokens ts := List.flatMap_cons

theorem renderTokens_append (ts us : List Token) :
    renderTokens (ts ++ us) = renderTokens ts ++ renderTokens us := List.flatMap_append

theorem renderTokens_bytes (bs : List UInt8) : renderTokens (bs.map .byte) = bs := by
  simp [renderTokens, Token.render, List.flatMap_map]

theorem valid_bytes {bs : List UInt8} (h : quote ∉ bs) : ∀ t ∈ bs.map Token.byte, t.Valid := by
  intro t ht
  obtain ⟨b, hb, rfl⟩ := List.mem_map.mp ht
  exact fun heq => h (heq ▸ hb)

namespace Scope

/-- One token. -/
def token (s : Scope) : Token → Scope × List UInt8
  | .str xs => s.str xs
  | .byte b => ({ s with pos := s.pos + 1 }.punct b, [b])

/-- A sequence of tokens, and what is written for it. -/
def tokens (s : Scope) : List Token → Scope × List UInt8
  | [] => (s, [])
  | t :: ts =>
    let (s, out) := s.token t
    let (s, rest) := s.tokens ts
    (s, out ++ rest)

theorem tokens_cons (s : Scope) (t : Token) (ts : List Token) :
    s.tokens (t :: ts) =
      (((s.token t).1.tokens ts).1, (s.token t).2 ++ ((s.token t).1.tokens ts).2) := rfl

theorem tokens_append (s : Scope) (ts us : List Token) :
    s.tokens (ts ++ us) =
      (((s.tokens ts).1.tokens us).1, (s.tokens ts).2 ++ ((s.tokens ts).1.tokens us).2) := by
  induction ts generalizing s with
  | nil => simp [tokens]
  | cons t ts ih => simp only [List.cons_append, tokens_cons, ih, List.append_assoc]

theorem punct_frame (s : Scope) (b : UInt8) :
    (s.punct b).pos = s.pos ∧ (s.punct b).lineStart = s.lineStart ∧
      (s.punct b).policy = s.policy ∧ (s.punct b).removed = s.removed := by
  unfold punct openContainer closeContainer
  repeat' split
  all_goals simp

theorem token_frame (s : Scope) (t : Token) :
    (s.token t).1.pos = s.pos + t.render.length ∧ (s.token t).1.lineStart = s.lineStart ∧
      (s.token t).1.policy = s.policy := by
  cases t with
  | str xs => simp [token, str, Token.render, Nat.add_assoc]
  | byte b =>
    obtain ⟨hpos, hline, hpolicy, -⟩ := punct_frame { s with pos := s.pos + 1 } b
    exact ⟨hpos, hline, hpolicy⟩

/-- The position counts the bytes; the line and the policy stay. -/
theorem tokens_frame (s : Scope) (ts : List Token) :
    (s.tokens ts).1.pos = s.pos + (renderTokens ts).length ∧
      (s.tokens ts).1.lineStart = s.lineStart ∧ (s.tokens ts).1.policy = s.policy := by
  induction ts generalizing s with
  | nil => exact ⟨rfl, rfl, rfl⟩
  | cons t ts ih =>
    obtain ⟨hpos, hline, hpolicy⟩ := token_frame s t
    obtain ⟨hpos', hline', hpolicy'⟩ := ih (s.token t).1
    rw [tokens_cons]
    refine ⟨?_, hline'.trans hline, hpolicy'.trans hpolicy⟩
    rw [hpos', hpos, renderTokens_cons, List.length_append, Nat.add_assoc]

/-- Bytes between strings are written as they are. -/
theorem tokens_bytes (s : Scope) (bs : List UInt8) :
    (s.tokens (bs.map .byte)).2 = bs ∧ (s.tokens (bs.map .byte)).1.removed = s.removed := by
  induction bs generalizing s with
  | nil => exact ⟨rfl, rfl⟩
  | cons b bs ih =>
    obtain ⟨hout, hremoved⟩ := ih (s.token (.byte b)).1
    rw [List.map_cons, tokens_cons]
    refine ⟨by rw [hout]; rfl, hremoved.trans ?_⟩
    exact (punct_frame { s with pos := s.pos + 1 } b).2.2.2

end Scope

/-- **The filter refines the scope**: between strings it knows nothing else, and it
writes what the scope's steps say. -/
theorem feed_tokens {s : Elider} (h : s.inString = false) {ts : List Token}
    (hts : ∀ t ∈ ts, t.Valid) :
    (s.feed (renderTokens ts)).1.inString = false ∧
      (s.feed (renderTokens ts)).1.toScope = (s.toScope.tokens ts).1 ∧
      (s.feed (renderTokens ts)).2 = (s.toScope.tokens ts).2 := by
  induction ts generalizing s with
  | nil => exact ⟨h, rfl, rfl⟩
  | cons t ts ih =>
    have ht := hts t List.mem_cons_self
    have htoken : (s.feed t.render).1.inString = false ∧
        (s.feed t.render).1.toScope = (s.toScope.token t).1 ∧
        (s.feed t.render).2 = (s.toScope.token t).2 := by
      cases t with
      | str xs => exact feed_string h ht
      | byte b =>
        have hb : b ≠ quote := ht
        simp [Token.render, feed_cons, Elider.push, h, hb, Scope.token]
    obtain ⟨hin, hscope, hout⟩ := htoken
    obtain ⟨hin', hscope', hout'⟩ := ih hin fun t ht => hts t (List.mem_cons_of_mem _ ht)
    rw [hscope] at hscope' hout'
    rw [renderTokens_cons, feed_append, Scope.tokens_cons]
    exact ⟨hin', hscope', by rw [hout]; exact congrArg _ hout'⟩

/-- **Every line is a sequence of tokens and perhaps a string that is not closed.** -/
theorem exists_tokens (bs : List UInt8) :
    ∃ ts : List Token, (∀ t ∈ ts, t.Valid) ∧
      (bs = renderTokens ts ∨
        ∃ xs, Esc.plain.inside xs = true ∧ bs = renderTokens ts ++ quote :: xs) := by
  have hsnoc : ∀ ts t, renderTokens (ts ++ [t]) = renderTokens ts ++ t.render := by
    intro ts t
    simp [renderTokens]
  have hvalid : ∀ {ts : List Token} {t : Token}, (∀ t ∈ ts, t.Valid) → t.Valid →
      ∀ u ∈ ts ++ [t], u.Valid := by
    intro ts t hts ht u hu
    obtain hu | hu := List.mem_append.mp hu
    · exact hts u hu
    · exact List.mem_singleton.mp hu ▸ ht
  induction bs using List.reverseRecOn with
  | nil => exact ⟨[], by simp, .inl rfl⟩
  | append_singleton bs b ih =>
    obtain ⟨ts, hts, rfl | ⟨xs, hxs, rfl⟩⟩ := ih
    · by_cases hb : b = quote
      · exact ⟨ts, hts, .inr ⟨[], rfl, by rw [hb]⟩⟩
      · have ht : (Token.byte b).Valid := hb
        exact ⟨ts ++ [.byte b], hvalid hts ht, .inl (by rw [hsnoc]; rfl)⟩
    · cases hc : (Esc.plain.run xs).closes b with
      | true =>
        simp only [Esc.closes, Bool.and_eq_true, beq_iff_eq] at hc
        have ht : (Token.str xs).Valid := ⟨hxs, hc.1⟩
        refine ⟨ts ++ [.str xs], hvalid hts ht, .inl ?_⟩
        rw [hsnoc, hc.2]
        simp [Token.render]
      | false =>
        refine ⟨ts, hts, .inr ⟨xs ++ [b], ?_, by simp⟩⟩
        rw [Esc.inside_snoc, hxs, hc]
        rfl

/-! ## contents without escapes -/

/-- A content in which every byte is a unit. -/
def Plain (xs : List UInt8) : Prop := ∀ b ∈ xs, b ≠ backslash ∧ b ≠ quote

theorem Plain.whole {xs : List UInt8} (h : Plain xs) : Whole xs := by
  induction xs with
  | nil => exact .nil
  | cons b xs ih =>
    obtain ⟨hb, hq⟩ := h b List.mem_cons_self
    have hone : Whole [b] := by
      constructor
      · simp [Esc.inside, Esc.closes, hq]
      · simp [Esc.step, hb]
    exact (Lib.whole_append hone).mpr (ih fun a ha => h a (List.mem_cons_of_mem _ ha))

theorem Plain.walkFlags {xs : List UInt8} (h : Plain xs) :
    walkFlags 0 xs = List.replicate xs.length true := by
  induction xs with
  | nil => rfl
  | cons b xs ih =>
    obtain ⟨hb, -⟩ := h b List.mem_cons_self
    have hrest := ih fun a ha => h a (List.mem_cons_of_mem _ ha)
    simp [ClaudeReplay.walkFlags, Elider.walkStep, hb, hrest, List.replicate_succ]

theorem Plain.escFlags {xs : List UInt8} (h : Plain xs) :
    escFlags .plain xs = List.replicate xs.length true := by
  induction xs with
  | nil => rfl
  | cons b xs ih =>
    obtain ⟨hb, -⟩ := h b List.mem_cons_self
    have hrest := ih fun a ha => h a (List.mem_cons_of_mem _ ha)
    simp [ClaudeReplay.escFlags, Esc.step, hb, hrest, List.replicate_succ]

theorem Plain.unitFlags {xs : List UInt8} (h : Plain xs) :
    unitFlags xs = List.replicate xs.length true := by
  unfold ClaudeReplay.unitFlags
  generalize elideStringBytes + 1 = n
  have htake : Plain (xs.take n) := fun b hb => h b (List.mem_of_mem_take hb)
  have hdrop : Plain (xs.drop n) := fun b hb => h b (List.mem_of_mem_drop hb)
  have hlen : (xs.take n).length + (xs.drop n).length = xs.length := by
    rw [List.length_take, List.length_drop]
    omega
  rw [htake.walkFlags, htake.whole.ends, hdrop.escFlags, List.replicate_append_replicate, hlen]

/-- The cuts fall where the bounds say. -/
theorem Plain.cuts {xs : List UInt8} (h : Plain xs) (hlen : elideStringBytes < xs.length) :
    headCut xs = prefixKeep ∧ tailOverhang xs = 0 := by
  have hbound : prefixKeep + 1 < elideStringBytes := by decide
  constructor
  · have hmin : min (prefixKeep + 1) xs.length = prefixKeep + 1 := by omega
    rw [headCut, h.walkFlags, List.take_replicate, hmin]
    decide
  · rw [tailOverhang, h.unitFlags, List.drop_replicate, List.takeWhile_replicate]
    simp

end ClaudeReplay
