import ClaudeReplay.Elide.Read
import ClaudeReplay.Lib.Cut
import ClaudeReplay.Lib.JsonString
import ClaudeReplay.Lib.Utf8
import Mathlib.Algebra.Group.Nat.Defs
import Mathlib.Algebra.GroupWithZero.Nat

/-!
# ClaudeReplay.Elide.Marker

`parse_marker`, the reader of the scanner's markers, and when it reads one back.

An elided line is made text (its broken UTF-8 patched) and parsed, and the parser is
handed the value of the frame: what the kept head says, the marker, and what the kept
tail says (`decode_frame`). The bounds it holds the dropped length against are derived
from the nominal head and tail, while the scanner cuts at unit boundaries around a
ring of `ringCap` bytes (`parseMarker_frame`).

A text is the list of its UTF-8 bytes.
-/

namespace ClaudeReplay

open Lib (quote Esc Whole Decoder Separator decode splitOnce splitAt? occurs)
open Lib.Utf8 (lossy)

/-! ## the parser -/

/-- The digits of a number, with what came before them; nothing past `u64`. -/
def parseDigits (acc : Nat) : List UInt8 → Option Nat
  | [] => some acc
  | b :: bs =>
    if 0x30 ≤ b && b ≤ 0x39 then
      let n := acc * 10 + (b.toNat - 0x30)
      if n < 2 ^ 64 then parseDigits n bs else none
    else none

/-- `str::parse::<u64>`. -/
def parseU64Bytes (bs : List UInt8) : Option Nat :=
  let digits := if bs.head? = some 0x2B then bs.tail else bs
  if digits = [] then none else parseDigits 0 digits

/-- A marker parsed back, with the kept head and tail. -/
structure MarkerSpan where
  off : Nat
  len : Nat
  prefixText : List UInt8
  postfixText : List UInt8
  deriving DecidableEq, Repr

/-- `parse_marker`. -/
def parseMarker (value : List UInt8) : Option MarkerSpan :=
  if elideStringBytes ≤ value.length then none
  else do
    let (before, rest) ← splitAt? markerOpener value
    let (body, after) ← splitOnce 0x3E rest
    let (off, len) ← splitOnce 0x2C body
    let off ← parseU64Bytes off
    let len ← parseU64Bytes len
    if occurs markerOpener after then none
    else if len ≤ elideStringBytes - prefixKeep - postfixKeep ∨ elideCeiling < len then none
    else some ⟨off, len, before, after⟩

/-! ## numbers -/

theorem parseDigits_append (acc : Nat) (xs ys : List UInt8) :
    parseDigits acc (xs ++ ys) = (parseDigits acc xs).bind (parseDigits · ys) := by
  induction xs generalizing acc with
  | nil => rfl
  | cons b xs ih =>
    simp only [List.cons_append, parseDigits]
    split
    · split
      · exact ih _
      · rfl
    · rfl

/-- The last digit. -/
theorem decimal_eq (n : Nat) :
    decimal n = (if n < 10 then [] else decimal (n / 10)) ++ [UInt8.ofNat (0x30 + n % 10)] := by
  have hdigit : ∀ d < 10, UInt8.ofNat (Nat.digitChar d).toNat = UInt8.ofNat (0x30 + d) := by
    decide
  unfold decimal
  rw [Nat.toDigits_eq_if (by decide)]
  split
  · next h => simp [hdigit n h, Nat.mod_eq_of_lt h]
  · simp [hdigit (n % 10) (Nat.mod_lt n (by decide))]

/-- **A printed number is read back.** -/
theorem parseDigits_decimal {n : Nat} (h : n < 2 ^ 64) : parseDigits 0 (decimal n) = some n := by
  induction n using Nat.strongRecOn with
  | ind n ih =>
    have hdigit : ∀ d < 10, (0x30 ≤ UInt8.ofNat (0x30 + d) && UInt8.ofNat (0x30 + d) ≤ 0x39) = true ∧
        (UInt8.ofNat (0x30 + d)).toNat - 0x30 = d := by decide
    obtain ⟨hrange, hval⟩ := hdigit (n % 10) (Nat.mod_lt n (by decide))
    rw [decimal_eq, parseDigits_append]
    split
    · next hn =>
      simp only [parseDigits, Option.bind_some, hrange, if_true, hval]
      rw [Nat.mod_eq_of_lt hn, Nat.zero_mul, Nat.zero_add, if_pos h]
    · next hn =>
      rw [ih (n / 10) (by omega) (by omega)]
      have hsum : n / 10 * 10 + n % 10 = n := by omega
      simp only [parseDigits, Option.bind_some, hrange, if_true, hval, hsum, if_pos h]

theorem mem_decimal {n : Nat} {b : UInt8} (h : b ∈ decimal n) :
    ∃ d < 10, b = UInt8.ofNat (0x30 + d) := by
  induction n using Nat.strongRecOn with
  | ind n ih =>
    rw [decimal_eq, List.mem_append, List.mem_singleton] at h
    obtain h | rfl := h
    · split at h
      · simp at h
      · exact ih (n / 10) (by omega) h
    · exact ⟨n % 10, Nat.mod_lt n (by decide), rfl⟩

/-- What holds of the ten digits holds of every byte of a number. -/
theorem forall_mem_decimal {P : UInt8 → Prop} (h : ∀ d < 10, P (UInt8.ofNat (0x30 + d)))
    {n : Nat} {b : UInt8} (hb : b ∈ decimal n) : P b := by
  obtain ⟨d, hd, rfl⟩ := mem_decimal hb
  exact h d hd

theorem decimal_ne_nil (n : Nat) : decimal n ≠ [] := by
  rw [decimal_eq]
  simp

theorem parseU64Bytes_decimal {n : Nat} (h : n < 2 ^ 64) : parseU64Bytes (decimal n) = some n := by
  have hsign : (decimal n).head? ≠ some 0x2B := by
    intro hhead
    exact forall_mem_decimal (P := (· ≠ 0x2B)) (by decide) (List.mem_of_mem_head? hhead) rfl
  simp [parseU64Bytes, hsign, decimal_ne_nil, parseDigits_decimal h]

theorem decimal_length {n : Nat} (h : n < 2 ^ 64) : (decimal n).length ≤ 20 := by
  unfold decimal
  rw [List.length_map, Nat.length_toDigits_le_iff (by decide) (by decide)]
  exact Nat.lt_of_lt_of_le h (by decide)

/-! ## the value of a frame -/

/-- A marker after its first byte. -/
def markerRest (off len : Nat) : List UInt8 :=
  markerOpener.tail ++ decimal off ++ [0x2C] ++ decimal len ++ [0x3E]

theorem marker_eq (off len : Nat) : marker off len = 0x3C :: markerRest off len := by
  simp [marker, markerRest, markerOpener]

/-- A marker is plain ASCII. -/
theorem mem_markerRest {off len : Nat} {b : UInt8} (h : b ∈ markerRest off len) :
    b < 0x80 ∧ Decoder.plain.step b = some (.plain, [b]) := by
  have hall : (markerOpener.tail ++ [0x2C, 0x3E]).all (fun b : UInt8 =>
      decide (b < 0x80 ∧ Decoder.plain.step b = some (Decoder.plain, [b]))) = true := by decide
  have hplain : ∀ b : UInt8, b ∈ markerOpener.tail ++ [0x2C, 0x3E] →
      b < 0x80 ∧ Decoder.plain.step b = some (.plain, [b]) :=
    fun b hb => of_decide_eq_true (List.all_eq_true.mp hall b hb)
  have hdigit : ∀ n, b ∈ decimal n → b < 0x80 ∧ Decoder.plain.step b = some (.plain, [b]) :=
    fun n hb => forall_mem_decimal
      (P := fun b => b < 0x80 ∧ Decoder.plain.step b = some (.plain, [b])) (by decide) hb
  simp only [markerRest, List.mem_append, List.mem_singleton] at h
  obtain (((h | h) | h) | h) | h := h
  · exact hplain b (List.mem_append_left _ h)
  · exact hdigit off h
  · exact hplain b (by simp [h])
  · exact hdigit len h
  · exact hplain b (by simp [h])

theorem mem_marker {off len : Nat} {b : UInt8} (h : b ∈ marker off len) :
    b < 0x80 ∧ Decoder.plain.step b = some (.plain, [b]) := by
  rw [marker_eq] at h
  obtain rfl | h := List.mem_cons.mp h
  · decide
  · exact mem_markerRest h

/-- A frame as text: its marker stands between the two ends. -/
theorem lossy_frame (off : Nat) (xs : List UInt8) :
    lossy (frame off xs) = lossy (xs.take (headCut xs)) ++ marker (off + headCut xs) (dropped xs) ++
      lossy (xs.drop (tailCut xs)) := by
  have htail : lossy (marker (off + headCut xs) (dropped xs) ++ xs.drop (tailCut xs)) =
      marker (off + headCut xs) (dropped xs) ++ lossy (xs.drop (tailCut xs)) :=
    Lib.Utf8.lossy_ascii_append (fun b hb => (mem_marker hb).1) _
  rw [marker_eq, List.cons_append, Lib.Utf8.lossy_cons_ascii (by decide), List.cons_append]
    at htail
  rw [frame, marker_eq, List.append_assoc, List.append_assoc, List.cons_append,
    Lib.Utf8.lossy_append_ascii _ (by decide), List.cons_append, (List.cons.inj htail).2]

/-- **The value of a frame** is what its head says, the marker, and what its tail says. -/
theorem decode_frame (off : Nat) (xs : List UInt8) :
    decode (lossy (frame off xs)) =
      (decode (lossy (xs.take (headCut xs)))).bind fun p =>
        (decode (lossy (xs.drop (tailCut xs)))).map fun q =>
          p ++ marker (off + headCut xs) (dropped xs) ++ q := by
  have hsep : Separator 0x3C := by decide
  rw [lossy_frame, marker_eq, List.append_assoc, List.cons_append, Lib.decode_append_cons hsep,
    Lib.decode_plain_append fun b hb => (mem_markerRest hb).2]
  simp [Option.map_map, Function.comp_def]

/-! ## reading back -/

/-- The lengths between which a marker is taken for one. -/
def lengthFits (len : Nat) : Bool :=
  decide (elideStringBytes - prefixKeep - postfixKeep < len) && decide (len ≤ elideCeiling)

/-- **A value with one marker in it** is recognised by the size of the marker's span. -/
theorem parseMarker_append {off len : Nat} {p q : List UInt8} (hoff : off < 2 ^ 64)
    (hlen : len < 2 ^ 64) (hp : occurs markerOpener p = false)
    (hq : occurs markerOpener q = false)
    (hsize : p.length + q.length + 50 < elideStringBytes) :
    parseMarker (p ++ marker off len ++ q) =
      if lengthFits len then some ⟨off, len, p, q⟩ else none := by
  have hopener : markerOpener = 0x3C :: markerOpener.tail := rfl
  have hcut : splitAt? markerOpener (p ++ marker off len ++ q) =
      some (p, decimal off ++ 0x2C :: decimal len ++ 0x3E :: q) := by
    have hvalue : p ++ marker off len ++ q =
        p ++ markerOpener ++ (decimal off ++ 0x2C :: decimal len ++ 0x3E :: q) := by
      simp [marker]
    rw [hvalue, hopener]
    exact Lib.splitAt?_append (by decide) (hopener ▸ hp) _
  have hnot : ∀ sep : UInt8, (∀ d < 10, UInt8.ofNat (0x30 + d) ≠ sep) → ∀ n, sep ∉ decimal n :=
    fun sep hsep n hmem => forall_mem_decimal (P := (· ≠ sep)) hsep hmem rfl
  have hbody : splitOnce 0x3E (decimal off ++ 0x2C :: decimal len ++ 0x3E :: q) =
      some (decimal off ++ 0x2C :: decimal len, q) := by
    refine Lib.splitOnce_append ?_ q
    simp only [List.mem_append, List.mem_cons, not_or]
    exact ⟨hnot _ (by decide) off, by decide, hnot _ (by decide) len⟩
  have hpair : splitOnce 0x2C (decimal off ++ 0x2C :: decimal len) =
      some (decimal off, decimal len) := Lib.splitOnce_append (hnot _ (by decide) off) _
  have hvalue : ¬elideStringBytes ≤ (p ++ marker off len ++ q).length := by
    have := decimal_length hoff
    have := decimal_length hlen
    simp only [marker, markerOpener, List.length_append, List.length_cons, List.length_nil]
    omega
  have hlow : lengthFits len = true ↔
      ¬(len ≤ elideStringBytes - prefixKeep - postfixKeep ∨ elideCeiling < len) := by
    simp only [lengthFits, Bool.and_eq_true, decide_eq_true_eq, not_or, Nat.not_le, Nat.not_lt]
  unfold parseMarker
  rw [if_neg hvalue]
  simp only [hcut, hbody, hpair, parseU64Bytes_decimal hoff, parseU64Bytes_decimal hlen, hq,
    Option.bind_eq_bind, Option.bind_some, Bool.false_eq_true, if_false]
  by_cases h : lengthFits len = true
  · rw [if_pos h, if_neg (hlow.mp h)]
  · rw [if_neg h, if_pos (not_not.mp fun hn => h (hlow.mpr hn))]

/-- The next quote makes the filter write a marker. -/
def Elider.emits (s : Elider) : Bool := s.inString && s.eliding && !s.escaped && s.escUnit == 0

/-- What the filter holds when it is about to write a marker: the content of an
oversized string, which is the end of what it was fed. -/
theorem emits_content {lineStart : Nat} {policy : Elision} {bs : List UInt8} {s : Elider}
    (hs : ((Elider.new lineStart policy).feed bs).1 = s) (h : s.emits = true) :
    ∃ xs, Whole xs ∧ bs.drop s.contentStart = xs ∧ elideStringBytes < xs.length ∧
      s.contentStart + xs.length = bs.length ∧
      (s.push quote).2 = [quote] ++ frame (lineStart + s.contentStart) xs ++ [quote] := by
  simp only [Elider.emits, Bool.and_eq_true, Bool.not_eq_true', beq_iff_eq] at h
  obtain ⟨⟨⟨hin, hel⟩, -⟩, hunit⟩ := h
  obtain ⟨ts, hts, rfl | ⟨xs, hxs, rfl⟩⟩ := exists_tokens bs
  · obtain ⟨hout, -⟩ := feed_tokens (s := Elider.new lineStart policy) rfl hts
    rw [hs, hin] at hout
    contradiction
  · obtain ⟨hout, hscope, -⟩ := feed_tokens (s := Elider.new lineStart policy) rfl hts
    obtain ⟨hpos, hline, -⟩ := Scope.tokens_frame (Elider.new lineStart policy).toScope ts
    have hfeed : (((Elider.new lineStart policy).feed (renderTokens ts)).1.feed
        (quote :: xs)).1 = s := by
      rw [feed_append] at hs
      exact hs
    generalize ((Elider.new lineStart policy).toScope.tokens ts).1 = c at hscope hpos hline
    obtain ⟨out, hopen⟩ : ∃ out, Holding c xs s out := ⟨_, hscope ▸ hfeed ▸ feed_open hout hxs⟩
    have hbase : c.pos = (renderTokens ts).length := by
      rw [hpos]
      exact Nat.zero_add _
    have hends : Esc.plain.run xs = .plain := by
      have hesc := hopen.escUnit
      rw [hunit] at hesc
      cases he : Esc.plain.run xs with
      | plain => rfl
      | slash => simp [he, unitOf] at hesc
      | hex n => simp [he, unitOf] at hesc
    obtain ⟨-, -, hclose⟩ := hopen.close hends
    have hstart : s.contentStart = (renderTokens ts ++ [quote]).length := by
      rw [hopen.start, hbase]
      simp
    have hdrop : renderTokens ts ++ quote :: xs = renderTokens ts ++ [quote] ++ xs := by simp
    cases hopen.phase with
    | buffering hlen hp he => simp [hel] at he
    | passing hlen hv hp he => simp [hel] at he
    | eliding hlen hv =>
      refine ⟨xs, ⟨hxs, hends⟩, ?_, hlen, ?_, ?_⟩
      · rw [hdrop, hstart, List.drop_left]
      · rw [hdrop, hstart, ← List.length_append]
      · have helides : c.elides xs = true := by simp [Scope.elides, hv, hlen]
        rw [List.nil_append] at hclose
        rw [hclose, Scope.str, helides, if_pos rfl, hline, hopen.start, Nat.add_assoc]
        rfl

/-- The parts of a content that an elided value keeps do not say the marker opener. -/
def OpenerFree (xs : List UInt8) : Prop :=
  (∀ p, decode (lossy (xs.take (headCut xs))) = some p → occurs markerOpener p = false) ∧
    ∀ q, decode (lossy (xs.drop (tailCut xs))) = some q → occurs markerOpener q = false

/-- **A frame is taken for one** exactly if the content's length, with the bytes by which
the cuts keep clear of a unit, is within the parser's bounds. -/
theorem parseMarker_frame {off : Nat} {xs p q : List UInt8} (hsize : elideStringBytes < xs.length)
    (hfit : off + xs.length < 2 ^ 64) (hfree : OpenerFree xs)
    (hp : decode (lossy (xs.take (headCut xs))) = some p)
    (hq : decode (lossy (xs.drop (tailCut xs))) = some q) :
    parseMarker (p ++ marker (off + headCut xs) (dropped xs) ++ q) =
      if 65542 < xs.length + (prefixKeep - headCut xs) + tailOverhang xs ∧
          xs.length + (prefixKeep - headCut xs) + tailOverhang xs ≤ 67108998 then
        some ⟨off + headCut xs, dropped xs, p, q⟩
      else none := by
  have hhead := headCut_le xs
  have hover := tailOverhang_le xs
  have hbounds : prefixKeep = 64 ∧ ringCap = 70 ∧ elideStringBytes = 65536 := ⟨rfl, rfl, rfl⟩
  have hplen : p.length ≤ 192 := by
    have := Lib.decode_length hp
    have := Lib.Utf8.lossy_length (xs.take (headCut xs))
    rw [List.length_take] at this
    omega
  have hqlen : q.length ≤ 210 := by
    have hkept : (xs.drop (tailCut xs)).length ≤ ringCap := by
      rw [List.length_drop, tailCut]
      omega
    have := Lib.decode_length hq
    have := Lib.Utf8.lossy_length (xs.drop (tailCut xs))
    omega
  have hdropped : dropped xs + 134 = xs.length + (prefixKeep - headCut xs) + tailOverhang xs := by
    unfold dropped tailCut
    omega
  have hfits : lengthFits (dropped xs) = true ↔
      65542 < xs.length + (prefixKeep - headCut xs) + tailOverhang xs ∧
        xs.length + (prefixKeep - headCut xs) + tailOverhang xs ≤ 67108998 := by
    rw [← hdropped]
    simp only [lengthFits, Bool.and_eq_true, decide_eq_true_eq]
    simp only [elideStringBytes, prefixKeep, postfixKeep, elideCeiling]
    omega
  simp only [← hfits]
  exact parseMarker_append (by omega) (by omega) (hfree.1 p hp) (hfree.2 q hq) (by omega)

/-! ## two values -/

/-- A value of one letter only. -/
def letters (n : Nat) : List UInt8 := List.replicate n 0x61

theorem mem_letters {n : Nat} {b : UInt8} (h : b ∈ letters n) : b = 0x61 :=
  List.eq_of_mem_replicate h

theorem plain_letters (n : Nat) : Plain (letters n) := by
  intro b hb
  rw [mem_letters hb]
  decide

theorem lossy_letters (n : Nat) : lossy (letters n) = letters n := by
  have : lossy (letters n ++ []) = letters n ++ lossy [] :=
    Lib.Utf8.lossy_ascii_append (fun b hb => by rw [mem_letters hb]; decide) []
  rwa [List.append_nil, show lossy [] = [] from rfl, List.append_nil] at this

theorem decode_letters (n : Nat) : decode (letters n) = some (letters n) := by
  have : decode (letters n ++ []) = (decode []).map (letters n ++ ·) :=
    Lib.decode_plain_append (fun b hb => by rw [mem_letters hb]; decide) []
  rw [List.append_nil] at this
  rw [this]
  simp [decode, Decoder.run]

/-- How a value of letters is cut. -/
theorem letters_cut {n : Nat} (h : elideStringBytes < n) :
    (letters n).take (headCut (letters n)) = letters prefixKeep ∧
      (letters n).drop (tailCut (letters n)) = letters ringCap ∧
      headCut (letters n) = prefixKeep ∧ tailOverhang (letters n) = 0 ∧
      dropped (letters n) = n - ringCap - prefixKeep := by
  have hlen : (letters n).length = n := List.length_replicate
  have hbounds : prefixKeep < elideStringBytes ∧ ringCap < elideStringBytes := by decide
  obtain ⟨hhead, htail⟩ := (plain_letters n).cuts (hlen.symm ▸ h)
  have hcut : tailCut (letters n) = n - ringCap := by rw [tailCut, htail, hlen, Nat.add_zero]
  refine ⟨?_, ?_, hhead, htail, by rw [dropped, hcut, hhead]⟩
  · rw [hhead, letters, List.take_replicate, letters]
    congr 1
    omega
  · rw [hcut, letters, List.drop_replicate, letters]
    congr 1
    omega

/-- What a value of letters becomes. -/
theorem decode_frame_letters {n : Nat} (h : elideStringBytes < n) (off : Nat) :
    decode (lossy (frame off (letters n))) = some (letters prefixKeep ++
      marker (off + prefixKeep) (n - ringCap - prefixKeep) ++ letters ringCap) := by
  obtain ⟨htake, hdrop, hhead, -, hdropped⟩ := letters_cut h
  rw [decode_frame, htake, hdrop, hhead, hdropped, lossy_letters, lossy_letters, decode_letters,
    decode_letters]
  rfl

/-- The frame of a value of letters is short. -/
theorem frame_letters_length {n : Nat} (h : elideStringBytes < n) (hn : n < 2 ^ 64) (off : Nat)
    (hoff : off + prefixKeep < 2 ^ 64) : (frame off (letters n)).length ≤ 500 := by
  obtain ⟨htake, hdrop, hhead, -, hd⟩ := letters_cut h
  have hcut := decimal_length hoff
  have hdropped := decimal_length (n := n - ringCap - prefixKeep) (by omega)
  have hletters : ∀ k, (letters k).length = k := fun k => List.length_replicate
  have hbounds : prefixKeep + ringCap ≤ 400 := by decide
  rw [frame, htake, hdrop, hhead, hd]
  simp only [marker, markerOpener, List.length_append, List.length_cons, List.length_nil, hletters]
  omega

theorem occurs_letters (n : Nat) : occurs markerOpener (letters n) = false :=
  Lib.occurs_of_notMem fun h => absurd (mem_letters h) (by decide)

theorem openerFree_letters {n : Nat} (h : elideStringBytes < n) : OpenerFree (letters n) := by
  obtain ⟨htake, hdrop, -⟩ := letters_cut h
  constructor
  · intro p hp
    rw [htake, lossy_letters, decode_letters] at hp
    exact Option.some.inj hp ▸ occurs_letters _
  · intro q hq
    rw [hdrop, lossy_letters, decode_letters] at hq
    exact Option.some.inj hq ▸ occurs_letters _

/-- The filter in an oversized value of letters. -/
theorem emits_letters {n : Nat} (h : elideStringBytes < n) :
    ((Elider.new 0 .aggressive).feed (quote :: letters n)).1.emits = true ∧
      ((Elider.new 0 .aggressive).feed (quote :: letters n)).1.contentStart = 1 := by
  have hwhole := (plain_letters n).whole
  have hlen : (letters n).length = n := List.length_replicate
  have hopen := feed_open (s := Elider.new 0 .aggressive) rfl hwhole.inside
  have hescaped := hopen.escaped
  have hunit := hopen.escUnit
  rw [hwhole.ends] at hescaped hunit
  have hel : ((Elider.new 0 .aggressive).feed (quote :: letters n)).1.eliding = true := by
    obtain ⟨out, hphase⟩ : ∃ out, Phase (Elider.new 0 .aggressive).toScope (letters n)
        ((Elider.new 0 .aggressive).feed (quote :: letters n)).1 out := ⟨_, hopen.phase⟩
    cases hphase with
    | buffering hsmall => omega
    | eliding _ _ _ he => exact he
    | passing _ hv => simp [Elider.new, Scope.new, Scope.policyAllows] at hv
  refine ⟨?_, hopen.start⟩
  simp [Elider.emits, hopen.inString, hel, hescaped, hunit, escapedOf, unitOf]

theorem value_tokens {xs rest : List UInt8} (hxs : Whole xs) (hrest : quote ∉ rest) :
    quote :: xs ++ quote :: rest = renderTokens (.str xs :: rest.map .byte) ∧
      ∀ t ∈ Token.str xs :: rest.map .byte, t.Valid := by
  constructor
  · rw [renderTokens_cons, renderTokens_bytes]
    simp [Token.render]
  · exact List.forall_mem_cons.mpr ⟨hxs, valid_bytes hrest⟩

/-- What becomes of a line that is one oversized string, and bytes after it. -/
theorem lineOut_value {xs rest : List UInt8} (hxs : Whole xs) (hsize : elideStringBytes < xs.length)
    (hrest : quote ∉ rest) (hlong : scanThreshold < xs.length + rest.length) :
    lineOut 0 .aggressive (quote :: xs ++ quote :: rest) =
        quote :: frame 1 xs ++ quote :: rest ∧
      lineElided 0 .aggressive (quote :: xs ++ quote :: rest) = dropped xs := by
  obtain ⟨hline, hvalid⟩ := value_tokens hxs hrest
  have hover : ¬(quote :: xs ++ quote :: rest).length ≤ scanThreshold := by
    simp only [List.length_append, List.length_cons]
    omega
  have helides : (Scope.new 0 .aggressive).elides xs = true := by
    simp [Scope.elides, Scope.new, Scope.policyAllows, hsize]
  obtain ⟨-, hscope, hout⟩ := feed_tokens (s := Elider.new 0 .aggressive) rfl hvalid
  obtain ⟨hbytes, hremoved⟩ := ((Scope.new 0 .aggressive).str xs).1.tokens_bytes rest
  have hnew : (Elider.new 0 .aggressive).toScope = Scope.new 0 .aggressive := rfl
  rw [hnew, Scope.tokens_cons, Scope.token] at hscope hout
  rw [lineOut, lineElided, if_neg hover, if_neg hover, hline, scanned, hout]
  constructor
  · rw [hbytes, Scope.str, helides]
    simp [Scope.new]
  · rw [hscope, hremoved, Scope.str, helides]
    simp [Scope.new]

theorem value_line {n : Nat} {blanks : List UInt8} (hblank : ∀ b ∈ blanks, b = 0x20) :
    quote ∉ blanks ++ [newline] ∧ newline ∉ quote :: letters n ++ quote :: blanks := by
  constructor
  · intro hmem
    obtain hmem | hmem := List.mem_append.mp hmem
    · exact absurd (hblank _ hmem) (by decide)
    · exact absurd (List.mem_singleton.mp hmem) (by decide)
  · intro hmem
    obtain hmem | hmem := List.mem_append.mp hmem
    · obtain hmem | hmem := List.mem_cons.mp hmem
      · exact absurd hmem (by decide)
      · exact absurd (mem_letters hmem) (by decide)
    · obtain hmem | hmem := List.mem_cons.mp hmem
      · exact absurd hmem (by decide)
      · exact absurd (hblank _ hmem) (by decide)

/-- A line that is a value of letters, with blanks after it. -/
theorem letters_line {n : Nat} {blanks : List UInt8} (hsize : elideStringBytes < n)
    (hblank : ∀ b ∈ blanks, b = 0x20) (hlong : scanThreshold ≤ blanks.length)
    (hfits : n + blanks.length + 1000 ≤ elideCeiling) :
    ∃ bufs, readLineElided 0 .aggressive .init
        [quote :: letters n ++ quote :: blanks ++ [newline]] =
      (.complete (n + blanks.length + 3) (n - ringCap - prefixKeep) false,
        quote :: frame 1 (letters n) ++ quote :: blanks ++ [newline], bufs) := by
  have hlen : (letters n).length = n := List.length_replicate
  obtain ⟨-, -, -, -, hdropped⟩ := letters_cut hsize
  obtain ⟨hrest, hnewline⟩ := value_line (n := n) hblank
  have hassoc : ∀ ys, quote :: ys ++ quote :: blanks ++ [newline] =
      quote :: ys ++ quote :: (blanks ++ [newline]) := by simp
  obtain ⟨hout, helided⟩ := lineOut_value (plain_letters n).whole (hlen.symm ▸ hsize) hrest
    (by rw [hlen, List.length_append]; omega)
  have hceiling : (lineOut 0 .aggressive
      (quote :: letters n ++ quote :: blanks ++ [newline])).length ≤ elideCeiling := by
    have hbound : elideCeiling < 2 ^ 64 := by decide
    have hframe := frame_letters_length hsize (by omega) 1 (by decide)
    rw [hassoc, hout]
    simp only [List.length_append, List.length_cons, List.length_nil]
    omega
  have htotal : (quote :: letters n ++ quote :: blanks).length + 1 = n + blanks.length + 3 := by
    rw [List.length_append, List.length_cons, List.length_cons, hlen]
    omega
  obtain ⟨bufs, -, ⟨-, hread⟩ | ⟨hskip, -⟩⟩ := readLine_eq 0 .aggressive
    hnewline List.flatten_singleton
  · refine ⟨bufs, ?_⟩
    rw [hread, hassoc, hassoc, helided, hdropped, htotal, hout]
  · omega

/-- The marker of a small value of letters is taken for text. -/
theorem parseMarker_letters {n : Nat} (h : elideStringBytes < n) (hn : n < 2 ^ 64)
    (hsmall : n - ringCap - prefixKeep ≤ elideStringBytes - prefixKeep - postfixKeep) :
    ∃ v, decode (lossy (frame 1 (letters n))) = some v ∧ parseMarker v = none := by
  have hbound : ¬lengthFits (n - ringCap - prefixKeep) = true := by
    simp only [lengthFits, Bool.and_eq_true, decide_eq_true_eq, not_and_or]
    omega
  refine ⟨_, decode_frame_letters h 1, ?_⟩
  rw [parseMarker_append (by decide) (by omega) (occurs_letters _) (occurs_letters _)]
  · exact if_neg hbound
  · simp only [letters, List.length_replicate]
    decide

/-- **A marker that is not read back.** A value of 65537 letters is elided, and the
reader takes its marker for the value's own text. -/
theorem small_marker_dismissed :
    ∃ v, (readLineElided 0 .aggressive .init
        [quote :: letters 65537 ++ quote :: List.replicate scanThreshold 0x20 ++ [newline]]).1 =
        .complete 327684 65403 false ∧
      (readLineElided 0 .aggressive .init
        [quote :: letters 65537 ++ quote :: List.replicate scanThreshold 0x20 ++ [newline]]).2.1 =
        quote :: frame 1 (letters 65537) ++ quote :: List.replicate scanThreshold 0x20 ++
          [newline] ∧
      decode (letters 65537) = some (letters 65537) ∧
      occurs markerOpener (letters 65537) = false ∧
      decode (lossy (frame 1 (letters 65537))) = some v ∧ parseMarker v = none := by
  have hcount : (List.replicate scanThreshold (0x20 : UInt8)).length = scanThreshold :=
    List.length_replicate
  obtain ⟨bufs, hread⟩ := letters_line (n := 65537) (by decide)
    (fun b hb => List.eq_of_mem_replicate hb) hcount.ge (by rw [hcount]; decide)
  obtain ⟨v, hv, hdismissed⟩ := parseMarker_letters (n := 65537) (by decide) (by decide)
    (by decide)
  rw [hread, hcount]
  exact ⟨v, rfl, rfl, decode_letters _, occurs_letters _, hv, hdismissed⟩

end ClaudeReplay
