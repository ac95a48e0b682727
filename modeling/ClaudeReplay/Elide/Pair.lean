import ClaudeReplay.Elide.Span
import ClaudeReplay.Lib.JsonText

/-!
# ClaudeReplay.Elide.Pair

What an elided value is to a parser. The scanner cuts a content between units, and a
`\u` escape is a unit, so a cut can fall between the two escapes of a surrogate pair.
`content_frame_iff` says that nothing else goes wrong: what is handed on for an elided
value is a string exactly if neither of its cuts splits a pair. So it is with the marker
in it: `marker_read_back_iff` says when the reader of markers finds what was dropped.
-/

namespace ClaudeReplay

open Lib (quote backslash Esc Whole Decoder decode rposition)
open Lib.Utf8 (lossy valid)

/-- The content of a JSON string, as text. -/
def Content (xs : List UInt8) : Prop := (decode xs).isSome = true ∧ valid xs = true

/-- A cut here leaves a high surrogate before it, without its low one. -/
def cutsPair (xs : List UInt8) (n : Nat) : Bool :=
  match Decoder.plain.reach (xs.take n) with
  | some (.high _) => true
  | _ => false

/-- One of the two cuts of an elided content splits a pair. -/
def splitsPair (xs : List UInt8) : Bool := cutsPair xs (headCut xs) || cutsPair xs (tailCut xs)

/-! ## both cuts fall between units -/

/-- **The head is cut between units.** -/
theorem run_take_headCut {xs w : List UInt8} (h : decode xs = some w) :
    Esc.plain.run (xs.take (headCut xs)) = .plain := by
  have hflags : walkFlags 0 xs = escFlags .plain xs := walkFlags_of_run (s := .plain) h
  unfold headCut
  rw [hflags]
  cases hcut : rposition id ((escFlags .plain xs).take (prefixKeep + 1)) with
  | none => rfl
  | some i =>
    obtain ⟨pre, f, post, hsplit, hlen, hf, -⟩ := Lib.rposition_eq_some hcut
    obtain rfl : f = true := hf
    have hwhole := List.take_append_drop (prefixKeep + 1) (escFlags .plain xs)
    rw [hsplit, List.append_assoc, List.cons_append] at hwhole
    have hrun := run_take_of_flag hwhole.symm
    rw [hlen] at hrun
    exact hrun

/-- Where the decoder is at a cut between units: between units too, or between the two
halves of a pair. -/
theorem reach_take {xs : List UInt8} {n : Nat} (hxs : (decode xs).isSome = true)
    (hcut : Esc.plain.run (xs.take n) = .plain) :
    ∃ s : Decoder, Decoder.plain.reach (xs.take n) = some s ∧ s.esc = .plain ∧
      s.reach (xs.drop n) = some .plain := by
  have hreach := (Decoder.run_isSome .plain xs).mp hxs
  rw [← List.take_append_drop n xs, Decoder.reach_append] at hreach
  obtain ⟨s, hs, hrest⟩ := Option.bind_eq_some_iff.mp hreach
  exact ⟨s, hs, by rw [Decoder.reach_esc hs]; exact hcut, hrest⟩

/-- **What comes before a cut is a content if the cut splits no pair**, and so is what
comes after it. -/
theorem decode_cut {xs : List UInt8} {n : Nat} (hxs : (decode xs).isSome = true)
    (hcut : Esc.plain.run (xs.take n) = .plain) :
    (decode (xs.take n)).isSome = !cutsPair xs n ∧
      (decode (xs.drop n)).isSome = !cutsPair xs n := by
  obtain ⟨s, hs, hesc, hrest⟩ := reach_take hxs hcut
  have htake := Decoder.run_isSome .plain (xs.take n)
  have hdrop := Decoder.run_isSome .plain (xs.drop n)
  rw [hs, Option.some.injEq] at htake
  unfold cutsPair
  rw [hs]
  cases s with
  | plain => exact ⟨htake.mpr rfl, hdrop.mpr hrest⟩
  | high hi =>
    obtain ⟨v, hv⟩ := Option.isSome_iff_exists.mp ((Decoder.run_isSome _ _).mpr hrest)
    have hnone : decode (xs.drop n) = none := Decoder.run_high_decode hv
    constructor
    · exact Bool.eq_false_iff.mpr fun h => nomatch htake.mp h
    · rw [hnone]
      rfl
  | _ => simp [Decoder.esc] at hesc

/-! ## the value handed on -/

/-- The value of a frame parses when both its ends do. -/
theorem isSome_decode_frame (xs : List UInt8) (off : Nat) :
    (decode (lossy (frame off xs))).isSome =
      ((decode (xs.take (headCut xs))).isSome && (decode (xs.drop (tailCut xs))).isSome) := by
  have hpatch : ∀ ys, (decode (lossy ys)).isSome = (decode ys).isSome := by
    intro ys
    have hlossy := Decoder.run_isSome .plain (lossy ys)
    rw [Lib.reach_lossy, ← Decoder.run_isSome] at hlossy
    exact Bool.eq_iff_iff.mpr hlossy
  rw [← hpatch (xs.take _), ← hpatch (xs.drop _), decode_frame]
  cases decode (lossy (xs.take (headCut xs))) with
  | none => rfl
  | some p => cases decode (lossy (xs.drop (tailCut xs))) <;> rfl

/-- **What is handed on for an elided value is a string** exactly if no pair is split. -/
theorem content_frame_iff {xs : List UInt8} (hxs : (decode xs).isSome = true) (off : Nat) :
    Content (lossy (frame off xs)) ↔ splitsPair xs = false := by
  obtain ⟨w, hw⟩ := Option.isSome_iff_exists.mp hxs
  have hhead := (decode_cut hxs (run_take_headCut hw)).1
  have htail := (decode_cut hxs (run_take_tailCut hw)).2
  have hparts := isSome_decode_frame xs off
  rw [hhead, htail] at hparts
  unfold Content splitsPair
  rw [hparts]
  simp [Lib.Utf8.valid_lossy]

/-- **A frame is closed by the quote after it**, whatever it cuts. -/
theorem whole_frame {xs : List UInt8} (hxs : (decode xs).isSome = true) (off : Nat) :
    Whole (lossy (frame off xs)) := by
  obtain ⟨w, hw⟩ := Option.isSome_iff_exists.mp hxs
  obtain ⟨s, hs, hsesc, -⟩ := reach_take hxs (run_take_headCut hw)
  obtain ⟨t, -, htesc, hrest⟩ := reach_take hxs (run_take_tailCut hw)
  have hhead : Whole (lossy (xs.take (headCut xs))) := by
    rw [← Lib.reach_lossy] at hs
    exact Decoder.reach_whole hs rfl hsesc
  have htail : Whole (lossy (xs.drop (tailCut xs))) := by
    rw [← Lib.reach_lossy] at hrest
    exact Decoder.reach_whole hrest htesc rfl
  have hmarker : Whole (marker (off + headCut xs) (dropped xs)) := by
    have hdecode := @Lib.decode_plain_append (marker (off + headCut xs) (dropped xs))
      (fun b hb => (mem_marker hb).2) []
    rw [List.append_nil] at hdecode
    have hsome : (decode (marker (off + headCut xs) (dropped xs))).isSome = true := by
      rw [hdecode]
      rfl
    exact Decoder.reach_whole ((Decoder.run_isSome _ _).mp hsome) rfl rfl
  rw [lossy_frame, Lib.whole_append ((Lib.whole_append hhead).mpr hmarker)]
  exact htail

/-! ## the marker in it -/

/-- Both kept ends of an elided content are contents: neither has a broken escape, half a
pair or a bare control character in it. -/
def EndsRead (xs : List UInt8) : Prop :=
  (decode (xs.take (headCut xs))).isSome = true ∧ (decode (xs.drop (tailCut xs))).isSome = true

/-- **Every marker the scanner writes is read back, or exactly this is why not.** For
every line, every policy and every marker written (if the kept parts do not say the
opener themselves): the value that carries it parses and is recognised, with the offset
and the length that were dropped, if and only if both kept ends are contents and the
content's length, with the bytes by which the cuts keep clear of a unit, is within the
parser's bounds. Of a JSON string the ends are contents if no cut splits a pair. -/
theorem marker_read_back_iff {lineStart : Nat} {policy : Elision} {bs : List UInt8} {s : Elider}
    (hs : ((Elider.new lineStart policy).feed bs).1 = s) (hemits : s.emits = true)
    (hfit : lineStart + bs.length < 2 ^ 64) {xs : List UInt8}
    (hxs : bs.drop s.contentStart = xs) (hfree : OpenerFree xs) :
    (s.push quote).2 = [quote] ++ frame (lineStart + s.contentStart) xs ++ [quote] ∧
      ((∃ v m, decode (lossy (frame (lineStart + s.contentStart) xs)) = some v ∧
          parseMarker v = some m ∧ m.off = lineStart + s.contentStart + headCut xs ∧
          m.len = dropped xs) ↔
        EndsRead xs ∧ 65542 < xs.length + (prefixKeep - headCut xs) + tailOverhang xs ∧
          xs.length + (prefixKeep - headCut xs) + tailOverhang xs ≤ 67108998) ∧
      ((decode xs).isSome = true → (EndsRead xs ↔ splitsPair xs = false)) := by
  obtain ⟨xs', -, hxs', hsize, hlen, hout⟩ := emits_content hs hemits
  obtain rfl : xs' = xs := hxs'.symm.trans hxs
  have hends := isSome_decode_frame xs' (lineStart + s.contentStart)
  refine ⟨hout, ?_, fun hcontent => ?_⟩
  · have hreads : EndsRead xs' ↔
        ∃ v, decode (lossy (frame (lineStart + s.contentStart) xs')) = some v := by
      rw [← Option.isSome_iff_exists, hends, Bool.and_eq_true, EndsRead]
    rw [hreads, exists_and_right.symm]
    refine exists_congr fun v => ?_
    rw [exists_and_left]
    refine and_congr_right fun hv => ?_
    rw [decode_frame] at hv
    obtain ⟨p, hp, hrest⟩ := Option.bind_eq_some_iff.mp hv
    obtain ⟨q, hq, rfl⟩ := Option.map_eq_some_iff.mp hrest
    rw [parseMarker_frame hsize (by omega) hfree hp hq]
    constructor
    · rintro ⟨m, hm, -⟩
      by_contra hn
      simp [hn] at hm
    · intro h
      exact ⟨_, if_pos h, rfl, rfl⟩
  · obtain ⟨w, hw⟩ := Option.isSome_iff_exists.mp hcontent
    rw [EndsRead, (decode_cut hcontent (run_take_headCut hw)).1,
      (decode_cut hcontent (run_take_tailCut hw)).2, splitsPair]
    simp

/-- A value of 70000 letters is read back. -/
theorem marker_read_back_letters :
    ∃ v m, (((Elider.new 0 .aggressive).feed (quote :: letters 70000)).1.push quote).2 =
        [quote] ++ frame 1 (letters 70000) ++ [quote] ∧
      decode (lossy (frame 1 (letters 70000))) = some v ∧ parseMarker v = some m ∧
      m.off = 65 ∧ m.len = 69866 := by
  generalize hn : 70000 = n
  have hsize : elideStringBytes < n := by
    rw [← hn]
    decide
  obtain ⟨hemits, hstart⟩ := emits_letters hsize
  obtain ⟨htake, hdrop, hhead, htail, hdropped⟩ := letters_cut hsize
  have hlen : (letters n).length = n := List.length_replicate
  have hxs : (quote :: letters n).drop
      ((Elider.new 0 .aggressive).feed (quote :: letters n)).1.contentStart = letters n := by
    rw [hstart]
    rfl
  have hfit : 0 + (quote :: letters n).length < 2 ^ 64 := by
    rw [List.length_cons, hlen, ← hn]
    decide
  obtain ⟨hout, hiff, -⟩ := marker_read_back_iff rfl hemits hfit hxs (openerFree_letters hsize)
  have hreads : EndsRead (letters n) := by
    rw [EndsRead, htake, hdrop, decode_letters, decode_letters]
    exact ⟨rfl, rfl⟩
  obtain ⟨v, m, hv, hm, hoff, hl⟩ := hiff.mpr ⟨hreads, by rw [hlen, hhead, htail]; omega⟩
  rw [hstart] at hout hv hoff
  refine ⟨v, m, hout, hv, hm, by rw [hoff, hhead]; rfl, ?_⟩
  rw [hl, hdropped, ← hn, ringCap, postfixKeep, prefixKeep]

end ClaudeReplay
