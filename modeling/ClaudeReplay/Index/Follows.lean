import ClaudeReplay.Index.Store

/-!
# ClaudeReplay.Index.Follows

The index follows the log. After every step the index file holds the entries of the log's
first records and of nothing else (`Level`), however far it lags; before a reply it is
caught up, so the reply is what an index made anew of the log would give
(`turnIndex_follows`).
-/

namespace ClaudeReplay.Index

open Lib (Value splitLines unlines splitLines_whole splitLines_start)

variable {serde : Serde}

/-! ## entries of lines -/

/-- A line of the log that holds a record. -/
structure GoodLine (serde : Serde) (l : List UInt8) : Prop where
  oneLine : newline ∉ l
  reads : (serde.value l).isSome = true
  single : oneRecord l = true

/-- The length of the log that holds these lines. -/
def span (ls : List (List UInt8)) : Nat := (unlines newline ls).length

@[simp] theorem span_nil : span [] = 0 := rfl

@[simp] theorem span_cons (l : List UInt8) (ls : List (List UInt8)) :
    span (l :: ls) = l.length + 1 + span ls := by
  simp only [span, Lib.unlines_cons, List.length_append, List.length_cons]
  omega

theorem span_append (ls ms : List (List UInt8)) : span (ls ++ ms) = span ls + span ms := by
  rw [span, Lib.unlines_append, List.length_append]
  rfl

/-- The entries of the lines from log byte `o` on. -/
def indexLines (serde : Serde) (o : Nat) : List (List UInt8) → List Entry
  | [] => []
  | l :: ls =>
    Entry.of ((serde.value l).getD .null) o l :: indexLines serde (o + l.length + 1) ls

theorem indexLines_append (o : Nat) (ls ms : List (List UInt8)) :
    indexLines serde o (ls ++ ms) = indexLines serde o ls ++ indexLines serde (o + span ls) ms := by
  induction ls generalizing o with
  | nil => rfl
  | cons l ls ih =>
    have hspan : o + l.length + 1 + span ls = o + span (l :: ls) := by
      rw [span_cons]
      omega
    rw [List.cons_append, indexLines, indexLines, ih, hspan]
    rfl

@[simp] theorem indexLines_length (o : Nat) (ls : List (List UInt8)) :
    (indexLines serde o ls).length = ls.length := by
  induction ls generalizing o with
  | nil => rfl
  | cons l ls ih => simp [indexLines, ih]

theorem indexLines_take (o n : Nat) (ls : List (List UInt8)) :
    (indexLines serde o ls).take n = indexLines serde o (ls.take n) := by
  induction ls generalizing o n with
  | nil => simp [indexLines]
  | cons l ls ih =>
    cases n with
    | zero => rfl
    | succ n => simp [indexLines, ih]

/-- The entry covers through the end of its line. -/
theorem stop_of (record : Value) (o : Nat) (l : List UInt8) :
    (Entry.of record o l).stop = o + l.length + 1 := by
  simp [Entry.stop]

/-- The entries cover no more than the lines. -/
theorem indexLines_stop {o : Nat} {ls : List (List UInt8)} {e : Entry}
    (h : e ∈ indexLines serde o ls) : o < e.stop ∧ e.stop ≤ o + span ls := by
  induction ls generalizing o with
  | nil => contradiction
  | cons l ls ih =>
    rw [span_cons]
    obtain rfl | h := List.mem_cons.mp h
    · rw [stop_of]
      omega
    · have := ih h
      omega

/-- The last of them covers them all. -/
theorem indexLines_last {o : Nat} {ls : List (List UInt8)} {e : Entry}
    (h : (indexLines serde o ls).getLast? = some e) : e.stop = o + span ls := by
  induction ls generalizing o with
  | nil => contradiction
  | cons l ls ih =>
    rw [span_cons]
    cases ls with
    | nil =>
      rw [indexLines, indexLines, List.getLast?_singleton] at h
      cases h
      rw [stop_of, span_nil]
      rfl
    | cons l' ls =>
      rw [indexLines, indexLines, List.getLast?_cons_cons] at h
      have := ih h
      omega

/-! ## a level index -/

/-- The text of an index file. -/
def sideText (serde : Serde) (es : List Entry) : List UInt8 :=
  unlines newline (es.map serde.line)

/-- The index file holds the entries of these lines, the first of the log. -/
structure Level (serde : Serde) (done : List (List UInt8)) (d : Disk) (ix : IndexFile) : Prop where
  text : d.side.getD [] = sideText serde (indexLines serde 0 done)
  index : ix = { lines := done.length, mark := span done, bytes := (d.side.getD []).length }

namespace IndexFile

theorem truncate_level (d : Disk) (ix : IndexFile) : Level serde [] (truncate d ix 0).1
    (truncate d ix 0).2 := by
  have hside : (truncate d ix 0).1.side.getD [] = [] := by
    cases hs : d.side <;> simp [truncate, hs, setLen]
  constructor
  · rw [hside]
    rfl
  · rw [hside]
    rfl

/-- Cutting back to what stood there first. -/
theorem setLen_left (xs ys : List UInt8) : setLen (xs ++ ys) xs.length = xs := by
  rw [setLen, List.take_left, List.length_append, Nat.sub_eq_zero_of_le (Nat.le_add_right _ _)]
  exact List.append_nil xs

/-- **Entries are appended in step.** -/
theorem write_level {done more : List (List UInt8)} {d : Disk} {ix : IndexFile}
    (h : Level serde done d ix) :
    (write serde d ix (indexLines serde (span done) more)).2 = true ∧
      Level serde (done ++ more) (write serde d ix (indexLines serde (span done) more)).1.1
        (write serde d ix (indexLines serde (span done) more)).1.2 ∧
      (write serde d ix (indexLines serde (span done) more)).1.1.log = d.log := by
  obtain ⟨htext, rfl⟩ := h
  cases more with
  | nil => exact ⟨rfl, ⟨by rwa [List.append_nil], by rw [List.append_nil]; rfl⟩, rfl⟩
  | cons l more =>
    have hne : indexLines serde (span done) (l :: more) ≠ [] := by simp [indexLines]
    have hlast := indexLines_last (List.getLast?_eq_getLast_of_ne_nil hne)
    unfold write
    rw [if_neg hne, if_pos rfl]
    refine ⟨rfl, ?_, rfl⟩
    constructor
    · show d.side.getD [] ++ _ = _
      rw [htext, indexLines_append, Nat.zero_add, sideText, sideText, List.map_append,
        Lib.unlines_append]
    · simp only [List.getLast?_eq_getLast_of_ne_nil hne, hlast, Option.map_some, Option.getD_some,
        List.length_append, indexLines_length, span_append]

/-- **Catching up**, with a batch that is not written yet. -/
theorem catchLines_level {done batch ls : List (List UInt8)} {d : Disk} {ix : IndexFile}
    (h : Level serde done d ix) (hls : ∀ l ∈ ls, GoodLine serde l) :
    Level serde (done ++ batch ++ ls)
        (catchLines serde d ix (span (done ++ batch)) (indexLines serde (span done) batch) ls).1
        (catchLines serde d ix (span (done ++ batch)) (indexLines serde (span done) batch) ls).2 ∧
      (catchLines serde d ix (span (done ++ batch)) (indexLines serde (span done) batch) ls).1.log =
        d.log := by
  induction ls generalizing done batch d ix with
  | nil =>
    rw [List.append_nil, catchLines]
    exact (write_level h).2
  | cons l ls ih =>
    obtain ⟨hl, hrest⟩ := List.forall_mem_cons.mp hls
    obtain ⟨record, hrecord⟩ := Option.isSome_iff_exists.mp hl.reads
    have hbatch : indexLines serde (span done) batch ++ [Entry.of record (span (done ++ batch)) l] =
        indexLines serde (span done) (batch ++ [l]) := by
      rw [indexLines_append, ← span_append, indexLines, indexLines, hrecord]
      rfl
    have hnext : span (done ++ batch) + l.length + 1 = span (done ++ (batch ++ [l])) := by
      rw [← List.append_assoc, span_append (done ++ batch), span_cons, span_nil]
      rfl
    have hlines : done ++ batch ++ l :: ls = done ++ (batch ++ [l]) ++ ls := by simp
    rw [catchLines, hrecord]
    simp only [hbatch, hnext, hlines]
    split
    · obtain ⟨hok, hlevel, hlog⟩ := @write_level _ _ (batch ++ [l]) _ _ h
      generalize write serde d ix (indexLines serde (span done) (batch ++ [l])) = r at hok hlevel hlog
      obtain ⟨⟨d', ix'⟩, ok⟩ := r
      cases hok
      have hmore := @ih _ [] _ _ hlevel hrest
      rw [List.append_nil] at hmore
      exact ⟨hmore.1, hmore.2.trans hlog⟩
    · exact ih h hrest

/-- **The index is caught up with the log.** -/
theorem catchUp_level {done ls : List (List UInt8)} {d : Disk} {ix : IndexFile}
    (h : Level serde done d ix) (hdone : done <+: ls) (hls : ∀ l ∈ ls, GoodLine serde l)
    (hlog : d.log = unlines newline ls) :
    Level serde ls (catchUp serde d ix (span ls)).1 (catchUp serde d ix (span ls)).2 ∧
      (catchUp serde d ix (span ls)).1.log = d.log := by
  obtain ⟨more, rfl⟩ := hdone
  have hmark : ix.mark = span done := by rw [h.index]
  rw [catchUp, hmark]
  split
  · next hle =>
    cases more with
    | nil => exact ⟨by rwa [List.append_nil], rfl⟩
    | cons l more =>
      rw [span_append, span_cons] at hle
      omega
  · have hmore : ∀ l ∈ more, GoodLine serde l := fun l hl => hls l (List.mem_append_right _ hl)
    have hrest : (d.log.drop (span done)).take (span (done ++ more) - span done) =
        unlines newline more := by
      have hdrop : (unlines newline done ++ unlines newline more).drop (span done) =
          unlines newline more := List.drop_left' rfl
      rw [hlog, Lib.unlines_append, hdrop, span_append, Nat.add_sub_cancel_left]
      exact List.take_length
    rw [hrest, splitLines_whole fun l hl => (hmore l hl).oneLine]
    have hcatch := @catchLines_level _ done [] more _ _ h hmore
    rwa [List.append_nil] at hcatch

/-! ## reading the file -/

/-- The lines of an index file are its entries. -/
theorem splitLines_sideText (hlaw : serde.Lawful) (es : List Entry) :
    splitLines newline (sideText serde es) = (es.map serde.line, []) :=
  splitLines_whole (List.forall_mem_map.mpr fun e _ => hlaw.oneLine e)

theorem mapM_entry (hlaw : serde.Lawful) (es : List Entry) :
    (es.map serde.line).mapM serde.entry = some (es.map serde.seen) := by
  induction es with
  | nil => rfl
  | cons e es ih => simp [hlaw.reads, ih]

theorem seen_stop (hlaw : serde.Lawful) (e : Entry) : (serde.seen e).stop = e.stop := by
  rw [Entry.stop, (hlaw.place e).1, (hlaw.place e).2]
  rfl

/-- The entries go from one end of the log to the other. -/
theorem chained (hlaw : serde.Lawful) (o : Nat) (ls : List (List UInt8)) :
    ((indexLines serde o ls).map serde.seen).foldlM
      (fun o e => if e.o = o then some e.stop else none) o = some (o + span ls) := by
  induction ls generalizing o with
  | nil => rfl
  | cons l ls ih =>
    rw [indexLines, List.map_cons, List.foldlM_cons, (hlaw.place _).1, of_o, if_pos rfl,
      seen_stop hlaw, stop_of]
    show List.foldlM _ (o + l.length + 1) _ = _
    rw [ih, span_cons]
    congr 1
    omega

/-- **A level file passes the check.** -/
theorem checked_level (hlaw : serde.Lawful) {ls : List (List UInt8)} {d : Disk} {ix : IndexFile}
    (h : Level serde ls d ix) :
    checked serde d ix (span ls) =
      d.side.map fun _ => (indexLines serde 0 ls).map serde.seen := by
  cases hside : d.side with
  | none => simp [checked, hside]
  | some bytes =>
    obtain ⟨htext, rfl⟩ := h
    rw [hside, Option.getD_some] at htext
    have hchain := chained hlaw 0 ls
    rw [Nat.zero_add] at hchain
    have hlines : ((indexLines serde 0 ls).map serde.line ++ [[]]).take ls.length =
        (indexLines serde 0 ls).map serde.line :=
      List.take_left' (by simp)
    simp only [checked, hside, Option.getD_some, Option.bind_some, htext,
      splitLines_sideText hlaw, hlines, mapM_entry hlaw, List.length_map, indexLines_length,
      hchain, and_self, if_true, Option.map_some]

/-- **Every entry of the log is read**, and the index is level with it then. -/
theorem entries_level (hlaw : serde.Lawful) {done ls : List (List UInt8)} {d : Disk}
    {ix : IndexFile} (h : Level serde done d ix) (hdone : done <+: ls)
    (hls : ∀ l ∈ ls, GoodLine serde l) (hlog : d.log = unlines newline ls) :
    (entries serde d ix (span ls)).2 = (indexLines serde 0 ls).map serde.seen ∧
      Level serde ls (entries serde d ix (span ls)).1.1 (entries serde d ix (span ls)).1.2 ∧
      (entries serde d ix (span ls)).1.1.log = d.log := by
  obtain ⟨hlevel, hsame⟩ := catchUp_level h hdone hls hlog
  have hchecked := checked_level hlaw hlevel
  unfold entries
  simp only [hchecked]
  cases hside : (catchUp serde d ix (span ls)).1.side with
  | some bytes => exact ⟨rfl, hlevel, hsame⟩
  | none =>
    -- there is no file yet, so there is no record
    have hnil : ls = [] := by
      have hlines := splitLines_sideText hlaw (indexLines serde 0 ls)
      rw [← hlevel.text, hside] at hlines
      have hlen := congrArg (fun r => r.1.length) hlines
      exact List.eq_nil_of_length_eq_zero (by simpa [splitLines] using hlen.symm)
    subst hnil
    have hempty : catchUp serde (truncate (catchUp serde d ix 0).1 (catchUp serde d ix 0).2 0).1
        (truncate (catchUp serde d ix 0).1 (catchUp serde d ix 0).2 0).2 0 =
        truncate (catchUp serde d ix 0).1 (catchUp serde d ix 0).2 0 := rfl
    have hnone : (truncate (catchUp serde d ix 0).1 (catchUp serde d ix 0).2 0).1.side = none := by
      simp only [span_nil] at hside
      simp [truncate, hside]
    have hlast := checked_level hlaw
      (@truncate_level serde (catchUp serde d ix 0).1 (catchUp serde d ix 0).2)
    rw [hnone] at hlast
    simp only [span_nil, Option.map_none] at hlast ⊢
    rw [hempty, hlast]
    exact ⟨rfl, truncate_level _ _, hsame⟩

/-! ## opening a file that was cut -/

/-- The lines of an index file that was cut are entries of the first lines. -/
theorem lines_of_cut (hlaw : serde.Lawful) {done : List (List UInt8)} {bytes : List UInt8}
    (h : bytes <+: sideText serde (indexLines serde 0 done)) :
    ∃ front, front <+: done ∧
      (splitLines newline bytes).1 = (indexLines serde 0 front).map serde.line := by
  have hlines := @splitLines_start _ _ newline _ _ h
  rw [splitLines_sideText hlaw] at hlines
  rw [List.prefix_iff_eq_take.mp hlines, ← List.map_take, indexLines_take]
  exact ⟨_, List.take_prefix _ _, rfl⟩

/-- **What is kept of a file that was cut** are entries of the log as it is found. -/
theorem open_level (hlaw : serde.Lawful) {done ls : List (List UInt8)} {d : Disk}
    (hdone : done <+: ls) (hls : ∀ l ∈ ls, GoodLine serde l)
    (hside : ∀ bytes, d.side = some bytes → bytes <+: sideText serde (indexLines serde 0 done))
    (hlog : d.log <+: unlines newline ls) :
    ∃ front, front <+: (splitLines newline d.log).1 ∧
      Level serde front (IndexFile.open serde d d.log.length).1
        (IndexFile.open serde d d.log.length).2 ∧
      (IndexFile.open serde d d.log.length).1.log = d.log := by
  unfold IndexFile.open
  cases hd : d.side with
  | none => exact ⟨[], List.nil_prefix, ⟨by rw [hd]; rfl, by rw [hd]; rfl⟩, rfl⟩
  | some bytes =>
    obtain ⟨front, hfront, hlines⟩ := lines_of_cut hlaw (hside bytes hd)
    obtain ⟨hbytes, -, -⟩ := Lib.unlines_splitLines newline bytes
    simp only
    split
    · next e he =>
      obtain ⟨hlast, hfits⟩ := Option.filter_eq_some_iff.mp he
      rw [Bool.and_eq_true, decide_eq_true_eq] at hfits
      rw [hlines, List.getLast?_map] at hlast
      obtain ⟨e₀, he₀, heq⟩ : ∃ e₀, (indexLines serde 0 front).getLast? = some e₀ ∧
          serde.seen e₀ = e := by
        cases hget : (indexLines serde 0 front).getLast? with
        | none =>
          rw [hget] at hlast
          contradiction
        | some e₀ =>
          rw [hget, Option.map_some, Option.bind_some, hlaw.reads] at hlast
          exact ⟨e₀, rfl, Option.some.inj hlast⟩
      have hstop : e.stop = span front := by
        rw [← heq, seen_stop hlaw, indexLines_last he₀, Nat.zero_add]
      refine ⟨front, ?_, ?_, ?_⟩
      · -- the lines end within the log, so they are lines of it
        have hwhole := splitLines_whole fun l hl =>
          (hls l ((hfront.trans hdone).subset hl)).oneLine
        have htext : unlines newline front <+: unlines newline ls := by
          obtain ⟨more, rfl⟩ := hfront.trans hdone
          rw [Lib.unlines_append]
          exact List.prefix_append _ _
        have hin := @splitLines_start _ _ newline _ _
          (List.prefix_of_prefix_length_le htext hlog (show span front ≤ _ from hstop ▸ hfits.1))
        rwa [hwhole] at hin
      · have hcomplete : unlines newline (splitLines newline bytes).1 =
            sideText serde (indexLines serde 0 front) := by rw [hlines, sideText]
        have hcount : (splitLines newline bytes).1.length = front.length := by
          rw [hlines, List.length_map, indexLines_length]
        have hpos : (sideText serde (indexLines serde 0 front)).length ≠ 0 := by
          intro hzero
          have hnone := splitLines_sideText hlaw (indexLines serde 0 front)
          rw [List.eq_nil_of_length_eq_zero hzero] at hnone
          have hnil : indexLines serde 0 front = [] :=
            List.map_eq_nil_iff.mp (congrArg Prod.fst hnone).symm
          rw [hnil] at he₀
          contradiction
        rw [hcomplete] at hbytes
        simp only [hcomplete, hcount, hstop]
        split
        · have hset : setLen bytes (sideText serde (indexLines serde 0 front)).length =
              sideText serde (indexLines serde 0 front) := by
            rw [← hbytes, setLen_left]
          constructor
          · simp only [truncate, hd, Option.map_some, Option.getD_some, hset]
          · simp only [truncate, hd, Option.map_some, Option.getD_some, hset, if_neg hpos]
        · next hfull =>
          have hsame : bytes = sideText serde (indexLines serde 0 front) := by
            have hlen := congrArg List.length hbytes
            rw [List.length_append] at hlen
            rw [← hbytes, List.eq_nil_of_length_eq_zero
              (l := (splitLines newline bytes).2) (by omega), List.append_nil]
          constructor
          · rw [hd, Option.getD_some, hsame]
          · rw [hd, Option.getD_some, ← hsame]
      · split <;> rfl
    · split
      · exact ⟨[], List.nil_prefix, truncate_level _ _, rfl⟩
      · next hne =>
        have hnil : bytes = [] := by simpa using hne
        exact ⟨[], List.nil_prefix, ⟨by rw [hd, hnil]; rfl, by rw [hd, hnil]; rfl⟩, rfl⟩

/-! ## cutting -/

theorem pieces_whole {ls : List (List UInt8)} (hls : ∀ l ∈ ls, newline ∉ l) :
    pieces (unlines newline ls) = ls := by
  simp [pieces, splitLines_whole hls]

/-- The lengths of whole lines. -/
theorem sum_lengths (ls : List (List UInt8)) :
    (ls.map fun l => l.length + 1).sum = (unlines newline ls).length := by
  induction ls with
  | nil => rfl
  | cons l ls ih =>
    rw [List.map_cons, List.sum_cons, ih, Lib.unlines_cons, List.length_append, List.length_cons]
    omega

/-- The lines that are kept are those of the records that stay. -/
theorem kept_lines (hlaw : serde.Lawful) (front : List (List UInt8)) (l : List UInt8)
    (more : List (List UInt8)) :
    ((((indexLines serde 0 (front ++ l :: more)).map serde.line).map serde.entry).takeWhile
      fun e => e.any (·.stop ≤ span front)) =
        (indexLines serde 0 front).map fun e => some (serde.seen e) := by
  have hentry : ∀ es : List Entry, (es.map serde.line).map serde.entry =
      es.map fun e => some (serde.seen e) := by
    intro es
    rw [List.map_map]
    exact List.map_congr_left fun e _ => hlaw.reads e
  have hall : ∀ x ∈ (indexLines serde 0 front).map fun e => some (serde.seen e),
      x.any (·.stop ≤ span front) = true := by
    intro x hx
    obtain ⟨e, he, rfl⟩ := List.mem_map.mp hx
    have hstop := (indexLines_stop he).2
    simp only [Option.any_some, seen_stop hlaw, decide_eq_true_eq]
    omega
  rw [hentry, indexLines_append, List.map_append, List.takeWhile_append_of_pos hall, indexLines,
    List.map_cons, List.takeWhile_cons_of_neg, List.append_nil]
  simp only [Option.any_some, seen_stop hlaw, stop_of, decide_eq_true_eq]
  omega

/-- **The index is cut with the log.** -/
theorem cutTo_level (hlaw : serde.Lawful) {done ls : List (List UInt8)} {d : Disk}
    {ix : IndexFile} (h : Level serde done d ix) (hdone : done <+: ls) (p : Nat) :
    ∃ front, front <+: ls.take p ∧
      Level serde front (cutTo serde d ix (span (ls.take p))).1
        (cutTo serde d ix (span (ls.take p))).2 ∧
      (cutTo serde d ix (span (ls.take p))).1.log = d.log := by
  have hmark : ix.mark = span done := by rw [h.index]
  unfold cutTo
  rw [hmark]
  have hfirst := List.take_prefix p ls
  obtain hle | ⟨more, hmore⟩ := List.prefix_or_prefix_of_prefix hdone hfirst
  · have hshort : span done ≤ span (ls.take p) := by
      obtain ⟨more, hmore⟩ := hle
      rw [← hmore, span_append]
      omega
    rw [if_pos hshort]
    exact ⟨done, hle, h, rfl⟩
  · cases more with
    | nil =>
      rw [List.append_nil] at hmore
      rw [if_pos (by rw [hmore])]
      exact ⟨done, ⟨[], by rw [List.append_nil, hmore]⟩, h, rfl⟩
    | cons l more =>
      have hlong : ¬span done ≤ span (ls.take p) := by
        rw [← hmore, span_append, span_cons]
        omega
      rw [if_neg hlong]
      split
      · exact ⟨[], List.nil_prefix, truncate_level _ _, rfl⟩
      · cases hside : d.side with
        | none => exact ⟨[], List.nil_prefix, truncate_level _ _, rfl⟩
        | some bytes =>
          have htext := h.text
          rw [hside, Option.getD_some] at htext
          have hlines : pieces bytes = (indexLines serde 0 done).map serde.line := by
            rw [htext]
            exact pieces_whole (List.forall_mem_map.mpr fun e _ => hlaw.oneLine e)
          refine ⟨ls.take p, List.prefix_refl _, ?_, rfl⟩
          rw [← hmore] at hlines htext
          generalize ls.take p = front at hlines htext ⊢
          have htake : (((indexLines serde 0 (front ++ l :: more)).map serde.line).take
              front.length).map (fun l => l.length + 1) =
              ((indexLines serde 0 front).map serde.line).map fun l => l.length + 1 := by
            rw [← List.map_take, indexLines_take, List.take_left]
          have hset : setLen bytes (sideText serde (indexLines serde 0 front)).length =
              sideText serde (indexLines serde 0 front) := by
            rw [htext, indexLines_append, sideText, List.map_append, Lib.unlines_append]
            exact setLen_left _ _
          simp only [hlines, kept_lines hlaw, List.length_map, indexLines_length, htake,
            sum_lengths]
          have hkept : (truncate d ix (sideText serde (indexLines serde 0 front)).length).1.side.getD
              [] = sideText serde (indexLines serde 0 front) := by
            simp only [truncate, hside, Option.map_some, Option.getD_some, hset]
          constructor
          · exact hkept
          · have hbytes : (truncate d ix (sideText serde (indexLines serde 0 front)).length).2.bytes =
                (sideText serde (indexLines serde 0 front)).length := by
              unfold truncate
              split
              · next hzero => exact hzero.symm
              · rfl
            have hlast : (((((indexLines serde 0 front).map fun e =>
                some (serde.seen e)).getLast?).bind id).map Entry.stop).getD 0 = span front := by
              rw [List.getLast?_map]
              cases hget : (indexLines serde 0 front).getLast? with
              | none =>
                have hnil : front.length = 0 := by
                  rw [← @indexLines_length serde 0 front,
                    List.getLast?_eq_none_iff.mp hget]
                  rfl
                rw [List.eq_nil_of_length_eq_zero hnil]
                rfl
              | some e =>
                simp only [Option.map_some, Option.bind_some, id, Option.getD_some,
                  seen_stop hlaw, indexLines_last hget, Nat.zero_add]
            rw [hlast]
            exact congrArg (IndexFile.mk _ _) (hbytes.trans (congrArg List.length hkept.symm))

end IndexFile

/-! ## the store -/

/-- The log holds records, and the index entries of the first of them. -/
structure Follows (serde : Serde) (s : RecordStore) (ls : List (List UInt8)) : Prop where
  good : ∀ l ∈ ls, GoodLine serde l
  log : s.disk.log = unlines newline ls
  len : s.len = span ls
  level : ∃ done, done <+: ls ∧ Level serde done s.disk s.index

theorem Level.withLog {done : List (List UInt8)} {d : Disk} {ix : IndexFile}
    (h : Level serde done d ix) (log : List UInt8) : Level serde done { d with log } ix :=
  ⟨h.text, h.index⟩

theorem Rendered.good (rec : Rendered serde) : GoodLine serde rec.text :=
  ⟨rec.oneLine, by rw [rec.reads]; rfl, rec.single⟩

/-- Records are walked over. -/
theorem takeWhile_good {ls : List (List UInt8)} (hls : ∀ l ∈ ls, GoodLine serde l) :
    ls.takeWhile oneRecord = ls := by
  have h := @List.takeWhile_append_of_pos _ oneRecord ls [] fun l hl => (hls l hl).single
  simpa using h

namespace Follows

variable {s : RecordStore} {ls : List (List UInt8)}

theorem start : Follows serde {} [] where
  good := fun _ hl => nomatch hl
  log := rfl
  len := rfl
  level := ⟨[], List.nil_prefix, rfl, rfl⟩

/-- A record is appended. -/
theorem put (h : Follows serde s ls) (rec : Rendered serde) :
    Follows serde (s.put serde rec.text) (ls ++ [rec.text]) := by
  obtain ⟨done, hdone, hlevel⟩ := h.level
  have hlevel' := hlevel.withLog (s.disk.log ++ (rec.text ++ [newline]))
  have hlog : s.disk.log ++ (rec.text ++ [newline]) = unlines newline (ls ++ [rec.text]) := by
    rw [h.log, Lib.unlines_append]
    simp
  have hmark : s.index.mark = span done := by rw [hlevel.index]
  have hgood : ∀ l ∈ ls ++ [rec.text], GoodLine serde l :=
    List.forall_mem_append.mpr ⟨h.good, List.forall_mem_singleton.mpr rec.good⟩
  have hlen : s.len + rec.text.length + 1 = span (ls ++ [rec.text]) := by
    rw [h.len, span_append, span_cons]
    rfl
  unfold RecordStore.put
  split
  · next hlevelled =>
    -- the index is level with the log
    have hsame : done = ls := by
      obtain ⟨more, rfl⟩ := hdone
      rw [h.len, hmark, span_append] at hlevelled
      cases more with
      | nil => rw [List.append_nil]
      | cons l more =>
        rw [span_cons] at hlevelled
        omega
    subst hsame
    simp only [rec.reads, IndexFile.push, if_pos hlevelled]
    have hentry : [Entry.of rec.value s.len rec.text] =
        indexLines serde (span done) [rec.text] := by
      rw [indexLines, indexLines, rec.reads, h.len]
      rfl
    obtain ⟨-, hwritten, hkeep⟩ := @IndexFile.write_level _ _ [rec.text] _ _ hlevel'
    rw [hentry]
    exact ⟨hgood, hkeep.trans hlog, hlen, _, List.prefix_refl _, hwritten⟩
  · exact ⟨hgood, hlog, hlen, done, hdone.trans (List.prefix_append _ _), hlevel'⟩

/-- The log is cut to records. -/
theorem cutTo (hlaw : serde.Lawful) (h : Follows serde s ls) (p : Nat) :
    Follows serde (s.cutTo serde (span (ls.take p))) (ls.take p) := by
  obtain ⟨done, hdone, hlevel⟩ := h.level
  have hset : setLen s.disk.log (span (ls.take p)) = unlines newline (ls.take p) := by
    rw [h.log, ← List.take_append_drop p ls, Lib.unlines_append, List.take_append_drop]
    exact IndexFile.setLen_left _ _
  have hlevel' := hlevel.withLog (setLen s.disk.log (span (ls.take p)))
  obtain ⟨front, hfront, hcut, hkeep⟩ := IndexFile.cutTo_level hlaw hlevel' hdone p
  exact ⟨fun l hl => h.good l (List.mem_of_mem_take hl), hkeep.trans hset, rfl, front, hfront, hcut⟩

theorem goodLines (h : Follows serde s ls) : RecordStore.goodLines s.disk.log = ls := by
  rw [RecordStore.goodLines, h.log, splitLines_whole fun l hl => (h.good l hl).oneLine]
  exact takeWhile_good h.good

/-- A log of whole records is walked to its end. -/
theorem load_eq (h : Follows serde s ls) : s.load serde = s := by
  have hlog : (unlines newline ls).length = s.disk.log.length := by rw [h.log]
  simp only [RecordStore.load, h.goodLines]
  rw [if_neg]
  rw [not_or, not_not, not_not]
  exact ⟨h.len.symm, hlog⟩

theorem adopt (hlaw : serde.Lawful) (h : Follows serde s ls) (n : Nat) :
    Follows serde (s.adopt serde n) (ls.take n) := by
  simp only [RecordStore.adopt, h.load_eq, h.goodLines]
  split
  · exact h.cutTo hlaw n
  · next hle =>
    rw [List.take_of_length_le (Nat.le_of_not_lt hle)]
    exact h

theorem reset (hlaw : serde.Lawful) (h : Follows serde s ls) : Follows serde (s.reset serde) [] :=
  h.cutTo hlaw 0

/-- The files are found cut. -/
theorem restart (hlaw : serde.Lawful) (h : Follows serde s ls) (log side : Nat) (lost : Bool) :
    ∃ front, front <+: ls ∧ Follows serde (s.step serde (.restart log side lost)) front := by
  obtain ⟨done, hdone, hlevel⟩ := h.level
  generalize hdisk : ({ log := s.disk.log.take log
                        side := if lost then none else s.disk.side.map (·.take side) } : Disk) = d
  have hlog : d.log <+: unlines newline ls := by
    rw [← hdisk, ← h.log]
    exact List.take_prefix _ _
  have hside : ∀ bytes, d.side = some bytes →
      bytes <+: sideText serde (indexLines serde 0 done) := by
    rw [← hdisk]
    intro bytes hbytes
    cases lost with
    | true => contradiction
    | false =>
      obtain ⟨whole, hwhole, rfl⟩ := Option.map_eq_some_iff.mp hbytes
      rw [← hlevel.text, hwhole]
      exact List.take_prefix _ _
  obtain ⟨front, hfront, hopened, hkeep⟩ := IndexFile.open_level hlaw hdone h.good hside hlog
  obtain ⟨hfound, -, -⟩ := Lib.unlines_splitLines newline d.log
  have hlines := @splitLines_start _ _ newline _ _ hlog
  rw [splitLines_whole fun l hl => (h.good l hl).oneLine] at hlines
  generalize hparts : (splitLines newline d.log).1 = found at hfront hlines hfound
  have hgood : ∀ l ∈ found, GoodLine serde l := fun l hl => h.good l (hlines.subset hl)
  have hwalk : RecordStore.goodLines d.log = found := by
    rw [RecordStore.goodLines, hparts]
    exact takeWhile_good hgood
  refine ⟨found, hlines, ?_⟩
  show Follows serde ((RecordStore.openAppend serde _).load serde) found
  rw [hdisk]
  simp only [RecordStore.load, RecordStore.openAppend, hkeep, hwalk]
  split
  · -- a torn record is cut
    have hset : setLen d.log (span found) = unlines newline found := by
      rw [← hfound]
      exact IndexFile.setLen_left _ _
    obtain ⟨front', hfront', hcut, hcutLog⟩ :=
      IndexFile.cutTo_level hlaw (hopened.withLog (setLen d.log (span found))) hfront found.length
    rw [List.take_length] at hfront' hcut hcutLog
    simp only [RecordStore.cutTo, hkeep]
    exact ⟨hgood, hcutLog.trans hset, rfl, front', hfront', hcut⟩
  · next hwhole =>
    rw [not_or, not_not] at hwhole
    have hall : d.log = unlines newline found := by
      have hlen := congrArg List.length hfound
      rw [List.length_append] at hlen
      rw [← hfound, List.eq_nil_of_length_eq_zero (l := (splitLines newline d.log).2) (by omega),
        List.append_nil]
    exact ⟨hgood, hkeep.trans hall, hwhole.1.symm, front, hfront, hopened⟩

/-- **The reply**, and the index it leaves. -/
theorem turnIndex (hlaw : serde.Lawful) (h : Follows serde s ls) (epoch upto : Nat) :
    (s.turnIndex serde epoch upto).2 =
        replyOf ((indexLines serde 0 ls).map serde.seen) (span ls) epoch upto ∧
      Follows serde (s.turnIndex serde epoch upto).1 ls := by
  obtain ⟨done, hdone, hlevel⟩ := h.level
  obtain ⟨hentries, hcaught, hkeep⟩ := IndexFile.entries_level hlaw hlevel hdone h.good h.log
  rw [RecordStore.turnIndex, h.len]
  constructor
  · rw [hentries]
  · exact ⟨h.good, hkeep.trans h.log, rfl, ls, List.prefix_refl _, hcaught⟩

/-- One step. -/
theorem step (hlaw : serde.Lawful) (h : Follows serde s ls) (e : Event serde) :
    ∃ ls', Follows serde (s.step serde e) ls' := by
  cases e with
  | put rec => exact ⟨_, h.put rec⟩
  | adopt n => exact ⟨_, h.adopt hlaw n⟩
  | reset => exact ⟨_, h.reset hlaw⟩
  | turnIndex epoch upto => exact ⟨_, (h.turnIndex hlaw epoch upto).2⟩
  | restart log side lost =>
    obtain ⟨front, -, hfront⟩ := h.restart hlaw log side lost
    exact ⟨front, hfront⟩

/-- **A run.** -/
theorem run (hlaw : serde.Lawful) (es : List (Event serde)) :
    ∃ ls, Follows serde (RecordStore.run serde es) ls := by
  have hfrom : ∀ (s : RecordStore) ls, Follows serde s ls →
      ∃ ls', Follows serde (es.foldl (RecordStore.step serde) s) ls' := by
    induction es with
    | nil => exact fun s ls h => ⟨ls, h⟩
    | cons e es ih =>
      intro s ls h
      obtain ⟨ls', h'⟩ := h.step hlaw e
      exact ih _ ls' h'
  exact hfrom {} [] start

end Follows

end ClaudeReplay.Index
