import ClaudeReplay.Index.Follows

/-!
# ClaudeReplay.Index.Reply

The reply of the index. After any run it is what an index made of the log alone replies
(`turnIndex_follows`): what is gathered comes from the records below the boundary, and
each turn that opens there is listed once, with the span it has in the whole log, which
may end past the boundary (`RightTurns`).
-/

namespace ClaudeReplay.Index

open Lib (Value splitLines unlines)

variable {serde : Serde}

/-! ## turns -/

/-- The record opens a turn. -/
def opensTurn (record : Value) : Bool :=
  turnKinds.contains (((record.get? "kind").bind Value.asStr).getD "")

theorem of_turn (record : Value) (o : Nat) (bytes : List UInt8) :
    (Entry.of record o bytes).turn.isSome = opensTurn record := by
  unfold Entry.of
  simp only [(foldl_visit (nested record) _).2.2.2]
  unfold opensTurn
  split
  · next hopens => exact hopens.symm
  · next hopens =>
    rw [Bool.not_eq_true] at hopens
    exact hopens.symm

/-- The line opens a turn. -/
def lineOpens (serde : Serde) (l : List UInt8) : Bool :=
  opensTurn ((serde.value l).getD .null)

/-- The rows list the turns of these lines that open below the boundary. -/
structure RightTurns (serde : Serde) (ls : List (List UInt8)) (upto : Nat)
    (rows : List TurnRow) : Prop where
  /-- every turn once, in order -/
  each : rows.map TurnRow.r =
    (List.range ls.length).filter fun i => i < upto && ls[i]?.any (lineOpens serde)
  /-- from the byte its record starts at -/
  first : ∀ row ∈ rows, row.o = span (ls.take row.r)
  /-- to where the next turn opens, or to the end of the log -/
  last : ∀ row ∈ rows, row.r ≤ row.last ∧ row.stop = span (ls.take (row.last + 1)) ∧
    (row.last + 1 = ls.length ∨ ls[row.last + 1]?.any (lineOpens serde) = true) ∧
    ∀ i, row.r < i → i ≤ row.last → ls[i]?.any (lineOpens serde) = false

/-- The entry of a line. -/
theorem indexLines_getElem? (o : Nat) (ls : List (List UInt8)) (i : Nat) :
    (indexLines serde o ls)[i]? =
      ls[i]?.map fun l => Entry.of ((serde.value l).getD .null) (o + span (ls.take i)) l := by
  induction ls generalizing o i with
  | nil => rfl
  | cons l ls ih =>
    cases i with
    | zero => rfl
    | succ i =>
      rw [indexLines, List.getElem?_cons_succ, List.getElem?_cons_succ, ih, List.take_succ_cons,
        span_cons, ← Nat.add_assoc, ← Nat.add_assoc]

section

variable (hlaw : serde.Lawful) (ls : List (List UInt8))
include hlaw

theorem seen_opens (i : Nat) :
    ((((indexLines serde 0 ls).map serde.seen)[i]?).bind Entry.turn).isSome =
      ls[i]?.any (lineOpens serde) := by
  rw [List.getElem?_map, indexLines_getElem?]
  cases ls[i]? with
  | none => rfl
  | some l => exact (hlaw.turn _).trans (of_turn _ _ _)

theorem seen_place {i : Nat} (hi : i < ls.length) :
    (((indexLines serde 0 ls).map serde.seen)[i]?.map Entry.o).getD 0 = span (ls.take i) := by
  rw [List.getElem?_map, indexLines_getElem?, List.getElem?_eq_getElem hi]
  simp only [Option.map_some, Option.getD_some, (hlaw.place _).1, of_o, Nat.zero_add]

theorem opens_eq : opens ((indexLines serde 0 ls).map serde.seen) =
    (List.range ls.length).filter fun i => ls[i]?.any (lineOpens serde) := by
  rw [opens, List.length_map, indexLines_length]
  exact congrArg (List.filter · _) (funext (seen_opens hlaw ls))

end

/-- In an increasing list the next one is the least of those that are greater. -/
theorem mem_withNext {xs : List Nat} (hxs : xs.Pairwise (· < ·)) {r : Nat} {next : Option Nat}
    (h : (r, next) ∈ withNext xs) :
    r ∈ xs ∧ (∀ n, next = some n → n ∈ xs ∧ r < n ∧ ∀ x ∈ xs, r < x → n ≤ x) ∧
      (next = none → ∀ x ∈ xs, x ≤ r) := by
  induction xs with
  | nil => contradiction
  | cons y ys ih =>
    rw [List.pairwise_cons] at hxs
    obtain heq | h := List.mem_cons.mp h
    · cases heq
      refine ⟨List.mem_cons_self, ?_, ?_⟩
      · intro n hn
        cases ys with
        | nil => contradiction
        | cons z zs =>
          cases hn
          refine ⟨by simp, hxs.1 _ List.mem_cons_self, ?_⟩
          intro x hx hlt
          obtain rfl | hx := List.mem_cons.mp hx
          · omega
          · obtain rfl | hx := List.mem_cons.mp hx
            · exact Nat.le_refl _
            · exact Nat.le_of_lt ((List.pairwise_cons.mp hxs.2).1 x hx)
      · intro hnone x hx
        cases ys with
        | nil =>
          obtain rfl := List.mem_singleton.mp hx
          exact Nat.le_refl _
        | cons z zs => contradiction
    · obtain ⟨hr, hsome, hnone⟩ := ih hxs.2 h
      refine ⟨List.mem_cons_of_mem _ hr, ?_, ?_⟩
      · intro n hn
        obtain ⟨hmem, hlt, hleast⟩ := hsome n hn
        refine ⟨List.mem_cons_of_mem _ hmem, hlt, ?_⟩
        intro x hx hrx
        obtain rfl | hx := List.mem_cons.mp hx
        · exact absurd (hxs.1 r hr) (by omega)
        · exact hleast x hx hrx
      · intro hn x hx
        obtain rfl | hx := List.mem_cons.mp hx
        · exact Nat.le_of_lt (hxs.1 r hr)
        · exact hnone hn x hx

/-- Those below a bound come first in an increasing list. -/
theorem takeWhile_withNext {xs : List Nat} (hxs : xs.Pairwise (· < ·)) (u : Nat) :
    ((withNext xs).takeWhile fun p => p.1 < u).map Prod.fst = xs.filter (· < u) := by
  induction xs with
  | nil => rfl
  | cons x xs ih =>
    rw [List.pairwise_cons] at hxs
    rw [withNext, List.takeWhile_cons, List.filter_cons]
    split
    · rw [List.map_cons, ih hxs.2]
    · next hx =>
      have hall : ∀ y ∈ xs, ¬decide (y < u) = true := by
        intro y hy hlt
        have := hxs.1 y hy
        simp only [decide_eq_true_eq] at hx hlt
        omega
      rw [List.filter_eq_nil_iff.mpr hall]
      rfl

/-- **The rows of a reply.** -/
theorem turnRows_right (hlaw : serde.Lawful) (ls : List (List UInt8)) (upto : Nat) :
    RightTurns serde ls upto (turnRows ((indexLines serde 0 ls).map serde.seen) (span ls)
      (min upto ls.length)) := by
  have hsorted : (opens ((indexLines serde 0 ls).map serde.seen)).Pairwise (· < ·) :=
    List.pairwise_lt_range.filter _
  have hopens : ∀ i, i ∈ opens ((indexLines serde 0 ls).map serde.seen) ↔
      i < ls.length ∧ ls[i]?.any (lineOpens serde) = true := by
    intro i
    rw [opens_eq hlaw, List.mem_filter, List.mem_range]
  have hrow : ∀ row ∈ turnRows ((indexLines serde 0 ls).map serde.seen) (span ls)
      (min upto ls.length), ∃ next, (row.r, next) ∈
        withNext (opens ((indexLines serde 0 ls).map serde.seen)) ∧
        row = turnRow ((indexLines serde 0 ls).map serde.seen) (span ls) row.r next := by
    intro row hmem
    obtain ⟨⟨r, next⟩, hp, rfl⟩ := List.mem_map.mp hmem
    have hfirst := List.takeWhile_prefix _ |>.subset hp
    exact ⟨next, hfirst, rfl⟩
  constructor
  · have hmap : (turnRows ((indexLines serde 0 ls).map serde.seen) (span ls)
        (min upto ls.length)).map TurnRow.r =
        ((withNext (opens ((indexLines serde 0 ls).map serde.seen))).takeWhile
          fun p => p.1 < min upto ls.length).map Prod.fst := by
      rw [turnRows, List.map_map]
      rfl
    rw [hmap, takeWhile_withNext hsorted, opens_eq hlaw, List.filter_filter]
    refine List.filter_congr fun i hi => ?_
    have hlt := List.mem_range.mp hi
    have hbound : decide (i < min upto ls.length) = decide (i < upto) := by
      rw [decide_eq_decide]
      omega
    rw [hbound]
  · intro row hmem
    obtain ⟨next, hnext, heq⟩ := hrow row hmem
    have hr := (hopens _).mp (mem_withNext hsorted hnext).1
    rw [heq]
    exact seen_place hlaw ls hr.1
  · intro row hmem
    obtain ⟨next, hnext, heq⟩ := hrow row hmem
    obtain ⟨hr, hsome, hnone⟩ := mem_withNext hsorted hnext
    rw [hopens] at hr
    have hbetween : ∀ i, row.r < i → (∀ n, next = some n → i < n) → i < ls.length →
        ls[i]?.any (lineOpens serde) = false := by
      intro i hlt hbefore hi
      rw [← Bool.not_eq_true]
      intro hany
      have hmem := (hopens i).mpr ⟨hi, hany⟩
      cases next with
      | none =>
        have := hnone rfl i hmem
        omega
      | some n =>
        have hle := (hsome n rfl).2.2 i hmem hlt
        have := hbefore n rfl
        omega
    cases next with
    | none =>
      have hlast : row.last = ls.length - 1 := by
        rw [heq]
        simp [turnRow]
      have hstop : row.stop = span ls := by rw [heq]; rfl
      refine ⟨by omega, ?_, .inl (by omega), ?_⟩
      · rw [hstop, List.take_of_length_le (by omega)]
      · intro i hlt hle
        exact hbetween i hlt (fun n hn => nomatch hn) (by omega)
    | some n =>
      obtain ⟨hn, hrn, -⟩ := hsome n rfl
      rw [hopens] at hn
      have hlast : row.last + 1 = n := by
        rw [heq]
        show n - 1 + 1 = n
        omega
      have hstop : row.stop = span (ls.take n) := by
        rw [heq]
        exact seen_place hlaw ls hn.1
      refine ⟨by omega, by rw [hlast, hstop], .inr (by rw [hlast]; exact hn.2), ?_⟩
      intro i hlt hle
      refine hbetween i hlt ?_ (by omega)
      intro m hm
      cases hm
      omega

/-! ## a log of two records -/

def ask : List UInt8 := "\x7b\"kind\":\"user\"\x7d".toUTF8.data.toList

def answer : List UInt8 := "\x7b\"kind\":\"assistant\"\x7d".toUTF8.data.toList

/-- Their entries, as they are written. -/
def written : List (List UInt8 × Entry) :=
  [(("\x7b\"o\":0,\"n\":15,\"h\":\"0daa2bd640750cae\",\"k\":\"user\"," ++
      "\"turn\":\x7b\"kind\":\"user\"\x7d\x7d").toUTF8.data.toList,
    Entry.of (.obj [("kind", .str "user")]) 0 ask),
  (("\x7b\"o\":16,\"n\":20,\"h\":\"91c6ea4e12becd15\"," ++
      "\"k\":\"assistant\"\x7d").toUTF8.data.toList,
    Entry.of (.obj [("kind", .str "assistant")]) 16 answer)]

/-- The same place, and both open a turn or neither. -/
def alike (e f : Entry) : Bool :=
  e.o == f.o && e.n == f.n && e.turn.isSome == f.turn.isSome

/-- The bytes of these two records and of their entries; any other entry in unary. -/
def pairSerde : Serde where
  value bs :=
    if bs = ask then some (.obj [("kind", .str "user")])
    else if bs = answer then some (.obj [("kind", .str "assistant")])
    else none
  line e := ((written.find? fun p => alike p.2 e).map Prod.fst).getD
    (List.replicate e.o 0x61 ++ List.replicate e.n 0x62 ++ List.replicate e.turn.toList.length 0x63)
  entry bs := ((written.find? fun p => p.1 == bs).map Prod.snd).or
    (some { o := bs.count 0x61, n := bs.count 0x62,
            turn := if bs.contains 0x63 then some .null else none })
  seen e := ((written.find? fun p => alike p.2 e).map Prod.snd).getD
    { o := e.o, n := e.n, turn := e.turn.map fun _ => .null }

theorem pairSerde_lawful : pairSerde.Lawful := by
  have hfind : ∀ e p, written.find? (fun p => alike p.2 e) = some p →
      p ∈ written ∧ alike p.2 e = true := fun e p h =>
    ⟨List.mem_of_find?_eq_some h, by simpa using List.find?_some h⟩
  constructor
  · intro e
    simp only [pairSerde]
    cases h : written.find? (fun p => alike p.2 e) with
    | none => simp [newline]
    | some p =>
      have hlines : ∀ p ∈ written, newline ∉ p.1 := by decide +kernel
      exact hlines p (hfind e p h).1
  · intro e
    simp only [pairSerde]
    cases h : written.find? (fun p => alike p.2 e) with
    | none =>
      have hbrace : ∀ p ∈ written, 0x7B ∈ p.1 := by decide +kernel
      have hnone : (written.find? fun p => p.1 == List.replicate e.o 0x61 ++
          List.replicate e.n 0x62 ++ List.replicate e.turn.toList.length 0x63) = none := by
        rw [List.find?_eq_none]
        intro p hp heq
        have := hbrace p hp
        rw [eq_of_beq heq] at this
        simp at this
      simp only [Option.map_none, Option.getD_none, hnone, Option.none_or]
      cases e.turn <;> simp [List.count_append, List.count_replicate]
    | some p =>
      have hback : ∀ p ∈ written, (written.find? fun q => q.1 == p.1).map Prod.snd = some p.2 := by
        intro p hp
        simp only [written, List.mem_cons, List.not_mem_nil, or_false] at hp
        obtain rfl | rfl := hp
        · rfl
        · rfl
      simp only [Option.map_some, Option.getD_some, hback p (hfind e p h).1, Option.some_or]
  · intro e
    simp only [pairSerde]
    cases h : written.find? (fun p => alike p.2 e) with
    | none => exact ⟨rfl, rfl⟩
    | some p =>
      have := (hfind e p h).2
      simp only [alike, Bool.and_eq_true, beq_iff_eq] at this
      exact this.1
  · intro e
    simp only [pairSerde]
    cases h : written.find? (fun p => alike p.2 e) with
    | none => simp
    | some p =>
      have := (hfind e p h).2
      simp only [alike, Bool.and_eq_true, beq_iff_eq] at this
      exact this.2

/-- The first record: a turn opens. -/
def askRecord : Rendered pairSerde where
  text := ask
  value := .obj [("kind", .str "user")]
  reads := rfl
  oneLine := by decide +kernel
  single := by decide +kernel

/-- The second: its answer. -/
def answerRecord : Rendered pairSerde where
  text := answer
  value := .obj [("kind", .str "assistant")]
  reads := rfl
  oneLine := by decide +kernel
  single := by decide +kernel

/-! ## the reply -/

/-- What an index made of the log alone replies. -/
def freshReply (serde : Serde) (log : List UInt8) (epoch upto : Nat) : Value :=
  replyOf ((indexLines serde 0 (splitLines newline log).1).map serde.seen) log.length epoch upto

/-- The rows of its turns. -/
def freshRows (serde : Serde) (log : List UInt8) (upto : Nat) : List TurnRow :=
  turnRows ((indexLines serde 0 (splitLines newline log).1).map serde.seen) log.length
    (min upto (splitLines newline log).1.length)

/-- Two replies for one boundary that gather the same: all but the spans and the log's size. -/
def SameBelow (v w : Value) : Prop :=
  ∀ k ∈ ["t", "epoch", "compactions", "tools", "artifacts", "files", "facts", "agents"],
    v.get k = w.get k

/-- What is gathered comes from the records below the boundary. -/
theorem replyOf_below {es es' : List Entry} {upto : Nat} (h : es.take upto = es'.take upto)
    (logLen logLen' epoch : Nat) :
    SameBelow (replyOf es logLen epoch upto) (replyOf es' logLen' epoch upto) := by
  have htake : ∀ xs : List Entry, xs.take (min upto xs.length) = xs.take upto := by
    intro xs
    rw [← List.take_take, List.take_length]
  intro k hk
  simp only [List.mem_cons, List.not_mem_nil, or_false] at hk
  simp only [replyOf, htake, h]
  obtain rfl | rfl | rfl | rfl | rfl | rfl | rfl | rfl := hk
  all_goals rfl

/-- **The index follows the log.** After any run the reply for a boundary is that of an index
made of the log alone; it gathers what the records below the boundary alone would give, and
lists every turn that opens below it once, with its own span. -/
theorem turnIndex_follows (hlaw : serde.Lawful) (es : List (Event serde)) (epoch upto : Nat) :
    let s := RecordStore.run serde es
    let ls := (splitLines newline s.disk.log).1
    (s.turnIndex serde epoch upto).2 = freshReply serde s.disk.log epoch upto ∧
      SameBelow (freshReply serde s.disk.log epoch upto)
        (freshReply serde (unlines newline (ls.take upto)) epoch upto) ∧
      ((freshReply serde s.disk.log epoch upto).get "turns") =
        .arr ((freshRows serde s.disk.log upto).map TurnRow.value) ∧
      RightTurns serde ls upto (freshRows serde s.disk.log upto) := by
  obtain ⟨ls, h⟩ := Follows.run hlaw es
  have hlines : splitLines newline (RecordStore.run serde es).disk.log = (ls, []) := by
    rw [h.log]
    exact Lib.splitLines_whole fun l hl => (h.good l hl).oneLine
  have hcut : splitLines newline (unlines newline (ls.take upto)) = (ls.take upto, []) :=
    Lib.splitLines_whole fun l hl => (h.good l (List.mem_of_mem_take hl)).oneLine
  have hlen : (RecordStore.run serde es).disk.log.length = span ls := by rw [h.log]; rfl
  simp only [freshReply, freshRows, hlines, hcut, hlen]
  constructor
  · exact (h.turnIndex hlaw epoch upto).1
  · constructor
    · refine replyOf_below ?_ _ _ _
      rw [← indexLines_take, List.map_take, List.take_take, Nat.min_self]
    · constructor
      · simp only [replyOf, List.length_map, indexLines_length]
        rfl
      · exact turnRows_right hlaw ls upto

/-- An index file that was cut within its second line. -/
theorem turnIndex_follows_cut :
    let es : List (Event pairSerde) := [.put askRecord, .put answerRecord, .restart 37 90 false]
    let s := RecordStore.run pairSerde es
    let ls := (splitLines newline s.disk.log).1
    (s.turnIndex pairSerde 0 1).2 = freshReply pairSerde s.disk.log 0 1 ∧
      SameBelow (freshReply pairSerde s.disk.log 0 1)
        (freshReply pairSerde (unlines newline (ls.take 1)) 0 1) ∧
      ((freshReply pairSerde s.disk.log 0 1).get "turns") =
        .arr ((freshRows pairSerde s.disk.log 1).map TurnRow.value) ∧
      RightTurns pairSerde ls 1 (freshRows pairSerde s.disk.log 1) :=
  turnIndex_follows pairSerde_lawful _ 0 1

/-- Where the turns of a reply end. -/
def lasts (reply : Value) : List (Option UInt64) :=
  (((reply.get "turns").asArray).getD []).map fun row => (row.get "last").asU64

/-- A turn that opens below the boundary may end past it. -/
theorem turn_past_boundary :
    let s := RecordStore.run pairSerde [.put askRecord, .put answerRecord]
    let ls := (splitLines newline s.disk.log).1
    (s.turnIndex pairSerde 0 1).2 ≠ freshReply pairSerde (unlines newline (ls.take 1)) 0 1 := by
  intro s ls h
  have hlasts : lasts (s.turnIndex pairSerde 0 1).2 = [some 1] ∧
      lasts (freshReply pairSerde (unlines newline (ls.take 1)) 0 1) = [some 0] := by
    decide +kernel
  rw [h, hlasts.2] at hlasts
  exact absurd hlasts.1 (by decide)

end ClaudeReplay.Index
