import Mathlib.Algebra.Order.BigOperators.Group.Finset

/-!
# ClaudeReplay.Lib.Walks

Walks in a graph given by its successor lists. A node may list a successor more than
once, so a walk is told by the turns it takes (`follow`), and two walks to one node are
two lists of turns.

`Sole P v` says that a walk from `v` to a node of `P` is the only one, and `Grounded v`
that no walk from `v` comes back to where it was. What hangs together with them is how a
weight adds up: `total v`, the sum over the distinct nodes reachable from `v`, is the
weight of `v` and the totals of its successors exactly when nothing that weighs is
reachable through two of them (`total_eq_iff`).
-/

namespace ClaudeReplay.Lib

variable {V : Type u} {next : V → List V} {P : V → Prop} {u v x d : V}

/-! ## walks -/

/-- The node a walk from `v` ends at, if its turns exist. -/
def follow (next : V → List V) (v : V) : List Nat → Option V
  | [] => some v
  | i :: is => (next v)[i]?.bind fun d => follow next d is

/-- Some walk leads from `v` to `u`. -/
def Reaches (next : V → List V) (v u : V) : Prop := ∃ is, follow next v is = some u

/-- A node of `P` is reached from `v` by one walk at most. -/
def Sole (next : V → List V) (P : V → Prop) (v : V) : Prop :=
  ∀ u, P u → ∀ is js, follow next v is = some u → follow next v js = some u → is = js

/-- No walk from `v` comes back to a node it has left. -/
def Grounded (next : V → List V) (v : V) : Prop :=
  ∀ x, Reaches next v x → ∀ d ∈ next x, ¬Reaches next d x

/-- Nothing of `P` is reachable from `v`. -/
def Barren (next : V → List V) (P : V → Prop) (v : V) : Prop := ∀ u, Reaches next v u → ¬P u

theorem follow_append (v : V) (is js : List Nat) :
    follow next v (is ++ js) = (follow next v is).bind fun d => follow next d js := by
  induction is generalizing v with
  | nil => rfl
  | cons i is ih =>
    simp only [List.cons_append, follow]
    cases (next v)[i]? with
    | none => rfl
    | some d => exact ih d

theorem follow_cons (h : (next v)[i]? = some d) (is : List Nat) :
    follow next v (i :: is) = follow next d is := by
  rw [follow, h, Option.bind_some]

theorem Reaches.refl (next : V → List V) (v : V) : Reaches next v v := ⟨[], rfl⟩

theorem Reaches.trans (h : Reaches next v x) (h' : Reaches next x u) : Reaches next v u := by
  obtain ⟨is, his⟩ := h
  obtain ⟨js, hjs⟩ := h'
  exact ⟨is ++ js, by rw [follow_append, his, Option.bind_some, hjs]⟩

theorem Reaches.turn (h : d ∈ next v) : Reaches next v d := by
  obtain ⟨i, hi⟩ := List.mem_iff_getElem?.mp h
  exact ⟨[i], by rw [follow_cons hi]; rfl⟩

/-- A walk stays, or takes a turn first. -/
theorem reaches_iff : Reaches next v u ↔ u = v ∨ ∃ d ∈ next v, Reaches next d u := by
  constructor
  · rintro ⟨is, his⟩
    cases is with
    | nil => exact .inl (Option.some.inj his).symm
    | cons i is =>
      rw [follow, Option.bind_eq_some_iff] at his
      obtain ⟨d, hd, his⟩ := his
      exact .inr ⟨d, List.mem_of_getElem? hd, is, his⟩
  · rintro (rfl | ⟨d, hd, hu⟩)
    · exact .refl next u
    · exact (Reaches.turn hd).trans hu

/-- No successor of a node of `P` leads back to it, and no two successors lead to one node
of `P`. -/
def Apart (next : V → List V) (P : V → Prop) (v : V) : Prop :=
  (P v → ∀ d ∈ next v, ¬Reaches next d v) ∧
    (next v).Pairwise (fun d e => ∀ u, P u → ¬(Reaches next d u ∧ Reaches next e u))

theorem Sole.apart (h : Sole next P v) : Apart next P v := by
  constructor
  · rintro hv d hd ⟨is, his⟩
    obtain ⟨i, hi⟩ := List.mem_iff_getElem?.mp hd
    have heq := h v hv (i :: is) [] (by rw [follow_cons hi, his]) rfl
    exact absurd heq (by simp)
  · rw [List.pairwise_iff_getElem]
    rintro i j hi hj hlt u hu ⟨⟨is, his⟩, ⟨js, hjs⟩⟩
    have heq := h u hu (i :: is) (j :: js)
      (by rw [follow_cons (List.getElem?_eq_getElem hi), his])
      (by rw [follow_cons (List.getElem?_eq_getElem hj), hjs])
    have hij : i = j := (List.cons.inj heq).1
    omega

/-- Where walks are sole, they are sole from every node they pass. -/
theorem Sole.of_reaches (h : Sole next P v) (hx : Reaches next v x) : Sole next P x := by
  obtain ⟨ks, hks⟩ := hx
  intro u hu is js his hjs
  have heq := h u hu (ks ++ is) (ks ++ js) (by rw [follow_append, hks, Option.bind_some, his])
    (by rw [follow_append, hks, Option.bind_some, hjs])
  exact List.append_cancel_left heq

theorem sole_of_apart (h : ∀ x, Reaches next v x → Apart next P x) : Sole next P v := by
  intro u hu is js his hjs
  induction is generalizing v js with
  | nil =>
    obtain rfl : v = u := Option.some.inj his
    cases js with
    | nil => rfl
    | cons j js =>
      rw [follow, Option.bind_eq_some_iff] at hjs
      obtain ⟨d, hd, hjs⟩ := hjs
      exact absurd ⟨js, hjs⟩ ((h v (.refl next v)).1 hu d (List.mem_of_getElem? hd))
  | cons i is ih =>
    rw [follow, Option.bind_eq_some_iff] at his
    obtain ⟨d, hd, his⟩ := his
    obtain ⟨hback, hapart⟩ := h v (.refl next v)
    cases js with
    | nil =>
      obtain rfl : v = u := Option.some.inj hjs
      exact absurd ⟨is, his⟩ (hback hu d (List.mem_of_getElem? hd))
    | cons j js =>
      rw [follow, Option.bind_eq_some_iff] at hjs
      obtain ⟨e, he, hjs⟩ := hjs
      have hbelow : ∀ x, Reaches next d x → Apart next P x :=
        fun x hx => h x ((Reaches.turn (List.mem_of_getElem? hd)).trans hx)
      obtain ⟨hi, rfl⟩ := List.getElem?_eq_some_iff.mp hd
      obtain ⟨hj, rfl⟩ := List.getElem?_eq_some_iff.mp he
      rw [List.pairwise_iff_getElem] at hapart
      rcases Nat.lt_trichotomy i j with hlt | rfl | hlt
      · exact absurd ⟨⟨is, his⟩, ⟨js, hjs⟩⟩ (hapart i j hi hj hlt u hu)
      · rw [ih hbelow js his hjs]
      · exact absurd ⟨⟨js, hjs⟩, ⟨is, his⟩⟩ (hapart j i hj hi hlt u hu)

/-- Walks to `P` are sole exactly where the nodes they pass keep `P` apart. -/
theorem sole_iff_reaches : Sole next P v ↔ ∀ x, Reaches next v x → Apart next P x :=
  ⟨fun h _ hx => (h.of_reaches hx).apart, sole_of_apart⟩

/-- Where walks to `P` are sole: no successor leads back to the node, if it is of `P`, no two
successors lead to one node of `P`, and they are sole from each. -/
theorem sole_iff : Sole next P v ↔
    (P v → ∀ d ∈ next v, ¬Reaches next d v) ∧
    (next v).Pairwise (fun d e => ∀ u, P u → ¬(Reaches next d u ∧ Reaches next e u)) ∧
    ∀ d ∈ next v, Sole next P d := by
  rw [← and_assoc]
  constructor
  · exact fun h => ⟨h.apart, fun d hd => h.of_reaches (.turn hd)⟩
  · rintro ⟨hv, hnext⟩
    refine sole_of_apart fun x hx => ?_
    obtain rfl | ⟨d, hd, hx⟩ := reaches_iff.mp hx
    · exact hv
    · exact ((hnext d hd).of_reaches hx).apart

theorem Barren.sole (h : Barren next P v) : Sole next P v :=
  fun u hu is _ his _ => absurd hu (h u ⟨is, his⟩)

/-- Where walks to `P` are sole and one comes back, there is nothing of `P`. -/
theorem Sole.barren (h : Sole next P v) (hd : d ∈ next v) (hback : Reaches next d v) :
    Barren next P v := by
  rintro u ⟨is, his⟩ hu
  obtain ⟨i, hi⟩ := List.mem_iff_getElem?.mp hd
  obtain ⟨js, hjs⟩ := hback
  have hlong : follow next v (i :: js ++ is) = some u := by
    rw [follow_append, follow_cons hi, hjs, Option.bind_some, his]
  have hlen := congrArg List.length (h u hu _ _ his hlong)
  simp at hlen
  omega

/-- A node is grounded exactly when its successors are. -/
theorem grounded_iff : Grounded next v ↔ ∀ d ∈ next v, Grounded next d := by
  constructor
  · exact fun h d hd x hx => h x ((Reaches.turn hd).trans hx)
  · intro h x hx d hd hback
    obtain rfl | ⟨e, he, hex⟩ := reaches_iff.mp hx
    · exact h d hd x hback d hd hback
    · exact h e he x hex d hd hback

/-! ## weights -/

section weights

variable {α : Type w} [AddCommMonoid α] [PartialOrder α] [IsOrderedCancelAddMonoid α]
  [CanonicallyOrderedAdd α] [DecidableEq V]

theorem sum_foldr_union_le (w : V → α) (Fs : List (Finset V)) :
    ∑ u ∈ Fs.foldr (· ∪ ·) ∅, w u ≤ (Fs.map fun F => ∑ u ∈ F, w u).sum := by
  induction Fs with
  | nil => simp
  | cons F Fs ih =>
    rw [List.foldr_cons, List.map_cons, List.sum_cons]
    calc ∑ u ∈ F ∪ Fs.foldr (· ∪ ·) ∅, w u
        ≤ ∑ u ∈ F ∪ Fs.foldr (· ∪ ·) ∅, w u + ∑ u ∈ F ∩ Fs.foldr (· ∪ ·) ∅, w u :=
          le_self_add
      _ = ∑ u ∈ F, w u + ∑ u ∈ Fs.foldr (· ∪ ·) ∅, w u := Finset.sum_union_inter
      _ ≤ _ := by gcongr

theorem mem_foldr_union {Fs : List (Finset V)} {u : V} :
    u ∈ Fs.foldr (· ∪ ·) ∅ ↔ ∃ F ∈ Fs, u ∈ F := by
  induction Fs with
  | nil => simp
  | cons F Fs ih => simp [ih]

/-- The sums over some sets make up the sum over their union exactly when what two of them
share weighs nothing. -/
theorem sum_map_sum_eq_iff (w : V → α) (Fs : List (Finset V)) :
    (Fs.map fun F => ∑ u ∈ F, w u).sum = ∑ u ∈ Fs.foldr (· ∪ ·) ∅, w u ↔
      Fs.Pairwise fun F G => ∀ u ∈ F, u ∈ G → w u = 0 := by
  induction Fs with
  | nil => simp
  | cons F Fs ih =>
    have hsplit : ∑ u ∈ F ∪ Fs.foldr (· ∪ ·) ∅, w u + ∑ u ∈ F ∩ Fs.foldr (· ∪ ·) ∅, w u =
        ∑ u ∈ F, w u + ∑ u ∈ Fs.foldr (· ∪ ·) ∅, w u := Finset.sum_union_inter
    have hshared : ∑ u ∈ F ∩ Fs.foldr (· ∪ ·) ∅, w u = 0 ↔
        ∀ G ∈ Fs, ∀ u ∈ F, u ∈ G → w u = 0 := by
      rw [Finset.sum_eq_zero_iff]
      simp only [Finset.mem_inter, mem_foldr_union]
      grind
    rw [List.foldr_cons, List.map_cons, List.sum_cons, List.pairwise_cons, ← hshared, ← ih]
    constructor
    · intro h
      have hle : ∑ u ∈ F, w u + (Fs.map fun F => ∑ u ∈ F, w u).sum ≤
          ∑ u ∈ F, w u + ∑ u ∈ Fs.foldr (· ∪ ·) ∅, w u := by
        rw [h, ← hsplit]
        exact le_self_add
      have hrest := le_antisymm (le_of_add_le_add_left hle) (sum_foldr_union_le w Fs)
      refine ⟨?_, hrest⟩
      rw [← hrest, h] at hsplit
      exact add_eq_left.mp hsplit
    · rintro ⟨hzero, hrest⟩
      rw [hrest, ← hsplit, hzero, add_zero]

open Classical in
/-- The nodes of `all` reachable from `v`. -/
noncomputable def reached (next : V → List V) (all : Finset V) (v : V) : Finset V :=
  all.filter (Reaches next v)

/-- The weight of the distinct nodes of `all` reachable from `v`. -/
noncomputable def total (next : V → List V) (all : Finset V) (w : V → α) (v : V) : α :=
  ∑ u ∈ reached next all v, w u

variable {all : Finset V} {w : V → α}

omit [DecidableEq V] in
theorem mem_reached : u ∈ reached next all v ↔ u ∈ all ∧ Reaches next v u := by
  simp [reached]

omit [DecidableEq V] [IsOrderedCancelAddMonoid α] in
/-- Nothing that weighs is reachable exactly when the total is nothing. -/
theorem total_eq_zero_iff (hall : ∀ u, w u ≠ 0 → u ∈ all) :
    total next all w v = 0 ↔ Barren next (w · ≠ 0) v := by
  rw [total, Finset.sum_eq_zero_iff]
  constructor
  · exact fun h u hu hw => hw (h u (mem_reached.mpr ⟨hall u hw, hu⟩))
  · exact fun h u hu => by_contra (h u (mem_reached.mp hu).2)

/-- What is reachable is the node and what is reachable from its successors. -/
theorem reached_eq (hv : v ∈ all) : reached next all v =
    (({v} : Finset V) :: (next v).map (reached next all)).foldr (· ∪ ·) ∅ := by
  ext u
  rw [mem_foldr_union]
  simp only [List.mem_cons, List.mem_map, exists_eq_or_imp, Finset.mem_singleton, mem_reached,
    exists_exists_and_eq_and]
  rw [reaches_iff]
  grind

/-- **When a total is made up of the totals of the successors.** -/
theorem total_eq_iff (hv : v ∈ all) :
    total next all w v = w v + ((next v).map (total next all w)).sum ↔
      (w v ≠ 0 → ∀ d ∈ next v, ¬Reaches next d v) ∧
      (next v).Pairwise
        (fun d e => ∀ u ∈ all, w u ≠ 0 → ¬(Reaches next d u ∧ Reaches next e u)) := by
  have hsum : w v + ((next v).map (total next all w)).sum =
      ((({v} : Finset V) :: (next v).map (reached next all)).map fun F => ∑ u ∈ F, w u).sum := by
    rw [List.map_cons, List.sum_cons, Finset.sum_singleton, List.map_map]
    rfl
  rw [eq_comm, hsum, total, reached_eq hv, sum_map_sum_eq_iff, List.pairwise_cons,
    List.pairwise_map]
  simp only [List.mem_map, forall_exists_index, and_imp, forall_apply_eq_imp_iff₂,
    Finset.mem_singleton, forall_eq, mem_reached]
  constructor
  · rintro ⟨hback, hapart⟩
    refine ⟨fun hw d hd hr => hw (hback d hd hv hr), hapart.imp ?_⟩
    intro d e h u hu hw hr
    exact hw (h u hu hr.1 hu hr.2)
  · rintro ⟨hback, hapart⟩
    refine ⟨fun d hd _ hr => by_contra fun hw => hback hw d hd hr, hapart.imp ?_⟩
    intro d e h u hu hd _ he
    exact by_contra fun hw => h u hu hw ⟨hd, he⟩

/-- `total_eq_iff` where every node that weighs is in `all`. -/
theorem total_eq_iff_apart (hv : v ∈ all) (hall : ∀ u, w u ≠ 0 → u ∈ all) :
    total next all w v = w v + ((next v).map (total next all w)).sum ↔
      Apart next (w · ≠ 0) v := by
  rw [total_eq_iff hv]
  refine and_congr_right fun _ => ?_
  constructor
  · exact fun h => h.imp fun h u hw => h u (hall u hw) hw
  · exact fun h => h.imp fun h u _ hw => h u hw

end weights

end ClaudeReplay.Lib
