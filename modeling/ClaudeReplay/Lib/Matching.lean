import Mathlib.Data.Finset.Interval
import Mathlib.Data.Fintype.Basic
import Mathlib.Order.Interval.Finset.Defs
import Mathlib.Data.Fintype.Perm

/-!
# ClaudeReplay.Lib.Matching

A greedy matching of two ordered lists. Each element of the first list in turn takes the
first one of the second that is left and fits it (`claims`).

Where what fits is `Crossing`, as windows of one length are, the greedy matching is a
largest one (`Assignment.size_le_claims`), it keeps the order (`claims_ordered`), and an
assignment that gives the same elements to each other in another way has two of them that
can be swapped (`Crossing.exists_swap`).
-/

namespace ClaudeReplay.Lib

variable {α β : Type}

/-! ## what fits -/

/-- Two pairs that fit across each other fit in order too. -/
structure Crossing (fits : α → β → Bool) (r : α → α → Prop) (s : β → β → Prop) : Prop where
  early : ∀ {a a' b b'}, r a a' → s b b' → fits a b' = true → fits a' b = true → fits a b = true
  late : ∀ {a a' b b'}, r a a' → s b b' → fits a b' = true → fits a' b = true → fits a' b' = true

/-- A one-to-one assignment of elements that fit. -/
structure Assignment (fits : α → β → Bool) (as : List α) (bs : List β) (f : α → Option β) :
    Prop where
  respects : ∀ a ∈ as, ∀ b, f a = some b → b ∈ bs ∧ fits a b = true
  oneToOne : ∀ a ∈ as, ∀ a' ∈ as, ∀ b, f a = some b → f a' = some b → a = a'

theorem Assignment.tail {fits : α → β → Bool} {a : α} {as : List α} {bs : List β}
    {f : α → Option β} (h : Assignment fits (a :: as) bs f) : Assignment fits as bs f where
  respects x hx := h.respects x (List.mem_cons_of_mem _ hx)
  oneToOne x hx y hy := h.oneToOne x (List.mem_cons_of_mem _ hx) y (List.mem_cons_of_mem _ hy)

/-- How many elements are assigned. -/
def assigned (f : α → Option β) (as : List α) : Nat := as.countP fun a => (f a).isSome

section Greedy

variable [DecidableEq β] (fits : α → β → Bool)

/-- Each in turn takes the first that is left and fits. -/
def claims : List α → List β → List (α × Option β)
  | [], _ => []
  | a :: as, free =>
    match free.find? (fits a) with
    | some b => (a, some b) :: claims as (free.erase b)
    | none => (a, none) :: claims as free

variable {fits} {as : List α} {bs : List β} {a : α} {b : β}

theorem claims_cons_some (h : bs.find? (fits a) = some b) :
    claims fits (a :: as) bs = (a, some b) :: claims fits as (bs.erase b) := by
  simp [claims, h]

theorem claims_cons_none (h : bs.find? (fits a) = none) :
    claims fits (a :: as) bs = (a, none) :: claims fits as bs := by
  simp [claims, h]

/-- Each element stands in its place, with its claim. -/
@[simp] theorem map_fst_claims : (claims fits as bs).map Prod.fst = as := by
  induction as generalizing bs with
  | nil => rfl
  | cons a as ih =>
    cases h : bs.find? (fits a) with
    | some b => simp [claims_cons_some h, ih]
    | none => simp [claims_cons_none h, ih]

/-- What is claimed is there, and fits. -/
theorem claims_fits (h : (a, some b) ∈ claims fits as bs) :
    a ∈ as ∧ b ∈ bs ∧ fits a b = true := by
  induction as generalizing bs with
  | nil => simp [claims] at h
  | cons a' as ih =>
    cases hfind : bs.find? (fits a') with
    | some b' =>
      rw [claims_cons_some hfind] at h
      obtain h | h := List.mem_cons.mp h
      · cases h
        exact ⟨List.mem_cons_self, List.mem_of_find?_eq_some hfind, List.find?_some hfind⟩
      · obtain ⟨ha, hb, hfits⟩ := ih h
        exact ⟨List.mem_cons_of_mem _ ha, List.mem_of_mem_erase hb, hfits⟩
    | none =>
      rw [claims_cons_none hfind] at h
      obtain h | h := List.mem_cons.mp h
      · cases h
      · obtain ⟨ha, hb, hfits⟩ := ih h
        exact ⟨List.mem_cons_of_mem _ ha, hb, hfits⟩

omit [DecidableEq β] in
theorem filterMap_snd_cons (pairs : List (α × Option β)) :
    ((a, some b) :: pairs).filterMap Prod.snd = b :: pairs.filterMap Prod.snd := rfl

/-- **Nothing is claimed twice.** -/
theorem claims_nodup (hbs : bs.Nodup) : ((claims fits as bs).filterMap Prod.snd).Nodup := by
  induction as generalizing bs with
  | nil => simp [claims]
  | cons a as ih =>
    cases hfind : bs.find? (fits a) with
    | some b =>
      rw [claims_cons_some hfind, filterMap_snd_cons, List.nodup_cons]
      constructor
      · intro hmem
        obtain ⟨⟨a', claim⟩, hclaim, rfl⟩ := List.mem_filterMap.mp hmem
        have hb := (claims_fits hclaim).2.1
        exact hbs.not_mem_erase hb
      · exact ih (hbs.erase b)
    | none =>
      rw [claims_cons_none hfind, List.filterMap_cons_none rfl]
      exact ih hbs

omit [DecidableEq β] in
/-- What is found first stands before the others that fit. -/
theorem eq_or_before_of_find? {p : β → Bool} {s : β → β → Prop} (hbs : bs.Pairwise s)
    (h : bs.find? p = some b) {b' : β} (hmem : b' ∈ bs) (hb' : p b' = true) : b' = b ∨ s b b' := by
  obtain ⟨-, xs, ys, rfl, hxs⟩ := List.find?_eq_some_iff_append.mp h
  obtain hmem | hmem := List.mem_append.mp hmem
  · exact absurd hb' (by simpa using hxs b' hmem)
  · obtain rfl | hmem := List.mem_cons.mp hmem
    · exact .inl rfl
    · have htail := (List.pairwise_append.mp hbs).2.1
      exact .inr (List.rel_of_pairwise_cons htail hmem)

/-! ## a largest matching -/

section Largest

variable {r : α → α → Prop} {s : β → β → Prop} {f : α → Option β}

/-- One element at most is given `b`. -/
theorem Assignment.count_le_one (h : Assignment fits as bs f) (has : as.Nodup) (b : β) :
    as.countP (fun a => f a = some b) ≤ 1 := by
  rw [List.countP_eq_length_filter]
  by_contra hlt
  obtain ⟨a, a', hne, ha, ha'⟩ : ∃ a a', a ≠ a' ∧ a ∈ as.filter (fun a => f a = some b) ∧
      a' ∈ as.filter (fun a => f a = some b) := by
    have hnodup := has.filter fun a => decide (f a = some b)
    match hfilter : as.filter (fun a => f a = some b) with
    | [] => simp [hfilter] at hlt
    | [_] => simp [hfilter] at hlt
    | a :: a' :: rest =>
      rw [hfilter, List.nodup_cons] at hnodup
      refine ⟨a, a', fun heq => hnodup.1 (by simp [heq]), by simp, by simp⟩
  simp only [List.mem_filter, decide_eq_true_eq] at ha ha'
  exact hne (h.oneToOne a ha.1 a' ha'.1 b ha.2 ha'.2)

/-- The first element takes what it claims, and whoever had that takes what it had. -/
def swapIn (f : α → Option β) (a : α) (b : β) : α → Option β := fun x =>
  if f x = some b then f a else f x

theorem Assignment.swapIn (h : Assignment fits (a :: as) bs f) (ha : a ∉ as)
    (hfits : ∀ x ∈ as, ∀ b', f x = some b → f a = some b' → fits x b' = true) :
    Assignment fits as (bs.erase b) (swapIn f a b) := by
  have hother : ∀ x ∈ as, f x = some b → ∀ b', f a = some b' → b' ≠ b := by
    rintro x hx hxb b' hab rfl
    exact ha ((h.oneToOne a List.mem_cons_self x (List.mem_cons_of_mem _ hx) b' hab hxb) ▸ hx)
  constructor
  · intro x hx b' hb'
    rw [Lib.swapIn] at hb'
    split at hb'
    · next hxb =>
      have hmem := (h.respects a List.mem_cons_self b' hb').1
      exact ⟨(List.mem_erase_of_ne (hother x hx hxb b' hb')).mpr hmem, hfits x hx b' hxb hb'⟩
    · next hxb =>
      obtain ⟨hmem, hfit⟩ := h.respects x (List.mem_cons_of_mem _ hx) b' hb'
      have hne : b' ≠ b := fun heq => hxb (heq ▸ hb')
      exact ⟨(List.mem_erase_of_ne hne).mpr hmem, hfit⟩
  · intro x hx y hy b' hxb' hyb'
    have inj : ∀ {x y}, x ∈ a :: as → y ∈ a :: as → f x = some b' → f y = some b' → x = y :=
      fun hx hy hxb hyb => h.oneToOne _ hx _ hy b' hxb hyb
    have hmem : ∀ {x}, x ∈ as → x ∈ a :: as := fun hx => List.mem_cons_of_mem _ hx
    rw [Lib.swapIn] at hxb' hyb'
    split at hxb' <;> split at hyb'
    · next hx' hy' => exact h.oneToOne x (hmem hx) y (hmem hy) b hx' hy'
    · exact absurd (inj List.mem_cons_self (hmem hy) hxb' hyb' ▸ hy) ha
    · exact absurd (inj List.mem_cons_self (hmem hx) hyb' hxb' ▸ hx) ha
    · exact inj (hmem hx) (hmem hy) hxb' hyb'

/-- One element less is assigned, at most. -/
theorem Assignment.assigned_swapIn (h : Assignment fits (a :: as) bs f) (has : (a :: as).Nodup) :
    assigned f (a :: as) ≤ assigned (Lib.swapIn f a b) as + 1 := by
  cases hfa : f a with
  | some c =>
    have heq : assigned f as = assigned (Lib.swapIn f a b) as := by
      apply List.countP_congr
      intro x _
      rw [Lib.swapIn, hfa]
      split
      · next hx => simp [hx]
      · rfl
    simp [assigned, hfa] at heq ⊢
    omega
  | none =>
    have hle : as.countP (fun x => (f x).isSome) ≤
        as.countP (fun x => (Lib.swapIn f a b x).isSome) + as.countP (fun x => f x = some b) := by
      clear h has
      induction as with
      | nil => simp
      | cons x as ih =>
        simp only [List.countP_cons]
        by_cases hx : f x = some b
        · simp [hx]
          omega
        · simp [Lib.swapIn, hx] at ih ⊢
          omega
    have hone := h.tail.count_le_one (List.nodup_cons.mp has).2 b
    simp only [assigned, List.countP_cons, hfa]
    simp
    omega

/-- **No one-to-one assignment gives more**, where what fits is crossing. -/
theorem Assignment.size_le_claims (hcross : Crossing fits r s) (has : as.Nodup) (hr : as.Pairwise r)
    (hbs : bs.Nodup) (hs : bs.Pairwise s) (h : Assignment fits as bs f) :
    assigned f as ≤ ((claims fits as bs).filterMap Prod.snd).length := by
  induction as generalizing bs f with
  | nil => simp [assigned]
  | cons a as ih =>
    obtain ⟨ha, has'⟩ := List.nodup_cons.mp has
    obtain ⟨hra, hr'⟩ := List.pairwise_cons.mp hr
    cases hfind : bs.find? (fits a) with
    | some b =>
      rw [claims_cons_some hfind, filterMap_snd_cons, List.length_cons]
      have hswap : Assignment fits as (bs.erase b) (Lib.swapIn f a b) := by
        apply h.swapIn ha
        intro x hx b' hxb hab
        obtain ⟨hb', hab'⟩ := h.respects a List.mem_cons_self b' hab
        have hxb := (h.respects x (List.mem_cons_of_mem _ hx) b hxb).2
        obtain rfl | hbefore := eq_or_before_of_find? hs hfind hb' hab'
        · exact hxb
        · exact hcross.late (hra x hx) hbefore hab' hxb
      have hle := ih has' hr' (hbs.erase b) (hs.sublist List.erase_sublist) hswap
      have hone := h.assigned_swapIn (b := b) has
      omega
    | none =>
      rw [claims_cons_none hfind, List.filterMap_cons_none rfl]
      have hfa : f a = none := by
        apply Option.eq_none_iff_forall_ne_some.mpr
        intro b hb
        obtain ⟨hmem, hfit⟩ := h.respects a List.mem_cons_self b hb
        exact absurd hfit (List.find?_eq_none.mp hfind b hmem)
      have hle := ih has' hr' hbs hs h.tail
      simpa [assigned, hfa] using hle

/-- **The greedy matching keeps the order.** -/
theorem claims_ordered (hcross : Crossing fits r s) (hr : as.Pairwise r) (hbs : bs.Nodup)
    (hs : bs.Pairwise s) :
    (claims fits as bs).Pairwise fun x y => ∀ b ∈ x.2, ∀ b' ∈ y.2, s b b' := by
  induction as generalizing bs with
  | nil => simp [claims]
  | cons a as ih =>
    obtain ⟨hra, hr'⟩ := List.pairwise_cons.mp hr
    cases hfind : bs.find? (fits a) with
    | some b =>
      rw [claims_cons_some hfind, List.pairwise_cons]
      constructor
      · rintro ⟨a', claim⟩ hmem c hc b' hb'
        obtain rfl : b = c := Option.some.inj hc
        obtain rfl : claim = some b' := hb'
        obtain ⟨ha', hb', hfit⟩ := claims_fits hmem
        have hne : b' ≠ b := fun heq => hbs.not_mem_erase (heq ▸ hb')
        have hb' := List.mem_of_mem_erase hb'
        have hfirst := eq_or_before_of_find? hs hfind hb'
        obtain ⟨hab, xs, ys, rfl, -⟩ := List.find?_eq_some_iff_append.mp hfind
        obtain hleft | hright := List.mem_append.mp hb'
        · -- what stands before `b` would fit the first element too
          have hbefore := (List.pairwise_append.mp hs).2.2 b' hleft b List.mem_cons_self
          have hab' := hcross.early (hra a' ha') hbefore hab hfit
          exact (hfirst hab').resolve_left hne
        · have hright := (List.mem_cons.mp hright).resolve_left hne
          exact List.rel_of_pairwise_cons (List.pairwise_append.mp hs).2.1 hright
      · exact ih hr' (hbs.erase b) (hs.sublist List.erase_sublist)
    | none =>
      rw [claims_cons_none hfind, List.pairwise_cons]
      exact ⟨by simp, ih hr' hbs hs⟩

end Largest

end Greedy

/-! ## another way to assign the same -/

section Swap

variable {ι : Type} [LinearOrder ι] [Fintype ι] {fits : ι → ι → Bool} {σ : ι → ι} {k : ι}

omit [Fintype ι] in
/-- What is crossing is so from the other end. -/
theorem Crossing.dual (h : Crossing fits (· < ·) (· < ·)) :
    @Crossing ιᵒᵈ ιᵒᵈ fits (· < ·) (· < ·) :=
  ⟨fun ha hb hab hba => h.late ha hb hba hab, fun ha hb hab hba => h.early ha hb hba hab⟩

omit [Fintype ι] in
theorem Crossing.flip (h : Crossing fits (· < ·) (· < ·)) :
    Crossing (fun i j => fits j i) (· < ·) (· < ·) :=
  ⟨fun ha hb hab hba => h.early hb ha hba hab, fun ha hb hab hba => h.late hb ha hba hab⟩

/-- Where one element goes up past `k`, another comes down. -/
theorem exists_le_of_injective (hσ : Function.Injective σ) (hk : k < σ k) :
    ∃ j, k < j ∧ σ j ≤ k := by
  by_contra hnone
  have hup : ∀ j, k ≤ j → k < σ j := by
    intro j hj
    obtain rfl | hlt := hj.eq_or_lt
    · exact hk
    · exact lt_of_not_ge fun hle => hnone ⟨j, hlt, hle⟩
  have hcard : (Finset.univ.filter (k ≤ ·)).card ≤ (Finset.univ.filter (k < ·)).card := by
    apply Finset.card_le_card_of_injOn σ
    · intro j hj
      simpa using hup j (by simpa using hj)
    · exact hσ.injOn
  have hlt : (Finset.univ.filter (k < ·)).card < (Finset.univ.filter (k ≤ ·)).card := by
    apply Finset.card_lt_card
    refine Finset.ssubset_iff_subset_ne.mpr ⟨fun j hj => ?_, fun heq => ?_⟩
    · simpa using le_of_lt (by simpa using hj)
    · have hmem : k ∈ Finset.univ.filter (k < ·) := heq ▸ by simp
      simp at hmem
  omega

/-- An element that is given a later one can swap with some other. -/
theorem Crossing.exists_swap_of_lt (h : Crossing fits (· < ·) (· < ·))
    (hself : ∀ i, fits i i = true) (hσ : Function.Injective σ) (hfits : ∀ i, fits i (σ i) = true)
    (hk : k < σ k) : ∃ m, m ≠ k ∧ fits m k = true ∧ fits k m = true := by
  obtain ⟨j, hkj, hj⟩ := exists_le_of_injective hσ hk
  have hjk : fits j k = true := by
    obtain heq | hlt := hj.eq_or_lt
    · exact heq ▸ hfits j
    · exact h.late hkj hlt (hself k) (hfits j)
  obtain hjm | hmj := le_or_gt j (σ k)
  · -- `j` itself: what it has lies between what `k` has and what `k` is given
    have hkj' : fits k j = true := by
      obtain heq | hlt := hjm.eq_or_lt
      · exact heq ▸ hfits k
      · exact h.early hkj hlt (hfits k) (hself j)
    exact ⟨j, hkj.ne', hjk, hkj'⟩
  · exact ⟨σ k, hk.ne', h.early hmj hk (hself (σ k)) hjk, hfits k⟩

/-- **An assignment of the same elements in another way has two that can be swapped.** -/
theorem Crossing.exists_swap (h : Crossing fits (· < ·) (· < ·)) (hself : ∀ i, fits i i = true)
    (hσ : Function.Injective σ) (hfits : ∀ i, fits i (σ i) = true) (hk : σ k ≠ k) :
    ∃ m, m ≠ k ∧ fits m k = true ∧ fits k m = true := by
  obtain hlt | hgt := hk.lt_or_gt
  · exact @Crossing.exists_swap_of_lt ιᵒᵈ _ _ fits σ k h.dual hself hσ hfits hlt
  · exact h.exists_swap_of_lt hself hσ hfits hgt

end Swap

end ClaudeReplay.Lib
