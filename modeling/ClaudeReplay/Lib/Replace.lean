import ClaudeReplay.Lib.Cut

/-!
# ClaudeReplay.Lib.Replace

Replacing each occurrence of a pattern, from left to right.

`replaced_induction` goes through a list as `replaceAll` does: an occurrence at a time, or an
element that begins none. Two patterns with the same first element, which comes again in
neither, can stand for each other: replacing one leaves none of it (`occurs_replaceAll`), and
replacing the other gives the list back if it had none of that (`replaceAll_back`).
-/

namespace ClaudeReplay.Lib

variable {α : Type} [DecidableEq α]

/-- The rest of a replacement, with so many elements of the pattern still to pass. -/
def replaceFrom (pat rep : List α) : Nat → List α → List α
  | _, [] => []
  | skip + 1, _ :: xs => replaceFrom pat rep skip xs
  | 0, x :: xs =>
    if pat.isPrefixOf (x :: xs) then rep ++ replaceFrom pat rep (pat.length - 1) xs
    else x :: replaceFrom pat rep 0 xs

/-- Replace each occurrence of `pat`, which is not empty. -/
def replaceAll (pat rep xs : List α) : List α := replaceFrom pat rep 0 xs

@[simp] theorem replaceAll_nil (pat rep : List α) : replaceAll pat rep [] = [] := by
  simp [replaceAll, replaceFrom]

theorem replaceFrom_append (pat rep ws xs : List α) :
    replaceFrom pat rep ws.length (ws ++ xs) = replaceAll pat rep xs := by
  induction ws with
  | nil => simp [replaceAll]
  | cons w ws ih => simp [replaceFrom, ih]

theorem replaceAll_append {p : α} {ps : List α} (rep xs : List α) :
    replaceAll (p :: ps) rep (p :: ps ++ xs) = rep ++ replaceAll (p :: ps) rep xs := by
  have hrest := replaceFrom_append (p :: ps) rep ps xs
  simp [replaceAll, replaceFrom] at hrest ⊢
  simp [hrest]

theorem replaceAll_cons {pat : List α} {x : α} {xs : List α} (h : ¬pat <+: x :: xs)
    (rep : List α) : replaceAll pat rep (x :: xs) = x :: replaceAll pat rep xs := by
  rw [← List.isPrefixOf_iff_prefix] at h
  rw [replaceAll, replaceFrom, if_neg h, replaceAll]

theorem replaceAll_cons_of_ne {p x : α} (h : x ≠ p) (ps rep xs : List α) :
    replaceAll (p :: ps) rep (x :: xs) = x :: replaceAll (p :: ps) rep xs :=
  replaceAll_cons (by simp [h.symm]) rep

/-- Where the pattern cannot begin, nothing changes. -/
theorem replaceAll_append_of_notMem {p : α} {ws : List α} (h : p ∉ ws) (ps rep xs : List α) :
    replaceAll (p :: ps) rep (ws ++ xs) = ws ++ replaceAll (p :: ps) rep xs := by
  induction ws with
  | nil => simp
  | cons w ws ih =>
    rw [List.mem_cons, not_or] at h
    simp [replaceAll_cons_of_ne (Ne.symm h.1), ih h.2]

theorem mem_replaceFrom {pat rep xs : List α} {skip : Nat} {x : α}
    (h : x ∈ replaceFrom pat rep skip xs) : x ∈ xs ∨ x ∈ rep := by
  fun_induction replaceFrom pat rep skip xs with
  | case1 => simp at h
  | case2 skip y ys ih => grind
  | case3 y ys hpre ih => grind
  | case4 y ys hpre ih => grind

theorem mem_replaceAll {pat rep xs : List α} {x : α} (h : x ∈ replaceAll pat rep xs) :
    x ∈ xs ∨ x ∈ rep :=
  mem_replaceFrom h

/-- A text put together from pieces, each of which is replaced by itself. -/
theorem replaceAll_flatMap {β : Type} {pat rep : List α} {f g : β → List α}
    (h : ∀ b rest, replaceAll pat rep (f b ++ rest) = g b ++ replaceAll pat rep rest)
    (bs : List β) : replaceAll pat rep (bs.flatMap f) = bs.flatMap g := by
  induction bs with
  | nil => simp
  | cons b bs ih => simp [h, ih]

/-- **Going through a list as the replacement does.** -/
theorem replaced_induction {p : α} {t : List α} {motive : List α → Prop} (nil : motive [])
    (found : ∀ xs, motive xs → motive (p :: t ++ xs))
    (other : ∀ x xs, ¬p :: t <+: x :: xs → motive xs → motive (x :: xs)) (xs : List α) :
    motive xs := by
  induction hlen : xs.length using Nat.strongRecOn generalizing xs with
  | ind n ih =>
    by_cases hpre : p :: t <+: xs
    · obtain ⟨ys, rfl⟩ := hpre
      simp only [List.length_append, List.length_cons] at hlen
      exact found ys (ih ys.length (by omega) ys rfl)
    · cases xs with
      | nil => exact nil
      | cons x xs =>
        simp only [List.length_cons] at hlen
        exact other x xs hpre (ih xs.length (by omega) xs rfl)

omit [DecidableEq α] in
/-- Two lists of which neither begins the other. -/
theorem not_prefix_append {xs ys zs : List α} (hxy : ¬xs <+: ys) (hyx : ¬ys <+: xs) :
    ¬xs <+: ys ++ zs := by
  intro h
  rcases Nat.le_total xs.length ys.length with hlen | hlen
  · exact hxy (List.prefix_of_prefix_length_le h (List.prefix_append _ _) hlen)
  · exact hyx (List.prefix_of_prefix_length_le (List.prefix_append _ _) h hlen)

section SameFirst

variable {p : α} {as bs : List α}

/-- Without the first element nothing new can begin the list. -/
theorem prefix_of_replaceAll {qs : List α} (hqs : p ∉ qs) {xs : List α}
    (h : qs <+: replaceAll (p :: as) (p :: bs) xs) : qs <+: xs := by
  induction xs using replaced_induction (p := p) (t := as) generalizing qs with
  | nil => simpa using h
  | found xs ih =>
    rw [replaceAll_append] at h
    cases qs with
    | nil => exact List.nil_prefix
    | cons q qs =>
      rw [List.cons_append, List.cons_prefix_cons] at h
      simp [h.1] at hqs
  | other x xs hpre ih =>
    rw [replaceAll_cons hpre] at h
    cases qs with
    | nil => exact List.nil_prefix
    | cons q qs =>
      rw [List.mem_cons, not_or] at hqs
      rw [List.cons_prefix_cons] at h ⊢
      exact ⟨h.1, ih hqs.2 h.2⟩

/-- What was no occurrence of a pattern does not become one. -/
theorem not_prefix_cons_replaceAll {qs : List α} (hqs : p ∉ qs) {x : α} {xs : List α}
    (h : ¬p :: qs <+: x :: xs) : ¬p :: qs <+: x :: replaceAll (p :: as) (p :: bs) xs := by
  rw [List.cons_prefix_cons] at h ⊢
  exact fun hnew => h ⟨hnew.1, prefix_of_replaceAll hqs hnew.2⟩

/-- The same for a pattern that is compared with both. -/
theorem not_prefix_replaceAll {qs : List α} (hqs : p ∉ qs) (hqb : ¬qs <+: bs) (hbq : ¬bs <+: qs)
    {xs : List α} (h : ¬p :: qs <+: xs) : ¬p :: qs <+: replaceAll (p :: as) (p :: bs) xs := by
  by_cases hpre : p :: as <+: xs
  · obtain ⟨ys, rfl⟩ := hpre
    rw [replaceAll_append, List.cons_append, List.cons_prefix_cons]
    rintro ⟨-, hnew⟩
    exact not_prefix_append hqb hbq hnew
  · cases xs with
    | nil => simp
    | cons x xs =>
      rw [replaceAll_cons hpre]
      exact not_prefix_cons_replaceAll hqs h

/-- **Back again.** -/
theorem replaceAll_back (hbs : p ∉ bs) {xs : List α} (hfree : ¬p :: bs <:+: xs) :
    replaceAll (p :: bs) (p :: as) (replaceAll (p :: as) (p :: bs) xs) = xs := by
  induction xs using replaced_induction (p := p) (t := as) with
  | nil => simp
  | found xs ih =>
    have hrest : ¬p :: bs <:+: xs := fun hin =>
      hfree (hin.trans (List.suffix_append _ _).isInfix)
    rw [replaceAll_append, replaceAll_append, ih hrest]
  | other x xs hpre ih =>
    rw [List.infix_cons_iff, not_or] at hfree
    rw [replaceAll_cons hpre, replaceAll_cons (not_prefix_cons_replaceAll hbs hfree.1),
      ih hfree.2]

omit [DecidableEq α] in
theorem infix_append_of_notMem {qs ws xs : List α} (hws : p ∉ ws) (h : p :: qs <:+: ws ++ xs) :
    p :: qs <:+: xs := by
  induction ws with
  | nil => exact h
  | cons w ws ih =>
    rw [List.mem_cons, not_or] at hws
    rw [List.cons_append, List.infix_cons_iff, List.cons_prefix_cons] at h
    rcases h with h | h
    · exact absurd h.1 hws.1
    · exact ih hws.2 h

/-- **None is left.** -/
theorem occurs_replaceAll (has : p ∉ as) (hbs : p ∉ bs) (hab : ¬as <+: bs) (hba : ¬bs <+: as)
    (xs : List α) : ¬p :: as <:+: replaceAll (p :: as) (p :: bs) xs := by
  induction xs using replaced_induction (p := p) (t := as) with
  | nil => simp
  | found xs ih =>
    rw [replaceAll_append, List.cons_append, List.infix_cons_iff, List.cons_prefix_cons]
    rintro (⟨-, hpre⟩ | hin)
    · exact not_prefix_append hab hba hpre
    · exact ih (infix_append_of_notMem hbs hin)
  | other x xs hpre ih =>
    rw [replaceAll_cons hpre, List.infix_cons_iff]
    rintro (hnew | hin)
    · exact not_prefix_cons_replaceAll has hpre hnew
    · exact ih hin

end SameFirst

end ClaudeReplay.Lib
