import Mathlib.Data.List.Basic
import Mathlib.Data.List.Infix

/-!
# ClaudeReplay.Lib.Cut

Cutting a list at its first separator, or at the first occurrence of a pattern.

`splitOnce_append` and `splitAt?_append` say where the cut falls in a list that was
put together around what is searched for.
-/

namespace ClaudeReplay.Lib

/-! ## a separator -/

/-- Cut at the first element equal to `sep`, which goes. -/
def splitOnce [DecidableEq α] (sep : α) : List α → Option (List α × List α)
  | [] => none
  | x :: xs => if x = sep then some ([], xs) else (splitOnce sep xs).map fun r => (x :: r.1, r.2)

theorem splitOnce_append [DecidableEq α] {sep : α} {xs : List α} (h : sep ∉ xs) (ys : List α) :
    splitOnce sep (xs ++ sep :: ys) = some (xs, ys) := by
  induction xs with
  | nil => simp [splitOnce]
  | cons x xs ih =>
    rw [List.mem_cons, not_or] at h
    simp [splitOnce, Ne.symm h.1, ih h.2]

/-- What was cut. -/
theorem splitOnce_eq_some [DecidableEq α] {sep : α} {xs ys zs : List α}
    (h : splitOnce sep xs = some (ys, zs)) : xs = ys ++ sep :: zs ∧ sep ∉ ys := by
  induction xs generalizing ys with
  | nil => simp [splitOnce] at h
  | cons x xs ih =>
    rw [splitOnce] at h
    split at h
    · next hsep =>
      cases h
      simp [hsep]
    · next hsep =>
      obtain ⟨⟨front, rest⟩, hcut, ⟨⟩⟩ := Option.map_eq_some_iff.mp h
      obtain ⟨hxs, hnot⟩ := ih hcut
      exact ⟨by rw [hxs]; rfl, by simp [hnot, Ne.symm hsep]⟩

/-- A separator that neither tail contains splits a text in one way. -/
theorem split_last {sep : α} {xs xs' ys ys' : List α} (hys : sep ∉ ys)
    (hys' : sep ∉ ys') (h : xs ++ sep :: ys = xs' ++ sep :: ys') : xs = xs' ∧ ys = ys' := by
  obtain ⟨zs, rfl, hzs⟩ | ⟨zs, rfl, hzs⟩ := List.append_eq_append_iff.mp h
  · cases zs with
    | nil => simpa using hzs
    | cons z zs =>
      obtain ⟨rfl, rfl⟩ := List.cons.inj hzs
      exact absurd (List.mem_append_right zs List.mem_cons_self) hys
  · cases zs with
    | nil => simpa [eq_comm] using hzs
    | cons z zs =>
      obtain ⟨rfl, rfl⟩ := List.cons.inj hzs
      exact absurd (List.mem_append_right zs List.mem_cons_self) hys'

/-! ## what stands at the ends -/

/-- What is behind `pat`, if the list begins with it. -/
def stripFront? [DecidableEq α] (pat xs : List α) : Option (List α) :=
  if pat.isPrefixOf xs then some (xs.drop pat.length) else none

/-- What is before `pat`, if the list ends in it. -/
def stripBack? [DecidableEq α] (pat xs : List α) : Option (List α) :=
  if pat.isSuffixOf xs then some (xs.take (xs.length - pat.length)) else none

theorem stripFront?_eq_some [DecidableEq α] {pat xs ys : List α} :
    stripFront? pat xs = some ys ↔ xs = pat ++ ys := by
  rw [stripFront?]
  constructor
  · intro h
    split at h
    · next hpre =>
      obtain ⟨more, rfl⟩ := List.isPrefixOf_iff_prefix.mp hpre
      rw [List.drop_left, Option.some.injEq] at h
      rw [h]
    · contradiction
  · rintro rfl
    rw [if_pos (List.isPrefixOf_iff_prefix.mpr (List.prefix_append _ _)), List.drop_left]

theorem stripBack?_eq_some [DecidableEq α] {pat xs ys : List α} :
    stripBack? pat xs = some ys ↔ xs = ys ++ pat := by
  rw [stripBack?]
  constructor
  · intro h
    split at h
    · next hsuf =>
      obtain ⟨more, rfl⟩ := List.isSuffixOf_iff_suffix.mp hsuf
      rw [List.length_append, Nat.add_sub_cancel, List.take_left, Option.some.injEq] at h
      rw [h]
    · contradiction
  · rintro rfl
    rw [if_pos (List.isSuffixOf_iff_suffix.mpr (List.suffix_append _ _)), List.length_append,
      Nat.add_sub_cancel, List.take_left]

/-! ## a pattern -/

/-- Cut at the first occurrence of `pat`, which goes. -/
def splitAt? [DecidableEq α] (pat : List α) : List α → Option (List α × List α)
  | [] => if pat = [] then some ([], []) else none
  | x :: xs =>
    if pat.isPrefixOf (x :: xs) then some ([], (x :: xs).drop pat.length)
    else (splitAt? pat xs).map fun r => (x :: r.1, r.2)

/-- `pat` occurs in the list. -/
def occurs [DecidableEq α] (pat xs : List α) : Bool := (splitAt? pat xs).isSome

/-- A pattern occurs where it stands, whatever is around it. -/
theorem occurs_iff [DecidableEq α] {pat xs : List α} :
    occurs pat xs = true ↔ pat <:+: xs := by
  induction xs with
  | nil =>
    by_cases hpat : pat = []
    · simp [occurs, splitAt?, hpat]
    · simp [occurs, splitAt?, hpat]
  | cons x xs ih =>
    rw [List.infix_cons_iff, ← ih, ← List.isPrefixOf_iff_prefix]
    by_cases hpre : pat.isPrefixOf (x :: xs) = true
    · simp [occurs, splitAt?, hpre]
    · simp [occurs, splitAt?, hpre]

/-- A pattern that occurs in two lists put together occurs in one of them, or begins in the
first and ends in the second. -/
theorem infix_append_cases {pat xs ys : List α} (h : pat <:+: xs ++ ys) :
    pat <:+: xs ∨ pat <:+: ys ∨
      ∃ front back, pat = front ++ back ∧ front ≠ [] ∧ back ≠ [] ∧ front <:+ xs ∧ back <+: ys := by
  induction xs with
  | nil => exact .inr (.inl h)
  | cons x xs ih =>
    rw [List.cons_append, List.infix_cons_iff] at h
    rcases h with hpre | hin
    · rw [← List.cons_append] at hpre
      by_cases hlen : pat.length ≤ (x :: xs).length
      · exact .inl
          (List.prefix_of_prefix_length_le hpre (List.prefix_append _ _) hlen).isInfix
      · obtain ⟨back, rfl⟩ := List.prefix_of_prefix_length_le (List.prefix_append (x :: xs) ys) hpre
          (Nat.le_of_not_le hlen)
        rw [List.prefix_append_right_inj] at hpre
        have hback : back ≠ [] := by
          rintro rfl
          simp at hlen
        exact .inr (.inr ⟨x :: xs, back, rfl, by simp, hback, List.suffix_refl _, hpre⟩)
    · rcases ih hin with hxs | hys | ⟨front, back, rfl, hfront, hback, hsuf, hpre⟩
      · exact .inl (hxs.trans (List.suffix_cons x xs).isInfix)
      · exact .inr (.inl hys)
      · have hlonger := hsuf.trans (List.suffix_cons x xs)
        exact .inr (.inr ⟨front, back, rfl, hfront, hback, hlonger, hpre⟩)

/-- A pattern does not occur where its first element does not. -/
theorem occurs_of_notMem [DecidableEq α] {p : α} {ps xs : List α} (h : p ∉ xs) :
    occurs (p :: ps) xs = false := by
  induction xs with
  | nil => simp [occurs, splitAt?]
  | cons x xs ih =>
    rw [List.mem_cons, not_or] at h
    have hrest := ih h.2
    simp only [occurs] at hrest
    simp [occurs, splitAt?, h.1, hrest]

theorem splitAt?_self_append [DecidableEq α] {pat : List α} (hne : pat ≠ []) (ys : List α) :
    splitAt? pat (pat ++ ys) = some ([], ys) := by
  obtain ⟨p, ps, rfl⟩ := List.exists_cons_of_ne_nil hne
  simp [splitAt?]

/-- What was cut. -/
theorem splitAt?_eq_some [DecidableEq α] {pat xs ys zs : List α}
    (h : splitAt? pat xs = some (ys, zs)) : xs = ys ++ pat ++ zs := by
  induction xs generalizing ys with
  | nil =>
    rw [splitAt?] at h
    split at h
    · next hpat =>
      cases h
      simp [hpat]
    · contradiction
  | cons x xs ih =>
    rw [splitAt?] at h
    split at h
    · next hprefix =>
      cases h
      obtain ⟨rest, hrest⟩ := List.isPrefixOf_iff_prefix.mp hprefix
      rw [← hrest, List.drop_left, List.nil_append]
    · obtain ⟨⟨front, rest⟩, hcut, heq⟩ := Option.map_eq_some_iff.mp h
      cases heq
      rw [ih hcut]
      rfl

/-- **The first occurrence.** A pattern whose first element does not come again in it
cannot begin before its first full occurrence. -/
theorem splitAt?_append [DecidableEq α] {p : α} {ps : List α} (hp : p ∉ ps) {xs : List α}
    (h : occurs (p :: ps) xs = false) (ys : List α) :
    splitAt? (p :: ps) (xs ++ (p :: ps) ++ ys) = some (xs, ys) := by
  induction xs with
  | nil => simpa using @splitAt?_self_append _ _ (p :: ps) (by simp) ys
  | cons x xs ih =>
    simp only [occurs, splitAt?] at h
    split at h
    · simp at h
    · next hx =>
      have hrest : occurs (p :: ps) xs = false := by simpa [occurs] using h
      have hpre : ¬(p :: ps).isPrefixOf (x :: xs ++ (p :: ps) ++ ys) = true := by
        intro hpre
        rw [List.isPrefixOf_iff_prefix, List.append_assoc] at hpre
        by_cases hlen : (p :: ps).length ≤ (x :: xs).length
        · exact hx (List.isPrefixOf_iff_prefix.mpr
            (List.prefix_of_prefix_length_le hpre (List.prefix_append _ _) hlen))
        · -- it would begin again inside itself
          obtain ⟨ws, hws⟩ := List.prefix_of_prefix_length_le (List.prefix_append (x :: xs) _) hpre
            (Nat.le_of_not_le hlen)
          obtain ⟨zs, hzs⟩ := hpre
          have hrest : ws ++ zs = p :: ps ++ ys := by
            rw [← hws, List.append_assoc] at hzs
            rw [hws] at hzs
            exact List.append_cancel_left hzs
          cases ws with
          | nil =>
            rw [List.append_nil] at hws
            exact hlen (hws ▸ Nat.le_refl _)
          | cons w ws =>
            obtain rfl : w = p := (List.cons.inj hrest).1
            have hmem : w ∈ xs ++ w :: ws := by simp
            rw [List.cons_append, List.cons.injEq] at hws
            exact hp (hws.2 ▸ hmem)
      rw [List.cons_append, List.cons_append] at hpre ⊢
      rw [splitAt?, if_neg hpre, ih hrest]
      rfl

/-- The same for a pattern whose last element is the only one of its kind. -/
theorem splitAt?_append_last [DecidableEq α] {p : α} {ps : List α} (hp : p ∉ ps) {xs : List α}
    (h : occurs (ps ++ [p]) xs = false) (ys : List α) :
    splitAt? (ps ++ [p]) (xs ++ (ps ++ [p]) ++ ys) = some (xs, ys) := by
  induction xs with
  | nil => simpa using @splitAt?_self_append _ _ (ps ++ [p]) (by simp) ys
  | cons x xs ih =>
    simp only [occurs, splitAt?] at h
    split at h
    · simp at h
    · next hx =>
      have hrest : occurs (ps ++ [p]) xs = false := by simpa [occurs] using h
      have hpre : ¬(ps ++ [p]).isPrefixOf (x :: xs ++ (ps ++ [p]) ++ ys) = true := by
        intro hpre
        rw [List.isPrefixOf_iff_prefix, List.append_assoc] at hpre
        by_cases hlen : (ps ++ [p]).length ≤ (x :: xs).length
        · exact hx (List.isPrefixOf_iff_prefix.mpr
            (List.prefix_of_prefix_length_le hpre (List.prefix_append _ _) hlen))
        · -- it would end inside itself
          obtain ⟨ws, hws⟩ := List.prefix_of_prefix_length_le (List.prefix_append (x :: xs) _) hpre
            (Nat.le_of_not_le hlen)
          have hfront : x :: xs ++ ws <+: x :: xs ++ (ps ++ ([p] ++ ys)) := by
            rw [hws, ← List.append_assoc ps]
            exact hpre
          rw [List.prefix_append_right_inj] at hfront
          have hshort : ws.length ≤ ps.length := by
            have := congrArg List.length hws
            simp only [List.length_append, List.length_cons, List.length_nil] at this
            omega
          have hin : ws <+: ps :=
            List.prefix_of_prefix_length_le hfront (List.prefix_append _ _) hshort
          have hlast : p ∈ ws := by
            have hne : ws ≠ [] := by
              rintro rfl
              rw [List.append_nil] at hws
              exact hlen (hws ▸ Nat.le_refl _)
            have heq := congrArg List.getLast? hws
            rw [List.getLast?_append_of_ne_nil _ hne, List.getLast?_concat] at heq
            exact List.mem_of_getLast? heq
          exact hp (hin.subset hlast)
      rw [List.cons_append, List.cons_append] at hpre ⊢
      rw [splitAt?, if_neg hpre, ih hrest]
      rfl

end ClaudeReplay.Lib
