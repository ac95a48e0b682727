import ClaudeReplay.Tasks.Edit
import Mathlib.Data.List.Induction

/-!
# ClaudeReplay.Tasks.Native

What a todo snapshot does to the native tasks.

A task is *native* when a create landed it or an update touched it; the other tasks of the
list are a snapshot's. Whose list it is the fold does not record: a snapshot is let through
when the ids are numbered as a snapshot numbers them, and a retraction puts the list back
that its snapshot replaced, whatever landed in between.

So a native task stays as long as no operation replaces the list once there is one
(`native_stays`). Until then what is replaced is what earlier snapshots put there.
-/

namespace ClaudeReplay

namespace TaskFold

/-! ## the live path -/

variable {f : TaskFold} {op : TaskOp}

/-- Recording an operation or not, the list comes to the same. -/
theorem apply_items (f : TaskFold) (op : TaskOp) :
    (f.apply op).items = (f.applyRecorded op).items := by
  unfold apply
  split
  · next hskip => exact hskip.2.symm
  · cases op with
    | create | update => rfl
    | resolve toolUseId id =>
      simp only [applyRecorded, join]
      split
      · rfl
      · cases id <;> rfl
    | snapshot todos toolUseId =>
      simp only [applyRecorded]
      split <;> rfl
    | retract toolUseId =>
      simp only [applyRecorded]
      split
      · split <;> rfl
      · rfl

theorem Tidy.apply (h : f.Tidy) (op : TaskOp) : (f.apply op).Tidy := by
  unfold TaskFold.apply
  split
  · exact h
  · have hrecorded : ({ f with recorded := f.recorded ++ [op] } : TaskFold).Tidy :=
      ⟨h.items, h.held, h.drafts⟩
    exact hrecorded.applyRecorded op

/-- What an operation leaves held: what was, nothing, or the list it replaced. -/
theorem held_apply {id : String} {items : List TaskItem}
    (h : (f.apply op).held = some (id, items)) : f.held = some (id, items) ∨ items = f.items := by
  unfold apply at h
  split at h
  · exact .inl h
  · cases op with
    | create | update => exact .inl h
    | resolve toolUseId id' =>
      simp only [applyRecorded, join] at h
      split at h
      · exact .inl h
      · cases id' <;> exact .inl h
    | snapshot todos toolUseId =>
      simp only [applyRecorded] at h
      split at h
      · obtain ⟨k, _, hpair⟩ := Option.map_eq_some_iff.mp h
        exact .inr (congrArg Prod.snd hpair).symm
      · exact .inl h
    | retract toolUseId =>
      simp only [applyRecorded] at h
      split at h
      · split at h
        · contradiction
        · exact .inl h
      · exact .inl h

/-! ## courses -/

/-- The fold after some operations, and the tasks they landed or touched. -/
structure Course where
  fold : TaskFold := {}
  native : List String := []

namespace Course

/-- One operation. -/
def apply (c : Course) (op : TaskOp) : Course :=
  ⟨c.fold.apply op, c.native ++ ((c.fold.edit op).map (·.1)).toList⟩

/-- A course of operations. -/
def run (ops : List TaskOp) : Course := ops.foldl apply {}

/-- An operation that puts another list in the place of the fold's finds no native task. -/
def Unmixed (c : Course) (op : TaskOp) : Prop :=
  ∀ items, c.fold.replaces op = some items → items ≠ c.fold.items → c.native = []

instance (c : Course) (op : TaskOp) : Decidable (c.Unmixed op) :=
  match h : c.fold.replaces op with
  | none => .isTrue fun items hitems => by rw [h] at hitems; contradiction
  | some items =>
    decidable_of_iff (items ≠ c.fold.items → c.native = []) <| by
      rw [Unmixed, h]
      simp

/-- The task is as some snapshot put it. -/
def FromSnapshot (ops : List TaskOp) (t : TaskItem) : Prop :=
  ∃ todos toolUseId, .snapshot todos toolUseId ∈ ops ∧ t ∈ snapshotItems todos

/-- What the operation after `ops` must do: the native tasks stand as they were, unless it
edits one; and a snapshot that changes the list takes the place of what earlier snapshots
put there. -/
structure Spares (ops : List TaskOp) (op : TaskOp) : Prop where
  native : (run ops).fold.edit op = none → ∀ id ∈ (run ops).native,
    lookup ((run ops).apply op).fold.items id = lookup (run ops).fold.items id
  owned : ∀ todos toolUseId, op = .snapshot todos toolUseId →
    ((run ops).apply op).fold.items = (run ops).fold.items ∨
      (((run ops).apply op).fold.items = sortItems (snapshotItems todos) ∧
        ∀ t ∈ (run ops).fold.items, FromSnapshot ops t)

/-- **The state of a course.** The native tasks are there; before the first one every task is
a snapshot's. -/
structure Kept (ops : List TaskOp) (c : Course) : Prop where
  tidy : c.fold.Tidy
  native : ∀ id ∈ c.native, (lookup c.fold.items id).isSome = true
  items : c.native = [] → ∀ t ∈ c.fold.items, FromSnapshot ops t
  held : c.native = [] → ∀ id items, c.fold.held = some (id, items) →
    ∀ t ∈ items, FromSnapshot ops t

theorem run_append (ops : List TaskOp) (op : TaskOp) : run (ops ++ [op]) = (run ops).apply op := by
  rw [run, List.foldl_append]
  rfl

theorem FromSnapshot.mono {ops : List TaskOp} {t : TaskItem} (h : FromSnapshot ops t)
    (op : TaskOp) : FromSnapshot (ops ++ [op]) t := by
  obtain ⟨todos, toolUseId, hmem, ht⟩ := h
  exact ⟨todos, toolUseId, List.mem_append_left _ hmem, ht⟩

/-- What replaces the list edits no task. -/
theorem edit_of_replaces {items : List TaskItem} (h : f.replaces op = some items) :
    f.edit op = none := by
  cases op with
  | snapshot | retract => rfl
  | _ => contradiction

/-- **One operation keeps the state**, when it is unmixed. -/
theorem Kept.apply {ops : List TaskOp} {c : Course} (h : Kept ops c) (op : TaskOp)
    (hop : c.Unmixed op) : Kept (ops ++ [op]) (c.apply op) := by
  have hitems : (c.apply op).fold.items = (c.fold.applyRecorded op).items :=
    apply_items c.fold op
  have hheld : c.native = [] → ∀ id items, (c.apply op).fold.held = some (id, items) →
      ∀ t ∈ items, FromSnapshot (ops ++ [op]) t := by
    intro hnative id items hheld t ht
    obtain hold | rfl := held_apply hheld
    · exact (h.held hnative id items hold t ht).mono op
    · exact (h.items hnative t ht).mono op
  cases hreplaces : c.fold.replaces op with
  | some items =>
    have hedit := edit_of_replaces hreplaces
    have hnative : (c.apply op).native = c.native := by
      rw [Course.apply, hedit]
      exact List.append_nil _
    have hnew := items_of_replaces hreplaces
    have hsnapshot : c.native = [] → ∀ t ∈ items, FromSnapshot (ops ++ [op]) t := by
      intro hnone t ht
      cases op with
      | snapshot todos toolUseId =>
        simp only [replaces] at hreplaces
        split at hreplaces
        · obtain rfl := Option.some.inj hreplaces
          exact ⟨todos, toolUseId, by simp, (sortItems_perm _).mem_iff.mp ht⟩
        · contradiction
      | retract toolUseId =>
        simp only [replaces] at hreplaces
        split at hreplaces
        · next id items' hheld =>
          split at hreplaces
          · obtain rfl := Option.some.inj hreplaces
            exact (h.held hnone id items' hheld t ht).mono _
          · contradiction
        · contradiction
      | _ => contradiction
    constructor
    case tidy => exact h.tidy.apply op
    case native =>
      rw [hnative, hitems, hnew]
      by_cases hsame : items = c.fold.items
      · rw [hsame]
        exact h.native
      · rw [hop items hreplaces hsame]
        simp
    case items =>
      rw [hnative, hitems, hnew]
      exact hsnapshot
    case held =>
      rw [hnative]
      exact hheld
  | none =>
    have hlookup := lookup_of_not_replaces h.tidy hreplaces
    constructor
    case tidy => exact h.tidy.apply op
    case native =>
      intro id hid
      rw [hitems, hlookup]
      cases hedit : c.fold.edit op with
      | none =>
        simp only [Course.apply, hedit, Option.map_none, Option.toList_none, List.append_nil] at hid
        exact h.native id hid
      | some edit =>
        simp only [Course.apply, hedit, Option.map_some, Option.toList_some, List.mem_append,
          List.mem_singleton] at hid
        rw [Option.elim_some, edited]
        split
        · rfl
        · next hne => exact h.native id (hid.resolve_right hne)
    case items =>
      intro hnone t ht
      obtain ⟨hnative, hedit⟩ := List.append_eq_nil_iff.mp hnone
      have hedit' : c.fold.edit op = none := by
        cases he : c.fold.edit op with
        | none => rfl
        | some edit => simp [he] at hedit
      have hsame : (c.fold.applyRecorded op).items = c.fold.items :=
        (h.tidy.applyRecorded op).items.ext_lookup h.tidy.items fun id => by
          rw [hlookup, hedit', Option.elim_none]
      rw [hitems, hsame] at ht
      exact (h.items hnative t ht).mono op
    case held => exact fun hnone => hheld (List.append_eq_nil_iff.mp hnone).1

/-- **A course keeps the state**, when all of it is unmixed. -/
theorem kept_run (ops : List TaskOp)
    (h : ∀ pre op post, ops = pre ++ op :: post → (run pre).Unmixed op) : Kept ops (run ops) := by
  induction ops using List.reverseRecOn with
  | nil => exact ⟨tidy_start, by simp [run], by simp [run], by simp [run]⟩
  | append_singleton ops op ih =>
    rw [run_append]
    refine (ih fun pre op' post hsplit => h pre op' (post ++ [op]) ?_).apply op (h ops op [] rfl)
    rw [hsplit, List.append_assoc, List.cons_append]

/-- What one operation does in such a course. -/
theorem Kept.spares {ops : List TaskOp} (h : Kept ops (run ops)) (op : TaskOp)
    (hop : (run ops).Unmixed op) : Spares ops op := by
  have hitems : ((run ops).apply op).fold.items = ((run ops).fold.applyRecorded op).items :=
    apply_items _ op
  constructor
  case native =>
    intro hedit id hid
    rw [hitems]
    cases hreplaces : (run ops).fold.replaces op with
    | none => rw [lookup_of_not_replaces h.tidy hreplaces, hedit, Option.elim_none]
    | some items =>
      rw [items_of_replaces hreplaces]
      by_cases hsame : items = (run ops).fold.items
      · rw [hsame]
      · rw [hop items hreplaces hsame] at hid
        contradiction
  case owned =>
    rintro todos toolUseId rfl
    rw [hitems]
    simp only [TaskFold.applyRecorded]
    split
    · next hbuilt =>
      by_cases hsame : sortItems (snapshotItems todos) = (run ops).fold.items
      · exact .inl hsame
      · refine .inr ⟨rfl, h.items (hop (sortItems (snapshotItems todos)) ?_ hsame)⟩
        simp only [replaces, hbuilt, if_true]
    · exact .inl rfl

/-- **A todo snapshot never removes a native task**, in every course where, once there is one,
no snapshot that is let through and no retraction changes the list: after any part of it
every task that was landed or touched is in the list, and every operation spares them. -/
theorem native_stays (ops : List TaskOp)
    (h : ∀ pre op post, ops = pre ++ op :: post → (run pre).Unmixed op) :
    (∀ pre post, ops = pre ++ post →
      ∀ id ∈ (run pre).native, (lookup (run pre).fold.items id).isSome = true) ∧
    ∀ pre op post, ops = pre ++ op :: post → Spares pre op := by
  have hkept : ∀ pre post, ops = pre ++ post → Kept pre (run pre) := by
    intro pre post hsplit
    refine kept_run pre fun pre' op post' hpre => h pre' op (post' ++ post) ?_
    rw [hsplit, hpre, List.append_assoc, List.cons_append]
  constructor
  · intro pre post hsplit
    exact (hkept pre post hsplit).native
  · intro pre op post hsplit
    exact (hkept pre (op :: post) hsplit).spares op (h pre op post hsplit)

/-- Two todo lists, then a native task, which a third todo list leaves alone. -/
theorem native_stays_todos :
    let ops : List TaskOp := [.snapshot [⟨"a", "pending", ""⟩] none,
      .snapshot [⟨"b", "pending", ""⟩] none, .create "k" "real" "" "" [], .resolve "k" (some "12"),
      .snapshot [⟨"c", "pending", ""⟩] none]
    (∀ pre post, ops = pre ++ post →
      ∀ id ∈ (run pre).native, (lookup (run pre).fold.items id).isSome = true) ∧
    ∀ pre op post, ops = pre ++ op :: post → Spares pre op := by
  intro ops
  refine native_stays ops fun pre op post hsplit => ?_
  have hall : ∀ i (h : i < ops.length), (run (ops.take i)).Unmixed ops[i] := by decide +kernel
  have hlen : pre.length < ops.length := by simp [hsplit]
  have hstep := hall pre.length hlen
  simpa [hsplit] using hstep

/-- The first native task of a session is given the number a todo list of one leaves free;
the next todo list removes it. -/
theorem todos_remove_native :
    let ops : List TaskOp := [.snapshot [⟨"a", "pending", ""⟩] none, .create "k" "real" "" "" [],
      .resolve "k" (some "1"), .snapshot [⟨"b", "pending", ""⟩] none]
    "1" ∈ (run ops).native ∧ lookup (run ops).fold.items "1" = none := by
  decide +kernel

end Course

end TaskFold

end ClaudeReplay
