import ClaudeReplay.Monitor.Consent

/-!
# ClaudeReplay.Monitor.Orderly

The requests on the consent file that keep out of each other's way. Nothing locks the
file, so `Store.Clear` states the missing exclusion as a condition on the state a step
starts from, and `Orderly` are the steps that meet it; `Move` says what such a step does.

An orderly run has at most one save at a time (`Store.Solo`), so the list that the file
holds, or is being given, is well defined: `Store.Holds` says that a property has it, and
`Move.holds` is the rule by which it keeps it.
-/

namespace ClaudeReplay.Monitor

open Lib

variable {ι : Type} [DecidableEq ι] (json : Json)

namespace Store

@[simp] theorem goto_file (s : Store ι) (i : ι) (p : Phase) : (s.goto i p).file = s.file := rfl

@[simp] theorem goto_phase_self (s : Store ι) (i : ι) (p : Phase) : (s.goto i p).phase i = p :=
  Function.update_self ..

@[simp] theorem goto_phase_of_ne {i j : ι} (h : j ≠ i) (s : Store ι) (p : Phase) :
    (s.goto i p).phase j = s.phase j :=
  Function.update_of_ne h ..

theorem goto_phase (s : Store ι) (i j : ι) (p : Phase) :
    (s.goto i p).phase j = if j = i then p else s.phase j := by
  by_cases h : j = i
  · subst h
    simp
  · simp [h]

end Store

/-! ## the steps that keep out of each other's way -/

/-- One of the two grants a session that the other revokes. -/
def Op.clash : Op → Op → Bool
  | .grant t, .revoke sid | .revoke sid, .grant t => t.sid = sid
  | _, _ => false

/-- No save is under way. -/
def Store.Calm (s : Store ι) : Prop := ∀ i, (s.phase i).isSaving = false

/-- **The missing exclusion.** A list is loaded while no save is under way; a save starts
while no other is under way, from the list that the file still holds; a grant and a revoke
of one session do not overlap; and the file can be read and written. -/
def Store.Clear (s : Store ι) (e : Event ι) : Prop :=
  match e.act with
  | .call op => ∀ i op', (s.phase i).op? = some op' → op.clash op' = false
  | .load _ => s.Calm
  | .openFile =>
    s.Calm ∧ ∀ op now seen, s.phase e.who = .editing op now seen → load json s.file = seen
  | .loadFails _ | .openFails | .writeFails => False
  | .write _ | .reply _ _ => True

/-- A step from a state that is clear for it. -/
def Orderly (s : Store ι) (e : Event ι) (t : Store ι) : Prop := s.Next json e t ∧ s.Clear json e

/-- What an orderly step does. -/
inductive Move (s : Store ι) : Event ι → Store ι → Prop
  | call (i : ι) (op : Op) (hphase : s.phase i = .idle)
      (hclash : ∀ j op', (s.phase j).op? = some op' → op.clash op' = false) :
      Move s ⟨i, .call op⟩ (s.goto i (.called op))
  | load (i : ι) (op : Op) (now : UInt64) (hphase : s.phase i = .called op) (hcalm : s.Calm) :
      Move s ⟨i, .load now⟩ (s.goto i (op.loaded now (load json s.file)))
  | openFile (i : ι) (op : Op) (now : UInt64)
      (hphase : s.phase i = .editing op now (Monitor.load json s.file)) (hcalm : s.Calm) :
      Move s ⟨i, .openFile⟩
        { (s.goto i (.saving op now (Monitor.load json s.file) 0)) with file := some [] }
  | write (i : ι) (n : Nat) (op : Op) (now : UInt64) (seen : List Grant) (offset : Nat)
      (hphase : s.phase i = .saving op now seen offset) (piece : List UInt8)
      (hpiece : piece = ((encode json (op.edited now seen)).drop offset).take n)
      (hmore : offset + piece.length < (encode json (op.edited now seen)).length) :
      Move s ⟨i, .write n⟩ { (s.goto i (.saving op now seen (offset + piece.length))) with
        file := some (writeAt (s.file.getD []) offset piece) }
  | fill (i : ι) (n : Nat) (op : Op) (now : UInt64) (seen : List Grant) (offset : Nat)
      (hphase : s.phase i = .saving op now seen offset) (piece : List UInt8)
      (hpiece : piece = ((encode json (op.edited now seen)).drop offset).take n)
      (hlast : (encode json (op.edited now seen)).length ≤ offset + piece.length) :
      Move s ⟨i, .write n⟩ { (s.goto i (.ended op (op.answer now seen))) with
        file := some (writeAt (s.file.getD []) offset piece) }
  | reply (i : ι) (op : Op) (answer : Answer) (hphase : s.phase i = .ended op answer) :
      Move s ⟨i, .reply op answer⟩ (s.goto i .idle)

variable {json}
variable {s t : Store ι} {e : Event ι}

theorem Orderly.move (h : Orderly json s e t) : Move json s e t := by
  obtain ⟨hnext, hclear⟩ := h
  obtain ⟨i, act⟩ := e
  cases act with
  | call op =>
    cases hphase : s.phase i <;> simp only [Store.Next, Store.step, hphase] at hnext <;>
      cases hnext
    exact .call i op hphase hclear
  | load now =>
    cases hphase : s.phase i <;> simp only [Store.Next, Store.step, hphase] at hnext <;>
      cases hnext
    exact .load i _ now hphase hclear
  | loadFails now => exact hclear.elim
  | openFile =>
    cases hphase : s.phase i <;> simp only [Store.Next, Store.step, hphase] at hnext <;>
      cases hnext
    obtain ⟨hcalm, hseen⟩ := hclear
    obtain rfl := hseen _ _ _ hphase
    exact .openFile i _ _ hphase hcalm
  | openFails => exact hclear.elim
  | write n =>
    cases hphase : s.phase i <;> simp only [Store.Next, Store.step, hphase] at hnext <;>
      cases hnext
    split
    · rename_i hmore
      exact .write i n _ _ _ _ hphase _ rfl hmore
    · rename_i hlast
      exact .fill i n _ _ _ _ hphase _ rfl (Nat.le_of_not_lt hlast)
  | writeFails => exact hclear.elim
  | reply op answer =>
    cases hphase : s.phase i <;> simp only [Store.Next, Store.step, hphase] at hnext
    case ended =>
      split at hnext
      · rename_i hsame
        obtain ⟨rfl, rfl⟩ := hsame
        cases hnext
        exact .reply i op answer hphase
      · cases hnext
    all_goals cases hnext

/-! ## the list of the file -/

theorem Grant.fromValue_toValue (g : Grant) : Grant.fromValue g.toValue = some g := by
  have hsock : (g.toValue.get? "sock").bind Value.asStr = g.sock := by
    obtain ⟨sock, _⟩ := g
    cases sock <;> rfl
  have hpane : g.toValue.get? "pane" = some (.str g.pane) := rfl
  have hsid : g.toValue.get? "sid" = some (.str g.sid) := rfl
  have hpid : g.toValue.get? "pid" = some (.num g.pid.toNat) := rfl
  have hgranted : g.toValue.get? "granted_at" = some (.num g.grantedAt.toNat) := rfl
  have hexpires : g.toValue.get? "expires_at" = some (.num g.expiresAt.toNat) := rfl
  have hstr (s : String) : (Value.str s).asStr = some s := rfl
  rw [fromValue, hsock, hpane, hsid, hpid, hgranted, hexpires]
  -- the unfolded conversions must not be compared by computation
  simp -implicitDefEqProofs only [Option.bind_eq_bind, Option.bind_some, hstr, Value.asU32_num,
    Value.asU64_num]
  rfl

/-- The JSON library reads back what it printed. -/
def Json.ReadsBack (json : Json) : Prop :=
  ∀ gs : List Grant, json.parse (encode json gs) = some (.arr (gs.map Grant.toValue))

/-- Every stored grant is read. -/
theorem filterMap_toValue (gs : List Grant) :
    (gs.map Grant.toValue).filterMap Grant.fromValue = gs := by
  have hread : Grant.fromValue ∘ Grant.toValue = some :=
    funext fun g => (Function.comp_apply ..).trans g.fromValue_toValue
  rw [List.filterMap_map, hread, List.filterMap_some]

/-- The list of grants that a save has written is the list that a load finds. -/
theorem load_encode (hjson : json.ReadsBack) (gs : List Grant) :
    load json (some (encode json gs)) = gs := by
  simp only [load, hjson gs]
  exact filterMap_toValue gs

/-- Writing at the end of what is written extends it. -/
theorem writeAt_take {body : List UInt8} {offset n : Nat} (h : offset ≤ body.length) :
    writeAt (body.take offset) offset ((body.drop offset).take n) =
      body.take (offset + ((body.drop offset).take n).length) := by
  have hlen : (body.take offset).length = offset := by
    rw [List.length_take]
    omega
  have hend : writeAt (body.take offset) offset ((body.drop offset).take n) =
      body.take offset ++ (body.drop offset).take n := by
    unfold writeAt
    rw [List.take_take, Nat.min_self, hlen, Nat.sub_self, List.replicate_zero, List.append_nil,
      @List.drop_eq_nil_of_le _ (body.take offset) _ (by omega), List.append_nil]
  rw [hend, List.take_add, List.length_take, ← List.take_eq_take_min]

/-! ## the list that the file holds, or is being given -/

variable (json)

/-- A save is the only one under way, and the file holds what it has written. -/
def Store.Solo (s : Store ι) : Prop :=
  ∀ i op now seen offset, s.phase i = .saving op now seen offset →
    offset ≤ (encode json (op.edited now seen)).length ∧
      s.file = some ((encode json (op.edited now seen)).take offset) ∧
      ∀ j, (s.phase j).isSaving = true → j = i

/-- `P` has the list that the file holds or, while it is being written, will hold. -/
def Store.Holds (s : Store ι) (P : List Grant → Prop) : Prop :=
  (s.Calm → P (load json s.file)) ∧
    ∀ i op now seen offset, s.phase i = .saving op now seen offset → P (op.edited now seen)

variable {json}

omit [DecidableEq ι] in
theorem Store.Holds.mono {P P' : List Grant → Prop} (hle : ∀ gs, P gs → P' gs)
    (h : s.Holds json P) : s.Holds json P' :=
  ⟨fun hcalm => hle _ (h.1 hcalm), fun i op now seen offset hphase =>
    hle _ (h.2 i op now seen offset hphase)⟩

/-- A request that moves outside its save leaves every save as it is. -/
theorem goto_saving_iff {i j : ι} {p : Phase} {op : Op} {now : UInt64} {seen : List Grant}
    {offset : Nat} (hp : p.isSaving = false) (hi : (s.phase i).isSaving = false) :
    (s.goto i p).phase j = .saving op now seen offset ↔ s.phase j = .saving op now seen offset := by
  rw [Store.goto_phase]
  split
  · rename_i h
    subst h
    constructor <;> intro h <;> simp [h, Phase.isSaving] at hp hi
  · rfl

theorem goto_calm_iff {i : ι} {p : Phase} (hp : p.isSaving = false)
    (hi : (s.phase i).isSaving = false) : (s.goto i p).Calm ↔ s.Calm := by
  unfold Store.Calm
  apply forall_congr'
  intro j
  rw [Store.goto_phase]
  split
  · rename_i h
    subst h
    simp [hp, hi]
  · rfl

theorem goto_isSaving {i j : ι} {p : Phase} (hp : p.isSaving = false)
    (h : ((s.goto i p).phase j).isSaving = true) : j ≠ i ∧ (s.phase j).isSaving = true := by
  rw [Store.goto_phase] at h
  split at h
  · simp [hp] at h
  · exact ⟨‹_›, h⟩

theorem Op.loaded_isSaving (op : Op) (now : UInt64) (seen : List Grant) :
    (op.loaded now seen).isSaving = false := by
  unfold Op.loaded
  split <;> rfl

theorem Store.Solo.goto {i : ι} {p : Phase} (h : s.Solo json) (hp : p.isSaving = false)
    (hi : (s.phase i).isSaving = false) : (s.goto i p).Solo json := by
  intro j op now seen offset hphase
  obtain ⟨hbound, hfile, honly⟩ := h j op now seen offset ((goto_saving_iff hp hi).mp hphase)
  exact ⟨hbound, hfile, fun k hk => honly k (goto_isSaving hp hk).2⟩

theorem Store.Holds.goto {P : List Grant → Prop} {i : ι} {p : Phase} (h : s.Holds json P)
    (hp : p.isSaving = false) (hi : (s.phase i).isSaving = false) :
    (s.goto i p).Holds json P := by
  constructor
  · intro hcalm
    exact h.1 ((goto_calm_iff hp hi).mp hcalm)
  · intro j op now seen offset hphase
    exact h.2 j op now seen offset ((goto_saving_iff hp hi).mp hphase)

theorem Move.solo (hmove : Move json s e t) (h : s.Solo json) : t.Solo json := by
  cases hmove with
  | call i op hphase => exact h.goto rfl (by rw [hphase]; rfl)
  | load i op now hphase => exact h.goto (op.loaded_isSaving _ _) (by rw [hphase]; rfl)
  | openFile i op now hphase hcalm =>
    intro j op' now' seen' offset' hphase'
    simp only [Store.goto_phase] at hphase' ⊢
    split at hphase'
    · rename_i hj
      subst hj
      cases hphase'
      refine ⟨Nat.zero_le _, rfl, ?_⟩
      intro k hk
      by_contra hne
      rw [if_neg hne, hcalm k] at hk
      cases hk
    · have := hcalm j
      simp [hphase', Phase.isSaving] at this
  | write i n op now seen offset hphase piece hpiece hmore =>
    obtain ⟨hbound, hfile, honly⟩ := h i op now seen offset hphase
    intro j op' now' seen' offset' hphase'
    simp only [Store.goto_phase] at hphase' ⊢
    split at hphase'
    · rename_i hj
      subst hj
      cases hphase'
      refine ⟨Nat.le_of_lt hmore, ?_, ?_⟩
      · subst hpiece
        rw [hfile, Option.getD_some, writeAt_take hbound]
      · intro k hk
        by_contra hne
        rw [if_neg hne] at hk
        exact hne (honly k hk)
    · rename_i hne
      exact absurd (honly j (by rw [hphase']; rfl)) hne
  | fill i n op now seen offset hphase piece hpiece hlast =>
    obtain ⟨_, _, honly⟩ := h i op now seen offset hphase
    intro j op' now' seen' offset' hphase'
    simp only [Store.goto_phase] at hphase'
    split at hphase'
    · cases hphase'
    · rename_i hne
      exact absurd (honly j (by rw [hphase']; rfl)) hne
  | reply i op answer hphase => exact h.goto rfl (by rw [hphase]; rfl)

/-- The last write of a save makes the file hold the list that was being written. -/
theorem fill_holds {P : List Grant → Prop} (hjson : json.ReadsBack) (h : s.Solo json) {i : ι}
    {n : Nat} {op : Op} {now : UInt64} {seen : List Grant} {offset : Nat} {piece : List UInt8}
    (hphase : s.phase i = .saving op now seen offset)
    (hpiece : piece = ((encode json (op.edited now seen)).drop offset).take n)
    (hlast : (encode json (op.edited now seen)).length ≤ offset + piece.length)
    (hP : P (op.edited now seen)) (p : Phase) (hp : p.isSaving = false) :
    Store.Holds json { (s.goto i p) with file := some (writeAt (s.file.getD []) offset piece) }
      P := by
  obtain ⟨hbound, hfile, honly⟩ := h i op now seen offset hphase
  constructor
  · intro _
    show P (load json (some (writeAt (s.file.getD []) offset piece)))
    subst hpiece
    rw [hfile, Option.getD_some, writeAt_take hbound, List.take_of_length_le hlast,
      load_encode hjson]
    exact hP
  · intro j op' now' seen' offset' hphase'
    simp only [Store.goto_phase] at hphase'
    split at hphase'
    · simp [hphase', Phase.isSaving] at hp
    · rename_i hne
      exact absurd (honly j (by rw [hphase']; rfl)) hne

/-- **The rule for the file's list.** What the list has, it keeps, if no save that starts
takes it away. -/
theorem Move.holds {P : List Grant → Prop} (hjson : json.ReadsBack) (hmove : Move json s e t)
    (hsolo : s.Solo json) (h : s.Holds json P)
    (hopen : ∀ i op now,
      e = ⟨i, .openFile⟩ → s.phase i = .editing op now (Monitor.load json s.file) →
      P (Monitor.load json s.file) → P (op.edited now (Monitor.load json s.file))) :
    t.Holds json P := by
  cases hmove with
  | call i op hphase => exact h.goto rfl (by rw [hphase]; rfl)
  | load i op now hphase => exact h.goto (op.loaded_isSaving _ _) (by rw [hphase]; rfl)
  | openFile i op now hphase hcalm =>
    constructor
    · intro hcalm'
      have := hcalm' i
      simp [Phase.isSaving] at this
    · intro j op' now' seen' offset' hphase'
      simp only [Store.goto_phase] at hphase'
      split at hphase'
      · cases hphase'
        exact hopen i op now rfl hphase (h.1 hcalm)
      · have := hcalm j
        simp [hphase', Phase.isSaving] at this
  | write i n op now seen offset hphase piece hpiece hmore =>
    constructor
    · intro hcalm'
      have := hcalm' i
      simp [Phase.isSaving] at this
    · intro j op' now' seen' offset' hphase'
      simp only [Store.goto_phase] at hphase'
      split at hphase'
      · cases hphase'
        exact h.2 i op now seen offset hphase
      · exact h.2 j op' now' seen' offset' hphase'
  | fill i n op now seen offset hphase piece hpiece hlast =>
    exact fill_holds hjson hsolo hphase hpiece hlast (h.2 i op now seen offset hphase) _ rfl
  | reply i op answer hphase => exact h.goto rfl (by rw [hphase]; rfl)

/-! ## who is under way -/

/-- A step that neither calls nor replies leaves the request under way. -/
theorem Move.op? (hmove : Move json s e t) (j : ι) :
    (t.phase j).op? = (s.phase j).op? ∨
      (∃ op, e = ⟨j, .call op⟩ ∧ (t.phase j).op? = some op) ∨ (t.phase j).op? = none := by
  have hself (i : ι) (p : Phase) (hp : p.op? = (s.phase i).op?) :
      ((s.goto i p).phase j).op? = (s.phase j).op? := by
    rw [Store.goto_phase]
    split
    · rename_i h
      rw [h, hp]
    · rfl
  cases hmove with
  | call i op hphase =>
    by_cases hj : j = i
    · subst hj
      exact .inr (.inl ⟨op, rfl, by simp [Phase.op?]⟩)
    · exact .inl (by rw [Store.goto_phase_of_ne hj])
  | load i op now hphase =>
    refine .inl (hself i _ ?_)
    rw [hphase]
    unfold Op.loaded
    split <;> rfl
  | openFile i op now hphase => exact .inl (hself i _ (by rw [hphase]; rfl))
  | write i n op now seen offset hphase => exact .inl (hself i _ (by rw [hphase]; rfl))
  | fill i n op now seen offset hphase => exact .inl (hself i _ (by rw [hphase]; rfl))
  | reply i op answer hphase =>
    by_cases hj : j = i
    · subst hj
      exact .inr (.inr (by simp [Phase.op?]))
    · exact .inl (by rw [Store.goto_phase_of_ne hj])

/-- What is under way after a step was under way before it, or is being called. -/
theorem Move.op?_cases (hmove : Move json s e t) {j : ι} {op : Op}
    (h : (t.phase j).op? = some op) : (s.phase j).op? = some op ∨ e = ⟨j, .call op⟩ := by
  obtain hsame | ⟨op', he, hop⟩ | hnone := hmove.op? j
  · exact .inl (hsame ▸ h)
  · rw [hop] at h
    exact .inr (Option.some.inj h ▸ he)
  · rw [hnone] at h
    cases h

theorem Op.clash_comm (a b : Op) : a.clash b = b.clash a := by
  cases a <;> cases b <;> rfl

theorem Op.clash_self (a : Op) : a.clash a = false := by
  cases a <;> rfl

/-- No grant and revoke of one session are under way together. -/
def Store.Apart (s : Store ι) : Prop :=
  ∀ i j op op', (s.phase i).op? = some op → (s.phase j).op? = some op' → op.clash op' = false

theorem Move.apart (hmove : Move json s e t) (h : s.Apart) : t.Apart := by
  intro i j op op' hi hj
  obtain hi' | rfl := hmove.op?_cases hi
  · obtain hj' | rfl := hmove.op?_cases hj
    · exact h i j op op' hi' hj'
    · cases hmove with
      | call _ _ hphase hclash => exact (Op.clash_comm op op').trans (hclash i op hi')
  · obtain hj' | he := hmove.op?_cases hj
    · cases hmove with
      | call _ _ hphase hclash => exact hclash j op' hj'
    · cases he
      exact op.clash_self

/-! ## what a request makes of a list -/

/-- The request grants the session. -/
def Op.Grants (sid : String) : Op → Prop
  | .grant t => t.sid = sid
  | _ => False

/-- The request grants or revokes the session. -/
def Op.Touches (sid : String) : Op → Prop
  | .grant t => t.sid = sid
  | .revoke sid' => sid' = sid
  | .consents .. => False

/-- No grant in the list is for the session. -/
def FreeOf (sid : String) (gs : List Grant) : Prop := ∀ g ∈ gs, g.sid ≠ sid

/-- A list gains nothing but the grant that was asked for. -/
theorem mem_edited {op : Op} {now : UInt64} {seen : List Grant} {g : Grant}
    (h : g ∈ op.edited now seen) : g ∈ seen ∨ ∃ t, op = .grant t ∧ g = t.grantAt now := by
  cases op with
  | grant t =>
    obtain h | h := List.mem_append.mp h
    · exact .inl (List.mem_of_mem_filter (List.mem_of_mem_filter h))
    · exact .inr ⟨t, rfl, List.mem_singleton.mp h⟩
  | revoke sid => exact .inl (List.mem_of_mem_filter (List.mem_of_mem_filter h))
  | consents t follows => exact .inl h

/-- A list loses no live grant of a session that the request is not about. -/
theorem mem_edited_of_mem {op : Op} {now : UInt64} {seen : List Grant} {g : Grant}
    (h : g ∈ seen) (hlive : now < g.expiresAt) (hother : ¬ op.Touches g.sid) :
    g ∈ op.edited now seen := by
  have hpruned : g ∈ prune seen now := List.mem_filter.mpr ⟨h, by simpa using hlive⟩
  cases op with
  | grant t =>
    apply List.mem_append_left
    apply List.mem_filter.mpr ⟨hpruned, _⟩
    have hne : g.sid ≠ t.sid := fun heq => hother heq.symm
    simp [Grant.isFor, hne]
  | revoke sid =>
    apply List.mem_filter.mpr ⟨hpruned, _⟩
    have hne : g.sid ≠ sid := fun heq => hother heq.symm
    simpa using hne
  | consents t follows => exact h

theorem revoke_freeOf (sid : String) (now : UInt64) (seen : List Grant) :
    FreeOf sid ((Op.revoke sid).edited now seen) := by
  intro g hg
  simpa using (List.mem_filter.mp hg).2

/-- A revoke that saves nothing found nothing to take away. -/
theorem revoke_unsaved {sid : String} {now : UInt64} {seen : List Grant}
    (h : (Op.revoke sid).saves now seen = false) : FreeOf sid seen := by
  have hsub : ((Op.revoke sid).edited now seen).Sublist seen :=
    List.filter_sublist.trans List.filter_sublist
  have hlen : ((Op.revoke sid).edited now seen).length = seen.length := by
    simpa [Op.saves] using h
  rw [← hsub.eq_of_length hlen]
  exact revoke_freeOf sid now seen

theorem freeOf_edited {op : Op} {sid : String} {seen : List Grant} (h : FreeOf sid seen)
    (hop : ¬ op.Grants sid) (now : UInt64) : FreeOf sid (op.edited now seen) := by
  intro g hg
  obtain hg | ⟨t, rfl, rfl⟩ := mem_edited hg
  · exact h g hg
  · exact hop

end ClaudeReplay.Monitor
