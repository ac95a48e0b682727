import ClaudeReplay.Replay.Safety

/-!
# ClaudeReplay.Replay.Effect

What a message and a commit do to the parts of a replayer that outlive the
window: the turn times, the turn durations, and the kinds of block.

An edit keeps a block's kind (`Block.Kin`): it opens a turn, is a call, carries an
id or a sender exactly as before. So a message keeps the kinds of what is
resident and appends (`Effect`), and a commit moves a prefix of the window, whose
landmarks the finisher lets through, into the durable blocks
(`finalize_effect`). Between commits the times only gain the turns that were
stamped.
-/

namespace ClaudeReplay

open Lib

/-! ## kinds -/

/-- The turn opener a block is, a command without the output that later lines add. -/
def Block.opener? : Block → Option Block
  | .command name args _ => some (.command name args [])
  | b => if b.opensTurn then some b else none

theorem Block.opener?_isSome (b : Block) : b.opener?.isSome = b.opensTurn := by
  cases b <;> rfl

/-- What an edit keeps of a block. -/
structure Block.Kin (b b' : Block) : Prop where
  opensTurn : b'.opensTurn = b.opensTurn
  opener : b'.opener? = b.opener?
  isCall : b'.isCall = b.isCall
  phase : b.phase = none → b'.phase = none
  inboxId : b'.inboxId? = b.inboxId?
  peer : b'.peer? = b.peer?
  blank : b'.isBlankThinking = b.isBlankThinking

theorem Block.Kin.refl (b : Block) : b.Kin b := ⟨rfl, rfl, rfl, id, rfl, rfl, rfl⟩

theorem Block.Kin.trans {b₁ b₂ b₃ : Block} (h : b₁.Kin b₂) (h' : b₂.Kin b₃) : b₁.Kin b₃ :=
  ⟨h'.opensTurn.trans h.opensTurn, h'.opener.trans h.opener, h'.isCall.trans h.isCall,
    fun hp => h'.phase (h.phase hp), h'.inboxId.trans h.inboxId, h'.peer.trans h.peer,
    h'.blank.trans h.blank⟩

/-- Two call blocks are of a kind when the second has no phase the first lacks. -/
theorem Block.kin_of_isCall {b b' : Block} (h : b.isCall = true) (h' : b'.isCall = true)
    (hp : b.phase = none → b'.phase = none) : b.Kin b' := by
  cases b <;> simp only [isCall, reduceCtorEq] at h <;>
    cases b' <;> simp only [isCall, reduceCtorEq] at h' <;>
    exact ⟨rfl, rfl, rfl, hp, rfl, rfl, rfl⟩

theorem Block.kin_setPath (p : String) (b : Block) : b.Kin (Replayer.setPath p b) := by
  cases b <;> first | exact .refl _ | exact ⟨rfl, rfl, rfl, id, rfl, rfl, rfl⟩

/-- Two windows whose blocks are, one by one, of a kind. -/
abbrev KinAll (xs ys : List Block) : Prop := List.Forall₂ Block.Kin xs ys

theorem kinAll_refl (xs : List Block) : KinAll xs xs := List.forall₂_same.mpr fun b _ => .refl b

theorem kinAll_trans {xs ys zs : List Block} (h : KinAll xs ys) (h' : KinAll ys zs) :
    KinAll xs zs := by
  induction h generalizing zs with
  | nil => exact h'
  | cons hb _ ih =>
    cases h' with
    | cons hb' hrest => exact .cons (hb.trans hb') (ih hrest)

theorem kinAll_set {xs : List Block} {j : Nat} {b b' : Block} (hj : xs[j]? = some b)
    (hk : b.Kin b') : KinAll xs (xs.set j b') := by
  induction xs generalizing j with
  | nil => simp at hj
  | cons x xs ih =>
    cases j with
    | zero =>
      rw [List.getElem?_cons_zero, Option.some.injEq] at hj
      subst hj
      exact .cons hk (kinAll_refl xs)
    | succ j => exact .cons (.refl x) (ih (by simpa using hj))

theorem kinAll_countP {xs ys : List Block} (h : KinAll xs ys) :
    ys.countP Block.opensTurn = xs.countP Block.opensTurn := by
  induction h with
  | nil => rfl
  | cons hb _ ih => simp only [List.countP_cons, ih, hb.opensTurn]

theorem kinAll_any {xs ys : List Block} (h : KinAll xs ys) :
    ys.any Block.opensTurn = xs.any Block.opensTurn := by
  induction h with
  | nil => rfl
  | cons hb _ ih => simp only [List.any_cons, ih, hb.opensTurn]

theorem kinAll_mem {xs ys : List Block} (h : KinAll xs ys) {b : Block} (hb : b ∈ ys) :
    ∃ b₀ ∈ xs, b₀.Kin b := by
  induction h with
  | nil => simp at hb
  | cons hkb _ ih =>
    rw [List.mem_cons] at hb
    obtain rfl | hb := hb
    · exact ⟨_, List.mem_cons_self, hkb⟩
    · obtain ⟨b₀, hb₀, hk⟩ := ih hb
      exact ⟨b₀, List.mem_cons_of_mem _ hb₀, hk⟩

theorem kinAll_phase {xs ys : List Block} (h : KinAll xs ys) (hx : ∀ b ∈ xs, b.phase = none) :
    ∀ b ∈ ys, b.phase = none := by
  intro b hb
  obtain ⟨b₀, hb₀, hk⟩ := kinAll_mem h hb
  exact hk.phase (hx b₀ hb₀)

namespace Replayer

variable {sh : Shaping} {r r' : Replayer}

/-! ## the effect of a message -/

/-- What a duration message does to the durations, given the times. -/
def durationStep (userTimes : List (Option EpochSeconds)) (turnDurations : List (Option Nat)) :
    Message → List (Option Nat)
  | .turnDuration secs at_ =>
    if isFreshHead secs at_ (userTimes.getLast?).join then turnDurations
    else if turnDurations.isEmpty then turnDurations
    else turnDurations.dropLast ++ [some secs]
  | _ => turnDurations

/-- What a message other than a line's head does: it edits resident blocks within
their kinds and appends; of the clocks it moves at most a duration. -/
structure Effect (m : Message) (r r' : Replayer) : Prop where
  grow : ∃ edited added, r'.out = edited ++ added ∧ KinAll r.out edited ∧
    ∀ b ∈ added, b.phase = none ∧ (b.isBlankThinking = true → m.isBlankThinking = true)
  base : r'.base = r.base
  durable : r'.durable = r.durable
  stamped : r'.stamped = r.stamped
  pendingTs : r'.pendingTs = r.pendingTs
  userTimes : r'.userTimes = r.userTimes
  turnDurations : r'.turnDurations = durationStep r.userTimes r.turnDurations m

/-- A message that is no duration leaves the durations alone. -/
theorem durationStep_of_not {m : Message} (h : m.isDuration = false)
    (times : List (Option EpochSeconds)) (durations : List (Option Nat)) :
    durationStep times durations m = durations := by
  cases m <;> first | rfl | simp [Message.isDuration] at h

theorem effect_edit {m : Message} (hm : m.isDuration = false) (r : Replayer) {out : List Block}
    (h : KinAll r.out out) : Effect m r { r with out } :=
  ⟨⟨out, [], by simp, h, by simp⟩, rfl, rfl, rfl, rfl, rfl,
    (durationStep_of_not hm r.userTimes r.turnDurations).symm⟩

theorem effect_self {m : Message} (hm : m.isDuration = false) (r : Replayer) : Effect m r r :=
  effect_edit hm r (kinAll_refl r.out)

/-- What a message appends is of its own making. -/
def Appendable (m : Message) (b : Block) : Prop :=
  b.phase = none ∧ (b.isBlankThinking = true → m.isBlankThinking = true)

theorem Effect.added {m : Message} (h : Effect m r r') (bs : List Block)
    (hbs : ∀ b ∈ bs, Appendable m b) : Effect m r { r' with out := r'.out ++ bs } := by
  obtain ⟨edited, added, hout, hkin, hadded⟩ := h.grow
  refine ⟨⟨edited, added ++ bs, by simp [hout], hkin, ?_⟩, h.base, h.durable, h.stamped,
    h.pendingTs, h.userTimes, h.turnDurations⟩
  intro b hb
  obtain hb | hb := List.mem_append.mp hb
  · exact hadded b hb
  · exact hbs b hb

theorem Effect.push {m : Message} (h : Effect m r r') {b : Block} (hb : Appendable m b) :
    Effect m r (r'.push b) := by
  refine h.added [b] ?_
  intro c hc
  rw [List.mem_singleton] at hc
  exact hc ▸ hb

/-- A window that ends on `b`, with its last block rewritten. -/
theorem effect_setLast {m : Message} (hm : m.isDuration = false) {b b' : Block}
    (h : r.out.getLast? = some b) (hk : b.Kin b') : Effect m r (r.setLast b') := by
  refine effect_edit hm r ?_
  obtain ⟨init, hout⟩ := List.getLast?_eq_some_iff.mp h
  rw [hout, List.dropLast_concat]
  exact List.rel_append (kinAll_refl init) (.cons hk .nil)

/-- Patching a call leaves it a call, with no phase it did not have. -/
theorem patches_isCall (had : sh.Lawful) {b b' : Block} (h : Patches sh b b')
    (hb : b.isCall = true) (hp : b.phase = none) : b'.isCall = true ∧ b'.phase = none := by
  induction h with
  | refl => exact ⟨hb, hp⟩
  | tail _ hpatch ih =>
    obtain ⟨hc, hphase⟩ := ih
    cases hpatch with
    | joined _ text tur e =>
      exact ⟨had.joinResult_isCall _ text tur e hc, had.joinResult_phase _ text tur e hphase⟩
    | path p _ =>
      exact ⟨(Block.kin_setPath p _).isCall.trans hc, (Block.kin_setPath p _).phase hphase⟩
    | _ => first | exact ⟨rfl, rfl⟩ | simp [Block.isCall] at hc

theorem nameRecipient_isCall (r : Replayer) {b : Block} (h : b.isCall = true)
    (hp : b.phase = none) :
    (r.nameRecipient b).isCall = true ∧ (r.nameRecipient b).phase = none := by
  cases b with
  | toolUse call =>
    simp only [nameRecipient]
    split
    · exact ⟨rfl, rfl⟩
    · split <;> exact ⟨rfl, rfl⟩
  | _ => exact ⟨h, hp⟩

/-- The block a slot names is a call without a phase. -/
theorem slot_isCall (had : sh.Lawful) (h : Wf sh r.window r.indices) {id : String} {i : Nat}
    {b : Block} (hi : r.toolSlot[id]? = some i) (hb : r.out[i - r.base]? = some b) :
    b.isCall = true ∧ b.phase = none := by
  obtain ⟨b₀, b₁, ⟨r₀, name, input, cwd, rfl⟩, hat, hp⟩ := h.slot id i hi
  have hget := (Window.at?_eq_some.mp hat).2
  simp only [window, hb, Option.some.injEq] at hget
  subst hget
  obtain ⟨hc, hphase⟩ := r₀.nameRecipient_isCall (had.buildTool_isCall id name input cwd)
    (had.buildTool_phase id name input cwd)
  exact patches_isCall had hp hc hphase

theorem appendable_of_isCall {m : Message} {b : Block} (h : b.isCall = true)
    (hp : b.phase = none) : Appendable m b :=
  ⟨hp, fun hblank => by rw [Block.not_isBlankThinking_of_isCall h] at hblank; contradiction⟩

/-! ### arm by arm -/

theorem Effect.popQueue {m : Message} (h : Effect m r r') (p : QueueItem → Bool) :
    Effect m r (r'.popQueue p) := by
  unfold Replayer.popQueue
  split
  · exact h
  · exact ⟨h.grow, h.base, h.durable, h.stamped, h.pendingTs, h.userTimes, h.turnDurations⟩

theorem userTurn_effect {m : Message} (hm : m.isDuration = false) (r : Replayer) (text : String)
    {b : Block} (hb : Appendable m b) : Effect m r (r.userTurn text b).1 :=
  ((effect_self hm r).popQueue _).push hb

theorem toolUse_effect (had : sh.Lawful) (r : Replayer) (id name : String) (input : Value)
    (cwd : String) : Effect (.toolUse id name input cwd) r (r.toolUse sh id name input cwd).1 := by
  obtain ⟨hc, hp⟩ := r.nameRecipient_isCall (had.buildTool_isCall id name input cwd)
    (had.buildTool_phase id name input cwd)
  have h := (effect_self (m := .toolUse id name input cwd) rfl r).push (appendable_of_isCall hc hp)
  exact ⟨h.grow, rfl, rfl, rfl, rfl, rfl, rfl⟩

theorem toolResult_effect (had : sh.Lawful) (h : Wf sh r.window r.indices) {id text : String}
    {tur : Value} {e : Option Bool} {p : Option Nat}
    (hok : r.toolResult sh id text tur e = .ok (r', p)) :
    Effect (.toolResult id text tur e) r r' := by
  unfold toolResult at hok
  cases hi : r.toolSlot[id]? with
  | some i =>
    obtain ⟨b, hsub, hidx, hget, -, -⟩ := slot_access h hi
    simp only [hi, hsub, hidx, bind, Except.bind, pure, Except.pure, Except.ok.injEq,
      Prod.mk.injEq] at hok
    obtain ⟨rfl, -⟩ := hok
    obtain ⟨hc, hp⟩ := slot_isCall had h hi hget
    have hkin := Block.kin_of_isCall hc (had.joinResult_isCall b (stripAnsi text) tur e hc)
      (had.joinResult_phase b (stripAnsi text) tur e)
    have heff := effect_edit (m := .toolResult id text tur e) rfl r (kinAll_set hget hkin)
    exact ⟨heff.grow, rfl, rfl, rfl, rfl, rfl, rfl⟩
  | none =>
    simp only [hi] at hok
    split at hok
    · obtain ⟨rfl, -⟩ := Prod.mk.injEq .. ▸ Except.ok.inj hok
      exact (effect_self rfl r).push ⟨rfl, by simp [Block.isBlankThinking]⟩
    · obtain ⟨rfl, -⟩ := Prod.mk.injEq .. ▸ Except.ok.inj hok
      exact effect_self rfl r

theorem userInbox_effect (r : Replayer) (text words : String) (inbox : Inbox)
    (images : List Attachment) :
    Effect (.userInbox text words inbox images) r (r.userInbox text words inbox images).1 := by
  have h := (effect_self (m := .userInbox text words inbox images) rfl r).popQueue
    fun q => q.content = trim text
  unfold userInbox
  simp only
  split
  · exact h.push ⟨rfl, by simp [Block.isBlankThinking]⟩
  · have hadd := h.added (.userInbox words inbox :: images.map .attachment) (by
      intro b hb
      simp only [List.mem_cons, List.mem_map] at hb
      obtain rfl | ⟨a, -, rfl⟩ := hb <;> exact ⟨rfl, by simp [Block.isBlankThinking]⟩)
    exact ⟨hadd.grow, hadd.base, hadd.durable, hadd.stamped, hadd.pendingTs, hadd.userTimes,
      hadd.turnDurations⟩

theorem peerText_effect (r : Replayer) (sender : String) (mode : Option String) (text : String)
    (queued addr : Option String) :
    Effect (.peerText sender mode text queued addr) r
      (r.peerText sender mode text queued addr).1 := by
  have hself := effect_self (m := .peerText sender mode text queued addr) rfl r
  have hblock : Appendable (.peerText sender mode text queued addr)
      (.peerText sender mode text addr) := ⟨rfl, by simp [Block.isBlankThinking]⟩
  cases addr with
  | none =>
    cases queued with
    | none => exact hself.push hblock
    | some raw => exact (hself.popQueue _).push hblock
  | some a =>
    have hnamed : Effect (.peerText sender mode text queued (some a)) r
        { r with peerNames := r.peerNames.insert a sender } :=
      ⟨hself.grow, rfl, rfl, rfl, rfl, rfl, rfl⟩
    cases queued with
    | none => exact hnamed.push hblock
    | some raw => exact (hnamed.popQueue _).push hblock

theorem refusedNote_effect (r : Replayer) (id text : String) :
    Effect (.refusedNote id text) r (r.refusedNote id text).1 := by
  have h := effect_self (m := .refusedNote id text) rfl r
  unfold refusedNote
  split
  · next category _ =>
    have hpush := h.push (b := .safetyStop category text) ⟨rfl, by simp [Block.isBlankThinking]⟩
    exact ⟨hpush.grow, rfl, rfl, rfl, rfl, rfl, rfl⟩
  · exact h.push ⟨rfl, by simp [Block.isBlankThinking]⟩

theorem sandboxRun_effect (h : Wf sh r.window r.indices) {id : String} {inside : Bool}
    {p : Option Nat} (hok : r.sandboxRun id inside = .ok (r', p)) :
    Effect (.sandboxRun id inside) r r' := by
  have hself := effect_self (m := .sandboxRun id inside) rfl r
  unfold sandboxRun at hok
  split at hok
  · obtain ⟨rfl, -⟩ := Prod.mk.injEq .. ▸ Except.ok.inj hok
    exact ⟨hself.grow, rfl, rfl, rfl, rfl, rfl, rfl⟩
  · split at hok
    · cases hi : r.toolSlot[id]? with
      | none =>
        simp only [hi] at hok
        obtain ⟨rfl, -⟩ := Prod.mk.injEq .. ▸ Except.ok.inj hok
        exact hself
      | some i =>
        obtain ⟨b, hsub, hidx, hget, -, -⟩ := slot_access h hi
        simp only [hi, hsub, hidx, bind, Except.bind] at hok
        split at hok
        · next call =>
          obtain ⟨rfl, -⟩ := Prod.mk.injEq .. ▸ Except.ok.inj hok
          exact effect_edit rfl r (kinAll_set hget ⟨rfl, rfl, rfl, fun _ => rfl, rfl, rfl, rfl⟩)
        · obtain ⟨rfl, -⟩ := Prod.mk.injEq .. ▸ Except.ok.inj hok
          exact hself
    · obtain ⟨rfl, -⟩ := Prod.mk.injEq .. ▸ Except.ok.inj hok
      exact hself

theorem compactUsage_effect (r : Replayer) (pre post : Nat) :
    Effect (.compactUsage pre post) r (r.compactUsage pre post).1 := by
  unfold compactUsage
  split
  · next hlast => exact effect_setLast rfl hlast ⟨rfl, rfl, rfl, id, rfl, rfl, rfl⟩
  · exact effect_self rfl r

theorem compactSummary_effect (r : Replayer) (text : String) :
    Effect (.compactSummary text) r (r.compactSummary text).1 := by
  have hpush := (effect_self (m := .compactSummary text) rfl r).push (b := .toolResult text)
    ⟨rfl, by simp [Block.isBlankThinking]⟩
  unfold compactSummary
  split
  · next hlast =>
    split
    · exact effect_setLast rfl hlast ⟨rfl, rfl, rfl, id, rfl, rfl, rfl⟩
    · exact hpush
  · exact hpush

theorem commandStdout_effect (r : Replayer) (text : String) :
    Effect (.commandStdout text) r (r.commandStdout text).1 := by
  unfold commandStdout
  simp only
  split
  · next hlast => exact effect_setLast rfl hlast ⟨rfl, rfl, rfl, id, rfl, rfl, rfl⟩
  · exact (effect_self rfl r).push ⟨rfl, by simp [Block.isBlankThinking]⟩

theorem skillBody_effect (h : Wf sh r.window r.indices) {text fallback : String}
    {p : Option Nat} (hok : r.skillBody text fallback = .ok (r', p)) :
    Effect (.skillBody text fallback) r r' := by
  have hself := effect_self (m := .skillBody text fallback) rfl r
  unfold skillBody at hok
  simp only [skillTarget_ok h, bind, Except.bind, pure, Except.pure] at hok
  split at hok
  · next out hattach =>
    obtain ⟨rfl, -⟩ := Prod.mk.injEq .. ▸ Except.ok.inj hok
    obtain ⟨j, call, -, hget, -, rfl⟩ := attachSkillBody_eq_some hattach
    exact effect_edit rfl r (kinAll_set hget ⟨rfl, rfl, rfl, fun _ => rfl, rfl, rfl, rfl⟩)
  · split at hok
    · obtain ⟨rfl, -⟩ := Prod.mk.injEq .. ▸ Except.ok.inj hok
      exact hself
    · obtain ⟨rfl, -⟩ := Prod.mk.injEq .. ▸ Except.ok.inj hok
      exact hself.push ⟨rfl, by simp [Block.isBlankThinking]⟩

theorem kinAll_modify (out : List Block) (j : Nat) (p : String) :
    KinAll out (out.modify j (setPath p)) := by
  cases hj : out[j]? with
  | none =>
    rw [List.getElem?_eq_none_iff] at hj
    rw [List.modify_eq_self hj]
    exact kinAll_refl out
  | some b =>
    rw [List.modify_eq_set_getElem?, hj]
    exact kinAll_set hj (Block.kin_setPath p b)

theorem patchImagePaths_effect (r : Replayer) (paths : List String) :
    Effect (.imagePaths paths) r (r.patchImagePaths paths) := by
  have hfold : ∀ (ips : List (Nat × String)) (out : List Block), KinAll r.out out →
      KinAll r.out (ips.foldl (fun out ip => out.modify ip.1 (setPath ip.2)) out) := by
    intro ips
    induction ips with
    | nil => exact fun out h => h
    | cons ip ips ih => exact fun out h => ih _ (kinAll_trans h (kinAll_modify out ip.1 ip.2))
  unfold patchImagePaths
  split
  · exact effect_self rfl r
  · simp only
    split
    · exact effect_edit rfl r (hfold _ r.out (kinAll_refl r.out))
    · exact effect_self rfl r

theorem queueOp_effect (r : Replayer) (op : QueueOpKind) (content : Option String) (prose : Bool) :
    Effect (.queueOp op content prose) r (r.queueOp op content prose).1 := by
  have hself := effect_self (m := .queueOp op content prose) rfl r
  cases op with
  | enqueue =>
    cases content with
    | none => exact hself
    | some c =>
      simp only [queueOp]
      split
      · have hpush := hself.push (b := .queueEvent (trim c)) ⟨rfl, by simp [Block.isBlankThinking]⟩
        exact ⟨hpush.grow, rfl, rfl, rfl, rfl, rfl, rfl⟩
      · exact ⟨hself.grow, rfl, rfl, rfl, rfl, rfl, rfl⟩
  | remove =>
    cases content with
    | none => exact hself.popQueue _
    | some c => exact hself.popQueue _
  | dequeue =>
    cases content with
    | none => exact hself.popQueue _
    | some c => exact hself.popQueue _
  | popAll => exact ⟨hself.grow, rfl, rfl, rfl, rfl, rfl, rfl⟩

theorem turnDuration_effect (r : Replayer) (secs : Nat) (at_ : Option EpochSeconds) :
    Effect (.turnDuration secs at_) r (r.turnDuration secs at_).1 := by
  have hgrow : ∃ edited added, r.out = edited ++ added ∧ KinAll r.out edited ∧
      ∀ b ∈ added, Appendable (.turnDuration secs at_) b :=
    ⟨r.out, [], by simp, kinAll_refl r.out, by simp⟩
  unfold turnDuration
  split
  · next h => exact ⟨hgrow, rfl, rfl, rfl, rfl, rfl, by simp only [durationStep, h, if_true]⟩
  · next h =>
    split
    · next h' =>
      exact ⟨hgrow, rfl, rfl, rfl, rfl, rfl, by
        simp only [durationStep, h, h', Bool.false_eq_true, if_true, if_false]⟩
    · next h' =>
      exact ⟨hgrow, rfl, rfl, rfl, rfl, rfl, by
        simp only [durationStep, h, h', Bool.false_eq_true, if_false]⟩

/-- **The effect of a message** that is no line's head. -/
theorem step_effect (had : sh.Lawful) (h : Wf sh r.window r.indices) {m : Message}
    (hm : m.isLineStart = false) {p : Option Nat} (hok : r.step sh m = .ok (r', p)) :
    Effect m r r' := by
  cases m with
  | lineStart ts => simp [Message.isLineStart] at hm
  | toolResult id text tur e => exact toolResult_effect had h hok
  | sandboxRun id inside => exact sandboxRun_effect h hok
  | skillBody text fallback => exact skillBody_effect h hok
  | thinking text ts =>
    obtain ⟨rfl, -⟩ := Prod.mk.injEq .. ▸ Except.ok.inj hok
    exact (effect_self rfl r).push ⟨rfl, id⟩
  | _ =>
    obtain ⟨rfl, -⟩ := Prod.mk.injEq .. ▸ Except.ok.inj hok
    first
      | exact toolUse_effect had r _ _ _ _
      | exact userTurn_effect rfl r _ ⟨rfl, by simp [Block.isBlankThinking]⟩
      | exact userInbox_effect r _ _ _ _
      | exact peerText_effect r _ _ _ _ _
      | exact refusedNote_effect r _ _
      | exact compactUsage_effect r _ _
      | exact compactSummary_effect r _
      | exact commandStdout_effect r _
      | exact patchImagePaths_effect r _
      | exact queueOp_effect r _ _ _
      | exact turnDuration_effect r _ _
      | exact (effect_self rfl r).push ⟨rfl, by simp [Block.isBlankThinking]⟩
      | exact ⟨(effect_self rfl r).grow, rfl, rfl, rfl, rfl, rfl, rfl⟩

/-! ## the effect of a batch -/

/-- What the messages of a line after its head do, taken together. -/
structure Effects (ms : List Message) (r r' : Replayer) : Prop where
  grow : ∃ edited added, r'.out = edited ++ added ∧ KinAll r.out edited ∧
    ∀ b ∈ added, ∃ m ∈ ms, Appendable m b
  base : r'.base = r.base
  durable : r'.durable = r.durable
  stamped : r'.stamped = r.stamped
  pendingTs : r'.pendingTs = r.pendingTs
  userTimes : r'.userTimes = r.userTimes
  turnDurations : r'.turnDurations = ms.foldl (durationStep r.userTimes) r.turnDurations

theorem effects_nil (r : Replayer) : Effects [] r r :=
  ⟨⟨r.out, [], by simp, kinAll_refl _, by simp⟩, rfl, rfl, rfl, rfl, rfl, rfl⟩

/-- One more message in front. -/
theorem Effects.cons {m : Message} {ms : List Message} {r₁ : Replayer} (h : Effect m r r₁)
    (h' : Effects ms r₁ r') : Effects (m :: ms) r r' := by
  obtain ⟨edited, added, hout, hkin, hadded⟩ := h.grow
  obtain ⟨edited', added', hout', hkin', hadded'⟩ := h'.grow
  rw [hout] at hkin'
  obtain ⟨e₁, e₂, rfl, hk₁, hk₂⟩ : ∃ e₁ e₂, edited' = e₁ ++ e₂ ∧ KinAll edited e₁ ∧
      KinAll added e₂ := by
    refine ⟨edited'.take edited.length, edited'.drop edited.length, by simp, ?_, ?_⟩
    · simpa using List.forall₂_take edited.length hkin'
    · simpa using List.forall₂_drop edited.length hkin'
  refine ⟨⟨e₁, e₂ ++ added', by rw [hout', List.append_assoc], kinAll_trans hkin hk₁, ?_⟩,
    h'.base.trans h.base, h'.durable.trans h.durable, h'.stamped.trans h.stamped,
    h'.pendingTs.trans h.pendingTs, h'.userTimes.trans h.userTimes, ?_⟩
  · intro b hb
    obtain hb | hb := List.mem_append.mp hb
    · -- a block this message appended, edited by the rest
      obtain ⟨b₀, hb₀, hk⟩ := kinAll_mem hk₂ hb
      obtain ⟨hphase, hblank⟩ := hadded b₀ hb₀
      exact ⟨m, List.mem_cons_self, hk.phase hphase, fun hbl => hblank (hk.blank ▸ hbl)⟩
    · obtain ⟨m', hm', happ⟩ := hadded' b hb
      exact ⟨m', List.mem_cons_of_mem m hm', happ⟩
  · rw [h'.turnDurations, h.turnDurations, h.userTimes, List.foldl_cons]

theorem steps_effects (had : sh.Lawful) (h : Wf sh r.window r.indices) {ms : List Message}
    (hms : ∀ m ∈ ms, m.isLineStart = false) (hok : r.steps sh ms = .ok r') :
    Effects ms r r' := by
  induction ms generalizing r with
  | nil =>
    obtain rfl : r = r' := Except.ok.inj hok
    exact effects_nil r
  | cons m ms ih =>
    rw [List.forall_mem_cons] at hms
    obtain ⟨r₁, patched, hstep, hkept, -⟩ := step_safe h m
    have hrest : r₁.steps sh ms = .ok r' := by
      simp only [steps, List.foldlM_cons, hstep, Except.map, bind_ok] at hok
      exact hok
    exact .cons (step_effect had h hms.1 hstep) (ih hkept.wf hms.2 hrest)

/-- The replayer once a line's head is folded. -/
def headed (r : Replayer) (ts : Option EpochSeconds) : Replayer :=
  { r.stamp with
    prevTs := if r.pendingTs.isSome then r.pendingTs else r.prevTs
    pendingTs := ts }

theorem lineStart_ok (h : Wf sh r.window r.indices) (ts : Option EpochSeconds) :
    r.lineStart ts = .ok (r.headed ts, none) := by
  simp only [lineStart, stampWindow_ok h, bind, Except.bind, pure, Except.pure]
  rfl

theorem headed_wf (h : Wf sh r.window r.indices) (ts : Option EpochSeconds) :
    Wf sh (r.headed ts).window (r.headed ts).indices := h.stamp

/-! ## durations -/

theorem length_durationStep (times : List (Option EpochSeconds)) (ds : List (Option Nat))
    (m : Message) : (durationStep times ds m).length = ds.length := by
  cases m with
  | turnDuration secs at_ =>
    simp only [durationStep]
    split
    · rfl
    · split
      · rfl
      · next h =>
        have hpos : 0 < ds.length := List.length_pos_of_ne_nil (by simpa using h)
        simp only [List.length_append, List.length_dropLast, List.length_singleton]
        omega
  | _ => rfl

theorem length_foldl_durationStep (times : List (Option EpochSeconds)) (ds : List (Option Nat))
    (ms : List Message) : (ms.foldl (durationStep times) ds).length = ds.length := by
  induction ms generalizing ds with
  | nil => rfl
  | cons m ms ih => rw [List.foldl_cons, ih, length_durationStep]

/-- A duration is only ever the last turn's. -/
theorem take_durationStep (times : List (Option EpochSeconds)) {ds : List (Option Nat)} {n : Nat}
    (h : n < ds.length) (m : Message) : (durationStep times ds m).take n = ds.take n := by
  cases m with
  | turnDuration secs at_ =>
    simp only [durationStep]
    split
    · rfl
    · split
      · rfl
      · rw [List.take_append_of_le_length (by rw [List.length_dropLast]; omega),
          List.dropLast_eq_take, List.take_take]
        congr 1
        omega
  | _ => rfl

theorem take_foldl_durationStep (times : List (Option EpochSeconds)) {ds : List (Option Nat)}
    {n : Nat} (h : n < ds.length) (ms : List Message) :
    (ms.foldl (durationStep times) ds).take n = ds.take n := by
  induction ms generalizing ds with
  | nil => rfl
  | cons m ms ih =>
    rw [List.foldl_cons, ih (by rwa [length_durationStep]), take_durationStep times h]

/-- A message either leaves the durations alone or settles the last one on a value
that does not depend on them. -/
theorem durationStep_eq (times : List (Option EpochSeconds)) (m : Message) :
    (∀ ds, durationStep times ds m = ds) ∨
      ∃ v, ∀ ds, ds ≠ [] → durationStep times ds m = ds.dropLast ++ [v] := by
  cases m with
  | turnDuration secs at_ =>
    cases hf : isFreshHead secs at_ (times.getLast?).join with
    | true => exact .inl fun ds => by simp [durationStep, hf]
    | false => exact .inr ⟨some secs, fun ds hds => by simp [durationStep, hf, hds]⟩
  | _ => exact .inl fun _ => rfl

/-- So does a batch. -/
theorem foldl_durationStep_eq (times : List (Option EpochSeconds)) (ms : List Message) :
    (∀ ds, ms.foldl (durationStep times) ds = ds) ∨
      ∃ v, ∀ ds, ds ≠ [] → ms.foldl (durationStep times) ds = ds.dropLast ++ [v] := by
  induction ms with
  | nil => exact .inl fun _ => rfl
  | cons m ms ih =>
    simp only [List.foldl_cons]
    cases durationStep_eq times m with
    | inl hm => simpa only [hm] using ih
    | inr hm =>
      obtain ⟨v, hv⟩ := hm
      cases ih with
      | inl hid => exact .inr ⟨v, fun ds hds => by rw [hid, hv ds hds]⟩
      | inr hlast =>
        obtain ⟨w, hw⟩ := hlast
        refine .inr ⟨w, fun ds hds => ?_⟩
        rw [hv ds hds, hw _ (by simp), List.dropLast_concat]

/-- **Folding a line's durations again changes nothing.** -/
theorem foldl_durationStep_idem (times : List (Option EpochSeconds)) (ms : List Message)
    (ds : List (Option Nat)) :
    ms.foldl (durationStep times) (ms.foldl (durationStep times) ds) =
      ms.foldl (durationStep times) ds := by
  cases foldl_durationStep_eq times ms with
  | inl hid => simp only [hid]
  | inr hlast =>
    obtain ⟨v, hv⟩ := hlast
    by_cases hds : ds = []
    · have hnil : ms.foldl (durationStep times) ds = [] := by
        rw [← List.length_eq_zero_iff, length_foldl_durationStep, hds, List.length_nil]
      rw [hnil, ← hds, hnil, hds]
    · rw [hv ds hds, hv _ (by simp), List.dropLast_concat]

/-! ## times -/

/-- The times and durations of a replayer, `n` of whose turns are committed: one
for each of those and one for each stamped turn of the window. -/
structure Timed (r : Replayer) (n : Nat) : Prop where
  times : r.userTimes.length = n + (r.out.take (r.stamped - r.base)).countP Block.opensTurn
  durations : r.turnDurations.length = r.userTimes.length
  phases : ∀ b ∈ r.out, b.phase = none

theorem Timed.le {n : Nat} (h : Timed r n) : n ≤ r.userTimes.length := by
  have := h.times
  omega

/-- Stamping counts every turn of the window. -/
theorem Timed.length_stampedTimes {n : Nat} (h : Timed r n) :
    r.stampedTimes.length = n + r.out.countP Block.opensTurn := by
  have hsplit := List.take_append_drop (r.stamped - r.base) r.out
  have hcount : r.out.countP Block.opensTurn =
      (r.out.take (r.stamped - r.base)).countP Block.opensTurn +
        (r.out.drop (r.stamped - r.base)).countP Block.opensTurn := by
    conv_lhs => rw [← hsplit, List.countP_append]
  rw [stampedTimes, List.length_append, List.length_map, h.times, hcount,
    ← List.countP_eq_length_filter]
  omega

theorem stampedTimes_prefix (r : Replayer) : r.userTimes <+: r.stampedTimes := ⟨_, rfl⟩

/-- Stamping extends the durations. -/
theorem Timed.durations_prefix {n : Nat} (h : Timed r n) :
    r.turnDurations <+: r.stamp.turnDurations := by
  have hle : r.turnDurations.length ≤ r.stampedTimes.length := by
    rw [h.durations]
    exact r.stampedTimes_prefix.length_le
  simp only [stamp]
  rw [resize_of_ge hle]
  exact List.prefix_append _ _

theorem Timed.stamp {n : Nat} (h : Timed r n) : Timed r.stamp n where
  times := by
    have hall : r.stamp.stamped - r.stamp.base = r.out.length := by
      simp only [Replayer.stamp, rawLen]
      omega
    rw [hall]
    simpa only [Replayer.stamp, List.take_length] using h.length_stampedTimes
  durations := by simp only [Replayer.stamp, length_resize]
  phases := h.phases

theorem Timed.headed {n : Nat} (h : Timed r n) (ts : Option EpochSeconds) :
    Timed (r.headed ts) n := ⟨h.stamp.times, h.stamp.durations, h.stamp.phases⟩

theorem Timed.effects {n : Nat} {ms : List Message} (h : Timed r n) (hwf : Wf sh r.window r.indices)
    (he : Effects ms r r') : Timed r' n := by
  obtain ⟨edited, added, hout, hkin, hadded⟩ := he.grow
  have hle : r.stamped - r.base ≤ edited.length := by
    have hst : r.stamped ≤ r.base + r.out.length := hwf.stamped_le
    rw [← hkin.length_eq]
    omega
  refine ⟨?_, ?_, ?_⟩
  · rw [he.userTimes, he.stamped, he.base, hout, List.take_append_of_le_length hle, h.times,
      kinAll_countP (List.forall₂_take _ hkin)]
  · rw [he.turnDurations, he.userTimes, length_foldl_durationStep, h.durations]
  · intro b hb
    rw [hout] at hb
    obtain hb | hb := List.mem_append.mp hb
    · exact kinAll_phase hkin h.phases b hb
    · obtain ⟨m, -, happ⟩ := hadded b hb
      exact happ.1

/-- A commit moves its turns from the window to the committed ones. -/
theorem Timed.finalize {n : Nat} (h : Timed r n) :
    Timed (r.finalize sh) (n + (r.out.take r.cut).countP Block.opensTurn) := by
  unfold Replayer.finalize
  split
  · next hzero => simpa [hzero] using h
  · refine ⟨?_, h.stamp.durations, fun b hb => h.phases b (List.mem_of_mem_drop hb)⟩
    have hle := r.cut_le
    have hall : (r.stamp.retire sh r.cut).stamped - (r.stamp.retire sh r.cut).base =
        (r.out.drop r.cut).length := by
      simp only [retire, Replayer.stamp, rawLen, List.length_drop]
      omega
    have hout : (r.stamp.retire sh r.cut).out = r.out.drop r.cut := rfl
    rw [hall, hout, List.take_length]
    have hlen := h.length_stampedTimes
    have hsplit : r.out.countP Block.opensTurn = (r.out.take r.cut).countP Block.opensTurn +
        (r.out.drop r.cut).countP Block.opensTurn := by
      conv_lhs => rw [← List.take_append_drop r.cut r.out, List.countP_append]
    simp only [retire, Replayer.stamp]
    omega

/-! ## the commit -/

/-- The last match of a list is a match. -/
theorem getElem?_rposition {xs : List Block} {i : Nat}
    (h : rposition Block.opensTurn xs = some i) :
    ∃ b, xs[i]? = some b ∧ b.opensTurn = true := by
  obtain ⟨pre, b, post, rfl, rfl, hb, -⟩ := rposition_eq_some h
  exact ⟨b, by simp, hb⟩

/-- A commit that drains anything leaves a turn opener in front. -/
theorem opensTurn_at_cut (h : r.cut ≠ 0) :
    ∃ b, r.out[r.cut]? = some b ∧ b.opensTurn = true := by
  revert h
  unfold cut
  cases hk : rposition Block.opensTurn r.out with
  | none => exact fun h => absurd rfl h
  | some k =>
    unfold pinned
    cases (r.queue.filterMap (·.markerIdx)).min? with
    | none => exact fun _ => getElem?_rposition hk
    | some i =>
      by_cases hpin : r.Pins k i
      · simp only [hpin, if_true, Option.getD_some, turnAt]
        cases hp : rposition Block.opensTurn (r.out.take (i - r.base + 1)) with
        | none => exact fun h => absurd rfl h
        | some p =>
          intro _
          obtain ⟨b, hb, ho⟩ := getElem?_rposition hp
          have hlt := rposition_lt hp
          rw [List.length_take] at hlt
          rw [List.getElem?_take_of_lt (by omega)] at hb
          exact ⟨b, hb, ho⟩
      · simp only [hpin, if_false, Option.getD_none]
        exact fun _ => getElem?_rposition hk

/-- A commit never takes the last opener out of the window. -/
theorem finalize_any (h : r.out.any Block.opensTurn = true) :
    (r.finalize sh).out.any Block.opensTurn = true := by
  unfold finalize
  split
  · exact h
  · next hcut =>
    obtain ⟨b, hb, ho⟩ := opensTurn_at_cut hcut
    simp only [retire, stamp, List.any_eq_true]
    refine ⟨b, ?_, ho⟩
    rw [List.mem_iff_getElem?]
    exact ⟨0, by rw [List.getElem?_drop, Nat.add_zero, hb]⟩

/-- What a finisher lets through and no marker is comes out of a finished stretch of the
window as it went in. -/
theorem finishTurns_filter (had : sh.Lawful) (h : Wf sh r.window r.indices) {p : Block → Bool}
    (hp : ∀ b, p b = true → b.isLandmark = true) (hq : ∀ text, p (.queueEvent text) = false)
    (k : Nat) :
    (sh.finishTurns (dropAt r.suppress r.base (r.out.take k))).filter p =
      (r.out.take k).filter p := by
  have hland : ∀ bs : List Block, (bs.filter Block.isLandmark).filter p = bs.filter p := fun bs => by
    rw [List.filter_filter]
    refine List.filter_congr fun b _ => ?_
    cases hb : p b with
    | true => simp [hp b hb]
    | false => simp
  have hdrop : (dropAt r.suppress r.base (r.out.take k)).filter p = (r.out.take k).filter p := by
    refine dropAt_filter p _ fun j b hb hmem => ?_
    obtain ⟨-, hat⟩ := h.suppressed _ hmem
    obtain ⟨text, ht⟩ := hat (Nat.le_add_right _ _)
    have hget := (Window.at?_eq_some.mp ht).2
    have hj : j < k := by
      have := (List.getElem?_eq_some_iff.mp hb).1
      rw [List.length_take] at this
      omega
    rw [List.getElem?_take_of_lt hj] at hb
    simp only [window, Nat.add_sub_cancel_left, hb, Option.some.injEq] at hget
    rw [hget, hq]
  rw [← hland, had.finishTurns_landmarks, hland, hdrop]

/-- What a finisher lets through and no marker is passes a commit unchanged. -/
theorem finalize_filter (had : sh.Lawful) (h : Wf sh r.window r.indices) {p : Block → Bool}
    (hp : ∀ b, p b = true → b.isLandmark = true) (hq : ∀ text, p (.queueEvent text) = false) :
    (r.finalize sh).durable.filter p = r.durable.filter p ++ (r.out.take r.cut).filter p := by
  unfold finalize
  split
  · next hzero => simp [hzero]
  · simp only [retire, stamp, List.filter_append]
    rw [finishTurns_filter had h hp hq]

/-- The open window of a reader, with the suppression at its logical indices. -/
theorem openBlocks_eq (sh : Shaping) (r : Replayer) :
    r.openBlocks sh = sh.finishTurns (dropAt r.suppress r.base r.out) := by
  have hback : (((r.suppress.filter (r.base ≤ ·)).map (· - r.base)).map (· + r.base)) =
      r.suppress.filter (r.base ≤ ·) := by
    rw [List.map_map]
    refine (List.map_congr_left fun i hi => ?_).trans (List.map_id _)
    have hge : r.base ≤ i := by simpa using (List.mem_filter.mp hi).2
    simp only [Function.comp_apply, id_eq]
    omega
  rw [openBlocks, ← dropAt_shift _ r.base 0, hback, Nat.zero_add]
  congr 1
  refine dropAt_congr _ fun i hi _ => ?_
  rw [List.mem_filter]
  simp [hi]

/-- What a finisher lets through and no marker is, a reader of the open window sees. -/
theorem openBlocks_filter (had : sh.Lawful) (h : Wf sh r.window r.indices) {p : Block → Bool}
    (hp : ∀ b, p b = true → b.isLandmark = true) (hq : ∀ text, p (.queueEvent text) = false) :
    (r.openBlocks sh).filter p = r.out.filter p := by
  have hall := finishTurns_filter had h hp hq r.out.length
  rwa [List.take_length, ← openBlocks_eq] at hall

theorem finalize_countP (had : sh.Lawful) (h : Wf sh r.window r.indices) :
    (r.finalize sh).durable.countP Block.opensTurn =
      r.durable.countP Block.opensTurn + (r.out.take r.cut).countP Block.opensTurn := by
  have hf := finalize_filter had h (p := Block.opensTurn)
    (fun b hb => Block.isLandmark_of_opensTurn hb) (fun _ => rfl)
  simp only [List.countP_eq_length_filter, hf, List.length_append]

/-- A commit makes no phases. -/
theorem finalize_phase (had : sh.Lawful) (hd : ∀ b ∈ r.durable, b.phase = none)
    (ho : ∀ b ∈ r.out, b.phase = none) : ∀ b ∈ (r.finalize sh).durable, b.phase = none := by
  unfold finalize
  split
  · exact hd
  · intro b hb
    simp only [retire, stamp, List.mem_append] at hb
    obtain hb | hb := hb
    · exact hd b hb
    · cases b with
      | subAgent sa =>
        -- a spawn is a landmark: the finisher made none of its own
        have hmem : Block.subAgent sa ∈ (sh.finishTurns
            (dropAt r.suppress r.base (r.out.take r.cut))).filter Block.isLandmark :=
          List.mem_filter.mpr ⟨hb, rfl⟩
        rw [had.finishTurns_landmarks, List.mem_filter] at hmem
        exact ho _ (List.mem_of_mem_take ((dropAt_sublist _ _ _).subset hmem.1))
      | _ => rfl

end Replayer

end ClaudeReplay
