import ClaudeReplay.Replay.Effect

/-!
# ClaudeReplay.Replay.Past

A fold that has committed, seen from one that has not. `past d q` is what is left
of a replayer once its first `d` resident blocks are gone, with every index that
pointed into them, and its first `q` pending prompts with them.

Most messages cannot tell the difference: they append, or edit a block that is
still there. `Reaches` names those that can, a message that refers back to a
block the shorter window has lost. The result is `step_past`: any other message
does the same to both, and leaves the lost blocks alone.
-/

namespace ClaudeReplay

open Lib

namespace Replayer

/-- What is left once the first `d` blocks and the first `q` pending prompts are gone. -/
def past (d q : Nat) (r : Replayer) : Replayer :=
  { r with
    out := r.out.drop d
    base := r.base + d
    queue := r.queue.drop q
    suppress := r.suppress.filter (r.base + d ≤ ·)
    toolSlot := r.toolSlot.retain (r.base + d ≤ ·)
    lastSkill := r.lastSkill.filter (r.base + d ≤ ·) }

/-! ## what refers back -/

/-- A slot below the cut. -/
def SlotReaches (r : Replayer) (d : Nat) (toolUseId : String) : Prop :=
  ∃ i, r.toolSlot[toolUseId]? = some i ∧ i < r.base + d

/-- A pop that takes a prompt whose marker is below the cut, or one the shorter
queue has lost while that queue has another to give. -/
def PopReaches (r : Replayer) (d q : Nat) (p : QueueItem → Bool) : Prop :=
  match (r.queue.take q).find? p, (r.queue.drop q).find? p with
  | some _, some _ => True
  | none, some item => ∃ i, item.markerIdx = some i ∧ i < r.base + d
  | _, none => False

/-- An edit of the last block, when it is below the cut. -/
def LastReaches (r : Replayer) (d : Nat) (p : Block → Bool) : Prop :=
  r.out.length ≤ d ∧ ∃ b, r.out.getLast? = some b ∧ p b = true

/-- A divider the summary would be laid into. -/
def isOpenCompaction : Block → Bool
  | .compaction _ _ _ summary => summary.isEmpty
  | _ => false

/-- A divider. -/
def isCompaction : Block → Bool
  | .compaction .. => true
  | _ => false

/-- A command, whose stdout may follow. -/
def isCommand : Block → Bool
  | .command .. => true
  | _ => false

/-- The `Skill` call a body would nest into. -/
def skillIndex (r : Replayer) : Option Nat :=
  (r.lastSkill.map (· - r.base)).filter ((rposition Block.opensTurn r.out).getD 0 ≤ ·)

/-- The message refers back to a block below the cut. -/
def Reaches (r : Replayer) (d q : Nat) : Message → Prop
  | .toolResult toolUseId _ _ _ => r.SlotReaches d toolUseId
  | .sandboxRun toolUseId inside =>
    inside = false ∧ r.sandboxOn = true ∧ r.SlotReaches d toolUseId
  | .userText text | .userReply text _ | .userInbox text _ _ _ | .attachmentPrompt text =>
    r.PopReaches d q fun item => item.content = trim text
  | .peerText _ _ _ queued _ =>
    ∃ raw, queued = some raw ∧ r.PopReaches d q fun item => item.content = trim raw
  | .queueOp op content _ =>
    match op with
    | .enqueue => False
    | .remove | .dequeue =>
      r.PopReaches d q fun item => match content with
        | some c => item.content = trim c
        | none => true
    | .popAll => ∃ item ∈ r.queue.drop q, ∃ i, item.markerIdx = some i ∧ i < r.base + d
  | .compactUsage .. => r.LastReaches d isCompaction
  | .compactSummary _ => r.LastReaches d isOpenCompaction
  | .commandStdout _ => r.LastReaches d isCommand
  | .skillBody text _ => ∃ j, r.skillIndex = some j ∧ j < d ∧
      (attachSkillBody r.out (some j) text).isSome = true
  | .imagePaths _ => ∃ prompt, rposition Block.isPrompt r.out = some prompt ∧
      (prompt < d ∨ ∃ i ∈ promptImages r.out prompt, i < d)
  | _ => False

/-- The lost prompts' markers are below the cut. -/
def Old (r : Replayer) (d q : Nat) : Prop :=
  ∀ item ∈ r.queue.take q, ∀ i, item.markerIdx = some i → i < r.base + d

/-- The blocks below the cut, and what is suppressed among them, are the same. -/
structure Below (d : Nat) (r r' : Replayer) : Prop where
  out : r'.out.take d = r.out.take d
  suppress : ∀ i < r.base + d, i ∈ r'.suppress ↔ i ∈ r.suppress

/-- An operation took `r` to `r'`, and the shorter replayer to `x`, alike. -/
structure Passed (d q : Nat) (r r' x : Replayer) : Prop where
  base : r'.base = r.base
  fits : d ≤ r'.out.length
  same : ∃ q' ≤ q, x = r'.past d q' ∧ r'.Old d q'
  below : q = 0 → Below d r r'

variable {sh : Shaping} {r r' x : Replayer} {d q : Nat}

/-! ## the operations -/

theorem Below.refl (r : Replayer) : Below d r r := ⟨rfl, fun _ _ => Iff.rfl⟩

theorem passed_self (hd : d ≤ r.out.length) (hold : r.Old d q) : Passed d q r r (r.past d q) :=
  ⟨rfl, hd, ⟨q, le_rfl, rfl, hold⟩, fun _ => .refl r⟩

theorem Passed.added (h : Passed d q r r' x) (bs : List Block) :
    Passed d q r { r' with out := r'.out ++ bs } { x with out := x.out ++ bs } := by
  obtain ⟨hbase, hfit, ⟨q', hq, rfl, hold⟩, hbelow⟩ := h
  refine ⟨hbase, by simp only [List.length_append]; omega, ⟨q', hq, ?_, hold⟩, fun hz => ?_⟩
  · simp only [past, List.drop_append_of_le_length hfit]
  · exact ⟨by rw [← (hbelow hz).out, List.take_append_of_le_length hfit], (hbelow hz).suppress⟩

/-- The spawn map is not among the indices. -/
theorem Passed.agentIds (h : Passed d q r r' x) (ids : StrMap (AgentId × String)) :
    Passed d q r { r' with agentIds := ids } { x with agentIds := ids } := by
  obtain ⟨hbase, hfit, ⟨q', hq, rfl, hold⟩, hbelow⟩ := h
  exact ⟨hbase, hfit, ⟨q', hq, rfl, hold⟩, fun hz => ⟨(hbelow hz).out, (hbelow hz).suppress⟩⟩

/-- Nor is the set of relayed messages. -/
theorem Passed.inboxIds (h : Passed d q r r' x) (ids : StrMap Unit) :
    Passed d q r { r' with inboxIds := ids } { x with inboxIds := ids } := by
  obtain ⟨hbase, hfit, ⟨q', hq, rfl, hold⟩, hbelow⟩ := h
  exact ⟨hbase, hfit, ⟨q', hq, rfl, hold⟩, fun hz => ⟨(hbelow hz).out, (hbelow hz).suppress⟩⟩

/-- Nor are the refused replies. -/
theorem Passed.refused (h : Passed d q r r' x) (ids : StrMap (Option String)) :
    Passed d q r { r' with refused := ids } { x with refused := ids } := by
  obtain ⟨hbase, hfit, ⟨q', hq, rfl, hold⟩, hbelow⟩ := h
  exact ⟨hbase, hfit, ⟨q', hq, rfl, hold⟩, fun hz => ⟨(hbelow hz).out, (hbelow hz).suppress⟩⟩

theorem Passed.push (h : Passed d q r r' x) (b : Block) :
    Passed d q r (r'.push b) (x.push b) := h.added [b]

theorem find?_take_drop (r : Replayer) (q : Nat) (p : QueueItem → Bool) :
    r.queue.find? p = ((r.queue.take q).find? p).or ((r.queue.drop q).find? p) := by
  conv_lhs => rw [← List.take_append_drop q r.queue, List.find?_append]

/-- A pop that takes one of the first `q` prompts. -/
theorem popQueue_of_take {p : QueueItem → Bool} {item : QueueItem}
    (h : (r.queue.take q).find? p = some item) :
    r.popQueue p = { r with
      queue := (r.queue.take q).eraseP p ++ r.queue.drop q
      suppress := r.suppress ++ item.markerIdx.toList } := by
  have herase : r.queue.eraseP p = (r.queue.take q).eraseP p ++ r.queue.drop q := by
    conv_lhs => rw [← List.take_append_drop q r.queue]
    exact List.eraseP_append_left (List.find?_some h) _ (List.mem_of_find?_eq_some h)
  simp only [Replayer.popQueue, r.find?_take_drop q, h, Option.some_or, herase]

/-- A pop that takes one of the prompts behind them. -/
theorem popQueue_of_drop {p : QueueItem → Bool} {item : QueueItem}
    (h : (r.queue.take q).find? p = none) (h' : (r.queue.drop q).find? p = some item) :
    r.popQueue p = { r with
      queue := r.queue.take q ++ (r.queue.drop q).eraseP p
      suppress := r.suppress ++ item.markerIdx.toList } := by
  have herase : r.queue.eraseP p = r.queue.take q ++ (r.queue.drop q).eraseP p := by
    conv_lhs => rw [← List.take_append_drop q r.queue]
    exact List.eraseP_append_right _ (List.find?_eq_none.mp h)
  simp only [Replayer.popQueue, r.find?_take_drop q, h, h', Option.none_or, herase]

/-- A pop that finds nothing. -/
theorem popQueue_of_none {p : QueueItem → Bool} (h : r.queue.find? p = none) :
    r.popQueue p = r := by
  simp only [Replayer.popQueue, h]

/-- **A pop passes**: both queues pop the prompt, or the longer pops one the
shorter has lost. -/
theorem passed_popQueue (hd : d ≤ r.out.length) (hold : r.Old d q) {p : QueueItem → Bool}
    (hpop : ¬r.PopReaches d q p) :
    Passed d q r (r.popQueue p) ((r.past d q).popQueue p) := by
  unfold PopReaches at hpop
  cases hnew : (r.queue.drop q).find? p with
  | none =>
    rw [popQueue_of_none (r := r.past d q) hnew]
    cases hlost : (r.queue.take q).find? p with
    | none =>
      rw [popQueue_of_none (by rw [r.find?_take_drop q, hlost, hnew]; rfl)]
      exact passed_self hd hold
    | some item =>
      have hmem := List.mem_of_find?_eq_some hlost
      have hmark : (item.markerIdx.toList).filter (decide <| r.base + d ≤ ·) = [] := by
        rw [List.filter_eq_nil_iff]
        intro i hi
        have := hold item hmem i (Option.mem_toList.mp hi)
        simp only [decide_eq_true_eq]
        omega
      have hlen : ((r.queue.take q).eraseP p).length ≤ q :=
        (List.length_eraseP_le ..).trans (List.length_take_le q r.queue)
      rw [popQueue_of_take hlost]
      refine ⟨rfl, hd, ⟨((r.queue.take q).eraseP p).length, hlen, ?_, ?_⟩, fun hz => ?_⟩
      · simp only [past, List.drop_left, List.filter_append, hmark, List.append_nil]
      · intro it hit i hi
        rw [List.take_left] at hit
        exact hold it (List.mem_of_mem_eraseP hit) i hi
      · rw [hz, List.take_zero] at hmem
        simp at hmem
  | some item =>
    cases hlost : (r.queue.take q).find? p with
    | some other => simp [hlost, hnew] at hpop
    | none =>
      simp only [hlost, hnew, not_exists, not_and, Nat.not_lt] at hpop
      have hlen : (r.queue.take q).length = q := by
        rw [List.length_take, Nat.min_eq_left]
        by_contra hlt
        rw [List.drop_eq_nil_of_le (by omega)] at hnew
        simp at hnew
      have hmark : (item.markerIdx.toList).filter (decide <| r.base + d ≤ ·) =
          item.markerIdx.toList := by
        rw [List.filter_eq_self]
        intro i hi
        simpa using hpop i (Option.mem_toList.mp hi)
      have hshort : (r.past d q).popQueue p = { r.past d q with
          queue := (r.queue.drop q).eraseP p
          suppress := (r.past d q).suppress ++ item.markerIdx.toList } := by
        simp only [Replayer.popQueue, past, hnew]
      rw [popQueue_of_drop hlost hnew, hshort]
      refine ⟨rfl, hd, ⟨q, le_rfl, ?_, ?_⟩, fun _ => ⟨rfl, fun i hi => ?_⟩⟩
      · simp only [past, List.filter_append, hmark, List.drop_left' hlen]
      · intro it hit i hi
        rw [List.take_left' hlen] at hit
        exact hold it hit i hi
      · rw [List.mem_append, Option.mem_toList]
        refine or_iff_left fun hmem => ?_
        have := hpop i hmem
        omega

/-- An edit of one block that is still there. -/
theorem passed_set (hd : d ≤ r.out.length) (hold : r.Old d q) {j : Nat} (hj : d ≤ j) (b : Block) :
    Passed d q r { r with out := r.out.set j b }
      { r.past d q with out := (r.past d q).out.set (j - d) b } := by
  refine ⟨rfl, by simpa using hd, ⟨q, le_rfl, ?_, hold⟩, fun _ =>
    ⟨List.take_set_of_le hj, fun _ _ => Iff.rfl⟩⟩
  simp only [past]
  rw [List.drop_set, if_neg (by omega)]

/-- An edit of the last block, when it is still there. -/
theorem passed_setLast (hold : r.Old d q) (hlt : d < r.out.length) (b : Block) :
    Passed d q r (r.setLast b) ((r.past d q).setLast b) := by
  have hlast : ∀ xs : List Block, xs ≠ [] → xs.dropLast ++ [b] = xs.set (xs.length - 1) b := by
    intro xs hxs
    rw [List.set_eq_take_append_cons_drop, if_pos (by have := List.length_pos_of_ne_nil hxs; omega),
      List.dropLast_eq_take, List.drop_eq_nil_of_le (by omega)]
  have hne : r.out ≠ [] := List.ne_nil_of_length_pos (by omega)
  have hne' : r.out.drop d ≠ [] := List.ne_nil_of_length_pos (by rw [List.length_drop]; omega)
  have hset := passed_set (q := q) hlt.le hold (j := r.out.length - 1) (by omega) b
  simp only [setLast, hlast _ hne]
  have hpast : (r.past d q).out.dropLast ++ [b] =
      (r.past d q).out.set (r.out.length - 1 - d) b := by
    simp only [past]
    rw [hlast _ hne', List.length_drop]
    congr 1
    omega
  rw [hpast]
  exact hset

/-! ## the arms -/

/-- The last block, when it is still there. -/
theorem getLast?_past (hlt : d < r.out.length) :
    (r.past d q).out.getLast? = r.out.getLast? := by
  simp only [past]
  rw [List.getLast?_drop, if_neg (by omega)]

/-- A slot that is still there is found at the same block. -/
theorem slot_past {id : String} {i : Nat} (hi : r.toolSlot[id]? = some i) (hr : ¬r.SlotReaches d id) :
    (r.past d q).toolSlot[id]? = some i ∧ r.base + d ≤ i ∧
      checkedSub i (r.past d q).base = .ok (i - r.base - d) ∧
      indexAt (r.past d q).out (i - r.base - d) = indexAt r.out (i - r.base) := by
  have hge : r.base + d ≤ i := by
    by_contra hlt
    exact hr ⟨i, hi, by omega⟩
  have hrel : i - (r.base + d) = i - r.base - d := by omega
  have hadd : d + (i - r.base - d) = i - r.base := by omega
  refine ⟨StrMap.getElem?_retain_eq_some.mpr ⟨hi, by simpa using hge⟩, hge, ?_, ?_⟩
  · rw [← hrel]
    exact checkedSub_of_le hge
  · simp only [indexAt, past, List.getElem?_drop, hadd]

/-- A slot that is not there is not there in either. -/
theorem slot_past_none {id : String} (hi : r.toolSlot[id]? = none) :
    (r.past d q).toolSlot[id]? = none := by
  simp only [past, StrMap.getElem?_retain, hi, Option.filter_none]

/-- Both arms patched the same block. -/
def PassedArm (d q : Nat) (r : Replayer) (arm short : Arm) : Prop :=
  Passed d q r arm.1 short.1 ∧ short.2 = arm.2

theorem rawLen_past (hd : d ≤ r.out.length) : (r.past d q).rawLen = r.rawLen := by
  simp only [rawLen, past, List.length_drop]
  omega

theorem passed_append (hd : d ≤ r.out.length) (hold : r.Old d q) (b : Block) :
    PassedArm d q r (r.append b) ((r.past d q).append b) :=
  ⟨(passed_self hd hold).push b, rfl⟩

theorem nameRecipient_past (b : Block) :
    (r.past d q).nameRecipient b = r.nameRecipient b := by
  cases b <;> rfl

theorem toolUse_passed (hd : d ≤ r.out.length) (hold : r.Old d q) (id name : String)
    (input : Value) (cwd : String) : PassedArm d q r (r.toolUse sh id name input cwd)
      ((r.past d q).toolUse sh id name input cwd) := by
  have hle : r.base + d ≤ r.rawLen := by
    simp only [rawLen]
    omega
  have hslot : StrMap.retain (r.toolSlot.insert id r.rawLen) (r.base + d ≤ ·) =
      (r.toolSlot.retain (r.base + d ≤ ·)).insert id r.rawLen := by
    refine StrMap.ext fun k => ?_
    rw [StrMap.getElem?_retain, StrMap.getElem?_insert, StrMap.getElem?_insert,
      StrMap.getElem?_retain]
    split
    · simp [Option.filter, hle]
    · rfl
  refine ⟨⟨rfl, by simp only [toolUse, Replayer.push, List.length_append]; omega,
    ⟨q, le_rfl, ?_, hold⟩, fun _ => ⟨List.take_append_of_le_length hd, fun _ _ => Iff.rfl⟩⟩, rfl⟩
  simp only [toolUse, nameRecipient_past, rawLen_past hd, Replayer.push]
  simp only [past, List.drop_append_of_le_length hd]
  congr 1
  · split
    · rfl
    · exact hslot.symm
  · split
    · simp [Option.filter, hle]
    · rfl

theorem toolResult_passed (h : Wf sh r.window r.indices) (hd : d ≤ r.out.length)
    (hold : r.Old d q) {id text : String} {tur : Value} {e : Option Bool} {p : Option Nat}
    (hr : ¬r.SlotReaches d id) (hok : r.toolResult sh id text tur e = .ok (r', p)) :
    ∃ x, (r.past d q).toolResult sh id text tur e = .ok (x, p) ∧ Passed d q r r' x := by
  unfold toolResult at hok ⊢
  cases hi : r.toolSlot[id]? with
  | some i =>
    obtain ⟨b, hsub, hidx, hget, -, -⟩ := slot_access h hi
    obtain ⟨hslot, hge, hsub', hidx'⟩ := slot_past (q := q) hi hr
    simp only [hi, hsub, hidx, bind, Except.bind, pure, Except.pure, Except.ok.injEq,
      Prod.mk.injEq] at hok
    obtain ⟨rfl, rfl⟩ := hok
    have hset := passed_set hd hold (j := i - r.base) (by omega)
      (sh.joinResult b (stripAnsi text) tur e)
    refine ⟨{ (r.past d q) with
      out := (r.past d q).out.set (i - r.base - d) (sh.joinResult b (stripAnsi text) tur e)
      agentIds := recordAgent r.agentIds (sh.joinResult b (stripAnsi text) tur e) }, ?_, ?_⟩
    · simp only [hslot, hsub', hidx', hidx, bind, Except.bind, pure, Except.pure, Except.ok.injEq,
        Prod.mk.injEq, Option.some.injEq]
      refine ⟨rfl, ?_⟩
      simp only [past]
      omega
    · exact hset.agentIds _
  | none =>
    simp only [hi] at hok
    simp only [slot_past_none hi]
    split at hok
    · next hkeep =>
      obtain ⟨rfl, rfl⟩ := Prod.mk.injEq .. ▸ Except.ok.inj hok
      rw [if_pos hkeep]
      exact ⟨_, rfl, (passed_self hd hold).push _⟩
    · next hkeep =>
      obtain ⟨rfl, rfl⟩ := Prod.mk.injEq .. ▸ Except.ok.inj hok
      rw [if_neg hkeep]
      exact ⟨_, rfl, passed_self hd hold⟩

theorem sandboxRun_passed (h : Wf sh r.window r.indices) (hd : d ≤ r.out.length)
    (hold : r.Old d q) {id : String} {inside : Bool} {p : Option Nat}
    (hr : ¬r.Reaches d q (.sandboxRun id inside))
    (hok : r.sandboxRun id inside = .ok (r', p)) :
    ∃ x, (r.past d q).sandboxRun id inside = .ok (x, p) ∧ Passed d q r r' x := by
  have hself := passed_self hd hold
  unfold sandboxRun at hok ⊢
  cases inside with
  | true =>
    simp only [if_true] at hok ⊢
    obtain ⟨rfl, rfl⟩ := Prod.mk.injEq .. ▸ Except.ok.inj hok
    exact ⟨_, rfl, ⟨rfl, hd, ⟨q, le_rfl, rfl, hold⟩, fun _ => ⟨rfl, fun _ _ => Iff.rfl⟩⟩⟩
  | false =>
    have hon : (r.past d q).sandboxOn = r.sandboxOn := rfl
    simp only [Bool.false_eq_true, if_false, hon] at hok ⊢
    by_cases hsand : r.sandboxOn = true
    · rw [if_pos hsand] at hok ⊢
      cases hi : r.toolSlot[id]? with
      | none =>
        simp only [hi] at hok
        simp only [slot_past_none hi]
        obtain ⟨rfl, rfl⟩ := Prod.mk.injEq .. ▸ Except.ok.inj hok
        exact ⟨_, rfl, hself⟩
      | some i =>
        obtain ⟨b, hsub, hidx, hget, -, -⟩ := slot_access h hi
        obtain ⟨hslot, hge, hsub', hidx'⟩ := slot_past (q := q) hi
          (fun hs => hr ⟨rfl, hsand, hs⟩)
        have hpatched : (r.past d q).base + (i - r.base - d) = r.base + (i - r.base) := by
          simp only [past]
          omega
        simp only [hi, hsub, hidx, bind, Except.bind] at hok
        simp only [hslot, hsub', hidx', hidx, bind, Except.bind, hpatched]
        cases b with
        | toolUse call =>
          obtain ⟨rfl, rfl⟩ := Prod.mk.injEq .. ▸ Except.ok.inj hok
          exact ⟨_, rfl, passed_set hd hold (by omega) _⟩
        | _ =>
          obtain ⟨rfl, rfl⟩ := Prod.mk.injEq .. ▸ Except.ok.inj hok
          exact ⟨_, rfl, hself⟩
    · rw [if_neg hsand] at hok ⊢
      obtain ⟨rfl, rfl⟩ := Prod.mk.injEq .. ▸ Except.ok.inj hok
      exact ⟨_, rfl, hself⟩

theorem userTurn_passed (hd : d ≤ r.out.length) (hold : r.Old d q) {text : String}
    (hr : ¬r.PopReaches d q fun item => item.content = trim text) (b : Block) :
    PassedArm d q r (r.userTurn text b) ((r.past d q).userTurn text b) :=
  ⟨(passed_popQueue hd hold hr).push b, rfl⟩

theorem userInbox_passed (hd : d ≤ r.out.length) (hold : r.Old d q) {text : String}
    (hr : ¬r.PopReaches d q fun item => item.content = trim text) (words : String) (inbox : Inbox)
    (images : List Attachment) :
    PassedArm d q r (r.userInbox text words inbox images)
      ((r.past d q).userInbox text words inbox images) := by
  have hpop := passed_popQueue hd hold hr
  have hids : ((r.past d q).popPending (trim text)).inboxIds =
      (r.popPending (trim text)).inboxIds := by
    obtain ⟨-, -, ⟨q', -, heq, -⟩, -⟩ := hpop
    exact (congrArg Replayer.inboxIds heq).trans rfl
  unfold userInbox
  simp only [hids]
  split
  · exact ⟨hpop.push _, rfl⟩
  · exact ⟨(hpop.added (.userInbox words inbox :: images.map .attachment)).inboxIds _, rfl⟩

theorem peerText_passed (hd : d ≤ r.out.length) (hold : r.Old d q) {sender : String}
    {mode : Option String} {text : String} {queued addr : Option String}
    (hr : ¬r.Reaches d q (.peerText sender mode text queued addr)) :
    PassedArm d q r (r.peerText sender mode text queued addr)
      ((r.past d q).peerText sender mode text queued addr) := by
  have hpop : ∀ raw, queued = some raw → ∀ peers,
      Passed d q r (({ r with peerNames := peers } : Replayer).popPending (trim raw))
        (({ r.past d q with peerNames := peers } : Replayer).popPending (trim raw)) := by
    intro raw hq peers
    have h := passed_popQueue (r := { r with peerNames := peers }) hd hold
      (p := fun item => item.content = trim raw) fun hpr => hr ⟨raw, hq, hpr⟩
    exact ⟨h.base, h.fits, h.same, fun hz => ⟨(h.below hz).out, (h.below hz).suppress⟩⟩
  have hself : ∀ peers, Passed d q r { r with peerNames := peers }
      { r.past d q with peerNames := peers } := fun peers =>
    ⟨rfl, hd, ⟨q, le_rfl, rfl, hold⟩, fun _ => ⟨rfl, fun _ _ => Iff.rfl⟩⟩
  cases addr with
  | none =>
    cases queued with
    | none => exact passed_append hd hold _
    | some raw => exact ⟨(hpop raw rfl r.peerNames).push _, rfl⟩
  | some a =>
    cases queued with
    | none => exact ⟨(hself _).push _, rfl⟩
    | some raw => exact ⟨(hpop raw rfl _).push _, rfl⟩

theorem refusedNote_passed (hd : d ≤ r.out.length) (hold : r.Old d q) (id text : String) :
    PassedArm d q r (r.refusedNote id text) ((r.past d q).refusedNote id text) := by
  have href : (r.past d q).refused = r.refused := rfl
  unfold refusedNote
  simp only [href]
  split
  · exact ⟨((passed_self hd hold).push _).refused _, rfl⟩
  · exact passed_append hd hold _

/-- An edit of the last block, or an append: `f` says which. -/
theorem last_passed (hd : d ≤ r.out.length) (hold : r.Old d q) {p : Block → Bool}
    (hr : ¬r.LastReaches d p) (f : Option Block → Option Block) (other : Replayer → Arm)
    (hf : ∀ b b', f (some b) = some b' → p b = true) (hnone : f none = none)
    (hother : PassedArm d q r (other r) (other (r.past d q))) :
    PassedArm d q r
      (match f r.out.getLast? with
        | some b => (r.setLast b, some r.lastLogical)
        | none => other r)
      (match f (r.past d q).out.getLast? with
        | some b => ((r.past d q).setLast b, some (r.past d q).lastLogical)
        | none => other (r.past d q)) := by
  by_cases hlt : d < r.out.length
  · rw [getLast?_past hlt]
    cases f r.out.getLast? with
    | none => exact hother
    | some b =>
      refine ⟨passed_setLast hold hlt b, ?_⟩
      simp only [lastLogical, rawLen_past hd]
  · have hnil : (r.past d q).out.getLast? = none := by
      simp only [past, List.drop_eq_nil_of_le (Nat.not_lt.mp hlt), List.getLast?_nil]
    rw [hnil, hnone]
    cases hlast : r.out.getLast? with
    | none => rw [hnone]; exact hother
    | some b =>
      cases hfb : f (some b) with
      | none => exact hother
      | some b' => exact absurd ⟨Nat.not_lt.mp hlt, b, hlast, hf b b' hfb⟩ hr

/-- What a usage pair makes of the last block. -/
def withUsage (pre post : Nat) : Option Block → Option Block
  | some (.compaction trigger _ _ summary) => some (.compaction trigger pre post summary)
  | _ => none

theorem compactUsage_passed (hd : d ≤ r.out.length) (hold : r.Old d q) {pre post : Nat}
    (hr : ¬r.LastReaches d isCompaction) :
    PassedArm d q r (r.compactUsage pre post) ((r.past d q).compactUsage pre post) := by
  have heq : ∀ r : Replayer, r.compactUsage pre post = match withUsage pre post r.out.getLast? with
      | some b => (r.setLast b, some r.lastLogical)
      | none => (r, none) := by
    intro r
    unfold compactUsage
    cases r.out.getLast? with
    | none => rfl
    | some b => cases b <;> rfl
  rw [heq, heq]
  refine last_passed hd hold hr (withUsage pre post) (fun r => (r, none)) ?_ rfl
    ⟨passed_self hd hold, rfl⟩
  intro b b' hb
  cases b <;> first | rfl | simp [withUsage] at hb

/-- What a summary makes of the last block. -/
def withSummary (text : String) : Option Block → Option Block
  | some (.compaction trigger pre post summary) =>
    if summary.isEmpty then some (.compaction trigger pre post text) else none
  | _ => none

theorem compactSummary_passed (hd : d ≤ r.out.length) (hold : r.Old d q) {text : String}
    (hr : ¬r.LastReaches d isOpenCompaction) :
    PassedArm d q r (r.compactSummary text) ((r.past d q).compactSummary text) := by
  have heq : ∀ r : Replayer, r.compactSummary text =
      match withSummary text r.out.getLast? with
      | some b => (r.setLast b, some r.lastLogical)
      | none => r.append (.toolResult text) := by
    intro r
    unfold compactSummary
    cases r.out.getLast? with
    | none => rfl
    | some b =>
      cases b with
      | compaction trigger pre post summary =>
        simp only [withSummary]
        split <;> rfl
      | _ => rfl
  rw [heq, heq]
  refine last_passed hd hold hr (withSummary text) (fun r => r.append (.toolResult text)) ?_ rfl
    (passed_append hd hold _)
  intro b b' hb
  cases b with
  | compaction trigger pre post summary =>
    simp only [withSummary] at hb
    split at hb
    · next hsum => exact hsum
    · simp at hb
  | _ => simp [withSummary] at hb

/-- What a command's stdout makes of the last block. -/
def withStdout (text : String) : Option Block → Option Block
  | some (.command name args output) => some (.command name args (output ++ [text]))
  | _ => none

theorem commandStdout_passed (hd : d ≤ r.out.length) (hold : r.Old d q) {text : String}
    (hr : ¬r.LastReaches d isCommand) :
    PassedArm d q r (r.commandStdout text) ((r.past d q).commandStdout text) := by
  have heq : ∀ r : Replayer, r.commandStdout text =
      match withStdout (stripAnsi text) r.out.getLast? with
      | some b => (r.setLast b, some r.lastLogical)
      | none => r.append (.command "" "" [stripAnsi text]) := by
    intro r
    unfold commandStdout
    cases r.out.getLast? with
    | none => rfl
    | some b => cases b <;> rfl
  rw [heq, heq]
  refine last_passed hd hold hr (withStdout (stripAnsi text))
    (fun r => r.append (.command "" "" [stripAnsi text])) ?_ rfl (passed_append hd hold _)
  intro b b' hb
  cases b <;> first | rfl | simp [withStdout] at hb

/-! ### the skill body -/

/-- The last match, past the cut, when there is one there. -/
theorem rposition_drop (p : Block → Bool) (xs : List Block) (d : Nat) (hd : d ≤ xs.length) :
    rposition p xs = match rposition p (xs.drop d) with
      | some i => some (d + i)
      | none => rposition p (xs.take d) := by
  conv_lhs => rw [← List.take_append_drop d xs, rposition_append]
  rw [List.length_take, Nat.min_eq_left hd]
  cases rposition p (xs.drop d) with
  | none => rfl
  | some i => simp

/-- A skill call that is still there is found at the same block. -/
theorem skillIndex_past {i : Nat} (hd : d ≤ r.out.length) (hi : r.lastSkill = some i)
    (hge : r.base + d ≤ i) :
    (r.past d q).lastSkill = some i ∧
      (r.past d q).skillIndex = r.skillIndex.map (· - d) ∧ ∀ j, r.skillIndex = some j → d ≤ j := by
  have hlast : (r.past d q).lastSkill = some i := by
    simp only [past, hi, Option.filter, decide_eq_true hge, if_true]
  have hstart := rposition_drop Block.opensTurn r.out d hd
  have hcond : (rposition Block.opensTurn (r.out.drop d)).getD 0 ≤ i - (r.base + d) ↔
      (rposition Block.opensTurn r.out).getD 0 ≤ i - r.base := by
    cases hk : rposition Block.opensTurn (r.out.drop d) with
    | some k =>
      simp only [hk] at hstart
      simp only [hstart, Option.getD_some]
      omega
    | none =>
      simp only [hk] at hstart
      have hlt : (rposition Block.opensTurn (r.out.take d)).getD 0 ≤ d := by
        cases hj : rposition Block.opensTurn (r.out.take d) with
        | none => exact Nat.zero_le d
        | some j =>
          have := rposition_lt hj
          rw [List.length_take] at this
          simp only [Option.getD_some]
          omega
      rw [hstart]
      simp only [Option.getD_none]
      omega
  refine ⟨hlast, ?_, ?_⟩
  · unfold skillIndex
    rw [hlast, hi]
    simp only [Option.map_some, Option.filter, past, decide_eq_true_eq]
    by_cases hc : (rposition Block.opensTurn r.out).getD 0 ≤ i - r.base
    · rw [if_pos (hcond.mpr hc), if_pos hc, Option.map_some, Nat.sub_sub]
    · rw [if_neg (mt hcond.mp hc), if_neg hc, Option.map_none]
  · intro j hj
    obtain ⟨k, hk, rfl⟩ := Option.map_eq_some_iff.mp (Option.filter_eq_some_iff.mp hj).1
    rw [hi, Option.some.injEq] at hk
    omega

/-- Nesting a body into a block that is still there. -/
theorem attachSkillBody_drop (out : List Block) {j : Nat} (hj : d ≤ j) (body : String) :
    attachSkillBody (out.drop d) (some (j - d)) body =
      (attachSkillBody out (some j) body).map (List.drop d) := by
  have hget : (out.drop d)[j - d]? = out[j]? := by
    rw [List.getElem?_drop]
    congr 1
    omega
  simp only [attachSkillBody, hget]
  cases out[j]? with
  | none => rfl
  | some b =>
    cases b with
    | toolUse call =>
      simp only
      split
      · rw [Option.map_some, List.drop_set, if_neg (by omega)]
      · rfl
    | _ => rfl

/-- The arm, in terms of the call it would nest into. -/
theorem skillBody_eq (r : Replayer) (text fallback : String)
    (h : ∀ i, r.lastSkill = some i → r.base ≤ i) :
    r.skillBody text fallback = .ok (match attachSkillBody r.out r.skillIndex text with
      | some out => ({ r with out }, r.lastSkill)
      | none => if fallback.isEmpty then (r, none) else r.append (.toolResult fallback)) := by
  have htarget : r.skillTarget = .ok (r.lastSkill.map (· - r.base)) := by
    unfold skillTarget
    cases hi : r.lastSkill with
    | none => rfl
    | some i =>
      simp only [checkedSub_of_le (h i hi)]
      rfl
  unfold skillBody
  simp only [htarget, bind, Except.bind, pure, Except.pure, skillIndex]
  cases attachSkillBody r.out _ text with
  | none =>
    simp only
    split <;> rfl
  | some out => rfl

theorem skillBody_passed (h : Wf sh r.window r.indices) (hd : d ≤ r.out.length)
    (hold : r.Old d q) {text fallback : String} {p : Option Nat}
    (hr : ¬r.Reaches d q (.skillBody text fallback))
    (hok : r.skillBody text fallback = .ok (r', p)) :
    ∃ x, (r.past d q).skillBody text fallback = .ok (x, p) ∧ Passed d q r r' x := by
  have hge : ∀ i, r.lastSkill = some i → r.base ≤ i := by
    intro i hi
    obtain ⟨call, b, -, hb, -⟩ := h.skill i hi
    exact (Window.at?_eq_some.mp hb).1
  have hge' : ∀ i, (r.past d q).lastSkill = some i → (r.past d q).base ≤ i := by
    intro i hi
    simpa [past] using (Option.filter_eq_some_iff.mp hi).2
  rw [skillBody_eq r text fallback hge] at hok
  rw [skillBody_eq _ text fallback hge']
  have hnone : attachSkillBody r.out r.skillIndex text = none →
      attachSkillBody (r.past d q).out (r.past d q).skillIndex text = none →
      ∃ x, (.ok (match attachSkillBody (r.past d q).out (r.past d q).skillIndex text with
        | some out => ({ r.past d q with out }, (r.past d q).lastSkill)
        | none => if fallback.isEmpty then (r.past d q, none)
            else (r.past d q).append (.toolResult fallback)) : Except Fault Arm) = .ok (x, p) ∧
          Passed d q r r' x := by
    intro ha hb
    rw [ha] at hok
    rw [hb]
    by_cases hf : fallback.isEmpty = true
    · simp only [hf, if_true] at hok ⊢
      obtain ⟨rfl, rfl⟩ := Prod.mk.injEq .. ▸ Except.ok.inj hok
      exact ⟨_, rfl, passed_self hd hold⟩
    · simp only [hf] at hok ⊢
      obtain ⟨rfl, rfl⟩ := Prod.mk.injEq .. ▸ Except.ok.inj hok
      exact ⟨_, rfl, (passed_append hd hold _).1⟩
  cases hi : r.lastSkill with
  | none =>
    exact hnone (by simp [skillIndex, hi, attachSkillBody])
      (by simp [skillIndex, past, hi, attachSkillBody])
  | some i =>
    by_cases hcut : r.base + d ≤ i
    · obtain ⟨hlast, hidx, hle⟩ := skillIndex_past (q := q) hd hi hcut
      have hout : (r.past d q).out = r.out.drop d := rfl
      cases hj : r.skillIndex with
      | none => exact hnone (by simp [hj, attachSkillBody]) (by simp [hidx, hj, attachSkillBody])
      | some j =>
        have hdrop := attachSkillBody_drop r.out (hle j hj) text
        cases ha : attachSkillBody r.out (some j) text with
        | none =>
          refine hnone (by rw [hj, ha]) ?_
          rw [hidx, hj, Option.map_some, hout, hdrop, ha, Option.map_none]
        | some out =>
          rw [hj, ha] at hok
          obtain ⟨rfl, rfl⟩ := Prod.mk.injEq .. ▸ Except.ok.inj hok
          have hsame : (r.past d q).lastSkill = r.lastSkill := hlast.trans hi.symm
          rw [hidx, hj, Option.map_some, hout, hdrop, ha, Option.map_some]
          obtain ⟨j', call, hjj, hget, -, rfl⟩ := attachSkillBody_eq_some ha
          rw [Option.some.injEq] at hjj
          subst hjj
          have hset := passed_set hd hold (hle j hj) (.toolUse (call.attachBody text))
          rw [hout] at hset
          rw [List.drop_set, if_neg (by have := hle j hj; omega)]
          exact ⟨_, congrArg (fun i => Except.ok (_, i)) hsame, hset⟩
    · refine hnone ?_ ?_
      · cases hj : r.skillIndex with
        | none => rfl
        | some j =>
          rw [← Option.not_isSome_iff_eq_none]
          refine fun hsome => hr ⟨j, hj, ?_, hsome⟩
          obtain ⟨k, hk, rfl⟩ := Option.map_eq_some_iff.mp (Option.filter_eq_some_iff.mp hj).1
          rw [hi, Option.some.injEq] at hk
          have := hge i hi
          omega
      · have hgone : (r.past d q).lastSkill = none := by
          simp [past, hi, Option.filter, hcut]
        simp [skillIndex, hgone, attachSkillBody]

/-! ### image paths -/

theorem takeWhile_append_of_le {α : Type} (p : α → Bool) (xs ys : List α)
    (h : ((xs ++ ys).takeWhile p).length ≤ xs.length) :
    (xs ++ ys).takeWhile p = xs.takeWhile p := by
  induction xs with
  | nil => simpa [List.length_eq_zero_iff] using h
  | cons x xs ih =>
    rw [List.cons_append, List.takeWhile_cons, List.takeWhile_cons]
    cases hx : p x with
    | false => rfl
    | true =>
      rw [List.cons_append, List.takeWhile_cons, hx] at h
      simp only [if_true, List.length_cons] at h
      simp only [if_true, ih (by omega)]

/-- The images of a prompt that is still there, when they are. -/
theorem promptImages_drop (out : List Block) {prompt : Nat} (hp : d ≤ prompt)
    (hlen : prompt ≤ out.length) (hall : ∀ i ∈ promptImages out prompt, d ≤ i) :
    promptImages out prompt = (promptImages (out.drop d) (prompt - d)).map (d + ·) := by
  have hbefore : ((out.take prompt).reverse.takeWhile Block.isImage).length =
      (((out.drop d).take (prompt - d)).reverse.takeWhile Block.isImage).length := by
    have hsplit : (out.take prompt).reverse =
        ((out.drop d).take (prompt - d)).reverse ++ (out.take d).reverse := by
      rw [← List.reverse_append]
      congr 1
      conv_lhs => rw [show prompt = d + (prompt - d) by omega, List.take_add]
    have hle : ((out.take prompt).reverse.takeWhile Block.isImage).length ≤ prompt - d := by
      have hle₀ : ((out.take prompt).reverse.takeWhile Block.isImage).length ≤ prompt := by
        have h₁ := (List.takeWhile_sublist Block.isImage
          (l := (out.take prompt).reverse)).length_le
        rw [List.length_reverse, List.length_take] at h₁
        omega
      by_contra hlt
      have hfirst : prompt - ((out.take prompt).reverse.takeWhile Block.isImage).length ∈
          promptImages out prompt := by
        unfold promptImages
        rw [List.mem_append, List.mem_range'_1]
        exact .inl ⟨le_rfl, by omega⟩
      have := hall _ hfirst
      omega
    rw [hsplit] at hle ⊢
    rw [takeWhile_append_of_le]
    rw [List.length_reverse, List.length_take, List.length_drop]
    omega
  have hafter : (out.drop d).drop (prompt - d + 1) = out.drop (prompt + 1) := by
    rw [List.drop_drop]
    congr 1
    omega
  have hle : (((out.drop d).take (prompt - d)).reverse.takeWhile Block.isImage).length ≤
      prompt - d := by
    have h₁ := (List.takeWhile_sublist Block.isImage
      (l := ((out.drop d).take (prompt - d)).reverse)).length_le
    rw [List.length_reverse, List.length_take] at h₁
    omega
  unfold promptImages
  rw [List.map_append, List.map_add_range', List.map_add_range', hafter, hbefore]
  rw [show d + (prompt - d - (((out.drop d).take (prompt - d)).reverse.takeWhile
      Block.isImage).length) = prompt - (((out.drop d).take (prompt - d)).reverse.takeWhile
      Block.isImage).length by omega, show d + (prompt - d + 1) = prompt + 1 by omega]

/-- Setting paths on images past the cut leaves the blocks below it. -/
theorem foldl_setPath_drop (ips : List (Nat × String)) :
    ∀ out : List Block, d ≤ out.length →
      (ips.map fun ip => (d + ip.1, ip.2)).foldl
          (fun out ip => out.modify ip.1 (setPath ip.2)) out =
        out.take d ++ ips.foldl (fun out ip => out.modify ip.1 (setPath ip.2)) (out.drop d) := by
  induction ips with
  | nil => exact fun out _ => (List.take_append_drop d out).symm
  | cons ip ips ih =>
    intro out hlen
    have hstep : out.modify (d + ip.1) (setPath ip.2) =
        out.take d ++ (out.drop d).modify ip.1 (setPath ip.2) := by
      refine List.ext_getElem? fun i => ?_
      rw [List.getElem?_modify, List.getElem?_append, List.length_take, Nat.min_eq_left hlen,
        List.getElem?_take, List.getElem?_modify, List.getElem?_drop]
      by_cases hi : i < d
      · rw [if_pos hi, if_pos hi]
        cases out[i]? with
        | none => rfl
        | some b => exact congrArg some (if_neg (by omega))
      · rw [if_neg hi, show d + (i - d) = i by omega]
        have hidx : (d + ip.1 = i) = (ip.1 = i - d) := propext (by omega)
        simp only [hidx]
    rw [List.map_cons, List.foldl_cons, List.foldl_cons, hstep, ih]
    · rw [List.take_left' (by rw [List.length_take]; omega),
        List.drop_left' (by rw [List.length_take]; omega)]
    · rw [List.length_append, List.length_take]
      omega

/-- The latest prompt's images, as far as the cut can tell. -/
theorem imagePaths_passed (hd : d ≤ r.out.length) (hold : r.Old d q) {paths : List String}
    (hr : ¬r.Reaches d q (.imagePaths paths)) :
    Passed d q r (r.patchImagePaths paths) ((r.past d q).patchImagePaths paths) := by
  have hout : (r.past d q).out = r.out.drop d := rfl
  have hpos := rposition_drop Block.isPrompt r.out d hd
  unfold patchImagePaths
  rw [hout]
  cases hp : rposition Block.isPrompt r.out with
  | none =>
    rw [hp] at hpos
    cases hp' : rposition Block.isPrompt (r.out.drop d) with
    | none => exact passed_self hd hold
    | some j => simp [hp'] at hpos
  | some prompt =>
    have hge : d ≤ prompt := by
      by_contra hlt
      exact hr ⟨prompt, hp, .inl (by omega)⟩
    have hall : ∀ i ∈ promptImages r.out prompt, d ≤ i := by
      intro i hi
      by_contra hlt
      exact hr ⟨prompt, hp, .inr ⟨i, hi, by omega⟩⟩
    have hlen : prompt ≤ r.out.length := (rposition_lt hp).le
    have hp' : rposition Block.isPrompt (r.out.drop d) = some (prompt - d) := by
      cases hj : rposition Block.isPrompt (r.out.drop d) with
      | some j =>
        simp only [hj, hp, Option.some.injEq] at hpos
        rw [hpos]
        congr 1
        omega
      | none =>
        simp only [hj, hp] at hpos
        have := rposition_lt hpos.symm
        rw [List.length_take] at this
        omega
    have himages := promptImages_drop r.out hge hlen hall
    simp only [hp', himages, List.length_map]
    by_cases hcount : (promptImages (r.out.drop d) (prompt - d)).length = paths.length
    · rw [if_pos hcount, if_pos hcount]
      have hzip : ((promptImages (r.out.drop d) (prompt - d)).map (d + ·)).zip paths =
          ((promptImages (r.out.drop d) (prompt - d)).zip paths).map
            fun ip => (d + ip.1, ip.2) := by
        rw [List.zip_map_left]
        rfl
      rw [hzip, foldl_setPath_drop _ _ hd]
      have htake : (r.out.take d).length = d := by rw [List.length_take, Nat.min_eq_left hd]
      refine ⟨rfl, ?_, ⟨q, le_rfl, ?_, hold⟩, fun _ => ⟨?_, fun _ _ => Iff.rfl⟩⟩
      · rw [List.length_append, htake]
        omega
      · simp only [past, List.drop_left' htake]
      · simp only [List.take_left' htake]
    · rw [if_neg hcount, if_neg hcount]
      exact passed_self hd hold

/-! ### the prompt queue -/

/-- A prompt joins both queues behind what the longer one has kept. -/
theorem drop_concat_of_min (xs : List QueueItem) (x : QueueItem) (q : Nat) :
    (xs ++ [x]).drop (min q xs.length) = xs.drop q ++ [x] := by
  rw [List.drop_append_of_le_length (Nat.min_le_right ..)]
  by_cases hq : q ≤ xs.length
  · rw [Nat.min_eq_left hq]
  · rw [Nat.min_eq_right (by omega), List.drop_length, List.drop_eq_nil_of_le (by omega)]

theorem Old.enqueue (hold : r.Old d q) (item : QueueItem) (hout : r'.base = r.base)
    (hqueue : r'.queue = r.queue ++ [item]) : r'.Old d (min q r.queue.length) := by
  intro it hit i hi
  rw [hqueue, List.take_append_of_le_length (Nat.min_le_right ..)] at hit
  rw [hout]
  refine hold it ?_ i hi
  rwa [List.take_eq_take_min]

theorem enqueue_passed (hd : d ≤ r.out.length) (hold : r.Old d q) {content : Option String}
    {prose : Bool} : PassedArm d q r (r.queueOp .enqueue content prose)
      ((r.past d q).queueOp .enqueue content prose) := by
  cases content with
  | none => exact ⟨passed_self hd hold, rfl⟩
  | some c =>
    cases prose with
    | true =>
      refine ⟨⟨rfl, ?_, ⟨_, Nat.min_le_left .., ?_, hold.enqueue _ rfl rfl⟩, fun _ => ⟨?_, ?_⟩⟩, rfl⟩
      · simp only [queueOp, Replayer.push, if_true, List.length_append]
        omega
      · have hlen : (r.past d q).rawLen = r.rawLen := rawLen_past hd
        simp only [queueOp, if_true, hlen]
        simp only [Replayer.push, past, List.drop_append_of_le_length hd, drop_concat_of_min]
        rfl
      · exact List.take_append_of_le_length hd
      · exact fun _ _ => Iff.rfl
    | false =>
      refine ⟨⟨rfl, hd, ⟨_, Nat.min_le_left .., ?_, hold.enqueue _ rfl rfl⟩, fun _ => ⟨rfl, ?_⟩⟩, rfl⟩
      · simp only [queueOp, Bool.false_eq_true, if_false, past, drop_concat_of_min]
      · exact fun _ _ => Iff.rfl

theorem popAll_passed (hd : d ≤ r.out.length) (hold : r.Old d q) {content : Option String}
    {prose : Bool} (hr : ¬r.Reaches d q (.queueOp .popAll content prose)) :
    PassedArm d q r (r.queueOp .popAll content prose)
      ((r.past d q).queueOp .popAll content prose) := by
  have hnew : ∀ i ∈ (r.queue.drop q).filterMap (·.markerIdx), r.base + d ≤ i := by
    intro i hi
    obtain ⟨item, hmem, hmark⟩ := List.mem_filterMap.mp hi
    by_contra hlt
    exact hr ⟨item, hmem, i, hmark, by omega⟩
  have hlost : ∀ i ∈ (r.queue.take q).filterMap (·.markerIdx), i < r.base + d := by
    intro i hi
    obtain ⟨item, hmem, hmark⟩ := List.mem_filterMap.mp hi
    exact hold item hmem i hmark
  have hsplit : (r.queue.filterMap (·.markerIdx)).filter (decide <| r.base + d ≤ ·) =
      (r.queue.drop q).filterMap (·.markerIdx) := by
    conv_lhs => rw [← List.take_append_drop q r.queue, List.filterMap_append, List.filter_append]
    rw [List.filter_eq_nil_iff.mpr fun i hi => by simpa using hlost i hi, List.nil_append,
      List.filter_eq_self.mpr fun i hi => by simpa using hnew i hi]
  refine ⟨⟨rfl, hd, ⟨0, Nat.zero_le q, ?_, by simp [Old]⟩, fun hz => ⟨rfl, fun i hi => ?_⟩⟩, rfl⟩
  · simp only [queueOp, past, List.filter_append, List.drop_zero]
    congr 2
    exact hsplit.symm
  · simp only [queueOp, List.mem_append]
    refine or_iff_left fun hmem => ?_
    rw [hz, List.drop_zero] at hnew
    have := hnew i hmem
    omega

theorem queueOp_passed (hd : d ≤ r.out.length) (hold : r.Old d q) {op : QueueOpKind}
    {content : Option String} {prose : Bool} (hr : ¬r.Reaches d q (.queueOp op content prose)) :
    PassedArm d q r (r.queueOp op content prose) ((r.past d q).queueOp op content prose) := by
  cases op with
  | enqueue => exact enqueue_passed hd hold
  | remove =>
    cases content with
    | none => exact ⟨passed_popQueue hd hold hr, rfl⟩
    | some c => exact ⟨passed_popQueue hd hold hr, rfl⟩
  | dequeue =>
    cases content with
    | none => exact ⟨passed_popQueue hd hold hr, rfl⟩
    | some c => exact ⟨passed_popQueue hd hold hr, rfl⟩
  | popAll => exact popAll_passed hd hold hr

/-! ## one message -/

/-- An arm that reads neither window nor queue passes. -/
theorem PassedArm.step {arm short : Arm} (h : PassedArm d q r arm short) {p : Option Nat}
    (hok : (.ok arm : Except Fault Arm) = .ok (r', p)) :
    ∃ x, (.ok short : Except Fault Arm) = .ok (x, p) ∧ Passed d q r r' x := by
  obtain ⟨hpassed, hpatch⟩ := h
  obtain rfl := Except.ok.inj hok
  exact ⟨short.1, congrArg Except.ok (Prod.ext rfl hpatch), hpassed⟩

theorem turnDuration_passed (hd : d ≤ r.out.length) (hold : r.Old d q) (secs : Nat)
    (at_ : Option EpochSeconds) :
    PassedArm d q r (r.turnDuration secs at_) ((r.past d q).turnDuration secs at_) := by
  have htimes : (r.past d q).userTimes = r.userTimes := rfl
  have hdurs : (r.past d q).turnDurations = r.turnDurations := rfl
  have hself := passed_self hd hold
  unfold turnDuration
  rw [htimes, hdurs]
  split
  · exact ⟨hself, rfl⟩
  · split
    · exact ⟨hself, rfl⟩
    · exact ⟨⟨rfl, hd, ⟨q, le_rfl, rfl, hold⟩, fun _ => ⟨rfl, fun _ _ => Iff.rfl⟩⟩, rfl⟩

/-- **A message that refers to no lost block cannot tell the windows apart**: it
does the same to both. -/
theorem step_past (h : Wf sh r.window r.indices) (hd : d ≤ r.out.length) (hold : r.Old d q)
    {m : Message} {p : Option Nat} (hm : ∀ ts, m ≠ .lineStart ts) (hr : ¬r.Reaches d q m)
    (hok : r.step sh m = .ok (r', p)) :
    ∃ x, (r.past d q).step sh m = .ok (x, p) ∧ Passed d q r r' x := by
  have hself := passed_self hd hold
  have hskip : PassedArm d q r (r, none) (r.past d q, none) := ⟨hself, rfl⟩
  have happend := fun b => passed_append (q := q) hd hold b
  cases m with
  | lineStart ts => exact absurd rfl (hm ts)
  | taskOp t => exact hskip.step hok
  | assistantText text => exact (happend _).step hok
  | assistantCutOff text => exact (happend _).step hok
  | assistantMessage text phase inferred => exact (happend _).step hok
  | thinking text ts => exact (happend _).step hok
  | toolUse id name input cwd => exact (toolUse_passed hd hold id name input cwd).step hok
  | toolResult id text tur e => exact toolResult_passed h hd hold hr hok
  | userText text => exact (userTurn_passed hd hold hr _).step hok
  | userReply text context => exact (userTurn_passed hd hold hr _).step hok
  | userInbox text words inbox images =>
    exact (userInbox_passed hd hold hr words inbox images).step hok
  | peerText sender mode text queued addr => exact (peerText_passed hd hold hr).step hok
  | systemNote text body => exact (happend _).step hok
  | refused id category =>
    have harm : PassedArm d q r ({ r with refused := r.refused.insert id category }, none)
        ({ r.past d q with refused := r.refused.insert id category }, none) :=
      ⟨hself.refused _, rfl⟩
    exact harm.step hok
  | refusedNote id text => exact (refusedNote_passed hd hold id text).step hok
  | sandboxOn =>
    have harm : PassedArm d q r ({ r with sandboxOn := true }, none)
        ({ r.past d q with sandboxOn := true }, none) :=
      ⟨⟨rfl, hd, ⟨q, le_rfl, rfl, hold⟩, fun _ => ⟨rfl, fun _ _ => Iff.rfl⟩⟩, rfl⟩
    exact harm.step hok
  | sandboxRun id inside => exact sandboxRun_passed h hd hold hr hok
  | skillBody text fallback => exact skillBody_passed h hd hold hr hok
  | command name args output => exact (happend _).step hok
  | commandStdout text => exact (commandStdout_passed hd hold hr).step hok
  | attachmentPrompt text => exact (userTurn_passed hd hold hr _).step hok
  | attachment a => exact (happend _).step hok
  | imagePaths paths =>
    have harm : PassedArm d q r (r.patchImagePaths paths, none)
        ((r.past d q).patchImagePaths paths, none) := ⟨imagePaths_passed hd hold hr, rfl⟩
    exact harm.step hok
  | completion id task status description result => exact (happend _).step hok
  | turnDuration secs at_ =>
    exact (turnDuration_passed hd hold secs at_).step hok
  | queueOp op content prose => exact (queueOp_passed hd hold hr).step hok
  | compactBoundary trigger pre post => exact (happend _).step hok
  | compactUsage pre post => exact (compactUsage_passed hd hold hr).step hok
  | compactSummary text => exact (compactSummary_passed hd hold hr).step hok

end Replayer

end ClaudeReplay
