import ClaudeReplay.Monitor.Orderly
import Mathlib.Logic.Encodable.Basic
import Mathlib.Logic.Equiv.List

/-!
# ClaudeReplay.Monitor.Revoke

What becomes of a grant and of a revoke while other requests run. The file is shared by
all requests and nothing locks it, so a slow save puts back a list that was loaded before
a revoke (`stale_save_restores`). In an orderly run a revoked session stays revoked, a
grant is not lost to other sessions' requests, and nothing is consented to that was not
granted (`orderly_consent`).
-/

namespace ClaudeReplay.Monitor

open Lib

variable {ι : Type} [DecidableEq ι] {json : Json}
variable {s t : Store ι} {e : Event ι}

/-! ## a revoked session stays revoked -/

/-- No request that grants the session is under way. -/
def Store.NoGrant (s : Store ι) (sid : String) : Prop :=
  ∀ i op, (s.phase i).op? = some op → ¬ op.Grants sid

/-- A list free of the session stays free of it while nothing grants it. -/
theorem Move.holds_freeOf (hjson : json.ReadsBack) (hmove : Move json s e t)
    (hsolo : s.Solo json) {sid : String} (h : s.Holds json (FreeOf sid)) (hno : s.NoGrant sid) :
    t.Holds json (FreeOf sid) := by
  apply hmove.holds hjson hsolo h
  intro i op now _ hphase hfree
  exact freeOf_edited hfree (hno i op (by rw [hphase]; rfl)) now

/-- What an orderly run keeps: one save at a time, grant and revoke apart, and a list
free of the session for every revoke that is about to reply. -/
structure Store.Tidy (json : Json) (s : Store ι) : Prop where
  solo : s.Solo json
  apart : s.Apart
  revoked : ∀ i sid a, s.phase i = .ended (.revoke sid) a → s.Holds json (FreeOf sid)

omit [DecidableEq ι] in
/-- While a revoke is under way nothing grants its session. -/
theorem Store.Apart.noGrant (h : s.Apart) {i : ι} {sid : String}
    (hi : (s.phase i).op? = some (.revoke sid)) : s.NoGrant sid := by
  intro j op hj hgrants
  cases op with
  | grant t =>
    have hclash : decide (t.sid = sid) = false := h i j _ _ hi hj
    exact of_decide_eq_false hclash hgrants
  | revoke _ => exact hgrants
  | consents _ _ => exact hgrants

theorem Move.tidy (hjson : json.ReadsBack) (hmove : Move json s e t) (h : s.Tidy json) :
    t.Tidy json := by
  refine ⟨hmove.solo h.solo, hmove.apart h.apart, ?_⟩
  intro j sid a hj
  have hkept (hs : s.phase j = .ended (.revoke sid) a) : t.Holds json (FreeOf sid) :=
    hmove.holds_freeOf hjson h.solo (h.revoked j sid a hs) (h.apart.noGrant (by rw [hs]; rfl))
  cases hmove with
  | call i op hphase =>
    rw [Store.goto_phase] at hj
    split at hj
    · cases hj
    · exact hkept hj
  | load i op now hphase hcalm =>
    rw [Store.goto_phase] at hj
    split at hj
    · -- a revoke that found nothing to take away
      unfold Op.loaded at hj
      split at hj
      · cases hj
      · rename_i hsaves
        cases hj
        have hfree : FreeOf sid (Monitor.load json s.file) :=
          revoke_unsaved (Bool.not_eq_true _ ▸ hsaves)
        refine Store.Holds.goto ⟨fun _ => hfree, ?_⟩ (Op.loaded_isSaving ..) (by rw [hphase]; rfl)
        intro k op' now' seen' offset' hk
        have := hcalm k
        simp [hk, Phase.isSaving] at this
    · exact hkept hj
  | openFile i op now hphase =>
    simp only [Store.goto_phase] at hj
    split at hj
    · cases hj
    · exact hkept hj
  | write i n op now seen offset hphase =>
    simp only [Store.goto_phase] at hj
    split at hj
    · cases hj
    · exact hkept hj
  | fill i n op now seen offset hphase piece hpiece hlast =>
    simp only [Store.goto_phase] at hj
    split at hj
    · cases hj
      exact fill_holds hjson h.solo hphase hpiece hlast (revoke_freeOf sid now seen) _ rfl
    · exact hkept hj
  | reply i op answer hphase =>
    rw [Store.goto_phase] at hj
    split at hj
    · cases hj
    · exact hkept hj

/-- A store no request of which is under way. -/
def Store.Idle (s : Store ι) : Prop := ∀ i, s.phase i = .idle

omit [DecidableEq ι] in
theorem Store.Idle.tidy (h : s.Idle) : s.Tidy json where
  solo i op now seen offset hi := by
    rw [h i] at hi
    cases hi
  apart i j op op' hi := by
    rw [h i] at hi
    cases hi
  revoked i sid a hi := by
    rw [h i] at hi
    cases hi

theorem Orderly.run_tidy (hjson : json.ReadsBack) {es : List (Event ι)} (hs : s.Idle)
    (h : Run (Orderly json) s es t) : t.Tidy json :=
  h.kept (Q := fun _ => True) (fun _ _ _ _ hstep => hstep.move.tidy hjson) (by simp) hs.tidy

variable (json)

/-- After a revoke has replied, no send to its session finds consent until a grant for it
is called. -/
def StaysRevoked (R : Store ι → Event ι → Store ι → Prop) (s₀ : Store ι) : Prop :=
  ∀ (pre mid : List (Event ι)) (i : ι) (sid : String) (u : Store ι),
    Run R s₀ (pre ++ ⟨i, .reply (.revoke sid) .revoked⟩ :: mid) u →
    (∀ e ∈ mid, ∀ t, e.act = .call (.grant t) → t.sid ≠ sid) →
    ∀ (j : ι) (t : Target) (follows : Bool) (now : UInt64) (v : Store ι), t.sid = sid →
      u.phase j = .called (.consents t follows) → R u ⟨j, .load now⟩ v →
      v.phase j = .ended (.consents t follows) (.consented false)

variable {json}

theorem covers_of_freeOf {gs : List Grant} {t : Target} (h : FreeOf t.sid gs) (follows : Bool)
    (now : UInt64) : covers gs t follows now = false := by
  have hnone (p : Grant → Bool) : (gs.any fun g => g.isFor t && p g) = false := by
    rw [List.any_eq_false]
    intro g hg
    have hsid : ¬ g.sid = t.sid := h g hg
    simp [Grant.isFor, hsid]
  simp only [covers, granted, carried, Bool.and_assoc, hnone, Bool.and_false, Bool.or_false]

/-- The answer of a send is worked out from the list its load finds. -/
theorem consents_load {j : ι} {t : Target} {follows : Bool} {now : UInt64} {u v : Store ι}
    (hphase : u.phase j = .called (.consents t follows)) (h : Move json u ⟨j, .load now⟩ v) :
    u.Calm ∧ v.phase j = .ended (.consents t follows)
      (.consented (covers (Monitor.load json u.file) t follows now)) := by
  cases h with
  | load _ op _ hphase' hcalm =>
    rw [hphase] at hphase'
    cases hphase'
    exact ⟨hcalm, Store.goto_phase_self ..⟩

/-- The session is revoked: the list is free of it and nothing grants it. -/
structure Store.Revoked (json : Json) (s : Store ι) (sid : String) : Prop where
  tidy : s.Tidy json
  free : s.Holds json (FreeOf sid)
  noGrant : s.NoGrant sid

theorem Move.revoked (hjson : json.ReadsBack) (hmove : Move json s e t) {sid : String}
    (h : s.Revoked json sid) (hcall : ∀ t, e.act = .call (.grant t) → t.sid ≠ sid) :
    t.Revoked json sid := by
  refine ⟨hmove.tidy hjson h.tidy, hmove.holds_freeOf hjson h.tidy.solo h.free h.noGrant, ?_⟩
  intro k op hk hgrants
  obtain hk | rfl := hmove.op?_cases hk
  · exact h.noGrant k op hk hgrants
  · cases op with
    | grant t' => exact hcall t' rfl hgrants
    | revoke _ => exact hgrants
    | consents _ _ => exact hgrants

/-- **A revoked session stays revoked** in an orderly run. -/
theorem orderly_staysRevoked (hjson : json.ReadsBack) {s₀ : Store ι} (hidle : s₀.Idle) :
    StaysRevoked (Orderly json) s₀ := by
  intro pre mid i sid u hrun hmid j t follows now v ht hphase hload
  obtain ⟨u₁, hpre, hrest⟩ := Run.append_iff.mp hrun
  obtain ⟨u₂, hreply, hmidrun⟩ := Run.cons_iff.mp hrest
  have htidy := Orderly.run_tidy hjson hidle hpre
  have hended : u₁.phase i = .ended (.revoke sid) .revoked := by
    cases hreply.move with
    | reply _ _ _ hphase => exact hphase
  have hrevoked : u₁.Revoked json sid :=
    ⟨htidy, htidy.revoked i sid _ hended, htidy.apart.noGrant (by rw [hended]; rfl)⟩
  have hstart : u₂.Revoked json sid := by
    apply hreply.move.revoked hjson hrevoked
    intro t hcall
    cases hcall
  have hend : u.Revoked json sid :=
    hmidrun.kept (P := fun u => u.Revoked json sid) (fun _ _ _ hcall hstep h =>
      hstep.move.revoked hjson h hcall) hmid hstart
  obtain ⟨hcalm, hanswer⟩ := consents_load hphase hload.move
  rw [hanswer, covers_of_freeOf (ht ▸ hend.free.1 hcalm)]

/-! ## a grant is not lost -/

/-- After a grant has replied, a send to its target finds consent until the grant expires,
whatever requests there are about other sessions. -/
def KeepsGrants (R : Store ι → Event ι → Store ι → Prop) (s₀ : Store ι) : Prop :=
  ∀ (pre mid after : List (Event ι)) (i : ι) (t : Target) (g : Grant) (s u : Store ι),
    Run R s₀ pre s → (∀ j op, (s.phase j).op? = some op → ¬ op.Touches t.sid) →
    Run R s (⟨i, .call (.grant t)⟩ :: mid ++ ⟨i, .reply (.grant t) (.granted g)⟩ :: after) u →
    (∀ e ∈ mid ++ after, ∀ op, e.act = .call op → ¬ op.Touches t.sid) →
    (∀ e ∈ pre ++ mid ++ after, ∀ now, e.act = .load now → now < g.expiresAt) →
    ∀ (j : ι) (follows : Bool) (now : UInt64) (v : Store ι), now < g.expiresAt →
      u.phase j = .called (.consents t follows) → R u ⟨j, .load now⟩ v →
      v.phase j = .ended (.consents t follows) (.consented true)

/-- Every list that is being edited was loaded before `limit`. -/
def Store.Before (s : Store ι) (limit : UInt64) : Prop :=
  ∀ i op now seen, s.phase i = .editing op now seen → now < limit

theorem Move.before (hmove : Move json s e t) {limit : UInt64} (h : s.Before limit)
    (hload : ∀ now, e.act = .load now → now < limit) : t.Before limit := by
  intro j op' now' seen' hj
  cases hmove with
  | load i op now hphase hcalm =>
    rw [Store.goto_phase] at hj
    split at hj
    · unfold Op.loaded at hj
      split at hj
      · cases hj
        exact hload _ rfl
      · cases hj
    · exact h j op' now' seen' hj
  | _ =>
    simp only [Store.goto_phase] at hj
    split at hj
    · cases hj
    · exact h j op' now' seen' hj

/-- The grant stands in the list, and a request about its session is under way only at
`owner`, where it is the grant itself, not yet saved or about to reply. -/
structure Store.Granting (json : Json) (s : Store ι) (owner : ι) (t : Target) (g : Grant) :
    Prop where
  tidy : s.Tidy json
  before : s.Before g.expiresAt
  alone : ∀ j op, (s.phase j).op? = some op → op.Touches t.sid → j = owner ∧ op = .grant t
  saved : s.phase owner = .ended (.grant t) (.granted g) →
    (∃ now, g = t.grantAt now) ∧ s.Holds json (g ∈ ·)

/-- The grant stands in the list, and no request about its session is under way. -/
structure Store.Granted (json : Json) (s : Store ι) (t : Target) (g : Grant) : Prop where
  tidy : s.Tidy json
  before : s.Before g.expiresAt
  alone : ∀ j op, (s.phase j).op? = some op → ¬ op.Touches t.sid
  isFor : ∃ now, g = t.grantAt now
  held : s.Holds json (g ∈ ·)

/-- A grant stays in the list through a step that is not about its session. -/
theorem Move.holds_grant (hjson : json.ReadsBack) (hmove : Move json s e t) (hsolo : s.Solo json)
    {g : Grant} (h : s.Holds json (g ∈ ·)) (hbefore : s.Before g.expiresAt)
    (hother : ∀ i op now seen, s.phase i = .editing op now seen → ¬ op.Touches g.sid) :
    t.Holds json (g ∈ ·) := by
  apply hmove.holds hjson hsolo h
  intro i op now _ hphase hmem
  exact mem_edited_of_mem hmem (hbefore i op now _ hphase) (hother i op now _ hphase)

theorem Move.granted (hjson : json.ReadsBack) {s' : Store ι} (hmove : Move json s e s')
    {t : Target} {g : Grant} (h : s.Granted json t g)
    (hcall : ∀ op, e.act = .call op → ¬ op.Touches t.sid)
    (hload : ∀ now, e.act = .load now → now < g.expiresAt) : s'.Granted json t g := by
  refine ⟨hmove.tidy hjson h.tidy, hmove.before h.before hload, ?_, h.isFor, ?_⟩
  · intro j op hj
    obtain hj | rfl := hmove.op?_cases hj
    · exact h.alone j op hj
    · exact hcall op rfl
  · apply hmove.holds_grant hjson h.tidy.solo h.held h.before
    intro i op now seen hphase
    obtain ⟨_, rfl⟩ := h.isFor
    exact h.alone i op (by rw [hphase]; rfl)

theorem Move.granting (hjson : json.ReadsBack) {s' : Store ι} (hmove : Move json s e s')
    {owner : ι} {t : Target} {g : Grant} (h : s.Granting json owner t g)
    (hcall : ∀ op, e.act = .call op → ¬ op.Touches t.sid)
    (hload : ∀ now, e.act = .load now → now < g.expiresAt) : s'.Granting json owner t g := by
  refine ⟨hmove.tidy hjson h.tidy, hmove.before h.before hload, ?_, ?_⟩
  · intro j op hj htouches
    obtain hj | rfl := hmove.op?_cases hj
    · exact h.alone j op hj htouches
    · exact absurd htouches (hcall op rfl)
  · intro hended
    by_cases hsame : s.phase owner = .ended (.grant t) (.granted g)
    · obtain ⟨⟨now, hg⟩, hheld⟩ := h.saved hsame
      refine ⟨⟨now, hg⟩, hmove.holds_grant hjson h.tidy.solo hheld h.before ?_⟩
      intro i op now' seen hphase htouches
      rw [hg] at htouches
      obtain ⟨rfl, _⟩ := h.alone i op (by rw [hphase]; rfl) htouches
      rw [hphase] at hsame
      cases hsame
    · cases hmove with
      | load i op now hphase =>
        rw [Store.goto_phase] at hended
        split at hended
        · unfold Op.loaded at hended
          split at hended
          · cases hended
          · rename_i hsaves
            cases op with
            | grant t' => exact absurd rfl hsaves
            | revoke _ => cases hended
            | consents _ _ => cases hended
        · exact absurd hended hsame
      | fill i n op now seen offset hphase piece hpiece hlast =>
        simp only [Store.goto_phase] at hended
        split at hended
        · rename_i hi
          injection hended with hop hanswer
          subst hop
          obtain rfl := Answer.granted.inj hanswer
          refine ⟨⟨now, rfl⟩, fill_holds hjson h.tidy.solo hphase hpiece hlast ?_ _ rfl⟩
          exact List.mem_append_right _ (List.mem_singleton.mpr rfl)
        · exact absurd hended hsame
      | _ =>
        simp only [Store.goto_phase] at hended
        split at hended
        · cases hended
        · exact absurd hended hsame

theorem granted_of_mem {gs : List Grant} {t : Target} {now at_ : UInt64}
    (h : t.grantAt at_ ∈ gs) (hlive : now < (t.grantAt at_).expiresAt) (follows : Bool) :
    covers gs t follows now = true := by
  have hgranted : granted gs t now = true := by
    apply List.any_eq_true.mpr
    refine ⟨t.grantAt at_, h, ?_⟩
    simp only [Grant.isFor, Bool.and_eq_true, decide_eq_true_eq]
    exact ⟨⟨⟨⟨rfl, rfl⟩, rfl⟩, rfl⟩, hlive⟩
  rw [covers, hgranted, Bool.true_or]

/-- **A grant is not lost** in an orderly run. -/
theorem orderly_keepsGrants (hjson : json.ReadsBack) {s₀ : Store ι} (hidle : s₀.Idle) :
    KeepsGrants (Orderly json) s₀ := by
  intro pre mid after i t g s u hpre halone hrun hcalls hloads j follows now v hlive hphase hload
  rw [List.cons_append, Run.cons_iff] at hrun
  obtain ⟨u₁, hcall, hrest⟩ := hrun
  obtain ⟨u₂, hmid, hrest⟩ := Run.append_iff.mp hrest
  obtain ⟨u₃, hreply, hafter⟩ := Run.cons_iff.mp hrest
  have htidy := Orderly.run_tidy hjson hidle hpre
  have hbefore : s.Before g.expiresAt := by
    refine hpre.kept (P := fun s => s.Before g.expiresAt) (fun _ _ _ hlimit hstep h =>
      hstep.move.before h hlimit) ?_ ?_
    · intro e he
      exact hloads e (by simp [he])
    · intro k op now seen hk
      rw [hidle k] at hk
      cases hk
  have hstart : u₁.Granting json i t g := by
    refine ⟨hcall.move.tidy hjson htidy, hcall.move.before hbefore ?_, ?_, ?_⟩
    · intro now hact
      cases hact
    · intro k op hk htouches
      obtain hk | hcalled := hcall.move.op?_cases hk
      · exact absurd htouches (halone k op hk)
      · cases hcalled
        exact ⟨rfl, rfl⟩
    · intro hended
      cases hcall.move with
      | call => simp at hended
  have hsaved : u₂.Granting json i t g := by
    refine hmid.kept (P := fun u => u.Granting json i t g)
      (Q := fun e => (∀ op, e.act = .call op → ¬ op.Touches t.sid) ∧
        ∀ now, e.act = .load now → now < g.expiresAt)
      (fun _ _ _ hkind hstep h => hstep.move.granting hjson h hkind.1 hkind.2) ?_ hstart
    intro e he
    exact ⟨hcalls e (by simp [he]), hloads e (by simp [he])⟩
  have hended : u₂.phase i = .ended (.grant t) (.granted g) := by
    cases hreply.move with
    | reply _ _ _ hphase => exact hphase
  obtain ⟨hgrant, hheld⟩ := hsaved.saved hended
  have hgranted : u₃.Granted json t g := by
    refine ⟨hreply.move.tidy hjson hsaved.tidy, hreply.move.before hsaved.before ?_, ?_, hgrant, ?_⟩
    · intro now hact
      cases hact
    · intro k op hk htouches
      cases hreply.move with
      | reply =>
        rw [Store.goto_phase] at hk
        split at hk
        · cases hk
        · rename_i hne
          exact hne (hsaved.alone k op hk htouches).1
    · cases hreply.move with
      | reply _ _ _ hphase => exact hheld.goto rfl (by rw [hphase]; rfl)
  have hend : u.Granted json t g := by
    refine hafter.kept (P := fun u => u.Granted json t g)
      (Q := fun e => (∀ op, e.act = .call op → ¬ op.Touches t.sid) ∧
        ∀ now, e.act = .load now → now < g.expiresAt)
      (fun _ _ _ hkind hstep h => hstep.move.granted hjson h hkind.1 hkind.2) ?_ hgranted
    intro e he
    exact ⟨hcalls e (by simp [he]), hloads e (by simp [he])⟩
  obtain ⟨hcalm, hanswer⟩ := consents_load hphase hload.move
  obtain ⟨at_, rfl⟩ := hend.isFor
  rw [hanswer, granted_of_mem (hend.held.1 hcalm) hlive]

/-! ## nothing is consented to that was not granted -/

/-- The grant was in the file from the start, or a grant request made it at its load. -/
def Issued (json : Json) (R : Store ι → Event ι → Store ι → Prop) (s₀ : Store ι)
    (es : List (Event ι)) (g : Grant) : Prop :=
  g ∈ load json s₀.file ∨
    ∃ (pre post : List (Event ι)) (i : ι) (now : UInt64) (t : Target) (s : Store ι),
      es = pre ++ ⟨i, .load now⟩ :: post ∧ Run R s₀ pre s ∧ s.phase i = .called (.grant t) ∧
        g = t.grantAt now

omit [DecidableEq ι] in
theorem Issued.append {R : Store ι → Event ι → Store ι → Prop} {s₀ : Store ι}
    {es : List (Event ι)} {g : Grant} (h : Issued json R s₀ es g) (fs : List (Event ι)) :
    Issued json R s₀ (es ++ fs) g := by
  obtain h | ⟨pre, post, i, now, t, s, rfl, hrun, hphase, hg⟩ := h
  · exact .inl h
  · exact .inr ⟨pre, post ++ fs, i, now, t, s, by simp, hrun, hphase, hg⟩

/-- Consent is found only where a grant for the same socket, pane and session was made
and has not expired, for the same process unless a herdr restore carries it. -/
def OnlyGranted (json : Json) (R : Store ι → Event ι → Store ι → Prop) (s₀ : Store ι) : Prop :=
  ∀ (es : List (Event ι)) (u v : Store ι) (j : ι) (t : Target) (follows : Bool) (now : UInt64),
    Run R s₀ es u → u.phase j = .called (.consents t follows) → R u ⟨j, .load now⟩ v →
    v.phase j = .ended (.consents t follows) (.consented true) →
    ∃ g, Issued json R s₀ es g ∧ g.isFor t = true ∧ now < g.expiresAt ∧
      (g.pid = t.pid ∨ g.pid ≠ t.pid ∧ follows = true ∧
        ∃ sock, t.sock = some sock ∧ "herdr:".toList.isPrefixOf sock.toList = true)

/-- Where there is consent there is a grant for it. -/
theorem exists_grant_of_covers {gs : List Grant} {t : Target} {follows : Bool} {now : UInt64}
    (h : covers gs t follows now = true) :
    ∃ g ∈ gs, g.isFor t = true ∧ now < g.expiresAt ∧
      (g.pid = t.pid ∨ g.pid ≠ t.pid ∧ follows = true ∧
        ∃ sock, t.sock = some sock ∧ "herdr:".toList.isPrefixOf sock.toList = true) := by
  simp only [covers, granted, carried, Bool.or_eq_true, Bool.and_eq_true, List.any_eq_true,
    decide_eq_true_eq] at h
  obtain ⟨g, hg, ⟨hfor, hpid⟩, hlive⟩ | ⟨⟨hfollows, hsock⟩, g, hg, ⟨hfor, hpid⟩, hlive⟩ := h
  · exact ⟨g, hg, hfor, hlive, .inl hpid⟩
  · refine ⟨g, hg, hfor, hlive, .inr ⟨hpid, hfollows, ?_⟩⟩
    cases hs : t.sock with
    | none =>
      rw [hs] at hsock
      cases hsock
    | some sock =>
      rw [hs] at hsock
      exact ⟨sock, rfl, hsock⟩

/-- **Only what was granted is consented to** in an orderly run. -/
theorem orderly_onlyGranted (hjson : json.ReadsBack) {s₀ : Store ι} (hidle : s₀.Idle) :
    OnlyGranted json (Orderly json) s₀ := by
  intro es u v j t follows now hrun hphase hload hanswer
  have hissued : u.Tidy json ∧
      u.Holds json (fun gs => ∀ g ∈ gs, Issued json (Orderly json) s₀ es g) ∧
      ∀ i t now seen, u.phase i = .editing (.grant t) now seen →
        Issued json (Orderly json) s₀ es (t.grantAt now) := by
    refine hrun.traced (P := fun es u => u.Tidy json ∧
      u.Holds json (fun gs => ∀ g ∈ gs, Issued json (Orderly json) s₀ es g) ∧
      ∀ i t now seen, u.phase i = .editing (.grant t) now seen →
        Issued json (Orderly json) s₀ es (t.grantAt now)) ?_ ?_
    · refine ⟨hidle.tidy, ⟨fun _ g hg => .inl hg, ?_⟩, ?_⟩
      · intro i op now seen offset hi
        rw [hidle i] at hi
        cases hi
      · intro i t now seen hi
        rw [hidle i] at hi
        cases hi
    · rintro pre a e b hpre hstep ⟨htidy, hheld, hediting⟩
      refine ⟨hstep.move.tidy hjson htidy, ?_, ?_⟩
      · apply hstep.move.holds hjson htidy.solo
        · exact hheld.mono fun gs h g hg => (h g hg).append [e]
        · intro i op now _ hi hmem g hg
          obtain hg | ⟨t, rfl, rfl⟩ := mem_edited hg
          · exact hmem g hg
          · exact (hediting i t now _ hi).append [e]
      · intro i t now seen hi
        by_cases hsame : a.phase i = .editing (.grant t) now seen
        · exact (hediting i t now seen hsame).append [e]
        · cases hstep.move with
          | load k op now' hcalled =>
            rw [Store.goto_phase] at hi
            split at hi
            · unfold Op.loaded at hi
              split at hi
              · cases hi
                exact .inr ⟨pre, [], k, now, t, a, rfl, hpre, hcalled, rfl⟩
              · cases hi
            · exact absurd hi hsame
          | _ =>
            simp only [Store.goto_phase] at hi
            split at hi
            · cases hi
            · exact absurd hi hsame
  obtain ⟨_, hheld, _⟩ := hissued
  obtain ⟨hcalm, hcovers⟩ := consents_load hphase hload.move
  rw [hcovers] at hanswer
  injection hanswer with _ hconsented
  injection hconsented with hconsented
  obtain ⟨g, hg, hfor, hlive, hpid⟩ := exists_grant_of_covers hconsented
  exact ⟨g, hheld.1 hcalm g hg, hfor, hlive, hpid⟩

/-- **Consent in an orderly run.** A revoked session stays revoked, a grant is not lost
to requests about other sessions, and nothing is consented to that was not granted. -/
theorem orderly_consent (hjson : json.ReadsBack) {s₀ : Store ι} (hidle : s₀.Idle) :
    StaysRevoked (Orderly json) s₀ ∧ KeepsGrants (Orderly json) s₀ ∧
      OnlyGranted json (Orderly json) s₀ := by
  refine ⟨?_, ?_, ?_⟩
  · exact orderly_staysRevoked hjson hidle
  · exact orderly_keepsGrants hjson hidle
  · exact orderly_onlyGranted hjson hidle

/-! ## a schedule that goes wrong -/

instance encodableChar : Encodable Char := Encodable.ofLeftInverse Char.toNat Char.ofNat Char.ofNat_toNat

instance encodableString : Encodable String :=
  Encodable.ofLeftInverse String.toList String.ofList fun _ => String.ofList_toList

instance encodableUInt32 : Encodable UInt32 :=
  Encodable.ofLeftInverse UInt32.toNat UInt32.ofNat fun _ => UInt32.ofNat_toNat

instance encodableUInt64 : Encodable UInt64 :=
  Encodable.ofLeftInverse UInt64.toNat UInt64.ofNat fun _ => UInt64.ofNat_toNat

instance encodableGrant : Encodable Grant :=
  Encodable.ofLeftInverse
    (fun g => (g.sock, g.pane, g.sid, g.pid, g.grantedAt, g.expiresAt))
    (fun g => ⟨g.1, g.2.1, g.2.2.1, g.2.2.2.1, g.2.2.2.2.1, g.2.2.2.2.2⟩) fun _ => rfl

/-- A session in a pane of the default tmux server. -/
def sessionA : Target := ⟨none, "%1", "a", 7⟩

/-- Another session. -/
def sessionB : Target := ⟨none, "%2", "b", 8⟩

/-- The bytes of a text. -/
def utf8 (s : String) : List UInt8 := s.toUTF8.data.toList

/-- The lists that the schedule saves, with their JSON texts. -/
def sampleTexts : List (List Grant × List UInt8) :=
  [([], utf8 "[]"),
    ([sessionA.grantAt 10], utf8 (
      "[\n  \x7b\n    \"expires_at\": 28810,\n    \"granted_at\": 10,\n    \"pane\": \"%1\",\n" ++
      "    \"pid\": 7,\n    \"sid\": \"a\",\n    \"sock\": null\n  \x7d\n]")),
    ([sessionB.grantAt 20], utf8 (
      "[\n  \x7b\n    \"expires_at\": 28820,\n    \"granted_at\": 20,\n    \"pane\": \"%2\",\n" ++
      "    \"pid\": 8,\n    \"sid\": \"b\",\n    \"sock\": null\n  \x7d\n]")),
    ([sessionA.grantAt 10, sessionB.grantAt 20], utf8 (
      "[\n  \x7b\n    \"expires_at\": 28810,\n    \"granted_at\": 10,\n    \"pane\": \"%1\",\n" ++
      "    \"pid\": 7,\n    \"sid\": \"a\",\n    \"sock\": null\n  \x7d,\n  \x7b\n" ++
      "    \"expires_at\": 28820,\n    \"granted_at\": 20,\n    \"pane\": \"%2\",\n" ++
      "    \"pid\": 8,\n    \"sid\": \"b\",\n    \"sock\": null\n  \x7d\n]"))]

/-- A reader and printer of lists of grants: the JSON text of the lists of the schedule,
a numbering for all others. -/
def sampleJson : Json where
  print
    | .arr items =>
      let gs := items.filterMap Grant.fromValue
      match sampleTexts.find? fun row => row.1 = gs with
      | some row => row.2
      | none => 0 :: List.replicate (Encodable.encode gs) 0
    | _ => []
  parse raw :=
    match sampleTexts.find? fun row => row.2 = raw with
    | some row => some (.arr (row.1.map Grant.toValue))
    | none => (Encodable.decode (raw.length - 1)).map fun gs => .arr (List.map Grant.toValue gs)

theorem sampleJson_readsBack : sampleJson.ReadsBack := by
  intro gs
  have hprint : encode sampleJson gs =
      match sampleTexts.find? fun row => row.1 = gs with
      | some row => row.2
      | none => 0 :: List.replicate (Encodable.encode gs) 0 := by
    simp only [encode, sampleJson, filterMap_toValue]
  rw [hprint]
  split
  · rename_i row hrow
    have hmem : row ∈ sampleTexts := List.mem_of_find?_eq_some hrow
    have hkey : row.1 = gs := by simpa using List.find?_some hrow
    have hback : ∀ row ∈ sampleTexts, sampleTexts.find? (fun r => r.2 = row.2) = some row := by
      decide +kernel
    simp only [sampleJson]
    rw [hback row hmem]
    show some (Value.arr (row.1.map Grant.toValue)) = _
    rw [hkey]
  · have hfar : ∀ row ∈ sampleTexts, row.2.head? ≠ some 0 := by decide +kernel
    have hnone : sampleTexts.find? (fun row =>
        row.2 = 0 :: List.replicate (Encodable.encode gs) 0) = none := by
      apply List.find?_eq_none.mpr
      intro row hrow heq
      have := hfar row hrow
      rw [of_decide_eq_true heq] at this
      exact this rfl
    simp only [sampleJson]
    rw [hnone]
    simp

/-- A store that holds the list, no request under way. -/
def Store.start (gs : List Grant) : Store Nat := ⟨some (encode sampleJson gs), fun _ => .idle⟩

/-- A grant for one session loads, and the other session is revoked before it saves. -/
def staleBefore : List (Event Nat) :=
  [⟨0, .call (.grant sessionB)⟩, ⟨0, .load 20⟩, ⟨1, .call (.revoke "a")⟩, ⟨1, .load 21⟩,
    ⟨1, .openFile⟩, ⟨1, .write 1000⟩]

/-- The grant saves the list it loaded, and a send to the revoked session asks. -/
def staleAfter : List (Event Nat) :=
  [⟨0, .openFile⟩, ⟨0, .write 1000⟩, ⟨0, .reply (.grant sessionB) (.granted (sessionB.grantAt 20))⟩,
    ⟨2, .call (.consents sessionA false)⟩]

/-- **A slow save puts back what was revoked.** -/
theorem stale_save_restores :
    ¬ (StaysRevoked (Store.Next sampleJson) (Store.start [sessionA.grantAt 10]) ∧
      KeepsGrants (Store.Next sampleJson) (Store.start [sessionA.grantAt 10]) ∧
      OnlyGranted sampleJson (Store.Next sampleJson) (Store.start [sessionA.grantAt 10])) := by
  rintro ⟨hstays, _⟩
  have hrun : (((staleBefore ++ ⟨1, .reply (.revoke "a") .revoked⟩ :: staleAfter).foldlM
      (Store.step sampleJson) (Store.start [sessionA.grantAt 10])).any fun u =>
        decide (u.phase 2 = .called (.consents sessionA false)) &&
          (u.step sampleJson ⟨2, .load 30⟩).any fun v =>
            decide (v.phase 2 = .ended (.consents sessionA false) (.consented true))) = true := by
    decide +kernel
  simp only [Option.any_eq_true, Bool.and_eq_true, decide_eq_true_eq] at hrun
  obtain ⟨u, hrun, hphase, v, hload, hanswer⟩ := hrun
  have hfalse := hstays staleBefore staleAfter 1 "a" u (Run.of_foldlM hrun)
    (by simp [staleAfter]) 2 sessionA false 30 v rfl hphase hload
  rw [hanswer] at hfalse
  cases hfalse

/-! ## a schedule in order -/

instance decidableClear (s : Store Bool) (e : Event Bool) : Decidable (s.Clear json e) :=
  match e with
  | ⟨_, .call op⟩ =>
    inferInstanceAs (Decidable (∀ i, ∀ op' ∈ (s.phase i).op?, op.clash op' = false))
  | ⟨_, .load _⟩ => inferInstanceAs (Decidable (∀ i, (s.phase i).isSaving = false))
  | ⟨i, .openFile⟩ =>
    decidable_of_iff ((∀ i, (s.phase i).isSaving = false) ∧ (match s.phase i with
      | .editing _ _ seen => decide (load json s.file = seen)
      | _ => true) = true) (by
        unfold Store.Clear Store.Calm
        cases s.phase i <;> simp)
  | ⟨_, .loadFails _⟩ | ⟨_, .openFails⟩ | ⟨_, .writeFails⟩ => .isFalse id
  | ⟨_, .write _⟩ | ⟨_, .reply _ _⟩ => .isTrue trivial

/-- A step, if the state is clear for it. -/
def Store.clearStep (json : Json) (s : Store Bool) (e : Event Bool) : Option (Store Bool) :=
  if s.Clear json e then s.step json e else none

theorem Store.clearStep_orderly {s t : Store Bool} {e : Event Bool}
    (h : s.clearStep json e = some t) : Orderly json s e t := by
  rw [clearStep, Option.ite_none_right_eq_some] at h
  exact ⟨h.2, h.1⟩

/-- A store with one grant. -/
def oneGrant : Store Bool := ⟨some (encode sampleJson [sessionA.grantAt 10]), fun _ => .idle⟩

/-- A grant for another session is saved in two pieces; the first is revoked, and the
grant replies before that is saved. -/
def inTurn : List (Event Bool) :=
  [⟨true, .call (.grant sessionB)⟩, ⟨false, .call (.revoke "a")⟩, ⟨true, .load 20⟩,
    ⟨true, .openFile⟩, ⟨true, .write 9⟩, ⟨true, .write 1000⟩, ⟨false, .load 21⟩, ⟨false, .openFile⟩,
    ⟨true, .reply (.grant sessionB) (.granted (sessionB.grantAt 20))⟩, ⟨false, .write 1000⟩]

/-- A send to the revoked session. -/
def thenAsked : List (Event Bool) := [⟨true, .call (.consents sessionA false)⟩]

theorem orderly_consent_turns : ∃ u v, Run (Orderly sampleJson) oneGrant
      (inTurn ++ ⟨false, .reply (.revoke "a") .revoked⟩ :: thenAsked) u ∧
    Orderly sampleJson u ⟨true, .load 30⟩ v ∧
      v.phase true = .ended (.consents sessionA false) (.consented false) := by
  have hrun : (((inTurn ++ ⟨false, .reply (.revoke "a") .revoked⟩ :: thenAsked).foldlM
      (Store.clearStep sampleJson) oneGrant).any fun u =>
        decide (u.phase true = .called (.consents sessionA false)) &&
          (u.clearStep sampleJson ⟨true, .load 30⟩).isSome) = true := by
    decide +kernel
  simp only [Option.any_eq_true, Bool.and_eq_true, decide_eq_true_eq,
    Option.isSome_iff_exists] at hrun
  obtain ⟨u, hrun, hphase, v, hload⟩ := hrun
  have hrun := (Run.of_foldlM hrun).mono fun _ _ _ => Store.clearStep_orderly
  have hload := Store.clearStep_orderly hload
  refine ⟨u, v, hrun, hload, ?_⟩
  exact (orderly_consent sampleJson_readsBack fun _ => rfl).1 inTurn thenAsked false "a" u hrun
    (by simp [thenAsked]) true sessionA false 30 v rfl hphase hload

end ClaudeReplay.Monitor
