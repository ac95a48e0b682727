import ClaudeReplay.Gateway.Receipts
import ClaudeReplay.Lib.Cut

/-!
# ClaudeReplay.Gateway.Delivery

What the receipt store promises over any run. Every identity it was ever shown stays
bound to one fingerprint, in `actions` or in `retired_actions` (`serve_identity`); a
receipt whose outcome is uncertain stays where it is (`serve_uncertain`); a bound
submission stays with its action until that action releases it (`serve_owner`).
From one transaction these go to every run, and from there to
`delivered_at_most_once`.
-/

namespace ClaudeReplay.Gateway

open Lib

variable (libs : Libs)

/-! ## what the tables hold after a transaction -/

theorem prune_action (db : Db) (now : Int) (id : String) :
    (db.prune now).actions.find? id =
      (db.actions.find? id).filter fun a => !a.expired (now - retainSeconds) :=
  Table.find?_deleteWhere ..

theorem prune_retired (db : Db) (now : Int) (id : String) :
    (db.prune now).retired.find? id = (db.retired.find? id).or
      (((db.actions.find? id).filter fun a => a.expired (now - retainSeconds)).map
        Action.fingerprint) := by
  show (Table.insertAllOrIgnore _ _).find? id = _
  rw [Table.find?_insertAllOrIgnore]
  rw [lookup_map, Table.lookup_select]

/-- The fingerprint an action id is bound to, retired or not. -/
def Db.identity (db : Db) (id : String) : Option String :=
  (db.retired.find? id).or ((db.actions.find? id).map Action.fingerprint)

/-- Pruning forgets no identity. -/
theorem prune_identity (db : Db) (now : Int) (id : String) :
    (db.prune now).identity id = db.identity id := by
  unfold Db.identity
  rw [prune_retired, prune_action]
  cases db.retired.find? id with
  | some fp => rfl
  | none =>
    cases db.actions.find? id with
    | none => rfl
    | some a => cases h : a.expired (now - retainSeconds) <;> simp [h]

/-- What a claim can do. -/
theorem claim_cases {db db' : Db} {pruneAt insertAt : Int} {id endpoint : String} {route : Route}
    {payload : Value} {reply : Except Refusal (Option Value)}
    (h : db.claim libs pruneAt insertAt id endpoint route payload = (reply, db')) :
    (∃ e, reply = .error e ∧ (db' = db ∨ db' = db.prune pruneAt)) ∨
    (∃ r, reply = .ok (some r) ∧ db' = db.prune pruneAt ∧
      db.identity id = some (fingerprint libs endpoint route payload)) ∨
    (∃ row actions, reply = .ok none ∧ db' = { db.prune pruneAt with actions } ∧
      db.identity id = none ∧ row.fingerprint = fingerprint libs endpoint route payload ∧
      (db.prune pruneAt).actions.insert? id row = some actions) := by
  have hidentity := prune_identity db pruneAt id
  unfold Db.identity at hidentity
  simp only [Db.claim] at h
  split at h
  case h_1 previous hret =>
    split at h
    case isTrue => cases h; exact .inl ⟨_, rfl, .inl rfl⟩
    case isFalse hfp =>
      cases h
      rw [not_not] at hfp
      refine .inr (.inl ⟨_, rfl, rfl, ?_⟩)
      rw [Db.identity, ← hidentity, hret, hfp]
      rfl
  case h_2 hret =>
    split at h
    case h_1 prior hact =>
      split at h
      case isTrue => cases h; exact .inl ⟨_, rfl, .inl rfl⟩
      case isFalse hfp =>
        rw [not_not] at hfp
        split at h
        case h_1 response _ =>
          cases h
          refine .inr (.inl ⟨_, rfl, rfl, ?_⟩)
          rw [Db.identity, ← hidentity, hret, hact, ← hfp]
          rfl
        case h_2 => cases h; exact .inl ⟨_, rfl, .inl rfl⟩
    case h_2 hact =>
      split at h
      case isTrue => cases h; exact .inl ⟨_, rfl, .inr rfl⟩
      case isFalse =>
        split at h
        case h_1 actions hinsert =>
          cases h
          refine .inr (.inr ⟨_, actions, rfl, rfl, ?_, rfl, hinsert⟩)
          rw [Db.identity, ← hidentity, hret, hact]
          rfl
        case h_2 => cases h; exact .inl ⟨_, rfl, .inl rfl⟩

/-- A known identity refuses every other fingerprint, and the transaction leaves nothing
behind. -/
theorem claim_conflict {db : Db} {id fp : String} (h : db.identity id = some fp)
    (pruneAt insertAt : Int) {endpoint : String} {route : Route} {payload : Value}
    (hne : fp ≠ fingerprint libs endpoint route payload) :
    db.claim libs pruneAt insertAt id endpoint route payload = (.error .actionConflict, db) := by
  have hidentity := prune_identity db pruneAt id
  rw [h] at hidentity
  unfold Db.identity at hidentity
  simp only [Db.claim]
  cases hret : (db.prune pruneAt).retired.find? id with
  | some previous =>
    rw [hret] at hidentity
    obtain rfl : previous = fp := Option.some.inj hidentity
    simp only [ne_eq, hne, not_false_eq_true, if_true]
  | none =>
    cases hact : (db.prune pruneAt).actions.find? id with
    | some prior =>
      rw [hret, hact] at hidentity
      obtain rfl : prior.fingerprint = fp := Option.some.inj hidentity
      simp only [ne_eq, hne, not_false_eq_true, if_true]
    | none =>
      rw [hret, hact] at hidentity
      cases hidentity

/-- A granted claim binds its identity and leaves the others. -/
theorem insert_identity {db : Db} {id : String} {row : Action} {actions : Table String Action}
    (hnone : db.identity id = none) (h : db.actions.insert? id row = some actions) (j : String) :
    Db.identity { db with actions } j =
      if j = id then some row.fingerprint else db.identity j := by
  unfold Db.identity
  show (db.retired.find? j).or ((actions.find? j).map Action.fingerprint) = _
  rw [Table.find?_insert? h]
  by_cases hj : j = id
  · subst hj
    rw [Db.identity, Option.or_eq_none_iff] at hnone
    simp [hnone.1]
  · simp [hj]

/-! ## what a request keeps -/

/-- What opening the store can do: nothing, a pruning, or a migration that keeps every
identity and every status. -/
theorem open_cases (db : Db) (migrateAt pruneAt : Int) :
    (db.open libs migrateAt pruneAt).2 = db ∨
    (db.open libs migrateAt pruneAt).2 = db.prune pruneAt ∨
    ∃ f : Action → Action, (∀ a, (f a).fingerprint = a.fingerprint ∧ (f a).status = a.status) ∧
      (db.open libs migrateAt pruneAt).2 =
        Db.prune { db with version := 1, actions := db.actions.mapValues f } pruneAt := by
  unfold Db.open
  split
  · exact .inl rfl
  · split
    · split
      · exact .inr (.inr ⟨Action.migrated libs migrateAt, fun a => ⟨rfl, rfl⟩, rfl⟩)
      · exact .inl rfl
    · exact .inr (.inl rfl)

/-- What a request can make of a database. -/
inductive Db.Next (db : Db) : Request → Db → Prop
  | same (r : Request) : Next db r db
  | pruned (r : Request) (now : Int) : Next db r (db.prune now)
  | migrated (r : Request) (f : Action → Action) (now : Int)
      (hf : ∀ a, (f a).fingerprint = a.fingerprint ∧ (f a).status = a.status) :
      Next db r (Db.prune { db with version := 1, actions := db.actions.mapValues f } now)
  | claimed (r : Request) (now : Int) (id : String) (row : Action)
      (actions : Table String Action) (hfree : db.identity id = none)
      (hinsert : (db.prune now).actions.insert? id row = some actions) :
      Next db r { db.prune now with actions }
  | bound (r : Request) (sub : Submission) (actionId : String)
      (steers : Table Submission String) (hfree : db.steers.find? sub = none)
      (hinsert : db.steers.insert? sub actionId = some steers) : Next db r { db with steers }
  | released (sub : Submission) (actionId : String) :
      Next db (.releaseQueueSteer sub actionId)
        { db with steers := db.steers.deleteWhere fun k a => k = sub && a = actionId }
  | finished (now : Int) (id status text : String) (response : Value) :
      Next db (.finish now id status response)
        { db with actions := db.actions.update id fun a =>
          { a with status, response := text, updatedAt := now } }

/-- A request that is not from an open connection changes nothing. -/
theorem connected_next {db : Db} {r : Request} {served : Except Refusal Reply × Db}
    (h : db.Next r served.2) : db.Next r (db.connected served).2 := by
  unfold Db.connected
  split
  · exact .same r
  · exact h

/-- **What a transaction can do.** -/
theorem serve_next (db : Db) (r : Request) : db.Next r (db.serve libs r).2 := by
  cases r with
  | opened migrateAt pruneAt =>
    show db.Next _ (db.open libs migrateAt pruneAt).2
    obtain hopen | hopen | ⟨f, hf, hopen⟩ := open_cases libs db migrateAt pruneAt
    · rw [hopen]
      exact .same _
    · rw [hopen]
      exact .pruned _ _
    · rw [hopen]
      exact .migrated _ f _ hf
  | claim pruneAt insertAt id endpoint route payload =>
    apply connected_next
    show db.Next _ (db.claim libs pruneAt insertAt id endpoint route payload).2
    cases hclaim : db.claim libs pruneAt insertAt id endpoint route payload
    obtain ⟨_, _, rfl | rfl⟩ | ⟨_, _, rfl, _⟩ | ⟨row, actions, _, rfl, hfree, _, hinsert⟩ :=
      claim_cases libs hclaim
    · exact .same _
    · exact .pruned _ _
    · exact .pruned _ _
    · exact .claimed _ _ _ row actions hfree hinsert
  | claimQueueSteer sub actionId =>
    apply connected_next
    show db.Next _ (db.claimQueueSteer sub actionId).2
    unfold Db.claimQueueSteer
    split
    case isTrue => exact .same _
    case isFalse hfree =>
      split
      case isTrue => exact .same _
      case isFalse =>
        split
        case h_1 steers hinsert =>
          rw [Bool.not_eq_true, Option.isSome_eq_false_iff, Option.isNone_iff_eq_none] at hfree
          exact .bound _ sub actionId steers hfree hinsert
        case h_2 => exact .same _
  | releaseQueueSteer sub actionId =>
    apply connected_next
    exact .released sub actionId
  | finish now id status response =>
    apply connected_next
    show db.Next _ (db.finish libs now id status response).2
    unfold Db.finish
    split
    · exact .same _
    · exact .finished now id status _ response

variable {libs}
variable {db db' : Db} {r : Request}

/-- No request lets an action id lose its fingerprint or change it. -/
theorem Db.Next.identity {id fp : String} (hnext : db.Next r db')
    (h : db.identity id = some fp) : db'.identity id = some fp := by
  cases hnext with
  | same => exact h
  | pruned _ now => rw [prune_identity, h]
  | migrated _ f now hf =>
    rw [prune_identity, ← h]
    show (db.retired.find? id).or (((db.actions.mapValues f).find? id).map _) = _
    rw [Table.find?_mapValues, Option.map_map]
    congr 2
    exact funext fun a => (hf a).1
  | claimed _ now id' row actions hfree hinsert =>
    rw [insert_identity ((prune_identity ..).trans hfree) hinsert, prune_identity]
    split
    · rename_i hid
      rw [hid, hfree] at h
      cases h
    · exact h
  | bound => exact h
  | released => exact h
  | finished now id' status text response =>
    rw [← h]
    show (db.retired.find? id).or (((db.actions.update id' _).find? id).map _) = _
    rw [Table.find?_update]
    unfold Db.identity
    by_cases hid : id = id'
    · subst hid
      simp only [if_true, Option.map_map]
      rfl
    · rw [if_neg hid]

/-- No request unsettles the schema: once migrated, a store stays migrated. -/
theorem Db.Next.version (hnext : db.Next r db') (h : db.version ≠ 0) : db'.version ≠ 0 := by
  cases hnext with
  | migrated =>
    show (1 : Int) ≠ 0
    decide
  | _ => exact h

/-- The receipt of `id` stands with the fingerprint `fp` and an uncertain outcome. -/
def Db.Uncertain (db : Db) (id fp : String) : Prop :=
  ∃ a, db.actions.find? id = some a ∧ a.status = "uncertain" ∧ a.fingerprint = fp

/-- The request settles the action `id`. -/
def Request.Settles (id : String) : Request → Prop
  | .finish _ id' status _ => id' = id ∧ status ≠ "uncertain"
  | _ => False

theorem prune_uncertain {id fp : String} (h : db.Uncertain id fp) (now : Int) :
    (db.prune now).Uncertain id fp := by
  obtain ⟨a, ha, hstatus, hfp⟩ := h
  refine ⟨a, ?_, hstatus, hfp⟩
  rw [prune_action, ha, Option.filter_some, if_pos]
  simp [Action.expired, hstatus]

/-- An uncertain receipt stays until its action is settled: pruning passes it by. -/
theorem Db.Next.uncertain {id fp : String} (hnext : db.Next r db') (h : db.Uncertain id fp)
    (hr : ¬ r.Settles id) : db'.Uncertain id fp := by
  cases hnext with
  | same => exact h
  | pruned _ now => exact prune_uncertain h now
  | migrated _ f now hf =>
    obtain ⟨a, ha, hstatus, hfp⟩ := h
    refine prune_uncertain ⟨f a, ?_, (hf a).2.trans hstatus, (hf a).1.trans hfp⟩ now
    show (db.actions.mapValues f).find? id = some (f a)
    rw [Table.find?_mapValues, ha]
    rfl
  | claimed _ now id' row actions hfree hinsert =>
    obtain ⟨a, ha, hstatus, hfp⟩ := prune_uncertain h now
    refine ⟨a, ?_, hstatus, hfp⟩
    show actions.find? id = some a
    rw [Table.find?_insert? hinsert, if_neg, ha]
    rintro rfl
    have hidentity := (prune_identity db now id).trans hfree
    rw [Db.identity, ha] at hidentity
    simp at hidentity
  | bound => exact h
  | released => exact h
  | finished now id' status text response =>
    obtain ⟨a, ha, hstatus, hfp⟩ := h
    by_cases hid : id = id'
    · subst hid
      refine ⟨{ a with status, response := text, updatedAt := now }, ?_, ?_, hfp⟩
      · show (db.actions.update id _).find? id = _
        rw [Table.find?_update, if_pos rfl, ha]
        rfl
      · by_contra hne
        exact hr ⟨rfl, hne⟩
    · refine ⟨a, ?_, hstatus, hfp⟩
      show (db.actions.update id' _).find? id = _
      rw [Table.find?_update, if_neg hid, ha]

/-- A bound submission stays with its action until that action releases it. -/
theorem Db.Next.owner {sub : Submission} {owner : String} (hnext : db.Next r db')
    (h : db.steers.find? sub = some owner) (hr : r ≠ .releaseQueueSteer sub owner) :
    db'.steers.find? sub = some owner := by
  cases hnext with
  | bound _ sub' actionId steers hfree hinsert =>
    show steers.find? sub = some owner
    rw [Table.find?_insert? hinsert, if_neg, h]
    rintro rfl
    rw [h] at hfree
    cases hfree
  | released sub' actionId =>
    show (db.steers.deleteWhere _).find? sub = some owner
    rw [Table.find?_deleteWhere, h, Option.filter_some, if_pos]
    simp only [Bool.not_eq_true', Bool.and_eq_false_iff, decide_eq_false_iff_not]
    by_contra hboth
    push Not at hboth
    obtain ⟨rfl, rfl⟩ := hboth
    exact hr rfl
  | _ => exact h

/-! ## whole runs -/

variable {es : List Event}

/-- What every committed transaction of a run keeps, the run keeps. -/
theorem runFrom_kept {P : Db → Prop} (h : P db)
    (hkept : ∀ e ∈ es, e.fate ≠ .rolledBack → ∀ db db', db.Next e.request db' → P db → P db') :
    P (runFrom libs db es) := by
  induction es generalizing db with
  | nil => exact h
  | cons e es ih =>
    apply ih
    · unfold Event.after
      split
      · exact h
      · rename_i hfate
        exact hkept e List.mem_cons_self hfate db _ (serve_next libs db e.request) h
    · intro e' he'
      exact hkept e' (List.mem_cons_of_mem e he')

/-- A run that commits `e` goes on from what the request left. -/
theorem runFrom_commit {e : Event} (he : e.fate ≠ .rolledBack) (db : Db) (pre mid : List Event) :
    runFrom libs db (pre ++ e :: mid) =
      runFrom libs ((runFrom libs db pre).serve libs e.request).2 mid := by
  have hafter : e.after libs (runFrom libs db pre) =
      ((runFrom libs db pre).serve libs e.request).2 := by
    unfold Event.after
    split
    · contradiction
    · rfl
  rw [← hafter]
  exact List.foldl_append

/-- A run loses no identity. -/
theorem runFrom_identity {id fp : String} (h : db.identity id = some fp) :
    (runFrom libs db es).identity id = some fp :=
  runFrom_kept (P := fun db => db.identity id = some fp) h fun _ _ _ _ _ hnext h =>
    hnext.identity h

variable (libs)

/-- The reply grants a delivery: no receipt exists. -/
def Reply.isGrant : Except Refusal Reply → Bool
  | .ok (.receipt none) => true
  | _ => false

/-- The event grants the delivery of the action `id`, whether or not the answer arrives. -/
def Event.grants (db : Db) (id : String) (e : Event) : Bool :=
  match e.request with
  | .claim _ _ id' _ _ _ =>
    id' = id && e.fate != .rolledBack && Reply.isGrant (db.serve libs e.request).1
  | _ => false

/-- How often a run grants the delivery of the action `id`. -/
def deliveries (db : Db) (id : String) : List Event → Nat
  | [] => 0
  | e :: es => (e.grants libs db id).toNat + deliveries (e.after libs db) id es

variable {libs}

/-- A claim that is not refused finds or leaves its identity bound to its fingerprint. -/
theorem claim_binds {pruneAt insertAt : Int} {id endpoint : String} {route : Route}
    {payload : Value} {reply : Reply}
    (h : (db.serve libs (.claim pruneAt insertAt id endpoint route payload)).1 = .ok reply) :
    (db.serve libs (.claim pruneAt insertAt id endpoint route payload)).2.identity id =
        some (fingerprint libs endpoint route payload) ∧ db.version ≠ 0 ∧
      (reply = .receipt none → db.identity id = none) := by
  simp only [Db.serve, Db.connected] at h ⊢
  split at h
  · cases h
  · rename_i hversion
    rw [if_neg hversion]
    cases hclaim : db.claim libs pruneAt insertAt id endpoint route payload with | mk reply' db'
    rw [hclaim] at h
    obtain ⟨_, rfl, _⟩ | ⟨_, rfl, rfl, hknown⟩ | ⟨row, actions, rfl, rfl, hfree, hfp, hinsert⟩ :=
      claim_cases libs hclaim
    · cases h
    · cases h
      refine ⟨(prune_identity ..).trans hknown, hversion, ?_⟩
      intro hnone
      cases hnone
    · refine ⟨?_, hversion, fun _ => hfree⟩
      show Db.identity { db.prune pruneAt with actions } id = _
      rw [insert_identity ((prune_identity ..).trans hfree) hinsert, if_pos rfl, hfp]

/-- A grant binds an identity that was free. -/
theorem grants_binds {e : Event} {id : String} (h : e.grants libs db id = true) :
    db.identity id = none ∧ ∃ fp, (e.after libs db).identity id = some fp := by
  unfold Event.grants at h
  split at h
  · rename_i pruneAt insertAt id' endpoint route payload hreq
    simp only [Bool.and_eq_true, decide_eq_true_eq, bne_iff_ne] at h
    obtain ⟨⟨rfl, hfate⟩, hgrant⟩ := h
    rw [hreq] at hgrant
    unfold Reply.isGrant at hgrant
    split at hgrant
    · rename_i hreply
      obtain ⟨hbound, _, hfree⟩ := claim_binds hreply
      refine ⟨hfree rfl, fingerprint libs endpoint route payload, ?_⟩
      unfold Event.after
      split
      · contradiction
      · rw [hreq]
        exact hbound
    · cases hgrant
  · cases h

theorem deliveries_of_known {id fp : String} (h : db.identity id = some fp) :
    deliveries libs db id es = 0 := by
  induction es generalizing db with
  | nil => rfl
  | cons e es ih =>
    have hgrants : e.grants libs db id = false := by
      by_contra hne
      rw [(grants_binds (Bool.not_eq_false _ ▸ hne)).1] at h
      cases h
    have hafter : (e.after libs db).identity id = some fp := by
      have hone : runFrom libs db [e] = e.after libs db := rfl
      rw [← hone]
      exact runFrom_identity h
    rw [deliveries, hgrants, ih hafter]
    rfl

/-- **Every action id is granted delivery at most once**, whatever the run and wherever it
starts. -/
theorem deliveries_le_one (db : Db) (id : String) (es : List Event) :
    deliveries libs db id es ≤ 1 := by
  induction es generalizing db with
  | nil => exact Nat.zero_le 1
  | cons e es ih =>
    rw [deliveries]
    cases hgrants : e.grants libs db id with
    | false =>
      rw [Bool.toNat_false, Nat.zero_add]
      exact ih _
    | true =>
      obtain ⟨_, fp, hfp⟩ := grants_binds hgrants
      rw [deliveries_of_known hfp]
      exact Nat.le_refl 1

/-! ## the request text -/

theorem Route.name_clean (route : Route) : '\x00' ∉ route.name.toList := by
  cases route <;> decide

/-- The text of a request gives back the endpoint: neither the route nor the JSON text
contains the separator. -/
theorem requestText_endpoint (hprint : ∀ v, '\x00' ∉ (libs.print v).toList)
    {endpoint endpoint' : String} {route route' : Route} {payload payload' : Value}
    (h : requestText libs endpoint route payload = requestText libs endpoint' route' payload') :
    endpoint = endpoint' := by
  have hchars :
      (endpoint.toList ++ '\x00' :: route.name.toList) ++ '\x00' :: (libs.print payload).toList =
        (endpoint'.toList ++ '\x00' :: route'.name.toList) ++
          '\x00' :: (libs.print payload').toList := by
    simpa [requestText] using congrArg String.toList h
  obtain ⟨hhead, _⟩ := split_last (hprint payload) (hprint payload') hchars
  obtain ⟨hendpoint, _⟩ := split_last route.name_clean route'.name_clean hhead
  exact String.toList_inj.mp hendpoint

/-! ## the promise -/

variable (libs)

/-- An action id that a run has seen is refused with any other fingerprint, and so with
any other endpoint unless the digest confuses the two texts. -/
def RefusesReuse (db : Db) (es : List Event) : Prop :=
  ∀ (pre mid post : List Event) (first second : Event), es = pre ++ first :: mid ++ second :: post →
  ∀ pruneAt insertAt id endpoint route payload pruneAt' insertAt' endpoint' route' payload',
    first.request = .claim pruneAt insertAt id endpoint route payload →
    second.request = .claim pruneAt' insertAt' id endpoint' route' payload' →
    first.fate ≠ .rolledBack →
    (∃ reply, ((runFrom libs db pre).serve libs first.request).1 = .ok reply) →
    fingerprint libs endpoint route payload ≠ fingerprint libs endpoint' route' payload' ∨
      endpoint ≠ endpoint' ∧ (fingerprint libs endpoint route payload =
          fingerprint libs endpoint' route' payload' →
        requestText libs endpoint route payload = requestText libs endpoint' route' payload') →
    ((runFrom libs db (pre ++ first :: mid)).serve libs second.request).1 =
      .error .actionConflict

/-- An uncertain receipt outlasts every run that does not settle its action. -/
def KeepsUncertain (db : Db) (es : List Event) : Prop :=
  ∀ id fp, db.Uncertain id fp → (∀ e ∈ es, e.fate ≠ .rolledBack → ¬ e.request.Settles id) →
    (runFrom libs db es).Uncertain id fp

/-- Between two actions that are given the same submission the first one releases it. -/
def OneSteer (db : Db) (es : List Event) : Prop :=
  ∀ (pre mid post : List Event) (first second : Event), es = pre ++ first :: mid ++ second :: post →
  ∀ sub action action',
    first.request = .claimQueueSteer sub action → first.fate ≠ .rolledBack →
    ((runFrom libs db pre).serve libs first.request).1 = .ok (.bound true) →
    second.request = .claimQueueSteer sub action' →
    ((runFrom libs db (pre ++ first :: mid)).serve libs second.request).1 = .ok (.bound true) →
    ∃ e ∈ mid, e.request = .releaseQueueSteer sub action ∧ e.fate ≠ .rolledBack

variable {libs}

theorem refusesReuse (hprint : ∀ v, '\x00' ∉ (libs.print v).toList) (db : Db)
    (es : List Event) : RefusesReuse libs db es := by
  intro pre mid post first second _ pruneAt insertAt id endpoint route payload pruneAt' insertAt'
    endpoint' route' payload' hfirst hsecond hfate hadmitted hother
  obtain ⟨reply, hreply⟩ := hadmitted
  have hne : fingerprint libs endpoint route payload ≠
      fingerprint libs endpoint' route' payload' := by
    obtain hne | ⟨hne, hdigest⟩ := hother
    · exact hne
    · intro hsame
      exact hne (requestText_endpoint hprint (hdigest hsame))
  rw [hfirst] at hreply
  obtain ⟨hbound, hversion, _⟩ := claim_binds hreply
  have hidentity : (runFrom libs db (pre ++ first :: mid)).identity id =
      some (fingerprint libs endpoint route payload) := by
    rw [runFrom_commit hfate, hfirst]
    exact runFrom_identity hbound
  have hopen : (runFrom libs db (pre ++ first :: mid)).version ≠ 0 := by
    rw [runFrom_commit hfate]
    exact runFrom_kept (P := fun db => db.version ≠ 0) ((serve_next ..).version hversion)
      fun _ _ _ _ _ hnext h => hnext.version h
  rw [hsecond]
  simp only [Db.serve, Db.connected, if_neg hopen,
    claim_conflict libs hidentity pruneAt' insertAt' hne]
  rfl

theorem keepsUncertain (db : Db) (es : List Event) : KeepsUncertain libs db es := by
  intro id fp h hopen
  exact runFrom_kept (P := fun db => db.Uncertain id fp) h fun e he hfate _ _ hnext h =>
    hnext.uncertain h (hopen e he hfate)

/-- A submission is bound only when no action owns it, and then it is its action's. -/
theorem steer_binds {sub : Submission} {action : String}
    (h : (db.serve libs (.claimQueueSteer sub action)).1 = .ok (.bound true)) :
    db.steers.find? sub = none ∧
      (db.serve libs (.claimQueueSteer sub action)).2.steers.find? sub = some action := by
  simp only [Db.serve, Db.connected, Db.claimQueueSteer] at h ⊢
  split at h
  · cases h
  · rename_i hversion
    rw [if_neg hversion]
    split at h
    · cases h
    · rename_i hfree
      rw [if_neg hfree]
      rw [Bool.not_eq_true, Option.isSome_eq_false_iff, Option.isNone_iff_eq_none] at hfree
      split at h
      · cases h
      · rename_i hroom
        rw [if_neg hroom]
        split at h
        · rename_i steers hinsert
          refine ⟨hfree, ?_⟩
          show steers.find? sub = some action
          rw [Table.find?_insert? hinsert, if_pos rfl]
        · cases h

theorem oneSteer (db : Db) (es : List Event) : OneSteer libs db es := by
  intro pre mid post first second _ sub action action' hfirst hfate hbound hsecond hbound'
  by_contra hkept
  rw [hfirst] at hbound
  rw [hsecond] at hbound'
  have howner : (runFrom libs db (pre ++ first :: mid)).steers.find? sub = some action := by
    rw [runFrom_commit hfate, hfirst]
    refine runFrom_kept (P := fun db => db.steers.find? sub = some action)
      (steer_binds hbound).2 fun e he hfate _ _ hnext h => hnext.owner h ?_
    intro hreq
    exact hkept ⟨e, he, hreq, hfate⟩
  rw [(steer_binds hbound').1] at howner
  cases howner

/-- **An action is delivered at most once.** In every run of the receipt store, from
every database, each action id is granted delivery at most once, an action id reused
with another endpoint or fingerprint is refused, an uncertain receipt is never pruned,
and no submission is steered by two actions at a time. -/
theorem delivered_at_most_once (hprint : ∀ v, '\x00' ∉ (libs.print v).toList) (db : Db)
    (es : List Event) :
    (∀ id, deliveries libs db id es ≤ 1) ∧ RefusesReuse libs db es ∧ KeepsUncertain libs db es ∧
      OneSteer libs db es := by
  refine ⟨fun id => deliveries_le_one db id es, ?_, ?_, ?_⟩
  · exact refusesReuse hprint db es
  · exact keepsUncertain db es
  · exact oneSteer db es

/-- A new receipt file. -/
def freshDb : Db := ⟨0, Table.empty, Table.empty, Table.empty⟩

/-- The digests and the JSON texts that `sampleRun` asks for. -/
def sampleLibs : Libs where
  sha256 text :=
    if text = "ws://127.0.0.1:4500\x00send\x00\x7b\x7d" then
      "ed60eed7c219ce7ca83dae3ad4332f99997d94814bc88406a4212f580bdbdcc9"
    else "63623cfd996ff355311ef448b7bffdb2d1b2c2be8ce6ac648704d20aaf2c9017"
  print
    | .obj [] => "\x7b\x7d"
    | _ => "\x7b\"error\":\x7b\"code\":\"uncertain\",\"message\":\"Delivery has not been " ++
      "confirmed. Reconcile this action with runtime history; do not resend it with another " ++
      "action ID.\"\x7d,\"ok\":false,\"receipt\":\x7b\"actionId\":\"a1\",\"status\":" ++
      "\"uncertain\"\x7d\x7d"
  parse _ := some (uncertainReceipt "a1")

/-- An action sent once and retried after a crash, then its id sent to another runtime. -/
def sampleRun : List Event :=
  [⟨.opened 100 100, .returned⟩,
    ⟨.claim 101 101 "a1" "ws://127.0.0.1:4500" .send (.obj []), .lost⟩,
    ⟨.opened 200 200, .returned⟩,
    ⟨.claim 201 201 "a1" "ws://127.0.0.1:4500" .send (.obj []), .returned⟩,
    ⟨.claim 202 202 "a1" "ws://127.0.0.1:4501" .send (.obj []), .returned⟩]

theorem delivered_at_most_once_sample :
    deliveries sampleLibs freshDb "a1" sampleRun = 1 ∧
    (∀ id, deliveries sampleLibs freshDb id sampleRun ≤ 1) ∧
    RefusesReuse sampleLibs freshDb sampleRun ∧ KeepsUncertain sampleLibs freshDb sampleRun ∧
      OneSteer sampleLibs freshDb sampleRun := by
  have hprint : ∀ v, '\x00' ∉ (sampleLibs.print v).toList := by
    intro v
    simp only [sampleLibs]
    -- a literal is its characters, which the kernel need not decode
    split
    · rw [String.toList_ofList]
      decide
    · iterate 3 rw [String.toList_append]
      iterate 4 rw [String.toList_ofList]
      decide
  have hall := delivered_at_most_once hprint freshDb sampleRun
  refine ⟨Nat.le_antisymm (hall.1 "a1") ?_, hall⟩
  -- the second event grants it
  rw [sampleRun, deliveries, deliveries]
  have hgrants : Event.grants sampleLibs
      (Event.after sampleLibs freshDb ⟨.opened 100 100, .returned⟩) "a1"
      ⟨.claim 101 101 "a1" "ws://127.0.0.1:4500" .send (.obj []), .lost⟩ = true := by
    decide +kernel
  rw [hgrants]
  exact Nat.le_add_left_of_le (Nat.le_add_right 1 _)

end ClaudeReplay.Gateway
