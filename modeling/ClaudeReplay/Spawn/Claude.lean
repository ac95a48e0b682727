import ClaudeReplay.Spawn.Enrich

/-!
# ClaudeReplay.Spawn.Claude

What the walk of the Claude adapter does. It follows every block anew, so it ends exactly
where no chain of spawns comes back to a transcript it has passed, and a child met by two
chains below one block is added into that block's cost twice.
-/

namespace ClaudeReplay.Spawn

open Lib

theorem mapM_eq_some_iff {α β : Type} {f : α → Option β} {l : List α} {l' : List β} :
    l.mapM f = some l' ↔ List.Forall₂ (fun a b => f a = some b) l l' := by
  induction l generalizing l' with
  | nil => simp [eq_comm]
  | cons a l ih =>
    rw [List.mapM_cons]
    cases l' with
    | nil => cases f a <;> cases l.mapM f <;> simp
    | cons b l' =>
      rw [List.forall₂_cons, ← ih]
      cases f a <;> cases l.mapM f <;> simp

theorem exists_of_forall₂ {α β : Type} {R : α → β → Prop} {l : List α} {l' : List β} {a : α}
    (h : List.Forall₂ R l l') (ha : a ∈ l) : ∃ b, R a b := by
  induction h with
  | nil => cases ha
  | cons hab _ ih =>
    cases ha with
    | head => exact ⟨_, hab⟩
    | tail _ ha => exact ih ha

theorem forall₂_of_exists {α β : Type} {R : α → β → Prop} {l : List α}
    (h : ∀ a ∈ l, ∃ b, R a b) : ∃ l', List.Forall₂ R l l' := by
  induction l with
  | nil => exact ⟨[], .nil⟩
  | cons a l ih =>
    obtain ⟨b, hb⟩ := h a (.head l)
    obtain ⟨l', hl'⟩ := ih fun a' ha' => h a' (.tail a ha')
    exact ⟨b :: l', .cons hb hl'⟩

theorem forall_mem_iff_of_forall₂ {α β : Type} {P : β → Prop} {Q : α → Prop} {l : List α}
    {l' : List β} (h : List.Forall₂ (fun a b => P b ↔ Q a) l l') :
    (∀ b ∈ l', P b) ↔ ∀ a ∈ l, Q a := by
  induction h with
  | nil => simp
  | cons hab _ ih => simp [hab, ih]

namespace Sadir

variable {sadir : Sadir} {session t : Transcript} {v c : ClaudePath} {fuel : Nat} {a : String}
  {sa : SubAgent} {blocks : List SubAgent}

/-- What the walk makes of the block of one agent: nothing if it names no transcript that
parses, else the child's blocks and what they cost. -/
inductive Fills (sadir : Sadir) (s : Store ClaudePath) (v : ClaudePath) (fuel : Nat) (a : String) :
    SubAgent → Prop
  | absent (h : s.source v a = none) : Fills sadir s v fuel a (.spawned a)
  | unread {c : ClaudePath} (h : s.source v a = some c) (hc : s.transcript c = none) :
      Fills sadir s v fuel a (.spawned a)
  | child {c : ClaudePath} {t : Transcript} {cb : List SubAgent} (h : s.source v a = some c)
      (hc : s.transcript c = some t) (hcb : sadir.enrichSubagents fuel t.blocks = some cb) :
      Fills sadir s v fuel a (.mk a (Spawn.subtreeCost t.cost cb) cb)

theorem Fills.agentId_eq {s : Store ClaudePath} (h : Fills sadir s v fuel a sa) :
    sa.agentId = a := by cases h <;> rfl

/-- A child is never the session's own file. -/
theorem source_ne_session (h : (sadir.store session).source v a = some c) : c ≠ .session := by
  simp only [store, childFile] at h
  split at h
  · cases h
  · split at h
    · cases h
      exact nofun
    · rintro rfl
      simp at h

theorem transcript_eq (sadir : Sadir) (session : Transcript) (hc : c ≠ .session) :
    (sadir.store session).transcript c = sadir.parseFile c := by
  cases c with
  | session => exact absurd rfl hc
  | flat leaf => rfl
  | workflow run leaf => rfl

/-- One step of the walk, block by block. -/
theorem enrichSubagents_succ (session : Transcript) (v : ClaudePath) :
    sadir.enrichSubagents (fuel + 1) t.blocks = some blocks ↔
      List.Forall₂ (Fills sadir (sadir.store session) v fuel) t.agents blocks := by
  have hone (a : String) (sa : SubAgent) :
      sadir.enrichBlock (sadir.enrichSubagents fuel) (.spawned a) = some sa ↔
        Fills sadir (sadir.store session) v fuel a sa := by
    have hsource : (sadir.store session).source v a = if a = "" then none else sadir.childFile a :=
      rfl
    have hid : (SubAgent.spawned a).agentId = a := rfl
    simp only [enrichBlock, hid]
    constructor
    · intro h
      by_cases ha : a = ""
      · rw [if_pos ha, Option.some.injEq] at h
        exact h ▸ .absent (by rw [hsource, if_pos ha])
      · rw [if_neg ha] at h
        cases hc : sadir.childFile a with
        | none =>
          simp only [hc, Option.some.injEq] at h
          exact h ▸ .absent (by rw [hsource, if_neg ha, hc])
        | some c =>
          have hs : (sadir.store session).source v a = some c := by rw [hsource, if_neg ha, hc]
          have ht := transcript_eq sadir session (source_ne_session hs)
          cases hp : sadir.parseFile c with
          | none =>
            simp only [hc, hp, Option.some.injEq] at h
            exact h ▸ .unread hs (ht.trans hp)
          | some t' =>
            simp only [hc, hp] at h
            obtain ⟨cb, hcb, heq⟩ := Option.bind_eq_some_iff.mp h
            exact Option.some.inj heq ▸ .child hs (ht.trans hp) hcb
    · intro h
      cases h with
      | absent h =>
        rw [hsource] at h
        by_cases ha : a = ""
        · rw [if_pos ha]
        · rw [if_neg ha] at h ⊢
          rw [h]
      | unread h hc =>
        rw [transcript_eq _ _ (source_ne_session h)] at hc
        rw [hsource] at h
        split at h
        · cases h
        · simp only [h, hc, ‹¬a = ""›, if_false]
      | child h hc hcb =>
        rw [transcript_eq _ _ (source_ne_session h)] at hc
        rw [hsource] at h
        split at h
        · cases h
        · simp only [h, hc, hcb, ‹¬a = ""›, if_false]
          rfl
  rw [enrichSubagents, mapM_eq_some_iff, Transcript.blocks, List.forall₂_map_left_iff]
  constructor
  · exact fun h => h.imp fun a sa => (hone a sa).mp
  · exact fun h => h.imp fun a sa => (hone a sa).mpr

/-- Every block the walk leaves has the agent it started with. -/
theorem map_agentId_eq {s : Store ClaudePath} {agents : List String}
    (h : List.Forall₂ (Fills sadir s v fuel) agents blocks) : blocks.map (·.agentId) = agents := by
  induction h with
  | nil => rfl
  | cons hfill _ ih => rw [List.map_cons, hfill.agentId_eq, ih]

/-! ## where it ends -/

/-- A walk that ends has met no chain that comes back. -/
theorem grounded_of_enrich (ht : (sadir.store session).transcript v = some t)
    (h : sadir.enrichSubagents fuel t.blocks = some blocks) :
    Grounded (sadir.store session).next v := by
  induction fuel generalizing v t blocks with
  | zero => simp [enrichSubagents] at h
  | succ fuel ih =>
    rw [enrichSubagents_succ session v] at h
    rw [grounded_iff]
    intro c hc
    rw [Store.next_eq ht, List.mem_filterMap] at hc
    obtain ⟨a, ha, hs⟩ := hc
    obtain ⟨sa, hfill⟩ := exists_of_forall₂ h ha
    cases hfill with
    | absent h => simp [hs] at h
    | unread h hc =>
      obtain rfl := Option.some.inj (hs.symm.trans h)
      rw [grounded_iff]
      simp [Store.next, hc]
    | child h hc hcb =>
      obtain rfl := Option.some.inj (hs.symm.trans h)
      exact ih hc hcb

/-- Where no chain comes back, the walk ends: below a child fewer transcripts are reachable. -/
theorem enrich_of_grounded (ht : (sadir.store session).transcript v = some t)
    (hg : Grounded (sadir.store session).next v)
    (hfuel : (reached (sadir.store session).next (sadir.store session).files.toFinset v).card ≤
      fuel) : ∃ blocks, sadir.enrichSubagents fuel t.blocks = some blocks := by
  have hmem {u : ClaudePath} {t : Transcript} (ht : (sadir.store session).transcript u = some t) :
      u ∈ (sadir.store session).files.toFinset := by
    rw [List.mem_toFinset]
    exact (sadir.store session).mem_files u (by rw [ht]; rfl)
  induction fuel generalizing v t with
  | zero =>
    have hv : v ∈ reached (sadir.store session).next (sadir.store session).files.toFinset v :=
      mem_reached.mpr ⟨hmem ht, .refl _ v⟩
    simp [Finset.card_eq_zero.mp (Nat.le_zero.mp hfuel)] at hv
  | succ fuel ih =>
    suffices h : ∀ a ∈ t.agents, ∃ sa, Fills sadir (sadir.store session) v fuel a sa by
      obtain ⟨blocks, hblocks⟩ := forall₂_of_exists h
      exact ⟨blocks, (enrichSubagents_succ session v).mpr hblocks⟩
    intro a ha
    cases hs : (sadir.store session).source v a with
    | none => exact ⟨_, .absent hs⟩
    | some c =>
      cases hc : (sadir.store session).transcript c with
      | none => exact ⟨_, .unread hs hc⟩
      | some t' =>
        have hnext : c ∈ (sadir.store session).next v := Store.mem_next ht ha hs
        -- `v` itself is not reachable from its child
        have hless : reached (sadir.store session).next (sadir.store session).files.toFinset c ⊂
            reached (sadir.store session).next (sadir.store session).files.toFinset v := by
          rw [Finset.ssubset_iff_of_subset]
          · refine ⟨v, mem_reached.mpr ⟨hmem ht, .refl _ v⟩, fun hv => ?_⟩
            exact hg v (.refl _ v) c hnext (mem_reached.mp hv).2
          · intro u hu
            rw [mem_reached] at hu ⊢
            exact ⟨hu.1, (Reaches.turn hnext).trans hu.2⟩
        have hcard := Finset.card_lt_card hless
        obtain ⟨cb, hcb⟩ := ih hc (grounded_iff.mp hg c hnext) (by omega)
        exact ⟨_, .child hs hc hcb⟩

/-! ## what it bills -/

/-- **The tree below a transcript is billed right exactly when the sums come out below it.** -/
theorem billed_iff_adds (ht : (sadir.store session).transcript v = some t)
    (h : sadir.enrichSubagents fuel t.blocks = some blocks) :
    (sadir.store session).Billed v blocks ↔
      ∀ c ∈ (sadir.store session).next v, ∀ u, Reaches (sadir.store session).next c u →
        (sadir.store session).Adds u := by
  induction fuel generalizing v t blocks with
  | zero => simp [enrichSubagents] at h
  | succ fuel ih =>
    rw [enrichSubagents_succ session v] at h
    have hone (a : String) (sa : SubAgent)
        (hfill : Fills sadir (sadir.store session) v fuel a sa) :
        (sa.subtreeCost.getD 0 =
            ((((sadir.store session).source v sa.agentId).map
              (sadir.store session).total).getD 0 : ℚ≥0) ∧
          ∀ c, (sadir.store session).source v sa.agentId = some c →
            (sadir.store session).Billed c sa.blocks) ↔
        ∀ c, (sadir.store session).source v a = some c →
          ∀ u, Reaches (sadir.store session).next c u → (sadir.store session).Adds u := by
      rw [hfill.agentId_eq]
      cases hfill with
      | absent hs => simp [hs, SubAgent.spawned]
      | @unread c hs hc =>
        have hb := Store.barren_of_none hc
        have hadds : ∀ u, Reaches (sadir.store session).next c u → (sadir.store session).Adds u :=
          fun u hu => Store.adds_of_barren fun x hx => hb x (hu.trans hx)
        refine iff_of_true ⟨?_, fun _ _ => Store.billed_nil⟩ fun d hd => ?_
        · simp [hs, SubAgent.spawned, Store.total_eq_zero hb]
        · exact Option.some.inj (hs.symm.trans hd) ▸ hadds
      | @child c t' cb hs hc hcb =>
        have hids : cb.map (·.agentId) = t'.agents := by
          cases fuel with
          | zero => simp [enrichSubagents] at hcb
          | succ fuel =>
            exact map_agentId_eq ((enrichSubagents_succ session c).mp hcb)
        simp only [hs, Option.some.injEq, forall_eq', SubAgent.subtreeCost_mk, SubAgent.blocks_mk,
          subtreeCost_getD, Option.map_some, Option.getD_some]
        rw [Store.forall_reaches_iff, ← ih hc hcb, ← Store.own_eq hc]
        refine and_congr_left fun hb => ?_
        rw [hb.sum_eq hc hids]
        rfl
    rw [Store.billed_iff, Store.next_eq ht, forall_mem_iff_of_forall₂ (h.imp hone)]
    simp only [List.mem_filterMap, forall_exists_index, and_imp]
    grind

/-- **When a Claude session's tree is loaded and billed right.** -/
theorem settles_iff (sadir : Option Sadir) (session : Transcript) :
    ((sadir.getD ⟨[], []⟩).store session).Settles .session
        (enrichTree sadir · session.blocks) ↔
      Grounded ((sadir.getD ⟨[], []⟩).store session).next .session ∧
        ∀ c ∈ ((sadir.getD ⟨[], []⟩).store session).next .session,
          ∀ u, Reaches ((sadir.getD ⟨[], []⟩).store session).next c u →
            ((sadir.getD ⟨[], []⟩).store session).Adds u := by
  have ht (sadir : Sadir) : (sadir.store session).transcript .session = some session := rfl
  cases sadir with
  | none =>
    have hsource (v : ClaudePath) (a : String) :
        ((⟨[], []⟩ : Sadir).store session).source v a = none := by
      simp [store, childFile]
    have hnext (v : ClaudePath) : ((⟨[], []⟩ : Sadir).store session).next v = [] := by
      unfold Store.next
      split <;> simp [hsource]
    constructor
    · intro
      exact ⟨grounded_iff.mpr (by simp [hnext]), by simp [hnext]⟩
    · intro
      refine ⟨⟨0, session.blocks, rfl⟩, fun fuel blocks h => ?_⟩
      obtain rfl := Option.some.inj h
      rw [Store.billed_iff]
      simp [hsource, Transcript.blocks, SubAgent.spawned]
  | some sadir =>
    simp only [Option.getD_some, enrichTree]
    constructor
    · rintro ⟨⟨fuel, blocks, h⟩, hbill⟩
      exact ⟨grounded_of_enrich (ht sadir) h,
        (billed_iff_adds (ht sadir) h).mp (hbill fuel blocks h)⟩
    · rintro ⟨hg, hadds⟩
      obtain ⟨blocks, h⟩ := enrich_of_grounded (ht sadir) hg le_rfl
      exact ⟨⟨_, blocks, h⟩, fun fuel blocks h => (billed_iff_adds (ht sadir) h).mpr hadds⟩

end Sadir

end ClaudeReplay.Spawn
