import ClaudeReplay.Spawn.Claude

/-!
# ClaudeReplay.Spawn.Codex

What the walk of the Codex adapter does. It loads a path once, so it always ends; but the
block it meets a loaded transcript in again is left without a cost, and the transcript is
missing from the costs added up there.

`Walk` is the walk without its fuel: what it makes of the blocks of some agents, one after
the other, and of the paths it has seen.
-/

namespace ClaudeReplay.Spawn

open Lib

namespace Rollouts

variable {V : Type} {s : Store V} {v c x : V} {seen seen' : List V} {agents : List String}
  {blocks : List SubAgent}

/-- `Walk s v agents seen blocks seen'`: the blocks of `agents`, named in the transcript `v`,
become `blocks`, and the paths seen grow from `seen` to `seen'`. -/
inductive Walk (s : Store V) :
    V → List String → List V → List SubAgent → List V → Prop
  | nil {v : V} {seen : List V} : Walk s v [] seen [] seen
  | absent {v : V} {a : String} {agents : List String} {seen seen' : List V}
      {blocks : List SubAgent} (h : s.source v a = none) (hs : Walk s v agents seen blocks seen') :
      Walk s v (a :: agents) seen (.spawned a :: blocks) seen'
  | again {v c : V} {a : String} {agents : List String} {seen seen' : List V}
      {blocks : List SubAgent} (h : s.source v a = some c) (hc : c ∈ seen)
      (hs : Walk s v agents seen blocks seen') :
      Walk s v (a :: agents) seen (.spawned a :: blocks) seen'
  | unread {v c : V} {a : String} {agents : List String} {seen seen' : List V}
      {blocks : List SubAgent} (h : s.source v a = some c) (hc : c ∉ seen)
      (ht : s.transcript c = none) (hs : Walk s v agents (seen ++ [c]) blocks seen') :
      Walk s v (a :: agents) seen (.spawned a :: blocks) seen'
  | child {v c : V} {a : String} {agents : List String} {t : Transcript}
      {seen seen₁ seen' : List V} {cb blocks : List SubAgent} (h : s.source v a = some c)
      (hc : c ∉ seen) (ht : s.transcript c = some t)
      (hcb : Walk s c t.agents (seen ++ [c]) cb seen₁) (hs : Walk s v agents seen₁ blocks seen') :
      Walk s v (a :: agents) seen (.mk a (Spawn.subtreeCost t.cost cb) cb :: blocks) seen'

namespace Walk

theorem map_agentId_eq (h : Walk s v agents seen blocks seen') :
    blocks.map (·.agentId) = agents := by
  induction h with
  | nil => rfl
  | absent _ _ ih | again _ _ _ ih | unread _ _ _ _ ih | child _ _ _ _ _ _ ih =>
    rw [List.map_cons, ih]
    rfl

theorem subset (h : Walk s v agents seen blocks seen') : seen ⊆ seen' := by
  induction h with
  | nil => exact List.Subset.refl _
  | absent _ _ ih | again _ _ _ ih => exact ih
  | unread _ _ _ _ ih => exact List.Subset.trans (List.subset_append_left _ _) ih
  | child _ _ _ _ _ ihcb ih =>
    exact List.Subset.trans (List.Subset.trans (List.subset_append_left _ _) ihcb) ih

/-- The walk only adds what is reachable from the agents' transcripts. -/
theorem reaches (h : Walk s v agents seen blocks seen') (hx : x ∈ seen') :
    x ∈ seen ∨ ∃ c ∈ agents.filterMap (s.source v), Reaches s.next c x := by
  induction h with
  | nil => exact .inl hx
  | absent hs _ ih => simpa [hs] using ih hx
  | again hs _ _ ih => grind
  | @unread v c _ _ _ _ _ hs _ _ _ ih =>
    obtain hx | hx := ih hx
    · grind [Reaches.refl s.next c]
    · grind
  | @child v c _ _ t _ _ _ _ _ hs _ ht _ _ ihcb ih =>
    obtain hx | hx := ih hx
    · rw [← Store.next_eq ht] at ihcb
      obtain hx | ⟨d, hd, hr⟩ := ihcb hx
      · grind [Reaches.refl s.next c]
      · have hr := (Reaches.turn hd).trans hr
        grind
    · grind

/-! ## what it bills -/

variable [DecidableEq V]

/-- What costs is reached from one of some transcripts, by one chain. -/
def SoleAll (s : Store V) (cs : List V) : Prop :=
  cs.Pairwise (fun c d => ∀ u, s.own u ≠ 0 → ¬(Reaches s.next c u ∧ Reaches s.next d u)) ∧
    ∀ c ∈ cs, Sole s.next (s.own · ≠ 0) c

/-- Where the blocks come out right, what costs was reached by one chain, and the walk had not
been there before. -/
theorem soleAll_of_billed (h : Walk s v agents seen blocks seen') (hb : s.Billed v blocks) :
    SoleAll s (agents.filterMap (s.source v)) ∧
      ∀ c ∈ agents.filterMap (s.source v), ∀ u, Reaches s.next c u → s.own u ≠ 0 →
        u ∉ seen ∧ u ∈ seen' := by
  have hbarren {c : V} (hc : Barren s.next (s.own · ≠ 0) c) {ds : List V} {seen seen' : List V}
      (h : SoleAll s ds ∧
        ∀ d ∈ ds, ∀ u, Reaches s.next d u → s.own u ≠ 0 → u ∉ seen ∧ u ∈ seen') :
      SoleAll s (c :: ds) ∧
        ∀ d ∈ c :: ds, ∀ u, Reaches s.next d u → s.own u ≠ 0 → u ∉ seen ∧ u ∈ seen' := by
    refine ⟨⟨List.pairwise_cons.mpr ⟨?_, h.1.1⟩, List.forall_mem_cons.mpr ⟨hc.sole, h.1.2⟩⟩,
      List.forall_mem_cons.mpr ⟨?_, h.2⟩⟩
    · exact fun d _ u hu hr => hc u hr.1 hu
    · exact fun u hr hu => absurd hu (hc u hr)
  induction h with
  | nil => exact ⟨⟨.nil, nofun⟩, nofun⟩
  | absent hs _ ih =>
    rw [List.filterMap_cons_none hs]
    exact ih (Store.billed_cons.mp hb).2
  | @again v c a agents seen seen' blocks hs hc _ ih =>
    obtain ⟨⟨hcost, -⟩, hrest⟩ := Store.billed_cons.mp hb
    rw [List.filterMap_cons_some hs]
    refine hbarren ?_ (ih hrest)
    have htotal : s.total c = 0 := by simpa [SubAgent.spawned, hs] using hcost.symm
    exact (total_eq_zero_iff Store.mem_files_of_own).mp htotal
  | @unread v c a agents seen seen' blocks hs hc ht _ ih =>
    obtain ⟨-, hrest⟩ := Store.billed_cons.mp hb
    rw [List.filterMap_cons_some hs]
    refine hbarren (Store.barren_of_none ht) ⟨(ih hrest).1, fun d hd u hr hu => ?_⟩
    have hin := (ih hrest).2 d hd u hr hu
    exact ⟨fun hu => hin.1 (List.mem_append_left _ hu), hin.2⟩
  | @child v c a agents t seen seen₁ seen' cb blocks hs hc ht hcb hwalk ihcb ih =>
    obtain ⟨⟨-, hbelow⟩, hrest⟩ := Store.billed_cons.mp hb
    obtain ⟨hsole, hfresh⟩ := ihcb (hbelow c hs)
    obtain ⟨hsole', hfresh'⟩ := ih hrest
    rw [← Store.next_eq ht] at hsole hfresh
    rw [List.filterMap_cons_some hs]
    have hown : Sole s.next (s.own · ≠ 0) c := by
      rw [sole_iff]
      refine ⟨fun hc d hd hr => ?_, hsole.1, hsole.2⟩
      exact (hfresh d hd c hr hc).1 (by simp)
    have hin (u : V) (hr : Reaches s.next c u) (hu : s.own u ≠ 0) : u ∉ seen ∧ u ∈ seen₁ := by
      obtain rfl | ⟨d, hd, hr⟩ := reaches_iff.mp hr
      · exact ⟨hc, hcb.subset (by simp)⟩
      · have hd := hfresh d hd u hr hu
        exact ⟨fun hu => hd.1 (List.mem_append_left _ hu), hd.2⟩
    refine ⟨⟨List.pairwise_cons.mpr ⟨fun d hd u hu hr => ?_, hsole'.1⟩,
      List.forall_mem_cons.mpr ⟨hown, hsole'.2⟩⟩, List.forall_mem_cons.mpr ⟨?_, ?_⟩⟩
    · exact (hfresh' d hd u hr.2 hu).1 (hin u hr.1 hu).2
    · exact fun u hr hu => ⟨(hin u hr hu).1, hwalk.subset (hin u hr hu).2⟩
    · intro d hd u hr hu
      have hd := hfresh' d hd u hr hu
      exact ⟨fun hu => hd.1 (hcb.subset (List.mem_append_left _ hu)), hd.2⟩

/-- Where the blocks come out right, so do the sums below them. -/
theorem adds_of_billed (h : Walk s v agents seen blocks seen') (hb : s.Billed v blocks) :
    ∀ c ∈ agents.filterMap (s.source v), ∀ u, Reaches s.next c u → s.Adds u := by
  have hbarren {c : V} (hc : Barren s.next (s.own · ≠ 0) c) (u : V) (hu : Reaches s.next c u) :
      s.Adds u := Store.adds_of_barren fun x hx => hc x (hu.trans hx)
  induction h with
  | nil => exact nofun
  | absent hs _ ih =>
    rw [List.filterMap_cons_none hs]
    exact ih (Store.billed_cons.mp hb).2
  | again hs _ _ ih =>
    obtain ⟨⟨hcost, -⟩, hrest⟩ := Store.billed_cons.mp hb
    rw [List.filterMap_cons_some hs]
    refine List.forall_mem_cons.mpr ⟨hbarren ?_, ih hrest⟩
    have htotal := by simpa [SubAgent.spawned, hs] using hcost.symm
    exact (total_eq_zero_iff Store.mem_files_of_own).mp htotal
  | unread hs _ ht _ ih =>
    rw [List.filterMap_cons_some hs]
    exact List.forall_mem_cons.mpr
      ⟨hbarren (Store.barren_of_none ht), ih (Store.billed_cons.mp hb).2⟩
  | @child v c a agents t seen seen₁ seen' cb blocks hs hc ht hcb hwalk ihcb ih =>
    obtain ⟨⟨hcost, hbelow⟩, hrest⟩ := Store.billed_cons.mp hb
    have hbelow : s.Billed c cb := hbelow c hs
    rw [SubAgent.subtreeCost_mk, SubAgent.agentId_mk, subtreeCost_getD, hs,
      hbelow.sum_eq ht hcb.map_agentId_eq, ← Store.own_eq ht] at hcost
    rw [List.filterMap_cons_some hs]
    refine List.forall_mem_cons.mpr ⟨Store.forall_reaches_iff.mpr ⟨hcost, ?_⟩, ih hrest⟩
    rw [Store.next_eq ht]
    exact ihcb hbelow

/-- Where what costs is reached by one chain, nothing of it through where the walk has been,
and the sums come out, the blocks come out right. -/
theorem billed_of_soleAll (h : Walk s v agents seen blocks seen')
    (hsole : SoleAll s (agents.filterMap (s.source v)))
    (hadds : ∀ c ∈ agents.filterMap (s.source v), ∀ u, Reaches s.next c u → s.Adds u)
    (hclear : ∀ x ∈ seen, ∀ c ∈ agents.filterMap (s.source v), Reaches s.next c x →
      Barren s.next (s.own · ≠ 0) x) : s.Billed v blocks := by
  induction h with
  | nil => exact Store.billed_nil
  | absent hs _ ih =>
    rw [List.filterMap_cons_none hs] at hsole hadds hclear
    refine Store.billed_cons.mpr ⟨?_, ih hsole hadds hclear⟩
    simp [SubAgent.spawned, hs]
  | @again v c a agents seen seen' blocks hs hc _ ih =>
    rw [List.filterMap_cons_some hs] at hsole hadds hclear
    have hb := hclear c hc c (.head _) (.refl _ c)
    refine Store.billed_cons.mpr ⟨?_, ih ⟨(List.pairwise_cons.mp hsole.1).2,
      (List.forall_mem_cons.mp hsole.2).2⟩ (List.forall_mem_cons.mp hadds).2
        fun x hx d hd => hclear x hx d (.tail _ hd)⟩
    simp [SubAgent.spawned, hs, Store.total_eq_zero hb, Store.billed_nil]
  | @unread v c a agents seen seen' blocks hs hc ht _ ih =>
    rw [List.filterMap_cons_some hs] at hsole hadds hclear
    have hb := Store.barren_of_none ht
    refine Store.billed_cons.mpr ⟨?_, ih ⟨(List.pairwise_cons.mp hsole.1).2,
      (List.forall_mem_cons.mp hsole.2).2⟩ (List.forall_mem_cons.mp hadds).2 fun x hx d hd hr => ?_⟩
    · simp [SubAgent.spawned, hs, Store.total_eq_zero hb, Store.billed_nil]
    · obtain hx | hx := List.mem_append.mp hx
      · exact hclear x hx d (.tail _ hd) hr
      · exact List.mem_singleton.mp hx ▸ hb
  | @child v c a agents t seen seen₁ seen' cb blocks hs hc ht hcb hwalk ihcb ih =>
    rw [List.filterMap_cons_some hs] at hsole hadds hclear
    obtain ⟨hapart, hapart'⟩ := List.pairwise_cons.mp hsole.1
    obtain ⟨hown, hrest⟩ := List.forall_mem_cons.mp hsole.2
    obtain ⟨haddsc, hadds⟩ := List.forall_mem_cons.mp hadds
    obtain ⟨hadd, haddsc⟩ := Store.forall_reaches_iff.mp haddsc
    have hbelow : s.Billed c cb := by
      refine ihcb ?_ ?_ fun x hx d hd hr => ?_
      · rw [← Store.next_eq ht]
        exact (sole_iff.mp hown).2
      · rw [← Store.next_eq ht]
        exact haddsc
      · rw [← Store.next_eq ht] at hd
        obtain hx | hx := List.mem_append.mp hx
        · exact hclear x hx c (.head _) ((Reaches.turn hd).trans hr)
        · obtain rfl := List.mem_singleton.mp hx
          exact hown.barren hd hr
    refine Store.billed_cons.mpr ⟨⟨?_, ?_⟩,
      ih ⟨hapart', hrest⟩ hadds fun x hx d hd hr u hu hcost => ?_⟩
    · rw [SubAgent.subtreeCost_mk, SubAgent.agentId_mk, subtreeCost_getD, hs,
        hbelow.sum_eq ht hcb.map_agentId_eq, ← Store.own_eq ht]
      exact hadd
    · intro d hd
      obtain rfl := Option.some.inj (hs.symm.trans hd)
      exact hbelow
    · -- what the child brought in is reachable from it, and from no later block
      obtain hx | ⟨e, he, hex⟩ := hcb.reaches hx
      · obtain hx | hx := List.mem_append.mp hx
        · exact hclear x hx d (.tail _ hd) hr u hu hcost
        · obtain rfl := List.mem_singleton.mp hx
          exact hapart d hd u hcost ⟨hu, hr.trans hu⟩
      · rw [← Store.next_eq ht] at he
        exact hapart d hd u hcost ⟨(Reaches.turn he).trans (hex.trans hu), hr.trans hu⟩

end Walk

/-! ## the walk the adapter takes -/

variable {ix : Rollouts} {root path : String} {session t : Transcript} {fuel : Nat}

/-- Once the session's own path has been seen, what the adapter does is a walk. -/
theorem walk_of_enrich {agents seen seen' : List String} (hroot : root ∈ seen)
    (h : ix.enrichDescendants fuel path (agents.map SubAgent.spawned) seen =
      some (blocks, seen')) : Walk (ix.store root session) path agents seen blocks seen' := by
  induction fuel generalizing path agents seen blocks seen' with
  | zero => simp [enrichDescendants] at h
  | succ fuel ih =>
    rw [enrichDescendants] at h
    induction agents generalizing seen blocks with
    | nil =>
      obtain ⟨rfl, rfl⟩ := Prod.mk.inj (Option.some.inj h)
      exact .nil
    | cons a agents ihs =>
      rw [List.map_cons, forBlocks] at h
      obtain ⟨⟨sa, seen₁⟩, hone, h⟩ := Option.bind_eq_some_iff.mp h
      obtain ⟨⟨blocks', seen₂⟩, hrest, h⟩ := Option.bind_eq_some_iff.mp h
      obtain ⟨rfl, rfl⟩ := Prod.mk.inj (Option.some.inj h)
      have hread {c : String} (hc : c ∉ seen) :
          (ix.store root session).transcript c = ix.parsePath c := by
        have hne : c ≠ root := fun heq => hc (heq ▸ hroot)
        simp [store, hne]
      have hid : (SubAgent.spawned a).agentId = a := rfl
      simp only [enrichBlock, hid] at hone
      cases hs : ix.subagentSource path a with
      | none =>
        simp only [hs, Option.some.injEq, Prod.mk.injEq] at hone
        obtain ⟨rfl, rfl⟩ := hone
        exact .absent hs (ihs hroot hrest)
      | some c =>
        simp only [hs] at hone
        split at hone
        · simp only [Option.some.injEq, Prod.mk.injEq] at hone
          obtain ⟨rfl, rfl⟩ := hone
          exact .again hs ‹_› (ihs hroot hrest)
        · have hroot' : root ∈ seen ++ [c] := List.mem_append_left _ hroot
          cases hp : ix.parsePath c with
          | none =>
            simp only [hp, Option.some.injEq, Prod.mk.injEq] at hone
            obtain ⟨rfl, rfl⟩ := hone
            exact .unread hs ‹_› ((hread ‹_›).trans hp) (ihs hroot' hrest)
          | some t =>
            simp only [hp] at hone
            obtain ⟨⟨cb, seen₃⟩, hcb, hone⟩ := Option.bind_eq_some_iff.mp hone
            obtain ⟨rfl, rfl⟩ := Prod.mk.inj (Option.some.inj hone)
            have hwalk := ih hroot' hcb
            exact .child hs ‹_› ((hread ‹_›).trans hp) hwalk (ihs (hwalk.subset hroot') hrest)

/-- **The walk ends**: each call has seen one file more than the one above. -/
theorem enrichDescendants_isSome {agents seen : List String} (hroot : root ∈ seen)
    (hfuel : ((ix.files.map (·.1)).toFinset \ seen.toFinset).card < fuel) :
    ∃ r, ix.enrichDescendants fuel path (agents.map SubAgent.spawned) seen = some r := by
  induction fuel generalizing path agents seen with
  | zero => omega
  | succ fuel ih =>
    rw [enrichDescendants]
    induction agents generalizing seen with
    | nil => exact ⟨_, rfl⟩
    | cons a agents ihs =>
      have hgrow {seen₁ : List String} (h : seen ⊆ seen₁) :
          ((ix.files.map (·.1)).toFinset \ seen₁.toFinset).card < fuel + 1 := by
        refine lt_of_le_of_lt (Finset.card_le_card ?_) hfuel
        intro u
        simp only [Finset.mem_sdiff, List.mem_toFinset]
        exact fun hu => ⟨hu.1, fun hs => hu.2 (h hs)⟩
      suffices hone : ∃ sa seen₁, seen ⊆ seen₁ ∧
          ix.enrichBlock (ix.enrichDescendants fuel) path (.spawned a) seen = some (sa, seen₁) by
        obtain ⟨sa, seen₁, hsub, hone⟩ := hone
        obtain ⟨r, hr⟩ := ihs (hsub hroot) (hgrow hsub)
        exact ⟨(sa :: r.1, r.2), by simp [forBlocks, hone, hr]⟩
      have hid : (SubAgent.spawned a).agentId = a := rfl
      simp only [enrichBlock, hid]
      cases hs : ix.subagentSource path a with
      | none => exact ⟨_, seen, List.Subset.refl _, rfl⟩
      | some c =>
        simp only
        split
        · exact ⟨_, seen, List.Subset.refl _, rfl⟩
        · have hroot' : root ∈ seen ++ [c] := List.mem_append_left _ hroot
          cases hp : ix.parsePath c with
          | none => exact ⟨_, seen ++ [c], List.subset_append_left _ _, rfl⟩
          | some t =>
            have hmem : c ∈ (ix.files.map (·.1)).toFinset :=
              List.mem_toFinset.mpr (List.mem_map.mpr ⟨_, mem_of_lookup hp, rfl⟩)
            have hless : ((ix.files.map (·.1)).toFinset \ (seen ++ [c]).toFinset).card < fuel := by
              have hlt : (ix.files.map (·.1)).toFinset \ (seen ++ [c]).toFinset ⊂
                  (ix.files.map (·.1)).toFinset \ seen.toFinset := by
                rw [Finset.ssubset_iff_of_subset]
                · exact ⟨c, by simp_all, by simp⟩
                · intro u
                  simp only [Finset.mem_sdiff, List.mem_toFinset, List.mem_append]
                  grind
              have := Finset.card_lt_card hlt
              omega
            have hends : ∃ r, ix.enrichDescendants fuel c t.blocks (seen ++ [c]) = some r :=
              ih hroot' hless
            obtain ⟨⟨cb, seen₁⟩, hcb⟩ := hends
            have hwalk : Walk (ix.store root t) c t.agents (seen ++ [c]) cb seen₁ :=
              walk_of_enrich hroot' hcb
            refine ⟨.mk a (Spawn.subtreeCost t.cost cb) cb, seen₁,
              List.Subset.trans (List.subset_append_left _ _) hwalk.subset, ?_⟩
            simp only [hcb]
            rfl

theorem enrichTree_isSome (ix : Rollouts) (root : String) (session : Transcript) :
    ∃ fuel blocks, ix.enrichTree fuel root session.blocks = some blocks := by
  cases hid : ix.rootId root with
  | none => exact ⟨0, session.blocks, by simp only [enrichTree, hid]⟩
  | some rootId =>
    have hr : ∃ r, ix.enrichDescendants
        (((ix.files.map (·.1)).toFinset \ [root].toFinset).card + 1) root session.blocks [root] =
          some r := enrichDescendants_isSome (.head _) (Nat.lt_succ_self _)
    obtain ⟨r, hr⟩ := hr
    exact ⟨((ix.files.map (·.1)).toFinset \ [root].toFinset).card + 1, r.1,
      by simp only [enrichTree, hid, hr, Option.map_some]⟩

/-- **When a Codex session's tree is loaded and billed right.** -/
theorem settles_iff (ix : Rollouts) (root : String) (session : Transcript) :
    (ix.store root session).Settles root (ix.enrichTree · root session.blocks) ↔
      Sole (ix.store root session).next ((ix.store root session).own · ≠ 0) root ∧
        ∀ c ∈ (ix.store root session).next root,
          ∀ u, Reaches (ix.store root session).next c u → (ix.store root session).Adds u := by
  set s := ix.store root session with hS
  have ht : s.transcript root = some session := by simp [hS, store]
  have hsource (a : String) : s.source root a = ix.subagentSource root a := rfl
  cases hid : ix.rootId root with
  | none =>
    -- an index that does not know the session resolves nothing it names
    have hnone (a : String) : s.source root a = none := by simp [hsource, subagentSource, hid]
    constructor
    · intro
      rw [sole_iff]
      simp [Store.next_eq ht, hnone]
    · intro
      refine ⟨⟨0, session.blocks, by simp [enrichTree, hid]⟩, fun fuel blocks h => ?_⟩
      simp only [enrichTree, hid, Option.some.injEq] at h
      rw [← h, Store.billed_iff]
      simp [hnone, Transcript.blocks, SubAgent.spawned]
  | some rootId =>
    have hwalk {fuel : Nat} {blocks : List SubAgent}
        (h : ix.enrichTree fuel root session.blocks = some blocks) :
        ∃ seen, Walk s root session.agents [root] blocks seen := by
      simp only [enrichTree, hid, Option.map_eq_some_iff] at h
      obtain ⟨⟨blocks, seen⟩, h, rfl⟩ := h
      exact ⟨seen, walk_of_enrich (.head _) h⟩
    constructor
    · rintro ⟨⟨fuel, blocks, h⟩, hbill⟩
      obtain ⟨seen, hw⟩ := hwalk h
      obtain ⟨hsole, hfresh⟩ := hw.soleAll_of_billed (hbill fuel blocks h)
      rw [← Store.next_eq ht] at hsole hfresh
      rw [sole_iff]
      refine ⟨⟨fun hr c hc hback => (hfresh c hc root hback hr).1 (.head _), hsole.1, hsole.2⟩, ?_⟩
      rw [Store.next_eq ht]
      exact hw.adds_of_billed (hbill fuel blocks h)
    · rintro ⟨hsole, hadds⟩
      refine ⟨ix.enrichTree_isSome root session, fun fuel blocks h => ?_⟩
      obtain ⟨seen, hw⟩ := hwalk h
      refine hw.billed_of_soleAll ?_ ?_ fun x hx c hc hr => ?_
      · rw [← Store.next_eq ht]
        exact (sole_iff.mp hsole).2
      · rw [← Store.next_eq ht]
        exact hadds
      · obtain rfl := List.mem_singleton.mp hx
        rw [← Store.next_eq ht] at hc
        exact hsole.barren hc hr

end Rollouts

/-! ## both adapters -/

/-- **When a sub-agent tree is loaded and billed right.** The Claude adapter ends where no
chain of spawns comes back, and bills right where the sums come out as the exact totals at
every transcript below the session; the Codex adapter always ends, and bills right where
besides what costs is reached from the session by one chain. -/
theorem enrichTree_settles_iff (sadir : Option Sadir) (ix : Rollouts) (root : String)
    (session : Transcript) :
    (((sadir.getD ⟨[], []⟩).store session).Settles .session
        (Sadir.enrichTree sadir · session.blocks) ↔
      Grounded ((sadir.getD ⟨[], []⟩).store session).next .session ∧
        ∀ c ∈ ((sadir.getD ⟨[], []⟩).store session).next .session,
          ∀ u, Reaches ((sadir.getD ⟨[], []⟩).store session).next c u →
            ((sadir.getD ⟨[], []⟩).store session).Adds u) ∧
    (∃ fuel blocks, ix.enrichTree fuel root session.blocks = some blocks) ∧
    ((ix.store root session).Settles root (ix.enrichTree · root session.blocks) ↔
      Sole (ix.store root session).next ((ix.store root session).own · ≠ 0) root ∧
        ∀ c ∈ (ix.store root session).next root,
          ∀ u, Reaches (ix.store root session).next c u → (ix.store root session).Adds u) :=
  ⟨Sadir.settles_iff sadir session, ix.enrichTree_isSome root session,
    ix.settles_iff root session⟩

/-- A child whose transcript spawns the child again. -/
def looping : Sadir := ⟨[("agent-a.jsonl", some ⟨["a"], some 1⟩)], []⟩

/-- A child that resumes one of its own. -/
def resumed : Sadir :=
  ⟨[("agent-a.jsonl", some ⟨["b", "b"], some 1⟩), ("agent-b.jsonl", some ⟨[], some 1⟩)], []⟩

/-- The `f64` nearest to a tenth. -/
def tenth : ℚ≥0 := (3602879701896397 : ℕ) / (2 ^ 55 : ℕ)

/-- A child of a tenth that spawns one of two tenths. -/
def tenths : Sadir :=
  ⟨[("agent-a.jsonl", some ⟨["b"], some tenth⟩), ("agent-b.jsonl", some ⟨[], some (tenth + tenth)⟩)],
    []⟩

/-- A Codex session and the child it resumes. -/
def threads : Rollouts where
  nodes := [⟨"r", "/r", none, none⟩, ⟨"b", "/b", some "r", none⟩]
  files := [("/r", ⟨["b", "b"], some 1⟩), ("/b", ⟨[], some 1⟩)]
  decodeAgentPath _ := none

/-- The walk of a child that spawns itself does not end; a child resumed is billed twice by
the Claude adapter, and not at all in its second block by the Codex adapter; and a tenth and
two tenths come out as more than they are. -/
theorem enrichTree_unsettled :
    ¬(looping.store ⟨["a"], none⟩).Settles .session
        (Sadir.enrichTree (some looping) · [.spawned "a"]) ∧
    ¬(resumed.store ⟨["a"], none⟩).Settles .session
        (Sadir.enrichTree (some resumed) · [.spawned "a"]) ∧
    ¬(tenths.store ⟨["a"], none⟩).Settles .session
        (Sadir.enrichTree (some tenths) · [.spawned "a"]) ∧
    ¬(threads.store "/r" ⟨["b", "b"], some 1⟩).Settles "/r"
        (threads.enrichTree · "/r" [.spawned "b", .spawned "b"]) := by
  constructor
  · intro h
    have hg := ((Sadir.settles_iff (some looping) ⟨["a"], none⟩).mp h).1
    have hmem : ClaudePath.flat "agent-a.jsonl" ∈
        (looping.store ⟨["a"], none⟩).next (.flat "agent-a.jsonl") := by decide
    exact hg (.flat "agent-a.jsonl") ⟨[0], by decide⟩ _ hmem (.refl _ _)
  constructor
  · intro h
    have hadd : (resumed.store ⟨["a"], none⟩).Adds (.flat "agent-a.jsonl") :=
      ((Sadir.settles_iff (some resumed) ⟨["a"], none⟩).mp h).2 _ (by decide) _ (.refl _ _)
    have hnext : (resumed.store ⟨["a"], none⟩).next (.flat "agent-a.jsonl") =
        [.flat "agent-b.jsonl", .flat "agent-b.jsonl"] := by decide
    have hb : (resumed.store ⟨["a"], none⟩).total (.flat "agent-b.jsonl") = 1 :=
      Store.total_of_leaf (by decide) (by decide)
    have hsum : (resumed.store ⟨["a"], none⟩).own (.flat "agent-a.jsonl") +
        (((resumed.store ⟨["a"], none⟩).next (.flat "agent-a.jsonl")).map
          (resumed.store ⟨["a"], none⟩).total).sum = 3 := by
      rw [hnext, List.map_cons, List.map_singleton, hb]
      decide +kernel
    rw [Store.Adds, Store.rolled, hnext, List.map_cons, List.map_singleton, hb] at hadd
    -- a total of three is the children's added up, and they share what they cost
    have hthree : UsdCost.add (1 : ℚ≥0) (UsdCost.sum [(1 : ℚ≥0), (1 : ℚ≥0)]) = (3 : ℚ≥0) := by
      decide +kernel
    have htotal : (resumed.store ⟨["a"], none⟩).total (.flat "agent-a.jsonl") = 3 :=
      WithTop.coe_inj.mp (hadd.symm.trans hthree)
    have hapart := (total_eq_iff_apart (by decide) Store.mem_files_of_own).mp
      (htotal.trans hsum.symm)
    rw [Apart, hnext] at hapart
    exact (List.pairwise_cons.mp hapart.2).1 _ (.head _) (.flat "agent-b.jsonl") (by decide)
      ⟨.refl _ _, .refl _ _⟩
  constructor
  · intro h
    have hadd : (tenths.store ⟨["a"], none⟩).Adds (.flat "agent-a.jsonl") :=
      ((Sadir.settles_iff (some tenths) ⟨["a"], none⟩).mp h).2 _ (by decide) _ (.refl _ _)
    have hnext : (tenths.store ⟨["a"], none⟩).next (.flat "agent-a.jsonl") =
        [.flat "agent-b.jsonl"] := by decide
    have hb : (tenths.store ⟨["a"], none⟩).total (.flat "agent-b.jsonl") = tenth + tenth :=
      Store.total_of_leaf (by decide) (by decide)
    have hsum : (tenths.store ⟨["a"], none⟩).own (.flat "agent-a.jsonl") +
        (((tenths.store ⟨["a"], none⟩).next (.flat "agent-a.jsonl")).map
          (tenths.store ⟨["a"], none⟩).total).sum = tenth + (tenth + tenth) := by
      rw [hnext, List.map_singleton, hb]
      decide +kernel
    have hapart : Apart (tenths.store ⟨["a"], none⟩).next
        ((tenths.store ⟨["a"], none⟩).own · ≠ 0) (.flat "agent-a.jsonl") := by
      rw [Apart, hnext]
      refine ⟨fun _ d hd hr => ?_, List.pairwise_singleton _ _⟩
      have hleaf : (tenths.store ⟨["a"], none⟩).next (.flat "agent-b.jsonl") = [] := by decide
      rw [List.mem_singleton.mp hd, reaches_iff, hleaf] at hr
      obtain h | ⟨_, h, -⟩ := hr
      · exact absurd h (by decide)
      · cases h
    have htotal := ((total_eq_iff_apart (by decide) Store.mem_files_of_own).mpr hapart).trans hsum
    rw [Store.Adds, Store.rolled, hnext, List.map_singleton, hb] at hadd
    have hoff : UsdCost.add tenth (UsdCost.sum [((tenth + tenth : ℚ≥0) : UsdCost)]) ≠
        (tenth + (tenth + tenth) : ℚ≥0) := by decide +kernel
    exact hoff (hadd.trans (congrArg _ htotal))
  · intro h
    have hsole := ((Rollouts.settles_iff threads "/r" ⟨["b", "b"], some 1⟩).mp h).1
    have heq := hsole "/b" (by decide) [0] [1] (by decide) (by decide)
    exact absurd heq (by decide)

end ClaudeReplay.Spawn
