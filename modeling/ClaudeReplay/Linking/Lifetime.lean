import ClaudeReplay.Linking.Growth

/-!
# ClaudeReplay.Linking.Lifetime

How long a growth proof lives.

A proof is kept from scan to scan on its pid and its directory. What a row's proof names
is therefore the process that proved it only as long as no other process has taken that
pid in that directory, which `Unreplaced` says of one scan. `proof_stands` is what holds of
the runs whose scans are all so: every proof was made by one scan from one usable write,
and still names the process of that scan, and a write that was set aside proves nothing
again. `proof_outlives_process` has a run in which another process inherits the proof.
-/

namespace ClaudeReplay.Linking

open Lib

namespace Index

variable {s u : Index} {e : Scan} {sid other : Sid} {row old : Row} {cwd : Dir} {t : Nat}
  {proof : Pid × Dir} {p : Proc} {es : List Scan}

/-! ## statements -/

/-- Whatever proof passes the checks of the scan, the process that has its pid is the one
that had it at the scan before, running the same agent. -/
def Unreplaced (s : Index) (e : Scan) : Prop :=
  ∀ r ∈ (s.retired e).rows, ∀ proof ∈ r.2.provedPid, ∀ p ∈ s.procs.byPid proof.1,
    ∀ q ∈ (s.table e).byPid proof.1, q.birth = p.birth ∧ q.agent = p.agent

/-- A scan in which no process inherits another's pid and proof. -/
def CleanStep (s : Index) (e : Scan) (u : Index) : Prop := s.Step e u ∧ s.Unreplaced e

/-- What made a proof, and what has become of its process: a scan of the run proved it, and
the process of that scan is still there, in its directory, with no record that names
another session. -/
def Stands (es : List Scan) (s : Index) (sid : Sid) (proof : Pid × Dir) : Prop :=
  ∃ pre e post u row p q, es = pre ++ e :: post ∧ Run Step empty pre u ∧
    u.Proves e sid row p proof.2 ∧ p.pid = proof.1 ∧ s.procs.byPid proof.1 = some q ∧
      q.birth = p.birth ∧ q.cwd = some proof.2 ∧ q.native.permits sid = true

/-- The scan sets the session's write at `t` aside: a record contradicts it, a recorded
process owns it, the session moved away, or a newer proof takes its process. -/
def SetsAside (s : Index) (e : Scan) (sid : Sid) (t : Nat) : Prop :=
  ∃ row, (s.found e).find? sid = some row ∧ row.grewAt = some t ∧
    (contradicted (s.table e) sid row = true ∨ nativeOwner (s.table e) sid row = true ∨
      s.moved e sid = true ∨
      ∃ proof old, (s.retired e).find? sid = some old ∧ old.provedPid = some proof ∧
        ∃ other ≠ sid, ∃ row' p, s.Proves e other row' p proof.2 ∧ p.pid = proof.1)

/-! ## one row from scan to scan -/

/-- What discovery makes of a row: new growth is later, and nothing else that a proof rests
on changes. -/
theorem found_old (hfollows : s.Follows e) (h : (s.found e).find? sid = some row) :
    (s.rows.find? sid = none ∧ row.provedPid = none ∧ row.grewAt = none) ∨
      ∃ old, s.rows.find? sid = some old ∧ row.agent = old.agent ∧
        (∀ cwd, old.cwd = some cwd → row.cwd = some cwd) ∧
        row.invalidatedGrowth = old.invalidatedGrowth ∧
        (row.grewAt = old.grewAt ∨ ∃ t, row.grewAt = some t ∧ s.now < t ∧ t ≤ e.now) := by
  rw [find?_found] at h
  obtain ⟨g, hg, rfl⟩ := Option.map_eq_some_iff.mp h
  cases hold : s.rows.find? sid with
  | none => exact .inl ⟨rfl, by grind [Row.sight, Row.touch, Row.first]⟩
  | some old =>
    right
    have hgrew : ∀ t, g.grew = some t → s.now < t ∧ t ≤ e.now := by
      intro t ht
      exact hfollows.growth (sid, g) (Table.mem_iff.mpr hg) t ht
    refine ⟨old, rfl, ?_⟩
    cases hnew : g.grew <;> grind [Row.sight, Row.touch]

/-- What a scan makes of a row: the checks, and then the groups, change its proof and the
write it sets aside. -/
theorem scan_row (h : (s.scan e).rows.find? sid = some row) :
    ∃ found, (s.found e).find? sid = some found ∧
      (s.retired e).find? sid = some (found.retire (s.table e) (s.moved e sid) sid) ∧
      Row.SameBut found row := by
  rw [scan, find?_proveByGrowth, find?_retired] at h
  obtain ⟨old, hold, rfl⟩ := Option.map_eq_some_iff.mp h
  obtain ⟨found, hfound, rfl⟩ := Option.map_eq_some_iff.mp hold
  refine ⟨found, hfound, ?_, Row.retire_sameBut.trans groups_sameBut⟩
  rw [find?_retired, hfound, Option.map_some]

/-- No growth is from the future. -/
def Timely (s : Index) : Prop := ∀ sid row t, s.rows.find? sid = some row → row.grewAt = some t → t ≤ s.now

theorem Timely.found (hs : s.Timely) (hfollows : s.Follows e)
    (h : (s.found e).find? sid = some row) (ht : row.grewAt = some t) : t ≤ e.now := by
  have := hfollows.later
  rcases found_old hfollows h with ⟨-, -, hnone⟩ | ⟨old, hold, -, -, -, hgrew | ⟨t', ht', -, hle⟩⟩
  · simp [hnone] at ht
  · have := hs sid old t hold (hgrew ▸ ht)
    omega
  · grind

theorem Timely.scan (hs : s.Timely) (hfollows : s.Follows e) : (s.scan e).Timely := by
  intro sid row t hrow ht
  obtain ⟨found, hfound, -, hsame⟩ := scan_row hrow
  exact hs.found hfollows hfound (hsame.grewAt ▸ ht)

/-- Each proof is of the row's own directory, and its process may be running the row's
agent. -/
def Placed (s : Index) : Prop :=
  ∀ sid row proof, s.rows.find? sid = some row → row.provedPid = some proof →
    row.cwd = some proof.2 ∧ ∃ p, s.procs.byPid proof.1 = some p ∧ p.serves row.agent = true

/-- A proof that passes the checks is of the row's own directory, and its process may be
running the row's agent. -/
theorem Placed.retired (hs : s.Placed) (hfollows : s.Follows e) (hclean : s.Unreplaced e)
    (hrow : (s.retired e).find? sid = some row) (hproof : row.provedPid = some proof) :
    row.cwd = some proof.2 ∧ ∃ p, (s.table e).byPid proof.1 = some p ∧
      p.serves row.agent = true := by
  obtain ⟨⟨old, hold, hkept⟩, -, q, hq, -, -⟩ := retired_proof hrow hproof
  obtain ⟨hcwd, p, hp, hserves⟩ := hs sid old proof hold hkept
  have hsame := (hclean (sid, row) (Table.mem_iff.mpr hrow) proof hproof p hp q hq).2
  rw [find?_retired] at hrow
  obtain ⟨found, hfound, rfl⟩ := Option.map_eq_some_iff.mp hrow
  have hretire : Row.SameBut found (found.retire (s.table e) (s.moved e sid) sid) :=
    Row.retire_sameBut
  rcases found_old hfollows hfound with ⟨hnone, -⟩ | ⟨old', hold', hagent, hdir, -⟩
  · simp [hnone] at hold
  · obtain rfl := Option.some.inj (hold.symm.trans hold')
    constructor
    · rw [hretire.cwd]
      exact hdir proof.2 hcwd
    · refine ⟨q, hq, ?_⟩
      rw [hretire.agent, hagent, Proc.serves, hsame]
      exact hserves

theorem Placed.scan (hs : s.Placed) (hfollows : s.Follows e) (hclean : s.Unreplaced e) :
    (s.scan e).Placed := by
  intro sid row proof hrow hproof
  have hafter : ∃ mid, (s.retired e).find? sid = some mid ∧ Row.SameBut mid row := by
    rw [Index.scan, find?_proveByGrowth] at hrow
    obtain ⟨mid, hmid, rfl⟩ := Option.map_eq_some_iff.mp hrow
    exact ⟨mid, hmid, groups_sameBut⟩
  obtain ⟨mid, hmid, hsame⟩ := hafter
  rcases proof_cases hrow hproof with ⟨key, -, hbank, hdir⟩ | ⟨mid', hmid', hkept, -⟩
  · obtain ⟨row', p, hproves, hpid, -⟩ := bankOf_eq_some hbank
    obtain rfl := Option.some.inj (hmid.symm.trans hproves.isRow)
    obtain ⟨hp, -, hserves, -⟩ := mem_growthCandidates.mp hproves.candidate
    rw [hsame.cwd, hsame.agent, ← hdir]
    exact ⟨hproves.isDir, p, ProcTable.byPid_eq_some.mpr ⟨hp, hpid⟩, hserves⟩
  · obtain rfl := Option.some.inj (hmid.symm.trans hmid')
    rw [hsame.cwd, hsame.agent]
    exact hs.retired hfollows hclean hmid hkept

/-- Clean runs are runs, and keep both invariants. -/
theorem run_clean (h : Run CleanStep empty es s) : Run Step empty es s ∧ s.Timely ∧ s.Placed := by
  constructor
  · exact h.mono fun s e t hstep => hstep.1
  · apply h.kept (P := fun s => s.Timely ∧ s.Placed) (Q := fun _ => True)
    · rintro s e t - ⟨⟨hfollows, rfl⟩, hclean⟩ ⟨htimely, hplaced⟩
      exact ⟨htimely.scan hfollows, hplaced.scan hfollows hclean⟩
    · simp
    · constructor
      · intro sid row t hrow
        cases hrow
      · intro sid row proof hrow
        cases hrow

/-! ## the process of a proof -/

/-- What proves a link at a scan stands after it. -/
theorem stands_of_bank {key : Option Agent × Dir} (hrun : Run Step empty es s)
    (hbank : s.bankOf e key = some (sid, proof.1)) (hdir : key.2 = proof.2) :
    Stands (es ++ [e]) (s.scan e) sid proof := by
  obtain ⟨row, p, hproves, hpid, -⟩ := bankOf_eq_some hbank
  obtain ⟨hp, -, -, -, -, hcwd⟩ := mem_growthCandidates.mp hproves.candidate
  rw [hdir] at hproves hcwd
  exact ⟨es, e, [], s, row, p, p, rfl, hrun, hproves, hpid,
    ProcTable.byPid_eq_some.mpr ⟨hp, hpid⟩, rfl, hcwd, hproves.permits⟩

/-- A proof that passes the checks of a clean scan stands after it as it did before. -/
theorem Stands.scan (h : Stands es s sid proof) (hclean : s.Unreplaced e)
    (hrow : (s.retired e).find? sid = some row) (hproof : row.provedPid = some proof) :
    Stands (es ++ [e]) (s.scan e) sid proof := by
  obtain ⟨pre, e₀, post, u, row₀, p, q, rfl, hrun, hproves, hpid, hq, hbirth, -, -⟩ := h
  obtain ⟨-, -, q', hq', hcwd, hpermits⟩ := retired_proof hrow hproof
  have hsame := (hclean (sid, row) (Table.mem_iff.mpr hrow) proof hproof q hq q' hq').1
  exact ⟨pre, e₀, post ++ [e], u, row₀, p, q', by simp, hrun, hproves, hpid, hq',
    hsame.trans hbirth, hcwd, hpermits⟩

theorem run_stands (h : Run CleanStep empty es s) :
    ∀ sid row proof, s.rows.find? sid = some row → row.provedPid = some proof →
      Stands es s sid proof := by
  apply h.traced (P := fun es s => ∀ sid row proof, s.rows.find? sid = some row →
    row.provedPid = some proof → Stands es s sid proof)
  · intro sid row proof hrow
    cases hrow
  · rintro pre u e v hpre ⟨⟨-, rfl⟩, hclean⟩ ih sid row proof hrow hproof
    rcases proof_cases hrow hproof with ⟨key, -, hbank, hdir⟩ | ⟨mid, hmid, hkept, -⟩
    · exact stands_of_bank (run_clean hpre).1 hbank hdir
    · obtain ⟨old, hold, hwas⟩ := (retired_proof hmid hkept).1
      exact (ih sid old proof hold hwas).scan hclean hmid hkept

/-! ## the writes set aside -/

/-- The row's last growth is later than `t`, or it is the growth at `t` and set aside. -/
def PastRow (t : Nat) (row : Row) : Prop :=
  ∀ t', row.grewAt = some t' → t < t' ∨ t' = t ∧ row.invalidatedGrowth = some t

theorem PastRow.sameBut {row row' : Row} (h : PastRow t row) (hsame : Row.SameBut row row') :
    PastRow t row' := by
  intro t' ht'
  rw [hsame.grewAt] at ht'
  have := hsame.aside
  rcases h t' ht' with hlater | ⟨rfl, haside⟩
  · exact .inl hlater
  · grind

/-- The session's growth up to `t` proves no link any more. -/
def Past (sid : Sid) (t : Nat) (s : Index) : Prop :=
  t ≤ s.now ∧ ∀ row, s.rows.find? sid = some row → PastRow t row

theorem Past.found (hs : Past sid t s) (hfollows : s.Follows e)
    (hrow : (s.found e).find? sid = some row) : PastRow t row := by
  intro t' ht'
  have hle := hs.1
  rcases found_old hfollows hrow with ⟨-, -, hnone⟩ | ⟨old, hold, -, -, haside, hgrew | ⟨t'', hnew, hlt, -⟩⟩
  · simp [hnone] at ht'
  · rw [haside]
    exact hs.2 old hold t' (hgrew ▸ ht')
  · left
    rw [hnew] at ht'
    obtain rfl := Option.some.inj ht'
    omega

theorem Past.scan (hs : Past sid t s) (hfollows : s.Follows e) : Past sid t (s.scan e) := by
  constructor
  · have := hs.1
    have := hfollows.later
    show t ≤ e.now
    omega
  · intro row hrow
    obtain ⟨found, hfound, -, hsame⟩ := scan_row hrow
    exact (hs.found hfollows hfound).sameBut hsame

/-- What proves a link of the session is a later growth. -/
theorem Past.proves (hs : Past sid t s) (hfollows : s.Follows e) (h : s.Proves e sid row p cwd) :
    ∃ t', row.grewAt = some t' ∧ t < t' := by
  have hrow := h.isRow
  rw [find?_retired] at hrow
  obtain ⟨found, hfound, rfl⟩ := Option.map_eq_some_iff.mp hrow
  have hretire : Row.SameBut found (found.retire (s.table e) (s.moved e sid) sid) :=
    Row.retire_sameBut
  have hpast := (hs.found hfollows hfound).sameBut hretire
  have hgrows := h.grows
  simp only [grows, Bool.and_eq_true, Row.lingers, Option.any_eq_true] at hgrows
  obtain ⟨-, t', ht', -⟩ := hgrows
  refine ⟨t', ht', ?_⟩
  rcases hpast t' ht' with hlater | ⟨rfl, haside⟩
  · exact hlater
  · have husable := h.usable
    simp [Row.usable, haside, ht'] at husable

/-- A row whose process a fresh proof takes has no fresh proof of its own: the two rows are
in one group, since the process serves both. -/
theorem not_proves_of_taken {row' : Row} {q : Proc} (hs : s.Placed) (hfollows : s.Follows e)
    (hclean : s.Unreplaced e) (hrow : (s.retired e).find? sid = some old)
    (hproof : old.provedPid = some proof) (hother : other ≠ sid)
    (htaken : s.Proves e other row' p proof.2) (hpid : p.pid = proof.1) :
    ¬s.Proves e sid row q cwd := by
  intro h
  obtain rfl := Option.some.inj (hrow.symm.trans h.isRow)
  obtain ⟨hcwd, p', hp', hserves⟩ := hs.retired hfollows hclean hrow hproof
  obtain rfl := Option.some.inj (hcwd.symm.trans h.isDir)
  obtain ⟨hmem', hpid'⟩ := ProcTable.byPid_eq_some.mp hp'
  obtain ⟨hmem, -, hserves', hhelper, hshot, hdir⟩ := mem_growthCandidates.mp htaken.candidate
  obtain rfl := ProcTable.eq_of_pid hmem hmem' (hpid.trans hpid'.symm)
  apply hother
  apply h.sole other row' htaken.isRow htaken.isDir htaken.grows htaken.usable
  by_cases hagent : row'.agent = old.agent
  · exact .inl hagent
  · right
    simp only [sharedCwd, List.any_eq_true]
    exact ⟨p, hmem, by
      simp [Proc.unclassified, Proc.agent_of_serves hserves' hserves hagent, hhelper, hshot, hdir]⟩

/-- A write that the scan sets aside proves no link in it. -/
theorem SetsAside.not_proves (h : s.SetsAside e sid t) (hs : s.Placed) (hfollows : s.Follows e)
    (hclean : s.Unreplaced e) : ¬s.Proves e sid row p cwd := by
  intro hproves
  obtain ⟨found, hfound, ht, hcause⟩ := h
  have hrow : (s.retired e).find? sid = some (found.retire (s.table e) (s.moved e sid) sid) := by
    rw [find?_retired, hfound, Option.map_some]
  obtain rfl := Option.some.inj (hrow.symm.trans hproves.isRow)
  have hunused : ¬(s.moved e sid = true ∨ nativeObservation (s.table e) sid found = true) := by
    intro hgone
    have haside := Row.retire_aside hgone
    have husable := hproves.usable
    simp [Row.usable, haside, Row.retire_sameBut.grewAt] at husable
  rcases hcause with hrefuted | howned | hmoved | ⟨proof, old, hold, hproof, other, hne, row', q, htaken, hpid⟩
  · exact hunused (.inr (by simp [nativeObservation, ht, hrefuted]))
  · exact hunused (.inr (by simp [nativeObservation, ht, howned]))
  · exact hunused (.inl hmoved)
  · exact not_proves_of_taken hs hfollows hclean hold hproof hne htaken hpid hproves

/-- A write that the scan sets aside proves no link after it. -/
theorem SetsAside.past (h : s.SetsAside e sid t) (htimely : s.Timely) (hs : s.Placed)
    (hfollows : s.Follows e) (hclean : s.Unreplaced e) : Past sid t (s.scan e) := by
  have hnot : ∀ row p cwd, ¬s.Proves e sid row p cwd := by
    intro row p cwd
    exact h.not_proves hs hfollows hclean
  obtain ⟨found, hfound, ht, hcause⟩ := h
  constructor
  · exact htimely.found hfollows hfound ht
  intro row hrow t' ht'
  obtain ⟨found', hfound', hretired, hsame⟩ := scan_row hrow
  obtain rfl := Option.some.inj (hfound.symm.trans hfound')
  have hretire : Row.SameBut found (found.retire (s.table e) (s.moved e sid) sid) :=
    Row.retire_sameBut
  obtain rfl : t = t' := by
    rw [hsame.grewAt, ht] at ht'
    exact Option.some.inj ht'
  refine .inr ⟨rfl, ?_⟩
  rw [scan, find?_proveByGrowth, hretired, Option.map_some] at hrow
  obtain rfl := Option.some.inj hrow
  have hsameBut : Row.SameBut (found.retire (s.table e) (s.moved e sid) sid)
      (e.order.foldl (s.bankGroup e sid) (found.retire (s.table e) (s.moved e sid) sid)) :=
    groups_sameBut
  have hgroups := hsameBut.aside
  have hkeep (hgone : s.moved e sid = true ∨ nativeObservation (s.table e) sid found = true) :
      (e.order.foldl (s.bankGroup e sid)
        (found.retire (s.table e) (s.moved e sid) sid)).invalidatedGrowth = some t := by
    have := Row.retire_aside hgone
    have := hretire.grewAt
    grind
  rcases hcause with hrefuted | howned | hmoved | ⟨proof, old, hold, hproof, other, hne, row', q, htaken, hpid⟩
  · exact hkeep (.inr (by simp [nativeObservation, ht, hrefuted]))
  · exact hkeep (.inr (by simp [nativeObservation, ht, howned]))
  · exact hkeep (.inl hmoved)
  · obtain rfl := Option.some.inj (hretired.symm.trans hold)
    rw [groups_aside (show _ = some (proof.1, proof.2) from hproof), hretire.grewAt, ht]
    · intro key hkey pid hbank
      obtain ⟨row₁, p₁, hproves, -⟩ := bankOf_eq_some hbank
      exact hnot row₁ p₁ key.2 hproves
    · obtain ⟨key, hkey, hbank, hdir⟩ := htaken.banks hfollows
      exact ⟨key, hkey, other, hpid ▸ hbank, hdir⟩

/-! ## the claim -/

/-- **A growth proof lives as long as what proved it.** In every run whose scans find no
other process under the pid of a proof that passes their checks, each row's proof was made
by one scan of the run, from the only usable write of its directory and the only process
there that no other session owned; that process still has the pid, in that directory, and
no record gives it to another session; and a write that a scan sets aside proves no link in
that scan nor in a later one, where only later growth does. -/
theorem proof_stands (h : Run CleanStep empty es s) :
    (∀ sid row proof, s.rows.find? sid = some row → row.provedPid = some proof →
      Stands es s sid proof) ∧
    ∀ pre e post u sid t, es = pre ++ e :: post → Run Step empty pre u → u.SetsAside e sid t →
      (∀ row p cwd, ¬u.Proves e sid row p cwd) ∧
      ∀ mid e' rest w row p cwd, post = mid ++ e' :: rest → Run Step (u.scan e) mid w →
        w.Proves e' sid row p cwd → ∃ t', row.grewAt = some t' ∧ t < t' := by
  constructor
  · exact run_stands h
  rintro pre e post u sid t rfl hu haside
  obtain ⟨u', hpre, hrest⟩ := Run.append_iff.mp h
  obtain ⟨v, ⟨⟨hfollows, rfl⟩, hclean⟩, hpost⟩ := Run.cons_iff.mp hrest
  obtain rfl : u = u' := (run_eq hu).trans (run_eq (run_clean hpre).1).symm
  obtain ⟨-, htimely, hplaced⟩ := run_clean hpre
  constructor
  · intro row p cwd
    exact haside.not_proves hplaced hfollows hclean
  rintro mid e' rest w row p cwd rfl hw hproves
  obtain ⟨w', hmid, hlast⟩ := Run.append_iff.mp hpost
  obtain ⟨x, ⟨⟨hfollows', -⟩, -⟩, -⟩ := Run.cons_iff.mp hlast
  have hmid' : Run Step (u.scan e) mid w' := hmid.mono fun s e t hstep => hstep.1
  obtain rfl : w = w' := (run_eq hw).trans (run_eq hmid').symm
  have hpast : Past sid t w := by
    apply hmid'.kept (P := Past sid t) (Q := fun _ => True)
    · rintro s e t - ⟨hfollows, rfl⟩ hs
      exact hs.scan hfollows
    · simp
    · exact haside.past htimely hplaced hfollows hclean
  exact hpast.proves hfollows' hproves

/-- A plain `claude` in `/w`, started at `birth`. -/
def plain (birth : Nat) : Proc := { Proc.plain 7 .claude with birth, tty := true, rank := 1 }

/-- A scan that finds that process and the session `a`. -/
def plainScan (now birth : Nat) (grew : Option Nat) (order : List (Option Agent × Dir)) : Scan where
  now := now
  procs := ⟨[plain birth], by simp⟩
  seen := ⟨[("a", ⟨"/a.jsonl", .claude, some "/w", some now, true, none, false, some 1, grew⟩)],
    by simp⟩
  jobHosts := fun _ _ => false
  order := order

instance : Decidable (s.Unreplaced e) := by
  unfold Unreplaced
  infer_instance

/-- The session grows at the second scan, and the third one comes a minute later. -/
def growsThenIdles (birth : Nat) : List Scan :=
  [plainScan 1 1 none [], plainScan 2 1 (some 2) [(some .claude, "/w")],
    plainScan (3 + growLinger) birth none []]

theorem proof_stands_idle :
    Stands (growsThenIdles 1) ((growsThenIdles 1).foldl scan empty) "a" (7, "/w") := by
  have hrun : Run CleanStep empty (growsThenIdles 1) ((growsThenIdles 1).foldl scan empty) := by
    apply Run.cons ⟨⟨by decide +kernel, rfl⟩, by decide +kernel⟩
    apply Run.cons ⟨⟨by decide +kernel, rfl⟩, by decide +kernel⟩
    apply Run.cons ⟨⟨by decide +kernel, rfl⟩, by decide +kernel⟩
    exact .nil _
  have hproof : (((growsThenIdles 1).foldl scan empty).rows.find? "a").bind (·.provedPid) =
      some (7, "/w") := by decide +kernel
  obtain ⟨row, hrow, hproof⟩ := Option.bind_eq_some_iff.mp hproof
  exact (proof_stands hrun).1 "a" row (7, "/w") hrow hproof

/-- A session's process exits, and another one in the same directory is given its pid: the
session's proof names that one. -/
theorem proof_outlives_process :
    ∃ es s sid row proof, Run Step empty es s ∧ s.rows.find? sid = some row ∧
      row.provedPid = some proof ∧ ¬Stands es s sid proof := by
  have hrun : Run Step empty (growsThenIdles 2) ((growsThenIdles 2).foldl scan empty) := by
    apply Run.cons ⟨by decide +kernel, rfl⟩
    apply Run.cons ⟨by decide +kernel, rfl⟩
    apply Run.cons ⟨by decide +kernel, rfl⟩
    exact .nil _
  have hproof : (((growsThenIdles 2).foldl scan empty).rows.find? "a").bind (·.provedPid) =
      some (7, "/w") := by decide +kernel
  obtain ⟨row, hrow, hproof⟩ := Option.bind_eq_some_iff.mp hproof
  refine ⟨growsThenIdles 2, _, "a", row, (7, "/w"), hrun, hrow, hproof, ?_⟩
  rintro ⟨pre, e, post, u, row, p, q, hes, hu, hproves, -, hq, hbirth, -⟩
  obtain rfl := run_eq hu
  have hrow := hproves.isRow
  have hp := (mem_growthCandidates.mp hproves.candidate).1
  have hlate : ∀ q ∈ ((growsThenIdles 2).foldl scan empty).procs.byPid 7, q.birth = 2 := by decide +kernel
  have hq2 := hlate q hq
  -- Only the second scan sees growth, and the process it finds is the first one.
  match pre, hes with
  | [], hes =>
    obtain ⟨rfl, -⟩ := List.cons.inj hes
    have hnone : ∀ row ∈ (empty.retired (plainScan 1 1 none [])).find? "a",
        empty.grows (plainScan 1 1 none []) "a" row = false := by decide +kernel
    have := hproves.grows.symm.trans (hnone row hrow)
    cases this
  | [e₁], hes =>
    obtain ⟨rfl, hes₁⟩ := List.cons.inj hes
    obtain ⟨rfl, -⟩ := List.cons.inj hes₁
    have hfirst : ∀ p ∈ ((empty.scan (plainScan 1 1 none [])).table
        (plainScan 2 1 (some 2) [(some .claude, "/w")])).procs, p.birth = 1 := by decide +kernel
    have := hfirst p hp
    omega
  | [e₁, e₂], hes =>
    obtain ⟨rfl, hes₁⟩ := List.cons.inj hes
    obtain ⟨rfl, hes₂⟩ := List.cons.inj hes₁
    obtain ⟨rfl, -⟩ := List.cons.inj hes₂
    have hnone : ∀ row ∈ (((empty.scan (plainScan 1 1 none [])).scan
        (plainScan 2 1 (some 2) [(some .claude, "/w")])).retired
          (plainScan (3 + growLinger) 2 none [])).find? "a",
        ((empty.scan (plainScan 1 1 none [])).scan
          (plainScan 2 1 (some 2) [(some .claude, "/w")])).grows
            (plainScan (3 + growLinger) 2 none []) "a" row = false := by decide +kernel
    have := hproves.grows.symm.trans (hnone row hrow)
    cases this
  | e₁ :: e₂ :: e₃ :: pre, hes =>
    have := congrArg List.length hes
    simp [growsThenIdles] at this

end Index

end ClaudeReplay.Linking
