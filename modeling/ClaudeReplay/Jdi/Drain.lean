import ClaudeReplay.Jdi.Backlog
import Mathlib.Data.List.Nodup

/-!
# ClaudeReplay.Jdi.Drain

What becomes of the follow-ups of a session: where none is lost, and none is taken for done
that no turn has seen.

An `add` that lists the directories before another one has created its file picks the same
number, and one of the two texts is gone. A file read before it is filled is an item without
its text, and moves with the rest all the same. `Backlog.Clear` says of a step that it does
neither, and `backlog_kept` is what holds of the runs whose steps all do so;
`backlog_lost` has runs that do not.
-/

namespace ClaudeReplay.Jdi

open Lib

/-! ## names -/

/-- What digits, the highest first, stand for. -/
def value : List Nat → Nat
  | [] => 0
  | d :: ds => d * 10 ^ ds.length + value ds

theorem value_lt {ds : List Nat} (h : ∀ d ∈ ds, d < 10) : value ds < 10 ^ ds.length := by
  induction ds with
  | nil => simp [value]
  | cons d ds ih =>
    have hrest := ih fun e he => h e (.tail d he)
    have hd : d + 1 ≤ 10 := h d (.head ds)
    calc value (d :: ds) < d * 10 ^ ds.length + 10 ^ ds.length := by
          rw [value]
          omega
      _ = (d + 1) * 10 ^ ds.length := by ring
      _ ≤ 10 * 10 ^ ds.length := Nat.mul_le_mul_right _ hd
      _ = 10 ^ (d :: ds).length := by rw [List.length_cons, pow_succ, Nat.mul_comm]

/-- Numbers with as many digits compare as their names do. -/
theorem value_le {ds es : List Nat} (hd : ∀ d ∈ ds, d < 10) (he : ∀ e ∈ es, e < 10)
    (hlen : ds.length = es.length) (h : ds ≤ es) : value ds ≤ value es := by
  induction ds generalizing es with
  | nil => simp [value]
  | cons d ds ih =>
    cases es with
    | nil => simp at hlen
    | cons e es =>
      have hrest : ds.length = es.length := by simpa using hlen
      have h : d < e ∨ d = e ∧ ds ≤ es := by
        obtain hlt | heq := le_iff_lt_or_eq.mp h
        · exact (List.cons_lt_cons_iff.mp hlt).imp_right fun hsame => ⟨hsame.1, le_of_lt hsame.2⟩
        · obtain ⟨hd, hds⟩ := List.cons.inj heq
          exact .inr ⟨hd, le_of_eq hds⟩
      rw [value, value, hrest]
      obtain hlt | ⟨rfl, hle⟩ := h
      · have hlow := value_lt fun x hx => hd x (.tail d hx)
        rw [hrest] at hlow
        have hmul : (d + 1) * 10 ^ es.length ≤ e * 10 ^ es.length := Nat.mul_le_mul_right _ hlt
        have hsplit : (d + 1) * 10 ^ es.length = d * 10 ^ es.length + 10 ^ es.length := by ring
        omega
      · have hle := ih (fun x hx => hd x (.tail d hx)) (fun x hx => he x (.tail d hx)) hrest hle
        omega

theorem value_name (seq : Nat) : value (name seq) = seq := by
  have hpad (k : Nat) (ds : List Nat) : value (List.replicate k 0 ++ ds) = value ds := by
    induction k with
    | zero => rfl
    | succ k ih => simpa [List.replicate_succ, value] using ih
  have hrev (ds : List Nat) : value ds.reverse = Nat.ofDigits 10 ds := by
    have hsnoc (es : List Nat) (d : Nat) : value (es ++ [d]) = value es * 10 + d := by
      induction es with
      | nil => simp [value]
      | cons e es ih =>
        rw [List.cons_append, value, ih, value, List.length_append, List.length_singleton]
        ring
    induction ds with
    | nil => rfl
    | cons d ds ih => rw [List.reverse_cons, hsnoc, ih, Nat.ofDigits_cons]; ring
  rw [name, hpad, hrev, Nat.ofDigits_digits]

theorem name_lt_ten {seq d : Nat} (h : d ∈ name seq) : d < 10 := by
  rw [name, List.mem_append, List.mem_reverse] at h
  obtain h | h := h
  · rw [List.eq_of_mem_replicate h]
    omega
  · exact Nat.digits_lt_base (by omega) h

theorem le_of_name_le {m n : Nat} (hlen : (name m).length = (name n).length)
    (h : name m ≤ name n) : m ≤ n := by
  have hle := value_le (fun _ => name_lt_ten) (fun _ => name_lt_ten) hlen h
  rwa [value_name, value_name] at hle

/-! ## what is claimed -/

/-- The text of an item was in the prompt of a turn that came back cleanly, and that turn or a
later one of the same drain was done. -/
def Confirmed (turns : List Turn) (x : Nat × String) : Prop :=
  ∃ pre t post t', turns = pre ++ t :: post ∧ t' ∈ t :: post ∧ t.clean = true ∧ x ∈ t.items ∧
    t'.drain = t.drain ∧ t'.done = true

theorem Confirmed.append {turns : List Turn} {x : Nat × String} (h : Confirmed turns x)
    (more : List Turn) : Confirmed (turns ++ more) x := by
  obtain ⟨pre, t, post, t', rfl, ht', hrest⟩ := h
  refine ⟨pre, t, post ++ more, t', by simp, ?_, hrest⟩
  rw [← List.cons_append]
  exact List.mem_append_left _ ht'

namespace Backlog

variable {s t : Backlog} {e : Event} {w : Worker}

/-- Every `add` that returned has an item of its own, with its text, in one directory. -/
def Stored (s : Backlog) : Prop :=
  (s.added.map (·.1)).Nodup ∧
    ∀ x ∈ s.added, ∃ e, s.items.filter (·.ino = x.1) = [e] ∧ e.text = x.2

/-- What is in `drained/` was in a prompt and done. -/
def ConfirmedOnly (s : Backlog) : Prop :=
  ∀ e ∈ s.items, e.queue = .drained → Confirmed s.turns (e.ino, e.full)

/-- The items claimed are in the order in which they were added. -/
def InOrder (s : Backlog) : Prop :=
  ∀ w, s.worker = some w → (w.backlog.map (·.1)).Pairwise (· < ·)

/-- What a step must be for nothing to be lost, or confirmed unread. -/
def Clear (s : Backlog) : Event → Prop
  -- no file was created since the `add` listed the directories
  | .create p => ∀ text max, s.adds p = some (.listing text [] max) → ∀ e ∈ s.items, e.seq ≤ max
  -- a claim that fails at the start of a worker leaves nothing in `draining/` to confirm
  | .claimFails | .listDraining false =>
    ∀ w, s.worker = some w → w.place = .claiming true ∨ w.place = .moving true [] →
      Item.listed s.items .draining = []
  -- the numbers claimed together have as many digits
  | .listDraining true =>
    ∀ e ∈ Item.listed s.items .draining, ∀ e' ∈ Item.listed s.items .draining,
      (name e.seq).length = (name e'.seq).length
  -- an item is read, and not before its `add` has filled it
  | .read ok =>
    ok = true ∧ ∀ w first seq rest read, s.worker = some w →
      w.place = .reading first (seq :: rest) read →
      ∀ e ∈ Item.listed s.items .draining, e.seq = seq → e.text = e.full
  | _ => True

/-- A step that meets the condition. -/
def ClearStep (s : Backlog) (e : Event) (t : Backlog) : Prop := s.Clear e ∧ s.step e = some t

/-! ## the files -/

/-- **The file invariant.** -/
structure FilesOk (s : Backlog) : Prop where
  ino : (s.items.map (·.ino)).Nodup
  /-- numbers grow as files are created -/
  order : ∀ e ∈ s.items, ∀ e' ∈ s.items, e.ino < e'.ino → e.seq < e'.seq
  lt : ∀ e ∈ s.items, e.ino < s.next
  /-- a file that is open is there, and open once -/
  filling : ∀ p text i, s.adds p = some (.filling text i) → ∃ e ∈ s.items, e.ino = i ∧ e.full = text
  apart : ∀ p q text text' i,
    s.adds p = some (.filling text i) → s.adds q = some (.filling text' i) → p = q
  /-- a file written is there, with its text, and no longer open -/
  added : ∀ x ∈ s.added, ∃ e ∈ s.items, e.ino = x.1 ∧ e.full = x.2 ∧ e.text = x.2
  closed : ∀ x ∈ s.added, ∀ p text, s.adds p ≠ some (.filling text x.1)
  own : (s.added.map (·.1)).Nodup

namespace FilesOk

theorem eq_of_ino {a b : Item} (h : s.FilesOk) (ha : a ∈ s.items) (hb : b ∈ s.items)
    (hab : a.ino = b.ino) : a = b :=
  List.inj_on_of_nodup_map h.ino ha hb hab

theorem eq_of_seq {a b : Item} (h : s.FilesOk) (ha : a ∈ s.items) (hb : b ∈ s.items)
    (hab : a.seq = b.seq) : a = b := by
  obtain hlt | heq | hlt := Nat.lt_trichotomy a.ino b.ino
  · have := h.order a ha b hb hlt
    omega
  · exact h.eq_of_ino ha hb heq
  · have := h.order b hb a ha hlt
    omega

theorem ino_lt {a b : Item} (h : s.FilesOk) (ha : a ∈ s.items) (hb : b ∈ s.items)
    (hab : a.seq < b.seq) : a.ino < b.ino := by
  obtain hlt | heq | hlt := Nat.lt_trichotomy a.ino b.ino
  · exact hlt
  · obtain rfl := h.eq_of_ino ha hb heq
    omega
  · have := h.order b hb a ha hlt
    omega

theorem empty : Backlog.empty.FilesOk := by
  constructor <;> simp [Backlog.empty]

/-- The worker has no part in it. -/
theorem congr (h : s.FilesOk) (hitems : t.items = s.items) (hnext : t.next = s.next)
    (hadds : t.adds = s.adds) (hadded : t.added = s.added) : t.FilesOk := by
  obtain ⟨items, next, adds, added, worker, drain, turns⟩ := t
  obtain rfl : items = s.items := hitems
  obtain rfl : next = s.next := hnext
  obtain rfl : adds = s.adds := hadds
  obtain rfl : added = s.added := hadded
  exact ⟨h.ino, h.order, h.lt, h.filling, h.apart, h.added, h.closed, h.own⟩

/-- Files may change their directory. -/
theorem map {f : Item → Item} (h : s.FilesOk) (hino : ∀ e, (f e).ino = e.ino)
    (hseq : ∀ e, (f e).seq = e.seq) (htext : ∀ e, (f e).text = e.text)
    (hfull : ∀ e, (f e).full = e.full) : { s with items := s.items.map f : Backlog }.FilesOk := by
  constructor
  · have hmap : (s.items.map f).map (·.ino) = s.items.map (·.ino) := by simp [hino]
    exact hmap ▸ h.ino
  · simp only [List.forall_mem_map, hino, hseq]
    exact h.order
  · simp only [List.forall_mem_map, hino]
    exact h.lt
  · intro p text i hp
    obtain ⟨e, he, hi⟩ := h.filling p text i hp
    exact ⟨f e, List.mem_map_of_mem he, by rwa [hino, hfull]⟩
  · exact h.apart
  · intro x hx
    obtain ⟨e, he, hi⟩ := h.added x hx
    exact ⟨f e, List.mem_map_of_mem he, by rwa [hino, hfull, htext]⟩
  · exact h.closed
  · exact h.own

/-- A file is moved over nothing. -/
theorem move_eq (h : s.FilesOk) {src dst : Queue} (hne : src ≠ dst) (seq : Nat) :
    Item.move s.items src dst seq = s.items.map fun e =>
      if e.queue = src ∧ e.seq = seq then { e with queue := dst } else e := by
  rw [Item.move]
  split
  · next hany =>
    obtain ⟨a, ha, hsrc⟩ := List.any_eq_true.mp hany
    simp only [Bool.and_eq_true, decide_eq_true_eq] at hsrc
    rw [List.filter_eq_self.mpr]
    intro b hb
    simp only [Bool.not_eq_true', Bool.and_eq_false_iff, decide_eq_false_iff_not]
    rw [← not_and_or]
    rintro ⟨hdst, hseq⟩
    obtain rfl := h.eq_of_seq ha hb (hsrc.2.trans hseq.symm)
    exact hne (hsrc.1.symm.trans hdst)
  · next hany =>
    rw [Bool.not_eq_true, List.any_eq_false] at hany
    refine (List.map_id _).symm.trans (List.map_congr_left fun e he => ?_)
    have hnot := hany e he
    simp only [Bool.and_eq_true, decide_eq_true_eq] at hnot
    rw [if_neg hnot, id]

theorem move (h : s.FilesOk) {src dst : Queue} (hne : src ≠ dst) (seq : Nat) :
    { s with items := Item.move s.items src dst seq : Backlog }.FilesOk := by
  rw [h.move_eq hne]
  refine h.map ?_ ?_ ?_ ?_ <;> intro e <;> split <;> rfl

/-- An `add` moves to where it has no file open. -/
theorem setAdd {p : Nat} {x : Option Add} (h : s.FilesOk)
    (hx : ∀ text i, x ≠ some (.filling text i)) : (s.setAdd p x).FilesOk := by
  have hold {q : Nat} {text : String} {i : Nat}
      (hq : (s.setAdd p x).adds q = some (.filling text i)) :
      s.adds q = some (.filling text i) := by
    simp only [Backlog.setAdd, Function.update_apply] at hq
    split at hq
    · exact absurd hq (hx text i)
    · exact hq
  exact ⟨h.ino, h.order, h.lt, fun q text i hq => h.filling q text i (hold hq),
    fun q r text text' i hq hr => h.apart q r text text' i (hold hq) (hold hr), h.added,
    fun x hx q text hq => h.closed x hx q text (hold hq), h.own⟩

/-- A file is created under a number above all others. -/
theorem create {p seq : Nat} {text : String} (h : s.FilesOk) (hseq : ∀ e ∈ s.items, e.seq < seq) :
    { s.setAdd p (some (.filling text (Item.opened s.items seq s.next))) with
      items := Item.create s.items seq s.next text, next := s.next + 1 : Backlog }.FilesOk := by
  have hnone (e : Item) (he : e ∈ s.items) : ¬(e.queue = .pending ∧ e.seq = seq) := by
    rintro ⟨-, rfl⟩
    exact absurd (hseq e he) (Nat.lt_irrefl _)
  have hopened : Item.opened s.items seq s.next = s.next := by
    have hfind : (s.items.find? fun e => e.queue = .pending && e.seq = seq) = none := by
      rw [List.find?_eq_none]
      intro e he
      simpa using hnone e he
    rw [Item.opened, hfind]
  have hcreate : Item.create s.items seq s.next text =
      s.items ++ [⟨.pending, seq, s.next, "", text⟩] := by
    rw [Item.create, if_neg]
    rw [List.any_eq_true]
    rintro ⟨e, he, hand⟩
    exact hnone e he (by simpa using hand)
  rw [hopened, hcreate]
  have hadds {q : Nat} {text' : String} {i : Nat}
      (hq : (s.setAdd p (some (.filling text s.next))).adds q = some (.filling text' i)) :
      q = p ∧ text' = text ∧ i = s.next ∨ s.adds q = some (.filling text' i) := by
    simp only [Backlog.setAdd, Function.update_apply] at hq
    split at hq
    · obtain ⟨rfl, rfl⟩ := Add.filling.inj (Option.some.inj hq)
      exact .inl ⟨‹_›, rfl, rfl⟩
    · exact .inr hq
  have hnew {q i : Nat} {text' : String} (hq : s.adds q = some (.filling text' i)) :
      i < s.next := by
    obtain ⟨e, he, rfl, -⟩ := h.filling q text' i hq
    exact h.lt e he
  constructor
  · rw [List.map_append, List.nodup_append]
    refine ⟨h.ino, by simp, fun i hi j hj => ?_⟩
    obtain ⟨e, he, rfl⟩ := List.mem_map.mp hi
    obtain rfl : j = s.next := by simpa using hj
    exact Nat.ne_of_lt (h.lt e he)
  · intro a ha b hb hlt
    obtain ha | ha := List.mem_append.mp ha
    · obtain hb | hb := List.mem_append.mp hb
      · exact h.order a ha b hb hlt
      · obtain rfl := List.mem_singleton.mp hb
        exact hseq a ha
    · obtain rfl := List.mem_singleton.mp ha
      have hlt : s.next < b.ino := hlt
      obtain hb | hb := List.mem_append.mp hb
      · have := h.lt b hb
        omega
      · obtain rfl := List.mem_singleton.mp hb
        exact absurd hlt (Nat.lt_irrefl _)
  · intro e he
    obtain he | he := List.mem_append.mp he
    · exact Nat.lt_succ_of_lt (h.lt e he)
    · obtain rfl := List.mem_singleton.mp he
      exact Nat.lt_succ_self _
  · intro q text' i hq
    obtain ⟨rfl, rfl, rfl⟩ | hq := hadds hq
    · exact ⟨_, List.mem_append_right _ (.head _), rfl, rfl⟩
    · obtain ⟨e, he, hi⟩ := h.filling q text' i hq
      exact ⟨e, List.mem_append_left _ he, hi⟩
  · intro q r text' text'' i hq hr
    obtain ⟨rfl, -, rfl⟩ | hq := hadds hq
    · obtain ⟨rfl, -, -⟩ | hr := hadds hr
      · rfl
      · exact absurd (hnew hr) (Nat.lt_irrefl _)
    · obtain ⟨-, -, rfl⟩ | hr := hadds hr
      · exact absurd (hnew hq) (Nat.lt_irrefl _)
      · exact h.apart q r text' text'' i hq hr
  · intro x hx
    obtain ⟨e, he, hi⟩ := h.added x hx
    exact ⟨e, List.mem_append_left _ he, hi⟩
  · intro x hx q text' hq
    obtain ⟨-, -, hi⟩ | hq := hadds hq
    · obtain ⟨e, he, hino, -⟩ := h.added x hx
      have := h.lt e he
      omega
    · exact h.closed x hx q text' hq
  · exact h.own

/-- A file is written and closed. -/
theorem fill {p ino : Nat} {text : String} (h : s.FilesOk)
    (hp : s.adds p = some (.filling text ino)) :
    { s.setAdd p none with
      items := Item.fill s.items ino text, added := s.added ++ [(ino, text)] : Backlog }.FilesOk := by
  obtain ⟨e₀, he₀, hino₀, hfull₀⟩ := h.filling p text ino hp
  have hkeys (e : Item) : (if e.ino = ino then { e with text := text } else e).ino = e.ino ∧
      (if e.ino = ino then { e with text := text } else e).seq = e.seq ∧
      (if e.ino = ino then { e with text := text } else e).full = e.full := by
    split <;> exact ⟨rfl, rfl, rfl⟩
  have hadds {q : Nat} {text' : String} {i : Nat}
      (hq : (s.setAdd p none).adds q = some (.filling text' i)) :
      q ≠ p ∧ s.adds q = some (.filling text' i) := by
    simp only [Backlog.setAdd, Function.update_apply] at hq
    split at hq
    · cases hq
    · exact ⟨‹_›, hq⟩
  constructor
  · have hmap : (Item.fill s.items ino text).map (·.ino) = s.items.map (·.ino) := by
      simp only [Item.fill, List.map_map]
      exact List.map_congr_left fun e _ => (hkeys e).1
    exact hmap ▸ h.ino
  · simp only [Item.fill, List.forall_mem_map, hkeys]
    exact h.order
  · simp only [Item.fill, List.forall_mem_map, hkeys]
    exact h.lt
  · intro q text' i hq
    obtain ⟨e, he, hi⟩ := h.filling q text' i (hadds hq).2
    exact ⟨_, List.mem_map_of_mem he, by rwa [(hkeys e).1, (hkeys e).2.2]⟩
  · exact fun q r text' text'' i hq hr => h.apart q r text' text'' i (hadds hq).2 (hadds hr).2
  · intro x hx
    obtain hx | hx := List.mem_append.mp hx
    · obtain ⟨e, he, hino, hfull, htext⟩ := h.added x hx
      have hne : e.ino ≠ ino := by
        rintro heq
        exact h.closed x hx p text (by rw [hp, ← hino, heq])
      exact ⟨e, List.mem_map.mpr ⟨e, he, if_neg hne⟩, hino, hfull, htext⟩
    · obtain rfl := List.mem_singleton.mp hx
      refine ⟨{ e₀ with text := text }, List.mem_map.mpr ⟨e₀, he₀, if_pos hino₀⟩, ?_⟩
      exact ⟨hino₀, hfull₀, rfl⟩
  · intro x hx q text' hq
    obtain ⟨hqp, hq⟩ := hadds hq
    obtain hx | hx := List.mem_append.mp hx
    · exact h.closed x hx q text' hq
    · obtain rfl := List.mem_singleton.mp hx
      exact hqp (h.apart q p text' text ino hq hp)
  · rw [List.map_append, List.nodup_append]
    refine ⟨h.own, by simp, fun i hi j hj => ?_⟩
    obtain ⟨x, hx, rfl⟩ := List.mem_map.mp hi
    obtain rfl : j = ino := by simpa using hj
    rintro rfl
    exact h.closed x hx p text hp

/-- The worker only moves files. -/
theorem work (h : s.FilesOk) (hs : s.work w e = some t) : t.FilesOk := by
  simp only [Backlog.work] at hs
  split at hs
  case h_3 =>
    have hmove := h.move (show Queue.pending ≠ .draining by decide)
    split at hs
    · obtain rfl := Option.some.inj hs
      split
      · exact (hmove _).congr rfl rfl rfl rfl
      · exact h.congr rfl rfl rfl rfl
    · cases hs
  case h_9 =>
    have hmove := h.move (show Queue.draining ≠ .drained by decide)
    split at hs
    · obtain rfl := Option.some.inj hs
      split
      · exact (hmove _).congr rfl rfl rfl rfl
      · exact h.congr rfl rfl rfl rfl
    · cases hs
  case h_4 | h_5 =>
    split at hs
    · exact Option.some.inj hs ▸ h.congr rfl rfl rfl rfl
    · exact Option.some.inj hs ▸ h.congr rfl rfl rfl rfl
  case h_12 => cases hs
  all_goals exact Option.some.inj hs ▸ h.congr rfl rfl rfl rfl

/-- **What one step keeps of the files.** -/
theorem step (h : s.FilesOk) (hclear : s.Clear e) (hs : s.step e = some t) : t.FilesOk := by
  cases e with
  | add | list =>
    simp only [Backlog.step] at hs
    split at hs
    · exact Option.some.inj hs ▸ h.setAdd nofun
    · cases hs
  | create p =>
    simp only [Backlog.step] at hs
    split at hs
    · next text max hp =>
      exact Option.some.inj hs ▸ h.create fun e he => Nat.lt_succ_of_le (hclear text max hp e he)
    · cases hs
  | fill p =>
    simp only [Backlog.step] at hs
    split at hs
    · next text ino hp => exact Option.some.inj hs ▸ h.fill hp
    · cases hs
  | abort p =>
    simp only [Backlog.step, Option.map_eq_some_iff] at hs
    obtain ⟨-, -, rfl⟩ := hs
    exact h.setAdd nofun
  | launch agent trigger =>
    simp only [Backlog.step] at hs
    split at hs
    · exact Option.some.inj hs ▸ h.congr rfl rfl rfl rfl
    · cases hs
  | _ =>
    simp only [Backlog.step, Option.bind_eq_some_iff] at hs
    obtain ⟨w, -, hs⟩ := hs
    exact h.work hs

end FilesOk

/-! ## the worker -/

/-- A worker that starts with a claim is a drain in its first mode. -/
def Begins (w : Worker) (first : Bool) : Prop :=
  first = true → w.fresh = false ∧ (w.agent = .claude → w.mode = .backlogDump)

/-- What the worker knows of `draining/`, by where it is. -/
def PlaceOk (s : Backlog) (w : Worker) : Prop :=
  match w.place with
  | .ready => w.draining = true →
    (∀ e ∈ s.items, e.queue = .draining → (e.ino, e.full) ∈ w.backlog) ∧ w.fresh = false ∧
      (w.agent = .claude → w.mode = .backlogDump ∨ w.mode = .backlogExecute ∧
        ∃ t ∈ s.turns, t.drain = s.drain ∧ t.clean = true ∧ t.items = w.backlog)
  | .claiming first | .moving first _ => Begins w first
  | .reading first rest read =>
    Begins w first ∧ rest.Pairwise (· < ·) ∧ (read.map (·.1)).Pairwise (· < ·) ∧
      ∀ e ∈ s.items, e.queue = .draining →
        (e.seq ∈ rest → ∀ x ∈ read, x.1 < e.ino) ∧ (e.seq ∉ rest → (e.ino, e.full) ∈ read)
  | .finalizing | .confirming _ =>
    ∀ e ∈ s.items, e.queue = .draining → Confirmed s.turns (e.ino, e.full)

/-- **The worker invariant.** -/
structure WorkerOk (s : Backlog) : Prop where
  drained : s.ConfirmedOnly
  handed : s.InOrder
  place : ∀ w, s.worker = some w → s.PlaceOk w

namespace WorkerOk

theorem empty : Backlog.empty.WorkerOk := ⟨nofun, nofun, nofun⟩

/-- What is pending has no part in it, nor what an item's text is so far. -/
theorem items {s t : Backlog} (h : s.WorkerOk) (hworker : t.worker = s.worker)
    (hdrain : t.drain = s.drain) (hturns : t.turns = s.turns)
    (hitems : ∀ e ∈ t.items, e.queue ≠ .pending → ∃ e' ∈ s.items,
      e'.queue = e.queue ∧ e'.seq = e.seq ∧ e'.ino = e.ino ∧ e'.full = e.full) : t.WorkerOk := by
  have hold {P : Item → Prop} {q : Queue} (hq : q ≠ .pending)
      (hP : ∀ a b : Item, a.seq = b.seq → a.ino = b.ino → a.full = b.full → P a → P b)
      (hs : ∀ e ∈ s.items, e.queue = q → P e) : ∀ e ∈ t.items, e.queue = q → P e := by
    rintro e he rfl
    obtain ⟨e', he', hqueue, hseq, hino, hfull⟩ := hitems e he hq
    exact hP e' e hseq hino hfull (hs e' he' hqueue)
  constructor
  · intro e he hq
    rw [hturns]
    refine hold (P := fun e => Confirmed s.turns (e.ino, e.full)) (by decide) ?_ h.drained e he hq
    intro a b _ hino hfull ha
    rwa [← hino, ← hfull]
  · intro w hw
    exact h.handed w (hworker ▸ hw)
  · intro w hw
    have hplace := h.place w (hworker ▸ hw)
    revert hplace
    simp only [PlaceOk, hturns, hdrain]
    cases w.place with
    | ready =>
      intro hready hdraining
      obtain ⟨hcovered, hrest⟩ := hready hdraining
      refine ⟨hold (P := fun e => (e.ino, e.full) ∈ w.backlog) (by decide) ?_ hcovered, hrest⟩
      intro a b _ hino hfull ha
      rwa [← hino, ← hfull]
    | claiming first | moving first rest => exact id
    | reading first rest read =>
      rintro ⟨hbegins, hrest, hread, hcovered⟩
      refine ⟨hbegins, hrest, hread, hold (P := fun e =>
        (e.seq ∈ rest → ∀ x ∈ read, x.1 < e.ino) ∧ (e.seq ∉ rest → (e.ino, e.full) ∈ read))
        (by decide) ?_ hcovered⟩
      intro a b hseq hino hfull ha
      rwa [← hseq, ← hino, ← hfull]
    | finalizing | confirming rest =>
      refine hold (P := fun e => Confirmed s.turns (e.ino, e.full)) (by decide) ?_
      intro a b _ hino hfull ha
      rwa [← hino, ← hfull]

/-- A worker starts. -/
theorem launch (h : s.WorkerOk) (agent : Agent) (trigger : Trigger) :
    { s with worker := some (started agent trigger), drain := s.drain + 1 : Backlog }.WorkerOk := by
  constructor
  · exact h.drained
  · intro w hw
    obtain rfl := Option.some.inj hw
    exact .nil
  · intro w hw
    obtain rfl := Option.some.inj hw
    cases agent <;> cases trigger <;>
      simp [PlaceOk, started, Agent.initialMode, Begins]

/-- The worker moves on to where it knows as much. -/
theorem goto {x : Place} (h : s.WorkerOk) (hw : s.worker = some w)
    (hplace : s.PlaceOk { w with place := x }) : (s.goto w x).WorkerOk := by
  constructor
  · exact h.drained
  · intro w' hw'
    obtain rfl := Option.some.inj hw'
    exact h.handed w hw
  · intro w' hw'
    obtain rfl := Option.some.inj hw'
    exact hplace

/-- A claim returns with all that is in `draining/`, or there is nothing to drain. -/
theorem hand {first : Bool} {items : List (Nat × String)} (h : s.WorkerOk)
    (hbegins : Begins w first) (hsorted : (items.map (·.1)).Pairwise (· < ·))
    (hall : first = true ∨ items ≠ [] →
      ∀ e ∈ s.items, e.queue = .draining → (e.ino, e.full) ∈ items) :
    (s.hand w first items).WorkerOk := by
  constructor
  · exact h.drained
  · intro w' hw'
    simp only [Backlog.hand, Worker.resumed] at hw'
    split at hw'
    · obtain rfl := Option.some.inj hw'
      exact hsorted
    · split at hw'
      · obtain rfl := Option.some.inj hw'
        exact hsorted
      · cases hw'
  · intro w' hw'
    simp only [Backlog.hand, Worker.resumed] at hw'
    split at hw'
    · next hfirst =>
      obtain rfl := Option.some.inj hw'
      obtain ⟨hfresh, hmode⟩ := hbegins hfirst
      exact fun _ => ⟨hall (.inl hfirst), hfresh, fun hc => .inl (hmode hc)⟩
    · split at hw'
      · next hne =>
        obtain rfl := Option.some.inj hw'
        refine fun _ => ⟨hall (.inr hne.1), rfl, fun hc => .inl ?_⟩
        have hc : w.agent = .claude := hc
        simp only [hc]
        rfl
      · cases hw'

/-- A turn of a drain that is done confirms what was claimed: a Claude drain is done in its
second mode only, which a clean turn of the first led to, and a clean turn of a Codex drain
carries the items itself. -/
theorem confirmed_of_done {te : TurnEnd} {x : Nat × String} (h : s.WorkerOk)
    (hw : s.worker = some w) (hready : w.place = .ready) (hdraining : w.draining = true)
    (hdone : w.agent.classify te w.turnMode = .done) (hx : x ∈ w.backlog) :
    Confirmed (s.turns ++ [w.turn s.drain te]) x := by
  have hplace := h.place w hw
  simp only [PlaceOk, hready] at hplace
  obtain ⟨-, hfresh, hmode⟩ := hplace hdraining
  have hturn : w.turnMode = w.mode := by simp [Worker.turnMode, hfresh]
  have hflag : (w.turn s.drain te).done = true := by simp [Worker.turn, hdone]
  cases hagent : w.agent with
  | claude =>
    obtain hdump | ⟨-, t, ht, hdrain, hclean, hitems⟩ := hmode hagent
    · rw [hturn, hagent, hdump] at hdone
      simp only [Agent.classify] at hdone
      split at hdone
      · cases hdone
      · grind
    · obtain ⟨pre, post, hturns⟩ := List.append_of_mem ht
      refine ⟨pre, t, post ++ [w.turn s.drain te], w.turn s.drain te, by simp [hturns], by simp,
        hclean, hitems ▸ hx, hdrain.symm, hflag⟩
  | codex =>
    refine ⟨s.turns, w.turn s.drain te, [], w.turn s.drain te, rfl, .head _, ?_, ?_, rfl, hflag⟩
    · rw [hagent] at hdone
      simp only [Agent.classify] at hdone
      grind [Worker.turn]
    · simpa [Worker.turn, hagent, Agent.promptItems] using hx

/-- A turn of a drain that leads to its second mode was clean, and held the items. -/
theorem dumped_of_advance {te : TurnEnd} {next : Mode} (h : s.WorkerOk)
    (hw : s.worker = some w) (hready : w.place = .ready) (hdraining : w.draining = true)
    (hadvance : w.agent.classify te w.turnMode = .advanceMode next) (hagent : w.agent = .claude) :
    next = .backlogExecute ∧ (w.turn s.drain te).clean = true ∧
      (w.turn s.drain te).items = w.backlog := by
  have hplace := h.place w hw
  simp only [PlaceOk, hready] at hplace
  obtain ⟨-, hfresh, hmode⟩ := hplace hdraining
  have hturn : w.turnMode = w.mode := by simp [Worker.turnMode, hfresh]
  rw [hturn, hagent] at hadvance
  simp only [Agent.classify] at hadvance
  split at hadvance
  · next hrc =>
    obtain hdump | ⟨hexecute, -⟩ := hmode hagent
    · rw [hdump] at hadvance
      refine ⟨(TurnOutcome.advanceMode.inj hadvance).symm, ?_, ?_⟩
      · simp [Worker.turn, hrc]
      · simp [Worker.turn, hagent, hdump, Agent.promptItems]
    · rw [hexecute] at hadvance
      grind
  · grind

theorem turn (h : s.WorkerOk) (hw : s.worker = some w) (hready : w.place = .ready)
    (te : TurnEnd) :
    { s with worker := w.turned te, turns := s.turns ++ [w.turn s.drain te] : Backlog }.WorkerOk := by
  have hplace := h.place w hw
  simp only [PlaceOk, hready] at hplace
  have hbacklog {w' : Worker} (hw' : w.turned te = some w') : w'.backlog = w.backlog := by
    simp only [Worker.turned] at hw'
    split at hw' <;> grind
  -- a turn that leaves the mode as it was leaves the drain as it was
  have hsame (hdraining : w.draining = true) :
      (∀ e ∈ s.items, e.queue = .draining → (e.ino, e.full) ∈ w.backlog) ∧ True ∧
        (w.agent = .claude → w.turnMode = .backlogDump ∨ w.turnMode = .backlogExecute ∧
          ∃ t ∈ s.turns ++ [w.turn s.drain te],
            t.drain = s.drain ∧ t.clean = true ∧ t.items = w.backlog) := by
    obtain ⟨hcovered, hfresh, hmode⟩ := hplace hdraining
    have hturn : w.turnMode = w.mode := by simp [Worker.turnMode, hfresh]
    refine ⟨hcovered, trivial, fun hagent => ?_⟩
    rw [hturn]
    obtain hdump | ⟨hexecute, t, ht, hrest⟩ := hmode hagent
    · exact .inl hdump
    · exact .inr ⟨hexecute, t, List.mem_append_left _ ht, hrest⟩
  constructor
  · exact fun e he hq => (h.drained e he hq).append _
  · intro w' hw'
    rw [hbacklog hw']
    exact h.handed w hw
  · intro w' hw'
    simp only [Worker.turned] at hw'
    split at hw'
    · next hdone =>
      obtain rfl := Option.some.inj hw'
      by_cases hdraining : w.draining = true
      · simp only [PlaceOk, hdraining, if_true]
        intro e he hq
        exact h.confirmed_of_done hw hready hdraining hdone ((hplace hdraining).1 e he hq)
      · simp only [PlaceOk, hdraining, Bool.false_eq_true, if_false]
        exact nofun
    · next next hadvance =>
      obtain rfl := Option.some.inj hw'
      simp only [PlaceOk, hready]
      intro hdraining
      refine ⟨(hplace hdraining).1, trivial, fun hagent => .inr ?_⟩
      obtain ⟨hnext, hclean, hitems⟩ :=
        h.dumped_of_advance hw hready hdraining hadvance hagent
      exact ⟨hnext, _, List.mem_append_right _ (.head _), rfl, hclean, hitems⟩
    · obtain rfl := Option.some.inj hw'
      simp only [PlaceOk, hready]
      exact hsame
    · cases hw'
    · cases hw'
    · split at hw'
      · obtain rfl := Option.some.inj hw'
        simp only [PlaceOk, hready]
        exact hsame
      · cases hw'

/-- A claim moves a file. -/
theorem claimMove {first : Bool} {rest : List Nat} (h : s.WorkerOk) (hfiles : s.FilesOk)
    (hw : s.worker = some w) (hplace : w.place = .moving first rest) (seq : Nat)
    (rest' : List Nat) :
    ({ s with items := Item.move s.items .pending .draining seq : Backlog }.goto w
      (.moving first rest')).WorkerOk := by
  constructor
  · intro e he hq
    have he : e ∈ Item.move s.items .pending .draining seq := he
    rw [hfiles.move_eq (by decide)] at he
    obtain ⟨e', he', rfl⟩ := List.mem_map.mp he
    split at hq
    · cases hq
    · next hnot =>
      rw [if_neg hnot]
      exact h.drained e' he' hq
  · intro w' hw'
    obtain rfl := Option.some.inj hw'
    exact h.handed w hw
  · intro w' hw'
    obtain rfl := Option.some.inj hw'
    have hbegins := h.place w hw
    simp only [PlaceOk, hplace] at hbegins
    exact hbegins

/-- A finished drain moves a file. -/
theorem confirm {rest : List Nat} (h : s.WorkerOk) (hfiles : s.FilesOk)
    (hw : s.worker = some w) (hplace : w.place = .confirming rest) (seq : Nat)
    (rest' : List Nat) :
    ({ s with items := Item.move s.items .draining .drained seq : Backlog }.goto w
      (.confirming rest')).WorkerOk := by
  have hconfirmed := h.place w hw
  simp only [PlaceOk, hplace] at hconfirmed
  constructor
  · intro e he hq
    have he : e ∈ Item.move s.items .draining .drained seq := he
    rw [hfiles.move_eq (by decide)] at he
    obtain ⟨e', he', rfl⟩ := List.mem_map.mp he
    split at hq
    · next hmoved =>
      rw [if_pos hmoved]
      exact hconfirmed e' he' hmoved.1
    · next hnot =>
      rw [if_neg hnot]
      exact h.drained e' he' hq
  · intro w' hw'
    obtain rfl := Option.some.inj hw'
    exact h.handed w hw
  · intro w' hw'
    obtain rfl := Option.some.inj hw'
    intro e he hq
    have he : e ∈ Item.move s.items .draining .drained seq := he
    rw [hfiles.move_eq (by decide)] at he
    obtain ⟨e', he', rfl⟩ := List.mem_map.mp he
    split at hq
    · cases hq
    · next hnot =>
      rw [if_neg hnot]
      exact hconfirmed e' he' hq

/-- The names to read, in the order of their numbers. -/
theorem sortedNames_pairwise (hfiles : s.FilesOk)
    (hlen : ∀ e ∈ Item.listed s.items .draining, ∀ e' ∈ Item.listed s.items .draining,
      (name e.seq).length = (name e'.seq).length) :
    (Item.sortedNames s.items .draining).Pairwise (· < ·) := by
  have hmem {n : Nat} (hn : n ∈ Item.sortedNames s.items .draining) :
      ∃ e ∈ Item.listed s.items .draining, e.seq = n := by
    rw [Item.sortedNames, List.mem_mergeSort] at hn
    exact List.mem_map.mp hn
  have hsorted : (Item.sortedNames s.items .draining).Pairwise fun a b => name a ≤ name b := by
    have h := @List.pairwise_mergeSort _ (fun a b => decide (name a ≤ name b))
      (fun a b c hab hbc => by
        simp only [decide_eq_true_eq] at *
        exact le_trans hab hbc)
      (fun a b => by
        simp only [Bool.or_eq_true, decide_eq_true_eq]
        exact le_total _ _)
      ((Item.listed s.items .draining).map (·.seq))
    exact h.imp fun h => of_decide_eq_true h
  have hnodup : (Item.sortedNames s.items .draining).Nodup := by
    rw [Item.sortedNames, (List.mergeSort_perm _ _).nodup_iff]
    refine List.Nodup.map_on ?_ (List.Nodup.filter _ (List.Nodup.of_map _ hfiles.ino))
    intro a ha b hb hab
    exact hfiles.eq_of_seq (List.mem_filter.mp ha).1 (List.mem_filter.mp hb).1 hab
  refine (hsorted.and hnodup).imp_of_mem ?_
  rintro a b ha hb ⟨hle, hne⟩
  obtain ⟨e, he, rfl⟩ := hmem ha
  obtain ⟨e', he', rfl⟩ := hmem hb
  have := le_of_name_le (hlen e he e' he') hle
  omega

/-- A claim lists what it has moved. -/
theorem listDraining {first : Bool} (h : s.WorkerOk) (hfiles : s.FilesOk)
    (hw : s.worker = some w) (hplace : w.place = .moving first [])
    (hlen : ∀ e ∈ Item.listed s.items .draining, ∀ e' ∈ Item.listed s.items .draining,
      (name e.seq).length = (name e'.seq).length) :
    (s.goto w (.reading first (Item.sortedNames s.items .draining) [])).WorkerOk := by
  have hbegins := h.place w hw
  simp only [PlaceOk, hplace] at hbegins
  refine h.goto hw ⟨hbegins, sortedNames_pairwise hfiles hlen, .nil, fun e he hq => ⟨nofun, ?_⟩⟩
  intro hnot
  refine absurd ?_ hnot
  rw [Item.sortedNames, List.mem_mergeSort]
  exact List.mem_map.mpr ⟨e, List.mem_filter.mpr ⟨he, by simpa using hq⟩, rfl⟩

/-- A claim reads a file that its `add` has filled. -/
theorem read {first : Bool} {seq : Nat} {rest : List Nat} {read : List (Nat × String)} {a : Item}
    (h : s.WorkerOk) (hfiles : s.FilesOk) (hw : s.worker = some w)
    (hplace : w.place = .reading first (seq :: rest) read) (ha : a ∈ s.items)
    (hqueue : a.queue = .draining) (hseq : a.seq = seq) (htext : a.text = a.full) :
    (s.goto w (.reading first rest (read ++ [(a.ino, a.text)]))).WorkerOk := by
  have hread := h.place w hw
  simp only [PlaceOk, hplace] at hread
  obtain ⟨hbegins, hrest, hsorted, hcovered⟩ := hread
  obtain ⟨hfirst, hrest⟩ := List.pairwise_cons.mp hrest
  have hbefore := (hcovered a ha hqueue).1 (hseq ▸ .head rest)
  refine h.goto hw ⟨hbegins, hrest, ?_, fun e he hq => ⟨fun hin => ?_, fun hnot => ?_⟩⟩
  · rw [List.map_append, List.pairwise_append]
    refine ⟨hsorted, List.pairwise_singleton _ _, fun i hi j hj => ?_⟩
    obtain ⟨x, hx, rfl⟩ := List.mem_map.mp hi
    obtain rfl : j = a.ino := by simpa using hj
    exact hbefore x hx
  · intro x hx
    obtain hx | hx := List.mem_append.mp hx
    · exact (hcovered e he hq).1 (.tail seq hin) x hx
    · obtain rfl := List.mem_singleton.mp hx
      exact hfiles.ino_lt ha he (hseq ▸ hfirst e.seq hin)
  · by_cases heq : e.seq = seq
    · obtain rfl := hfiles.eq_of_seq ha he (hseq.trans heq.symm)
      exact List.mem_append_right _ (by simp [htext])
    · refine List.mem_append_left _ ((hcovered e he hq).2 ?_)
      exact fun hin => (List.mem_cons.mp hin).elim heq hnot

/-- **What one step of the worker keeps.** -/
theorem work (h : s.WorkerOk) (hfiles : s.FilesOk) (hclear : s.Clear e) (hw : s.worker = some w)
    (hs : s.work w e = some t) : t.WorkerOk := by
  have hplace := h.place w hw
  simp only [Backlog.work] at hs
  split at hs
  · next first hp =>
    obtain rfl := Option.some.inj hs
    simp only [PlaceOk, hp] at hplace
    refine h.hand hplace .nil fun hany e he hq => ?_
    obtain rfl : first = true := by simpa using hany
    have hnone := hclear w hw (.inl hp)
    exact absurd (List.mem_filter.mpr ⟨he, by simpa using hq⟩) (hnone ▸ List.not_mem_nil)
  · next ok first hp =>
    obtain rfl := Option.some.inj hs
    simp only [PlaceOk, hp] at hplace
    exact h.goto hw hplace
  · next seq ok first rest hp =>
    split at hs
    · obtain rfl := Option.some.inj hs
      cases ok with
      | true => exact h.claimMove hfiles hw hp seq _
      | false =>
        simp only [PlaceOk, hp] at hplace
        exact h.goto hw hplace
    · cases hs
  · next ok first hp =>
    cases ok with
    | true =>
      simp only [if_true, Option.some.injEq] at hs
      exact hs ▸ h.listDraining hfiles hw hp hclear
    | false =>
      simp only [Bool.false_eq_true, if_false, Option.some.injEq] at hs
      simp only [PlaceOk, hp] at hplace
      refine hs ▸ h.hand hplace .nil fun hany e he hq => ?_
      obtain rfl : first = true := by simpa using hany
      have hnone := hclear w hw (.inr hp)
      exact absurd (List.mem_filter.mpr ⟨he, by simpa using hq⟩) (hnone ▸ List.not_mem_nil)
  · next ok first seq rest read hp =>
    obtain ⟨rfl, hfull⟩ := hclear
    split at hs
    · next a hfind =>
      obtain rfl := Option.some.inj hs
      have ha := List.mem_of_find?_eq_some hfind
      have hseq : a.seq = seq := by simpa using List.find?_some hfind
      obtain ⟨hin, hqueue⟩ := List.mem_filter.mp ha
      exact h.read hfiles hw hp hin (by simpa using hqueue) hseq
        (hfull w first seq rest read hw hp a ha hseq)
    · next hfind =>
      obtain rfl := Option.some.inj hs
      simp only [PlaceOk, hp] at hplace
      obtain ⟨hbegins, hrest, hsorted, hcovered⟩ := hplace
      refine h.goto hw ⟨hbegins, (List.pairwise_cons.mp hrest).2, hsorted, fun e he hq => ⟨?_, ?_⟩⟩
      · exact fun hin => (hcovered e he hq).1 (.tail seq hin)
      · intro hnot
        apply (hcovered e he hq).2
        intro hin
        obtain heq | hin := List.mem_cons.mp hin
        · rw [List.find?_eq_none] at hfind
          exact hfind e (List.mem_filter.mpr ⟨he, by simpa using hq⟩) (by simpa using heq)
        · exact hnot hin
  · next first read hp =>
    obtain rfl := Option.some.inj hs
    simp only [PlaceOk, hp] at hplace
    obtain ⟨hbegins, -, hsorted, hcovered⟩ := hplace
    exact h.hand hbegins hsorted fun _ e he hq => (hcovered e he hq).2 nofun
  · next te hp => exact Option.some.inj hs ▸ h.turn hw hp te
  · next ok hp =>
    obtain rfl := Option.some.inj hs
    simp only [PlaceOk, hp] at hplace
    cases ok with
    | true => exact h.goto hw hplace
    | false => exact h.goto hw (by exact nofun)
  · next seq ok rest hp =>
    split at hs
    · obtain rfl := Option.some.inj hs
      cases ok with
      | true => exact h.confirm hfiles hw hp seq _
      | false =>
        simp only [PlaceOk, hp] at hplace
        exact h.goto hw hplace
    · cases hs
  · next hp =>
    obtain rfl := Option.some.inj hs
    exact h.goto hw (by exact nofun)
  · obtain rfl := Option.some.inj hs
    exact ⟨h.drained, nofun, nofun⟩
  · cases hs

/-- **What one step keeps of the worker's knowledge.** -/
theorem step (h : s.WorkerOk) (hfiles : s.FilesOk) (hclear : s.Clear e)
    (hs : s.step e = some t) : t.WorkerOk := by
  cases e with
  | add | list =>
    simp only [Backlog.step] at hs
    split at hs
    · exact Option.some.inj hs ▸ h.items rfl rfl rfl fun e he _ => ⟨e, he, rfl, rfl, rfl, rfl⟩
    · cases hs
  | create p =>
    simp only [Backlog.step] at hs
    split at hs
    · obtain rfl := Option.some.inj hs
      refine h.items rfl rfl rfl fun e he hq => ?_
      simp only [Item.create] at he
      split at he
      · obtain ⟨e', he', rfl⟩ := List.mem_map.mp he
        refine ⟨e', he', ?_⟩
        split at hq
        · next hpending => exact absurd hpending.1 hq
        · next hnot => simp [hnot]
      · obtain he | he := List.mem_append.mp he
        · exact ⟨e, he, rfl, rfl, rfl, rfl⟩
        · exact absurd (congrArg Item.queue (List.mem_singleton.mp he)) hq
    · cases hs
  | fill p =>
    simp only [Backlog.step] at hs
    split at hs
    · obtain rfl := Option.some.inj hs
      refine h.items rfl rfl rfl fun e he hq => ?_
      obtain ⟨e', he', rfl⟩ := List.mem_map.mp he
      refine ⟨e', he', ?_⟩
      split <;> exact ⟨rfl, rfl, rfl, rfl⟩
    · cases hs
  | abort p =>
    simp only [Backlog.step, Option.map_eq_some_iff] at hs
    obtain ⟨-, -, rfl⟩ := hs
    exact h.items rfl rfl rfl fun e he _ => ⟨e, he, rfl, rfl, rfl, rfl⟩
  | launch agent trigger =>
    simp only [Backlog.step] at hs
    split at hs
    · exact Option.some.inj hs ▸ h.launch agent trigger
    · cases hs
  | _ =>
    simp only [Backlog.step, Option.bind_eq_some_iff] at hs
    obtain ⟨w, hw, hs⟩ := hs
    exact h.work hfiles hclear hw hs

end WorkerOk

/-! ## runs -/

theorem stored_of_filesOk (h : s.FilesOk) : s.Stored := by
  refine ⟨h.own, fun x hx => ?_⟩
  obtain ⟨e, he, hino, -, htext⟩ := h.added x hx
  refine ⟨e, ?_, htext⟩
  obtain ⟨pre, post, hitems⟩ := List.append_of_mem he
  have hnodup := h.ino
  rw [hitems, List.map_append, List.map_cons, List.nodup_append, List.nodup_cons] at hnodup
  obtain ⟨-, ⟨hpost, -⟩, hpre⟩ := hnodup
  rw [hitems, List.filter_append, List.filter_cons_of_pos (by simpa using hino),
    List.filter_eq_nil_iff.mpr, List.filter_eq_nil_iff.mpr, List.nil_append]
  · intro a ha
    have hne : a.ino ≠ e.ino := fun heq => hpost (heq ▸ List.mem_map_of_mem ha)
    simpa [← hino] using hne
  · intro a ha
    have hne := hpre a.ino (List.mem_map_of_mem ha) e.ino (.head _)
    simpa [← hino] using hne

/-- **No follow-up lost, none confirmed unread.** Whatever the order in which `add`s, claims,
turns, deaths and relaunches of a session's queue follow each other: as long as every step
meets the condition, every `add` that returned has its item with its text in one directory,
what is in `drained/` was in a prompt and done, and what a claim hands out is in the order in
which it was added. -/
theorem backlog_kept {es : List Event} (h : Run ClearStep Backlog.empty es s) :
    s.Stored ∧ s.ConfirmedOnly ∧ s.InOrder := by
  have hok : s.FilesOk ∧ s.WorkerOk := by
    apply h.kept (Q := fun _ => True)
    · rintro u e v - ⟨hclear, hstep⟩ ⟨hfiles, hworker⟩
      exact ⟨hfiles.step hclear hstep, hworker.step hfiles hclear hstep⟩
    · exact fun _ _ => trivial
    · exact ⟨.empty, .empty⟩
  exact ⟨stored_of_filesOk hok.1, hok.2.drained, hok.2.handed⟩

theorem sortedNames_single {items : List Item} {a : Item}
    (h : Item.listed items .draining = [a]) : Item.sortedNames items .draining = [a.seq] := by
  rw [Item.sortedNames, h, List.map_singleton, List.mergeSort_singleton]

/-- An item queued while a Claude run was at work, and drained once that was done. -/
theorem backlog_kept_drained :
    ∃ s, Run ClearStep Backlog.empty [.launch .claude .start, .add 1 "a", .list 1, .list 1, .list 1,
        .create 1, .fill 1, .turn ⟨0, none, false, false, false⟩, .listPending true,
        .claimMove 1 true, .listDraining true, .read true, .claimed,
        .turn ⟨0, none, false, false, false⟩, .turn ⟨0, none, false, false, false⟩,
        .listFinal true, .confirm 1 true] s ∧
      s.items = [⟨.drained, 1, 0, "a", "a"⟩] ∧ s.Stored ∧ s.ConfirmedOnly ∧ s.InOrder := by
  obtain ⟨s, h, hitems⟩ : ∃ s, Run ClearStep Backlog.empty [.launch .claude .start, .add 1 "a",
      .list 1, .list 1, .list 1, .create 1, .fill 1, .turn ⟨0, none, false, false, false⟩,
      .listPending true, .claimMove 1 true, .listDraining true, .read true, .claimed,
      .turn ⟨0, none, false, false, false⟩, .turn ⟨0, none, false, false, false⟩,
      .listFinal true, .confirm 1 true] s ∧ s.items = [⟨.drained, 1, 0, "a", "a"⟩] := by
    refine ⟨_, .cons ⟨trivial, rfl⟩ (.cons ⟨trivial, rfl⟩ (.cons ⟨trivial, rfl⟩
      (.cons ⟨trivial, rfl⟩ (.cons ⟨trivial, rfl⟩ (.cons ⟨nofun, rfl⟩ (.cons ⟨trivial, rfl⟩
      (.cons ⟨trivial, rfl⟩ (.cons ⟨trivial, rfl⟩ (.cons ⟨trivial, rfl⟩ (.cons ⟨?_,
        congrArg (fun l => some (goto _ _ (.reading _ l []))) (sortedNames_single rfl)⟩
      (.cons ⟨⟨rfl, ?_⟩, rfl⟩ (.cons ⟨trivial, rfl⟩ (.cons ⟨trivial, rfl⟩ (.cons ⟨trivial, rfl⟩
      (.cons ⟨trivial, rfl⟩ (.cons ⟨trivial, rfl⟩ (.nil _))))))))))))))))), ?_⟩
    · intro e he e' he'
      rw [List.mem_singleton.mp he, List.mem_singleton.mp he']
    · intro _ _ _ _ _ _ _ e he _
      obtain rfl := List.mem_singleton.mp he
      rfl
    · rfl
  exact ⟨s, h, hitems, backlog_kept h⟩

/-- **A follow-up lost, and one confirmed unread.** Two `add`s that both list the directories
before either has created its file write to one file. An item claimed and read before its
`add` has filled it is in no prompt, and in `drained/` all the same. -/
theorem backlog_lost :
    (∃ s, Run (fun s e t => s.step e = some t) Backlog.empty [.add 1 "a", .add 2 "b", .list 1,
        .list 1, .list 1, .list 2, .list 2, .list 2, .create 1, .fill 1, .create 2] s ∧
      ¬s.Stored) ∧
    ∃ s, Run (fun s e t => s.step e = some t) Backlog.empty [.launch .claude .start, .add 1 "a",
        .list 1, .list 1, .list 1, .create 1, .turn ⟨0, none, false, false, false⟩,
        .listPending true, .claimMove 1 true, .listDraining true, .read true, .fill 1, .claimed,
        .turn ⟨0, none, false, false, false⟩, .turn ⟨0, none, false, false, false⟩,
        .listFinal true, .confirm 1 true] s ∧
      ¬s.ConfirmedOnly := by
  constructor
  · refine ⟨_, .of_foldlM rfl, fun h => ?_⟩
    obtain ⟨e, hitems, htext⟩ := h.2 (0, "a") (.head _)
    obtain rfl := (List.cons.inj hitems).1
    exact absurd htext (by decide)
  · obtain ⟨s, h, hitems, hturns⟩ : ∃ s, Run (fun s e t => s.step e = some t) Backlog.empty
        [.launch .claude .start, .add 1 "a", .list 1, .list 1, .list 1, .create 1,
        .turn ⟨0, none, false, false, false⟩, .listPending true, .claimMove 1 true,
        .listDraining true, .read true, .fill 1, .claimed, .turn ⟨0, none, false, false, false⟩,
        .turn ⟨0, none, false, false, false⟩, .listFinal true, .confirm 1 true] s ∧
        s.items = [⟨.drained, 1, 0, "a", "a"⟩] ∧ ∀ t ∈ s.turns, (0, "a") ∉ t.items := by
      refine ⟨_, .cons rfl (.cons rfl (.cons rfl (.cons rfl (.cons rfl (.cons rfl (.cons rfl
        (.cons rfl (.cons rfl (.cons
          (congrArg (fun l => some (goto _ _ (.reading _ l []))) (sortedNames_single rfl))
        (.cons rfl (.cons rfl (.cons rfl (.cons rfl (.cons rfl (.cons rfl (.cons rfl
        (.nil _))))))))))))))))), ?_, ?_⟩
      · rfl
      · decide
    refine ⟨s, h, fun hconfirmed => ?_⟩
    obtain ⟨pre, t, post, -, heq, -, -, hin, -⟩ :=
      hconfirmed ⟨.drained, 1, 0, "a", "a"⟩ (by simp [hitems]) rfl
    exact hturns t (by simp [heq]) hin

end Backlog

end ClaudeReplay.Jdi
