import ClaudeReplay.Gateway.Worker
import Std.Data.String.ToNat

/-!
# ClaudeReplay.Gateway.Calls

What the worker's answers say about the server. Every command is on one of three places at most:
the channel, the table of pending calls, or the answers (`Sound.once`); and it goes to a socket at
most once, never while it is on the channel (`Sound.carriedOnce`). The ids of requests are never
used again (`Sound.issuedOnce`), so a late reply answers nobody else.
-/

namespace ClaudeReplay.Gateway

open Lib

/-! ## request ids -/

theorem gatewayId_inj {m n : Nat} (h : gatewayId m = gatewayId n) : m = n := by
  simp only [gatewayId] at h
  rw [String.append_right_inj, Nat.toString_eq_repr, Nat.toString_eq_repr] at h
  exact Nat.repr_injective h

/-- A word behind the prefix of the ids that does not begin with a digit. -/
theorem gatewayId_ne {word : String} {c : Char} (hc : word.toList.head? = some c)
    (hdigit : c.isDigit = false) (n : Nat) : "gateway-" ++ word ≠ gatewayId n := by
  intro h
  simp only [gatewayId] at h
  rw [String.append_right_inj] at h
  rw [h, Nat.toString_eq_repr, Nat.repr_eq_ofList_toDigits] at hc
  have hmem : c ∈ Nat.toDigits 10 n := by
    rw [String.toList_ofList] at hc
    exact List.mem_of_head? hc
  rw [Nat.isDigit_of_mem_toDigits (by decide) (by decide) hmem] at hdigit
  cases hdigit

/-! ## where a command is -/

/-- The packet is a request under the id. -/
def Packet.asks (p : Packet) (id : String) : Bool :=
  isText (p.body.get "id") id && (p.body.get? "method").isSome

/-- A body that uses no id of the worker's own requests. -/
def IsPlain (body : Value) : Prop :=
  ∀ n connection command, Packet.asks ⟨connection, body, command⟩ (gatewayId n) = false

namespace Worker

variable {print : Value → String} {w : Worker} {t : Nat} {owed : List Nat}

/-- How often a command is on the channel, its call pending, its answer given, and its packet
handed to a socket. -/
def queued (w : Worker) (t : Nat) : Nat := w.commands.countP fun c => c.answer? = some t

def waiting (w : Worker) (t : Nat) : Nat := w.pending.rows.countP fun row => row.2.answer = t

def answered (w : Worker) (t : Nat) : Nat := w.answers.countP fun a => a.1 = t

def carried (w : Worker) (t : Nat) : Nat := w.wire.countP fun p => p.command = some t

/-- The places of a command while the worker owes the answers `owed`. -/
def places (w : Worker) (owed : List Nat) (t : Nat) : Nat :=
  w.queued t + w.waiting t + w.answered t + owed.count t

/-- How often an id was used for a request. -/
def issued (w : Worker) (n : Nat) : Nat := w.wire.countP fun p => p.asks (gatewayId n)

/-- The server replied to the request `id` of the connection. -/
def Replied (w : Worker) (connection : Nat) (id : String) (message : Value) : Prop :=
  (connection, message) ∈ w.heard ∧ answersTo id message = true

/-- The request of a command, on one connection under one id. -/
def Sent (w : Worker) (connection : Nat) (id method : String) (t : Nat) : Prop :=
  ∃ params, ⟨connection, request id method params, some t⟩ ∈ w.wire

/-- A read of the history, for no command of its own. -/
def Reads (w : Worker) (connection : Nat) (id : String) : Prop :=
  ∃ params, ⟨connection, request id "thread/read" params, none⟩ ∈ w.wire

/-- What a pending call waits for was asked on this connection. -/
inductive Backed (w : Worker) (id : String) (call : Pending) : Prop
  | direct (kind : call.continuation = .direct)
      (sent : w.Sent w.connection id call.method call.answer)
  | history {own : String} {message resume : Value}
      (kind : call.continuation = .canonicalResume resume)
      (method : call.method = "thread/resume") (reads : w.Reads w.connection id)
      (sent : w.Sent w.connection own "thread/resume" call.answer)
      (replied : w.Replied w.connection own message)
      (given : message.get? "result" = some resume)

/-- The server gave this result for the command. -/
inductive Gave (w : Worker) (t : Nat) : Value → Prop
  | direct {connection : Nat} {id method : String} {message v : Value}
      (sent : w.Sent connection id method t) (replied : w.Replied connection id message)
      (given : message.get? "result" = some v) : Gave w t v
  /-- a resume, with the history of a second reply -/
  | history {connection : Nat} {id id' threadId : String} {message message' resume read v : Value}
      (sent : w.Sent connection id "thread/resume" t) (replied : w.Replied connection id message)
      (given : message.get? "result" = some resume)
      (reads : w.Reads connection id') (replied' : w.Replied connection id' message')
      (given' : message'.get? "result" = some read)
      (merged : canonicalResume resume read threadId = .ok v) : Gave w t v
  /-- an answer to a request of the server, once the socket took it -/
  | response (connection : Nat) (id result : Value)
      (sent : ⟨connection, .obj [("id", id), ("result", result)], some t⟩ ∈ w.wire) :
      Gave w t (.obj [("delivered", .bool true)])

/-- The server refused the command with this error. -/
inductive Refused (w : Worker) (t : Nat) : Value → Prop
  | direct {connection : Nat} {id method : String} {message : Value}
      (sent : w.Sent connection id method t) (replied : w.Replied connection id message)
      (refused : message.get? "result" = none) : Refused w t (message.get "error")
  | history {connection : Nat} {id id' : String} {message : Value}
      (sent : w.Sent connection id "thread/resume" t) (reads : w.Reads connection id')
      (replied : w.Replied connection id' message)
      (refused : message.get? "result" = none) : Refused w t (message.get "error")

/-- What an answer says happened. -/
def Told (w : Worker) (t : Nat) : Answer → Prop
  | .ok v => w.Gave t v
  | .error (.rpcRejected _ error) => w.Refused t error
  | .error (.uncertain _) => w.carried t = 1
  | .error (.rejected _) | .error (.unavailable _) =>
    w.carried t = 0 ∨ ∃ connection id, w.Sent connection id "thread/resume" t

/-- The invariant of a worker that owes the answers `owed`. -/
structure Sound (w : Worker) (owed : List Nat) : Prop where
  fresh : ∀ t, w.channels ≤ t → w.places owed t + w.carried t = 0
  once : ∀ t, w.places owed t ≤ 1
  kept : w.phase ≠ .ended → ∀ t < w.channels, w.places owed t = 1
  carriedOnce : ∀ t, w.queued t + w.carried t ≤ 1
  issuedOnce : ∀ n, w.issued n ≤ if n ≤ w.nextId then 1 else 0
  backed : ∀ row ∈ w.pending.rows, w.Backed row.1 row.2
  told : ∀ t a, (t, a) ∈ w.answers → w.Told t a
  idle : w.phase ≠ .connected → w.pending.rows = []

/-! ## more wire, more heard -/

theorem Sent.mono {w' : Worker} {connection : Nat} {id method : String}
    (hwire : ∀ p ∈ w.wire, p ∈ w'.wire) (h : w.Sent connection id method t) :
    w'.Sent connection id method t := by
  obtain ⟨params, hmem⟩ := h
  exact ⟨params, hwire _ hmem⟩

theorem Reads.mono {w' : Worker} {connection : Nat} {id : String}
    (hwire : ∀ p ∈ w.wire, p ∈ w'.wire) (h : w.Reads connection id) : w'.Reads connection id := by
  obtain ⟨params, hmem⟩ := h
  exact ⟨params, hwire _ hmem⟩

theorem Replied.mono {w' : Worker} {connection : Nat} {id : String} {message : Value}
    (hheard : ∀ m ∈ w.heard, m ∈ w'.heard) (h : w.Replied connection id message) :
    w'.Replied connection id message :=
  ⟨hheard _ h.1, h.2⟩

theorem Backed.mono {w' : Worker} {id : String} {call : Pending}
    (hwire : ∀ p ∈ w.wire, p ∈ w'.wire) (hheard : ∀ m ∈ w.heard, m ∈ w'.heard)
    (hconnection : w'.connection = w.connection) (h : w.Backed id call) : w'.Backed id call := by
  cases h with
  | direct kind sent => exact .direct kind (hconnection ▸ sent.mono hwire)
  | history kind method reads sent replied given =>
    exact .history kind method (hconnection ▸ reads.mono hwire) (hconnection ▸ sent.mono hwire)
      (hconnection ▸ replied.mono hheard) given

theorem Gave.mono {w' : Worker} {v : Value} (hwire : ∀ p ∈ w.wire, p ∈ w'.wire)
    (hheard : ∀ m ∈ w.heard, m ∈ w'.heard) (h : w.Gave t v) : w'.Gave t v := by
  cases h with
  | direct sent replied given => exact .direct (sent.mono hwire) (replied.mono hheard) given
  | history sent replied given reads replied' given' merged =>
    exact .history (sent.mono hwire) (replied.mono hheard) given (reads.mono hwire)
      (replied'.mono hheard) given' merged
  | response connection id result sent => exact .response connection id result (hwire _ sent)

theorem Refused.mono {w' : Worker} {v : Value} (hwire : ∀ p ∈ w.wire, p ∈ w'.wire)
    (hheard : ∀ m ∈ w.heard, m ∈ w'.heard) (h : w.Refused t v) : w'.Refused t v := by
  cases h with
  | direct sent replied refused => exact .direct (sent.mono hwire) (replied.mono hheard) refused
  | history sent reads replied refused =>
    exact .history (sent.mono hwire) (reads.mono hwire) (replied.mono hheard) refused

theorem Told.mono {w' : Worker} {a : Answer} (hwire : ∀ p ∈ w.wire, p ∈ w'.wire)
    (hheard : ∀ m ∈ w.heard, m ∈ w'.heard) (hcarried : w'.carried t = w.carried t)
    (h : w.Told t a) : w'.Told t a := by
  cases a with
  | ok v => exact Gave.mono hwire hheard h
  | error f =>
    cases f with
    | rpcRejected details error => exact Refused.mono hwire hheard h
    | uncertain message => exact hcarried.trans h
    | rejected message | unavailable message =>
      obtain h | ⟨connection, id, h⟩ := h
      · exact .inl (hcarried.trans h)
      · exact .inr ⟨connection, id, h.mono hwire⟩

theorem Backed.keep {w' : Worker} {id : String} {call : Pending} (hwire : w'.wire = w.wire)
    (hheard : w'.heard = w.heard) (hconnection : w'.connection = w.connection)
    (h : w.Backed id call) : w'.Backed id call :=
  h.mono (fun _ hp => hwire ▸ hp) (fun _ hm => hheard ▸ hm) hconnection

theorem Told.keep {w' : Worker} {a : Answer} (hwire : w'.wire = w.wire)
    (hheard : w'.heard = w.heard) (h : w.Told t a) : w'.Told t a :=
  h.mono (fun _ hp => hwire ▸ hp) (fun _ hm => hheard ▸ hm) (by rw [carried, carried, hwire])

/-! ## what keeps the invariant -/

theorem start_sound (endpoint : String) (state : State) : (start endpoint state).Sound [] where
  fresh _ _ := rfl
  once _ := Nat.zero_le 1
  kept _ t ht := absurd ht (Nat.not_lt_zero t)
  carriedOnce _ := Nat.zero_le 1
  issuedOnce _ := Nat.zero_le _
  backed _ hrow := absurd hrow List.not_mem_nil
  told _ _ ha := absurd ha List.not_mem_nil
  idle _ := rfl

/-- A change that takes every command from one place to another, and writes nothing. -/
theorem Sound.changed {w' : Worker} {owed' : List Nat} (h : w.Sound owed)
    (hplaces : ∀ t, w'.places owed' t = w.places owed t)
    (hqueued : ∀ t, w'.queued t ≤ w.queued t) (hchannels : w'.channels = w.channels)
    (hphase : w'.phase ≠ .ended → w.phase ≠ .ended) (hnext : w.nextId ≤ w'.nextId)
    (hwire : w'.wire = w.wire) (hheard : ∀ m ∈ w.heard, m ∈ w'.heard)
    (hbacked : ∀ row ∈ w'.pending.rows, w'.Backed row.1 row.2)
    (htold : ∀ t a, (t, a) ∈ w'.answers → w.Told t a)
    (hidle : w'.phase ≠ .connected → w'.pending.rows = []) : w'.Sound owed' := by
  have hcarried (t : Nat) : w'.carried t = w.carried t := by simp only [carried, hwire]
  constructor
  case fresh => simpa only [hplaces, hcarried, hchannels] using h.fresh
  case once => simpa only [hplaces] using h.once
  case kept =>
    intro hended
    simpa only [hplaces, hchannels] using h.kept (hphase hended)
  case carriedOnce =>
    intro t
    rw [hcarried]
    exact (Nat.add_le_add_right (hqueued t) _).trans (h.carriedOnce t)
  case issuedOnce =>
    intro n
    have hissued := h.issuedOnce n
    simp only [issued, hwire] at hissued ⊢
    split at hissued
    · rwa [if_pos (by omega)]
    · exact hissued.trans (Nat.zero_le _)
  case backed => exact hbacked
  case told => exact fun t a ha => (htold t a ha).mono (fun p hp => hwire ▸ hp) hheard (hcarried t)
  case idle => exact hidle

/-- Such a change, of commands and calls alone. -/
theorem Sound.moved {w' : Worker} {owed' : List Nat} (h : w.Sound owed)
    (hplaces : ∀ t, w'.places owed' t = w.places owed t)
    (hqueued : ∀ t, w'.queued t ≤ w.queued t) (hchannels : w'.channels = w.channels)
    (hphase : w'.phase = w.phase) (hconnection : w'.connection = w.connection)
    (hnext : w'.nextId = w.nextId) (hpending : ∀ row ∈ w'.pending.rows, row ∈ w.pending.rows)
    (hwire : w'.wire = w.wire) (hheard : ∀ m ∈ w.heard, m ∈ w'.heard)
    (hanswers : w'.answers = w.answers) : w'.Sound owed' := by
  refine h.changed hplaces hqueued hchannels (hphase ▸ ·) hnext.ge hwire hheard ?_ ?_ ?_
  · exact fun row hrow => (h.backed row (hpending row hrow)).mono (fun p hp => hwire ▸ hp) hheard
      hconnection
  · exact fun t a ha => h.told t a (hanswers ▸ ha)
  · intro hp
    rw [hphase] at hp
    exact List.eq_nil_iff_forall_not_mem.mpr fun row hrow =>
      List.not_mem_nil (h.idle hp ▸ hpending row hrow)

theorem Sound.write (h : w.Sound owed) (state : State) : { w with state }.Sound owed :=
  h.moved (fun _ => rfl) (fun _ => Nat.le_refl _) rfl rfl rfl rfl (fun _ hrow => hrow) rfl
    (fun _ hm => hm) rfl

theorem Sound.close (h : w.Sound owed) : { w with stopping := true }.Sound owed :=
  h.moved (fun _ => rfl) (fun _ => Nat.le_refl _) rfl rfl rfl rfl (fun _ hrow => hrow) rfl
    (fun _ hm => hm) rfl

theorem Sound.hear (h : w.Sound owed) (m : Nat × Value) :
    { w with heard := w.heard ++ [m] }.Sound owed :=
  h.moved (fun _ => rfl) (fun _ => Nat.le_refl _) rfl rfl rfl rfl (fun _ hrow => hrow) rfl
    (fun _ hm => List.mem_append_left _ hm) rfl

/-- Taking a command from the channel, the worker owes it an answer. -/
theorem Sound.pop {command : Command} {commands : List Command} (h : w.Sound owed)
    (hcommands : w.commands = command :: commands) (ht : command.answer? = some t) :
    { w with commands }.Sound (t :: owed) ∧ w.carried t = 0 := by
  have hqueued (u : Nat) : w.queued u = queued { w with commands } u + [t].count u := by
    simp [queued, hcommands, List.countP_cons, ht, List.count_singleton]
  refine ⟨h.moved ?_ ?_ rfl rfl rfl rfl (fun _ hrow => hrow) rfl (fun _ hm => hm) rfl, ?_⟩
  · intro u
    simp only [places, hqueued u]
    rw [← List.singleton_append, List.count_append]
    simp only [waiting, answered]
    omega
  · intro u
    rw [hqueued]
    exact Nat.le_add_right _ _
  · have hcarried := h.carriedOnce t
    rw [hqueued, List.count_singleton_self] at hcarried
    omega

/-- A command that nobody waits for is dropped. -/
theorem Sound.skip {command : Command} {commands : List Command} (h : w.Sound owed)
    (hcommands : w.commands = command :: commands) (hnone : command.answer? = none) :
    { w with commands }.Sound owed := by
  have hqueued (u : Nat) : queued { w with commands } u = w.queued u := by
    simp [queued, hcommands, hnone]
  refine h.moved ?_ (fun u => (hqueued u).le) rfl rfl rfl rfl (fun _ hrow => hrow) rfl
    (fun _ hm => hm) rfl
  intro u
  simp only [places, hqueued u]
  rfl

/-- Taking calls from the table, the worker owes them their answers. -/
theorem Sound.takeOut (pending : Table String Pending) (calls : List (String × Pending))
    (h : w.Sound owed) (hrows : w.pending.rows.Perm (calls ++ pending.rows)) :
    { w with pending }.Sound ((calls.map fun row : String × Pending => row.2.answer) ++ owed) := by
  refine h.moved ?_ (fun _ => Nat.le_refl _) rfl rfl rfl rfl ?_ rfl (fun _ hm => hm) rfl
  · intro u
    have hcount : (calls.map fun row : String × Pending => row.2.answer).count u =
        calls.countP fun row => row.2.answer = u := by
      rw [List.count, List.countP_map]
      exact List.countP_congr (by simp)
    simp only [places, waiting, hrows.countP_eq, List.countP_append, List.count_append, hcount]
    simp only [queued, answered]
    omega
  · intro row hrow
    exact hrows.mem_iff.mpr (List.mem_append_right _ hrow)

/-- No call is pending when the phase changes. -/
theorem Sound.turn (h : w.Sound owed) (hpending : w.pending.rows = []) (hphase : w.phase ≠ .ended)
    (phase : Phase) : { w with phase }.Sound owed :=
  h.changed (fun _ => rfl) (fun _ => Nat.le_refl _) rfl (fun _ => hphase) (Nat.le_refl _) rfl
    (fun _ hm => hm) (fun _ hrow => absurd (hpending ▸ hrow) List.not_mem_nil) h.told
    (fun _ => hpending)

/-- When the worker stops, what it owes stays unanswered. -/
theorem Sound.quit (h : w.Sound owed) : w.quit.Sound [] where
  fresh t ht := by
    have hfresh := h.fresh t ht
    simp only [places, Worker.quit, queued, waiting, answered, carried, Table.empty,
      List.countP_nil, List.count_nil] at hfresh ⊢
    omega
  once t := by
    have honce := h.once t
    simp only [places, Worker.quit, queued, waiting, answered, Table.empty, List.countP_nil,
      List.count_nil] at honce ⊢
    omega
  kept hphase := absurd rfl hphase
  carriedOnce := h.carriedOnce
  issuedOnce := h.issuedOnce
  backed _ hrow := absurd hrow List.not_mem_nil
  told t a ha := Told.keep (w := w) rfl rfl (h.told t a ha)
  idle _ := rfl

/-- A new command has a channel of its own. -/
theorem Sound.submit {command : Nat → Command} (h : w.Sound owed)
    (hcommand : ∀ n, (command n).answer? = some n) : (w.submit command).Sound owed := by
  have hqueued (t : Nat) : (w.submit command).queued t =
      w.queued t + if w.channels = t then 1 else 0 := by
    simp [Worker.submit, queued, List.countP_append, List.countP_singleton, hcommand]
  have hplaces (t : Nat) : (w.submit command).places owed t =
      w.places owed t + if w.channels = t then 1 else 0 := by
    have h' := hqueued t
    simp only [places, h']
    simp only [Worker.submit, waiting, answered]
    omega
  constructor
  case fresh =>
    intro t ht
    have ht : w.channels + 1 ≤ t := ht
    rw [hplaces, if_neg (by omega)]
    exact h.fresh t (by omega)
  case once =>
    intro t
    rw [hplaces]
    have honce := h.once t
    have hfresh := h.fresh t
    split <;> omega
  case kept =>
    intro hphase t ht
    have ht : t < w.channels + 1 := ht
    rw [hplaces]
    by_cases heq : w.channels = t
    · have hfresh := h.fresh t heq.le
      rw [if_pos heq]
      omega
    · rw [if_neg heq]
      exact h.kept hphase t (by omega)
  case carriedOnce =>
    intro t
    rw [hqueued]
    have hfresh := h.fresh t
    have hcarried := h.carriedOnce t
    show w.queued t + _ + w.carried t ≤ 1
    simp only [places] at hfresh
    split <;> omega
  case issuedOnce => exact h.issuedOnce
  case backed =>
    intro row hrow
    exact Backed.keep (w := w) rfl rfl rfl (h.backed row hrow)
  case told =>
    intro t a ha
    exact Told.keep (w := w) rfl rfl (h.told t a ha)
  case idle => exact h.idle

/-- An answer that is owed is given. -/
theorem Sound.tell {a : Answer} (h : w.Sound (t :: owed)) (ha : w.Told t a) :
    (w.tell t a).Sound owed := by
  refine h.changed ?_ (fun _ => Nat.le_refl _) rfl id (Nat.le_refl _) rfl (fun _ hm => hm)
    (fun row hrow => Backed.keep (w := w) rfl rfl rfl (h.backed row hrow)) ?_ h.idle
  · intro u
    simp only [places, Worker.tell, queued, waiting, answered, List.countP_append,
      List.countP_singleton, decide_eq_true_eq, List.count_cons, beq_iff_eq]
    omega
  · intro u b hb
    obtain hb | hb := List.mem_append.mp hb
    · exact h.told u b hb
    · obtain ⟨rfl, rfl⟩ := Prod.mk.inj (List.mem_singleton.mp hb)
      exact ha

theorem carried_hand (w : Worker) (body : Value) (command : Option Nat) (t : Nat) :
    (w.hand body command).carried t = w.carried t + if command = some t then 1 else 0 := by
  simp [Worker.hand, carried, List.countP_append, List.countP_singleton]

/-- A packet goes to the socket: under no id that was used, for a command at hand. -/
theorem Sound.hand {body : Value} {command : Option Nat} (h : w.Sound owed)
    (hbody : ∀ n, Packet.asks ⟨w.connection, body, command⟩ (gatewayId n) = true →
      n ≤ w.nextId ∧ w.issued n = 0)
    (hcommand : ∀ t ∈ command, t ∈ owed ∧ w.carried t = 0) : (w.hand body command).Sound owed := by
  have hcarried := w.carried_hand body command
  have howed {t : Nat} (ht : t ∈ owed) : w.queued t = 0 ∧ w.answered t = 0 := by
    have honce := h.once t
    have hcount := List.count_pos_iff.mpr ht
    simp only [places] at honce
    omega
  have hmem : ∀ p ∈ w.wire, p ∈ (w.hand body command).wire :=
    fun p hp => List.mem_append_left _ hp
  constructor
  case fresh =>
    intro t ht
    rw [hcarried]
    have hfresh := h.fresh t ht
    by_cases heq : command = some t
    · have hcount := List.count_pos_iff.mpr (hcommand t heq).1
      simp only [places] at hfresh
      omega
    · rw [if_neg heq]
      exact hfresh
  case once => exact h.once
  case kept => exact h.kept
  case carriedOnce =>
    intro t
    rw [hcarried]
    have hone := h.carriedOnce t
    show w.queued t + _ ≤ 1
    by_cases heq : command = some t
    · obtain ⟨ht, hzero⟩ := hcommand t heq
      rw [if_pos heq, hzero, (howed ht).1]
    · rw [if_neg heq]
      exact hone
  case issuedOnce =>
    intro n
    have hissued := h.issuedOnce n
    simp only [Worker.hand, issued, List.countP_append, List.countP_singleton] at hissued ⊢
    by_cases heq : Packet.asks ⟨w.connection, body, command⟩ (gatewayId n) = true
    · obtain ⟨hle, hzero⟩ := hbody n heq
      simp only [issued] at hzero
      rw [if_pos heq, hzero]
      exact (if_pos hle).ge
    · rw [if_neg heq]
      exact hissued
  case backed => exact fun row hrow => (h.backed row hrow).mono hmem (fun _ hm => hm) rfl
  case told =>
    intro t a ha
    refine (h.told t a ha).mono hmem (fun _ hm => hm) ?_
    rw [hcarried, if_neg, Nat.add_zero]
    intro heq
    have hpos : 0 < w.answered t := List.countP_pos_iff.mpr ⟨_, ha, by simp⟩
    have hzero := (howed (hcommand t heq).1).2
    omega
  case idle => exact h.idle

/-- A packet that is no request of the worker's own. -/
theorem Sound.handPlain {body : Value} {command : Option Nat} (h : w.Sound owed)
    (hbody : IsPlain body) (hcommand : ∀ t ∈ command, t ∈ owed ∧ w.carried t = 0) :
    (w.hand body command).Sound owed := by
  refine h.hand ?_ hcommand
  intro n hn
  rw [hbody n] at hn
  cases hn

/-- A call waits for the reply to a new id. -/
theorem Sound.park {id : String} {call : Pending} (h : w.Sound (call.answer :: owed))
    (hphase : w.phase = .connected) (hbacked : w.Backed id call)
    (hid : ∀ row ∈ w.pending.rows, row.1 ≠ id) :
    { w with pending := w.pending.put id call }.Sound owed := by
  refine h.changed ?_ (fun _ => Nat.le_refl _) rfl (fun hp => hp) (Nat.le_refl _) rfl
    (fun _ hm => hm) ?_ h.told (fun hne => absurd hphase hne)
  · intro u
    simp only [places, waiting, Table.rows_put hid, queued, answered, List.countP_cons,
      decide_eq_true_eq, List.count_cons, beq_iff_eq]
    omega
  · intro row hrow
    refine Backed.keep (w := w) rfl rfl rfl ?_
    simp only [Table.rows_put hid, List.mem_cons] at hrow
    obtain rfl | hrow := hrow
    · exact hbacked
    · exact h.backed row hrow

/-! ## settling calls -/

/-- The call was not carried out, says the worker itself. -/
inductive IsLocal : Failure → Prop
  | rejected (message : String) : IsLocal (.rejected message)
  | unavailable (message : String) : IsLocal (.unavailable message)

theorem Told.of_local {f : Failure} (hf : IsLocal f)
    (h : w.carried t = 0 ∨ ∃ connection id, w.Sent connection id "thread/resume" t) :
    w.Told t (.error f) := by
  cases hf with
  | rejected message | unavailable message => exact h

theorem resumeFence_error {s : State} {threadId : String} {epoch after : Nat} {f : Failure}
    (h : resumeFence s threadId epoch after = .error f) : IsLocal f := by
  simp only [resumeFence] at h
  split at h
  · obtain rfl := Except.error.inj h
    exact .unavailable _
  · split at h
    · obtain rfl := Except.error.inj h
      exact .rejected _
    · cases h

theorem resumeIdentity_error {resume : Value} {threadId : String} {f : Failure}
    (h : resumeIdentity resume threadId = .error f) : IsLocal f := by
  simp only [resumeIdentity] at h
  split at h
  · cases h
  · obtain rfl := Except.error.inj h
    exact .rejected _

theorem canonicalResume_error {resume read : Value} {threadId : String} {f : Failure}
    (h : canonicalResume resume read threadId = .error f) : IsLocal f := by
  simp only [canonicalResume] at h
  cases hid : resumeIdentity resume threadId with
  | error g =>
    rw [hid] at h
    obtain rfl := Except.error.inj h
    exact resumeIdentity_error hid
  | ok cwd =>
    rw [hid] at h
    simp only [Except.bind, bind, throw, throwThe, MonadExceptOf.throw, pure, Except.pure] at h
    split at h
    · obtain rfl := Except.error.inj h
      exact .rejected _
    · split at h
      · obtain rfl := Except.error.inj h
        exact .rejected _
      · cases h

/-- What settling a call makes of its result. -/
theorem finalizeResume_answer (s : State) (call : Pending) (result : Answer) (now : Nat)
    (scope : DirectoryScope) :
    (∃ m, (finalizeResume s call result now scope).2 = .error (.uncertain m)) ∨
    (finalizeResume s call result now scope).2 = result ∨
    call.method = "thread/resume" ∧ (∃ v, result = .ok v) ∧
      ∃ f, IsLocal f ∧ (finalizeResume s call result now scope).2 = .error f := by
  simp only [finalizeResume]
  by_cases hlate : call.deadline ≤ now
  · refine .inl ⟨call.operation ++ " response timed out after delivery", ?_⟩
    rw [if_pos hlate]
    split <;> rfl
  · rw [if_neg hlate]
    by_cases hmethod : call.method = "thread/resume"
    · rw [if_pos hmethod]
      cases result with
      | error f => exact .inr (.inl rfl)
      | ok v =>
        refine .inr ?_
        show _ = _ ∨ _
        cases hthread : call.threadId with
        | none => exact .inr ⟨hmethod, ⟨v, rfl⟩, _, .rejected _, rfl⟩
        | some threadId =>
          show (resumeFence _ _ _ _).map _ = _ ∨ _ ∧ _ ∧ ∃ f, _ ∧ (resumeFence _ _ _ _).map _ = _
          cases hfence : resumeFence s threadId call.epoch call.startedSequence with
          | ok u => exact .inl rfl
          | error f => exact .inr ⟨hmethod, ⟨v, rfl⟩, f, resumeFence_error hfence, rfl⟩
    · rw [if_neg hmethod]
      exact .inr (.inl rfl)

/-- A pending call was handed to a socket, on this connection. -/
theorem Backed.sent {id : String} {call : Pending} (h : w.Backed id call) :
    ∃ own, w.Sent w.connection own call.method call.answer := by
  cases h with
  | direct _ sent => exact ⟨_, sent⟩
  | history _ method _ sent _ _ => exact ⟨_, method ▸ sent⟩

theorem Sent.carried_pos {connection : Nat} {id method : String}
    (h : w.Sent connection id method t) : 0 < w.carried t := by
  obtain ⟨params, hmem⟩ := h
  exact List.countP_pos_iff.mpr ⟨_, hmem, by simp⟩

theorem Sound.carried_eq {id : String} {call : Pending} (h : w.Sound owed)
    (hcall : w.Backed id call) : w.carried call.answer = 1 := by
  obtain ⟨own, hsent⟩ := hcall.sent
  have hpos := hsent.carried_pos
  have hone := h.carriedOnce call.answer
  omega

theorem Sound.settle {id : String} {call : Pending} {result : Answer} {now : Nat}
    {scope : DirectoryScope} (h : w.Sound (call.answer :: owed)) (hcall : w.Backed id call)
    (hresult : w.Told call.answer result) : (w.settle call result now scope).Sound owed := by
  refine (h.write _).tell ?_
  refine Told.keep (w := w) rfl rfl ?_
  show w.Told call.answer (finalizeResume w.state call result now scope).2
  obtain ⟨m, ha⟩ | ha | ⟨hmethod, -, f, hf, ha⟩ :=
    finalizeResume_answer w.state call result now scope
  · rw [ha]
    exact h.carried_eq hcall
  · rw [ha]
    exact hresult
  · rw [ha]
    obtain ⟨own, hsent⟩ := hcall.sent
    exact .of_local hf (.inr ⟨w.connection, own, hmethod ▸ hsent⟩)

/-- Calls whose outcome is in doubt are settled one after another. -/
theorem Sound.settleAll {calls : List (String × Pending)} {result : Pending → Answer} {now : Nat}
    {scope : DirectoryScope}
    (h : w.Sound ((calls.map fun row : String × Pending => row.2.answer) ++ owed))
    (hcalls : ∀ row ∈ calls, w.carried row.2.answer = 1)
    (hresult : ∀ call, ∃ m, result call = .error (.uncertain m)) :
    (w.settleAll calls result now scope).Sound owed := by
  induction calls generalizing w with
  | nil => exact h
  | cons row calls ih =>
    have hone := hcalls row List.mem_cons_self
    refine ih (w := w.settle row.2 (result row.2) now scope) ?_ ?_
    · refine (h.write _).tell ?_
      refine Told.keep (w := w) rfl rfl ?_
      show w.Told row.2.answer (finalizeResume w.state row.2 (result row.2) now scope).2
      obtain ⟨m, hm⟩ := hresult row.2
      obtain ⟨m, ha⟩ | ha | ⟨-, ⟨v, hv⟩, -⟩ :=
        finalizeResume_answer w.state row.2 (result row.2) now scope
      · rw [ha]
        exact hone
      · rw [ha, hm]
        exact hone
      · rw [hm] at hv
        cases hv
    · exact fun r hr => hcalls r (List.mem_cons_of_mem _ hr)

/-- Calls are answered one after another. -/
theorem Sound.tellAll {calls : List (String × Pending)} (result : Pending → Answer)
    (h : w.Sound ((calls.map fun row : String × Pending => row.2.answer) ++ owed))
    (hresult : ∀ row ∈ calls, w.Told row.2.answer (result row.2)) :
    { w with
      answers := w.answers ++ calls.map fun row : String × Pending =>
        (row.2.answer, result row.2) }.Sound owed := by
  induction calls generalizing w with
  | nil =>
    simpa using h
  | cons row calls ih =>
    have htell := Sound.tell h (hresult row List.mem_cons_self)
    have hrest := ih htell fun r hr => Told.keep (w := w) rfl rfl
      (hresult r (List.mem_cons_of_mem _ hr))
    simpa [Worker.tell] using hrest

theorem Sound.disconnect (h : w.Sound []) (hphase : w.phase ≠ .ended) (message : String) :
    (w.disconnect message).Sound [] := by
  have hout := h.takeOut .empty w.pending.rows (by simp [Table.empty])
  have htold := hout.tellAll (fun call =>
    .error (.uncertain (call.operation ++ " disconnected after delivery: " ++ message)))
    fun row hrow => h.carried_eq (h.backed row hrow)
  exact (htold.write _).turn rfl hphase .setup

theorem Sound.wrote (h : w.Sound []) (hphase : w.phase ≠ .ended) (sent : Option String) :
    (w.wrote sent).Sound [] := by
  cases sent with
  | none => exact h
  | some cause => exact h.disconnect hphase cause

/-! ## writing calls -/

theorem asks_request {connection : Nat} {id id' method : String} {params : Value}
    {command : Option Nat} :
    Packet.asks ⟨connection, request id method params, command⟩ id' = true ↔ id = id' := by
  simp [Packet.asks, request, Value.get, Value.get?, isText, Value.asStr, List.lookup_cons]

/-- Above the last id there is none. -/
theorem Sound.unused (h : w.Sound owed) {n : Nat} (hn : w.nextId < n) : w.issued n = 0 := by
  have hissued := h.issuedOnce n
  rw [if_neg (by omega)] at hissued
  omega

theorem Backed.asked {id : String} {call : Pending} (h : w.Backed id call) :
    ∃ p ∈ w.wire, p.asks id = true := by
  cases h with
  | direct _ sent =>
    obtain ⟨params, hmem⟩ := sent
    exact ⟨_, hmem, asks_request.mpr rfl⟩
  | history _ _ reads _ _ _ =>
    obtain ⟨params, hmem⟩ := reads
    exact ⟨_, hmem, asks_request.mpr rfl⟩

theorem Sound.row_ne (h : w.Sound owed) {n : Nat} (hn : w.nextId < n) :
    ∀ row ∈ w.pending.rows, row.1 ≠ gatewayId n := by
  intro row hrow heq
  obtain ⟨p, hp, hasks⟩ := (h.backed row hrow).asked
  have hpos : 0 < w.issued n := List.countP_pos_iff.mpr ⟨p, hp, heq ▸ hasks⟩
  have hzero := h.unused hn
  omega

/-- The next id is taken. -/
theorem Sound.bump (h : w.Sound owed) : { w with nextId := w.nextId + 1 }.Sound owed :=
  h.changed (fun _ => rfl) (fun _ => Nat.le_refl _) rfl (fun hp => hp) (Nat.le_succ _) rfl
    (fun _ hm => hm) (fun row hrow => Backed.keep (w := w) rfl rfl rfl (h.backed row hrow))
    h.told h.idle

/-- A request under the next id, and a call that waits for its reply. -/
theorem Sound.ask {method : String} {params : Value} {command : Option Nat} {state : State}
    (call : Pending) (h : w.Sound (call.answer :: owed)) (hphase : w.phase = .connected)
    (hcommand : ∀ t ∈ command, t = call.answer ∧ w.carried t = 0)
    (hbacked : Backed (w.hand (request (gatewayId (w.nextId + 1)) method params) command)
      (gatewayId (w.nextId + 1)) call) :
    (Worker.hand { w with
      state
      nextId := w.nextId + 1
      pending := w.pending.put (gatewayId (w.nextId + 1)) call }
      (request (gatewayId (w.nextId + 1)) method params) command).Sound owed := by
  have hhand : Sound (Worker.hand { w with state, nextId := w.nextId + 1 }
      (request (gatewayId (w.nextId + 1)) method params) command) (call.answer :: owed) := by
    refine (h.bump.write state).hand ?_ ?_
    · intro n hn
      obtain rfl := gatewayId_inj (asks_request.mp hn)
      exact ⟨Nat.le_refl _, h.unused (Nat.lt_succ_self _)⟩
    · intro t ht
      obtain ⟨rfl, hzero⟩ := hcommand t ht
      exact ⟨List.mem_cons_self, hzero⟩
  refine hhand.park hphase ?_ (h.row_ne (Nat.lt_succ_self _))
  exact Backed.mono
    (w := w.hand (request (gatewayId (w.nextId + 1)) method params) command)
    (fun _ hp => hp) (fun _ hm => hm) rfl hbacked

theorem Sound.deliver {method : String} {params : Value} {epoch deadline answer : Nat}
    (h : w.Sound (answer :: owed)) (hphase : w.phase = .connected) (hzero : w.carried answer = 0) :
    (w.deliver method params epoch deadline answer).Sound owed := by
  refine Sound.ask (.mk method _ _ _ deadline epoch .direct answer) h hphase ?_ ?_
  · rintro t ⟨⟩
    exact ⟨rfl, hzero⟩
  · exact .direct rfl ⟨params, List.mem_append_right _ (List.mem_singleton_self _)⟩

theorem Sound.readHistory {call : Pending} {own : String} {message resume : Value}
    {threadId : String} (h : w.Sound (call.answer :: owed)) (hphase : w.phase = .connected)
    (hmethod : call.method = "thread/resume")
    (hsent : w.Sent w.connection own "thread/resume" call.answer)
    (hreplied : w.Replied w.connection own message)
    (hgiven : message.get? "result" = some resume) :
    (w.readHistory call resume threadId).Sound owed := by
  refine Sound.ask { call with continuation := .canonicalResume resume } h hphase ?_ ?_
  · rintro t ⟨⟩
  · refine .history rfl hmethod ?_ ?_ hreplied hgiven
    · exact ⟨_, List.mem_append_right _ (List.mem_singleton_self _)⟩
    · exact hsent.mono fun _ hp => List.mem_append_left _ hp

/-! ## what the worker does -/

theorem isPlain_response (id result : Value) : IsPlain (.obj [("id", id), ("result", result)]) := by
  intro n connection command
  simp [Packet.asks, Value.get?, List.lookup_cons]

/-- The guards of a command, when it is taken. -/
def Permitted (s : State) (now : Nat) : Command → Prop
  | .call method params epoch deadline _ =>
    (∀ threadId, (params.get "threadId").asStr = some threadId →
      (threadId ∈ s.archivedThreads → method ∉ archivedMethods) ∧
      (s.scopeClosed threadId = true → method ∉ scopedMethods)) ∧
    now < deadline ∧ s.epoch = epoch
  | .respond id _ epoch requestToken _ => mayRespond s id epoch requestToken = true
  | .stop => False

/-- What a worker makes of the command it took from its channel. -/
inductive Taken (w : Worker) (now : Nat) (sent : Option String) : Command → Worker → Prop
  | declined (command : Command) (message : String) :
      Taken w now sent command (w.decline command message)
  | stopped : Taken w now sent .stop w.quit
  /-- a guard does not hold -/
  | refused {command : Command} {t : Nat} {f : Failure} (ht : command.answer? = some t)
      (hf : IsLocal f) :
      Taken w now sent command (w.tell t (.error f))
  | called {method : String} {params : Value} {epoch deadline answer : Nat}
      (hopen : w.stopping = false)
      (hpermitted : Permitted w.state now (.call method params epoch deadline answer)) :
      Taken w now sent (.call method params epoch deadline answer)
        ((w.deliver method params epoch deadline answer).wrote sent)
  | responded {id result : Value} {epoch answer : Nat} {requestToken : String}
      (hopen : w.stopping = false)
      (hmay : mayRespond w.state id epoch requestToken = true) :
      Taken w now sent (.respond id result epoch requestToken answer)
        (match sent with
        | none => (w.hand (.obj [("id", id), ("result", result)]) (some answer)).tell answer
            (.ok (.obj [("delivered", .bool true)]))
        | some cause => ((w.hand (.obj [("id", id), ("result", result)]) (some answer)).tell answer
            (.error (.uncertain cause))).disconnect cause)

theorem take_cases {w' : Worker} {now : Nat} {sent : Option String}
    (h : w.take now sent = some w') :
    ∃ command commands, w.commands = command :: commands ∧
      Taken { w with commands } now sent command w' := by
  cases hcommands : w.commands with
  | nil =>
    simp only [Worker.take, hcommands] at h
    cases h
  | cons command commands =>
    refine ⟨command, commands, rfl, ?_⟩
    simp only [Worker.take, hcommands] at h
    split at h
    case isTrue =>
      obtain rfl := Option.some.inj h
      exact .declined command _
    case isFalse hstopping =>
      have hopen := Bool.eq_false_iff.mpr hstopping
      cases command with
      | stop =>
        obtain rfl := Option.some.inj h
        exact .stopped
      | call method params epoch deadline answer =>
        simp only at h
        split at h
        · obtain rfl := Option.some.inj h
          exact .refused rfl (.rejected _)
        · split at h
          · obtain rfl := Option.some.inj h
            exact .refused rfl (.rejected _)
          · split at h
            · obtain rfl := Option.some.inj h
              exact .refused rfl (.unavailable _)
            · rename_i harchived hscope hlate
              obtain ⟨hnow, hepoch⟩ := not_or.mp hlate
              obtain rfl := Option.some.inj h
              refine .called hopen ⟨?_, Nat.lt_of_not_le hnow, not_not.mp hepoch⟩
              intro threadId hthread
              simp only [hthread, Option.any_some, Bool.and_eq_true, decide_eq_true_eq,
                List.contains_iff_mem, not_and] at harchived hscope
              exact ⟨harchived, hscope⟩
      | respond id result epoch requestToken answer =>
        simp only at h
        split at h
        case isTrue hmay =>
          cases sent <;> (obtain rfl := Option.some.inj h; exact .responded hopen hmay)
        case isFalse =>
          obtain rfl := Option.some.inj h
          exact .refused rfl (.rejected _)

theorem Sound.decline {command : Command} {commands : List Command} (h : w.Sound [])
    (hcommands : w.commands = command :: commands) (message : String) :
    (Worker.decline { w with commands } command message).Sound [] := by
  cases hanswer : command.answer? with
  | some t =>
    obtain ⟨hpop, hzero⟩ := h.pop hcommands hanswer
    simp only [Worker.decline, hanswer]
    exact hpop.tell (.of_local (.unavailable _) (.inl hzero))
  | none =>
    simp only [Worker.decline, hanswer]
    exact h.skip hcommands hanswer

theorem Sound.take {w' : Worker} {now : Nat} {sent : Option String} (h : w.Sound [])
    (hphase : w.phase = .connected) (htake : w.take now sent = some w') : w'.Sound [] := by
  have hended : w.phase ≠ .ended := by simp [hphase]
  obtain ⟨command, commands, hcommands, htaken⟩ := take_cases htake
  cases htaken with
  | declined => exact h.decline hcommands _
  | stopped => exact (h.skip hcommands rfl).quit
  | refused ht hf =>
    obtain ⟨hpop, hzero⟩ := h.pop hcommands ht
    exact hpop.tell (.of_local hf (.inl hzero))
  | called hopen hpermitted =>
    obtain ⟨hpop, hzero⟩ := h.pop hcommands rfl
    exact (hpop.deliver hphase hzero).wrote hended sent
  | @responded id result epoch answer requestToken hopen hmay =>
    obtain ⟨hpop, hzero⟩ := h.pop hcommands rfl
    have hown : ∀ t ∈ some answer, t ∈ [answer] ∧ w.carried t = 0 := by
      rintro t ⟨⟩
      exact ⟨List.mem_cons_self, hzero⟩
    have hhand := hpop.handPlain (isPlain_response id result) hown
    cases sent with
    | none =>
      refine hhand.tell (.response w.connection id result ?_)
      exact List.mem_append_right _ (List.mem_singleton_self _)
    | some cause =>
      refine (hhand.tell ?_).disconnect hended cause
      show carried _ answer = 1
      rw [carried_hand, if_pos rfl]
      exact congrArg (· + 1) hzero

/-- The reply to a call that was taken from the table. -/
theorem Sound.reply {call : Pending} {id : String} {message : Value} {now : Nat}
    {scope : DirectoryScope} {sent : Option String} (h : w.Sound [call.answer])
    (hphase : w.phase = .connected) (hcall : w.Backed id call)
    (hreplied : w.Replied w.connection id message) :
    (w.reply print call message now scope sent).Sound [] := by
  have hended : w.phase ≠ .ended := by simp [hphase]
  cases hcall with
  | history kind method reads own replied given =>
    have hbacked := Backed.history kind method reads own replied given
    simp only [Worker.reply, kind, resultOf]
    refine h.settle hbacked ?_
    cases hresult : message.get? "result" with
    | none => exact .history own reads hreplied hresult
    | some read =>
      show w.Told call.answer (canonicalResume _ read _)
      cases hmerged : canonicalResume _ read (call.threadId.getD "") with
      | ok v => exact .history own replied given reads hreplied hresult hmerged
      | error f => exact .of_local (canonicalResume_error hmerged) (.inr ⟨_, _, own⟩)
  | direct kind own =>
    have hbacked := Backed.direct kind own
    simp only [Worker.reply, kind, resultOf]
    cases hresult : message.get? "result" with
    | none => exact h.settle hbacked (.direct own hreplied hresult)
    | some resume =>
      simp only
      split
      case isFalse => exact h.settle hbacked (.direct own hreplied hresult)
      case isTrue hneeds =>
        rw [hneeds.1] at own
        have hresumed : ∃ connection id, w.Sent connection id "thread/resume" call.answer :=
          ⟨_, _, own⟩
        split
        case h_1 => exact h.settle hbacked (.of_local (.rejected _) (.inr hresumed))
        case h_2 threadId _ =>
          split
          case h_1 f hfence =>
            refine h.settle hbacked (.of_local ?_ (.inr hresumed))
            cases hidentity : resumeIdentity resume threadId with
            | error g =>
              rw [hidentity] at hfence
              obtain rfl := Except.error.inj hfence
              exact resumeIdentity_error hidentity
            | ok cwd =>
              rw [hidentity] at hfence
              exact resumeFence_error hfence
          case h_2 =>
            exact (h.readHistory hphase hneeds.1 own hreplied hresult).wrote hended sent

theorem Sound.receive {message : Value} {now : Nat} {scope : DirectoryScope}
    {sent : Option String} (h : w.Sound []) (hphase : w.phase = .connected) :
    (w.receive print message now scope sent).Sound [] := by
  have hheard := h.hear (w.connection, message)
  simp only [Worker.receive]
  split
  case h_1 => exact hheard.write _
  case h_2 id hid =>
    have hanswers := (Option.filter_eq_some_iff.mp hid).2
    split
    case h_1 => exact hheard
    case h_2 call hcall =>
      have hbacked := h.backed (id, call) (Table.mem_iff.mpr hcall)
      refine (hheard.takeOut _ [(id, call)] (Table.perm_erase hcall)).reply hphase
        (Backed.mono (w := w) ?_ ?_ rfl hbacked) ?_
      · exact fun _ hp => hp
      · exact fun _ hm => List.mem_append_left _ hm
      · exact ⟨List.mem_append_right _ (List.mem_singleton_self _), hanswers⟩

theorem Sound.expire {now : Nat} {scope : DirectoryScope} (h : w.Sound []) :
    (w.expire now scope).Sound [] := by
  have hrows := w.pending.perm_retain fun _ call => !decide (call.deadline ≤ now)
  simp only [Bool.not_not] at hrows
  refine (h.takeOut _ _ hrows).settleAll ?_ fun call => ⟨_, rfl⟩
  intro row hrow
  exact h.carried_eq (h.backed row (hrows.mem_iff.mpr (List.mem_append_left _ hrow)))

/-! ## connections -/

theorem isPlain_request {method : String} {params : Value} {c : Char} (word : String)
    (hc : word.toList.head? = some c) (hdigit : c.isDigit = false) :
    IsPlain (request ("gateway-" ++ word) method params) := by
  intro n connection command
  rw [Bool.eq_false_iff]
  intro hasks
  exact gatewayId_ne hc hdigit n (asks_request.mp hasks)

theorem isPlain_numbered {method start : String} {params : Value} {c : Char} (word : String)
    (hstart : start = "gateway-" ++ word) (hc : word.toList.head? = some c)
    (hdigit : c.isDigit = false) (n : Nat) :
    IsPlain (request (start ++ toString n) method params) := by
  rw [hstart, String.append_assoc]
  exact isPlain_request _ (by simp [hc]) hdigit

/-- Packets for no command, under no id of the worker's own requests. -/
theorem Sound.handAll {bodies : List Value} (h : w.Sound owed) (hbodies : ∀ b ∈ bodies, IsPlain b) :
    (bodies.foldl (fun (w : Worker) body => w.hand body none) w).Sound owed := by
  induction bodies generalizing w with
  | nil => exact h
  | cons body bodies ih =>
    refine ih (h.handPlain (hbodies body List.mem_cons_self) ?_) fun b hb =>
      hbodies b (List.mem_cons_of_mem _ hb)
    rintro t ⟨⟩

theorem Sound.release (h : w.Sound owed) (released : Nat) : (w.release released).Sound owed := by
  have hbodies : w.release released =
      (((w.state.subscribed.sort (· ≤ ·)).zipIdx.take released).map fun t =>
        request ("gateway-unsubscribe-" ++ toString t.2) "thread/unsubscribe"
          (.obj [("threadId", .str t.1)])).foldl (fun (w : Worker) body => w.hand body none) w := by
    rw [List.foldl_map]
    rfl
  rw [hbodies]
  refine h.handAll fun body hbody => ?_
  obtain ⟨t, -, rfl⟩ := List.mem_map.mp hbody
  exact isPlain_numbered "unsubscribe-" rfl (c := 'u') (by simp) (by decide) t.2

theorem Sound.shutdown {released now : Nat} {scope : DirectoryScope} (h : w.Sound []) :
    (w.shutdown released now scope).Sound [] := by
  have hreleased := h.release released
  have htaken := hreleased.takeOut .empty (w.release released).pending.rows (by simp [Table.empty])
  refine (htaken.settleAll ?_ fun call => ⟨_, rfl⟩).quit
  intro row hrow
  exact hreleased.carried_eq (hreleased.backed row hrow)

/-- A connection that is set up uses no id of the worker's own requests. -/
def SentPlain (b : Boot) : Prop := ∀ body ∈ b.sent, IsPlain body

theorem SentPlain.call {b : Boot} (print : Value → String) {id method : String} {params : Value}
    (h : SentPlain b) (hid : IsPlain (request id method params)) :
    SentPlain (b.call print id method params).2 := by
  intro body hbody
  obtain hbody | hbody := List.mem_append.mp hbody
  · exact h body hbody
  · rwa [List.mem_singleton.mp hbody]

theorem SentPlain.recovered {b : Boot} {index : Nat} {threadId : String} (h : SentPlain b) :
    SentPlain (b.recovered print index threadId).2 := by
  have hresume : IsPlain (request ("gateway-recover-" ++ toString index) "thread/resume"
      (.obj [("threadId", .str threadId)])) :=
    isPlain_numbered "recover-" rfl (c := 'r') (by simp) (by decide) index
  have hread : IsPlain (request ("gateway-recover-history-" ++ toString index) "thread/read"
      (.obj [("threadId", .str threadId), ("includeTurns", .bool true)])) :=
    isPlain_numbered "recover-history-" rfl (c := 'r') (by simp) (by decide) index
  have hfirst := h.call print hresume
  simp only [Boot.recovered]
  split
  case h_1 f b' hcall => exact hcall ▸ hfirst
  case h_2 resume b' hcall =>
    rw [hcall] at hfirst
    split
    · split
      · exact hfirst
      · exact hfirst.call print hread
    · exact hfirst

theorem SentPlain.recover {scopeOf : Value → DirectoryScope} {b : Boot} {index : Nat}
    {threadId : String} (h : SentPlain b) :
    SentPlain (b.recover print scopeOf index threadId) := by
  have hbegun : SentPlain { b with state := b.state.beginResume threadId } := h
  exact hbegun.recovered

theorem SentPlain.bootstrap {scopeOf : Value → DirectoryScope} {hello : Value} {b : Boot}
    (h : SentPlain b) : SentPlain (b.bootstrap print scopeOf hello).2 := by
  have hhello : IsPlain (request "gateway-initialize" "initialize" hello) :=
    isPlain_request "initialize" (c := 'i') (by decide) (by decide)
  have hdone : IsPlain (.obj [("method", .str "initialized")]) := by
    intro n connection command
    simp [Packet.asks, Value.get, Value.get?, List.lookup_cons, isText, Value.asStr]
  have hfirst := h.call print hhello
  simp only [Boot.bootstrap]
  split
  case h_1 f b' hcall =>
    rw [hcall] at hfirst
    exact hfirst
  case h_2 v b' hcall =>
    rw [hcall] at hfirst
    have hsecond : ∀ body ∈ b'.sent ++ [.obj [("method", .str "initialized")]], IsPlain body := by
      intro body hbody
      obtain hbody | hbody := List.mem_append.mp hbody
      · exact hfirst body hbody
      · rwa [List.mem_singleton.mp hbody]
    split
    · exact hsecond
    · refine List.foldlRecOn (motive := SentPlain) _ _ hsecond ?_
      intro b hb t _
      exact hb.recover

theorem Sound.publish {b : Boot} (h : w.Sound []) (hphase : w.phase = .setup) (hb : SentPlain b)
    (failed : Option String) : (w.publish failed b).Sound [] := by
  have hidle : w.pending.rows = [] := h.idle (by simp [hphase])
  have hkeep (v : Worker) :
      (b.sent.foldl (fun (w : Worker) body => w.hand body none) v).pending = v.pending ∧
      (b.sent.foldl (fun (w : Worker) body => w.hand body none) v).phase = v.phase :=
    List.foldlRecOn (motive := fun u : Worker => u.pending = v.pending ∧ u.phase = v.phase) _ _
      ⟨rfl, rfl⟩ fun u hu body _ => hu
  have hsent := (h.write b.state).handAll hb
  obtain ⟨hpending, hkept⟩ := hkeep { w with state := b.state }
  have hended : (b.sent.foldl (fun (w : Worker) body => w.hand body none)
      { w with state := b.state }).phase ≠ .ended := by
    rw [hkept]
    simp [hphase]
  cases failed with
  | none => exact hsent.turn (by rw [hpending]; exact hidle) hended .connected
  | some message =>
    exact (hsent.write (w.publish (some message) b).state).turn (by rw [hpending]; exact hidle)
      hended (.waiting message)

theorem Sound.boot {opened : Option String} {hello : Value} {scopeOf : Value → DirectoryScope}
    {script : List Look} (h : w.Sound []) (hphase : w.phase = .setup) :
    (w.boot print opened hello scopeOf script).Sound [] := by
  have hidle : w.pending.rows = [] := h.idle (by simp [hphase])
  have hnew : Sound { w with connection := w.connection + 1 } [] :=
    h.changed (fun _ => rfl) (fun _ => Nat.le_refl _) rfl (fun hp => hp) (Nat.le_refl _) rfl
      (fun _ hm => hm) (fun _ hrow => absurd (hidle ▸ hrow) List.not_mem_nil) h.told h.idle
  have hnothing (script : List Look) : SentPlain { state := w.state, script } :=
    fun _ hbody => absurd hbody List.not_mem_nil
  cases opened with
  | some cause => exact hnew.publish hphase (hnothing []) (some cause)
  | none => exact hnew.publish hphase (hnothing script).bootstrap _

theorem Sound.refuse {w' : Worker} {message : String} (h : w.Sound [])
    (hphase : w.phase = .waiting message) (hrefuse : w.refuse message = some w') : w'.Sound [] := by
  have hidle : w.pending.rows = [] := h.idle (by simp [hphase])
  have hkeep (command : Command) (commands : List Command) :
      (Worker.decline { w with commands } command message).pending = w.pending ∧
      (Worker.decline { w with commands } command message).phase = w.phase := by
    simp only [Worker.decline]
    split <;> exact ⟨rfl, rfl⟩
  have hdeclined {command : Command} {commands : List Command}
      (hcommands : w.commands = command :: commands)
      (h' : some (if isPatient message then Worker.decline { w with commands } command message
        else { Worker.decline { w with commands } command message with phase := .setup }) =
          some w') : w'.Sound [] := by
    obtain ⟨hpending, hkept⟩ := hkeep command commands
    have hsound := h.decline hcommands message
    obtain rfl := Option.some.inj h'
    split
    · exact hsound
    · refine hsound.turn ?_ ?_ .setup
      · rw [hpending, hidle]
      · rw [hkept, hphase]
        intro heq
        cases heq
  cases hcommands : w.commands with
  | nil =>
    simp only [Worker.refuse, hcommands] at hrefuse
    cases hrefuse
  | cons command commands =>
    simp only [Worker.refuse, hcommands] at hrefuse
    cases command with
    | stop =>
      obtain rfl := Option.some.inj hrefuse
      exact (h.skip hcommands rfl).quit
    | call => exact hdeclined hcommands hrefuse
    | respond => exact hdeclined hcommands hrefuse

/-! ## runs -/

/-- The worker after some events. -/
abbrev Runs (print : Value → String) (endpoint : String) (state : State) (es : List Event)
    (w : Worker) : Prop :=
  Run (fun w e w' => w.step print e = some w') (start endpoint state) es w

/-- **Step lemma.** Every event keeps the invariant. -/
theorem Sound.step {w' : Worker} {e : Event} (h : w.Sound [])
    (hstep : w.step print e = some w') : w'.Sound [] := by
  cases e with
  | ask method params epoch deadline =>
    obtain rfl := Option.some.inj hstep
    exact h.submit fun _ => rfl
  | respond id result epoch requestToken =>
    obtain rfl := Option.some.inj hstep
    exact h.submit fun _ => rfl
  | stop =>
    obtain rfl := Option.some.inj hstep
    have hqueued (u : Nat) :
        queued { w with commands := w.commands ++ [.stop] } u = w.queued u := by
      simp [queued, List.countP_append, Command.answer?]
    refine h.moved ?_ (fun u => (hqueued u).le) rfl rfl rfl rfl (fun _ hrow => hrow) rfl
      (fun _ hm => hm) rfl
    intro u
    simp only [places, hqueued u]
    rfl
  | write state =>
    obtain rfl := Option.some.inj hstep
    exact h.write state
  | close =>
    obtain rfl := Option.some.inj hstep
    exact h.close
  | boot opened hello scopeOf script =>
    simp only [Worker.step] at hstep
    split at hstep
    case isTrue hphase =>
      obtain rfl := Option.some.inj hstep
      split
      · exact h.quit
      · exact h.boot hphase
    case isFalse => cases hstep
  | refuse =>
    simp only [Worker.step] at hstep
    split at hstep
    case h_1 message hphase => exact h.refuse hphase hstep
    case h_2 => cases hstep
  | wake =>
    simp only [Worker.step] at hstep
    split at hstep
    case h_1 message hphase =>
      obtain rfl := Option.some.inj hstep
      exact h.turn (h.idle (by simp [hphase])) (by simp [hphase]) .setup
    case h_2 => cases hstep
  | take now sent =>
    obtain ⟨hphase, htake⟩ := Option.ite_none_right_eq_some.mp hstep
    exact h.take hphase htake
  | receive message now scope sent =>
    obtain ⟨hphase, ⟨⟩⟩ := Option.ite_none_right_eq_some.mp hstep
    exact h.receive hphase
  | lose cause =>
    obtain ⟨hphase, ⟨⟩⟩ := Option.ite_none_right_eq_some.mp hstep
    exact h.disconnect (by simp [hphase]) cause
  | expire now scope =>
    obtain ⟨-, ⟨⟩⟩ := Option.ite_none_right_eq_some.mp hstep
    exact h.expire
  | shutdown released now scope =>
    obtain ⟨-, ⟨⟩⟩ := Option.ite_none_right_eq_some.mp hstep
    exact h.shutdown

/-- **Run lemma.** -/
theorem run_sound {endpoint : String} {state : State} {es : List Event} {w : Worker}
    (h : Runs print endpoint state es w) :
    w.Sound [] :=
  h.kept (P := fun w => w.Sound []) (Q := fun _ => True) (fun _ _ _ _ hstep hs => hs.step hstep)
    (fun _ _ => trivial) (start_sound endpoint state)

/-- A turn that is started on a new connection. -/
def delivered : List Event :=
  [.ask "turn/start" (.obj []) 1 9,
    .boot none .null (fun _ => .unrestricted)
      [.heard (.obj [("id", .str "gateway-initialize"), ("result", .obj [])]) .unrestricted],
    .take 3 none,
    .receive (.obj [("id", .str "gateway-1"), ("result", .bool true)]) 5 .unrestricted none]

theorem delivered_runs : ∃ w,
    Runs (fun _ => "") "codex" (.connecting [] "n") delivered w ∧ w.phase = .connected ∧
    w.answers.map Prod.fst = [0] ∧ ∃ p ∈ w.wire, p.command = some 0 := by
  have hrun : ((delivered.foldlM (step fun _ => "")
      (start "codex" (.connecting [] "n"))).any fun w =>
        decide (w.phase = .connected) && decide (w.answers.map Prod.fst = [0]) &&
        w.wire.any fun p => decide (p.command = some 0)) = true := by decide +kernel
  obtain ⟨w, hw, hend⟩ := (Option.any_eq_true _ _).mp hrun
  simp only [Bool.and_eq_true, decide_eq_true_eq, List.any_eq_true] at hend
  exact ⟨w, .of_foldlM hw, hend.1.1, hend.1.2, hend.2⟩

/-- **A command is in one place.** In every run a command is on the channel, pending, or answered,
never twice and in no two of them, and it is lost only when the worker has ended; over all
connections it goes to a socket at most once, and no id is used for two requests. -/
theorem command_once {endpoint : String} {state : State} {es : List Event} {w : Worker}
    (h : Runs print endpoint state es w) :
    (∀ t, w.queued t + w.waiting t + w.answered t ≤ 1 ∧ w.carried t ≤ 1) ∧
    (w.phase ≠ .ended → ∀ t < w.channels, w.queued t + w.waiting t + w.answered t = 1) ∧
    ∀ n, w.issued n ≤ 1 := by
  have hsound := run_sound h
  refine ⟨?_, ?_, ?_⟩
  · intro t
    have honce := hsound.once t
    have hcarried := hsound.carriedOnce t
    simp only [places, List.count_nil, Nat.add_zero] at honce
    exact ⟨honce, by omega⟩
  · intro hphase t ht
    have hkept := hsound.kept hphase t ht
    simpa only [places, List.count_nil, Nat.add_zero] using hkept
  · intro n
    refine (hsound.issuedOnce n).trans ?_
    split <;> omega

theorem command_once_delivered : ∃ w : Worker,
    w.phase = .connected ∧ w.answered 0 = 1 ∧ w.carried 0 = 1 ∧
    w.queued 0 + w.waiting 0 = 0 ∧ w.issued 1 ≤ 1 := by
  obtain ⟨w, hrun, hphase, hanswers, p, hp, hcommand⟩ := delivered_runs
  obtain ⟨honce, -, hissued⟩ := command_once hrun
  have hanswered : w.answered 0 = 1 := by
    have hcount : w.answered 0 = (w.answers.map Prod.fst).countP fun t => t = 0 := by
      rw [List.countP_map]
      rfl
    rw [hcount, hanswers]
    decide
  have hcarried : 0 < w.carried 0 := List.countP_pos_iff.mpr ⟨p, hp, by simp [hcommand]⟩
  obtain ⟨hplaces, hone⟩ := honce 0
  exact ⟨w, hphase, hanswered, by omega, by omega, hissued 1⟩

/-- **Answers are true.** A result is the server's own, for a request of this command under the id
of the reply and on its connection; so is a refusal. A command in doubt went to a socket exactly
once, and one that the worker turned away went to none, a resume apart. -/
theorem answer_told {endpoint : String} {state : State} {es : List Event} {w : Worker}
    (h : Runs print endpoint state es w) {t : Nat}
    {a : Answer} (ha : (t, a) ∈ w.answers) : w.Told t a :=
  (run_sound h).told t a ha

theorem answer_told_delivered : ∃ (w : Worker) (a : Answer), (0, a) ∈ w.answers ∧ w.Told 0 a := by
  obtain ⟨w, hrun, -, hanswers, -⟩ := delivered_runs
  have hmem : 0 ∈ w.answers.map Prod.fst := by simp [hanswers]
  obtain ⟨⟨t, a⟩, ha, rfl⟩ := List.mem_map.mp hmem
  exact ⟨w, a, ha, answer_told hrun ha⟩

/-! ## guards -/

/-- What a packet carries out. -/
def Carries (body : Value) : Command → Prop
  | .call method params _ _ _ => ∃ id, body = request id method params
  | .respond id result _ _ _ => body = .obj [("id", id), ("result", result)]
  | .stop => False

/-- The command that is taken next may be carried out now. -/
def Goes (w : Worker) (now : Nat) (p : Packet) : Prop :=
  ∃ command, w.commands.head? = some command ∧ p.command = command.answer? ∧
    p.connection = w.connection ∧ w.phase = .connected ∧ w.stopping = false ∧
    Permitted w.state now command ∧ Carries p.body command

/-- Nothing more was written for a command. -/
def Quiet (w w' : Worker) : Prop := ∀ p ∈ w'.wire, p ∈ w.wire ∨ p.command = none

theorem Quiet.trans {w' w'' : Worker} (h : w.Quiet w') (h' : w'.Quiet w'') : w.Quiet w'' := by
  intro p hp
  obtain hp | hnone := h' p hp
  · exact h p hp
  · exact .inr hnone

theorem Quiet.of_wire {w' : Worker} (h : w'.wire = w.wire) : w.Quiet w' :=
  fun _ hp => .inl (h ▸ hp)

theorem quiet_hand (w : Worker) (body : Value) : w.Quiet (w.hand body none) := by
  intro p hp
  obtain hp | hp := List.mem_append.mp hp
  · exact .inl hp
  · rw [List.mem_singleton.mp hp]
    exact .inr rfl

theorem quiet_fold {α : Type} (f : Worker → α → Worker) (hf : ∀ w a, Quiet w (f w a))
    (xs : List α) (w : Worker) : w.Quiet (xs.foldl f w) := by
  induction xs generalizing w with
  | nil => exact .of_wire rfl
  | cons x xs ih => exact (hf w x).trans (ih _)

theorem quiet_wrote (w : Worker) (sent : Option String) : w.Quiet (w.wrote sent) := by
  cases sent with
  | none => exact .of_wire rfl
  | some cause => exact .of_wire rfl

theorem quiet_decline (w : Worker) (command : Command) (message : String) :
    w.Quiet (w.decline command message) := by
  simp only [Worker.decline]
  split <;> exact .of_wire rfl

theorem quiet_reply (w : Worker) (call : Pending) (message : Value) (now : Nat)
    (scope : DirectoryScope) (sent : Option String) :
    w.Quiet (w.reply print call message now scope sent) := by
  simp only [Worker.reply]
  split
  · exact .of_wire rfl
  · split
    · exact .of_wire rfl
    · split
      · split
        · exact .of_wire rfl
        · split
          · exact .of_wire rfl
          · exact (quiet_hand _ _).trans (quiet_wrote _ sent)
      · exact .of_wire rfl

theorem quiet_receive (w : Worker) (message : Value) (now : Nat) (scope : DirectoryScope)
    (sent : Option String) : w.Quiet (w.receive print message now scope sent) := by
  simp only [Worker.receive]
  split
  · exact .of_wire rfl
  · split
    · exact .of_wire rfl
    · exact quiet_reply _ _ _ _ _ _

theorem quiet_settleAll (w : Worker) (calls : List (String × Pending)) (result : Pending → Answer)
    (now : Nat) (scope : DirectoryScope) : w.Quiet (w.settleAll calls result now scope) :=
  quiet_fold (fun (w : Worker) (row : String × Pending) => w.settle row.2 (result row.2) now scope)
    (fun _ _ => .of_wire rfl) calls w

theorem quiet_expire (w : Worker) (now : Nat) (scope : DirectoryScope) :
    w.Quiet (w.expire now scope) := by
  have hrest : w.Quiet { w with
      pending := w.pending.retain fun _ call => !decide (call.deadline ≤ now) } := .of_wire rfl
  exact hrest.trans (quiet_settleAll _ _ _ now scope)

theorem quiet_release (w : Worker) (released : Nat) : w.Quiet (w.release released) :=
  quiet_fold _ (fun _ _ => quiet_hand _ _) _ w

theorem quiet_shutdown (w : Worker) (released now : Nat) (scope : DirectoryScope) :
    w.Quiet (w.shutdown released now scope) := by
  have hrest : w.Quiet { w.release released with pending := .empty } := quiet_release w released
  have hsettled := hrest.trans (quiet_settleAll _ (w.release released).pending.rows
    (fun _ => .error (.uncertain ("Native mode closed after delivery; check the saved action " ++
      "receipt before retrying"))) now scope)
  exact hsettled

theorem quiet_publish (w : Worker) (failed : Option String) (b : Boot) :
    w.Quiet (w.publish failed b) := by
  have hsent : w.Quiet (b.sent.foldl (fun (w : Worker) body => w.hand body none)
      { w with state := b.state }) :=
    quiet_fold _ (fun _ _ => quiet_hand _ _) b.sent { w with state := b.state }
  cases failed <;> exact hsent

theorem quiet_refuse {w' : Worker} {message : String} (h : w.refuse message = some w') :
    w.Quiet w' := by
  simp only [Worker.refuse] at h
  split at h
  · cases h
  · obtain rfl := Option.some.inj h
    exact .of_wire rfl
  · obtain rfl := Option.some.inj h
    split <;> exact quiet_decline { w with commands := _ } _ message

/-- What is written when a command is taken. -/
theorem take_goes {w' : Worker} {now : Nat} {sent : Option String} (hphase : w.phase = .connected)
    (h : w.take now sent = some w') :
    ∀ p ∈ w'.wire, p ∈ w.wire ∨ p.command = none ∨ w.Goes now p := by
  obtain ⟨command, commands, hcommands, htaken⟩ := take_cases h
  have hquiet {v : Worker} (hv : w.Quiet v) (p : Packet) (hp : p ∈ v.wire) :
      p ∈ w.wire ∨ p.command = none ∨ w.Goes now p :=
    (hv p hp).imp_right .inl
  have hgoes {body : Value} (hopen : w.stopping = false)
      (hpermitted : Permitted w.state now command) (hcarries : Carries body command) (p : Packet)
      (hp : p ∈ w.wire ++ [⟨w.connection, body, command.answer?⟩]) :
      p ∈ w.wire ∨ p.command = none ∨ w.Goes now p := by
    obtain hp | hp := List.mem_append.mp hp
    · exact .inl hp
    · obtain rfl := List.mem_singleton.mp hp
      exact .inr (.inr ⟨command, by rw [hcommands, List.head?_cons], rfl, rfl, hphase, hopen,
        hpermitted, hcarries⟩)
  cases htaken with
  | declined _ message => exact hquiet (quiet_decline { w with commands } command message)
  | stopped | refused => exact hquiet (.of_wire rfl)
  | called hopen hpermitted =>
    intro p hp
    obtain hp | hnone := quiet_wrote _ sent p hp
    · exact hgoes hopen hpermitted ⟨_, rfl⟩ p hp
    · exact .inr (.inl hnone)
  | responded hopen hmay => cases sent <;> exact hgoes hopen hmay rfl

/-- What is written for a command is written when it is taken. -/
theorem step_goes {w' : Worker} {e : Event} (h : w.step print e = some w') {p : Packet}
    (hp : p ∈ w'.wire) (hcommand : p.command ≠ none) :
    p ∈ w.wire ∨ ∃ now sent, e = .take now sent ∧ w.Goes now p := by
  have hquiet (hq : w.Quiet w') : p ∈ w.wire ∨ ∃ now sent, e = .take now sent ∧ w.Goes now p :=
    .inl ((hq p hp).resolve_right hcommand)
  cases e with
  | take now sent =>
    obtain ⟨hphase, htake⟩ := Option.ite_none_right_eq_some.mp h
    obtain hp | hnone | hgoes := take_goes hphase htake p hp
    · exact .inl hp
    · exact absurd hnone hcommand
    · exact .inr ⟨now, sent, rfl, hgoes⟩
  | ask | respond | stop | write | close =>
    obtain rfl := Option.some.inj h
    exact hquiet (.of_wire rfl)
  | boot opened hello scopeOf script =>
    obtain ⟨-, ⟨⟩⟩ := Option.ite_none_right_eq_some.mp h
    apply hquiet
    split
    · exact .of_wire rfl
    · cases opened with
      | some cause => exact quiet_publish { w with connection := w.connection + 1 } _ _
      | none => exact quiet_publish { w with connection := w.connection + 1 } _ _
  | refuse =>
    simp only [Worker.step] at h
    split at h
    · exact hquiet (quiet_refuse h)
    · cases h
  | wake =>
    simp only [Worker.step] at h
    split at h
    · obtain rfl := Option.some.inj h
      exact hquiet (.of_wire rfl)
    · cases h
  | receive message now scope sent =>
    obtain ⟨-, ⟨⟩⟩ := Option.ite_none_right_eq_some.mp h
    exact hquiet (quiet_receive w message now scope sent)
  | lose cause =>
    obtain ⟨-, ⟨⟩⟩ := Option.ite_none_right_eq_some.mp h
    exact hquiet (.of_wire rfl)
  | expire now scope =>
    obtain ⟨-, ⟨⟩⟩ := Option.ite_none_right_eq_some.mp h
    exact hquiet (quiet_expire w now scope)
  | shutdown released now scope =>
    obtain ⟨-, ⟨⟩⟩ := Option.ite_none_right_eq_some.mp h
    exact hquiet (quiet_shutdown w released now scope)

/-- **Guarded writes.** Whatever was written for a command, in any run, was written when the
command was taken, by a connected worker that was not stopping, under the command's guards as the
state stood at that moment: the epoch of the connection, the deadline, an open scope and, for an
answer, the pending request and its token. -/
theorem written_permitted {endpoint : String} {state : State} {es : List Event} {w : Worker}
    (h : Runs print endpoint state es w) {p : Packet}
    (hp : p ∈ w.wire) (hcommand : p.command ≠ none) :
    ∃ pre now sent post u, es = pre ++ .take now sent :: post ∧
      Runs print endpoint state pre u ∧ u.Goes now p := by
  refine h.traced (P := fun es w => ∀ p ∈ w.wire, p.command ≠ none →
    ∃ pre now sent post u, es = pre ++ .take now sent :: post ∧
      Runs print endpoint state pre u ∧ u.Goes now p)
    ?_ ?_ p hp hcommand
  · intro p hp
    exact absurd hp List.not_mem_nil
  · intro pre u e v hpre hstep ih p hp hcommand
    obtain hold | ⟨now, sent, rfl, hgoes⟩ := step_goes hstep hp hcommand
    · obtain ⟨first, now, sent, post, u', rfl, hrun, hgoes⟩ := ih p hold hcommand
      exact ⟨first, now, sent, post ++ [e], u', by simp, hrun, hgoes⟩
    · exact ⟨pre, now, sent, [], u, rfl, hpre, hgoes⟩

theorem written_permitted_delivered : ∃ (w : Worker) (p : Packet), p ∈ w.wire ∧
    p.command = some 0 ∧ ∃ pre now sent post u, delivered = pre ++ .take now sent :: post ∧
      Runs (fun _ => "") "codex" (.connecting [] "n") pre u ∧ u.Goes now p := by
  obtain ⟨w, hrun, -, -, p, hp, hcommand⟩ := delivered_runs
  exact ⟨w, p, hp, hcommand, written_permitted hrun hp (by simp [hcommand])⟩

end Worker

end ClaudeReplay.Gateway
