import ClaudeReplay.Lib.Run
import Mathlib.Logic.Function.Basic

/-!
# ClaudeReplay.Monitor.Tmux

Sending a prompt into a live agent's tmux pane: check that the pane's input is empty,
leave the pane's mode, load the prompt into a named buffer, paste the buffer, read the
screen until the input shows a draft, press Enter.

The buffer has one name and belongs to the server, and nothing locks it or the pane, so
any number of sends run with the steps of the others between any two of their own. What a
read of the screen gives, and whether a tmux command succeeds, is up to the environment.

A send can paste the prompt that another one loaded (`crossed_paste`). `Server.Clear` is
the missing exclusion as a condition on the state a step starts from;
`orderly_own_prompt` is what holds of the runs that meet it.
-/

namespace ClaudeReplay.Monitor.Tmux

open Lib

/-! ## the server and its sends -/

/-- What the agent's input shows on the screen. -/
inductive InputLine
  | empty
  | draft
  | missing
  deriving DecidableEq

/-- A piece of text in an input, with the send that pasted it; `none` is the reader. -/
structure Piece (ι : Type) where
  sender : Option ι
  text : String
  deriving DecidableEq

/-- What a send reports. -/
inductive Report
  | ok
  | held
  | failed
  deriving DecidableEq

/-- Where a send is. -/
inductive Phase
  | idle
  /-- about to be let type at all -/
  | resolved (pane prompt : String)
  /-- the pane's input was read as empty -/
  | checked (pane prompt : String)
  /-- out of the pane's mode -/
  | ready (pane prompt : String)
  /-- the prompt is in the buffer -/
  | loaded (pane prompt : String)
  /-- pasted, with so many reads of the screen left -/
  | reading (pane prompt : String) (left : Nat)
  /-- the input shows a draft -/
  | entering (pane prompt : String)
  | ended (report : Report)
  deriving DecidableEq

/-- How often the screen is read for the draft. -/
def reads : Nat := 14

/-- The pane a send may type into: from its check to its Enter. -/
def Phase.types : Phase → Option String
  | .checked pane _ | .ready pane _ | .loaded pane _ | .reading pane _ _ | .entering pane _ =>
    some pane
  | _ => none

/-- The tmux server, with the inputs of its panes, and the sends. -/
structure Server (ι : Type) where
  buffer : Option String
  input : String → List (Piece ι)
  phase : ι → Phase

/-- A step of one send; what a command answers is part of it. -/
inductive Act
  | send (pane prompt : String)
  /-- `tmux_before_typing`: the agent holds the pane and waits on nothing, and what its input
  shows -/
  | check (holds : Bool) (seen : InputLine)
  /-- `leave_pane_mode` -/
  | leaveMode (ok : Bool)
  | loadBuffer (ok : Bool)
  | pasteBuffer (ok : Bool)
  | read (seen : InputLine)
  | enter (ok : Bool)
  deriving DecidableEq

/-- A step of a run. -/
structure Event (ι : Type) where
  who : ι
  act : Act

variable {ι : Type} [DecidableEq ι]

namespace Server

/-- Move one send. -/
def goto (s : Server ι) (i : ι) (p : Phase) : Server ι :=
  { s with phase := Function.update s.phase i p }

/-- Change the input of one pane. -/
def setInput (s : Server ι) (pane : String) (pieces : List (Piece ι)) : Server ι :=
  { s with input := Function.update s.input pane pieces }

/-- A step, `none` where it is not the send's next one. -/
def step (s : Server ι) (e : Event ι) : Option (Server ι) :=
  match e.act, s.phase e.who with
  | .send pane prompt, .idle => some (s.goto e.who (.resolved pane prompt))
  | .check holds seen, .resolved pane prompt =>
    if holds = true ∧ seen = .empty then some (s.goto e.who (.checked pane prompt))
    else some (s.goto e.who (.ended .held))
  | .leaveMode ok, .checked pane prompt =>
    if ok then some (s.goto e.who (.ready pane prompt)) else some (s.goto e.who (.ended .held))
  | .loadBuffer ok, .ready pane prompt =>
    if ok then some { s.goto e.who (.loaded pane prompt) with buffer := some prompt }
    else some (s.goto e.who (.ended .failed))
  | .pasteBuffer ok, .loaded pane prompt =>
    match ok, s.buffer with
    | true, some text =>
      some { (s.goto e.who (.reading pane prompt reads)).setInput pane
          (s.input pane ++ [⟨some e.who, text⟩]) with buffer := none }
    | true, none => none
    | false, _ => some (s.goto e.who (.ended .failed))
  | .read seen, .reading pane prompt left =>
    if seen = .draft then some (s.goto e.who (.entering pane prompt))
    else if left ≤ 1 then some (s.goto e.who (.ended .held))
    else some (s.goto e.who (.reading pane prompt (left - 1)))
  | .enter ok, .entering pane _ =>
    if ok then some ((s.goto e.who (.ended .ok)).setInput pane [])
    else some (s.goto e.who (.ended .failed))
  | _, _ => none

/-- The step as a relation. -/
def Next (s : Server ι) (e : Event ι) (t : Server ι) : Prop := s.step e = some t

@[simp] theorem goto_phase_self (s : Server ι) (i : ι) (p : Phase) : (s.goto i p).phase i = p :=
  Function.update_self ..

theorem goto_phase (s : Server ι) (i j : ι) (p : Phase) :
    (s.goto i p).phase j = if j = i then p else s.phase j := by
  by_cases h : j = i
  · subst h
    simp
  · simp [h, goto]

omit [DecidableEq ι] in
theorem setInput_input (s : Server ι) (pane other : String) (pieces : List (Piece ι)) :
    (s.setInput pane pieces).input other = if other = pane then pieces else s.input other := by
  by_cases h : other = pane
  · subst h
    simp [setInput]
  · simp [h, setInput]

end Server

/-! ## the steps that keep out of each other's way -/

/-- **The missing exclusion.** A check that finds the input empty finds it so where it is
empty, and no other send is typing into the pane; a prompt is loaded while no other send has
one in the buffer. -/
def Server.Clear (s : Server ι) (e : Event ι) : Prop :=
  match e.act with
  | .check true .empty => ∀ pane prompt, s.phase e.who = .resolved pane prompt →
      s.input pane = [] ∧ ∀ i, (s.phase i).types ≠ some pane
  | .loadBuffer true => ∀ i pane prompt, s.phase i ≠ .loaded pane prompt
  | _ => True

/-- A step from a state that is clear for it. -/
def Orderly (s : Server ι) (e : Event ι) (t : Server ι) : Prop := s.Next e t ∧ s.Clear e

/-- The input of a pane a send types into: nothing before its paste, its own prompt after. -/
def Phase.Expects (i : ι) (pieces : List (Piece ι)) : Phase → Prop
  | .checked _ _ | .ready _ _ | .loaded _ _ => pieces = []
  | .reading _ prompt _ | .entering _ prompt => pieces = [⟨some i, prompt⟩]
  | _ => True

/-- What an orderly run keeps. -/
structure Server.Tidy (s : Server ι) : Prop where
  /-- a pane is typed into by one send -/
  alone : ∀ i j pane, (s.phase i).types = some pane → (s.phase j).types = some pane → i = j
  /-- its input is what that send expects -/
  expects : ∀ i pane, (s.phase i).types = some pane → (s.phase i).Expects i (s.input pane)
  /-- the buffer holds the prompt of the one send that has loaded it -/
  buffer : ∀ i pane prompt, s.phase i = .loaded pane prompt →
    s.buffer = some prompt ∧ ∀ j pane' prompt', s.phase j = .loaded pane' prompt' → j = i

variable {s t : Server ι} {e : Event ι}

/-- A send that moves, typing into no pane it did not type into and with nothing loaded,
keeps a run in order if it leaves its own input as it should be. -/
theorem Server.Tidy.goto (h : s.Tidy) {i : ι} {p : Phase}
    (htypes : ∀ pane, p.types = some pane → (s.phase i).types = some pane)
    (hexpects : ∀ pane, p.types = some pane → p.Expects i (s.input pane))
    (hloaded : ∀ pane prompt, p ≠ .loaded pane prompt) : (s.goto i p).Tidy := by
  have hwas (j : ι) (pane : String) (hj : ((s.goto i p).phase j).types = some pane) :
      (s.phase j).types = some pane := by
    rw [Server.goto_phase] at hj
    split at hj
    · rename_i hji
      rw [hji]
      exact htypes pane hj
    · exact hj
  have hheld (j : ι) (pane prompt : String) (hj : (s.goto i p).phase j = .loaded pane prompt) :
      s.phase j = .loaded pane prompt := by
    rw [Server.goto_phase] at hj
    split at hj
    · exact absurd hj (hloaded pane prompt)
    · exact hj
  constructor
  · intro j k pane hj hk
    exact h.alone j k pane (hwas j pane hj) (hwas k pane hk)
  · intro j pane hj
    rw [Server.goto_phase] at hj ⊢
    split at hj
    · rename_i hji
      rw [if_pos hji, hji]
      exact hexpects pane hj
    · rename_i hji
      rw [if_neg hji]
      exact h.expects j pane hj
  · intro j pane prompt hj
    obtain ⟨hbuffer, honly⟩ := h.buffer j pane prompt (hheld j pane prompt hj)
    exact ⟨hbuffer, fun k pane' prompt' hk => honly k pane' prompt' (hheld k pane' prompt' hk)⟩

/-- The empty input that a check is clear for becomes the send's own. -/
theorem Server.Tidy.check (h : s.Tidy) {i : ι} {pane prompt : String}
    (hempty : s.input pane = []) (hfree : ∀ j, (s.phase j).types ≠ some pane) :
    (s.goto i (.checked pane prompt)).Tidy := by
  constructor
  · intro j k other hj hk
    simp only [goto_phase] at hj hk
    split at hj <;> split at hk
    · rw [‹j = i›, ‹k = i›]
    · exact absurd (hk.trans hj.symm) (hfree k)
    · exact absurd (hj.trans hk.symm) (hfree j)
    · exact h.alone j k other hj hk
  · intro j other hj
    rw [goto_phase] at hj ⊢
    split at hj
    · rw [if_pos ‹_›]
      cases hj
      exact hempty
    · rw [if_neg ‹_›]
      exact h.expects j other hj
  · intro j other text hj
    rw [goto_phase] at hj
    split at hj
    · cases hj
    · obtain ⟨hbuffer, honly⟩ := h.buffer j other text hj
      refine ⟨hbuffer, fun k pane' prompt' hk => ?_⟩
      rw [goto_phase] at hk
      split at hk
      · cases hk
      · exact honly k pane' prompt' hk

/-- A prompt that is loaded while nothing is loaded is the one the buffer holds. -/
theorem Server.Tidy.loadBuffer (h : s.Tidy) {i : ι} {pane prompt : String}
    (hphase : s.phase i = .ready pane prompt)
    (hfree : ∀ j pane' prompt', s.phase j ≠ .loaded pane' prompt') :
    Tidy { s.goto i (.loaded pane prompt) with buffer := some prompt } := by
  constructor
  · intro j k other hj hk
    have htypes (j : ι) (hj : ((s.goto i (.loaded pane prompt)).phase j).types = some other) :
        (s.phase j).types = some other := by
      rw [goto_phase] at hj
      split at hj
      · rw [‹j = i›, hphase]
        exact hj
      · exact hj
    exact h.alone j k other (htypes j hj) (htypes k hk)
  · intro j other hj
    show Phase.Expects j (s.input other) ((s.goto i (.loaded pane prompt)).phase j)
    change ((s.goto i (.loaded pane prompt)).phase j).types = some other at hj
    rw [goto_phase] at hj ⊢
    split at hj
    · rw [if_pos ‹_›]
      cases hj
      have := h.expects i pane (by rw [hphase]; rfl)
      rw [hphase] at this
      exact this
    · rw [if_neg ‹_›]
      exact h.expects j other hj
  · intro j other text hj
    change (s.goto i (.loaded pane prompt)).phase j = _ at hj
    rw [goto_phase] at hj
    split at hj
    · cases hj
      refine ⟨rfl, fun k pane' prompt' hk => ?_⟩
      change (s.goto i (.loaded pane prompt)).phase k = _ at hk
      rw [goto_phase] at hk
      split at hk
      · rw [‹k = i›, ‹j = i›]
      · exact absurd hk (hfree k pane' prompt')
    · exact absurd hj (hfree j other text)

/-- A send that stops typing into a pane may leave its input as it likes. -/
theorem Server.Tidy.finish (h : s.Tidy) {i : ι} {pane : String} {report : Report}
    (hphase : (s.phase i).types = some pane) (pieces : List (Piece ι)) :
    ((s.goto i (.ended report)).setInput pane pieces).Tidy := by
  have hmoved : (s.goto i (.ended report)).Tidy :=
    h.goto (by simp [Phase.types]) (by simp [Phase.types]) (by simp)
  refine ⟨hmoved.alone, ?_, hmoved.buffer⟩
  intro j other hj
  change ((s.goto i (.ended report)).phase j).types = some other at hj
  show Phase.Expects j (((s.goto i (.ended report)).setInput pane pieces).input other)
    ((s.goto i (.ended report)).phase j)
  rw [setInput_input]
  split
  · rename_i hother
    subst hother
    rw [goto_phase] at hj
    split at hj
    · cases hj
    · rename_i hne
      exact absurd (h.alone j i other hj hphase) hne
  · exact hmoved.expects j other hj

/-- A send pastes what it loaded, into an empty input. -/
theorem Server.Tidy.pasteBuffer (h : s.Tidy) {i : ι} {pane prompt text : String}
    (hphase : s.phase i = .loaded pane prompt) (htext : s.buffer = some text) :
    text = prompt ∧ s.input pane = [] ∧
      Tidy { (s.goto i (.reading pane prompt reads)).setInput pane
        (s.input pane ++ [⟨some i, text⟩]) with buffer := none } := by
  obtain ⟨hbuffer, honly⟩ := h.buffer i pane prompt hphase
  have hown : text = prompt := Option.some.inj (htext.symm.trans hbuffer)
  have hpane : (s.phase i).types = some pane := by rw [hphase]; rfl
  have hempty : s.input pane = [] := by
    have := h.expects i pane hpane
    rw [hphase] at this
    exact this
  refine ⟨hown, hempty, ?_⟩
  have hwas (j : ι) (other : String)
      (hj : ((s.goto i (.reading pane prompt reads)).phase j).types = some other) :
      (s.phase j).types = some other := by
    rw [goto_phase] at hj
    split at hj
    · rw [‹j = i›, hpane]
      exact hj
    · exact hj
  constructor
  · intro j k other hj hk
    exact h.alone j k other (hwas j other hj) (hwas k other hk)
  · intro j other hj
    show Phase.Expects j (((s.goto i (.reading pane prompt reads)).setInput pane
      (s.input pane ++ [⟨some i, text⟩])).input other)
      ((s.goto i (.reading pane prompt reads)).phase j)
    change ((s.goto i (.reading pane prompt reads)).phase j).types = some other at hj
    have hother := hwas j other hj
    rw [goto_phase] at hj ⊢
    rw [setInput_input, hempty, hown]
    split at hj
    · rename_i hji
      cases hj
      rw [if_pos rfl, if_pos hji, hji]
      rfl
    · rename_i hji
      rw [if_neg hji, if_neg]
      · exact h.expects j other hj
      · rintro rfl
        exact hji (h.alone j i other hother hpane)
  · intro j other prompt' hj
    change (s.goto i (.reading pane prompt reads)).phase j = _ at hj
    rw [goto_phase] at hj
    split at hj
    · cases hj
    · exact absurd (honly j other prompt' hj) ‹_›

/-- **What every orderly step keeps.** -/
theorem Orderly.tidy (hstep : Orderly s e t) (h : s.Tidy) : t.Tidy := by
  obtain ⟨hnext, hclear⟩ := hstep
  obtain ⟨i, act⟩ := e
  have hend (report : Report) : (s.goto i (.ended report)).Tidy :=
    h.goto (by simp [Phase.types]) (by simp [Phase.types]) (by simp)
  cases act with
  | send pane prompt =>
    cases hphase : s.phase i <;> simp only [Server.Next, Server.step, hphase] at hnext <;>
      cases hnext
    exact h.goto (by simp [Phase.types]) (by simp [Phase.types]) (by simp)
  | check holds seen =>
    cases hphase : s.phase i <;> simp only [Server.Next, Server.step, hphase] at hnext
    case resolved pane prompt =>
      split at hnext
      · rename_i hok
        obtain ⟨rfl, rfl⟩ := hok
        cases hnext
        obtain ⟨hempty, hfree⟩ := hclear pane prompt hphase
        exact h.check hempty hfree
      · cases hnext
        exact hend .held
    all_goals cases hnext
  | leaveMode ok =>
    cases hphase : s.phase i <;> simp only [Server.Next, Server.step, hphase] at hnext
    case checked pane prompt =>
      split at hnext
      · cases hnext
        apply h.goto
        · intro other hother
          rw [hphase]
          exact hother
        · intro other hother
          have := h.expects i other (by rw [hphase]; exact hother)
          rw [hphase] at this
          exact this
        · simp
      · cases hnext
        exact hend .held
    all_goals cases hnext
  | loadBuffer ok =>
    cases hphase : s.phase i <;> simp only [Server.Next, Server.step, hphase] at hnext
    case ready pane prompt =>
      split at hnext
      · rename_i hok
        subst hok
        cases hnext
        exact h.loadBuffer hphase hclear
      · cases hnext
        exact hend .failed
    all_goals cases hnext
  | pasteBuffer ok =>
    cases hphase : s.phase i <;> simp only [Server.Next, Server.step, hphase] at hnext
    case loaded pane prompt =>
      split at hnext
      · rename_i text htext
        cases hnext
        exact (h.pasteBuffer hphase htext).2.2
      · cases hnext
      · cases hnext
        exact hend .failed
    all_goals cases hnext
  | read seen =>
    cases hphase : s.phase i <;> simp only [Server.Next, Server.step, hphase] at hnext
    case reading pane prompt left =>
      have hstays (p : Phase) (hp : p = .entering pane prompt ∨
          p = .reading pane prompt (left - 1)) : (s.goto i p).Tidy := by
        apply h.goto
        · intro other hother
          rw [hphase]
          obtain rfl | rfl := hp <;> exact hother
        · intro other hother
          have hsame : (s.phase i).types = some other := by
            rw [hphase]
            obtain rfl | rfl := hp <;> exact hother
          have := h.expects i other hsame
          rw [hphase] at this
          obtain rfl | rfl := hp <;> exact this
        · obtain rfl | rfl := hp <;> simp
      split at hnext
      · cases hnext
        exact hstays _ (.inl rfl)
      · split at hnext
        · cases hnext
          exact hend .held
        · cases hnext
          exact hstays _ (.inr rfl)
    all_goals cases hnext
  | enter ok =>
    cases hphase : s.phase i <;> simp only [Server.Next, Server.step, hphase] at hnext
    case entering pane prompt =>
      split at hnext
      · cases hnext
        exact h.finish (by rw [hphase]; rfl) []
      · cases hnext
        exact hend .failed
    all_goals cases hnext

/-! ## a prompt reaches only its own pane, once -/

/-- What a paste delivers is the prompt of the send that pastes; an Enter submits exactly
the prompt of the send that presses it; and a send reports success by its Enter alone. -/
def OwnPrompt (R : Server ι → Event ι → Server ι → Prop) (s₀ : Server ι) : Prop :=
  ∀ (es : List (Event ι)) (s t : Server ι) (e : Event ι), Run R s₀ es s → R s e t →
    (∀ pane prompt, s.phase e.who = .loaded pane prompt → e.act = .pasteBuffer true →
      t.input pane = s.input pane ++ [⟨some e.who, prompt⟩]) ∧
    (∀ pane prompt, s.phase e.who = .entering pane prompt → e.act = .enter true →
      s.input pane = [⟨some e.who, prompt⟩] ∧ t.input pane = []) ∧
    (t.phase e.who = .ended .ok → e.act = .enter true)

/-- Success is reported by an Enter that was pressed. -/
theorem Server.Next.enter_of_ended_ok (hnext : s.Next e t) (hended : t.phase e.who = .ended .ok) :
    e.act = .enter true := by
  obtain ⟨i, act⟩ := e
  cases act <;> cases hphase : s.phase i <;>
    simp only [Server.Next, Server.step, hphase] at hnext <;>
    (repeat' split at hnext) <;> cases hnext <;> simp_all [Server.goto, Server.setInput]

/-- No send is under way. -/
def Server.Idle (s : Server ι) : Prop := ∀ i, s.phase i = .idle

omit [DecidableEq ι] in
theorem Server.Idle.tidy (h : s.Idle) : s.Tidy := by
  constructor <;> intro i <;> simp [h i, Phase.types]

/-- **A prompt reaches only its own pane, once**, in an orderly run. -/
theorem orderly_own_prompt {s₀ : Server ι} (hidle : s₀.Idle) : OwnPrompt Orderly s₀ := by
  intro es s t e hrun hstep
  have htidy : s.Tidy := hrun.kept (Q := fun _ => True)
    (fun _ _ _ _ hstep h => hstep.tidy h) (by simp) hidle.tidy
  obtain ⟨hnext, _⟩ := hstep
  obtain ⟨i, act⟩ := e
  refine ⟨?_, ?_, ?_⟩
  · rintro pane prompt hphase rfl
    simp only [Server.Next, Server.step, hphase] at hnext
    split at hnext
    · rename_i text htext
      cases hnext
      obtain ⟨hown, _⟩ := htidy.pasteBuffer hphase htext
      show ((s.goto i _).setInput pane _).input pane = _
      rw [Server.setInput_input, if_pos rfl, hown]
    · cases hnext
    · simp_all
  · rintro pane prompt hphase rfl
    simp only [Server.Next, Server.step, hphase] at hnext
    cases hnext
    refine ⟨?_, ?_⟩
    · have := htidy.expects i pane (by rw [hphase]; rfl)
      rw [hphase] at this
      exact this
    · show ((s.goto i _).setInput pane []).input pane = []
      rw [Server.setInput_input, if_pos rfl]
  · exact hnext.enter_of_ended_ok

/-- A server with empty inputs and no send. -/
def Server.start : Server Nat := ⟨none, fun _ => [], fun _ => .idle⟩

/-- Two sends to one pane. The second reads its input when the first has pressed Enter. -/
def inTurn : List (Event Nat) :=
  [⟨0, .send "%1" "one"⟩, ⟨1, .send "%1" "two"⟩, ⟨0, .check true .empty⟩, ⟨0, .leaveMode true⟩,
    ⟨0, .loadBuffer true⟩, ⟨0, .pasteBuffer true⟩, ⟨0, .read .draft⟩, ⟨0, .enter true⟩,
    ⟨1, .check true .empty⟩, ⟨1, .leaveMode true⟩, ⟨1, .loadBuffer true⟩]

theorem orderly_own_prompt_turns : ∃ s t, Run Orderly Server.start inTurn s ∧
    Orderly s ⟨1, .pasteBuffer true⟩ t ∧ t.input "%1" = s.input "%1" ++ [⟨some 1, "two"⟩] := by
  have hrun : ∃ s, Run Orderly Server.start inTurn s ∧ s.phase 1 = .loaded "%1" "two" ∧
      s.buffer = some "two" := by
    refine ⟨_, .cons ⟨rfl, trivial⟩ (.cons ⟨rfl, trivial⟩ (.cons ⟨rfl, ?_⟩ (.cons ⟨rfl, trivial⟩
      (.cons ⟨rfl, ?_⟩ (.cons ⟨rfl, trivial⟩ (.cons ⟨rfl, trivial⟩ (.cons ⟨rfl, trivial⟩
        (.cons ⟨rfl, ?_⟩ (.cons ⟨rfl, trivial⟩ (.cons ⟨rfl, ?_⟩ (.nil _))))))))))), rfl, rfl⟩
    -- the steps that others may stand in the way of: two checks, two loads
    · rintro _ _ ⟨⟩
      exact ⟨rfl, fun | 0 => nofun | 1 => nofun | _ + 2 => nofun⟩
    · exact fun | 0 => nofun | 1 => nofun | _ + 2 => nofun
    · rintro _ _ ⟨⟩
      exact ⟨rfl, fun | 0 => nofun | 1 => nofun | _ + 2 => nofun⟩
    · exact fun | 0 => nofun | 1 => nofun | _ + 2 => nofun
  obtain ⟨s, hrun, hphase, hbuffer⟩ := hrun
  obtain ⟨t, ht⟩ : ∃ t, s.step ⟨1, .pasteBuffer true⟩ = some t := by
    simp [Server.step, hphase, hbuffer]
  have hstep : Orderly s ⟨1, .pasteBuffer true⟩ t := ⟨ht, trivial⟩
  exact ⟨s, t, hrun, hstep,
    (orderly_own_prompt (fun _ => rfl) inTurn s t _ hrun hstep).1 "%1" "two" hphase rfl⟩

/-- Two sends to two panes, both loaded before either pastes. -/
def crossed : List (Event Nat) :=
  [⟨0, .send "%1" "one"⟩, ⟨1, .send "%2" "two"⟩, ⟨0, .check true .empty⟩, ⟨1, .check true .empty⟩,
    ⟨0, .leaveMode true⟩, ⟨1, .leaveMode true⟩, ⟨0, .loadBuffer true⟩, ⟨1, .loadBuffer true⟩]

/-- **A send pastes what another one loaded.** -/
theorem crossed_paste : ¬ OwnPrompt Server.Next Server.start := by
  intro hown
  have hrun : ((crossed.foldlM Server.step Server.start).any fun s =>
      decide (s.phase 0 = .loaded "%1" "one" ∧ s.input "%1" = []) &&
        (s.step ⟨0, .pasteBuffer true⟩).any fun t =>
          decide (t.input "%1" = [⟨some 0, "two"⟩])) = true := by
    decide +kernel
  simp only [Option.any_eq_true, Bool.and_eq_true, decide_eq_true_eq] at hrun
  obtain ⟨s, hrun, ⟨hphase, hempty⟩, t, hstep, hinput⟩ := hrun
  obtain ⟨hpaste, _⟩ := hown crossed s t ⟨0, .pasteBuffer true⟩ (Run.of_foldlM hrun) hstep
  have hwrong := hpaste "%1" "one" hphase rfl
  rw [hinput, hempty] at hwrong
  simp at hwrong

end ClaudeReplay.Monitor.Tmux
