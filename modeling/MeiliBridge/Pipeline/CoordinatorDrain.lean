import Mathlib.Logic.Relation
import MeiliBridge.Pipeline.PausedEvents

/-!
# Getting to the end of the stream

Whatever the coordinator has in hand and in its stream, it can get to the end of it by its own
steps: a channel that is full makes it wait in the blocking send, and there the task's end is enough
to go on. `exists_drained` gives such a run.
-/

set_option autoImplicit false

namespace MeiliBridge

open Relation

namespace CdcCoordinator

/-- The steps of the loop once it has its stream, and the ends of tasks. -/
def Label.internal : Label → Bool
  | .receive | .checkPaused | .checkTable | .trySend | .pauseFull | .blockedSend | .finish => true
  | .close _ => true
  | .arrive _ | .start _ | .shutdown | .pauseAll | .resumeAll => false
  | .pauseTable _ | .resumeTable _ | .recv _ => false

/-- One such step. -/
def Proceeds (s s' : State) : Prop := ∃ l, l.internal = true ∧ Step s l s'

/-- The loop waits, and has taken everything from the stream but these items. -/
def WaitsFor (incoming : List (Result Message)) (s : State) : Prop :=
  s.loop = .waiting ∧ s.incoming = incoming

/-- The loop can get to the point where only these items are left. -/
def Drains (incoming : List (Result Message)) (s : State) : Prop :=
  ∃ s', ReflTransGen Proceeds s s' ∧ WaitsFor incoming s'

variable {s s' : State} {incoming : List (Result Message)}

theorem Drains.step {l : Label} (h : Drains incoming s') (hs : Step s l s')
    (hl : l.internal = true) : Drains incoming s := by
  obtain ⟨t, hrun, hwaits⟩ := h
  exact ⟨t, .head ⟨l, hl, hs⟩ hrun, hwaits⟩

/-- From the blocking send: the channel is closed by then, or its task ends. -/
theorem Drains.blocked {m : Message} {name : String} {rest : List String}
    (hloop : s.loop = .blocked m name rest)
    (hrest : ∀ t : State, t.incoming = s.incoming → t.loop = .sending m rest → Drains incoming t) :
    Drains incoming s := by
  by_cases hno : s.Unreachable name
  · exact (hrest { s with loop := .sending m rest } rfl rfl).step (.blockedClosed hloop hno) rfl
  · simp only [State.Unreachable, not_forall] at hno
    obtain ⟨ch, hch, -⟩ := hno
    have hclosed : (s.setChannel name ⟨[], false⟩).Unreachable name := by
      intro ch' hch'
      replace hch' : Function.update s.taskChannels name _ name = some ch' := hch'
      rw [Function.update_self] at hch'
      cases hch'
      rfl
    have hnext : Drains incoming (s.setChannel name ⟨[], false⟩) :=
      (hrest { s.setChannel name ⟨[], false⟩ with loop := .sending m rest } rfl rfl).step
        (.blockedClosed hloop hclosed) rfl
    exact hnext.step (.close hch) rfl

/-- From the point where the channel turned out to be full. -/
theorem Drains.full {m : Message} {name : String} {rest : List String}
    (hloop : s.loop = .full m name rest)
    (hrest : ∀ t : State, t.incoming = s.incoming → t.loop = .sending m rest → Drains incoming t) :
    Drains incoming s := by
  have hblocked : Drains incoming { s.pauseTable name with loop := .blocked m name rest } :=
    .blocked rfl hrest
  exact hblocked.step (.pauseFull hloop) rfl

/-- From the point where these channels are still to be tried. -/
theorem drains_sending {m : Message} {names : List String} :
    ∀ {s : State}, s.loop = .sending m names → s.incoming = incoming → Drains incoming s := by
  induction names with
  | nil =>
    intro s hloop hincoming
    have hdone : Drains incoming { s with loop := .waiting } := ⟨_, .refl, rfl, hincoming⟩
    exact hdone.step (.finish hloop) rfl
  | cons name rest ih =>
    intro s hloop hincoming
    by_cases hno : s.Unreachable name
    · have hrest : Drains incoming { s with loop := .sending m rest } := ih rfl hincoming
      exact hrest.step (.skip hloop hno) rfl
    · simp only [State.Unreachable, not_forall] at hno
      obtain ⟨ch, hch, hopen⟩ := hno
      rw [Bool.not_eq_false] at hopen
      rcases Nat.lt_or_ge ch.queue.length channelCapacity with hroom | hfull
      · have hrest : Drains incoming { s.push name ch m with loop := .sending m rest } :=
          ih rfl hincoming
        exact hrest.step (.trySend hloop hch hopen hroom) rfl
      · have hpaused : Drains incoming { s with loop := .full m name rest } := by
          refine .full rfl ?_
          intro t ht hsending
          exact ih hsending (ht.trans hincoming)
        exact hpaused.step (.trySendFull hloop hch hopen hfull) rfl

/-- From the point where the global pause is read. -/
theorem drains_distributing {m : Message} (hloop : s.loop = .distributing m)
    (hincoming : s.incoming = incoming) : Drains incoming s := by
  have hlooked : Drains incoming { s with
      loop := if s.tablePaused m.event then .waiting else .sending m m.event.targets } := by
    by_cases hpaused : s.tablePaused m.event = true
    · rw [if_pos hpaused]
      exact ⟨_, .refl, rfl, hincoming⟩
    · rw [if_neg hpaused]
      exact drains_sending rfl hincoming
  exact hlooked.step (.checkTable hloop) rfl

/-- From the point where a message has come. -/
theorem drains_received {m : Message} (hloop : s.loop = .received m)
    (hincoming : s.incoming = incoming) : Drains incoming s := by
  have hlooked : Drains incoming
      { s with loop := if s.isPaused then .waiting else .distributing m } := by
    by_cases hpaused : s.isPaused = true
    · rw [if_pos hpaused]
      exact ⟨_, .refl, rfl, hincoming⟩
    · rw [if_neg hpaused]
      exact drains_distributing rfl hincoming
  exact hlooked.step (.checkPaused hloop) rfl

theorem Drains.trans {more : List (Result Message)} (h : Drains more s)
    (hnext : ∀ t, WaitsFor more t → Drains incoming t) : Drains incoming s := by
  obtain ⟨t, hrun, hwaits⟩ := h
  obtain ⟨u, hrun', hdrained⟩ := hnext t hwaits
  exact ⟨u, hrun.trans hrun', hdrained⟩

/-- From the point where the loop waits for the next item of its stream. -/
theorem drains_waiting (items : List (Result Message)) :
    ∀ s : State, WaitsFor items s → Drains [] s := by
  induction items with
  | nil => exact fun s hs => ⟨s, .refl, hs⟩
  | cons item rest ih =>
    intro s hs
    obtain ⟨hloop, hincoming⟩ := hs
    cases item with
    | ok m =>
      have hreceived : Drains rest { s with incoming := rest, loop := .received m } :=
        drains_received rfl rfl
      exact (hreceived.trans ih).step (.receive hloop hincoming) rfl
    | error e =>
      have hrest : Drains [] { s with incoming := rest } := ih _ ⟨hloop, rfl⟩
      exact hrest.step (.receiveError hloop hincoming) rfl

/-- A loop that runs can get to the end of its stream. -/
theorem exists_drained (hstarted : s.loop ≠ .notStarted) (hrunning : s.loop ≠ .stopped) :
    Drains [] s := by
  have hnext : Drains s.incoming s := by
    cases hloop : s.loop with
    | notStarted => exact absurd hloop hstarted
    | stopped => exact absurd hloop hrunning
    | waiting => exact ⟨s, .refl, hloop, rfl⟩
    | received m => exact drains_received hloop rfl
    | distributing m => exact drains_distributing hloop rfl
    | sending m names => exact drains_sending hloop rfl
    | full m name rest =>
      refine .full hloop ?_
      intro t ht hsending
      exact drains_sending hsending ht
    | blocked m name rest =>
      refine .blocked hloop ?_
      intro t ht hsending
      exact drains_sending hsending ht
  exact hnext.trans (drains_waiting s.incoming)

end CdcCoordinator

end MeiliBridge
