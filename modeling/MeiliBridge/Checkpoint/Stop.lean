import MeiliBridge.Lib.Trans
import MeiliBridge.Checkpoint.LastWrite

/-!
# Stopping the checkpoint manager

`stop()` sends a `Flush`, signals the shutdown and waits for the loop of `process_commands`. The
loop takes any of its branches that is ready: a command, a tick of the timer, or the signal. If it
takes the signal while there are commands left in the channel, the final flush writes the buffer,
and the `Save`s in the channel are lost. `stop_keeps_saves` is about the runs in which no `Save` is
left there by then.

`stop` takes the manager by `&mut self`, so no method is called once it has begun.
-/

set_option autoImplicit false

namespace MeiliBridge

open Trans CheckpointManager

namespace ManagerStop

/-- How far `stop()` is. -/
inductive StopPhase where
  | notCalled
  | flushing
  | flushSent
  /-- waiting for the loop -/
  | signalled
  | returned
  deriving DecidableEq

structure State where
  /-- the commands in the channel -/
  commands : List CheckpointCommand
  manager : ManagerState
  /-- the loop has not ended -/
  looping : Bool
  stop : StopPhase
  /-- the commands of the calls that have returned `Ok`, in order -/
  accepted : List CheckpointCommand

/-- The capacity of the command channel. -/
def channelCapacity : Nat := 1000

inductive Label where
  /-- a call of `save_checkpoint`, or of another method, returns `Ok` -/
  | call (cmd : CheckpointCommand)
  | stop
  | sendFlush
  | signal
  | receive (choice : ManagerChoice)
  | tick (choice : ManagerChoice)
  /-- the loop takes the signal, and flushes for the last time -/
  | shutDown (choice : ManagerChoice)
  | stopReturns

inductive Step (batchSize : Nat) : State → Label → State → Prop
  | call {s : State} {cmd : CheckpointCommand} (hstop : s.stop = .notCalled)
      (hroom : s.commands.length < channelCapacity) :
      Step batchSize s (.call cmd)
        { s with commands := s.commands ++ [cmd], accepted := s.accepted ++ [cmd] }
  | stop {s : State} (hstop : s.stop = .notCalled) :
      Step batchSize s .stop { s with stop := .flushing }
  | sendFlush {s : State} (hstop : s.stop = .flushing)
      (hroom : s.commands.length < channelCapacity) :
      Step batchSize s .sendFlush
        { s with commands := s.commands ++ [.flush], stop := .flushSent }
  | signal {s : State} (hstop : s.stop = .flushSent) :
      Step batchSize s .signal { s with stop := .signalled }
  | receive {s : State} {choice : ManagerChoice} {cmd : CheckpointCommand}
      {rest : List CheckpointCommand} (hlooping : s.looping = true)
      (hcommands : s.commands = cmd :: rest) :
      Step batchSize s (.receive choice)
        { s with commands := rest, manager := (handle batchSize choice s.manager (.command cmd)).2 }
  | tick {s : State} {choice : ManagerChoice} (hlooping : s.looping = true) :
      Step batchSize s (.tick choice)
        { s with manager := (handle batchSize choice s.manager .tick).2 }
  | shutDown {s : State} {choice : ManagerChoice} (hlooping : s.looping = true)
      (hstop : s.stop = .signalled) :
      Step batchSize s (.shutDown choice)
        { s with manager := flushPending choice.save s.manager, looping := false }
  | stopReturns {s : State} (hstop : s.stop = .signalled) (hended : s.looping = false) :
      Step batchSize s .stopReturns { s with stop := .returned }

/-- The manager with a started loop, whatever is in its buffer and in the storage. -/
def start (manager : ManagerState) : State := ⟨[], manager, true, .notCalled, []⟩

def machine (batchSize : Nat) (manager : ManagerState) : Machine State Label where
  init s := s = start manager
  step := Step batchSize

/-- The saves of the storage succeed. -/
def SavesSucceed (_ : State) : Label → Prop
  | .receive choice | .tick choice | .shutDown choice => ∀ taskId, choice.save taskId = .succeeds
  | _ => True

/-- The saves succeed, and the loop takes the signal when no `Save` is left in the channel. -/
def InTime (s : State) (l : Label) : Prop :=
  SavesSucceed s l ∧
    ∀ choice, l = .shutDown choice → ∀ taskId position, .save taskId position ∉ s.commands

/-- The storage holds the last saved position of every task: of the accepted commands, or else of
the buffer that the manager has started with. -/
def Kept (manager : ManagerState) (s : State) : Prop :=
  ∀ taskId position,
    lastSaved taskId ((manager.pending.lookup taskId).map (·.position)) s.accepted = some position →
    ∃ cp, s.manager.storage.lookup taskId = some cp ∧ cp.position = position

/-- While the loop runs, the manager and the commands in the channel have the last saved position of
a task; when it has ended, the storage has it. -/
structure Carried (manager : ManagerState) (s : State) : Prop where
  due : s.looping = true → ∀ taskId position,
    lastSaved taskId ((manager.pending.lookup taskId).map (·.position)) s.accepted = some position →
      lastSaved taskId (s.manager.found taskId) s.commands = some position
  ended : s.looping = false → Kept manager s
  signalled : s.looping = false → s.stop = .signalled ∨ s.stop = .returned
  returned : s.stop = .returned → s.looping = false

variable {batchSize : Nat} {manager : ManagerState} {s s' : State} {l : Label}

theorem Carried.looping (h : Carried manager s) (hsignalled : s.stop ≠ .signalled)
    (hreturned : s.stop ≠ .returned) : s.looping = true := by
  cases hlooping : s.looping with
  | true => rfl
  | false => exact absurd (h.signalled hlooping) (not_or.mpr ⟨hsignalled, hreturned⟩)

/-- A step that leaves the loop running. -/
theorem Carried.goOn (hlooping : s'.looping = true) (hreturned : s'.stop ≠ .returned)
    (hdue : ∀ taskId position,
      lastSaved taskId ((manager.pending.lookup taskId).map (·.position)) s'.accepted =
        some position →
      lastSaved taskId (s'.manager.found taskId) s'.commands = some position) :
    Carried manager s' where
  due _ := hdue
  ended hended := by cases hlooping.symm.trans hended
  signalled hended := by cases hlooping.symm.trans hended
  returned hstop := absurd hstop hreturned

theorem Carried.step (h : Carried manager s) (hok : InTime s l) (hs : Step batchSize s l s') :
    Carried manager s' := by
  cases hs with
  | @call cmd hstop hroom =>
    have hlooping := h.looping (by simp [hstop]) (by simp [hstop])
    refine .goOn hlooping (by simp [hstop]) fun taskId position hsaved => ?_
    have hdue := h.due hlooping taskId
    rw [lastSaved_append] at hsaved ⊢
    exact lastSaved_mono hdue hsaved
  | stop hstop =>
    have hlooping := h.looping (by simp [hstop]) (by simp [hstop])
    exact .goOn hlooping (by simp) (h.due hlooping)
  | sendFlush hstop hroom =>
    have hlooping := h.looping (by simp [hstop]) (by simp [hstop])
    refine .goOn hlooping (by simp) fun taskId position hsaved => ?_
    rw [lastSaved_concat]
    exact h.due hlooping taskId position hsaved
  | signal hstop => exact ⟨h.due, h.ended, fun _ => .inl rfl, fun hreturned => by cases hreturned⟩
  | @receive choice cmd rest hlooping hcommands =>
    refine .goOn hlooping (fun hreturned => ?_) fun taskId position hsaved => ?_
    · cases hlooping.symm.trans (h.returned hreturned)
    · have hdue := h.due hlooping taskId position hsaved
      rw [hcommands] at hdue
      exact lastSaved_mono (fun p hp => found_of_write hp) hdue
  | @tick choice hlooping =>
    refine .goOn hlooping (fun hreturned => ?_) fun taskId position hsaved => ?_
    · cases hlooping.symm.trans (h.returned hreturned)
    · show lastSaved taskId ((flushPending choice.save s.manager).found taskId) s.commands = _
      rw [found_flushPending]
      exact h.due hlooping taskId position hsaved
  | @shutDown choice hlooping hstop =>
    refine ⟨fun hlooping' => ?_, fun _ taskId position hsaved => ?_, fun _ => .inl hstop,
      fun _ => rfl⟩
    · cases hlooping'
    · have hdue := h.due hlooping taskId position hsaved
      -- no command in the channel saves the task any more
      have hfound : s.manager.found taskId = some position := by
        rcases lastSaved_of_not_saved (hok.2 choice rfl taskId) with hsame | hnone
        · exact hsame.symm.trans hdue
        · cases hnone.symm.trans hdue
      obtain ⟨cp, hview, hposition⟩ := Option.map_eq_some_iff.mp hfound
      have hreply : (choice.save taskId).takesEffect = true := by
        rw [hok.1 taskId]
        rfl
      exact ⟨cp, (storage_flushPending hreply).trans hview, hposition⟩
  | stopReturns hstop hended => exact ⟨h.due, h.ended, fun _ => .inr rfl, fun _ => hended⟩

theorem Carried.init (manager : ManagerState) : Carried manager (start manager) := by
  refine .goOn rfl (by simp [start]) fun taskId position hsaved => ?_
  obtain ⟨cp, hpending, hposition⟩ := Option.map_eq_some_iff.mp hsaved
  show manager.found taskId = some position
  rw [ManagerState.found, ManagerState.view, hpending, ← hposition]
  rfl

theorem reachable_carried (h : ((machine batchSize manager).restrict InTime).Reachable s) :
    Carried manager s := by
  refine h.invariant (I := Carried manager) ?_ ?_
  · rintro _ rfl
    exact Carried.init manager
  · intro s l s' hcarried hs
    exact hcarried.step hs.1 hs.2

/-- **When `stop()` returns, the storage holds the last saved position of every task**, in every run
in which the saves succeed and the loop takes the signal when no `Save` is left in the channel. -/
theorem stop_keeps_saves (batchSize : Nat) (manager : ManagerState) (s : State)
    (h : ((machine batchSize manager).restrict InTime).Reachable s)
    (hreturned : s.stop = .returned) :
    Kept manager s :=
  (reachable_carried h).ended ((reachable_carried h).returned hreturned)

/-! ### One `Save`, and the two branches the loop may take -/

/-- Surroundings in which everything succeeds. -/
def works : ManagerChoice := ⟨"c1", 1, fun _ => .succeeds, .succeeds, .succeeds, .succeeds⟩

/-- The task `books` is saved, `stop()` has signalled, and the loop has not taken anything. -/
theorem bookSignalled :
    ((machine 100 ⟨.empty, .empty⟩).restrict InTime).Reachable
      ⟨[.save "books" (.postgreSQL "0/10"), .flush], ⟨.empty, .empty⟩, true, .signalled,
        [.save "books" (.postgreSQL "0/10")]⟩ := by
  have hquiet {s : State} {l : Label} (hsaves : SavesSucceed s l)
      (hl : ∀ choice, l ≠ .shutDown choice) : InTime s l :=
    ⟨hsaves, fun choice h => absurd h (hl choice)⟩
  have h₀ : ((machine 100 ⟨.empty, .empty⟩).restrict InTime).Reachable (start ⟨.empty, .empty⟩) :=
    .init rfl
  have h₁ := h₀.step (l := Label.call (.save "books" (.postgreSQL "0/10")))
    ⟨hquiet trivial (by simp), .call rfl (by decide)⟩
  have h₂ := h₁.step (l := Label.stop) ⟨hquiet trivial (by simp), .stop rfl⟩
  have h₃ := h₂.step (l := Label.sendFlush) ⟨hquiet trivial (by simp), .sendFlush rfl (by decide)⟩
  exact h₃.step (l := Label.signal) ⟨hquiet trivial (by simp), .signal rfl⟩

/-- The loop takes the signal first. -/
theorem stop_not_always_keeps_saves : ¬ ∀ (batchSize : Nat) (manager : ManagerState) (s : State),
    ((machine batchSize manager).restrict SavesSucceed).Reachable s → s.stop = .returned →
      Kept manager s := by
  intro h
  have hsignalled : ((machine 100 ⟨.empty, .empty⟩).restrict SavesSucceed).Reachable _ :=
    bookSignalled.mono fun _ _ hok => hok.1
  have hended := hsignalled.step (l := Label.shutDown works)
    ⟨fun _ => rfl, .shutDown rfl rfl⟩
  have hreturned := hended.step (l := Label.stopReturns) ⟨trivial, .stopReturns rfl rfl⟩
  obtain ⟨cp, hcp, -⟩ := h _ _ _ hreturned rfl "books" (.postgreSQL "0/10") rfl
  cases hcp

/-- The loop takes the `Save`, the `Flush` and then the signal. -/
theorem stop_keeps_saves_book : ∃ s : State,
    s.accepted = [.save "books" (.postgreSQL "0/10")] ∧ s.stop = .returned ∧
      Kept ⟨.empty, .empty⟩ s := by
  have hquiet (s : State) : InTime s (.receive works) := ⟨fun _ => rfl, fun _ h => by cases h⟩
  have h₁ := bookSignalled.step (l := Label.receive works) ⟨hquiet _, .receive rfl rfl⟩
  have h₂ := h₁.step (l := Label.receive works) ⟨hquiet _, .receive rfl rfl⟩
  have h₃ := h₂.step (l := Label.shutDown works)
    ⟨⟨fun _ => rfl, fun _ _ _ _ => List.not_mem_nil⟩, .shutDown rfl rfl⟩
  have h₄ := h₃.step (l := Label.stopReturns) ⟨⟨trivial, fun _ h => by cases h⟩,
    .stopReturns rfl rfl⟩
  exact ⟨_, rfl, rfl, stop_keeps_saves _ _ _ h₄ rfl⟩

end ManagerStop

end MeiliBridge
