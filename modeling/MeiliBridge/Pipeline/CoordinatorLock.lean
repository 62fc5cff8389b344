import MeiliBridge.Lib.RwLock
import MeiliBridge.Pipeline.CdcCoordinator

/-!
# The lock around the coordinator

`PipelineOrchestrator::start` puts each source's coordinator behind a `tokio::sync::RwLock`. The
task it spawns for the coordinator takes the write guard and keeps it until `run` returns. Everybody
else reaches the coordinator through a read guard: the API and `trigger_full_sync` the one of the
source `primary`, the backpressure handler the one of every source.

A request is named by who makes it and what it does with the guard. `trigger_full_sync` makes two,
one before its full sync and one after it.

`read_never_granted` is the result: while the loop waits for its next event, no read request is
granted, not those that wait and not one that comes now.
-/

set_option autoImplicit false

namespace MeiliBridge

open Trans Sync

namespace CoordinatorLock

/-- What a caller does under its read guard. -/
inductive Request where
  | pauseCdc
  | resumeCdc
  | isCdcPaused
  | pauseCdcTable (table : String)
  | resumeCdcTable (table : String)
  | getPausedTables
  /-- `trigger_full_sync` before the full sync -/
  | fullSyncPause (table : String)
  /-- `trigger_full_sync` after the full sync, successful or not -/
  | fullSyncResume (table : String)
  /-- the handler of backpressure events -/
  | pauseSource (table : String)
  | resumeSource (table : String)
  | pauseAll
  | resumeAll
  deriving DecidableEq

/-- The step that it lets the coordinator take; two only read. -/
def Request.label : Request → Option CdcCoordinator.Label
  | .pauseCdc | .pauseAll => some .pauseAll
  | .resumeCdc | .resumeAll => some .resumeAll
  | .pauseCdcTable table | .fullSyncPause table | .pauseSource table => some (.pauseTable table)
  | .resumeCdcTable table | .fullSyncResume table | .resumeSource table =>
    some (.resumeTable table)
  | .isCdcPaused | .getPausedTables => none

/-- The handler goes through all coordinators, everybody else takes the primary one. -/
def Request.Concerns (source : String) : Request → Prop
  | .pauseSource _ | .resumeSource _ | .pauseAll | .resumeAll => True
  | _ => source = "primary"

inductive Task where
  /-- the spawned task of the coordinator -/
  | run
  | caller (n : Nat) (request : Request)
  deriving DecidableEq

structure State where
  coordinators : String → CdcCoordinator.State
  lock : String → RwLock Task
  /-- the sources whose task is spawned, and those whose task has asked for the guard -/
  spawned : Finset String
  asked : Finset String

/-- The steps of `run`, which needs `&mut self`. -/
def isLoopLabel : CdcCoordinator.Label → Bool
  | .start _ | .receive | .checkPaused | .checkTable | .trySend | .pauseFull
      | .blockedSend | .finish
  | .shutdown => true
  | _ => false

/-- What happens to the stream and to the channels, without the coordinator. -/
def isOutsideLabel : CdcCoordinator.Label → Bool
  | .arrive _ | .recv _ | .close _ => true
  | _ => false

inductive Label where
  | spawn (source : String)
  | ask (source : String)
  | grant (source : String)
  | loop (source : String) (l : CdcCoordinator.Label)
  | outside (source : String) (l : CdcCoordinator.Label)
  | runReturns (source : String)
  | request (source : String) (n : Nat) (request : Request)
  /-- the caller uses its guard -/
  | act (source : String) (n : Nat) (request : Request) (l : CdcCoordinator.Label)
  | callerLeaves (source : String) (n : Nat) (request : Request)

namespace State

def setLock (s : State) (source : String) (lock : RwLock Task) : State :=
  { s with lock := Function.update s.lock source lock }

def setCoordinator (s : State) (source : String) (c : CdcCoordinator.State) : State :=
  { s with coordinators := Function.update s.coordinators source c }

end State

inductive Step (sources : List String) : State → Label → State → Prop
  | spawn {s : State} {source : String} (hsource : source ∈ sources) :
      Step sources s (.spawn source) { s with spawned := insert source s.spawned }
  | ask {s : State} {source : String} (hspawned : source ∈ s.spawned) (hasked : source ∉ s.asked) :
      Step sources s (.ask source)
        { s.setLock source ((s.lock source).request .run .write) with
          asked := insert source s.asked }
  | grant {s : State} {source : String} {lock : RwLock Task}
      (hgrant : (s.lock source).grant = some lock) :
      Step sources s (.grant source) (s.setLock source lock)
  | loop {s : State} {source : String} {l : CdcCoordinator.Label} {c : CdcCoordinator.State}
      (hloop : isLoopLabel l = true) (hguard : (s.lock source).writer = some .run)
      (h : CdcCoordinator.Step (s.coordinators source) l c) :
      Step sources s (.loop source l) (s.setCoordinator source c)
  | outside {s : State} {source : String} {l : CdcCoordinator.Label} {c : CdcCoordinator.State}
      (houtside : isOutsideLabel l = true) (h : CdcCoordinator.Step (s.coordinators source) l c) :
      Step sources s (.outside source l) (s.setCoordinator source c)
  | runReturns {s : State} {source : String} (hguard : (s.lock source).writer = some .run)
      (hstopped : (s.coordinators source).loop = .stopped) :
      Step sources s (.runReturns source) (s.setLock source (s.lock source).releaseWrite)
  | request {s : State} {source : String} {n : Nat} {request : Request}
      (hsource : source ∈ sources) (hconcerns : request.Concerns source) :
      Step sources s (.request source n request)
        (s.setLock source ((s.lock source).request (.caller n request) .read))
  | act {s : State} {source : String} {n : Nat} {request : Request} {l : CdcCoordinator.Label}
      {c : CdcCoordinator.State} (hguard : .caller n request ∈ (s.lock source).readers)
      (hl : request.label = some l) (h : CdcCoordinator.Step (s.coordinators source) l c) :
      Step sources s (.act source n request l) (s.setCoordinator source c)
  | callerLeaves {s : State} {source : String} {n : Nat} {request : Request}
      (hguard : .caller n request ∈ (s.lock source).readers) :
      Step sources s (.callerLeaves source n request)
        (s.setLock source ((s.lock source).releaseRead (.caller n request)))

/-- The coordinators are there and their locks are free. -/
structure Starts (s : State) : Prop where
  coordinators : ∀ source, CdcCoordinator.Starts (s.coordinators source)
  lock : ∀ source, s.lock source = .free
  spawned : s.spawned = ∅
  asked : s.asked = ∅

def machine (sources : List String) : Machine State Label where
  init := Starts
  step := Step sources

variable {sources : List String} {s s' : State}

/-! ## The coordinator behind the lock -/

theorem coordinators_setCoordinator (s : State) (source other : String) (c : CdcCoordinator.State) :
    (s.setCoordinator source c).coordinators other =
      if other = source then c else s.coordinators other := by
  by_cases h : other = source
  · subst h
    simp [State.setCoordinator]
  · simp [State.setCoordinator, h]

theorem lock_setLock (s : State) (source other : String) (lock : RwLock Task) :
    (s.setLock source lock).lock other = if other = source then lock else s.lock other := by
  by_cases h : other = source
  · subst h
    simp [State.setLock]
  · simp [State.setLock, h]

/-- The lock only takes interleavings away. -/
theorem coordinator_reachable (h : (machine sources).Reachable s) (source : String) :
    CdcCoordinator.machine.Reachable (s.coordinators source) := by
  have hset : ∀ {s : State} {other : String} {l : CdcCoordinator.Label} {c : CdcCoordinator.State},
      (∀ source, CdcCoordinator.machine.Reachable (s.coordinators source)) →
      CdcCoordinator.Step (s.coordinators other) l c →
      ∀ source,
        CdcCoordinator.machine.Reachable ((s.setCoordinator other c).coordinators source) := by
    intro s other l c ih hs source
    rw [coordinators_setCoordinator]
    split
    · exact (ih other).step hs
    · exact ih source
  refine h.invariant
    (I := fun s => ∀ source, CdcCoordinator.machine.Reachable (s.coordinators source)) ?_ ?_ source
  · intro s hs source
    exact .init (hs.coordinators source)
  · intro s l s' ih hs
    cases hs with
    | loop hloop hguard h => exact hset ih h
    | outside houtside h => exact hset ih h
    | act hguard hl h => exact hset ih h
    | _ => exact ih

/-! ## The guard of `run` -/

/-- The loop is not between its start and its end. -/
def Idle (c : CdcCoordinator.State) : Prop := c.loop = .notStarted ∨ c.loop = .stopped

/-- A step that is not one of `run` leaves the loop where it is. -/
theorem loop_of_step {c c' : CdcCoordinator.State} {l : CdcCoordinator.Label}
    (hs : CdcCoordinator.Step c l c') (hl : isLoopLabel l = false) : c'.loop = c.loop := by
  cases hs with
  | @arrive item => cases item <;> rfl
  | pauseAll | resumeAll | pauseTable | resumeTable | recv | close => rfl
  | _ => cases hl

/-- Between its start and its end the loop has the write guard. -/
def Guarded (s : State) : Prop :=
  ∀ source, (s.lock source).writer = some .run ∨ Idle (s.coordinators source)

/-- A step of a lock that does not take the guard from a running loop. -/
theorem Guarded.setLock (hi : Guarded s) {source : String} {lock : RwLock Task}
    (h : (s.lock source).writer = some .run → lock.writer = some .run ∨
      Idle (s.coordinators source)) :
    Guarded (s.setLock source lock) := by
  intro other
  rw [lock_setLock]
  split
  · next heq =>
    subst heq
    rcases hi other with hguard | hidle
    · exact h hguard
    · exact .inr hidle
  · exact hi other

/-- A step of a coordinator. -/
theorem Guarded.setCoordinator (hi : Guarded s) {source : String} {c : CdcCoordinator.State}
    (h : (s.lock source).writer = some .run ∨ c.loop = (s.coordinators source).loop) :
    Guarded (s.setCoordinator source c) := by
  intro other
  show (s.lock other).writer = some .run ∨ _
  rw [coordinators_setCoordinator]
  split
  · next heq =>
    subst heq
    rcases h with hguard | hloop
    · exact .inl hguard
    · rw [Idle, hloop]
      exact hi other
  · exact hi other

theorem Guarded.step {l : Label} (hi : Guarded s) (hs : Step sources s l s') : Guarded s' := by
  cases hs with
  | spawn hsource => exact hi
  | ask hspawned hasked => exact hi.setLock .inl
  | @grant source lock hgrant =>
    refine hi.setLock ?_
    intro hguard
    rw [RwLock.grant_of_writer hguard] at hgrant
    cases hgrant
  | loop hloop hguard h => exact hi.setCoordinator (.inl hguard)
  | @outside source l c houtside h =>
    have hl : isLoopLabel l = false := by cases l <;> first | rfl | cases houtside
    exact hi.setCoordinator (.inr (loop_of_step h hl))
  | runReturns hguard hstopped => exact hi.setLock fun _ => .inr (.inr hstopped)
  | request hsource hconcerns => exact hi.setLock .inl
  | @act source n request l c hguard hl h =>
    have hloop : isLoopLabel l = false := by
      cases request <;> cases hl <;> rfl
    exact hi.setCoordinator (.inr (loop_of_step h hloop))
  | callerLeaves hguard => exact hi.setLock .inl

theorem reachable_guarded (h : (machine sources).Reachable s) : Guarded s := by
  refine h.invariant (I := Guarded) ?_ ?_
  · intro s hs source
    exact .inr (.inl (hs.coordinators source).loop)
  · intro s l s' hi hs
    exact hi.step hs

/-- A coordinator that does not run yet can be reached. -/
theorem read_granted_of_starts (hs : Starts s) (source : String) (t : Task) :
    ((s.lock source).request t .read).Grantable t := by
  rw [hs.lock source]
  exact RwLock.grantable_of_free rfl rfl t

/-- **Starvation.** While the loop waits for its next event, no read request is granted. -/
theorem read_never_granted (sources : List String) (s : State) (h : (machine sources).Reachable s)
    (source : String) (hwaiting : (s.coordinators source).loop = .waiting) (t : Task) :
    ¬ (s.lock source).Grantable t ∧ ¬ ((s.lock source).request t .read).Grantable t := by
  rcases reachable_guarded h source with hguard | hidle | hidle
  · have hrequest : ((s.lock source).request t .read).writer = some .run := hguard
    exact ⟨RwLock.not_grantable_of_writer hguard t, RwLock.not_grantable_of_writer hrequest t⟩
  · rw [hwaiting] at hidle
    cases hidle
  · rw [hwaiting] at hidle
    cases hidle

/-! ### The primary coordinator -/

def start : State where
  coordinators _ := CdcCoordinator.registered ["users"]
  lock _ := .free
  spawned := ∅
  asked := ∅

theorem reachable_waiting :
    ∃ s, (machine ["primary"]).Reachable s ∧ (s.coordinators "primary").loop = .waiting := by
  have h₀ : (machine ["primary"]).Reachable start :=
    .init ⟨fun _ => CdcCoordinator.registered_starts _, fun _ => rfl, rfl, rfl⟩
  have h₁ := h₀.step (l := Label.spawn "primary") (.spawn (by simp))
  have h₂ := h₁.step (l := Label.ask "primary") (.ask (by simp) (by simp [start]))
  have h₃ := h₂.step (l := Label.grant "primary") (.grant rfl)
  have h₄ := h₃.step (l := Label.loop "primary" (.start true)) (.loop rfl rfl (.start rfl))
  exact ⟨_, h₄, rfl⟩

/-- A request of `pause_cdc` while the loop waits. -/
theorem read_never_granted_pause_cdc :
    ∃ s, (machine ["primary"]).Reachable s ∧ (s.coordinators "primary").loop = .waiting ∧
      ¬ ((s.lock "primary").request (.caller 0 .pauseCdc) .read).Grantable
        (.caller 0 .pauseCdc) := by
  obtain ⟨s, h, hwaiting⟩ := reachable_waiting
  exact ⟨s, h, hwaiting, (read_never_granted _ s h _ hwaiting _).2⟩

/-- The guard of the loop keeps out whoever wants to pause it. -/
theorem read_not_always_granted : ¬ ∀ sources s, (machine sources).Reachable s → ∀ source,
    (s.coordinators source).loop = .waiting → ∀ t : Task,
      ((s.lock source).request t .read).Grantable t := by
  intro hall
  obtain ⟨s, h, hwaiting⟩ := reachable_waiting
  have hgranted := hall _ s h _ hwaiting (.caller 0 .pauseCdc)
  rcases reachable_guarded h "primary" with hguard | hidle
  · have hrequest : ((s.lock "primary").request (.caller 0 .pauseCdc) .read).writer = some .run :=
      hguard
    exact RwLock.not_grantable_of_writer hrequest _ hgranted
  · rcases hidle with hidle | hidle <;> rw [hwaiting] at hidle <;> cases hidle

end CoordinatorLock

end MeiliBridge
