import MeiliBridge.Pipeline.CoordinatorDrain
import MeiliBridge.Source.Resume

/-!
# The end of the consumer

After a lost connection or `MAX_CONSECUTIVE_ERRORS` failed polls in a row the consumer sends an
error and ends. The coordinator logs the error, and goes on waiting for its stream: the adapter
still holds a sender of the channel, so the stream does not even end. Nothing starts another
consumer, as `get_changes` is called once.

`NeverSilent` is the law that the coordinator notices: its `run` has returned an error, or there is
a new consumer. `Recovers` is the condition that the consumer never comes to its end, and
`never_silent_iff` says that it is exact: after any step that does not meet it, the process gets by
itself to a state in which the coordinator waits for nothing.
-/

set_option autoImplicit false

namespace MeiliBridge

open Relation Trans

namespace Replication

/-! ## What has happened to the process -/

/-- The system, with what its process has gone through since its start. -/
structure Watched where
  state : State
  /-- the consumer has ended after database errors -/
  lost : Bool
  /-- the coordinator has taken the shutdown signal -/
  shutDown : Bool

def lostAfter (lost : Bool) : Label → Bool
  | .report => true
  | .crash _ => false
  | _ => lost

def shutDownAfter (shutDown : Bool) : Label → Bool
  | .coordinate .shutdown => true
  | .crash _ => false
  | _ => shutDown

def Watched.next (w : Watched) (l : Label) (s : State) : Watched :=
  ⟨s, lostAfter w.lost l, shutDownAfter w.shutDown l⟩

def watch (setup : Setup) : Machine Watched Label where
  init w := Starts setup w.state ∧ w.lost = false ∧ w.shutDown = false
  step w l w' := ∃ s, Step setup w.state l s ∧ w' = w.next l s

/-! ## The law -/

/-- The coordinator has handled everything that was in its stream. -/
def Process.Idle (p : Process) : Prop :=
  p.coordinator.incoming = [] ∧ p.coordinator.loop.hand = none

/-- Without a shutdown `run` returns an error or not at all. -/
def Process.ReturnedError (p : Process) : Prop := p.coordinator.loop = .stopped

def Process.Consuming (p : Process) : Prop := ∃ c, p.consumer = some c ∧ c ≠ .stopped

/-- Before shutdown, once the consumer has ended after database errors and everything is handled,
the coordinator's run has returned an error or there is a new consumer. -/
def NeverSilent (w : Watched) : Prop :=
  ∀ p, w.state.phase = .up p → w.lost = true → w.shutDown = false → p.Idle →
    p.ReturnedError ∨ p.Consuming

/-- No poll before shutdown fails for a lost connection, nor as the last one of too many. -/
def Recovers (w : Watched) : Label → Prop
  | .pollFails connectionLost => ∀ p n, w.state.phase = .up p → p.consumer = some (.polling n) →
      w.shutDown = true ∨ connectionLost = false ∧ n + 1 < maxConsecutiveErrors
  | _ => True

variable {setup : Setup} {w w' : Watched}

/-! ## What a step can do -/

/-- A step of the system, as far as the consumer and the coordinator's loop are concerned. -/
inductive Progress (setup : Setup) (w : Watched) (l : Label) (w' : Watched) : Prop
  | commits (hphase : w'.state.phase = w.state.phase) (hlost : w'.lost = w.lost)
      (hshut : w'.shutDown = w.shutDown)
  | starts {p p' : Process} (hup : w.state.phase = .up p) (hup' : w'.state.phase = .up p')
      (hloop : p.coordinator.loop = .notStarted) (hloop' : p'.coordinator.loop = .waiting)
      (hconsumer : p'.consumer = some (.polling 0)) (hlost : w'.lost = w.lost)
      (hshut : w'.shutDown = w.shutDown)
  /-- the consumer does something -/
  | consumes {p p' : Process} {c c' : Consumer} (hup : w.state.phase = .up p)
      (hup' : w'.state.phase = .up p') (hconsumer : p.consumer = some c) (hc : c ≠ .stopped)
      (hconsumer' : p'.consumer = some c') (hloop : p'.coordinator.loop = p.coordinator.loop)
      (hreporting : ∀ n, c' = .reporting n → ∃ k connectionLost, c = .polling k ∧
        l = .pollFails connectionLost ∧ c' = .afterError k connectionLost)
      (hlost : w'.lost = w.lost ∨ w'.lost = true ∧ c' = .stopped ∧ ∃ n, c = .reporting n)
      (hshut : w'.shutDown = w.shutDown)
  | coordinates {p p' : Process} {cl : CdcCoordinator.Label} (hup : w.state.phase = .up p)
      (hup' : w'.state.phase = .up p') (hown : coordinatorOwn setup.table cl = true)
      (h : CdcCoordinator.Step p.coordinator cl p'.coordinator)
      (hconsumer : p'.consumer = p.consumer) (hlost : w'.lost = w.lost)
      (hshut : w'.shutDown = true ∨ w'.shutDown = w.shutDown ∧ cl ≠ .shutdown)
  /-- another part of the process does something -/
  | rests {p p' : Process} (hup : w.state.phase = .up p) (hup' : w'.state.phase = .up p')
      (hconsumer : p'.consumer = p.consumer) (hloop : p'.coordinator.loop = p.coordinator.loop)
      (hlost : w'.lost = w.lost) (hshut : w'.shutDown = w.shutDown)
  | crashes {storage : Dict Checkpoint} (hphase : w'.state.phase = .down storage)
      (hlost : w'.lost = false) (hshut : w'.shutDown = false)
  | boots {storage : Dict Checkpoint} {p' : Process} (hdown : w.state.phase = .down storage)
      (hup' : w'.state.phase = .up p') (hconsumer : p'.consumer = none) (hlost : w'.lost = w.lost)
      (hshut : w'.shutDown = w.shutDown)

theorem Process.loop_afterArm (p : Process) (setup : Setup) (arm : Arm) :
    (p.afterArm setup arm).loop = p.coordinator.loop := by
  unfold afterArm
  split
  · split <;> rfl
  · rfl
  · rfl

theorem loop_arrive (s : CdcCoordinator.State) (item : Result Event) :
    (s.arrive item).loop = s.loop := by cases item <;> rfl

theorem ProcessStep.progress {p p' : Process} {l : Label} (hup : w.state.phase = .up p)
    (h : ProcessStep setup p l p') :
    Progress setup w l (w.next l { w.state with phase := .up p' }) := by
  have harrive := loop_arrive
  cases h with
  | @pollFails n connectionLost hconsumer =>
    exact .consumes hup rfl hconsumer nofun rfl rfl (fun _ _ => ⟨n, connectionLost, rfl, rfl, rfl⟩)
      (.inl rfl) rfl
  | report hconsumer hroom =>
    exact .consumes hup rfl hconsumer nofun rfl (harrive _ _) nofun (.inr ⟨rfl, rfl, _, rfl⟩) rfl
  | reportClosed hconsumer hclosed =>
    exact .consumes hup rfl hconsumer nofun rfl rfl nofun (.inr ⟨rfl, rfl, _, rfl⟩) rfl
  | send hconsumer hdecode hroom =>
    exact .consumes hup rfl hconsumer nofun rfl (harrive _ _) nofun (.inl rfl) rfl
  | sendClosed hconsumer hdecode hclosed =>
    exact .consumes hup rfl hconsumer nofun rfl rfl nofun (.inl rfl) rfl
  | skipRow hconsumer hdecode =>
    exact .consumes hup rfl hconsumer nofun rfl rfl nofun (.inl rfl) rfl
  | endRows hconsumer hopen => exact .consumes hup rfl hconsumer nofun rfl rfl nofun (.inl rfl) rfl
  | endRowsClosed hconsumer hclosed =>
    exact .consumes hup rfl hconsumer nofun rfl rfl nofun (.inl rfl) rfl
  | stopConsumer hconsumer => exact .consumes hup rfl hconsumer nofun rfl rfl nofun (.inl rfl) rfl
  | @coordinate cl coordinator hown h =>
    have hshut : shutDownAfter w.shutDown (.coordinate cl) = true ∨
        shutDownAfter w.shutDown (.coordinate cl) = w.shutDown ∧ cl ≠ .shutdown := by
      cases cl with
      | shutdown => exact .inl rfl
      | _ => exact .inr ⟨rfl, nofun⟩
    exact .coordinates hup rfl hown h rfl rfl hshut
  | turn hpath hoffers h => exact .rests hup rfl rfl (p.loop_afterArm setup _) rfl rfl
  | takeParallel hpath hoffers => exact .rests hup rfl rfl (p.loop_afterArm setup _) rfl rfl
  | moveParallel hpath => exact .rests hup rfl rfl rfl rfl rfl
  | readCheckpoint hread => exact .rests hup rfl rfl rfl rfl rfl
  | flush hsaving htask hposition => exact .rests hup rfl rfl rfl rfl rfl
  | supersede hsaving hlater => exact .rests hup rfl rfl rfl rfl rfl
  | cleanUp => exact .rests hup rfl rfl rfl rfl rfl

theorem watch_progress {l : Label} (hs : (watch setup).step w l w') :
    Progress setup w l w' := by
  obtain ⟨s, hs, rfl⟩ := hs
  cases hs with
  | commit => exact .commits rfl rfl rfl
  | getChanges hup h =>
    cases h with
    | start hloop => exact .starts hup rfl hloop rfl rfl rfl rfl
  | poll hup hconsumer => exact .consumes hup rfl hconsumer nofun rfl rfl nofun (.inl rfl) rfl
  | process hup h => exact h.progress hup
  | crash hup hcrash => exact .crashes rfl rfl rfl
  | restart hdown hstorage hloads hadapter => exact .boots hdown rfl rfl rfl rfl

/-! ## Every run -/

structure WatchInv (w : Watched) : Prop where
  ended : w.lost = true → ∀ p, w.state.phase = .up p → p.consumer = some .stopped
  started : ∀ p c, w.state.phase = .up p → p.consumer = some c →
    p.coordinator.loop ≠ .notStarted
  running : w.shutDown = false → ∀ p c, w.state.phase = .up p → p.consumer = some c →
    p.coordinator.loop ≠ .stopped
  down : ∀ storage, w.state.phase = .down storage → w.lost = false

theorem WatchInv.init (h : (watch setup).init w) : WatchInv w := by
  obtain ⟨⟨⟨adapter, loads, world, hup⟩, -, -, -, -, -⟩, hlost, -⟩ := h
  have hnone : ∀ p c, w.state.phase = .up p → p.consumer ≠ some c := by
    intro p c hp
    rw [hup] at hp
    cases hp
    exact nofun
  refine ⟨?_, ?_, ?_, ?_⟩
  · intro h
    rw [hlost] at h
    cases h
  · intro p c hp hc
    exact absurd hc (hnone p c hp)
  · intro _ p c hp hc
    exact absurd hc (hnone p c hp)
  · exact fun _ _ => hlost

/-- The steps after which the process runs with this consumer and this loop. -/
theorem WatchInv.up {p' : Process} (hup' : w'.state.phase = .up p')
    (hended : w'.lost = true → p'.consumer = some .stopped)
    (hstarted : ∀ c, p'.consumer = some c → p'.coordinator.loop ≠ .notStarted)
    (hrunning : w'.shutDown = false → ∀ c, p'.consumer = some c →
      p'.coordinator.loop ≠ .stopped) : WatchInv w' := by
  have hsame : ∀ p, w'.state.phase = .up p → p = p' := by
    intro p hp
    rw [hup'] at hp
    cases hp
    rfl
  refine ⟨?_, ?_, ?_, ?_⟩
  · intro hlost p hp
    rw [hsame p hp]
    exact hended hlost
  · intro p c hp hc
    rw [hsame p hp] at hc ⊢
    exact hstarted c hc
  · intro hshut p c hp hc
    rw [hsame p hp] at hc ⊢
    exact hrunning hshut c hc
  · intro storage hdown
    rw [hup'] at hdown
    cases hdown

theorem loop_coordinate {s s' : CdcCoordinator.State} {l : CdcCoordinator.Label}
    (hs : CdcCoordinator.Step s l s') (hstarted : s.loop ≠ .notStarted) :
    s'.loop ≠ .notStarted ∧ (l ≠ .shutdown → s.loop ≠ .stopped → s'.loop ≠ .stopped) := by
  cases hs with
  | arrive =>
    rw [loop_arrive]
    exact ⟨hstarted, fun _ hrunning => hrunning⟩
  | start hloop => exact absurd hloop hstarted
  | checkPaused hloop | checkTable hloop =>
    refine ⟨?_, fun _ _ => ?_⟩
    · show (if _ then _ else _) ≠ _
      split <;> exact nofun
    · show (if _ then _ else _) ≠ _
      split <;> exact nofun
  | shutdown hloop => exact ⟨nofun, fun hl => absurd rfl hl⟩
  | receive | skip | trySend | trySendFull | pauseFull | blockedSend | blockedClosed | finish =>
    exact ⟨nofun, fun _ _ => nofun⟩
  | receiveError | pauseAll | resumeAll | pauseTable | resumeTable | recv | close =>
    exact ⟨hstarted, fun _ hrunning => hrunning⟩

theorem WatchInv.step {l : Label} (hi : WatchInv w) (hs : (watch setup).step w l w') :
    WatchInv w' := by
  cases watch_progress hs with
  | commits hphase hlost hshut =>
    refine ⟨?_, ?_, ?_, ?_⟩
    · rw [hphase, hlost]
      exact hi.ended
    · rw [hphase]
      exact hi.started
    · rw [hphase, hshut]
      exact hi.running
    · rw [hphase, hlost]
      exact hi.down
  | @starts p p' hup hup' hloop hloop' hconsumer hlost hshut =>
    -- the coordinator has started already wherever a consumer has been lost
    refine .up hup' ?_ ?_ ?_
    · intro h
      rw [hlost] at h
      exact absurd hloop (hi.started p _ hup (hi.ended h p hup))
    · intro c _
      rw [hloop']
      exact nofun
    · intro _ c _
      rw [hloop']
      exact nofun
  | @consumes p p' c c' hup hup' hconsumer hc hconsumer' hloop hreporting hlost hshut =>
    refine .up hup' ?_ ?_ ?_
    · intro h
      -- a stopped consumer takes no step, so a lost one is lost in this step
      rcases hlost with hsame | ⟨-, hstopped, -⟩
      · rw [hsame] at h
        rw [hi.ended h p hup] at hconsumer
        cases hconsumer
        exact absurd rfl hc
      · rw [hconsumer', hstopped]
    · intro _ _
      rw [hloop]
      exact hi.started p c hup hconsumer
    · intro h _ _
      rw [hloop]
      rw [hshut] at h
      exact hi.running h p c hup hconsumer
  | @coordinates p p' cl hup hup' hown h hconsumer hlost hshut =>
    refine .up hup' ?_ ?_ ?_
    · intro h
      rw [hlost] at h
      rw [hconsumer]
      exact hi.ended h p hup
    · intro c hc
      rw [hconsumer] at hc
      exact (loop_coordinate h (hi.started p c hup hc)).1
    · intro hup'' c hc
      rw [hconsumer] at hc
      rcases hshut with hshut | ⟨hshut, hcl⟩
      · rw [hshut] at hup''
        cases hup''
      · rw [hshut] at hup''
        exact (loop_coordinate h (hi.started p c hup hc)).2 hcl (hi.running hup'' p c hup hc)
  | @rests p p' hup hup' hconsumer hloop hlost hshut =>
    refine .up hup' ?_ ?_ ?_
    · intro h
      rw [hlost] at h
      rw [hconsumer]
      exact hi.ended h p hup
    · intro c hc
      rw [hconsumer] at hc
      rw [hloop]
      exact hi.started p c hup hc
    · intro h c hc
      rw [hconsumer] at hc
      rw [hloop]
      rw [hshut] at h
      exact hi.running h p c hup hc
  | crashes hphase hlost hshut =>
    -- the process is down, and three of the four parts are about one that is up
    have hnone : ∀ p, w'.state.phase ≠ .up p := by
      intro p hp
      rw [hphase] at hp
      cases hp
    refine ⟨?_, ?_, ?_, ?_⟩
    · exact fun _ p hp => absurd hp (hnone p)
    · exact fun p _ hp => absurd hp (hnone p)
    · exact fun _ p _ hp => absurd hp (hnone p)
    · exact fun _ _ => hlost
  | @boots storage p' hdown hup' hconsumer hlost hshut =>
    refine .up hup' ?_ ?_ ?_
    · intro h
      rw [hlost, hi.down storage hdown] at h
      cases h
    · intro c hc
      rw [hconsumer] at hc
      cases hc
    · intro _ c hc
      rw [hconsumer] at hc
      cases hc

theorem reachable_watchInv (h : (watch setup).Reachable w) : WatchInv w :=
  h.invariant (I := WatchInv) (fun _ hw => .init hw) fun _ _ _ hi hs => hi.step hs

/-- Where the consumer is lost and everything is handled, the coordinator waits for nothing. -/
theorem WatchInv.not_neverSilent (hi : WatchInv w) {p : Process} (hup : w.state.phase = .up p)
    (hlost : w.lost = true) (hshut : w.shutDown = false) (hidle : p.Idle) : ¬ NeverSilent w := by
  intro h
  have hconsumer := hi.ended hlost p hup
  rcases h p hup hlost hshut hidle with herror | ⟨c, hc, hrunning⟩
  · exact hi.running hshut p _ hup hconsumer herror
  · rw [hconsumer] at hc
    cases hc
    exact hrunning rfl

/-! ## The runs in which the consumer recovers -/

def RecoverInv (w : Watched) : Prop :=
  w.shutDown = false →
    w.lost = false ∧ ∀ p n, w.state.phase = .up p → p.consumer ≠ some (.reporting n)

theorem RecoverInv.init (h : (watch setup).init w) : RecoverInv w := by
  obtain ⟨⟨⟨adapter, loads, world, hup⟩, -, -, -, -, -⟩, hlost, -⟩ := h
  refine fun _ => ⟨hlost, ?_⟩
  intro p n hp
  rw [hup] at hp
  cases hp
  exact nofun

theorem RecoverInv.neverSilent (hi : RecoverInv w) : NeverSilent w := by
  intro p _ hlost hshut
  rw [(hi hshut).1] at hlost
  cases hlost

theorem RecoverInv.step {l : Label} (hi : RecoverInv w) (hok : Recovers w l)
    (hs : (watch setup).step w l w') : RecoverInv w' := by
  intro hshut'
  cases watch_progress hs with
  | commits hphase hlost hshut =>
    rw [hshut] at hshut'
    rw [hphase, hlost]
    exact hi hshut'
  | starts hup hup' hloop hloop' hconsumer hlost hshut =>
    rw [hshut] at hshut'
    rw [hlost, hup']
    refine ⟨(hi hshut').1, ?_⟩
    intro p n hp hreporting
    cases hp
    rw [hconsumer] at hreporting
    cases hreporting
  | @consumes p p' c c' hup hup' hconsumer hc hconsumer' hloop hreporting hlost hshut =>
    rw [hshut] at hshut'
    obtain ⟨hfalse, hnone⟩ := hi hshut'
    refine ⟨?_, ?_⟩
    · rcases hlost with hsame | ⟨-, -, n, hn⟩
      · rw [hsame, hfalse]
      · rw [hn] at hconsumer
        exact absurd hconsumer (hnone p n hup)
    · intro p'' n hp hreports
      rw [hup'] at hp
      cases hp
      rw [hconsumer'] at hreports
      cases hreports
      obtain ⟨k, connectionLost, rfl, rfl, hafter⟩ := hreporting n rfl
      -- the poll has failed, and the condition says that the consumer goes on polling
      rcases hok p k hup hconsumer with hdone | ⟨rfl, hfew⟩
      · rw [hshut'] at hdone
        cases hdone
      · rw [Consumer.afterError, if_neg (by simpa using hfew)] at hafter
        cases hafter
  | @coordinates p p' cl hup hup' hown h hconsumer hlost hshut =>
    rcases hshut with hshut | ⟨hshut, -⟩
    · rw [hshut] at hshut'
      cases hshut'
    · rw [hshut] at hshut'
      rw [hlost, hup']
      refine ⟨(hi hshut').1, ?_⟩
      intro p'' n hp
      cases hp
      rw [hconsumer]
      exact (hi hshut').2 p n hup
  | @rests p p' hup hup' hconsumer hloop hlost hshut =>
    rw [hshut] at hshut'
    rw [hlost, hup']
    refine ⟨(hi hshut').1, ?_⟩
    intro p'' n hp
    cases hp
    rw [hconsumer]
    exact (hi hshut').2 p n hup
  | crashes hphase hlost hshut =>
    refine ⟨hlost, ?_⟩
    intro p n hp
    rw [hphase] at hp
    cases hp
  | boots hdown hup' hconsumer hlost hshut =>
    rw [hshut] at hshut'
    rw [hlost, hup']
    refine ⟨(hi hshut').1, ?_⟩
    intro p n hp
    cases hp
    rw [hconsumer]
    exact nofun

/-! ## After the last poll -/

/-- A step without a failing poll. -/
def GoesOn (setup : Setup) (w w' : Watched) : Prop :=
  ∃ l, (∀ connectionLost, l ≠ .pollFails connectionLost) ∧ (watch setup).step w l w'

theorem recovers_of_ne {l : Label} (h : ∀ connectionLost, l ≠ .pollFails connectionLost) :
    Recovers w l := by
  cases l with
  | pollFails connectionLost => exact absurd rfl (h connectionLost)
  | _ => trivial

theorem RecoverInv.goesOn (hi : RecoverInv w) (h : ReflTransGen (GoesOn setup) w w') :
    RecoverInv w' := by
  induction h with
  | refl => exact hi
  | tail _ hs ih =>
    obtain ⟨l, hl, hs⟩ := hs
    exact ih.step (recovers_of_ne hl) hs

theorem WatchInv.goesOn (hi : WatchInv w) (h : ReflTransGen (GoesOn setup) w w') :
    WatchInv w' := by
  induction h with
  | refl => exact hi
  | tail _ hs ih =>
    obtain ⟨l, -, hs⟩ := hs
    exact ih.step hs

/-- The same, but for the coordinator of its process. -/
def Watched.withCoordinator (w : Watched) (p : Process) (coordinator : CdcCoordinator.State) :
    Watched :=
  { w with state := { w.state with phase := .up { p with coordinator } } }

/-- The coordinator goes on by itself. -/
theorem goesOn_coordinator (w : Watched) (p : Process) {s s' : CdcCoordinator.State}
    (h : CdcCoordinator.Proceeds s s') :
    GoesOn setup (w.withCoordinator p s) (w.withCoordinator p s') := by
  obtain ⟨cl, hcl, hs⟩ := h
  have hown : coordinatorOwn setup.table cl = true := by
    cases cl <;> first | rfl | cases hcl
  have hflags : shutDownAfter w.shutDown (.coordinate cl) = w.shutDown := by
    cases cl <;> first | rfl | cases hcl
  refine ⟨.coordinate cl, nofun, _, .process rfl (.coordinate hown hs), ?_⟩
  show w.withCoordinator p s' = ⟨_, w.lost, shutDownAfter w.shutDown (.coordinate cl)⟩
  rw [hflags]
  rfl

/-- A consumer that is about to report its end brings the coordinator to wait for nothing. -/
theorem exists_silent (hi : WatchInv w) {p : Process} {n : Nat} (hup : w.state.phase = .up p)
    (hconsumer : p.consumer = some (.reporting n)) (hshut : w.shutDown = false) :
    ∃ w', ReflTransGen (GoesOn setup) w w' ∧ ¬ NeverSilent w' := by
  obtain ⟨s, hdrain, hloop, hincoming⟩ := CdcCoordinator.exists_drained
    (hi.started p _ hup hconsumer) (hi.running hshut p _ hup hconsumer)
  -- drain the channel, let the consumer report, take the report: then nothing is left to wait for
  have hrun : ReflTransGen (GoesOn setup) w (w.withCoordinator p s) := by
    have hlift : ReflTransGen (GoesOn setup) (w.withCoordinator p p.coordinator)
        (w.withCoordinator p s) :=
      hdrain.lift (w.withCoordinator p) fun _ _ h => goesOn_coordinator w p h
    have hsame : w.withCoordinator p p.coordinator = w := by
      unfold Watched.withCoordinator
      rw [← hup]
    rwa [hsame] at hlift
  have hroom : Process.HasRoom { p with coordinator := s } := by
    show s.incoming.length < eventCapacity
    rw [hincoming]
    decide
  have hreport : GoesOn setup (w.withCoordinator p s)
      ((w.withCoordinator p s).next .report { w.state with
        phase := .up
          { p with
            consumer := some .stopped
            coordinator := s.arrive (.error (lostConnection n)) } }) :=
    ⟨.report, nofun, _, .process rfl (.report hconsumer hroom), rfl⟩
  have hqueue : (s.arrive (.error (lostConnection n))).incoming =
      [.error (lostConnection n)] := by
    show s.incoming ++ _ = _
    rw [hincoming]
    rfl
  have hreceive : GoesOn setup _ _ := goesOn_coordinator
    ((w.withCoordinator p s).next .report w.state) { p with consumer := some .stopped }
    ⟨.receive, rfl, .receiveError ((loop_arrive s _).trans hloop) hqueue⟩
  have hall := (hrun.tail hreport).tail hreceive
  refine ⟨_, hall, (hi.goesOn hall).not_neverSilent rfl rfl hshut ⟨rfl, ?_⟩⟩
  show (s.arrive _).loop.hand = none
  rw [loop_arrive, hloop]
  rfl

/-- A failing poll after which the consumer does not poll again. -/
theorem reporting_of_not_recovers {l : Label} (hok : ¬ Recovers w l)
    (hs : (watch setup).step w l w') : w'.shutDown = false ∧
      ∃ p n, w'.state.phase = .up p ∧ p.consumer = some (.reporting n) := by
  cases l with
  | pollFails connectionLost =>
    simp only [Recovers, not_forall, not_or] at hok
    obtain ⟨p, n, hup, hconsumer, hshut, hlast⟩ := hok
    obtain ⟨s, hs, rfl⟩ := hs
    cases hs with
    | process hup' h =>
      rw [hup] at hup'
      cases hup'
      cases h with
      | pollFails hconsumer' =>
        rw [hconsumer] at hconsumer'
        cases hconsumer'
        refine ⟨(Bool.not_eq_true _).mp hshut, _, n + 1, rfl, congrArg some (if_pos ?_)⟩
        by_contra hgoesOn
        simp only [not_or, Bool.not_eq_true, Nat.not_le] at hgoesOn
        exact hlast hgoesOn
  | _ => exact absurd trivial hok

/-- **CDC never dies silently**, in every run in which no poll before shutdown ends the consumer.
And a next step is of that kind exactly if the process, however it goes on without another failing
poll, does not come to wait for a consumer that has ended. -/
theorem never_silent_iff (setup : Setup) (w : Watched)
    (h : ((watch setup).restrict Recovers).Reachable w) :
    NeverSilent w ∧ ∀ l w', (watch setup).step w l w' →
      (Recovers w l ↔ ∀ w'', ReflTransGen (GoesOn setup) w' w'' → NeverSilent w'') := by
  have hrecover : RecoverInv w := by
    refine h.invariant (I := RecoverInv) ?_ ?_
    · intro w hw
      have hinit : (watch setup).init w := hw
      exact .init hinit
    · intro w l w' hi hs
      exact hi.step hs.1 hs.2
  have hwatch := reachable_watchInv h.of_restrict
  refine ⟨hrecover.neverSilent, ?_⟩
  intro l w' hs
  constructor
  · intro hok w'' hrun
    exact ((hrecover.step hok hs).goesOn hrun).neverSilent
  · intro hall
    by_contra hok
    obtain ⟨hshut, p, n, hup, hconsumer⟩ := reporting_of_not_recovers hok hs
    obtain ⟨w'', hrun, hsilent⟩ := exists_silent (hwatch.step hs) hup hconsumer hshut
    exact hsilent (hall w'' hrun)

/-! ### A connection that is lost -/

theorem reachable_polling : ∃ w p, ((watch usersSetup).restrict Recovers).Reachable w ∧
    w.state.phase = .up p ∧ p.consumer = some (.polling 0) ∧ w.shutDown = false := by
  have h₀ : ((watch usersSetup).restrict Recovers).Reachable ⟨usersStarted, false, false⟩ :=
    .init ⟨usersStarted_starts, rfl, rfl⟩
  have h₁ := h₀.step (l := Label.getChanges none)
    ⟨trivial, _, .getChanges rfl (.start rfl), rfl⟩
  exact ⟨_, _, h₁, rfl, rfl, rfl⟩

/-- One poll fails, and the next one may succeed. -/
theorem never_silent_users : ∃ w p, w.state.phase = .up p ∧ p.consumer = some (.polling 1) ∧
    NeverSilent w := by
  obtain ⟨w, p, hw, hup, hconsumer, hshut⟩ := reachable_polling
  have hok : Recovers w (.pollFails false) := by
    intro p' n hup' hconsumer'
    rw [hup] at hup'
    cases hup'
    rw [hconsumer] at hconsumer'
    cases hconsumer'
    exact .inr ⟨rfl, by decide⟩
  have h₁ := hw.step (l := Label.pollFails false)
    ⟨hok, _, .process hup (.pollFails hconsumer), rfl⟩
  exact ⟨_, _, rfl, rfl, (never_silent_iff usersSetup _ h₁).1⟩

/-- The connection is lost, and the coordinator goes on waiting. -/
theorem not_always_noticed : ¬ ∀ (setup : Setup) (w : Watched), (watch setup).Reachable w →
    NeverSilent w := by
  intro h
  obtain ⟨w, p, hw, hup, hconsumer, hshut⟩ := reachable_polling
  have hlost : (watch usersSetup).step w (.pollFails true) _ :=
    ⟨_, .process hup (.pollFails hconsumer), rfl⟩
  have h₁ := hw.of_restrict.step hlost
  obtain ⟨w', hrun, hsilent⟩ := exists_silent (reachable_watchInv h₁) rfl rfl hshut
  refine hsilent (h usersSetup w' ?_)
  clear hsilent
  induction hrun with
  | refl => exact h₁
  | tail _ hs ih =>
    obtain ⟨l, -, hs⟩ := hs
    exact ih.step hs

end Replication

end MeiliBridge
