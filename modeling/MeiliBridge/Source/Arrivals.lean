import MeiliBridge.Source.ConsumerEnd
import MeiliBridge.Source.Resume

/-!
# What arrives of the log

Between the slot and the coordinator stands the consumer: it asks for the rows that the slot has not
passed, and sends what it makes of them one by one. `ReadsOn` says that the rows the process has
read are those of the log from some place up to where the slot stands, one after another and each
once, and `Arrives` that the coordinator gets the events of just these, in this order. Only a
consumer that stops loses what it has in hand.
-/

set_option autoImplicit false

namespace MeiliBridge

open Trans

namespace Replication

/-! ## The law -/

/-- The events that these rows are parsed into. -/
def Setup.events (setup : Setup) (rows : List Row) : List Event :=
  rows.filterMap fun row => (setup.decode row.lsn row.data).toOption.join

/-- The rows that the consumer is still to send. -/
def Process.hand (p : Process) : List Row :=
  match p.consumer with
  | some (.sending rows) => rows
  | _ => []

/-- The events that have arrived at the coordinator. -/
def Process.arrived (p : Process) : List Event :=
  p.coordinator.arrived.map CdcCoordinator.Arrival.event

/-- The rows that the process has read since its start. -/
def State.rowsRead (s : State) : List Row := s.read.filterMap (s.log[·]?)

/-- What the process has read is what the slot has passed, from the place `since` on: each row once,
in the order of the log. -/
structure ReadsOn (since : Nat) (s : State) : Prop where
  plugin : s.slot.plugin = "test_decoding"
  started : since ≤ s.slot.confirmed
  confirmed : s.slot.confirmed ≤ s.log.length
  read : s.read = List.range' since (s.slot.confirmed - since)

structure Arrives (setup : Setup) (s : State) (p : Process) : Prop where
  handed : p.arrived ++ setup.events p.hand <+: setup.events s.rowsRead
  whole : p.consumer ≠ some .stopped →
    p.arrived ++ setup.events p.hand = setup.events s.rowsRead

/-! ## What a step does -/

variable {setup : Setup} {s s' : State} {p p' : Process} {l : Label}

theorem Setup.events_append (setup : Setup) (rows rows' : List Row) :
    setup.events (rows ++ rows') = setup.events rows ++ setup.events rows' :=
  List.filterMap_append

theorem Setup.events_cons_some {row : Row} {event : Event}
    (h : setup.decode row.lsn row.data = .ok (some event)) (rows : List Row) :
    setup.events (row :: rows) = event :: setup.events rows := by
  rw [Setup.events, List.filterMap_cons, h]
  rfl

theorem Setup.events_cons_none {row : Row}
    (h : ∀ event, setup.decode row.lsn row.data ≠ .ok (some event)) (rows : List Row) :
    setup.events (row :: rows) = setup.events rows := by
  have hnone : (setup.decode row.lsn row.data).toOption.join = none := by
    cases hdecode : setup.decode row.lsn row.data with
    | error e => rfl
    | ok found =>
      cases found with
      | none => rfl
      | some event => exact absurd hdecode (h event)
  rw [Setup.events, List.filterMap_cons, hnone]
  rfl

theorem hand_of_sending {rows : List Row} (h : p.consumer = some (.sending rows)) :
    p.hand = rows := by
  rw [Process.hand, h]

theorem hand_of_not_sending (h : ∀ rows, p.consumer ≠ some (.sending rows)) : p.hand = [] := by
  unfold Process.hand
  split
  · next rows hconsumer => exact absurd hconsumer (h rows)
  · rfl

/-- The coordinator gets an event by `arrive` only. -/
theorem arrived_of_step {c c' : CdcCoordinator.State} {l : CdcCoordinator.Label}
    (h : CdcCoordinator.Step c l c') (hl : ∀ item, l ≠ .arrive item) : c'.arrived = c.arrived := by
  cases h with
  | @arrive item => exact absurd rfl (hl item)
  | _ => rfl

theorem Process.arrived_afterArm (p : Process) (setup : Setup) (arm : Arm) :
    (p.afterArm setup arm).arrived.map CdcCoordinator.Arrival.event = p.arrived := by
  unfold afterArm
  split
  · split <;> rfl
  · rfl
  · rfl

/-- A step of the process, as far as the rows on their way are concerned. -/
inductive Flow (setup : Setup) (p p' : Process) : Prop
  | rests (harrived : p'.arrived = p.arrived) (hconsumer : p'.consumer = p.consumer)
  | moves {c : Consumer} (hconsumer : p.consumer = some c) (hc : c ≠ .stopped)
      (hsame : p'.arrived ++ setup.events p'.hand = p.arrived ++ setup.events p.hand)
  /-- the consumer is stopped, with what it has in hand -/
  | stops {c : Consumer} (hconsumer : p.consumer = some c) (hc : c ≠ .stopped)
      (hconsumer' : p'.consumer = some .stopped) (harrived : p'.arrived = p.arrived)

theorem ProcessStep.flow (h : ProcessStep setup p l p') : Flow setup p p' := by
  cases h with
  | @pollFails n connectionLost hconsumer =>
    refine .moves hconsumer nofun ?_
    rw [hand_of_not_sending (p := p) (by simp [hconsumer]), hand_of_not_sending]
    · rfl
    · intro rows
      show some (Consumer.afterError n connectionLost) ≠ _
      unfold Consumer.afterError
      split <;> simp
  | @report n hconsumer hroom => exact .stops hconsumer nofun rfl rfl
  -- what it has in hand is lost with it
  | reportClosed hconsumer | sendClosed hconsumer | endRowsClosed hconsumer
  | stopConsumer hconsumer =>
    exact .stops hconsumer nofun rfl rfl
  | @send row rest event hconsumer hdecode hroom =>
    refine .moves hconsumer nofun ?_
    have harrived : Process.arrived { p with
        consumer := some (.sending rest)
        coordinator := p.coordinator.arrive (.ok event) } = p.arrived ++ [event] := by
      show (p.coordinator.arrived ++ [_]).map _ = _
      rw [List.map_append]
      rfl
    rw [harrived, hand_of_sending hconsumer, hand_of_sending rfl, setup.events_cons_some hdecode,
      List.append_assoc]
    rfl
  -- a row that is no event is left out on both sides
  | @skipRow row rest hconsumer hdecode =>
    refine .moves hconsumer nofun ?_
    rw [hand_of_sending hconsumer, hand_of_sending rfl, setup.events_cons_none hdecode]
    rfl
  | endRows hconsumer hopen =>
    refine .moves hconsumer nofun ?_
    rw [hand_of_sending hconsumer, hand_of_not_sending (by simp)]
    rfl
  | @coordinate cl coordinator hown h =>
    have harrived : coordinator.arrived = p.coordinator.arrived := by
      refine arrived_of_step h ?_
      rintro item rfl
      cases hown
    exact .rests (congrArg (List.map CdcCoordinator.Arrival.event) harrived) rfl
  | @turn arm stream hpath hoffers h => exact .rests (p.arrived_afterArm setup arm) rfl
  | takeParallel hpath hoffers => exact .rests (p.arrived_afterArm setup _) rfl
  | moveParallel | readCheckpoint | flush | supersede | cleanUp => exact .rests rfl rfl

theorem Flow.arrives (h : Flow setup p p') {s s' : State} (hrows : s'.rowsRead = s.rowsRead)
    (hi : Arrives setup s p) : Arrives setup s' p' := by
  cases h with
  | rests harrived hconsumer =>
    have hhand : p'.hand = p.hand := by rw [Process.hand, hconsumer, Process.hand]
    refine ⟨?_, ?_⟩
    · rw [harrived, hhand, hrows]
      exact hi.handed
    · rw [harrived, hhand, hrows, hconsumer]
      exact hi.whole
  | moves hconsumer hc hsame =>
    have hwhole := hi.whole (by simpa [hconsumer] using hc)
    rw [← hsame, ← hrows] at hwhole
    exact ⟨hwhole ▸ List.prefix_rfl, fun _ => hwhole⟩
  | stops hconsumer hc hconsumer' harrived =>
    refine ⟨?_, fun h => absurd hconsumer' h⟩
    rw [harrived, hand_of_not_sending (by simp [hconsumer']), hrows]
    exact List.IsPrefix.trans ((List.prefix_append_right_inj _).mpr (List.nil_prefix)) hi.handed

/-! ## What was read -/

variable {since : Nat}

/-- The slot stands where it stood before, for a process that reads it no further. -/
theorem ReadsOn.same (hi : ReadsOn since s) (hlog : s.log.length ≤ s'.log.length)
    (hslot : s'.slot = s.slot) (hread : s'.read = s.read) : ReadsOn since s' where
  plugin := by rw [hslot, hi.plugin]
  started := by rw [hslot]; exact hi.started
  confirmed := by
    rw [hslot]
    exact Nat.le_trans hi.confirmed hlog
  read := by rw [hread, hslot, hi.read]

/-- A look at the slot takes up where the one before has ended. -/
theorem ReadsOn.step (hi : ReadsOn since s) (hl : ∀ w, l ≠ .crash w) (hs : Step setup s l s') :
    ReadsOn since s' := by
  cases hs with
  | @commit row => exact hi.same (by simp) rfl rfl
  | getChanges => exact hi.same (Nat.le_refl _) (Slot.startReplication_same hi.plugin _) rfl
  | poll hup hconsumer =>
    refine ⟨hi.plugin, Nat.le_trans hi.started hi.confirmed, Nat.le_refl _, ?_⟩
    show s.read ++ List.range' s.slot.confirmed (s.log.length - s.slot.confirmed) =
      List.range' since (s.log.length - since)
    have hstarted := hi.started
    have hconfirmed := hi.confirmed
    have hnext : since + (s.slot.confirmed - since) = s.slot.confirmed := by omega
    have hlength : s.slot.confirmed - since + (s.log.length - s.slot.confirmed) =
        s.log.length - since := by omega
    rw [hi.read, ← hlength, ← List.range'_append_1, hnext]
  | process => exact hi.same (Nat.le_refl _) rfl rfl
  | crash => exact absurd rfl (hl _)
  | restart => exact hi.same (Nat.le_refl _) (Slot.createSlot_same hi.plugin _) rfl

/-- A crash forgets what was read, and the slot stays where it is. -/
theorem ReadsOn.crash {w : World} (hi : ReadsOn since s) (hs : Step setup s (.crash w) s') :
    ReadsOn s.slot.confirmed s' := by
  cases hs with
  | process hup h => cases h
  | crash =>
    refine ⟨hi.plugin, Nat.le_refl _, hi.confirmed, ?_⟩
    show [] = List.range' s.slot.confirmed (s.slot.confirmed - s.slot.confirmed)
    rw [Nat.sub_self]
    rfl

theorem exists_readsOn (h : (machine setup).Reachable s) : ∃ since, ReadsOn since s := by
  refine h.invariant (I := fun s => ∃ since, ReadsOn since s) (fun s hs => ?_) ?_
  · refine ⟨s.slot.confirmed, hs.plugin, Nat.le_refl _, hs.confirmed, ?_⟩
    rw [hs.read, Nat.sub_self]
    rfl
  · rintro s l s' ⟨since, hi⟩ hs
    by_cases hl : ∃ w, l = .crash w
    · obtain ⟨w, rfl⟩ := hl
      exact ⟨_, hi.crash hs⟩
    · exact ⟨since, hi.step (fun w hw => hl ⟨w, hw⟩) hs⟩

/-! ## Whole runs -/

/-- Until the coordinator's loop is started there is no consumer. -/
theorem consumer_notStarted (h : (machine setup).Reachable s) (hup : s.phase = .up p)
    (hloop : p.coordinator.loop = .notStarted) : p.consumer = none := by
  have hwatched : ∃ w, (watch setup).Reachable w ∧ w.state = s := by
    clear hup
    induction h with
    | @init s h => exact ⟨⟨s, false, false⟩, .init ⟨h, rfl, rfl⟩, rfl⟩
    | @step s s' l _ hs ih =>
      obtain ⟨w, hw, rfl⟩ := ih
      exact ⟨_, hw.step ⟨s', hs, rfl⟩, rfl⟩
  obtain ⟨w, hw, rfl⟩ := hwatched
  cases hconsumer : p.consumer with
  | none => rfl
  | some c => exact absurd hloop ((reachable_watchInv hw).started p c hup hconsumer)

structure ReadInv (setup : Setup) (s : State) : Prop where
  bounded : ∀ n ∈ s.read, n < s.log.length
  down : ∀ storage, s.phase = .down storage → s.read = []
  arrives : ∀ p, s.phase = .up p → Arrives setup s p

theorem ReadInv.boot {adapter : PostgresAdapter} {loads : List Checkpoint} {w : World}
    (hup : s.phase = .up (boot setup adapter loads w)) (hread : s.read = []) :
    ReadInv setup s := by
  have hrows : s.rowsRead = [] := by rw [State.rowsRead, hread]; rfl
  refine ⟨by simp [hread], fun _ _ => hread, fun p hp => ?_⟩
  rw [hup] at hp
  obtain rfl := Phase.up.inj hp
  refine ⟨?_, fun _ => ?_⟩
  · rw [hrows]
    exact List.prefix_rfl
  · rw [hrows]
    rfl

theorem rowsRead_commit (hi : ReadInv setup s) (row : Row) :
    State.rowsRead { s with log := s.log ++ [row] } = s.rowsRead :=
  List.filterMap_congr fun n hn => List.getElem?_append_left (hi.bounded n hn)

/-- The rows from some place on are those at the places from there on. -/
theorem filterMap_getElem?_range' (rows : List Row) (n : Nat) :
    (List.range' n (rows.length - n)).filterMap (rows[·]?) = rows.drop n := by
  generalize hleft : rows.length - n = left
  induction left generalizing n with
  | zero => exact (List.drop_eq_nil_of_le (by omega)).symm
  | succ left ih =>
    have hlt : n < rows.length := by omega
    rw [List.range'_succ, List.filterMap_cons_some (List.getElem?_eq_getElem hlt),
      ih (n + 1) (by omega), ← List.drop_eq_getElem_cons hlt]

/-- The consumer asks for what the slot has not passed. -/
theorem Arrives.poll {n : Nat} (hi : Arrives setup s p) (hconsumer : p.consumer = some (.polling n))
    (hrows : s'.rowsRead = s.rowsRead ++ s.log.drop s.slot.confirmed) :
    Arrives setup s' { p with consumer := some (.sending (s.log.drop s.slot.confirmed)) } := by
  have hwhole := hi.whole (by simp [hconsumer])
  rw [hand_of_not_sending (by simp [hconsumer])] at hwhole
  have hsame : p.arrived ++ setup.events (s.log.drop s.slot.confirmed) =
      setup.events s'.rowsRead := by
    rw [hrows, setup.events_append, ← hwhole, List.append_assoc]
    rfl
  exact ⟨hsame ▸ List.prefix_rfl, fun _ => hsame⟩

theorem ReadInv.step (hnone : ∀ p, s.phase = .up p → p.coordinator.loop = .notStarted →
      p.consumer = none) (hi : ReadInv setup s) (hs : Step setup s l s') : ReadInv setup s' := by
  cases hs with
  | @commit row =>
    refine ⟨?_, hi.down, fun p hup => ?_⟩
    · intro n hn
      rw [List.length_append]
      exact Nat.lt_add_right _ (hi.bounded n hn)
    · exact Flow.arrives (.rests rfl rfl) (rowsRead_commit hi row) (hi.arrives p hup)
  | @getChanges p coordinator slotLsn hup h =>
    refine ⟨hi.bounded, nofun, fun q hq => ?_⟩
    obtain rfl := Phase.up.inj hq
    cases h with
    | start hloop =>
      have hconsumer := hnone p hup hloop
      have hwhole := (hi.arrives p hup).whole (by simp [hconsumer])
      rw [hand_of_not_sending (by simp [hconsumer])] at hwhole
      exact ⟨hwhole ▸ List.prefix_rfl, fun _ => hwhole⟩
  -- the slot moves, and the consumer has in hand what it has moved past
  | @poll p n hup hconsumer =>
    refine ⟨?_, nofun, fun q hq => ?_⟩
    · intro i hmem
      rcases List.mem_append.mp hmem with hold | hnew
      · exact hi.bounded i hold
      · show i < s.log.length
        have hrange := List.mem_range'_1.mp hnew
        omega
    · obtain rfl := Phase.up.inj hq
      refine (hi.arrives p hup).poll hconsumer ?_
      show (s.read ++ _).filterMap _ = _
      rw [List.filterMap_append, filterMap_getElem?_range']
      rfl
  | process hup h =>
    refine ⟨hi.bounded, nofun, fun q hq => ?_⟩
    obtain rfl := Phase.up.inj hq
    exact h.flow.arrives (s := s) rfl (hi.arrives _ hup)
  | crash hup hcrash =>
    refine ⟨fun n hn => absurd hn List.not_mem_nil, fun _ _ => rfl, fun q hq => ?_⟩
    cases hq
  | restart hdown hstorage hloads hadapter => exact .boot rfl (hi.down _ hdown)

theorem reachable_readInv (h : (machine setup).Reachable s) : ReadInv setup s := by
  refine h.invariant_using (fun s hs p hup => consumer_notStarted hs hup)
    (fun s hs => ?_) fun s l s' hnone hi hs => hi.step hnone hs
  obtain ⟨adapter, loads, w, hup⟩ := hs.up
  exact .boot hup hs.read

/-- **What the process reads of the log arrives at the coordinator.** It reads the rows one after
another and each once, in every run with crashes and restarts, and the coordinator gets the events
of just these in this order; all of them but for the consumer's hand, as long as the consumer is not
stopped. -/
theorem arrives_in_order (setup : Setup) (s : State) (h : (machine setup).Reachable s) (p : Process)
    (hup : s.phase = .up p) : Arrives setup s p ∧ ∃ since, ReadsOn since s :=
  ⟨(reachable_readInv h).arrives p hup, exists_readsOn h⟩

/-- After a restart two inserts are read, one at each look at the slot, and both are sent. -/
theorem arrives_in_order_users : ∃ p : Process,
    p.arrived = [userInserted "0/10", userInserted "0/18"] ∧ p.consumer = some (.sending []) ∧
      ∃ s, s.read = [0, 1] ∧ Arrives usersSetup s p ∧ ∃ since, ReadsOn since s := by
  have h₀ : (machine usersSetup).Reachable usersStarted := .init usersStarted_starts
  have h₁ := h₀.step (l := Label.crash usersWorld) (.crash rfl (.inl rfl))
  have h₂ := h₁.step (l := Label.restart [usersRecord] usersWorld)
    (.restart rfl rfl loads_usersRecord rfl)
  have h₃ := h₂.step (l := Label.commit usersRow) .commit
  have h₄ := h₃.step (l := Label.getChanges none) (.getChanges rfl (.start rfl))
  have h₅ := h₄.step (l := Label.poll) (.poll rfl rfl)
  have hdecode (lsn : String) :
      usersSetup.decode lsn usersRow.data = .ok (some (userInserted lsn)) := rfl
  have h₆ := h₅.step (l := Label.send) (.process rfl (.send rfl (hdecode _) (Nat.zero_lt_succ _)))
  have h₇ := h₆.step (l := Label.endRows)
    (.process rfl (.endRows rfl CdcCoordinator.Loop.noConfusion))
  have h₈ := h₇.step (l := Label.commit { usersRow with lsn := "0/18" }) .commit
  have h₉ := h₈.step (l := Label.poll) (.poll rfl rfl)
  have hroom : 1 < eventCapacity := by decide
  have h₁₀ := h₉.step (l := Label.send) (.process rfl (.send rfl (hdecode _) hroom))
  exact ⟨_, rfl, rfl, _, rfl, arrives_in_order _ _ h₁₀ _ rfl⟩

end Replication

end MeiliBridge
