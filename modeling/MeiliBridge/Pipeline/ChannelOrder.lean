import MeiliBridge.Pipeline.PausedEvents

/-!
# The order of the events in a channel

Whatever is paused and resumed, skipped, tried or sent by a blocking send: the numbers of the events
that are put in one channel ascend, so that a channel gets the events in the order in which they
arrived and none of them twice. `Ordered` is the invariant. A channel hands on what was put in it in
the same order, and `Fifo` says so of a task that has received the first few.
-/

set_option autoImplicit false

namespace MeiliBridge

open Trans

namespace CdcCoordinator

/-- The event that arrived under this number. -/
def State.eventAt (s : State) (n : Nat) : Option Event := (s.arrived[n]?).map Arrival.event

/-- The numbers of the events put in the channel of this name, in this order. -/
def State.putOn (s : State) (name : String) : List Nat :=
  (s.delivered.filter (·.2 = name)).map Prod.fst

/-- The events put in the channel of this name. -/
def State.puts (s : State) (name : String) : List (Option Event) := (s.putOn name).map s.eventAt

/-- What the channel of this name holds. -/
def State.queueOf (s : State) (name : String) : List Message :=
  match s.taskChannels name with
  | some ch => ch.queue
  | none => []

variable {s s' : State}

/-! ## What a step does to the messages -/

inductive Moves (s s' : State) : Prop
  | advances (h : Advances s s')
  | arrives (event : Event) (h : s' = s.arrive (.ok event))
  | puts {m : Message} {name : String} {rest : List String} {ch : TaskChannel}
      (hhand : s.loop.hand = some (m, name :: rest))
      (h : s' = { s.push name ch m with loop := .sending m rest })

theorem Step.moves {l : Label} (hnodup : ∀ m names, s.loop.hand = some (m, names) → names.Nodup)
    (hs : Step s l s') : Moves s s' := by
  cases hs with
  | @arrive item =>
    cases item with
    | ok event => exact .arrives event rfl
    -- an error in the stream is no event
    | error e =>
      have hqueued : (s.arrive (.error e)).queued = s.queued := by
        simp [State.queued, State.arrive, Except.toOption]
      exact .advances (.same hnodup hqueued rfl rfl rfl)
  | @start succeeds hloop =>
    have hhand : Loop.hand (if succeeds then .waiting else .stopped) = s.loop.hand := by
      rw [hloop]
      cases succeeds <;> rfl
    exact .advances (.same hnodup rfl hhand rfl rfl)
  | receive hloop hincoming => exact .advances (.receive hloop hincoming)
  | @receiveError e rest hloop hincoming =>
    have hqueued : rest.filterMap Except.toOption = s.queued := by
      rw [State.queued, hincoming]
      rfl
    exact .advances (.same hnodup hqueued rfl rfl rfl)
  | @checkPaused m hloop =>
    have hhand : s.loop.hand = some (m, [] ++ m.event.targets) := by rw [hloop]; rfl
    -- a flag that is set drops all the names at once
    cases hpaused : s.isPaused with
    | true => exact .advances (.pass hnodup hhand (.inr rfl) rfl rfl rfl)
    | false => exact .advances (.same hnodup rfl hhand.symm rfl rfl)
  | @checkTable m hloop =>
    have hhand : s.loop.hand = some (m, [] ++ m.event.targets) := by rw [hloop]; rfl
    cases hpaused : s.tablePaused m.event with
    | true => exact .advances (.pass hnodup hhand (.inr rfl) rfl rfl rfl)
    | false => exact .advances (.same hnodup rfl hhand.symm rfl rfl)
  | @skip m name rest hloop hno =>
    have hhand : s.loop.hand = some (m, [name] ++ rest) := by rw [hloop]; rfl
    exact .advances (.pass hnodup hhand (.inl rfl) rfl rfl rfl)
  | trySend hloop hch hopen hroom => exact .puts (by rw [hloop]; rfl) rfl
  | trySendFull hloop hch hopen hfull =>
    exact .advances (.same hnodup rfl (by rw [hloop]; rfl) rfl rfl)
  | pauseFull hloop => exact .advances (.same hnodup rfl (by rw [hloop]; rfl) rfl rfl)
  | blockedSend hloop hch hopen hroom => exact .puts (by rw [hloop]; rfl) rfl
  | @blockedClosed m name rest hloop hno =>
    have hhand : s.loop.hand = some (m, [name] ++ rest) := by rw [hloop]; rfl
    exact .advances (.pass hnodup hhand (.inl rfl) rfl rfl rfl)
  | @finish m hloop =>
    have hhand : s.loop.hand = some (m, [] ++ []) := by rw [hloop]; rfl
    exact .advances (.pass hnodup hhand (.inr rfl) rfl rfl rfl)
  | shutdown hloop => exact .advances (.same hnodup rfl (by rw [hloop]; rfl) rfl rfl)
  | pauseAll => exact .advances (.same hnodup rfl rfl rfl rfl)
  | resumeAll => exact .advances (.same hnodup rfl rfl rfl rfl)
  | pauseTable => exact .advances (.same hnodup rfl rfl rfl rfl)
  | resumeTable => exact .advances (.same hnodup rfl rfl rfl rfl)
  | recv hch hqueue => exact .advances (.same hnodup rfl rfl rfl rfl)
  | close hch => exact .advances (.same hnodup rfl rfl rfl rfl)

/-! ## The invariant -/

structure Ordered (s : State) : Prop where
  known : ∀ m ∈ s.pending, s.eventAt m.seq = some m.event
  ascending : (s.pending.map Message.seq).Pairwise (· < ·)
  hand_nodup : ∀ m names, s.loop.hand = some (m, names) → names.Nodup
  delivered_lt : ∀ n name, (n, name) ∈ s.delivered → n < s.arrived.length
  /-- what is still to be put in a channel comes after what is there -/
  behind : ∀ n n' name, (n, name) ∈ s.delivered → s.Unsent n' name → n < n'
  increasing : ∀ name, (s.putOn name).Pairwise (· < ·)

theorem Ordered.init (h : Starts s) : Ordered s := by
  refine ⟨?_, ?_, ?_, ?_, ?_, ?_⟩
  · simp [h.pending]
  · simp [h.pending]
  · simp [h.hand]
  · simp [h.delivered]
  · simp [h.delivered]
  · simp [State.putOn, h.delivered]

theorem State.eventAt_lt {n : Nat} {e : Event} (h : s.eventAt n = some e) :
    n < s.arrived.length := by
  obtain ⟨arrival, harrival, -⟩ := Option.map_eq_some_iff.mp h
  exact (List.getElem?_eq_some_iff.mp harrival).1

theorem State.eventAt_of_arrived {n : Nat} (h : s'.arrived = s.arrived) :
    s'.eventAt n = s.eventAt n := by rw [State.eventAt, h, State.eventAt]

theorem State.eventAt_arrive {event : Event} {n : Nat} (h : n < s.arrived.length) :
    (s.arrive (.ok event)).eventAt n = s.eventAt n := by
  show ((s.arrived ++ [_])[n]?).map Arrival.event = _
  rw [List.getElem?_append_left h]
  rfl

theorem Ordered.pending_lt (hi : Ordered s) {m : Message} (hm : m ∈ s.pending) :
    m.seq < s.arrived.length := State.eventAt_lt (hi.known m hm)

theorem Ordered.advances (hi : Ordered s) (h : Advances s s') : Ordered s' where
  known m hm := by
    rw [State.eventAt_of_arrived h.arrived]
    exact hi.known m (h.pending.subset hm)
  ascending := hi.ascending.sublist (h.pending.map _)
  hand_nodup := h.hand_nodup
  delivered_lt n name hmem := by
    rw [h.delivered] at hmem
    rw [h.arrived]
    exact hi.delivered_lt n name hmem
  behind n n' name hmem hunsent := by
    rw [h.delivered] at hmem
    exact hi.behind n n' name hmem (h.unsent n' name hunsent)
  increasing name := by
    rw [State.putOn, h.delivered]
    exact hi.increasing name

theorem Ordered.arrive (hi : Ordered s) (event : Event) : Ordered (s.arrive (.ok event)) where
  known m hm := by
    rw [State.pending_arrive] at hm
    rcases List.mem_append.mp hm with hold | hnew
    · rw [State.eventAt_arrive (hi.pending_lt hold)]
      exact hi.known m hold
    · rw [List.mem_singleton.mp hnew]
      show ((s.arrived ++ [_])[s.arrived.length]?).map Arrival.event = _
      rw [List.getElem?_concat_length]
      rfl
  ascending := by
    rw [State.pending_arrive, List.map_append, List.pairwise_append]
    refine ⟨hi.ascending, List.pairwise_singleton _ _, ?_⟩
    intro n hn n' hn'
    obtain ⟨m, hm, rfl⟩ := List.mem_map.mp hn
    rw [List.mem_singleton.mp hn']
    exact hi.pending_lt hm
  hand_nodup := hi.hand_nodup
  delivered_lt n name hmem := by
    show n < (s.arrived ++ [_]).length
    rw [List.length_append]
    exact Nat.lt_add_right _ (hi.delivered_lt n name hmem)
  behind n n' name hmem hunsent := by
    rcases (State.unsent_arrive event n' name).mp hunsent with hold | ⟨rfl, -⟩
    · exact hi.behind n n' name hmem hold
    · exact hi.delivered_lt n name hmem
  increasing := hi.increasing

theorem State.putOn_push (s : State) (name other : String) (ch : TaskChannel) (m : Message) :
    (s.push name ch m).putOn other =
      if name = other then s.putOn other ++ [m.seq] else s.putOn other := by
  show ((s.delivered ++ [(m.seq, name)]).filter (·.2 = other)).map Prod.fst = _
  rw [List.filter_append, List.map_append]
  split
  · next heq => simp [heq, State.putOn]
  · next hne => simp [hne, State.putOn]

theorem Ordered.push {m : Message} {name : String} {rest : List String} {ch : TaskChannel}
    (hi : Ordered s) (hhand : s.loop.hand = some (m, name :: rest)) :
    Ordered { s.push name ch m with loop := .sending m rest } := by
  have hnodup := hi.hand_nodup m _ hhand
  have hpending : s.pending = m :: s.queued := by
    rw [State.pending, hhand]
    rfl
  have hlater : ∀ m' ∈ s.queued, m.seq < m'.seq := by
    have hseqs := hi.ascending
    rw [hpending, List.map_cons, List.pairwise_cons] at hseqs
    intro m' hmem
    exact hseqs.1 _ (List.mem_map_of_mem hmem)
  have hunsent := State.unsent_push ch hhand hnodup fun m' hmem => (hlater m' hmem).ne'
  refine ⟨?_, ?_, ?_, ?_, ?_, ?_⟩
  · intro m' hmem
    exact hi.known m' (hpending ▸ hmem)
  · have hseqs := hi.ascending
    rw [hpending] at hseqs
    exact hseqs
  · intro m' names hsome
    cases hsome
    exact (List.nodup_cons.mp hnodup).2
  · intro n other hmem
    rcases List.mem_append.mp hmem with hold | hnew
    · exact hi.delivered_lt n other hold
    · cases List.mem_singleton.mp hnew
      exact hi.pending_lt (hpending ▸ List.mem_cons_self)
  · intro n n' other hmem h
    obtain ⟨hold, hne⟩ := (hunsent n' other).mp h
    rcases List.mem_append.mp hmem with hmem | hnew
    · exact hi.behind n n' other hmem hold
    · cases List.mem_singleton.mp hnew
      -- what is still to be put in this channel is in the stream
      rcases hold with ⟨m', hqueued, rfl, -⟩ | ⟨m', names, hsome, rfl, hmem⟩
      · exact hlater m' hqueued
      · rw [hhand] at hsome
        cases hsome
        exact absurd rfl hne
  · intro other
    show ((s.push name ch m).putOn other).Pairwise (· < ·)
    rw [State.putOn_push]
    split
    · next heq =>
      subst heq
      rw [List.pairwise_append]
      refine ⟨hi.increasing name, List.pairwise_singleton _ _, ?_⟩
      intro n hn n' hn'
      obtain ⟨⟨n, other⟩, hfiltered, rfl⟩ := List.mem_map.mp hn
      obtain ⟨hmem, hother⟩ := List.mem_filter.mp hfiltered
      rw [List.mem_singleton.mp hn']
      obtain rfl : other = name := by simpa using hother
      exact hi.behind n m.seq other hmem (.inr ⟨m, _, hhand, rfl, List.mem_cons_self⟩)
    · exact hi.increasing other

theorem Ordered.step {l : Label} (hi : Ordered s) (hs : Step s l s') : Ordered s' := by
  cases hs.moves hi.hand_nodup with
  | advances h => exact hi.advances h
  | arrives event h => exact h ▸ hi.arrive event
  | puts hhand h => exact h ▸ hi.push hhand

theorem reachable_ordered (h : machine.Reachable s) : Ordered s :=
  h.invariant (I := Ordered) (fun _ hs => .init hs) fun _ _ _ hi hs => hi.step hs

/-! ## First in, first out -/

/-- A task has received the first events of its channel, and the channel holds the next ones; all of
them, as long as it is open. -/
structure Fifo (s : State) (name : String) (received : List Event) : Prop where
  fits : (received ++ (s.queueOf name).map Message.event).map some <+: s.puts name
  whole : s.OpenChannel name →
    (received ++ (s.queueOf name).map Message.event).map some = s.puts name

theorem Fifo.init (h : Starts s) (name : String) : Fifo s name [] := by
  have hputs : s.puts name = [] := by simp [State.puts, State.putOn, h.delivered]
  have hqueue : s.queueOf name = [] := by
    unfold State.queueOf
    split
    · next ch hch => rw [h.taskChannels name ch hch]
    · rfl
  refine ⟨?_, ?_⟩
  · simp [hqueue]
  · simp [hqueue, hputs]

/-- What a task has received is the beginning of what was put in its channel. -/
theorem Fifo.received {name : String} {received : List Event} (h : Fifo s name received) :
    received.map some <+: s.puts name := by
  refine List.IsPrefix.trans ?_ h.fits
  rw [List.map_append]
  exact List.prefix_append _ _

/-- A step that leaves the channel and what was put in it. -/
theorem Fifo.same {name : String} {received : List Event} (h : Fifo s name received)
    (hch : s'.taskChannels name = s.taskChannels name) (hputs : s'.puts name = s.puts name) :
    Fifo s' name received := by
  have hqueue : s'.queueOf name = s.queueOf name := by rw [State.queueOf, hch, State.queueOf]
  refine ⟨?_, ?_⟩
  · rw [hqueue, hputs]
    exact h.fits
  · intro hopen
    rw [hqueue, hputs]
    refine h.whole ?_
    rwa [State.OpenChannel, hch] at hopen

theorem State.queueOf_some {name : String} {ch : TaskChannel}
    (h : s.taskChannels name = some ch) : s.queueOf name = ch.queue := by rw [queueOf, h]

theorem State.setChannel_self (s : State) (name : String) (ch : TaskChannel) :
    (s.setChannel name ch).taskChannels name = some ch := Function.update_self ..

theorem State.setChannel_of_ne (s : State) {name other : String} (h : name ≠ other)
    (ch : TaskChannel) : (s.setChannel other ch).taskChannels name = s.taskChannels name :=
  Function.update_of_ne h ..

theorem Ordered.puts_arrive (hi : Ordered s) (event : Event) (name : String) :
    (s.arrive (.ok event)).puts name = s.puts name := by
  show (s.putOn name).map _ = (s.putOn name).map _
  refine List.map_congr_left ?_
  intro n hn
  obtain ⟨⟨n, other⟩, hfiltered, rfl⟩ := List.mem_map.mp hn
  exact State.eventAt_arrive (hi.delivered_lt n other (List.mem_filter.mp hfiltered).1)

/-- A message is put in some open channel. -/
theorem Fifo.push {m : Message} {name other : String} {names rest : List String} {ch : TaskChannel}
    {received : List Event} (hi : Ordered s) (h : Fifo s name received)
    (hhand : s.loop.hand = some (m, names)) (hch : s.taskChannels other = some ch)
    (hopen : ch.isOpen = true) :
    Fifo { s.push other ch m with loop := .sending m rest } name received := by
  by_cases hname : name = other
  · subst hname
    have hm : s.eventAt m.seq = some m.event := by
      refine hi.known m ?_
      rw [State.pending, hhand]
      exact List.mem_cons_self
    have hputs : State.puts { s.push name ch m with loop := .sending m rest } name =
        s.puts name ++ [some m.event] := by
      show ((s.push name ch m).putOn name).map s.eventAt = _
      rw [State.putOn_push, if_pos rfl, List.map_append, List.map_singleton, hm]
      rfl
    have hqueue : State.queueOf { s.push name ch m with loop := .sending m rest } name =
        s.queueOf name ++ [m] := by
      rw [State.queueOf_some hch]
      exact State.queueOf_some (State.setChannel_self s name _)
    -- while the channel is open nothing was dropped, so the message goes behind all the others
    have hwhole := h.whole ⟨ch, hch, hopen⟩
    rw [List.map_append] at hwhole
    have hnew : (received ++ (s.queueOf name ++ [m]).map Message.event).map some =
        s.puts name ++ [some m.event] := by
      rw [List.map_append, List.map_append, List.map_append, ← List.append_assoc, hwhole]
      rfl
    refine ⟨?_, ?_⟩
    · rw [hqueue, hputs, hnew]
    · intro _
      rw [hqueue, hputs, hnew]
  · refine h.same (State.setChannel_of_ne s hname _) ?_
    show ((s.push other ch m).putOn name).map s.eventAt = _
    rw [State.putOn_push, if_neg (Ne.symm hname)]
    rfl

/-- The task takes the first message of its channel. -/
theorem Fifo.recv {m : Message} {name : String} {ch : TaskChannel} {rest : List Message}
    {received : List Event} (h : Fifo s name received) (hch : s.taskChannels name = some ch)
    (hqueue : ch.queue = m :: rest) :
    Fifo (s.setChannel name { ch with queue := rest }) name (received ++ [m.event]) := by
  have hall : received ++ [m.event] ++ rest.map Message.event =
      received ++ (s.queueOf name).map Message.event := by
    rw [State.queueOf_some hch, hqueue, List.map_cons, List.append_assoc]
    rfl
  have hrest : (s.setChannel name { ch with queue := rest }).queueOf name = rest :=
    State.queueOf_some (State.setChannel_self s name _)
  refine ⟨?_, ?_⟩
  · rw [hrest, hall]
    exact h.fits
  · intro hopen
    rw [hrest, hall]
    refine h.whole (openChannel_of_setChannel hch ?_ hopen)
    exact fun hopen => hopen

/-- A channel is dropped with what it holds. -/
theorem Fifo.close {name other : String} {received : List Event}
    (h : Fifo s name received) : Fifo (s.setChannel other ⟨[], false⟩) name received := by
  by_cases hname : name = other
  · subst hname
    have hnone : (s.setChannel name ⟨[], false⟩).queueOf name = [] :=
      State.queueOf_some (State.setChannel_self s name _)
    refine ⟨?_, ?_⟩
    · rw [hnone, List.map_nil, List.append_nil]
      exact h.received
    · intro hopen
      obtain ⟨ch, hch, hopen⟩ := hopen
      rw [State.setChannel_self] at hch
      cases hch
      cases hopen
  · exact h.same (State.setChannel_of_ne s hname _) rfl

/-- Whatever else happens, the task has received the first events of its channel. -/
theorem Fifo.step {l : Label} {name : String} {received : List Event} (hi : Ordered s)
    (h : Fifo s name received) (hs : Step s l s') (hl : l ≠ .recv name) :
    Fifo s' name received := by
  cases hs with
  | @arrive item =>
    cases item with
    | ok event => exact h.same rfl (hi.puts_arrive event name)
    | error e => exact h.same rfl rfl
  | trySend hloop hch hopen hroom => exact h.push hi (by rw [hloop]; rfl) hch hopen
  | blockedSend hloop hch hopen hroom => exact h.push hi (by rw [hloop]; rfl) hch hopen
  | @recv other ch m rest hch hqueue =>
    have hname : name ≠ other := by
      rintro rfl
      exact hl rfl
    exact h.same (State.setChannel_of_ne s hname _) rfl
  | close hch => exact h.close
  | _ => exact h.same rfl rfl

end CdcCoordinator

end MeiliBridge
