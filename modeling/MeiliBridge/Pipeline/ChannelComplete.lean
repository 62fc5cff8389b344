import MeiliBridge.Pipeline.ChannelOrder

/-!
# A channel that misses nothing

An event gets lost between the stream and an open channel only where the loop finds a flag set for
it: `Unpaused` is the condition on the reads of the flags that this does not happen to an event of
one channel, and `Complete` the law that everything that arrived for the channel was put in it or is
still to be. A next step keeps the law exactly if it meets the condition.
-/

set_option autoImplicit false

namespace MeiliBridge

open Trans

namespace CdcCoordinator

/-! ## The law -/

/-- The event in the loop's hand, if this channel is still to be tried for it. -/
def Loop.handed (loop : Loop) (name : String) : List Event :=
  match loop.hand with
  | some (m, names) => if name ∈ names then [m.event] else []
  | none => []

/-- What the loop still has for the channel of this name. -/
def State.outstanding (s : State) (name : String) : List Event :=
  s.loop.handed name ++ (s.queued.filter (name ∈ ·.event.targets)).map Message.event

/-- The events that arrived for the channel of this name. -/
def State.arrivedFor (s : State) (name : String) : List Event :=
  (s.arrived.map Arrival.event).filter (name ∈ ·.targets)

/-- All that arrived for the channel was put in it, or is still to be. -/
def Complete (s : State) (name : String) : Prop :=
  s.puts name ++ (s.outstanding name).map some = (s.arrivedFor name).map some

/-- Where the loop reads a flag for an event of this channel, it finds it cleared. -/
def Unpaused (name : String) (s : State) : Label → Prop
  | .checkPaused => ∀ m, s.loop = .received m → name ∈ m.event.targets → s.isPaused = false
  | .checkTable => ∀ m, s.loop = .distributing m → name ∈ m.event.targets →
      s.tablePaused m.event = false
  | _ => True

/-! ## What a step does to one channel -/

inductive ChannelStep (name : String) (s s' : State) : Prop
  | same (hputs : s'.puts name = s.puts name) (hout : s'.outstanding name = s.outstanding name)
      (harrived : s'.arrivedFor name = s.arrivedFor name)
  | arrives (e : Event) (hputs : s'.puts name = s.puts name)
      (hout : s'.outstanding name = s.outstanding name ++ [e])
      (harrived : s'.arrivedFor name = s.arrivedFor name ++ [e])
  | puts (e : Event) (hputs : s'.puts name = s.puts name ++ [some e])
      (hout : s.outstanding name = e :: s'.outstanding name)
      (harrived : s'.arrivedFor name = s.arrivedFor name)

/-- An event is gone that the channel has not got. -/
structure Drops (name : String) (s s' : State) (e : Event) : Prop where
  puts : s'.puts name = s.puts name
  out : s.outstanding name = e :: s'.outstanding name
  arrived : s'.arrivedFor name = s.arrivedFor name

variable {name : String} {s s' : State}

theorem handed_of_hand {loop : Loop} {m : Message} {names : List String}
    (h : loop.hand = some (m, names)) :
    loop.handed name = if name ∈ names then [m.event] else [] := by
  rw [Loop.handed, h]

theorem handed_of_none {loop : Loop} (h : loop.hand = none) : loop.handed name = [] := by
  rw [Loop.handed, h]

theorem handed_cons_of_ne {loop loop' : Loop} {m : Message} {other : String} {rest : List String}
    (h : loop.hand = some (m, other :: rest)) (hne : name ≠ other)
    (h' : loop'.hand = some (m, rest)) : loop'.handed name = loop.handed name := by
  rw [handed_of_hand h, handed_of_hand h']
  simp [hne]

theorem puts_of_same (harrived : s'.arrived = s.arrived) (hdelivered : s'.delivered = s.delivered) :
    s'.puts name = s.puts name := by
  unfold State.puts State.putOn State.eventAt
  rw [hdelivered, harrived]

theorem arrivedFor_of_same (harrived : s'.arrived = s.arrived) :
    s'.arrivedFor name = s.arrivedFor name := by
  rw [State.arrivedFor, harrived, State.arrivedFor]

/-- After these steps the loop has as much for the channel as before. -/
theorem ChannelStep.of_handed (hqueued : s'.queued = s.queued)
    (hhanded : s'.loop.handed name = s.loop.handed name) (harrived : s'.arrived = s.arrived)
    (hdelivered : s'.delivered = s.delivered) : ChannelStep name s s' := by
  refine .same (puts_of_same harrived hdelivered) ?_ (arrivedFor_of_same harrived)
  rw [State.outstanding, hqueued, hhanded, State.outstanding]

/-- The loop is done with an event that the channel was still to be tried for. -/
theorem Drops.of_hand {m : Message} {names : List String} (hqueued : s'.queued = s.queued)
    (hhand : s.loop.hand = some (m, names)) (hname : name ∈ names) (hnone : s'.loop.hand = none)
    (harrived : s'.arrived = s.arrived) (hdelivered : s'.delivered = s.delivered) :
    Drops name s s' m.event where
  puts := puts_of_same harrived hdelivered
  out := by
    rw [State.outstanding, handed_of_hand hhand, if_pos hname, State.outstanding,
      handed_of_none hnone, hqueued]
    rfl
  arrived := arrivedFor_of_same harrived

/-- The loop is done with a channel of another name, or with one that is not open. -/
theorem ChannelStep.skip {m : Message} {other : String} {rest : List String}
    (hhand : s.loop.hand = some (m, other :: rest)) (hne : name ≠ other) :
    ChannelStep name s { s with loop := .sending m rest } :=
  .of_handed rfl (handed_cons_of_ne hhand hne rfl) rfl rfl

theorem ChannelStep.push {m : Message} {other : String} {rest : List String} {ch : TaskChannel}
    (hi : Ordered s) (hhand : s.loop.hand = some (m, other :: rest)) :
    ChannelStep name s { s.push other ch m with loop := .sending m rest } := by
  by_cases hne : name = other
  · subst hne
    have hm : s.eventAt m.seq = some m.event := by
      refine hi.known m ?_
      rw [State.pending, hhand]
      exact List.mem_cons_self
    have hnot : name ∉ rest := (List.nodup_cons.mp (hi.hand_nodup m _ hhand)).1
    refine .puts m.event ?_ ?_ rfl
    · show ((s.push name ch m).putOn name).map s.eventAt = _
      rw [State.putOn_push, if_pos rfl, List.map_append, List.map_singleton, hm]
      rfl
    · rw [State.outstanding, handed_of_hand hhand, if_pos List.mem_cons_self, State.outstanding,
        handed_of_hand rfl, if_neg hnot]
      rfl
  · refine .same ?_ ?_ rfl
    · show ((s.push other ch m).putOn name).map s.eventAt = _
      rw [State.putOn_push, if_neg (Ne.symm hne)]
      rfl
    · rw [State.outstanding, State.outstanding, handed_cons_of_ne hhand hne rfl]
      rfl

theorem ChannelStep.arrive (hi : Ordered s) (event : Event) :
    ChannelStep name s (s.arrive (.ok event)) := by
  have hqueued : (s.arrive (.ok event)).queued = s.queued ++ [⟨s.arrived.length, event⟩] := by
    show (s.incoming ++ [_]).filterMap Except.toOption = _
    rw [List.filterMap_append]
    rfl
  have harrived : (s.arrive (.ok event)).arrivedFor name =
      s.arrivedFor name ++ [event].filter (name ∈ ·.targets) := by
    show ((s.arrived ++ [_]).map Arrival.event).filter _ = _
    rw [List.map_append, List.filter_append]
    rfl
  have hout : (s.arrive (.ok event)).outstanding name =
      s.outstanding name ++ [event].filter (name ∈ ·.targets) := by
    rw [State.outstanding, hqueued, List.filter_append, List.map_append, ← List.append_assoc]
    congr 1
    by_cases hname : name ∈ event.targets
    · simp [hname]
    · simp [hname]
  by_cases hname : name ∈ event.targets
  · rw [List.filter_cons_of_pos (by simpa using hname), List.filter_nil] at harrived hout
    exact .arrives event (hi.puts_arrive event name) hout harrived
  · rw [List.filter_cons_of_neg (by simpa using hname), List.filter_nil, List.append_nil]
      at harrived hout
    exact .same (hi.puts_arrive event name) hout harrived

/-- The loop takes the next event off the stream. -/
theorem ChannelStep.receive {m : Message} {rest : List (Result Message)} (hloop : s.loop = .waiting)
    (hincoming : s.incoming = .ok m :: rest) :
    ChannelStep name s { s with incoming := rest, loop := .received m } := by
  refine .same rfl ?_ rfl
  have hhanded : s.loop.handed name = [] := handed_of_none (by rw [hloop]; rfl)
  rw [State.outstanding, State.outstanding, State.queued_cons hincoming, hhanded,
    handed_of_hand rfl, List.nil_append]
  by_cases hname : name ∈ m.event.targets
  · rw [if_pos hname, List.filter_cons_of_pos (by simpa using hname)]
    rfl
  · rw [if_neg hname, List.filter_cons_of_neg (by simpa using hname)]
    rfl

/-- The loop reads a flag for the event in its hand. -/
theorem ChannelStep.flag {m : Message} {next : Loop} {paused : Bool}
    (hhand : s.loop.hand = some (m, m.event.targets))
    (hnext : next.hand = some (m, m.event.targets))
    (h : name ∈ m.event.targets → paused = false) :
    ChannelStep name s { s with loop := if paused then .waiting else next } := by
  refine .of_handed rfl ?_ rfl rfl
  cases paused with
  | true =>
    have hname : name ∉ m.event.targets := fun hname => Bool.noConfusion (h hname)
    rw [handed_of_hand hhand, if_neg hname]
    rfl
  | false =>
    rw [handed_of_hand hhand]
    exact handed_of_hand hnext

theorem Drops.flag {m : Message} {next : Loop} {paused : Bool}
    (hhand : s.loop.hand = some (m, m.event.targets))
    (h : ¬ (name ∈ m.event.targets → paused = false)) :
    Drops name s { s with loop := if paused then .waiting else next } m.event := by
  obtain ⟨hname, hpaused⟩ := Classical.not_imp.mp h
  rw [Bool.not_eq_false] at hpaused
  subst hpaused
  exact .of_hand rfl hhand hname rfl rfl rfl

/-- **What a step does to an open channel**: it loses an event exactly if it finds a flag set for
one. -/
theorem Step.channel {l : Label} (hi : Ordered s) (hopen : s.OpenChannel name) (hs : Step s l s') :
    ChannelStep name s s' ∧ Unpaused name s l ∨
      (∃ e, Drops name s s' e) ∧ ¬ Unpaused name s l := by
  have hreachable : ∀ other, s.Unreachable other → name ≠ other := by
    rintro other hno rfl
    obtain ⟨ch, hch, hopen⟩ := hopen
    rw [hno ch hch] at hopen
    cases hopen
  cases hs with
  | @arrive item =>
    cases item with
    | ok event => exact .inl ⟨.arrive hi event, trivial⟩
    | error e =>
      refine .inl ⟨.of_handed ?_ rfl rfl rfl, trivial⟩
      simp [State.queued, State.arrive, Except.toOption]
  | @start succeeds hloop =>
    refine .inl ⟨.of_handed rfl ?_ rfl rfl, trivial⟩
    rw [hloop]
    cases succeeds <;> rfl
  | receive hloop hincoming => exact .inl ⟨.receive hloop hincoming, trivial⟩
  | @receiveError e rest hloop hincoming =>
    refine .inl ⟨.of_handed ?_ rfl rfl rfl, trivial⟩
    show rest.filterMap Except.toOption = _
    rw [State.queued, hincoming]
    rfl
  -- the two steps that read a flag: the event goes on or is dropped
  | @checkPaused m hloop =>
    have hhand : s.loop.hand = some (m, m.event.targets) := by rw [hloop]; rfl
    have hreads : Unpaused name s .checkPaused ↔ (name ∈ m.event.targets → s.isPaused = false) := by
      simp [Unpaused, hloop]
    rw [hreads]
    by_cases h : name ∈ m.event.targets → s.isPaused = false
    · exact .inl ⟨.flag hhand rfl h, h⟩
    · exact .inr ⟨⟨_, .flag hhand h⟩, h⟩
  | @checkTable m hloop =>
    have hhand : s.loop.hand = some (m, m.event.targets) := by rw [hloop]; rfl
    have hreads : Unpaused name s .checkTable ↔
        (name ∈ m.event.targets → s.tablePaused m.event = false) := by
      simp [Unpaused, hloop]
    rw [hreads]
    by_cases h : name ∈ m.event.targets → s.tablePaused m.event = false
    · exact .inl ⟨.flag hhand rfl h, h⟩
    · exact .inr ⟨⟨_, .flag hhand h⟩, h⟩
  -- a name without an open channel is not this one
  | skip hloop hno =>
    exact .inl ⟨.skip (by rw [hloop]; rfl) (hreachable _ hno), trivial⟩
  | trySend hloop => exact .inl ⟨.push hi (by rw [hloop]; rfl), trivial⟩
  | trySendFull hloop | pauseFull hloop =>
    exact .inl ⟨.of_handed rfl (by rw [hloop]; rfl) rfl rfl, trivial⟩
  | blockedSend hloop => exact .inl ⟨.push hi (by rw [hloop]; rfl), trivial⟩
  | blockedClosed hloop hno =>
    exact .inl ⟨.skip (by rw [hloop]; rfl) (hreachable _ hno), trivial⟩
  | finish hloop | shutdown hloop =>
    exact .inl ⟨.of_handed rfl (by rw [hloop]; rfl) rfl rfl, trivial⟩
  | pauseAll | resumeAll | pauseTable | resumeTable | recv | close =>
    exact .inl ⟨.of_handed rfl rfl rfl rfl, trivial⟩

/-! ## Whole runs -/

theorem Complete.init (h : Starts s) (name : String) : Complete s name := by
  simp [Complete, State.puts, State.putOn, State.outstanding, State.queued, State.arrivedFor,
    Loop.handed, h.delivered, h.incoming, h.arrived, h.hand]

theorem ChannelStep.complete (h : ChannelStep name s s') (hi : Complete s name) :
    Complete s' name := by
  unfold Complete at hi ⊢
  cases h with
  | same hputs hout harrived => rw [hputs, hout, harrived, hi]
  | arrives e hputs hout harrived =>
    rw [hputs, hout, harrived, List.map_append, List.map_append, ← List.append_assoc, hi]
  | puts e hputs hout harrived =>
    rw [hout] at hi
    rw [hputs, harrived, ← hi, List.append_assoc]
    rfl

theorem Drops.not_complete {e : Event} (h : Drops name s s' e) (hi : Complete s name) :
    ¬ Complete s' name := by
  intro hi'
  have hlength := congrArg List.length hi
  have hlength' := congrArg List.length hi'
  rw [List.length_append, List.length_map, List.length_map] at hlength hlength'
  rw [h.puts, h.arrived, ← hlength, h.out, List.length_cons] at hlength'
  omega

/-- No step opens a channel. -/
theorem Step.openChannel {l : Label} (hs : Step s l s') (hopen : s'.OpenChannel name) :
    s.OpenChannel name := by
  cases hs with
  | @arrive item =>
    cases item with
    | ok event => exact hopen
    | error e => exact hopen
  | @trySend m other rest ch _ hch | @blockedSend m other rest ch _ hch =>
    have hset : (s.setChannel other { ch with queue := ch.queue ++ [m] }).OpenChannel name := hopen
    refine openChannel_of_setChannel hch ?_ hset
    exact fun hopen => hopen
  | @recv other ch m rest hch =>
    have hset : (s.setChannel other { ch with queue := rest }).OpenChannel name := hopen
    refine openChannel_of_setChannel hch ?_ hset
    exact fun hopen => hopen
  | @close other ch hch =>
    have hset : (s.setChannel other ⟨[], false⟩).OpenChannel name := hopen
    exact openChannel_of_setChannel hch (Bool.noConfusion ·) hset
  | _ => exact hopen

theorem reachable_complete (h : (machine.restrict (Unpaused name)).Reachable s)
    (hopen : s.OpenChannel name) : Complete s name := by
  refine h.invariant_using (J := Ordered) (I := fun s => s.OpenChannel name → Complete s name)
    (fun _ hs => reachable_ordered hs.of_restrict) (fun _ hs _ => .init hs name) ?_ hopen
  rintro s l s' hordered hi ⟨hunpaused, hs⟩ hopen
  have hbefore := hs.openChannel hopen
  rcases hs.channel hordered hbefore with ⟨hstep, -⟩ | ⟨-, hpaused⟩
  · exact hstep.complete (hi hbefore)
  · exact absurd hunpaused hpaused

/-- **An open channel gets everything that arrives for it**, in the runs in which the loop finds no
flag set for an event of the channel. A next step keeps this exactly if it meets the condition. -/
theorem channel_complete (name : String) (s : State)
    (h : (machine.restrict (Unpaused name)).Reachable s) (hopen : s.OpenChannel name) :
    Complete s name ∧ ∀ l s', Step s l s' → (Complete s' name ↔ Unpaused name s l) := by
  have hcomplete := reachable_complete h hopen
  refine ⟨hcomplete, fun l s' hs => ?_⟩
  rcases hs.channel (reachable_ordered h.of_restrict) hopen with
    ⟨hstep, hunpaused⟩ | ⟨hdrops, hpaused⟩
  · exact iff_of_true (hstep.complete hcomplete) hunpaused
  · obtain ⟨e, hdrops⟩ := hdrops
    exact iff_of_false (hdrops.not_complete hcomplete) hpaused

/-- The change is put in its channel, although everything is paused when it arrives. -/
theorem channel_complete_users :
    ∃ s : State, s.delivered = [(0, "users")] ∧ s.puts "users" = [some usersChange] ∧
      Complete s "users" := by
  have h₀ : (machine.restrict (Unpaused "users")).Reachable (registered ["users"]) :=
    .init (registered_starts _)
  have h₁ := h₀.step (l := Label.start true) ⟨trivial, .start rfl⟩
  have h₂ := h₁.step (l := Label.pauseAll) ⟨trivial, .pauseAll⟩
  have h₃ := h₂.step (l := Label.arrive (.ok usersChange)) ⟨trivial, .arrive⟩
  have h₄ := h₃.step (l := Label.resumeAll) ⟨trivial, .resumeAll⟩
  have h₅ := h₄.step (l := Label.receive) ⟨trivial, .receive rfl rfl⟩
  have h₆ := h₅.step (l := Label.checkPaused) ⟨fun _ _ _ => rfl, .checkPaused rfl⟩
  have h₇ := h₆.step (l := Label.checkTable)
    ⟨fun m _ _ => by simp [State.tablePaused, State.resumeAll, State.pauseAll, State.arrive,
      registered], .checkTable rfl⟩
  have h₈ := h₇.step (l := Label.trySend) ⟨trivial, .trySend rfl rfl rfl (by decide)⟩
  exact ⟨_, rfl, rfl, (channel_complete "users" _ h₈ ⟨_, rfl, rfl⟩).1⟩

end CdcCoordinator

end MeiliBridge
