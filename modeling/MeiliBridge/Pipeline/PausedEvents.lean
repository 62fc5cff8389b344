import MeiliBridge.Pipeline.CdcCoordinator

/-!
# Events that arrive during a pause

The coordinator does not hold back what arrives while it is paused: it reads the flags when it
takes an event off the stream, and an event that finds one of them set is gone. So an event that
arrived during a pause gets to its tasks only if the pause is over before the loop looks at it.

`PausedDelivered` is the law, `FindsResumed` the condition on the reads of the flags, and
`paused_delivered` says that every run that meets the condition obeys the law. The invariant follows
each event through the stream and the loop: as long as a channel is still to be tried, it has not
got the event, and after that an open one has got it once.
-/

set_option autoImplicit false

namespace MeiliBridge

open Trans

namespace CdcCoordinator

/-! ## The law -/

/-- The messages that the loop has not taken yet. -/
def State.queued (s : State) : List Message := s.incoming.filterMap Except.toOption

/-- The message that the loop has in hand, with the channels still to be tried. -/
def Loop.hand : Loop → Option (Message × List String)
  | .received m | .distributing m => some (m, m.event.targets)
  | .sending m names => some (m, names)
  | .full m name rest | .blocked m name rest => some (m, name :: rest)
  | .notStarted | .waiting | .stopped => none

/-- The loop is done with the event of this number. -/
def State.Handled (s : State) (n : Nat) : Prop :=
  (∀ m ∈ s.queued, m.seq ≠ n) ∧ ∀ m names, s.loop.hand = some (m, names) → m.seq ≠ n

def State.OpenChannel (s : State) (name : String) : Prop :=
  ∃ ch, s.taskChannels name = some ch ∧ ch.isOpen = true

/-- Once everything is resumed, every event that arrived while it was paused and that the loop is
done with was put exactly once in each open channel it matches. -/
def State.PausedDelivered (s : State) : Prop :=
  s.isPaused = false → s.pausedTables = ∅ →
    ∀ n e, s.arrived[n]? = some ⟨e, true⟩ → s.Handled n →
      ∀ name ∈ e.targets, s.OpenChannel name → s.delivered.count (n, name) = 1

/-- The message arrived while it was paused, and an open channel waits for it. -/
def State.Owed (s : State) (m : Message) : Prop :=
  s.arrived[m.seq]? = some ⟨m.event, true⟩ ∧ ∃ name ∈ m.event.targets, s.OpenChannel name

/-- Where the loop reads a flag for an event that is owed, it finds it cleared. -/
def FindsResumed (s : State) : Label → Prop
  | .checkPaused => ∀ m, s.loop = .received m → s.Owed m → s.isPaused = false
  | .checkTable => ∀ m, s.loop = .distributing m → s.Owed m → s.tablePaused m.event = false
  | _ => True

/-! ## The invariant -/

/-- The messages in the loop's hand and in the stream, in this order. -/
def State.pending (s : State) : List Message := (s.loop.hand.map Prod.fst).toList ++ s.queued

/-- The channel is still to be tried for the event of this number. -/
def State.Unsent (s : State) (n : Nat) (name : String) : Prop :=
  (∃ m ∈ s.queued, m.seq = n ∧ name ∈ m.event.targets) ∨
    ∃ m names, s.loop.hand = some (m, names) ∧ m.seq = n ∧ name ∈ names

structure Inv (s : State) : Prop where
  known : ∀ m ∈ s.pending, ∃ paused, s.arrived[m.seq]? = some ⟨m.event, paused⟩
  pending_nodup : (s.pending.map Message.seq).Nodup
  hand_nodup : ∀ m names, s.loop.hand = some (m, names) → names.Nodup
  delivered_lt : ∀ n name, (n, name) ∈ s.delivered → n < s.arrived.length
  unsent : ∀ n name, s.Unsent n name → (n, name) ∉ s.delivered
  sent : ∀ n e name, s.arrived[n]? = some ⟨e, true⟩ → name ∈ e.targets → s.OpenChannel name →
    s.Unsent n name ∨ s.delivered.count (n, name) = 1

theorem Inv.pausedDelivered {s : State} (h : Inv s) : s.PausedDelivered := by
  intro _ _ n e harrived hhandled name hname hopen
  rcases h.sent n e name harrived hname hopen with hunsent | hcount
  · rcases hunsent with ⟨m, hm, hseq, -⟩ | ⟨m, names, hhand, hseq, -⟩
    · exact absurd hseq (hhandled.1 m hm)
    · exact absurd hseq (hhandled.2 m names hhand)
  · exact hcount

variable {s s' : State}

theorem Starts.hand (h : Starts s) : s.loop.hand = none := by
  rw [h.loop, Loop.hand]

theorem Starts.pending (h : Starts s) : s.pending = [] := by
  simp [State.pending, State.queued, h.incoming, h.hand]

theorem Inv.init (h : Starts s) : Inv s := by
  refine ⟨?_, ?_, ?_, ?_, ?_, ?_⟩
  · simp [h.pending]
  · simp [h.pending]
  · simp [h.hand]
  · simp [h.delivered]
  · simp [h.delivered]
  · simp [h.arrived]

/-! ## What a step can do

Most steps leave the messages where they are, or let the loop be done with channels of the message
in its hand: because they are not open, or because the event is not owed. -/

/-- The events stay, and no channel is tried: the loop takes the next message, or is done with some
channels of the one in its hand. -/
structure Advances (s s' : State) : Prop where
  arrived : s'.arrived = s.arrived
  delivered : s'.delivered = s.delivered
  pending : s'.pending.Sublist s.pending
  hand_nodup : ∀ m names, s'.loop.hand = some (m, names) → names.Nodup
  unsent : ∀ n name, s'.Unsent n name → s.Unsent n name

/-- A step that leaves the messages in the stream and what the loop has in hand. -/
theorem Advances.same (hnodup : ∀ m names, s.loop.hand = some (m, names) → names.Nodup)
    (hqueued : s'.queued = s.queued) (hhand : s'.loop.hand = s.loop.hand)
    (harrived : s'.arrived = s.arrived) (hdelivered : s'.delivered = s.delivered) :
    Advances s s' := by
  refine ⟨harrived, hdelivered, ?_, ?_, ?_⟩
  · rw [State.pending, hqueued, hhand, State.pending]
  · rw [hhand]
    exact hnodup
  · intro n name hunsent
    rwa [State.Unsent, hqueued, hhand] at hunsent

/-- A step after which the loop has the message with fewer channels in hand, or nothing. -/
theorem Advances.pass {m : Message} {gone rest : List String}
    (hnodup : ∀ m names, s.loop.hand = some (m, names) → names.Nodup)
    (hhand : s.loop.hand = some (m, gone ++ rest))
    (hhand' : s'.loop.hand = some (m, rest) ∨ s'.loop.hand = none)
    (hqueued : s'.queued = s.queued) (harrived : s'.arrived = s.arrived)
    (hdelivered : s'.delivered = s.delivered) : Advances s s' := by
  refine ⟨harrived, hdelivered, ?_, ?_, ?_⟩
  · rw [State.pending, hqueued, State.pending, hhand]
    rcases hhand' with hsome | hnone
    · rw [hsome]
      exact List.Sublist.refl _
    · rw [hnone]
      exact List.sublist_cons_self _ _
  · intro m' names hsome
    rcases hhand' with hrest | hnone
    · rw [hrest] at hsome
      cases hsome
      exact (List.nodup_append.mp (hnodup m _ hhand)).2.1
    · rw [hnone] at hsome
      cases hsome
  · intro n name hunsent
    rcases hunsent with ⟨m', hm', hm⟩ | ⟨m', names, hsome, hseq, hname⟩
    · exact .inl ⟨m', hqueued ▸ hm', hm⟩
    · rcases hhand' with hrest | hnone
      · rw [hrest] at hsome
        cases hsome
        exact .inr ⟨m, _, hhand, hseq, List.mem_append_right _ hname⟩
      · rw [hnone] at hsome
        cases hsome

theorem State.queued_cons {m : Message} {rest : List (Result Message)}
    (hincoming : s.incoming = .ok m :: rest) :
    s.queued = m :: rest.filterMap Except.toOption := by
  rw [State.queued, hincoming]
  rfl

/-- The loop takes a message off the stream. -/
theorem Advances.receive {m : Message} {rest : List (Result Message)}
    (hloop : s.loop = .waiting) (hincoming : s.incoming = .ok m :: rest) :
    Advances s { s with incoming := rest, loop := .received m } := by
  have hqueued := State.queued_cons hincoming
  have hpending : s.pending = m :: rest.filterMap Except.toOption := by
    rw [State.pending, hqueued, hloop]
    rfl
  refine ⟨rfl, rfl, ?_, ?_, ?_⟩
  · rw [hpending]
    exact List.Sublist.refl _
  · intro m' names hsome
    cases hsome
    exact m.event.targets_nodup
  · intro n name hunsent
    rcases hunsent with ⟨m', hmem, hm'⟩ | ⟨m', names, hsome, hm'⟩
    · exact .inl ⟨m', hqueued ▸ List.mem_cons_of_mem _ hmem, hm'⟩
    · cases hsome
      exact .inl ⟨m, hqueued ▸ List.mem_cons_self, hm'⟩

/-- The events stay, and a channel that is no longer to be tried is owed nothing. -/
structure Passes (s s' : State) : Prop where
  arrived : s'.arrived = s.arrived
  delivered : s'.delivered = s.delivered
  pending : s'.pending.Sublist s.pending
  hand_nodup : ∀ m names, s'.loop.hand = some (m, names) → names.Nodup
  unsent : ∀ n name, s'.Unsent n name → s.Unsent n name
  opens : ∀ name, s'.OpenChannel name → s.OpenChannel name
  passed : ∀ n e name, s.arrived[n]? = some ⟨e, true⟩ → s'.OpenChannel name → s.Unsent n name →
    s'.Unsent n name

theorem Passes.inv (h : Passes s s') (hi : Inv s) : Inv s' where
  known m hm := by
    rw [h.arrived]
    exact hi.known m (h.pending.subset hm)
  pending_nodup := hi.pending_nodup.sublist (h.pending.map _)
  hand_nodup := h.hand_nodup
  delivered_lt n name hmem := by
    rw [h.delivered] at hmem
    rw [h.arrived]
    exact hi.delivered_lt n name hmem
  unsent n name hunsent := by
    rw [h.delivered]
    exact hi.unsent n name (h.unsent n name hunsent)
  sent n e name harrived hname hopen := by
    rw [h.arrived] at harrived
    rw [h.delivered]
    rcases hi.sent n e name harrived hname (h.opens name hopen) with hunsent | hcount
    · exact .inl (h.passed n e name harrived hopen hunsent)
    · exact .inr hcount

theorem Advances.passes (h : Advances s s')
    (hopens : ∀ name, s'.OpenChannel name → s.OpenChannel name)
    (hpassed : ∀ n e name, s.arrived[n]? = some ⟨e, true⟩ → s'.OpenChannel name →
      s.Unsent n name → s'.Unsent n name) : Passes s s' :=
  ⟨h.arrived, h.delivered, h.pending, h.hand_nodup, h.unsent, hopens, hpassed⟩

theorem Passes.same (hi : Inv s) (hqueued : s'.queued = s.queued)
    (hhand : s'.loop.hand = s.loop.hand) (harrived : s'.arrived = s.arrived)
    (hdelivered : s'.delivered = s.delivered)
    (hopens : ∀ name, s'.OpenChannel name → s.OpenChannel name) : Passes s s' := by
  refine (Advances.same hi.hand_nodup hqueued hhand harrived hdelivered).passes hopens ?_
  intro n e name _ _ hunsent
  rwa [State.Unsent, hqueued, hhand]

theorem Passes.pass {m : Message} {gone rest : List String} (hi : Inv s)
    (hhand : s.loop.hand = some (m, gone ++ rest))
    (hhand' : s'.loop.hand = some (m, rest) ∨ s'.loop.hand = none ∧ rest = [])
    (hincoming : s'.incoming = s.incoming) (harrived : s'.arrived = s.arrived)
    (hdelivered : s'.delivered = s.delivered) (hchannels : s'.taskChannels = s.taskChannels)
    (howed : ∀ e name, s.arrived[m.seq]? = some ⟨e, true⟩ → name ∈ gone → ¬ s.OpenChannel name) :
    Passes s s' := by
  have hqueued : s'.queued = s.queued := by rw [State.queued, hincoming, State.queued]
  have hopens : ∀ name, s'.OpenChannel name ↔ s.OpenChannel name := by
    intro name
    rw [State.OpenChannel, hchannels, State.OpenChannel]
  refine (Advances.pass hi.hand_nodup hhand (hhand'.imp_right And.left) hqueued harrived
    hdelivered).passes (fun name => (hopens name).mp) ?_
  intro n e name harrived' hopen hunsent
  rcases hunsent with ⟨m', hmem, hm'⟩ | ⟨m', names, hsome, hseq, hname⟩
  · exact .inl ⟨m', hqueued ▸ hmem, hm'⟩
  · rw [hhand] at hsome
    cases hsome
    rcases List.mem_append.mp hname with hgone | hrest
    · rw [← hseq] at harrived'
      exact absurd ((hopens name).mp hopen) (howed e name harrived' hgone)
    · rcases hhand' with hsome | ⟨-, hnil⟩
      · exact .inr ⟨m, rest, hsome, hseq, hrest⟩
      · rw [hnil] at hrest
        cases hrest

theorem Passes.receive {m : Message} {rest : List (Result Message)}
    (hloop : s.loop = .waiting) (hincoming : s.incoming = .ok m :: rest) :
    Passes s { s with incoming := rest, loop := .received m } := by
  refine (Advances.receive hloop hincoming).passes (fun _ => id) ?_
  intro n e name _ _ hunsent
  rcases hunsent with ⟨m', hmem, hm'⟩ | ⟨m', names, hsome, -⟩
  · rw [State.queued_cons hincoming] at hmem
    rcases List.mem_cons.mp hmem with rfl | hmem
    · exact .inr ⟨m', _, rfl, hm'⟩
    · exact .inl ⟨m', hmem, hm'⟩
  · rw [hloop] at hsome
    cases hsome

/-- After a channel is tried, all others are to be tried as before. -/
theorem State.unsent_push {m : Message} {name : String} {rest : List String} (ch : TaskChannel)
    (hhand : s.loop.hand = some (m, name :: rest)) (hnodup : (name :: rest).Nodup)
    (hfirst : ∀ m' ∈ s.queued, m'.seq ≠ m.seq) (n : Nat) (other : String) :
    State.Unsent { s.push name ch m with loop := .sending m rest } n other ↔
      s.Unsent n other ∧ (n, other) ≠ (m.seq, name) := by
  constructor
  · intro h
    rcases h with ⟨m', hmem, hseq, htarget⟩ | ⟨m', names, hsome, hseq, hother⟩
    · refine ⟨.inl ⟨m', hmem, hseq, htarget⟩, ?_⟩
      intro heq
      cases heq
      exact hfirst m' hmem hseq
    · cases hsome
      refine ⟨.inr ⟨m, _, hhand, hseq, List.mem_cons_of_mem _ hother⟩, ?_⟩
      intro heq
      cases heq
      exact (List.nodup_cons.mp hnodup).1 hother
  · intro h
    rcases h.1 with hqueued | ⟨m', names, hsome, hseq, hother⟩
    · exact .inl hqueued
    · rw [hhand] at hsome
      cases hsome
      rcases List.mem_cons.mp hother with rfl | hrest
      · exact absurd (by rw [hseq]) h.2
      · exact .inr ⟨m, rest, rfl, hseq, hrest⟩

/-- A message is put in a channel. -/
theorem Inv.push {m : Message} {name : String} {rest : List String} {ch : TaskChannel} (hi : Inv s)
    (hhand : s.loop.hand = some (m, name :: rest)) (hch : s.taskChannels name = some ch)
    (hopen : ch.isOpen = true) : Inv { s.push name ch m with loop := .sending m rest } := by
  have hnodup := List.nodup_cons.mp (hi.hand_nodup m _ hhand)
  have hpending : s.pending = m :: s.queued := by
    rw [State.pending, hhand]
    rfl
  have hfirst : ∀ m' ∈ s.queued, m'.seq ≠ m.seq := by
    have hseqs := hi.pending_nodup
    rw [hpending, List.map_cons, List.nodup_cons] at hseqs
    intro m' hmem heq
    exact hseqs.1 (heq ▸ List.mem_map_of_mem hmem)
  have hm : s.Unsent m.seq name := .inr ⟨m, _, hhand, rfl, List.mem_cons_self⟩
  have hunsent := State.unsent_push ch hhand (hi.hand_nodup m _ hhand) hfirst
  refine ⟨?_, ?_, ?_, ?_, ?_, ?_⟩
  · intro m' hmem
    exact hi.known m' (hpending ▸ hmem)
  · have hseqs := hi.pending_nodup
    rw [hpending] at hseqs
    exact hseqs
  · intro m' names hsome
    cases hsome
    exact hnodup.2
  · intro n other hmem
    rcases List.mem_append.mp hmem with hold | hnew
    · exact hi.delivered_lt n other hold
    · cases List.mem_singleton.mp hnew
      obtain ⟨paused, hknown⟩ := hi.known m (hpending ▸ List.mem_cons_self)
      exact (List.getElem?_eq_some_iff.mp hknown).1
  · intro n other h hmem
    obtain ⟨hold, hne⟩ := (hunsent n other).mp h
    rcases List.mem_append.mp hmem with hmem | hnew
    · exact hi.unsent n other hold hmem
    · exact hne (List.mem_singleton.mp hnew)
  · intro n e other harrived hother hopen'
    -- one entry is added, and the channel had none for this event as it was still to be tried
    have hcount : List.count (n, other) (s.delivered ++ [(m.seq, name)]) =
        s.delivered.count (n, other) + if (m.seq, name) = (n, other) then 1 else 0 := by
      rw [List.count_append, List.count_singleton]
      simp
    show _ ∨ List.count (n, other) (s.delivered ++ [(m.seq, name)]) = 1
    rw [hcount]
    by_cases heq : (n, other) = (m.seq, name)
    · cases heq
      have hzero := List.count_eq_zero.mpr (hi.unsent _ _ hm)
      exact .inr (by simp [hzero])
    · have hopen'' : s.OpenChannel other := by
        obtain ⟨ch', hch', hopench⟩ := hopen'
        by_cases hname : other = name
        · exact ⟨ch, hname ▸ hch, hopen⟩
        · replace hch' : Function.update s.taskChannels name _ other = some ch' := hch'
          rw [Function.update_of_ne hname] at hch'
          exact ⟨ch', hch', hopench⟩
      rw [if_neg (Ne.symm heq), Nat.add_zero]
      rcases hi.sent n e other harrived hother hopen'' with hold | hold
      · exact .inl ((hunsent n other).mpr ⟨hold, heq⟩)
      · exact .inr hold

theorem State.queued_arrive (event : Event) :
    (s.arrive (.ok event)).queued = s.queued ++ [⟨s.arrived.length, event⟩] := by
  simp [State.queued, State.arrive, Except.toOption]

theorem State.pending_arrive (event : Event) :
    (s.arrive (.ok event)).pending = s.pending ++ [⟨s.arrived.length, event⟩] := by
  rw [State.pending, State.queued_arrive, State.pending, List.append_assoc]
  rfl

/-- A new event is to be tried on all its channels. -/
theorem State.unsent_arrive (event : Event) (n : Nat) (name : String) :
    (s.arrive (.ok event)).Unsent n name ↔
      s.Unsent n name ∨ n = s.arrived.length ∧ name ∈ event.targets := by
  simp only [State.Unsent, State.queued_arrive, List.mem_append, List.mem_singleton]
  constructor
  · intro h
    rcases h with ⟨m, hmem | rfl, hseq, hname⟩ | hhand
    · exact .inl (.inl ⟨m, hmem, hseq, hname⟩)
    · exact .inr ⟨hseq.symm, hname⟩
    · exact .inl (.inr hhand)
  · intro h
    rcases h with (⟨m, hmem, hm⟩ | hhand) | ⟨rfl, hname⟩
    · exact .inl ⟨m, .inl hmem, hm⟩
    · exact .inr hhand
    · exact .inl ⟨_, .inr rfl, rfl, hname⟩

/-- An event arrives. -/
theorem Inv.arrive (hi : Inv s) (event : Event) : Inv (s.arrive (.ok event)) := by
  have hpending := State.pending_arrive (s := s) event
  have hunsent := State.unsent_arrive (s := s) event
  -- the new number is larger than that of anything pending
  have hlt : ∀ m ∈ s.pending, m.seq < s.arrived.length := by
    intro m hm
    obtain ⟨paused, hknown⟩ := hi.known m hm
    exact (List.getElem?_eq_some_iff.mp hknown).1
  refine ⟨?_, ?_, hi.hand_nodup, ?_, ?_, ?_⟩
  · intro m hmem
    rw [hpending] at hmem
    rcases List.mem_append.mp hmem with hold | hnew
    · obtain ⟨paused, hknown⟩ := hi.known m hold
      exact ⟨paused, List.getElem?_append_left (hlt m hold) ▸ hknown⟩
    · cases List.mem_singleton.mp hnew
      exact ⟨_, List.getElem?_concat_length⟩
  · rw [hpending, List.map_append, List.map_singleton, List.nodup_append]
    refine ⟨hi.pending_nodup, List.nodup_singleton _, ?_⟩
    intro n hn n' hn'
    obtain ⟨m, hm, rfl⟩ := List.mem_map.mp hn
    rw [List.mem_singleton.mp hn']
    exact (hlt m hm).ne
  · intro n name hmem
    have hlt := hi.delivered_lt n name hmem
    show n < (s.arrived ++ [_]).length
    rw [List.length_append]
    exact Nat.lt_add_right _ hlt
  · intro n name h hmem
    rcases (hunsent n name).mp h with hold | ⟨rfl, -⟩
    · exact hi.unsent n name hold hmem
    · exact Nat.lt_irrefl _ (hi.delivered_lt _ name hmem)
  · intro n e name harrived hname hopen
    replace harrived : (s.arrived ++ [_])[n]? = some _ := harrived
    rcases Nat.lt_or_ge n s.arrived.length with hn | hn
    · rw [List.getElem?_append_left hn] at harrived
      rcases hi.sent n e name harrived hname hopen with hold | hcount
      · exact .inl ((hunsent n name).mpr (.inl hold))
      · exact .inr hcount
    · rw [List.getElem?_append_right hn, List.getElem?_singleton] at harrived
      split at harrived
      · next hzero =>
        have he : event = e := congrArg Arrival.event (Option.some.inj harrived)
        exact .inl ((hunsent n name).mpr (.inr ⟨by omega, he ▸ hname⟩))
      · cases harrived

/-- Setting a channel opens none. -/
theorem openChannel_of_setChannel {name other : String} {ch ch' : TaskChannel}
    (hch : s.taskChannels name = some ch) (hopen : ch'.isOpen = true → ch.isOpen = true)
    (h : (s.setChannel name ch').OpenChannel other) : s.OpenChannel other := by
  obtain ⟨found, hfound, hfoundOpen⟩ := h
  replace hfound : Function.update s.taskChannels name (some ch') other = some found := hfound
  by_cases hname : other = name
  · subst hname
    rw [Function.update_self] at hfound
    cases hfound
    exact ⟨ch, hch, hopen hfoundOpen⟩
  · rw [Function.update_of_ne hname] at hfound
    exact ⟨found, hfound, hfoundOpen⟩

/-- The loop skips the event in its hand: it is not owed to anybody. -/
theorem Passes.drop {m : Message} (hi : Inv s) (hhand : s.loop.hand = some (m, m.event.targets))
    (howed : ¬ s.Owed m) : Passes s { s with loop := .waiting } := by
  have hall : s.loop.hand = some (m, m.event.targets ++ []) := by
    rw [List.append_nil]
    exact hhand
  refine .pass hi hall (.inr ⟨rfl, rfl⟩) rfl rfl rfl rfl ?_
  · intro e name harrived hname hopen
    have hpending : m ∈ s.pending := by
      rw [State.pending, hhand]
      exact List.mem_cons_self
    obtain ⟨paused, hknown⟩ := hi.known m hpending
    rw [hknown] at harrived
    cases harrived
    exact howed ⟨hknown, name, hname, hopen⟩

/-- A step after which the channel is skipped: nobody listens to it. -/
theorem Passes.skip {m : Message} {name : String} {rest : List String} (hi : Inv s)
    (hhand : s.loop.hand = some (m, name :: rest)) (hno : s.Unreachable name) :
    Passes s { s with loop := .sending m rest } := by
  have hall : s.loop.hand = some (m, [name] ++ rest) := hhand
  refine .pass hi hall (.inl rfl) rfl rfl rfl rfl ?_
  intro e other _ hother hopen
  rw [List.mem_singleton.mp hother] at hopen
  obtain ⟨ch, hch, hopen⟩ := hopen
  rw [hno ch hch] at hopen
  cases hopen

/-- The loop looks at a pause with an event in its hand. An event that finds the pause set is
skipped, so it must be owed to nobody. -/
theorem Passes.look {m : Message} {paused : Bool} {next : Loop} (hi : Inv s)
    (hhand : s.loop.hand = some (m, m.event.targets))
    (hnext : next.hand = some (m, m.event.targets)) (hok : s.Owed m → paused = false) :
    Passes s { s with loop := if paused then .waiting else next } := by
  cases paused with
  | true =>
    have howed : ¬ s.Owed m := by
      intro howed
      cases hok howed
    exact .drop hi hhand howed
  | false => exact .same hi rfl (hnext.trans hhand.symm) rfl rfl fun _ => id

theorem Inv.step {l : Label} (hi : Inv s) (hok : FindsResumed s l) (hs : Step s l s') : Inv s' := by
  have hopens : ∀ name, s.OpenChannel name → s.OpenChannel name := fun _ => id
  cases hs with
  | @arrive item =>
    cases item with
    | ok event => exact hi.arrive event
    | error e =>
      have hqueued : (s.arrive (.error e)).queued = s.queued := by
        simp [State.queued, State.arrive, Except.toOption]
      exact Passes.inv (.same hi hqueued rfl rfl rfl hopens) hi
  | @start succeeds hloop =>
    have hhand : Loop.hand (if succeeds then .waiting else .stopped) = s.loop.hand := by
      rw [hloop]
      cases succeeds <;> rfl
    exact Passes.inv (.same hi rfl hhand rfl rfl hopens) hi
  | receive hloop hincoming => exact (Passes.receive hloop hincoming).inv hi
  | @receiveError e rest hloop hincoming =>
    have hqueued : rest.filterMap Except.toOption = s.queued := by
      rw [State.queued, hincoming]
      rfl
    exact Passes.inv (.same hi hqueued rfl rfl rfl hopens) hi
  | @checkPaused m hloop =>
    have hhand : s.loop.hand = some (m, m.event.targets) := by rw [hloop]; rfl
    -- the two reads of the flags are where the condition on the step comes in
    exact (Passes.look hi hhand rfl (hok m hloop)).inv hi
  | @checkTable m hloop =>
    have hhand : s.loop.hand = some (m, m.event.targets) := by rw [hloop]; rfl
    exact (Passes.look hi hhand rfl (hok m hloop)).inv hi
  | skip hloop hno => exact (Passes.skip hi (by rw [hloop]; rfl) hno).inv hi
  | trySend hloop hch hopen hroom => exact hi.push (by rw [hloop]; rfl) hch hopen
  | trySendFull hloop hch hopen hfull =>
    exact Passes.inv (.same hi rfl (by rw [hloop]; rfl) rfl rfl hopens) hi
  | pauseFull hloop => exact Passes.inv (.same hi rfl (by rw [hloop]; rfl) rfl rfl hopens) hi
  | blockedSend hloop hch hopen hroom => exact hi.push (by rw [hloop]; rfl) hch hopen
  | blockedClosed hloop hno => exact (Passes.skip hi (by rw [hloop]; rfl) hno).inv hi
  | @finish m hloop =>
    have hhand : s.loop.hand = some (m, [] ++ []) := by rw [hloop]; rfl
    refine Passes.inv (.pass hi hhand (.inr ⟨rfl, rfl⟩) rfl rfl rfl rfl ?_) hi
    intro e name _ hname
    cases hname
  | shutdown hloop => exact Passes.inv (.same hi rfl (by rw [hloop]; rfl) rfl rfl hopens) hi
  | pauseAll => exact Passes.inv (.same hi rfl rfl rfl rfl hopens) hi
  | resumeAll => exact Passes.inv (.same hi rfl rfl rfl rfl hopens) hi
  | pauseTable => exact Passes.inv (.same hi rfl rfl rfl rfl hopens) hi
  | resumeTable => exact Passes.inv (.same hi rfl rfl rfl rfl hopens) hi
  | recv hch hqueue =>
    exact Passes.inv
      (.same hi rfl rfl rfl rfl fun _ => openChannel_of_setChannel hch fun hopen => hopen) hi
  | close hch =>
    exact Passes.inv (.same hi rfl rfl rfl rfl fun _ => openChannel_of_setChannel hch nofun) hi

theorem reachable_inv (h : (machine.restrict FindsResumed).Reachable s) : Inv s := by
  refine h.invariant (I := Inv) (fun _ hs => .init hs) ?_
  intro s l s' hi hs
  exact hi.step hs.1 hs.2

/-- **Pausing defers events.** In every run in which the loop finds the flags cleared whenever it
reads them for an event that is owed, the events that arrived during a pause are delivered once. -/
theorem paused_delivered (s : State) (h : (machine.restrict FindsResumed).Reachable s) :
    s.PausedDelivered :=
  (reachable_inv h).pausedDelivered

/-! ### A pause around one event -/

/-- It has arrived during a global pause, and the pause is over. -/
def changeWaits : State :=
  { registered ["users"] with
    incoming := [.ok ⟨0, usersChange⟩]
    loop := .waiting
    arrived := [⟨usersChange, true⟩] }

theorem reachable_changeWaits : (machine.restrict FindsResumed).Reachable changeWaits := by
  have h₀ : (machine.restrict FindsResumed).Reachable (registered ["users"]) :=
    .init (registered_starts _)
  have h₁ := h₀.step (l := Label.start true) ⟨trivial, .start rfl⟩
  have h₂ := h₁.step (l := Label.pauseAll) ⟨trivial, .pauseAll⟩
  have h₃ := h₂.step (l := Label.arrive (.ok usersChange)) ⟨trivial, .arrive⟩
  exact h₃.step (l := Label.resumeAll) ⟨trivial, .resumeAll⟩

/-- The loop takes the event after the pause. -/
theorem paused_delivered_users :
    ∃ s : State, s.arrived = [⟨usersChange, true⟩] ∧ s.delivered = [(0, "users")] ∧
      s.PausedDelivered := by
  have h₁ := reachable_changeWaits.step (l := Label.receive) ⟨trivial, .receive rfl rfl⟩
  have h₂ := h₁.step (l := Label.checkPaused) ⟨fun _ _ _ => rfl, .checkPaused rfl⟩
  have h₃ := h₂.step (l := Label.checkTable)
    ⟨fun m _ _ => by simp [State.tablePaused, changeWaits, registered], .checkTable rfl⟩
  have h₄ := h₃.step (l := Label.trySend) ⟨trivial, .trySend rfl rfl rfl (by decide)⟩
  exact ⟨_, rfl, rfl, paused_delivered _ h₄⟩

/-- The loop takes the event during the pause. -/
theorem paused_not_always_delivered : ¬ ∀ s, machine.Reachable s → s.PausedDelivered := by
  intro h
  have h₀ : machine.Reachable (registered ["users"]) := .init (registered_starts _)
  have h₁ := h₀.step (l := Label.start true) (.start rfl)
  have h₂ := h₁.step (l := Label.pauseAll) .pauseAll
  have h₃ := h₂.step (l := Label.arrive (.ok usersChange)) .arrive
  have h₄ := h₃.step (l := Label.receive) (.receive rfl rfl)
  have h₅ := h₄.step (l := Label.checkPaused) (.checkPaused rfl)
  have h₆ := h₅.step (l := Label.resumeAll) .resumeAll
  have hcount := h _ h₆ rfl rfl 0 usersChange rfl ⟨nofun, nofun⟩ "users" (by decide) ⟨_, rfl, rfl⟩
  cases hcount

end CdcCoordinator

end MeiliBridge
