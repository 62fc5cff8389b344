import Mathlib.Data.List.Chain
import MeiliBridge.Pipeline.Positions
import MeiliBridge.Pipeline.StealingTables

/-!
# The checkpoint of the parallel path

`process_parallel_results` takes the checkpoint from whichever answer comes last. The workers of a
table finish in any order, the batches of a table may be answered with failures or errors, and none
of it keeps the checkpoint back.

`CheckpointSafe` is the law: the checkpoint does not go back, and an event at or before it is
settled, that is, dropped by the stages or acknowledged. `AnswersInOrder` is the condition on what
may still be open when an answer comes, and `parallel_checkpoint_safe` the law for every run that
meets it. The invariant is that every event is settled or open, and no open one is at the checkpoint
or before it.
-/

set_option autoImplicit false

namespace MeiliBridge

open Trans Parallel

namespace ParallelResults

/-! ## The law -/

/-- The checkpoint of the table's task lies at the event or past it. -/
def State.Reaches (s : State) (table : Nat) (e : Event) : Prop :=
  ∃ p q, s.checkpoint table = some p ∧ extractPositionFromEvent e = some q ∧ p.AtOrAfter q

structure State.CheckpointSafe (s : State) : Prop where
  forward : ∀ table, (s.positions table).IsChain fun p p' => p.isAfter p' = false
  settled : ∀ n table e, s.enqueued[n]? = some (table, e) → s.Reaches table e → n ∈ s.settled

/-- The event is in flight at the table or lost there. -/
def State.Open (s : State) (table : Nat) (x : Tagged) : Prop :=
  s.InFlight table x ∨ (table, x) ∈ s.lost

/-- The event is still open after an answer that acknowledges `acked`. -/
def State.StaysOpen (s : State) (table : Nat) (acked : List Nat) (x : Tagged) : Prop :=
  Holds (s.system.processors table) x ∨
    (∃ batch, s.awaiting table = some batch ∧ x ∈ batch ∧ x.seq ∉ acked) ∨ (table, x) ∈ s.lost

/-- Events come after the checkpoint, balancing steals nothing, and what is still open after an
answer lies after the position of the answer. -/
def AnswersInOrder (s : State) : Label → Prop
  | .system (.enqueue table events) => ∀ e ∈ events, ¬ s.Reaches table e
  | .system l => StealsNothing s.system l
  | .answer table answer acked => ∀ position, answerPosition answer = some position →
      ∀ x, s.StaysOpen table acked x → ∀ q, extractPositionFromEvent x.source = some q →
        ¬ position.AtOrAfter q

/-! ## The invariant -/

structure Safe (s : State) : Prop where
  placed : Placed s
  forward : ∀ table, (s.positions table).IsChain fun p p' => p.isAfter p' = false
  /-- an event in flight has the position it was enqueued with -/
  position : ∀ t x, s.InFlight t x →
    extractPositionFromEvent x.event = extractPositionFromEvent x.source
  ahead : ∀ t x, s.Open t x → ¬ s.Reaches t x.source
  accounted : ∀ n t e, s.enqueued[n]? = some (t, e) →
    n ∈ s.settled ∨ ∃ x, s.Open t x ∧ x.seq = n ∧ x.source = e

variable {cfg : ParallelConfig} {s s' : State}

theorem Safe.checkpointSafe (h : Safe s) : s.CheckpointSafe where
  forward := h.forward
  settled n table e he hreaches := by
    rcases h.accounted n table e he with hsettled | ⟨x, hopen, -, rfl⟩
    · exact hsettled
    · exact absurd hreaches (h.ahead table x hopen)

theorem Safe.init (h : Starts cfg s) : Safe s := by
  have hopen : ∀ t x, ¬ s.Open t x := by
    intro t x hx
    rcases hx with (hx | ⟨batch, hbatch, -⟩) | hx
    · simp [h.system, System.start, Holds, Worker.held] at hx
    · rw [h.awaiting] at hbatch
      cases hbatch
    · rw [h.lost] at hx
      cases hx
  refine ⟨.init h, ?_, ?_, ?_, ?_⟩
  · intro table
    have hlength := h.positions table
    cases hpositions : s.positions table with
    | nil => exact .nil
    | cons p rest =>
      rw [hpositions, List.length_cons] at hlength
      have hrest : rest.length = 0 := by omega
      rw [List.length_eq_zero_iff.mp hrest]
      exact .singleton p
  · intro t x hx
    exact absurd (.inl hx) (hopen t x)
  · intro t x hx
    exact absurd hx (hopen t x)
  · intro n t e he
    rw [h.enqueued] at he
    cases he

/-- A step that leaves the checkpoints: every open event stays open or is settled, and no event is
opened. -/
structure Carries (s s' : State) : Prop where
  positions : s'.positions = s.positions
  enqueued : s'.enqueued = s.enqueued
  settled : ∀ n ∈ s.settled, n ∈ s'.settled
  position : ∀ t x, s'.InFlight t x →
    extractPositionFromEvent x.event = extractPositionFromEvent x.source
  opened : ∀ t x, s'.Open t x → ∃ y, s.Open t y ∧ x.source = y.source
  kept : ∀ t x, s.Open t x → x.seq ∈ s'.settled ∨
    ∃ y, s'.Open t y ∧ y.seq = x.seq ∧ y.source = x.source

theorem Carries.safe (h : Carries s s') (hi : Safe s) (hplaced : Placed s') : Safe s' where
  placed := hplaced
  forward := by
    rw [h.positions]
    exact hi.forward
  position := h.position
  ahead t x hx hreaches := by
    obtain ⟨y, hy, hsource⟩ := h.opened t x hx
    rw [State.Reaches, State.checkpoint, h.positions, hsource] at hreaches
    exact hi.ahead t y hy hreaches
  accounted n t e he := by
    rw [h.enqueued] at he
    rcases hi.accounted n t e he with hsettled | ⟨x, hx, rfl, rfl⟩
    · exact .inl (h.settled n hsettled)
    · exact h.kept t x hx

/-! ## The steps -/

/-- A step after which the same events are in flight at each table. -/
theorem Carries.same (hi : Safe s) (hpositions : s'.positions = s.positions)
    (henqueued : s'.enqueued = s.enqueued) (hsettled : s'.settled = s.settled)
    (hlost : s'.lost = s.lost) (hflight : ∀ t x, s'.InFlight t x ↔ s.InFlight t x) :
    Carries s s' := by
  have hopen : ∀ t x, s'.Open t x ↔ s.Open t x := by
    intro t x
    rw [State.Open, State.Open, hflight t x, hlost]
  refine ⟨hpositions, henqueued, fun n hn => hsettled ▸ hn, ?_, ?_, ?_⟩
  · intro t x hx
    exact hi.position t x ((hflight t x).mp hx)
  · intro t x hx
    exact ⟨x, (hopen t x).mp hx, rfl⟩
  · intro t x hx
    exact .inr ⟨x, (hopen t x).mpr hx, rfl, rfl⟩

theorem Carries.passOn {system : System} (hi : Safe s)
    (hholds : ∀ t x, Holds (system.processors t) x ↔ Holds (s.system.processors t) x) :
    Carries s { s with system } := by
  refine .same hi rfl rfl rfl rfl ?_
  intro t x
  unfold State.InFlight
  rw [hholds t x]

theorem Carries.forward {table : Nat} {batch : List Tagged} {rest : List (List Tagged)}
    {system : System} (hi : Safe s)
    (hresults : (s.system.processors table).results = batch :: rest)
    (hidle : s.awaiting table = none)
    (h : System.step cfg s.system (.forward table) = some system) :
    Carries s { s with system, awaiting := Function.update s.awaiting table (some batch) } := by
  refine .same hi rfl rfl rfl rfl ?_
  intro t x
  unfold State.InFlight
  simp only [awaiting_update, holds_forward hresults h t x]
  constructor
  · intro hx
    rcases hx with hx | ⟨batch', ⟨rfl, heq⟩ | ⟨-, hawaiting⟩, hx⟩
    · exact .inl (.inl hx)
    · cases heq
      exact .inl (.inr ⟨rfl, hx⟩)
    · exact .inr ⟨batch', hawaiting, hx⟩
  · intro hx
    rcases hx with (hx | ⟨rfl, hx⟩) | ⟨batch', hawaiting, hx⟩
    · exact .inl hx
    · exact .inr ⟨batch, .inl ⟨rfl, rfl⟩, hx⟩
    · refine .inr ⟨batch', .inr ⟨?_, hawaiting⟩, hx⟩
      intro ht
      rw [ht, hidle] at hawaiting
      cases hawaiting

/-- A worker ends its batch: its events are dropped, in the channel of results, or lost. -/
theorem Carries.send {table worker : Nat} {events : List Tagged} {system : System} (hi : Safe s)
    (hworking : (s.system.processors table).workers worker = .working events)
    (h : System.step cfg s.system (.send table worker) = some system) :
    Carries s { s.noteSend cfg table events with system } := by
  have hevents : ∀ x ∈ events, s.InFlight table x := by
    intro x hx
    refine .inl (.inr (.inl ⟨worker, ?_⟩))
    rw [hworking]
    exact hx
  have hlost : ∀ t x, (t, x) ∈ (s.noteSend cfg table events).lost →
      (t, x) ∈ s.lost ∨ t = table ∧ x ∈ events := by
    intro t x hx
    simp only [State.noteSend] at hx
    split at hx
    · rcases List.mem_append.mp hx with hold | hnew
      · exact .inl hold
      · obtain ⟨y, hy, heq⟩ := List.mem_map.mp hnew
        cases heq
        exact .inr ⟨rfl, List.mem_of_mem_filter hy⟩
    · exact .inl hx
  refine ⟨rfl, rfl, fun n hn => List.mem_append_left _ hn, ?_, ?_, ?_⟩
  · intro t x hx
    rcases hx with hx | hx
    · rcases holds_of_send hworking h hx with hold | ⟨rfl, y, hy, e, he, rfl⟩
      · exact hi.position t x (.inl hold)
      · exact (ParallelTableProcessor.extractPosition_processSingleEvent he).trans
          (hi.position t y (hevents y hy))
    · exact hi.position t x (.inr hx)
  · intro t x hx
    rcases hx with (hx | hx) | hx
    · rcases holds_of_send hworking h hx with hold | ⟨rfl, y, hy, e, -, rfl⟩
      · exact ⟨x, .inl (.inl hold), rfl⟩
      · exact ⟨y, .inl (hevents y hy), rfl⟩
    · exact ⟨x, .inl (.inr hx), rfl⟩
    · rcases hlost t x hx with hold | ⟨rfl, hmem⟩
      · exact ⟨x, .inr hold, rfl⟩
      · exact ⟨x, .inl (hevents x hmem), rfl⟩
  · intro t x hx
    -- An event of the batch is dropped, or in what is sent; a worker that panics loses the others.
    have hbatch : x ∈ events → t = table →
        x.seq ∈ (s.noteSend cfg table events).settled ∨ ∃ y,
          State.Open { s.noteSend cfg table events with system } t y ∧ y.seq = x.seq ∧
            y.source = x.source := by
      rintro hmem rfl
      cases hprocessed : processBatch cfg.rt (cfg.stages t) events with
      | some processed =>
        rcases processBatch_covers hprocessed x hmem with hdropped | ⟨y, hy, heq⟩
        · exact .inl (List.mem_append_right _ hdropped)
        · exact .inr ⟨y, .inl (.inl (holds_processed hworking h hprocessed y hy)), heq⟩
      | none =>
        by_cases hdropped : x.seq ∈ droppedSeqs cfg.rt (cfg.stages t) events
        · exact .inl (List.mem_append_right _ hdropped)
        · refine .inr ⟨x, .inr ?_, rfl, rfl⟩
          simp only [State.noteSend, hprocessed, Option.isNone_none, if_true]
          refine List.mem_append_right _ (List.mem_map.mpr ⟨x, ?_, rfl⟩)
          exact List.mem_filter.mpr ⟨hmem, by simpa using hdropped⟩
    rcases hx with (hx | hx) | hx
    · rcases holds_after_send hworking h hx with hkept | ⟨rfl, hmem⟩
      · exact .inr ⟨x, .inl (.inl hkept), rfl, rfl⟩
      · exact hbatch hmem rfl
    · exact .inr ⟨x, .inl (.inr hx), rfl, rfl⟩
    · refine .inr ⟨x, .inr ?_, rfl, rfl⟩
      simp only [State.noteSend]
      split
      · exact List.mem_append_left _ hx
      · exact hx

theorem tag_mem {n i : Nat} {events : List Event} {e : Event} (h : events[i]? = some e) :
    ⟨n + i, e, e⟩ ∈ tag n events := by
  refine List.mem_map.mpr ⟨(e, n + i), ?_, rfl⟩
  rw [List.mem_zipIdx_iff_le_and_getElem?_sub]
  exact ⟨Nat.le_add_right n i, by simpa using h⟩

/-- Events are enqueued that come after the checkpoint. -/
theorem Safe.enqueue {table : Nat} {events : List Event} {system : System} (hi : Safe s)
    (hok : ∀ e ∈ events, ¬ s.Reaches table e)
    (h : System.step cfg s.system (.enqueue table events) = some system) :
    Safe { s with system, enqueued := s.enqueued ++ events.map fun e => (table, e) } := by
  have hflight : ∀ t x, State.InFlight
      { s with system, enqueued := s.enqueued ++ events.map fun e => (table, e) } t x ↔
        s.InFlight t x ∨ t = table ∧ x ∈ tag s.system.nextSeq events := by
    intro t x
    unfold State.InFlight
    rw [holds_enqueue h t x]
    exact or_right_comm
  refine ⟨hi.placed.enqueue h, hi.forward, ?_, ?_, ?_⟩
  · intro t x hx
    rcases (hflight t x).mp hx with hold | ⟨-, hnew⟩
    · exact hi.position t x hold
    · obtain ⟨i, -, -, heq⟩ := mem_tag hnew
      rw [heq]
  · intro t x hx
    rcases hx with hx | hx
    · rcases (hflight t x).mp hx with hold | ⟨rfl, hnew⟩
      · exact hi.ahead t x (.inl hold)
      · obtain ⟨i, he, -, -⟩ := mem_tag hnew
        exact hok x.source (List.mem_of_getElem? he)
    · exact hi.ahead t x (.inr hx)
  · intro n t e he
    replace he : (s.enqueued ++ events.map fun e => (table, e))[n]? = some (t, e) := he
    rcases Nat.lt_or_ge n s.enqueued.length with hn | hn
    · rw [List.getElem?_append_left hn] at he
      rcases hi.accounted n t e he with hsettled | ⟨x, hx | hx, hseq⟩
      · exact .inl hsettled
      · exact .inr ⟨x, .inl ((hflight t x).mpr (.inl hx)), hseq⟩
      · exact .inr ⟨x, .inr hx, hseq⟩
    -- a new event is open, in the queue
    · rw [List.getElem?_append_right hn, List.getElem?_map] at he
      obtain ⟨e', he', heq⟩ := Option.map_eq_some_iff.mp he
      cases heq
      refine .inr ⟨_, .inl ((hflight _ _).mpr (.inr ⟨rfl, tag_mem he'⟩)), ?_, rfl⟩
      show s.system.nextSeq + (n - s.enqueued.length) = n
      rw [← hi.placed.numbered]
      omega

/-- The position of a response is that of an event of the batch. -/
theorem lastPosition_mem {batch : List Tagged} {position : Position}
    (h : MeilisearchAdapter.lastPosition (batch.map Tagged.event) = some position) :
    ∃ x ∈ batch, extractPositionFromEvent x.event = some position := by
  obtain ⟨e, he, hposition⟩ := List.mem_filterMap.mp (List.mem_of_getLast? h)
  obtain ⟨x, hx, rfl⟩ := List.mem_map.mp he
  refine ⟨x, hx, ?_⟩
  split at hposition
  · next c heq =>
    rw [heq]
    exact hposition
  · cases hposition

/-- What is open after an answer was open before it, and stays open. -/
theorem open_of_settle {table : Nat} {batch : List Tagged} {answer : Answer} {acked : List Nat}
    (hawaiting : s.awaiting table = some batch) {t : Nat} {x : Tagged}
    (hx : (s.settle table batch answer acked).Open t x) :
    s.Open t x ∧ (t = table → s.StaysOpen table acked x) := by
  rcases hx with (hx | ⟨batch', hbatch', hx⟩) | hx
  · exact ⟨.inl (.inl hx), fun ht => .inl (ht ▸ hx)⟩
  · rcases awaiting_update.mp hbatch' with ⟨-, hnone⟩ | ⟨ht, hold⟩
    · cases hnone
    · exact ⟨.inl (.inr ⟨batch', hold, hx⟩), fun heq => absurd heq ht⟩
  · rcases List.mem_append.mp hx with hold | hnew
    · exact ⟨.inr hold, fun ht => .inr (.inr (ht ▸ hold))⟩
    · obtain ⟨y, hy, heq⟩ := List.mem_map.mp hnew
      cases heq
      obtain ⟨hmem, hacked⟩ := List.mem_filter.mp hy
      refine ⟨.inl (.inr ⟨batch, hawaiting, hmem⟩), fun _ =>
        .inr (.inl ⟨batch, hawaiting, hmem, ?_⟩)⟩
      simpa using hacked

/-- What was open before an answer is acknowledged or open after it. -/
theorem settle_of_open {table : Nat} {batch : List Tagged} {answer : Answer} {acked : List Nat}
    (hawaiting : s.awaiting table = some batch) {t : Nat} {x : Tagged} (hx : s.Open t x) :
    x.seq ∈ (s.settle table batch answer acked).settled ∨
      (s.settle table batch answer acked).Open t x := by
  rcases hx with (hx | ⟨batch', hbatch', hx⟩) | hx
  · exact .inr (.inl (.inl hx))
  · by_cases ht : t = table
    · subst ht
      rw [hawaiting] at hbatch'
      cases hbatch'
      by_cases hacked : x.seq ∈ acked
      · exact .inl (List.mem_append_right _ hacked)
      · refine .inr (.inr (List.mem_append_right _ (List.mem_map.mpr ⟨x, ?_, rfl⟩)))
        exact List.mem_filter.mpr ⟨hx, by simpa using hacked⟩
    · exact .inr (.inl (.inr ⟨batch', awaiting_update.mpr (.inr ⟨ht, hbatch'⟩), hx⟩))
  · exact .inr (.inr (List.mem_append_left _ hx))

theorem checkpoint_settle (s : State) (table : Nat) (batch : List Tagged) (answer : Answer)
    (acked : List Nat) (t : Nat) : (s.settle table batch answer acked).checkpoint t =
      if t = table then (answerPosition answer).or (s.checkpoint t) else s.checkpoint t := by
  cases hposition : answerPosition answer with
  | none => simp [State.settle, State.checkpoint, hposition]
  | some position =>
    by_cases ht : t = table
    · subst ht
      simp [State.settle, State.checkpoint, hposition]
    · simp [State.settle, State.checkpoint, hposition, ht]

/-- An answer comes, and what stays open lies after its position. -/
theorem Safe.answer {table : Nat} {batch : List Tagged} {answer : Answer} {acked : List Nat}
    (hi : Safe s) (hplaced : Placed (s.settle table batch answer acked))
    (hok : AnswersInOrder s (.answer table answer acked))
    (hawaiting : s.awaiting table = some batch)
    (hlast : ∀ r, answer = .response r →
      r.lastPosition = MeilisearchAdapter.lastPosition (batch.map Tagged.event)) :
    Safe (s.settle table batch answer acked) where
  placed := hplaced
  forward t := by
    cases hposition : answerPosition answer with
    | none =>
      simp only [State.settle, hposition]
      exact hi.forward t
    | some position =>
      simp only [State.settle, hposition]
      by_cases ht : t = table
      · subst ht
        rw [Function.update_self, List.isChain_append]
        refine ⟨hi.forward t, .singleton _, ?_⟩
        intro p hp p' hp'
        rw [List.head?_cons, Option.mem_some_iff] at hp'
        subst hp'
        -- the position is that of an event of the batch, which was open before the answer
        have hresponse : ∃ x ∈ batch, extractPositionFromEvent x.event = some position := by
          cases answer with
          | response r => exact lastPosition_mem ((hlast r rfl).symm.trans hposition)
          | _ => cases hposition
        obtain ⟨x, hx, hevent⟩ := hresponse
        have hflight : s.InFlight t x := .inr ⟨batch, hawaiting, hx⟩
        rw [hi.position t x hflight] at hevent
        cases hafter : p.isAfter position with
        | false => rfl
        | true => exact absurd ⟨p, position, hp, hevent, .inr hafter⟩ (hi.ahead t x (.inl hflight))
      · rw [Function.update_of_ne ht]
        exact hi.forward t
  position t x hx := by
    refine hi.position t x ?_
    rcases hx with hx | ⟨batch', hbatch', hx⟩
    · exact .inl hx
    · rcases awaiting_update.mp hbatch' with ⟨-, hnone⟩ | ⟨-, hold⟩
      · cases hnone
      · exact .inr ⟨batch', hold, hx⟩
  ahead t x hx := by
    obtain ⟨hopen, hstays⟩ := open_of_settle hawaiting hx
    intro hreaches
    obtain ⟨p, q, hp, hq, hreaches⟩ := hreaches
    rw [checkpoint_settle] at hp
    split at hp
    · next ht =>
      cases hposition : answerPosition answer with
      | none =>
        rw [hposition, Option.none_or] at hp
        exact hi.ahead t x hopen ⟨p, q, hp, hq, hreaches⟩
      | some position =>
        -- the checkpoint is the answer's position, and what stays open lies after it
        rw [hposition, Option.some_or] at hp
        cases hp
        exact hok p hposition x (hstays ht) q hq hreaches
    · exact hi.ahead t x hopen ⟨p, q, hp, hq, hreaches⟩
  accounted n t e he := by
    rcases hi.accounted n t e he with hsettled | ⟨x, hx, rfl, rfl⟩
    · exact .inl (List.mem_append_left _ hsettled)
    · rcases settle_of_open hawaiting hx with hsettled | hopen
      · exact .inl hsettled
      · exact .inr ⟨x, hopen, rfl, rfl⟩

theorem balancesNothing_of_answersInOrder {l : Label} (h : AnswersInOrder s l) :
    BalancesNothing s l := by
  cases l with
  | answer => trivial
  | system l =>
    cases l with
    | steal => exact h
    | _ => trivial

theorem Safe.step {l : Label} (hi : Safe s) (hok : AnswersInOrder s l) (hs : Step cfg s l s') :
    Safe s' := by
  have hplaced := hi.placed.step (balancesNothing_of_answersInOrder hok) hs
  cases hs with
  | enqueue h => exact hi.enqueue hok h
  | passOn hl h =>
    have hno := balancesNothing_of_answersInOrder hok
    exact (Carries.passOn hi (holds_passOn hl hno hi.placed.emptyHanded h).1).safe hi hplaced
  | send hworking h => exact (Carries.send hi hworking h).safe hi hplaced
  | forward hresults hidle h => exact (Carries.forward hi hresults hidle h).safe hi hplaced
  | answer hawaiting hacked hlast => exact hi.answer hplaced hok hawaiting hlast

/-- **Parallel checkpoint safety.** In every run in which events come after the checkpoint,
balancing steals nothing, and nothing that an answer leaves open lies at its position or before it,
the checkpoint never goes back and never passes an event that is not settled. -/
theorem parallel_checkpoint_safe (cfg : ParallelConfig) (s : State)
    (h : ((machine cfg).restrict AnswersInOrder).Reachable s) : s.CheckpointSafe := by
  have hsafe : Safe s := by
    refine h.invariant (I := Safe) (fun _ hs => .init hs) ?_
    intro s l s' hi hs
    exact hi.step hs.1 hs.2
  exact hsafe.checkpointSafe

/-! ### Two orders -/

/-- One table without stages, and two workers. -/
def twoWorkers : ParallelConfig := { twoTables with tables := 1, workersPerTable := 2 }

/-- Another order, later. -/
def orderUpdated : Event :=
  .cdc ⟨.update, "orders", "public", [("id", .number (.ofNat 1))], some (.postgreSQL "0/20")⟩

/-- Two tables without stages, and two workers for each. -/
def twoByTwo : ParallelConfig := { twoTables with workersPerTable := 2 }

theorem fresh_of_no_checkpoint {s : State} {table : Nat} {events : List Event}
    (h : s.checkpoint table = none) : ∀ e ∈ events, ¬ s.Reaches table e := by
  rintro e - ⟨p, q, hp, -⟩
  rw [h] at hp
  cases hp

/-- The answer acknowledges its batch, and nothing else is left but what the workers hold. -/
theorem answersInOrder_of_held {s : State} {table : Nat} {position : Position} {failed : Nat}
    {acked : List Nat} {batch : List Tagged} {workers : Nat → Worker}
    (hworkers : (s.system.processors table).workers = workers)
    (hqueue : (s.system.processors table).queue = [])
    (hresults : (s.system.processors table).results = [])
    (hawaiting : s.awaiting table = some batch) (hacked : ∀ y ∈ batch, y.seq ∈ acked)
    (hlost : s.lost = [])
    (hheld : ∀ i, ∀ x ∈ (workers i).held, ∀ q, extractPositionFromEvent x.source = some q →
      ¬ position.AtOrAfter q) :
    AnswersInOrder s (.answer table (.response ⟨0, failed, some position, []⟩) acked) := by
  intro _ hposition x hx
  obtain rfl := Option.some.inj hposition
  rcases hx with (hx | ⟨i, hx⟩ | ⟨batch', hbatch', -⟩) | ⟨batch', hbatch', hx, hopen⟩ | hx
  · rw [hqueue] at hx
    cases hx
  · rw [hworkers] at hx
    exact hheld i x hx
  · rw [hresults] at hbatch'
    cases hbatch'
  · cases hawaiting.symm.trans hbatch'
    exact absurd (hacked x hx) hopen
  · rw [hlost] at hx
    cases hx

/-- The workers when the first order has been sent. -/
def secondWaits : Nat → Worker :=
  let first : Tagged := ⟨0, orderCreated, orderCreated⟩
  let second : Tagged := ⟨1, orderUpdated, orderUpdated⟩
  Function.update (Function.update (Function.update (Function.update (fun _ => .idle)
    0 (.waiting [first])) 1 (.waiting [second])) 0 (.working [first])) 0 .idle

theorem held_secondWaits {i : Nat} {x : Tagged} (hx : x ∈ (secondWaits i).held) :
    x.source = orderUpdated := by
  match i with
  | 0 => cases hx
  | 1 =>
    obtain rfl := List.mem_singleton.mp hx
    rfl
  | _ + 2 => cases hx

/-- The workers when both orders have been sent. -/
def bothSent : Nat → Worker :=
  Function.update (Function.update secondWaits
    1 (.working [⟨1, orderUpdated, orderUpdated⟩])) 1 .idle

theorem held_bothSent (i : Nat) : (bothSent i).held = [] := by
  match i with
  | 0 | 1 | _ + 2 => rfl

/-- The second order is with its worker while the first one is answered for, and `balance_work`
comes round in between. -/
theorem parallel_checkpoint_safe_orders :
    ∃ s : State, s.positions 0 = [.postgreSQL "0/10", .postgreSQL "0/20"] ∧ s.CheckpointSafe := by
  have h₀ : ((machine twoByTwo).restrict AnswersInOrder).Reachable (start twoByTwo) :=
    .init (start_starts _)
  have h₁ := h₀.step (l := Label.system (.enqueue 0 [orderCreated]))
    ⟨fresh_of_no_checkpoint rfl, .enqueue rfl⟩
  have h₂ := h₁.step (l := Label.system (.drain 0 0)) ⟨trivial, .passOn rfl rfl⟩
  have h₃ := h₂.step (l := Label.system (.enqueue 0 [orderUpdated]))
    ⟨fresh_of_no_checkpoint rfl, .enqueue rfl⟩
  have h₄ := h₃.step (l := Label.system .survey) ⟨trivial, .passOn rfl rfl⟩
  have h₅ := h₄.step (l := Label.system .survey) ⟨trivial, .passOn rfl rfl⟩
  have h₆ := h₅.step (l := Label.system .steal)
    ⟨stealsNothing_of_plan rfl (by decide), .passOn rfl rfl⟩
  have h₇ := h₆.step (l := Label.system (.drain 0 1)) ⟨trivial, .passOn rfl rfl⟩
  have h₈ := h₇.step (l := Label.system (.acquire 0 0)) ⟨trivial, .passOn rfl rfl⟩
  have h₉ := h₈.step (l := Label.system (.send 0 0)) ⟨trivial, .send rfl rfl⟩
  have h₁₀ := h₉.step (l := Label.system (.forward 0)) ⟨trivial, .forward rfl rfl rfl⟩
  have h₁₁ := h₁₀.step (l := Label.answer 0 (answerAt 0 "0/10") [0])
    ⟨?_, .answer rfl (acknowledges_one ..) ?_⟩
  · have h₁₂ := h₁₁.step (l := Label.system (.acquire 0 1)) ⟨trivial, .passOn rfl rfl⟩
    have h₁₃ := h₁₂.step (l := Label.system (.send 0 1)) ⟨trivial, .send rfl rfl⟩
    have h₁₄ := h₁₃.step (l := Label.system (.forward 0)) ⟨trivial, .forward rfl rfl rfl⟩
    have h₁₅ := h₁₄.step (l := Label.answer 0 (answerAt 0 "0/20") [1])
      ⟨?_, .answer rfl (acknowledges_one ..) ?_⟩
    · exact ⟨_, rfl, parallel_checkpoint_safe _ _ h₁₅⟩
    · refine answersInOrder_of_held (show _ = bothSent from rfl) rfl rfl rfl (by decide) rfl ?_
      intro i x hx
      rw [held_bothSent] at hx
      cases hx
    · intro r hr
      cases hr
      rfl
  · -- the second order is open, and it is later
    refine answersInOrder_of_held (show _ = secondWaits from rfl) rfl rfl rfl (by decide) rfl ?_
    intro i x hx q hq
    rw [held_secondWaits hx] at hq
    obtain rfl := Option.some.inj hq
    exact Position.not_atOrAfter (by decide)
  · intro r hr
    cases hr
    rfl

/-- The second worker is faster. -/
theorem parallel_checkpoint_not_always_safe :
    ¬ ∀ (cfg : ParallelConfig) (s : State), (machine cfg).Reachable s → s.CheckpointSafe := by
  intro h
  have h₀ : (machine twoWorkers).Reachable (start twoWorkers) := .init (start_starts _)
  have h₁ := h₀.step (l := Label.system (.enqueue 0 [orderCreated])) (.enqueue rfl)
  have h₂ := h₁.step (l := Label.system (.drain 0 0)) (.passOn rfl rfl)
  have h₃ := h₂.step (l := Label.system (.enqueue 0 [orderUpdated])) (.enqueue rfl)
  have h₄ := h₃.step (l := Label.system (.drain 0 1)) (.passOn rfl rfl)
  have h₅ := h₄.step (l := Label.system (.acquire 0 1)) (.passOn rfl rfl)
  have h₆ := h₅.step (l := Label.system (.send 0 1)) (.send rfl rfl)
  have h₇ := h₆.step (l := Label.system (.forward 0)) (.forward rfl rfl rfl)
  have h₈ := h₇.step (l := Label.answer 0 (answerAt 0 "0/20") [1])
    (.answer rfl (acknowledges_one ..) ?_)
  · have hsettled := (h _ _ h₈).settled 0 0 orderCreated rfl ?_
    · revert hsettled
      decide
    · exact ⟨_, _, rfl, rfl, .inr (by decide)⟩
  · intro r hr
    cases hr
    rfl

end ParallelResults

end MeiliBridge
