import MeiliBridge.Pipeline.ParallelResults

/-!
# Work stealing and the tables

`balance_work` enqueues what it steals at another table's processor, and from there on nothing tells
the stolen events from that table's own: its workers run its own stages on them, and its results
move the checkpoint of its own task.

`OwnTable` is the law that every event meets only its own table's stages and its own task's
checkpoint. It holds in every run in which balancing steals no event; the invariant is that whatever
is in flight at a table was enqueued there.
-/

set_option autoImplicit false

namespace MeiliBridge

open Trans Parallel

namespace ParallelResults

/-- Every event went only through the stages of the table it was enqueued for, and its position
became a checkpoint of that table's task only. -/
structure State.OwnTable (s : State) : Prop where
  processed : ∀ n table, (n, table) ∈ s.processed → ∃ e, s.enqueued[n]? = some (table, e)
  recorded : ∀ n table, (n, table) ∈ s.recorded → ∃ e, s.enqueued[n]? = some (table, e)

/-- `balance_work` steals nothing. -/
def BalancesNothing (s : State) : Label → Prop
  | .system l => StealsNothing s.system l
  | .answer _ _ _ => True

/-! ## Where an event is in flight -/

/-- An event in flight at a table was enqueued there, and the balancer has nothing. -/
structure Placed (s : State) : Prop where
  numbered : s.enqueued.length = s.system.nextSeq
  own : ∀ t x, s.InFlight t x → s.enqueued[x.seq]? = some (t, x.source)
  emptyHanded : EmptyHanded s.system

variable {cfg : ParallelConfig} {s s' : State}

theorem mem_tag {n : Nat} {events : List Event} {x : Tagged} (h : x ∈ tag n events) :
    ∃ i, events[i]? = some x.source ∧ x.seq = n + i ∧ x.event = x.source := by
  simp only [tag, List.mem_map, Prod.exists] at h
  obtain ⟨e, k, hmem, rfl⟩ := h
  rw [List.mem_zipIdx_iff_le_and_getElem?_sub] at hmem
  exact ⟨k - n, hmem.2, by simp; omega, rfl⟩

theorem Placed.init (h : Starts cfg s) : Placed s where
  numbered := by simp [h.enqueued, h.system, System.start]
  own t x hx := by
    rcases hx with hx | ⟨batch, hbatch, -⟩
    · simp [h.system, System.start, Holds, Worker.held] at hx
    · rw [h.awaiting] at hbatch
      cases hbatch
  emptyHanded := by
    rw [h.system]
    intro small stolen hmoving
    cases hmoving

/-- The events in flight are the same or come from such, under the same numbers. -/
theorem Placed.keep (hi : Placed s) (henqueued : s'.enqueued = s.enqueued)
    (hnext : s'.system.nextSeq = s.system.nextSeq) (hempty : EmptyHanded s'.system)
    (hflight : ∀ t x, s'.InFlight t x →
      ∃ y, s.InFlight t y ∧ x.seq = y.seq ∧ x.source = y.source) : Placed s' where
  numbered := by
    rw [henqueued, hnext]
    exact hi.numbered
  own t x hx := by
    obtain ⟨y, hy, hseq, hsource⟩ := hflight t x hx
    rw [henqueued, hseq, hsource]
    exact hi.own t y hy
  emptyHanded := hempty

theorem Placed.enqueue (hi : Placed s) {table : Nat} {events : List Event} {system : System}
    (h : System.step cfg s.system (.enqueue table events) = some system) :
    Placed { s with system, enqueued := s.enqueued ++ events.map fun e => (table, e) } where
  numbered := by
    have hnext : system.nextSeq = s.system.nextSeq + events.length := by
      simp only [System.step, Option.some.injEq] at h
      rw [← h]
    rw [hnext, ← hi.numbered]
    simp
  own t x hx := by
    have hold : ∀ t x, s.InFlight t x →
        (s.enqueued ++ events.map fun e => (table, e))[x.seq]? = some (t, x.source) := by
      intro t x hx
      have hown := hi.own t x hx
      rw [List.getElem?_append_left (List.getElem?_eq_some_iff.mp hown).1]
      exact hown
    rcases hx with hx | hx
    · rcases (holds_enqueue h t x).mp hx with hx | ⟨rfl, htag⟩
      · exact hold t x (.inl hx)
      · obtain ⟨i, he, hseq, -⟩ := mem_tag htag
        rw [List.getElem?_append_right (by rw [hi.numbered, hseq]; exact Nat.le_add_right ..), hseq,
          hi.numbered, Nat.add_sub_cancel_left, List.getElem?_map, he]
        rfl
    · exact hold t x (.inr hx)
  emptyHanded := hi.emptyHanded.same (balance_step h ⟨nofun, nofun, nofun⟩)

/-- An event that waits for its answer, after a change of one table. -/
theorem awaiting_update {table t : Nat} {value : Option (List Tagged)} {batch : List Tagged} :
    Function.update s.awaiting table value t = some batch ↔
      t = table ∧ value = some batch ∨ t ≠ table ∧ s.awaiting t = some batch := by
  by_cases ht : t = table
  · subst ht
    simp
  · simp [ht]

theorem Placed.step {l : Label} (hi : Placed s) (hok : BalancesNothing s l)
    (hs : Step cfg s l s') : Placed s' := by
  cases hs with
  | enqueue h => exact hi.enqueue h
  | passOn hl h =>
    obtain ⟨hholds, hempty⟩ := holds_passOn hl hok hi.emptyHanded h
    refine hi.keep rfl (nextSeq_step h ?_) hempty ?_
    · rintro table events rfl
      cases hl
    · intro t x hx
      rcases hx with hx | hx
      · exact ⟨x, .inl ((hholds t x).mp hx), rfl, rfl⟩
      · exact ⟨x, .inr hx, rfl, rfl⟩
  -- what the stages made of an event carries its number and its source
  | @send table worker events system hworking h =>
    refine hi.keep rfl (nextSeq_step h nofun)
      (hi.emptyHanded.same (balance_step h ⟨nofun, nofun, nofun⟩)) ?_
    intro t x hx
    rcases hx with hx | hx
    · rcases holds_of_send hworking h hx with hold | ⟨rfl, y, hy, e, -, rfl⟩
      · exact ⟨x, .inl hold, rfl, rfl⟩
      · refine ⟨y, .inl (.inr (.inl ⟨worker, ?_⟩)), rfl, rfl⟩
        rw [hworking]
        exact hy
    · exact ⟨x, .inr hx, rfl, rfl⟩
  -- the batch that now waits for its answer was in the channel of results
  | @forward table batch rest system hresults hidle h =>
    refine hi.keep rfl (nextSeq_step h nofun)
      (hi.emptyHanded.same (balance_step h ⟨nofun, nofun, nofun⟩)) ?_
    intro t x hx
    refine ⟨x, ?_, rfl, rfl⟩
    rcases hx with hx | ⟨batch', hbatch', hx⟩
    · exact .inl ((holds_forward hresults h t x).mpr (.inl hx))
    · rcases awaiting_update.mp hbatch' with ⟨rfl, hnew⟩ | ⟨-, hold⟩
      · cases hnew
        exact .inl ((holds_forward hresults h t x).mpr (.inr ⟨rfl, hx⟩))
      · exact .inr ⟨batch', hold, hx⟩
  | @answer table batch answer acked hawaiting hacked hlast =>
    refine hi.keep rfl rfl hi.emptyHanded ?_
    intro t x hx
    refine ⟨x, ?_, rfl, rfl⟩
    rcases hx with hx | ⟨batch', hbatch', hx⟩
    · exact .inl hx
    · rcases awaiting_update.mp hbatch' with ⟨-, hnone⟩ | ⟨-, hold⟩
      · cases hnone
      · exact .inr ⟨batch', hold, hx⟩

theorem reachable_placed (h : ((machine cfg).restrict BalancesNothing).Reachable s) : Placed s := by
  refine h.invariant (I := Placed) (fun _ hs => .init hs) ?_
  intro s l s' hi hs
  exact hi.step hs.1 hs.2

/-! ## The law -/

theorem recordedOf_mem {batch : List Tagged} {n : Nat} (h : recordedOf batch = some n) :
    ∃ x ∈ batch, x.seq = n := by
  obtain ⟨x, hx, rfl⟩ := Option.map_eq_some_iff.mp h
  exact ⟨x, List.mem_of_mem_filter (List.mem_of_getLast? hx), rfl⟩

/-- The records of old events stay good when more are enqueued. -/
theorem State.OwnTable.grow (h : s.OwnTable) (hprocessed : s'.processed = s.processed)
    (hrecorded : s'.recorded = s.recorded)
    (henqueued : ∀ (n : Nat) (p : Nat × Event), s.enqueued[n]? = some p →
      s'.enqueued[n]? = some p) : s'.OwnTable where
  processed n table hmem := by
    rw [hprocessed] at hmem
    obtain ⟨e, he⟩ := h.processed n table hmem
    exact ⟨e, henqueued n _ he⟩
  recorded n table hmem := by
    rw [hrecorded] at hmem
    obtain ⟨e, he⟩ := h.recorded n table hmem
    exact ⟨e, henqueued n _ he⟩

theorem State.OwnTable.step {l : Label} (hi : s.OwnTable) (hplaced : Placed s)
    (hs : Step cfg s l s') : s'.OwnTable := by
  cases hs with
  | @enqueue table events system h =>
    refine hi.grow rfl rfl ?_
    intro n p hp
    show (s.enqueued ++ _)[n]? = some p
    rw [List.getElem?_append_left (List.getElem?_eq_some_iff.mp hp).1]
    exact hp
  | passOn hl h => exact hi.grow rfl rfl fun _ _ => id
  | @send table worker events system hworking h =>
    refine ⟨?_, hi.recorded⟩
    intro n t hmem
    rcases List.mem_append.mp hmem with hold | hnew
    · exact hi.processed n t hold
    · obtain ⟨m, hm, heq⟩ := List.mem_map.mp hnew
      cases heq
      obtain ⟨x, hx, rfl⟩ := processedSeqs_subset hm
      -- a worker's event is in flight at its table, where it was enqueued
      have hflight : s.InFlight table x := by
        refine .inl (.inr (.inl ⟨worker, ?_⟩))
        rw [hworking]
        exact hx
      exact ⟨x.source, hplaced.own table x hflight⟩
  | forward hresults hidle h => exact hi.grow rfl rfl fun _ _ => id
  | @answer table batch answer acked hawaiting hacked hlast =>
    refine ⟨hi.processed, ?_⟩
    intro n t hmem
    cases hposition : answerPosition answer with
    | none =>
      simp only [State.settle, hposition] at hmem
      exact hi.recorded n t hmem
    | some position =>
      simp only [State.settle, hposition] at hmem
      rcases List.mem_append.mp hmem with hold | hnew
      · exact hi.recorded n t hold
      · obtain ⟨m, hm, heq⟩ := List.mem_map.mp hnew
        cases heq
        obtain ⟨x, hx, rfl⟩ := recordedOf_mem (Option.mem_toList.mp hm)
        exact ⟨x.source, hplaced.own table x (.inr ⟨batch, hawaiting, hx⟩)⟩

/-- **Work stealing and the tables.** In every run in which balancing steals nothing, every event
meets its own table's stages and its own task's checkpoint only. -/
theorem events_own_table (cfg : ParallelConfig) (s : State)
    (h : ((machine cfg).restrict BalancesNothing).Reachable s) : s.OwnTable := by
  refine h.invariant_using (J := Placed) (I := State.OwnTable) (fun _ => reachable_placed) ?_ ?_
  · intro s hs
    constructor <;> simp [hs.processed, hs.recorded]
  · intro s l s' hplaced hi hs
    exact hi.step hplaced hs.2

/-! ### Two tables -/

/-- Two tables without stages, one worker each. -/
def twoTables : ParallelConfig where
  rt := ⟨id, id, ""⟩
  tables := 2
  stages _ := ⟨none, none, none, none⟩
  workersPerTable := 1
  maxConcurrentEvents := 1000
  workStealing := true

/-- A new order. -/
def orderCreated : Event :=
  .cdc ⟨.create, "orders", "public", [("id", .number (.ofNat 1))], some (.postgreSQL "0/10")⟩

/-- A new book. -/
def bookCreated : Event :=
  .cdc ⟨.create, "books", "public", [("id", .number (.ofNat 2))], some (.postgreSQL "0/20")⟩

/-- The answer to a batch that ends at a position. -/
def answerAt (failed : Nat) (lsn : String) : Answer :=
  .response ⟨0, failed, some (.postgreSQL lsn), []⟩

theorem acknowledges_one (failed : Nat) (lsn : String) (x : Tagged) :
    Acknowledges (answerAt failed lsn) [x] [x.seq] := by
  refine ⟨?_, fun _ y hy => ?_⟩
  · intro n hn
    exact ⟨x, List.mem_cons_self, (List.mem_singleton.mp hn).symm⟩
  · rcases List.mem_singleton.mp hy with rfl
    exact List.mem_cons_self

/-- One event of each table waits when `balance_work` comes round, and both stay where they are. -/
theorem events_own_table_two :
    ∃ s : State, s.processed = [(1, 1), (0, 0)] ∧ s.recorded = [(1, 1)] ∧ s.OwnTable := by
  have h₀ : ((machine twoTables).restrict BalancesNothing).Reachable (start twoTables) :=
    .init (start_starts _)
  have h₁ := h₀.step (l := Label.system (.enqueue 0 [orderCreated])) ⟨trivial, .enqueue rfl⟩
  have h₂ := h₁.step (l := Label.system (.enqueue 1 [bookCreated])) ⟨trivial, .enqueue rfl⟩
  have h₃ := h₂.step (l := Label.system .survey) ⟨trivial, .passOn rfl rfl⟩
  have h₄ := h₃.step (l := Label.system .survey) ⟨trivial, .passOn rfl rfl⟩
  have h₅ := h₄.step (l := Label.system .steal)
    ⟨stealsNothing_of_plan rfl (by decide), .passOn rfl rfl⟩
  have h₆ := h₅.step (l := Label.system (.drain 1 0)) ⟨trivial, .passOn rfl rfl⟩
  have h₇ := h₆.step (l := Label.system (.acquire 1 0)) ⟨trivial, .passOn rfl rfl⟩
  have h₈ := h₇.step (l := Label.system (.send 1 0)) ⟨trivial, .send rfl rfl⟩
  have h₉ := h₈.step (l := Label.system (.forward 1)) ⟨trivial, .forward rfl rfl rfl⟩
  have h₁₀ := h₉.step (l := Label.answer 1 (answerAt 0 "0/20") [1])
    ⟨trivial, .answer rfl (acknowledges_one ..) ?_⟩
  · have h₁₁ := h₁₀.step (l := Label.system (.drain 0 0)) ⟨trivial, .passOn rfl rfl⟩
    have h₁₂ := h₁₁.step (l := Label.system (.acquire 0 0)) ⟨trivial, .passOn rfl rfl⟩
    have h₁₃ := h₁₂.step (l := Label.system (.send 0 0)) ⟨trivial, .send rfl rfl⟩
    exact ⟨_, rfl, rfl, events_own_table _ _ h₁₃⟩
  · intro r hr
    cases hr
    rfl

/-- A hundred and one events of table 1 wait, and table 0 gets fifty of them. -/
theorem events_not_always_own_table :
    ¬ ∀ (cfg : ParallelConfig) (s : State), (machine cfg).Reachable s → s.OwnTable := by
  intro h
  have h₀ : (machine twoTables).Reachable (start twoTables) := .init (start_starts _)
  have h₁ := h₀.step (l := Label.system (.enqueue 1 (.replicate 101 orderCreated))) (.enqueue rfl)
  have h₂ := h₁.step (l := Label.system .survey) (.passOn rfl rfl)
  have h₃ := h₂.step (l := Label.system .survey) (.passOn rfl rfl)
  have h₄ := h₃.step (l := Label.system .steal) (.passOn rfl rfl)
  have h₅ := h₄.step (l := Label.system .settle) (.passOn rfl rfl)
  have h₆ := h₅.step (l := Label.system (.drain 0 0)) (.passOn rfl rfl)
  have h₇ := h₆.step (l := Label.system (.acquire 0 0)) (.passOn rfl rfl)
  have h₈ := h₇.step (l := Label.system (.send 0 0)) (.send rfl rfl)
  obtain ⟨e, he⟩ := (h _ _ h₈).processed 100 0 (by decide)
  cases he

end ParallelResults

end MeiliBridge
