import Mathlib.Logic.Relation
import MeiliBridge.Pipeline.ParallelMoves

/-!
# Workers and permits

A worker drains up to ten events and then calls `acquire_many` for one permit each, out of the
`max_concurrent_events` of its table. The semaphore serves the calls in their order, so that a call
waits for the ones before it.

A worker that holds permits always gets to release them. So a worker is `Wedged` only if it, or one
before it, has drained more events than there are permits, and with fewer than ten permits that
happens as soon as the queue is long enough.
-/

set_option autoImplicit false

namespace MeiliBridge

open Trans Parallel Relation

namespace WorkerPermits

structure State where
  system : System
  /-- each table's workers that have called `acquire_many`, in the order of their calls -/
  waiters : Nat → List Nat

inductive Label where
  /-- A worker that has drained its events calls `acquire_many`. -/
  | request (table worker : Nat)
  | system (l : Parallel.Label)

/-- What worker `worker` of a table does. -/
def State.worker (s : State) (table worker : Nat) : Worker :=
  (s.system.processors table).workers worker

inductive Step (cfg : ParallelConfig) : State → Label → State → Prop
  | request {s : State} {table worker : Nat} {events : List Tagged}
      (hwaiting : s.worker table worker = .waiting events) (hnew : worker ∉ s.waiters table) :
      Step cfg s (.request table worker)
        { s with waiters := Function.update s.waiters table (s.waiters table ++ [worker]) }
  /-- The first of those that wait gets its permits. -/
  | acquire {s : State} {table worker : Nat} {rest : List Nat} {system : System}
      (hfirst : s.waiters table = worker :: rest)
      (h : System.step cfg s.system (.acquire table worker) = some system) :
      Step cfg s (.system (.acquire table worker))
        ⟨system, Function.update s.waiters table rest⟩
  | other {s : State} {l : Parallel.Label} {system : System}
      (hl : ∀ table worker, l ≠ .acquire table worker)
      (h : System.step cfg s.system l = some system) : Step cfg s (.system l) { s with system }

def start (cfg : ParallelConfig) : State := ⟨.start cfg, fun _ => []⟩

/-- The workers and the semaphores of all tables, under every interleaving. -/
def machine (cfg : ParallelConfig) : Machine State Label where
  init s := s = start cfg
  step := Step cfg

/-- Some step leads from `s` to `s'`. -/
def Goes (cfg : ParallelConfig) (s s' : State) : Prop := ∃ l, Step cfg s l s'

/-- The worker holds drained events and waits for permits that no continuation ever grants. -/
def Wedged (cfg : ParallelConfig) (s : State) (table worker : Nat) : Prop :=
  (∃ events, s.worker table worker = .waiting events) ∧
    ∀ s' s'', ReflTransGen (Goes cfg) s s' → ¬ Step cfg s' (.system (.acquire table worker)) s''

/-- No tick drains more events than there are permits. -/
def DrainFits (cfg : ParallelConfig) (s : State) : Label → Prop
  | .system (.drain table _) =>
    (s.system.processors table).drained.length ≤ cfg.maxConcurrentEvents
  | _ => True

variable {cfg : ParallelConfig} {s s' : State} {system system' : System}
  {table worker t v : Nat} {events : List Tagged} {p : Processor} {w : Worker}

/-! ## What a step does to the workers -/

/-- One worker of one table now does `w`, and its semaphore has `permits` left. -/
structure Turned (system system' : System) (table worker : Nat) (w : Worker) (permits : Nat) :
    Prop where
  becomes : (system'.processors table).workers worker = w
  permits : (system'.processors table).permits = permits
  others : ∀ t v, (t = table → v ≠ worker) →
    (system'.processors t).workers v = (system.processors t).workers v
  frame : ∀ t, t ≠ table → (system'.processors t).permits = (system.processors t).permits

/-- The steps in which a worker goes on. -/
def turns : Parallel.Label → Bool
  | .drain _ _ | .acquire _ _ | .send _ _ => true
  | .enqueue _ _ | .forward _ | .survey | .steal | .settle => false

inductive Turn (cfg : ParallelConfig) (system system' : System) : Parallel.Label → Prop
  | drain {table worker : Nat} (hidle : (system.processors table).workers worker = .idle)
      (hworker : worker < cfg.workersPerTable)
      (h : Turned system system' table worker (.waiting (system.processors table).drained)
        (system.processors table).permits) : Turn cfg system system' (.drain table worker)
  | acquire {table worker : Nat} {events : List Tagged}
      (hwaiting : (system.processors table).workers worker = .waiting events)
      (hpermits : events.length ≤ (system.processors table).permits)
      (h : Turned system system' table worker (.working events)
        ((system.processors table).permits - events.length)) :
      Turn cfg system system' (.acquire table worker)
  /-- after a panic the worker is dead, and its permits are free as well -/
  | send {table worker : Nat} {events : List Tagged} {w : Worker}
      (hworking : (system.processors table).workers worker = .working events)
      (hw : w = .idle ∨ w = .dead)
      (h : Turned system system' table worker w
        ((system.processors table).permits + events.length)) :
      Turn cfg system system' (.send table worker)
  | rest {l : Parallel.Label} (hl : turns l = false)
      (h : ∀ t, (system'.processors t).workers = (system.processors t).workers ∧
        (system'.processors t).permits = (system.processors t).permits) : Turn cfg system system' l

theorem turned_setWorker (h : p.workers = (system.processors table).workers) :
    Turned system (system.setProcessor table (System.setWorker p worker w)) table worker w
      p.permits where
  becomes := by
    rw [System.processors_setProcessor_self]
    exact Function.update_self ..
  permits := by
    rw [System.processors_setProcessor_self]
    rfl
  others t v hother := by
    by_cases ht : t = table
    · subst ht
      rw [System.processors_setProcessor_self, ← h]
      exact Function.update_of_ne (hother rfl) ..
    · rw [System.processors_setProcessor_of_ne ht]
  frame t ht := by
    rw [System.processors_setProcessor_of_ne ht]

/-- A step that changes neither the workers nor the permits of a processor. -/
theorem same_setProcessor (system : System) (table : Nat) (p : Processor)
    (hworkers : p.workers = (system.processors table).workers)
    (hpermits : p.permits = (system.processors table).permits) (t : Nat) :
    ((system.setProcessor table p).processors t).workers = (system.processors t).workers ∧
      ((system.setProcessor table p).processors t).permits = (system.processors t).permits := by
  by_cases ht : t = table
  · subst ht
    rw [System.processors_setProcessor_self]
    exact ⟨hworkers, hpermits⟩
  · rw [System.processors_setProcessor_of_ne ht]
    exact ⟨rfl, rfl⟩

theorem turn_of_step {l : Parallel.Label} (h : System.step cfg system l = some system') :
    Turn cfg system system' l := by
  cases moves_of_step h with
  | drain hidle hworker hqueue => exact .drain hidle hworker (turned_setWorker rfl)
  | acquire hwaiting hpermits => exact .acquire hwaiting hpermits (turned_setWorker rfl)
  | send hworking hprocessed hresults => exact .send hworking (.inl rfl) (turned_setWorker rfl)
  | panic hworking hprocessed => exact .send hworking (.inr rfl) (turned_setWorker rfl)
  | enqueue table events =>
    exact .rest rfl
      (same_setProcessor system table ((system.processors table).enqueueEvents _) rfl rfl)
  | @steal sizes small large count hsurveying hplan =>
    exact .rest rfl
      (same_setProcessor system large ((system.processors large).afterSteal count) rfl rfl)
  | @settle small stolen hmoving =>
    exact .rest rfl
      (same_setProcessor system small ((system.processors small).enqueueEvents stolen) rfl rfl)
  | @forward table batch rest hresults =>
    exact .rest rfl
      (same_setProcessor system table { system.processors table with results := rest } rfl rfl)
  | surveyFirst | surveyNext | leave => exact .rest rfl fun t => ⟨rfl, rfl⟩

/-- Another worker, if it does something else. -/
theorem other_worker (hw : (system.processors table).workers worker = w)
    (hv : (system.processors t).workers v ≠ w) : t = table → v ≠ worker := by
  intro ht hworker
  rw [ht, hworker] at hv
  exact hv hw

/-- A worker that waits goes on waiting until it gets its permits. -/
theorem Turn.waiting {l : Parallel.Label} (h : Turn cfg system system' l) (hl : l ≠ .acquire t v)
    (hwaiting : (system.processors t).workers v = .waiting events) :
    (system'.processors t).workers v = .waiting events := by
  cases h with
  | drain hidle hworker h =>
    have hne : (system.processors t).workers v ≠ .idle := by simp [hwaiting]
    rw [h.others t v (other_worker hidle hne), hwaiting]
  | @acquire table worker events' hothers hpermits h =>
    have hother : t = table → v ≠ worker := by
      intro ht hworker
      rw [ht, hworker] at hl
      exact hl rfl
    rw [h.others t v hother, hwaiting]
  | @send table worker events' w hworking hw h =>
    have hne : (system.processors t).workers v ≠ .working events' := by simp [hwaiting]
    rw [h.others t v (other_worker hworking hne), hwaiting]
  | rest hl h => rw [(h t).1, hwaiting]

/-- A worker that waits did so before, or has just drained the queue. -/
theorem Turn.waiting_from {l : Parallel.Label} (h : Turn cfg system system' l)
    (hwaiting : (system'.processors t).workers v = .waiting events) :
    (system.processors t).workers v = .waiting events ∨
      l = .drain t v ∧ events = (system.processors t).drained := by
  cases h with
  | @drain table worker hidle hworker h =>
    by_cases hsame : t = table ∧ v = worker
    · obtain ⟨rfl, rfl⟩ := hsame
      rw [h.becomes] at hwaiting
      cases hwaiting
      exact .inr ⟨rfl, rfl⟩
    · rw [h.others t v (not_and.mp hsame)] at hwaiting
      exact .inl hwaiting
  | @acquire table worker events' hothers hpermits h =>
    by_cases hsame : t = table ∧ v = worker
    · obtain ⟨rfl, rfl⟩ := hsame
      rw [h.becomes] at hwaiting
      cases hwaiting
    · rw [h.others t v (not_and.mp hsame)] at hwaiting
      exact .inl hwaiting
  | @send table worker events' w hworking hw h =>
    by_cases hsame : t = table ∧ v = worker
    · obtain ⟨rfl, rfl⟩ := hsame
      rw [h.becomes] at hwaiting
      rcases hw with rfl | rfl
      · cases hwaiting
      · cases hwaiting
    · rw [h.others t v (not_and.mp hsame)] at hwaiting
      exact .inl hwaiting
  | rest hl h =>
    rw [(h t).1] at hwaiting
    exact .inl hwaiting

/-! ## Permits are lent, not lost -/

/-- How many permits a worker holds. -/
def inUse : Worker → Nat
  | .working events => events.length
  | .idle | .waiting _ | .dead => 0

/-- How many permits the workers of a processor hold. -/
def lent (cfg : ParallelConfig) (p : Processor) : Nat :=
  ∑ worker ∈ Finset.range cfg.workersPerTable, inUse (p.workers worker)

/-- A permit is with the semaphore or with a worker, and each call that waits is a worker's that has
drained its events. -/
structure Accounted (cfg : ParallelConfig) (s : State) : Prop where
  permits : ∀ table, (s.system.processors table).permits + lent cfg (s.system.processors table) =
    cfg.maxConcurrentEvents
  spare : ∀ table worker, cfg.workersPerTable ≤ worker → s.worker table worker = .idle
  waiters : ∀ table, ∀ worker ∈ s.waiters table, ∃ events, s.worker table worker = .waiting events
  nodup : ∀ table, (s.waiters table).Nodup

theorem lt_of_ne_idle (h : Accounted cfg s) (hne : s.worker table worker ≠ .idle) :
    worker < cfg.workersPerTable := by
  rcases Nat.lt_or_ge worker cfg.workersPerTable with hlt | hge
  · exact hlt
  · exact absurd (h.spare table worker hge) hne

theorem lent_turned {permits : Nat} (h : Turned system system' table worker w permits)
    (hworker : worker < cfg.workersPerTable) :
    lent cfg (system'.processors table) + inUse ((system.processors table).workers worker) =
      lent cfg (system.processors table) + inUse w := by
  have hworkers : (system'.processors table).workers =
      Function.update (system.processors table).workers worker w := by
    funext v
    by_cases hv : v = worker
    · rw [hv, h.becomes, Function.update_self]
    · rw [h.others table v fun _ => hv, Function.update_of_ne hv]
  rw [lent, hworkers]
  exact sum_update_add (Finset.mem_range.mpr hworker) _ w inUse

/-- The permits of a table after a turn of one of its workers. -/
theorem Turned.accounted {permits : Nat} (h : Turned system system' table worker w permits)
    (hworker : worker < cfg.workersPerTable)
    (hold : ∀ t, (system.processors t).permits + lent cfg (system.processors t) =
      cfg.maxConcurrentEvents)
    (hpermits : permits + inUse w =
      (system.processors table).permits + inUse ((system.processors table).workers worker))
    (t : Nat) :
    (system'.processors t).permits + lent cfg (system'.processors t) = cfg.maxConcurrentEvents := by
  by_cases ht : t = table
  · subst ht
    have hlent := lent_turned h hworker
    rw [← hold t, h.permits]
    omega
  · have hworkers : (system'.processors t).workers = (system.processors t).workers := by
      funext v
      exact h.others t v fun heq => absurd heq ht
    rw [← hold t, h.frame t ht, lent, hworkers, lent]

theorem Turned.spare {permits : Nat} (h : Turned system system' table worker w permits)
    (hworker : worker < cfg.workersPerTable)
    (hold : ∀ t v, cfg.workersPerTable ≤ v → (system.processors t).workers v = .idle) (t v : Nat)
    (hv : cfg.workersPerTable ≤ v) : (system'.processors t).workers v = .idle := by
  have hne : v ≠ worker := Nat.ne_of_gt (Nat.lt_of_lt_of_le hworker hv)
  rw [h.others t v fun _ => hne]
  exact hold t v hv

/-- What a step of the system keeps of the permits. -/
theorem Turn.accounted {l : Parallel.Label} (h : Turn cfg s.system system' l)
    (hi : Accounted cfg s) :
    (∀ t, (system'.processors t).permits + lent cfg (system'.processors t) =
        cfg.maxConcurrentEvents) ∧
      ∀ t v, cfg.workersPerTable ≤ v → (system'.processors t).workers v = .idle := by
  cases h with
  | drain hidle hworker h =>
    refine ⟨h.accounted hworker hi.permits ?_, h.spare hworker hi.spare⟩
    rw [hidle]
    rfl
  | acquire hwaiting hpermits h =>
    have hworker := lt_of_ne_idle hi (hwaiting.trans_ne (by simp))
    refine ⟨h.accounted hworker hi.permits ?_, h.spare hworker hi.spare⟩
    rw [hwaiting]
    exact Nat.sub_add_cancel hpermits
  | @send table worker events w hworking hw h =>
    have hworker := lt_of_ne_idle hi (hworking.trans_ne (by simp))
    refine ⟨h.accounted hworker hi.permits ?_, h.spare hworker hi.spare⟩
    rw [hworking]
    rcases hw with rfl | rfl
    · rfl
    · rfl
  | rest hl h =>
    refine ⟨fun t => ?_, fun t v hv => ?_⟩
    · rw [lent, (h t).1, (h t).2]
      exact hi.permits t
    · rw [(h t).1]
      exact hi.spare t v hv

theorem accounted_start (cfg : ParallelConfig) : Accounted cfg (start cfg) where
  permits table := by
    show cfg.maxConcurrentEvents + ∑ worker ∈ Finset.range cfg.workersPerTable, 0 = _
    rw [Finset.sum_const_zero, add_zero]
  spare _ _ _ := rfl
  waiters table worker hmem := by cases hmem
  nodup _ := .nil

theorem Accounted.step {l : Label} (hi : Accounted cfg s) (h : Step cfg s l s') :
    Accounted cfg s' := by
  cases h with
  | @request table worker events hwaiting hnew =>
    refine ⟨hi.permits, hi.spare, ?_, ?_⟩
    · refine (Function.forall_update_iff s.waiters fun t l =>
        ∀ v ∈ l, ∃ events, s.worker t v = .waiting events).mpr
        ⟨fun v hv => ?_, fun t _ => hi.waiters t⟩
      rcases List.mem_append.mp hv with hold | hlast
      · exact hi.waiters table v hold
      · rw [List.mem_singleton.mp hlast]
        exact ⟨events, hwaiting⟩
    · refine (Function.forall_update_iff s.waiters fun _ l => l.Nodup).mpr
        ⟨?_, fun t _ => hi.nodup t⟩
      rw [← List.concat_eq_append]
      exact (hi.nodup table).concat hnew
  | @acquire table worker rest system hfirst h =>
    have hturn := turn_of_step h
    have hnodup := hi.nodup table
    rw [hfirst, List.nodup_cons] at hnodup
    have hstill : ∀ t, ∀ v ∈ s.waiters t, (t = table → v ≠ worker) →
        ∃ events, (system.processors t).workers v = .waiting events := by
      intro t v hv hother
      obtain ⟨events, hevents⟩ := hi.waiters t v hv
      refine ⟨events, hturn.waiting ?_ hevents⟩
      intro heq
      cases heq
      exact hother rfl rfl
    obtain ⟨hpermits, hspare⟩ := hturn.accounted hi
    refine ⟨hpermits, hspare, ?_, ?_⟩
    -- the one that leaves the queue is not among those that stay
    · refine (Function.forall_update_iff s.waiters fun t l =>
        ∀ v ∈ l, ∃ events, (system.processors t).workers v = .waiting events).mpr
        ⟨fun v hv => ?_, fun t ht v hv => ?_⟩
      · have hmem : v ∈ s.waiters table := hfirst ▸ List.mem_cons_of_mem _ hv
        exact hstill table v hmem fun _ heq => hnodup.1 (heq ▸ hv)
      · exact hstill t v hv fun heq => absurd heq ht
    · exact (Function.forall_update_iff s.waiters fun _ l => l.Nodup).mpr
        ⟨hnodup.2, fun t _ => hi.nodup t⟩
  | @other l system hl h =>
    have hturn := turn_of_step h
    obtain ⟨hpermits, hspare⟩ := hturn.accounted hi
    refine ⟨hpermits, hspare, fun t v hv => ?_, hi.nodup⟩
    obtain ⟨events, hevents⟩ := hi.waiters t v hv
    exact ⟨events, hturn.waiting (hl t v) hevents⟩

theorem reachable_accounted (h : (machine cfg).Reachable s) : Accounted cfg s := by
  refine h.invariant (I := Accounted cfg) ?_ fun s l s' hi hs => hi.step hs
  intro s hs
  rw [hs]
  exact accounted_start cfg

theorem Accounted.goes (h : ReflTransGen (Goes cfg) s s') (hi : Accounted cfg s) :
    Accounted cfg s' := by
  induction h with
  | refl => exact hi
  | tail _ hgoes ih =>
    obtain ⟨l, hs⟩ := hgoes
    exact ih.step hs

/-! ## A call for too many permits -/

theorem not_acquired (hi : Accounted cfg s) (hwaiting : s.worker table worker = .waiting events)
    (hlarge : cfg.maxConcurrentEvents < events.length) :
    System.step cfg s.system (.acquire table worker) ≠ some system := by
  intro h
  cases turn_of_step h with
  | @acquire table worker events' hwaiting' hpermits h =>
    obtain rfl : events = events' := by
      rw [State.worker, hwaiting'] at hwaiting
      cases hwaiting
      rfl
    have htotal := hi.permits table
    omega
  | rest hl h => cases hl

/-- The worker waits for ever. -/
theorem wedged_of_large (hi : Accounted cfg s) (hwaiting : s.worker table worker = .waiting events)
    (hlarge : cfg.maxConcurrentEvents < events.length) : Wedged cfg s table worker := by
  refine ⟨⟨events, hwaiting⟩, fun s' s'' hrun hs => ?_⟩
  have hstill : s'.worker table worker = .waiting events := by
    clear hs
    induction hrun with
    | refl => exact hwaiting
    | @tail s₁ s₂ hrun hgoes ih =>
      obtain ⟨l, hs⟩ := hgoes
      cases hs with
      | request => exact ih
      | @acquire t v rest system hfirst h =>
        refine (turn_of_step h).waiting ?_ ih
        intro heq
        cases heq
        exact not_acquired (hi.goes hrun) ih hlarge h
      | @other l system hl h => exact (turn_of_step h).waiting (hl table worker) ih
  cases hs with
  | acquire hfirst h => exact not_acquired (hi.goes hrun) hstill hlarge h
  | other hl h => exact hl table worker rfl

/-! ## Permits come back -/

/-- A run after which the same workers of the table wait and none of them holds more permits. -/
structure Freed (cfg : ParallelConfig) (table : Nat) (s s' : State) : Prop where
  run : ReflTransGen (Goes cfg) s s'
  waiters : s'.waiters = s.waiters
  waiting : ∀ v events, s'.worker table v = .waiting events ↔ s.worker table v = .waiting events
  free : ∀ v, inUse (s.worker table v) = 0 → inUse (s'.worker table v) = 0

theorem Freed.refl : Freed cfg table s s := ⟨.refl, rfl, fun _ _ => .rfl, fun _ => id⟩

theorem Freed.trans {s'' : State} (h : Freed cfg table s s') (h' : Freed cfg table s' s'') :
    Freed cfg table s s'' where
  run := h.run.trans h'.run
  waiters := h'.waiters.trans h.waiters
  waiting v events := (h'.waiting v events).trans (h.waiting v events)
  free v hv := h'.free v (h.free v hv)

theorem forward_enabled (cfg : ParallelConfig) {batch : List Tagged} {rest : List (List Tagged)}
    (hresults : (system.processors table).results = batch :: rest) :
    ∃ system', System.step cfg system (.forward table) = some system' ∧
      (system'.processors table).results = rest := by
  simp only [System.step, hresults]
  refine ⟨_, rfl, ?_⟩
  show ((system.setProcessor table _).processors table).results = rest
  rw [System.processors_setProcessor_self]

/-- `process_parallel_results` can empty the channel of results. -/
theorem exists_emptied (cfg : ParallelConfig) (table : Nat) {results : List (List Tagged)} :
    ∀ {s : State}, (s.system.processors table).results = results →
      ∃ s', Freed cfg table s s' ∧ (s'.system.processors table).results = [] ∧
        (s'.system.processors table).workers = (s.system.processors table).workers := by
  induction results with
  | nil =>
    intro s hresults
    exact ⟨s, .refl, hresults, rfl⟩
  | cons batch rest ih =>
    intro s hresults
    obtain ⟨system, h, hrest⟩ := forward_enabled cfg hresults
    have hworkers : (system.processors table).workers = (s.system.processors table).workers := by
      cases turn_of_step h with
      | rest hl h => exact (h table).1
    have hfirst : Freed cfg table s { s with system } := by
      refine ⟨.single ⟨_, .other (by simp) h⟩, rfl, fun v events => ?_, fun v hv => ?_⟩
      · rw [State.worker, hworkers, State.worker]
      · rw [State.worker, hworkers]
        exact hv
    obtain ⟨s', hfreed, hempty, hsame⟩ := ih (s := { s with system }) hrest
    exact ⟨s', hfirst.trans hfreed, hempty, hsame.trans hworkers⟩

theorem send_enabled (cfg : ParallelConfig)
    (hworking : (system.processors table).workers worker = .working events)
    (hresults : (system.processors table).results = []) :
    ∃ system', System.step cfg system (.send table worker) = some system' := by
  simp only [System.step, hworking]
  cases hprocessed : processBatch cfg.rt (cfg.stages table) events with
  | none => exact ⟨_, rfl⟩
  | some processed =>
    cases processed with
    | nil => exact ⟨_, rfl⟩
    | cons x rest =>
      simp only [hresults, List.length_nil, Nat.zero_lt_succ, if_true]
      exact ⟨_, rfl⟩

/-- A worker that holds permits can get to release them. -/
theorem exists_released (hworking : s.worker table worker = .working events) :
    ∃ s', Freed cfg table s s' ∧ inUse (s'.worker table worker) = 0 := by
  obtain ⟨s₁, hfreed, hempty, hworkers⟩ := exists_emptied cfg table (s := s) rfl
  have hworking₁ : s₁.worker table worker = .working events := by
    rw [State.worker, hworkers]
    exact hworking
  obtain ⟨system, h⟩ := send_enabled cfg hworking₁ hempty
  cases turn_of_step h with
  | @send _ _ events' w hworking' hw hturned =>
    have hreleased : inUse w = 0 := by
      rcases hw with rfl | rfl
      · rfl
      · rfl
    have hnext : Freed cfg table s₁ { s₁ with system } := by
      refine ⟨.single ⟨_, .other (by simp) h⟩, rfl, fun v events => ⟨fun hv => ?_, fun hv => ?_⟩,
        fun v hv => ?_⟩
      · rcases (turn_of_step h).waiting_from hv with hv | ⟨heq, -⟩
        · exact hv
        · cases heq
      · exact (turn_of_step h).waiting (by simp) hv
      · by_cases heq : v = worker
        · show inUse ((system.processors table).workers v) = 0
          rw [heq, hturned.becomes, hreleased]
        · show inUse ((system.processors table).workers v) = 0
          rw [hturned.others table v fun _ => heq]
          exact hv
    refine ⟨_, hfreed.trans hnext, ?_⟩
    show inUse ((system.processors table).workers worker) = 0
    rw [hturned.becomes, hreleased]
  | rest hl h => cases hl

/-- So can the first `n` of them. -/
theorem exists_all_released (cfg : ParallelConfig) (s : State) (table n : Nat) :
    ∃ s', Freed cfg table s s' ∧ ∀ v < n, inUse (s'.worker table v) = 0 := by
  induction n with
  | zero => exact ⟨s, .refl, fun v hv => absurd hv (Nat.not_lt_zero v)⟩
  | succ n ih =>
    obtain ⟨s₁, hfreed, hfree⟩ := ih
    have hnext : ∃ s₂, Freed cfg table s₁ s₂ ∧ inUse (s₂.worker table n) = 0 := by
      cases hw : s₁.worker table n with
      | working events => exact exists_released hw
      | idle | waiting _ | dead => exact ⟨s₁, .refl, by rw [hw]; rfl⟩
    obtain ⟨s₂, hfreed₂, hn⟩ := hnext
    refine ⟨s₂, hfreed.trans hfreed₂, fun v hv => ?_⟩
    rcases Nat.lt_succ_iff_lt_or_eq.mp hv with hlt | rfl
    · exact hfreed₂.free v (hfree v hlt)
    · exact hn

/-! ## Calls that fit are served -/

/-- No worker of the table waits for more permits than there are. -/
def Fits (cfg : ParallelConfig) (s : State) (table : Nat) : Prop :=
  ∀ worker events, s.worker table worker = .waiting events →
    events.length ≤ cfg.maxConcurrentEvents

theorem acquire_enabled (cfg : ParallelConfig)
    (hwaiting : (system.processors table).workers worker = .waiting events)
    (hpermits : events.length ≤ (system.processors table).permits) :
    ∃ system', System.step cfg system (.acquire table worker) = some system' := by
  simp only [System.step, hwaiting, hpermits, if_true]
  exact ⟨_, rfl⟩

/-- The first call gets its permits once all others are back. -/
theorem first_granted (hi : Accounted cfg s) (hfits : Fits cfg s table) {rest : List Nat}
    (hfirst : s.waiters table = worker :: rest) :
    ∃ s' s'', ReflTransGen (Goes cfg) s s' ∧ Step cfg s' (.system (.acquire table worker)) s'' ∧
      Accounted cfg s'' ∧ Fits cfg s'' table ∧ s''.waiters table = rest := by
  obtain ⟨s₁, hfreed, hfree⟩ := exists_all_released cfg s table cfg.workersPerTable
  have hi₁ := hi.goes hfreed.run
  have hpermits : (s₁.system.processors table).permits = cfg.maxConcurrentEvents := by
    have hlent : lent cfg (s₁.system.processors table) = 0 :=
      Finset.sum_eq_zero fun v hv => hfree v (Finset.mem_range.mp hv)
    have htotal := hi₁.permits table
    rwa [hlent, Nat.add_zero] at htotal
  have hfirst₁ : s₁.waiters table = worker :: rest := by rw [hfreed.waiters, hfirst]
  have hfits₁ : Fits cfg s₁ table := fun v events hv =>
    hfits v events ((hfreed.waiting v events).mp hv)
  obtain ⟨events, hwaiting⟩ := hi₁.waiters table worker (hfirst₁ ▸ List.mem_cons_self)
  obtain ⟨system, h⟩ :=
    acquire_enabled cfg hwaiting (hpermits ▸ hfits₁ worker events hwaiting)
  have hs : Step cfg s₁ (.system (.acquire table worker))
      ⟨system, Function.update s₁.waiters table rest⟩ := .acquire hfirst₁ h
  refine ⟨s₁, _, hfreed.run, hs, hi₁.step hs, fun v events hv => ?_, Function.update_self ..⟩
  rcases (turn_of_step h).waiting_from hv with hv | ⟨heq, -⟩
  · exact hfits₁ v events hv
  · cases heq

/-- And so does every other, when those before it have got theirs. -/
theorem granted {before after : List Nat} :
    ∀ {s : State}, Accounted cfg s → Fits cfg s table →
      s.waiters table = before ++ worker :: after →
      ∃ s' s'', ReflTransGen (Goes cfg) s s' ∧
        Step cfg s' (.system (.acquire table worker)) s'' := by
  induction before with
  | nil =>
    intro s hi hfits hwaiters
    obtain ⟨s', s'', hrun, hs, -⟩ := first_granted hi hfits hwaiters
    exact ⟨s', s'', hrun, hs⟩
  | cons first before ih =>
    intro s hi hfits hwaiters
    obtain ⟨s₁, s₂, hrun, hs, hi₂, hfits₂, hwaiters₂⟩ := first_granted hi hfits hwaiters
    obtain ⟨s', s'', hrun₂, hs₂⟩ := ih hi₂ hfits₂ hwaiters₂
    exact ⟨s', s'', hrun.trans (.head ⟨_, hs⟩ hrun₂), hs₂⟩

theorem not_wedged (hi : Accounted cfg s) (hfits : Fits cfg s table) :
    ¬ Wedged cfg s table worker := by
  intro h
  obtain ⟨⟨events, hwaiting⟩, hnever⟩ := h
  by_cases hmem : worker ∈ s.waiters table
  · obtain ⟨before, after, hwaiters⟩ := List.append_of_mem hmem
    obtain ⟨s', s'', hrun, hs⟩ := granted hi hfits hwaiters
    exact hnever s' s'' hrun hs
  -- it has yet to call
  · have hcall : Step cfg s (.request table worker) _ := .request hwaiting hmem
    have hwaiters : Function.update s.waiters table (s.waiters table ++ [worker]) table =
        s.waiters table ++ [worker] := Function.update_self ..
    obtain ⟨s', s'', hrun, hs⟩ := granted (hi.step hcall) hfits hwaiters
    exact hnever s' s'' (.head ⟨_, hcall⟩ hrun) hs

/-! ## When workers wedge -/

theorem Fits.step {l : Label} (hi : ∀ table, Fits cfg s table) (hok : DrainFits cfg s l)
    (h : Step cfg s l s') (table : Nat) : Fits cfg s' table := by
  intro v events hv
  cases h with
  | request => exact hi table v events hv
  | acquire hfirst h =>
    rcases (turn_of_step h).waiting_from hv with hold | ⟨heq, -⟩
    · exact hi table v events hold
    · cases heq
  | other hl h =>
    rcases (turn_of_step h).waiting_from hv with hold | ⟨rfl, rfl⟩
    · exact hi table v events hold
    · exact hok

theorem reachable_fits (h : ((machine cfg).restrict (DrainFits cfg)).Reachable s) (table : Nat) :
    Fits cfg s table := by
  have hall : ∀ table, Fits cfg s table := by
    refine h.invariant (I := fun s => ∀ table, Fits cfg s table) ?_ ?_
    · intro s hs table v events hv
      rw [hs] at hv
      cases hv
    · exact fun s l s' hi hs => Fits.step hi hs.1 hs.2
  exact hall table

/-- A tick that drains too many events wedges its worker. -/
theorem wedged_of_drain (hi : Accounted cfg s)
    (h : Step cfg s (.system (.drain table worker)) s')
    (hlarge : cfg.maxConcurrentEvents < (s.system.processors table).drained.length) :
    Wedged cfg s' table worker := by
  have hi' := hi.step h
  cases h with
  | other hl h =>
    cases turn_of_step h with
    | drain hidle hworker h => exact wedged_of_large hi' h.becomes hlarge
    | rest hl h => cases hl

theorem drained_length (p : Processor) : p.drained.length = min 10 p.queue.length := by
  rw [Processor.drained, List.length_take]
  exact Nat.min_eq_left (Nat.min_le_right _ _)

theorem drain_enabled (hidle : (system.processors table).workers worker = .idle)
    (hworker : worker < cfg.workersPerTable) (hqueue : (system.processors table).queue ≠ []) :
    ∃ system', System.step cfg system (.drain table worker) = some system' := by
  simp only [System.step, hidle]
  rw [if_pos ⟨hworker, hqueue⟩]
  exact ⟨_, rfl⟩

/-- What has been enqueued at the first table is all there when its first worker's tick comes. -/
theorem exists_drained (hworkers : 1 ≤ cfg.workersPerTable) {events : List Event}
    (hevents : events ≠ []) :
    ∃ s s', (machine cfg).Reachable s ∧ Step cfg s (.system (.drain 0 0)) s' ∧
      (s.system.processors 0).queue.length = events.length := by
  let system : System :=
    { (System.start cfg).setProcessor 0
        (((System.start cfg).processors 0).enqueueEvents (tag 0 events)) with
      nextSeq := 0 + events.length }
  have hprocessor : system.processors 0 =
      ((System.start cfg).processors 0).enqueueEvents (tag 0 events) :=
    System.processors_setProcessor_self (System.start cfg) 0 _
  have hlength : (system.processors 0).queue.length = events.length := by
    rw [hprocessor]
    show (tag 0 events).length = events.length
    rw [tag, List.length_map, List.length_zipIdx]
  have hqueue : (system.processors 0).queue ≠ [] := by
    intro hnil
    rw [hnil] at hlength
    exact hevents (List.length_eq_zero_iff.mp hlength.symm)
  have henqueue : Step cfg (start cfg) (.system (.enqueue 0 events)) ⟨system, fun _ => []⟩ :=
    .other (by simp) rfl
  have hidle : (system.processors 0).workers 0 = .idle := by
    rw [hprocessor]
    rfl
  obtain ⟨system', h⟩ := drain_enabled hidle hworkers hqueue
  exact ⟨_, _, .step (.init rfl) henqueue, .other (by simp) h, hlength⟩

/-- With fewer than ten permits some worker can wedge. -/
theorem exists_wedged (hworkers : 1 ≤ cfg.workersPerTable) (hfew : cfg.maxConcurrentEvents < 10) :
    ∃ s, (machine cfg).Reachable s ∧ Wedged cfg s 0 0 := by
  have hevents : List.replicate (cfg.maxConcurrentEvents + 1) Event.heartbeat ≠ [] := by simp
  obtain ⟨s, s', hreach, hs, hlength⟩ := exists_drained hworkers hevents
  refine ⟨s', .step hreach hs, wedged_of_drain (reachable_accounted hreach) hs ?_⟩
  rw [drained_length, hlength, List.length_replicate]
  omega

/-- As long as no tick drains more events than there are permits, every worker that waits for its
permits can get them; a tick that does wedges its worker. With ten permits no tick does, with fewer
some run has one. -/
theorem workers_wedge (cfg : ParallelConfig) :
    (∀ s, ((machine cfg).restrict (DrainFits cfg)).Reachable s →
      ∀ table worker, ¬ Wedged cfg s table worker) ∧
    (∀ s l s', (machine cfg).Reachable s → Step cfg s l s' → ¬ DrainFits cfg s l →
      ∃ table worker, Wedged cfg s' table worker) ∧
    (1 ≤ cfg.workersPerTable →
      ((∀ s, (machine cfg).Reachable s → ∀ table worker, ¬ Wedged cfg s table worker) ↔
        10 ≤ cfg.maxConcurrentEvents)) := by
  have hfit : ∀ s, ((machine cfg).restrict (DrainFits cfg)).Reachable s →
      ∀ table worker, ¬ Wedged cfg s table worker := fun s h table worker =>
    not_wedged (reachable_accounted h.of_restrict) (reachable_fits h table)
  refine ⟨hfit, fun s l s' hreach hs hno => ?_, fun hworkers => ⟨fun h => ?_, fun hmax s h => ?_⟩⟩
  · cases l with
    | request table worker => exact absurd trivial hno
    | system l =>
      cases l with
      | drain table worker =>
        have hlarge := Nat.lt_of_not_le hno
        exact ⟨table, worker, wedged_of_drain (reachable_accounted hreach) hs hlarge⟩
      | enqueue | acquire | send | forward | survey | steal | settle => exact absurd trivial hno
  -- below ten permits a drain can take one event more than there are permits
  · by_contra hfew
    obtain ⟨s, hreach, hwedged⟩ := exists_wedged hworkers (Nat.lt_of_not_le hfew)
    exact h s hreach 0 0 hwedged
  · refine hfit s (h.restrict ?_)
    intro s l
    cases l with
    | request table worker => trivial
    | system l =>
      cases l with
      | drain table worker =>
        show (s.system.processors table).drained.length ≤ cfg.maxConcurrentEvents
        rw [drained_length]
        exact Nat.le_trans (Nat.min_le_left _ _) hmax
      | enqueue | acquire | send | forward | survey | steal | settle => trivial

/-! ### One permit -/

/-- One worker and one permit. -/
def onePermit : ParallelConfig where
  rt := ⟨id, id, ""⟩
  tables := 1
  stages _ := ⟨none, none, none, none⟩
  workersPerTable := 1
  maxConcurrentEvents := 1
  workStealing := false

/-- One heartbeat does not wedge the worker, two of them do. -/
theorem workers_wedge_heartbeats :
    (∃ s, s.worker 0 0 = .waiting [⟨0, .heartbeat, .heartbeat⟩] ∧ ¬ Wedged onePermit s 0 0) ∧
    (∃ s table worker, Wedged onePermit s table worker) ∧
    ¬ ∀ s, (machine onePermit).Reachable s → ∀ table worker, ¬ Wedged onePermit s table worker := by
  have hstart : ((machine onePermit).restrict (DrainFits onePermit)).Reachable (start onePermit) :=
    .init rfl
  have hone : ((machine onePermit).restrict (DrainFits onePermit)).Reachable ⟨_, _⟩ :=
    hstart.step (l := Label.system (.enqueue 0 [.heartbeat])) ⟨trivial, .other (by simp) rfl⟩
  have hdrained : ((machine onePermit).restrict (DrainFits onePermit)).Reachable ⟨_, _⟩ :=
    hone.step (l := Label.system (.drain 0 0)) ⟨Nat.le_refl 1, .other (by simp) rfl⟩
  have htwo : (machine onePermit).Reachable ⟨_, _⟩ :=
    hone.of_restrict.step (l := Label.system (.enqueue 0 [.heartbeat])) (.other (by simp) rfl)
  refine ⟨⟨_, rfl, (workers_wedge onePermit).1 _ hdrained 0 0⟩, ?_, ?_⟩
  · obtain ⟨table, worker, h⟩ := (workers_wedge onePermit).2.1 _ (.system (.drain 0 0)) ⟨_, _⟩ htwo
      (.other (by simp) rfl) (Nat.not_succ_le_self 1)
    exact ⟨_, table, worker, h⟩
  · intro h
    exact absurd (((workers_wedge onePermit).2.2 (Nat.le_refl 1)).mp h) (by decide)

theorem workers_not_never_wedged :
    ¬ ∀ cfg : ParallelConfig, 1 ≤ cfg.workersPerTable → 1 ≤ cfg.maxConcurrentEvents →
      ∀ s, (machine cfg).Reachable s → ∀ table worker, ¬ Wedged cfg s table worker := by
  intro h
  have hworkers : 1 ≤ onePermit.workersPerTable := Nat.le_refl 1
  obtain ⟨s, hreach, hwedged⟩ := exists_wedged hworkers (show 1 < 10 by decide)
  exact h onePermit hworkers (Nat.le_refl 1) s hreach 0 0 hwedged

end WorkerPermits

end MeiliBridge
