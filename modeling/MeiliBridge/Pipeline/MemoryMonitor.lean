import MeiliBridge.Lib.Reservation
import MeiliBridge.Lib.Trans
import MeiliBridge.Models.Error

/-!
# The memory monitor

`MemoryMonitor` with everything that its clients do to it: each step changes one atomic counter, and
the steps of different clients come in any order. The counters wrap, and so does the total that a
call computes. A call whose sum wraps is within the limit whatever its size is:
`accounting_exact`.
-/

set_option autoImplicit false

namespace MeiliBridge

open Reservation (Pool)

inductive AllocationType where
  | queue
  | checkpoint
  deriving DecidableEq

structure MemoryMonitor where
  maxQueueMemory : UInt64
  maxCheckpointMemory : UInt64

namespace MemoryMonitor

/-- `MemoryMonitor::new`, with a `usize` of 64 bits -/
def new (maxQueueMemoryMb maxCheckpointMemoryMb : UInt64) : MemoryMonitor :=
  ⟨maxQueueMemoryMb * 1024 * 1024, maxCheckpointMemoryMb * 1024 * 1024⟩

def limit (m : MemoryMonitor) : AllocationType → UInt64
  | .queue => m.maxQueueMemory
  | .checkpoint => m.maxCheckpointMemory

/-- The answer of a call over the limit -/
def limitExceeded (m : MemoryMonitor) : AllocationType → MeiliBridgeError
  | .queue =>
    .resourceExhausted s!"Queue memory limit exceeded: {m.maxQueueMemory / 1048576} MB"
  | .checkpoint =>
    .resourceExhausted s!"Checkpoint memory limit exceeded: {m.maxCheckpointMemory / 1048576} MB"

/-- The counters, with the calls and the allocations behind them -/
structure State where
  pools : AllocationType → Pool
  eventCount : UInt64
  /-- the queue allocations that have given their size back and are still to be uncounted -/
  releasing : Nat

namespace State

def start : State := ⟨fun _ => .empty, 0, 0⟩

def withPool (s : State) (t : AllocationType) (p : Pool) : State :=
  { s with pools := Function.update s.pools t p }

section

variable (s : State) (t : AllocationType) (p p' : Pool)

@[simp] theorem withPool_self : (s.withPool t p).pools t = p := Function.update_self ..

theorem withPool_of_ne {t' : AllocationType} (h : t' ≠ t) :
    (s.withPool t p).pools t' = s.pools t' := Function.update_of_ne h ..

@[simp] theorem withPool_withPool : (s.withPool t p).withPool t p' = s.withPool t p' := by
  simp [withPool]

end

/-- Only events are counted. -/
def count (s : State) : AllocationType → State
  | .queue => { s with eventCount := s.eventCount + 1 }
  | .checkpoint => s

def uncounted (s : State) : AllocationType → State
  | .queue => { s with releasing := s.releasing + 1 }
  | .checkpoint => s

@[simp] theorem count_pools (s : State) (t : AllocationType) : (s.count t).pools = s.pools := by
  cases t <;> rfl

@[simp] theorem uncounted_pools (s : State) (t : AllocationType) :
    (s.uncounted t).pools = s.pools := by
  cases t <;> rfl

end State

/-- The atomic steps of `track_event_memory` and `track_checkpoint_memory`, and of the `drop` of
what they give -/
inductive Label where
  | add (t : AllocationType) (size : UInt64)
  | check (t : AllocationType) (size newTotal : UInt64)
  | rollBack (t : AllocationType) (size : UInt64)
  | grant (t : AllocationType) (size : UInt64)
  | release (t : AllocationType) (size : UInt64)
  | uncount

def step (m : MemoryMonitor) (s : State) : Label → Option State
  | .add t size => some (s.withPool t ((s.pools t).add size))
  | .check t size newTotal =>
    ((s.pools t).check (m.limit t) size newTotal).map (s.withPool t)
  | .rollBack t size => ((s.pools t).rollBack size).map (s.withPool t)
  | .grant t size => ((s.pools t).grant size).map fun p => (s.withPool t p).count t
  | .release t size => ((s.pools t).release size).map fun p => (s.withPool t p).uncounted t
  | .uncount =>
    match s.releasing with
    | 0 => none
    | n + 1 => some { s with eventCount := s.eventCount - 1, releasing := n }

theorem uncount_eq_some {m : MemoryMonitor} {s s' : State} : m.step s .uncount = some s' ↔
    ∃ n, s.releasing = n + 1 ∧
      s' = { s with eventCount := s.eventCount - 1, releasing := n } := by
  rw [step]
  cases s.releasing with
  | zero => simp
  | succ n => simp [eq_comm]

def machine (m : MemoryMonitor) : Trans.Machine State Label := .ofFn .start m.step

/-! ## A call on its own -/

/-- `track_event_memory` and `track_checkpoint_memory`, where nothing comes between their steps;
an allocation is known by its size. -/
def track (m : MemoryMonitor) (t : AllocationType) (size : UInt64) (s : State) :
    Result UInt64 × State :=
  let newTotal := (s.pools t).current + size
  if m.limit t < newTotal then
    (.error (m.limitExceeded t),
      s.withPool t { s.pools t with current := newTotal - size })
  else
    (.ok size, (s.withPool t { s.pools t with
      current := newTotal, live := size ::ₘ (s.pools t).live }).count t)

/-- The steps of a call -/
def trackSteps (m : MemoryMonitor) (t : AllocationType) (size : UInt64) (s : State) :
    List Label :=
  let newTotal := (s.pools t).current + size
  [.add t size, .check t size newTotal,
    if m.limit t < newTotal then .rollBack t size else .grant t size]

/-- A call on its own is a run of its steps. -/
theorem runFn_trackSteps (m : MemoryMonitor) (t : AllocationType) (size : UInt64) (s : State) :
    Trans.Machine.runFn m.step s (m.trackSteps t size s) = some (m.track t size s).2 := by
  have hcheck := (@Pool.check_eq_some ((s.pools t).add size) _ (m.limit t) size
    ((s.pools t).current + size)).mpr ⟨(s.pools t).calls, rfl, rfl⟩
  by_cases hover : m.limit t < (s.pools t).current + size
  · rw [if_pos hover] at hcheck
    have hback := (@Pool.rollBack_eq_some { (s.pools t).add size with
      calls := ⟨size, .rejected⟩ ::ₘ (s.pools t).calls } _ size).mpr ⟨_, rfl, rfl⟩
    simp only [trackSteps, track, if_pos hover, Trans.Machine.runFn, step, Option.bind_some,
      State.withPool_self, hcheck, Option.map_some, State.withPool_withPool, hback]
    rfl
  · rw [if_neg hover] at hcheck
    have hgrant := (@Pool.grant_eq_some { (s.pools t).add size with
      calls := ⟨size, .accepted⟩ ::ₘ (s.pools t).calls } _ size).mpr ⟨_, rfl, rfl⟩
    simp only [trackSteps, track, if_neg hover, Trans.Machine.runFn, step, Option.bind_some,
      State.withPool_self, hcheck, Option.map_some, State.withPool_withPool, hgrant]
    rfl

end MemoryMonitor

end MeiliBridge
