import MeiliBridge.Pipeline.MemoryMonitor

/-!
# What the counters of the memory monitor say

Whatever the order of the steps is, each counter is right modulo 2^64 (`Counted`). It is right as a
number, and the queue keeps to its limit, exactly as long as no call adds a size that makes the
queue counter wrap.
-/

set_option autoImplicit false

namespace MeiliBridge

open Reservation (Pool)

namespace MemoryMonitor

/-- The queue allocations that the event counter is to count -/
def State.tracked (s : State) : Nat := (s.pools .queue).live.card + s.releasing

/-- The accounts of the queue are exact, and nothing is left when everything is dropped. -/
structure Exact (m : MemoryMonitor) (s : State) : Prop where
  total : (s.pools .queue).current.toNat =
    (s.pools .queue).reserved + (s.pools .queue).inProgress
  limit : (s.pools .queue).reserved ≤ m.maxQueueMemory.toNat
  events : (s.pools .queue).calls = 0 → s.releasing = 0 →
    s.eventCount.toNat = (s.pools .queue).live.card
  dropped : (∀ t, (s.pools t).calls = 0 ∧ (s.pools t).live = 0) → s.releasing = 0 →
    (∀ t, (s.pools t).current = 0) ∧ s.eventCount = 0

/-- The step does not make the queue counter wrap, nor the event counter. -/
structure NoWrap (s : State) (l : Label) : Prop where
  add : ∀ size, l = .add .queue size → (s.pools .queue).current.toNat + size.toNat < 2 ^ 64
  grant : ∀ size, l = .grant .queue size → s.eventCount.toNat + 1 < 2 ^ 64

variable {m : MemoryMonitor} {s s' : State} {l : Label}

/-! ## What a step does -/

theorem withPool_settles {t' : AllocationType} {p : Pool}
    (h : (s.pools t').Settles (m.limit t') p) (t : AllocationType) :
    (s.withPool t' p).pools t = s.pools t ∨
      (s.pools t).Settles (m.limit t) ((s.withPool t' p).pools t) := by
  by_cases ht : t = t'
  · subst ht
    right
    rw [State.withPool_self]
    exact h
  · left
    exact s.withPool_of_ne t' p ht

/-- What a step does to a pool -/
theorem step_pools (hs : m.step s l = some s') (t : AllocationType) :
    (∃ size, l = .add t size ∧ s'.pools t = (s.pools t).add size) ∨
      s'.pools t = s.pools t ∨ (s.pools t).Settles (m.limit t) (s'.pools t) := by
  cases l with
  | add t' size =>
    obtain rfl := Option.some.inj hs
    by_cases ht : t = t'
    · subst ht
      exact .inl ⟨size, rfl, s.withPool_self t _⟩
    · exact .inr (.inl (s.withPool_of_ne t' _ ht))
  | check t' size newTotal =>
    obtain ⟨p, hp, rfl⟩ := Option.map_eq_some_iff.mp hs
    exact .inr (withPool_settles (.check size newTotal hp) t)
  | rollBack t' size =>
    obtain ⟨p, hp, rfl⟩ := Option.map_eq_some_iff.mp hs
    exact .inr (withPool_settles (.rollBack size hp) t)
  | grant t' size =>
    obtain ⟨p, hp, rfl⟩ := Option.map_eq_some_iff.mp hs
    rw [State.count_pools]
    exact .inr (withPool_settles (.grant size hp) t)
  | release t' size =>
    obtain ⟨p, hp, rfl⟩ := Option.map_eq_some_iff.mp hs
    rw [State.uncounted_pools]
    exact .inr (withPool_settles (.release size hp) t)
  | uncount =>
    obtain ⟨n, -, rfl⟩ := uncount_eq_some.mp hs
    exact .inr (.inl rfl)

/-- A pool with the same allocations leaves as many events to count. -/
theorem tracked_withPool {t : AllocationType} {p : Pool} (h : p.live = (s.pools t).live) :
    (s.withPool t p).tracked = s.tracked := by
  cases t with
  | queue =>
    rw [State.tracked, State.withPool_self, h]
    rfl
  | checkpoint =>
    rw [State.tracked, s.withPool_of_ne .checkpoint p (by simp)]
    rfl

/-- What a step does to the event counter -/
theorem step_events (hs : m.step s l = some s') :
    ((∃ size, l = .grant .queue size) ∧ s'.eventCount = s.eventCount + 1 ∧
      s'.tracked = s.tracked + 1) ∨
    (s'.eventCount = s.eventCount - 1 ∧ s.tracked = s'.tracked + 1) ∨
    (s'.eventCount = s.eventCount ∧ s'.tracked = s.tracked) := by
  cases l with
  | add t size =>
    obtain rfl := Option.some.inj hs
    exact .inr (.inr ⟨rfl, tracked_withPool rfl⟩)
  | check t size newTotal =>
    obtain ⟨p, hp, rfl⟩ := Option.map_eq_some_iff.mp hs
    obtain ⟨rest, -, rfl⟩ := Pool.check_eq_some.mp hp
    exact .inr (.inr ⟨rfl, tracked_withPool rfl⟩)
  | rollBack t size =>
    obtain ⟨p, hp, rfl⟩ := Option.map_eq_some_iff.mp hs
    obtain ⟨rest, -, rfl⟩ := Pool.rollBack_eq_some.mp hp
    exact .inr (.inr ⟨rfl, tracked_withPool rfl⟩)
  | grant t size =>
    obtain ⟨p, hp, rfl⟩ := Option.map_eq_some_iff.mp hs
    obtain ⟨rest, -, rfl⟩ := Pool.grant_eq_some.mp hp
    -- only a grant of the queue counts an event
    cases t with
    | queue =>
      refine .inl ⟨⟨size, rfl⟩, rfl, ?_⟩
      rw [State.tracked, State.count_pools, State.withPool_self, Multiset.card_cons]
      show (s.pools .queue).live.card + 1 + s.releasing =
        (s.pools .queue).live.card + s.releasing + 1
      omega
    | checkpoint =>
      refine .inr (.inr ⟨rfl, ?_⟩)
      rw [State.tracked, State.count_pools, s.withPool_of_ne .checkpoint _ (by simp)]
      rfl
  | release t size =>
    obtain ⟨p, hp, rfl⟩ := Option.map_eq_some_iff.mp hs
    obtain ⟨rest, hlive, rfl⟩ := Pool.release_eq_some.mp hp
    -- the allocation goes first, and the event is uncounted by a step of its own
    cases t with
    | queue =>
      refine .inr (.inr ⟨rfl, ?_⟩)
      rw [State.tracked, State.uncounted_pools, State.withPool_self, State.tracked, hlive,
        Multiset.card_cons]
      show rest.card + (s.releasing + 1) = rest.card + 1 + s.releasing
      omega
    | checkpoint =>
      refine .inr (.inr ⟨rfl, ?_⟩)
      rw [State.tracked, State.uncounted_pools, s.withPool_of_ne .checkpoint _ (by simp)]
      rfl
  | uncount =>
    obtain ⟨n, hn, rfl⟩ := uncount_eq_some.mp hs
    refine .inr (.inl ⟨rfl, ?_⟩)
    rw [State.tracked, hn]
    rfl

/-! ## Modulo 2^64 -/

/-- The counters are right modulo 2^64. -/
structure Counted (s : State) : Prop where
  pools : ∀ t, (s.pools t).Balanced
  events : s.eventCount.toNat = s.tracked % 2 ^ 64

theorem counted_start : Counted .start where
  pools := by
    intro t
    exact Pool.balanced_empty
  events := rfl

theorem Counted.step (h : Counted s) (hs : m.step s l = some s') : Counted s' where
  pools := by
    intro t
    rcases step_pools hs t with ⟨size, -, hadd⟩ | hsame | hsettles
    · rw [hadd]
      exact (h.pools t).add
    · rw [hsame]
      exact h.pools t
    · exact (h.pools t).settles hsettles
  events := by
    have hevents := h.events
    rcases step_events hs with ⟨-, hcount, htracked⟩ | ⟨hcount, htracked⟩ | ⟨hcount, htracked⟩
    · rw [hcount, htracked, UInt64.toNat_add, hevents]
      exact Nat.mod_add_mod _ _ _
    · rw [hcount, UInt64.toNat_sub, hevents, htracked]
      show (2 ^ 64 - 1 + (s'.tracked + 1) % 2 ^ 64) % 2 ^ 64 = s'.tracked % 2 ^ 64
      omega
    · rw [hcount, htracked, hevents]

/-- Nothing is left when everything is dropped, wrapped or not. -/
theorem Counted.dropped (h : Counted s)
    (hnone : ∀ t, (s.pools t).calls = 0 ∧ (s.pools t).live = 0) (hreleasing : s.releasing = 0) :
    (∀ t, (s.pools t).current = 0) ∧ s.eventCount = 0 := by
  constructor
  · intro t
    have htotal : (s.pools t).total = 0 := by
      rw [Pool.total, Pool.reserved, Pool.inProgress, (hnone t).1, (hnone t).2]
      rfl
    have hcurrent := h.pools t
    rw [Pool.Balanced, htotal] at hcurrent
    exact UInt64.toNat_inj.mp hcurrent
  · have htracked : s.tracked = 0 := by
      rw [State.tracked, (hnone .queue).2, hreleasing]
      rfl
    have hevents := h.events
    rw [htracked] at hevents
    exact UInt64.toNat_inj.mp hevents

/-! ## As numbers -/

/-- The counters of the queue have not wrapped. -/
structure InRange (m : MemoryMonitor) (s : State) : Prop where
  queue : (s.pools .queue).InRange m.maxQueueMemory
  events : s.tracked < 2 ^ 64

theorem inRange_start (m : MemoryMonitor) : InRange m .start where
  queue := Pool.inRange_empty _
  events := by decide

theorem InRange.step (h : InRange m s) (hcounted : Counted s) (hwrap : NoWrap s l)
    (hs : m.step s l = some s') : InRange m s' where
  queue := by
    rcases step_pools hs .queue with ⟨size, hl, hadd⟩ | hsame | hsettles
    · rw [hadd]
      exact h.queue.add (hcounted.pools .queue) (hwrap.add size hl)
    · rw [hsame]
      exact h.queue
    · exact h.queue.settles hsettles
  events := by
    have hbefore := h.events
    have hevents := hcounted.events
    rw [Nat.mod_eq_of_lt hbefore] at hevents
    rcases step_events hs with ⟨⟨size, hl⟩, -, htracked⟩ | ⟨-, htracked⟩ | ⟨-, htracked⟩
    · have hgrant := hwrap.grant size hl
      omega
    · omega
    · omega

theorem InRange.exact (h : InRange m s) (hcounted : Counted s) : Exact m s where
  total := (hcounted.pools .queue).current_eq h.queue.small
  limit := Nat.le_trans (Nat.le_add_right _ _) h.queue.within
  events := by
    intro _ hreleasing
    have hevents := hcounted.events
    rw [Nat.mod_eq_of_lt h.events, State.tracked, hreleasing] at hevents
    exact hevents
  dropped := hcounted.dropped

/-- **The accounts are exact** as long as no step makes a counter wrap; a call of the queue that
makes its counter wrap puts them wrong. -/
theorem accounting_exact (h : (m.machine.restrict NoWrap).Reachable s) :
    Exact m s ∧ ∀ size s', m.step s (.add .queue size) = some s' →
      (Exact m s' ↔ (s.pools .queue).current.toNat + size.toNat < 2 ^ 64) := by
  have hinv : Counted s ∧ InRange m s := by
    apply h.invariant (I := fun s => Counted s ∧ InRange m s)
    · rintro s rfl
      exact ⟨counted_start, inRange_start m⟩
    · rintro s l s' ⟨hcounted, hrange⟩ ⟨hwrap, hs⟩
      exact ⟨hcounted.step hs, hrange.step hcounted hwrap hs⟩
  obtain ⟨hcounted, hrange⟩ := hinv
  refine ⟨hrange.exact hcounted, ?_⟩
  intro size s' hs
  constructor
  · intro hexact
    obtain rfl := Option.some.inj hs
    have htotal : ((s.pools .queue).add size).current.toNat =
        ((s.pools .queue).add size).total := by
      rw [← s.withPool_self .queue ((s.pools .queue).add size)]
      exact hexact.total
    rw [Pool.total_add, ← (hcounted.pools .queue).current_eq hrange.queue.small] at htotal
    rw [← htotal]
    exact UInt64.toNat_lt _
  · intro hsmall
    have hwrap : NoWrap s (.add .queue size) := by
      constructor
      · intro size' hl
        cases hl
        exact hsmall
      · intro size' hl
        cases hl
    exact (hrange.step hcounted hwrap hs).exact (hcounted.step hs)

/-- A call that has added ten bytes -/
def tenAdded : State := State.start.withPool .queue (Pool.empty.add 10)

theorem accounting_exact_ten : Exact (new 1 1) tenAdded ∧
    ∀ size s', (new 1 1).step tenAdded (.add .queue size) = some s' →
      (Exact (new 1 1) s' ↔ (tenAdded.pools .queue).current.toNat + size.toNat < 2 ^ 64) := by
  have hinit : ((new 1 1).machine.restrict NoWrap).Reachable .start := .init rfl
  have hwrap : NoWrap .start (.add .queue 10) := by
    constructor
    · intro size hl
      cases hl
      decide
    · intro size hl
      cases hl
  exact accounting_exact (hinit.restrict_step (.add .queue 10) hwrap rfl)

/-- Ten bytes, and a size that makes the total five -/
theorem accounting_not_always_exact : ¬ ∀ (m : MemoryMonitor) (s : State),
    m.machine.Reachable s → Exact m s := by
  intro h
  have hten : (new 100 100).machine.Reachable ((new 100 100).track .queue 10 .start).2 :=
    Trans.Machine.reachable_of_runFn (.init rfl) (runFn_trackSteps _ _ _ _)
  have hhuge := Trans.Machine.reachable_of_runFn hten
    (runFn_trackSteps (new 100 100) .queue 18446744073709551611 _)
  exact absurd (h _ _ hhuge).limit (by decide)

end MemoryMonitor

end MeiliBridge
