import MeiliBridge.Pipeline.ParallelMoves

/-!
# Work stealing loses no event

Between the queues and the workers an event can only be with the balancer, on its way from the
largest queue to the smallest. The `Ledger` of a run counts what has been enqueued and what workers
have taken; the difference is in the queues and in the balancer's hands, whatever happens between
the reading of the sizes and the moves.

`balanceWork` is a round of the balancer while nothing else happens. It moves half the difference of
the two queues, which is never more than the half of the larger one that `steal_events` allows.
-/

set_option autoImplicit false

namespace MeiliBridge

open Trans

namespace Parallel

/-- The events in the queues. -/
def queued (cfg : ParallelConfig) (s : System) : Multiset Tagged :=
  ∑ t ∈ Finset.range cfg.tables, ((s.processors t).queue : Multiset Tagged)

/-- The events that the balancer has stolen and not enqueued yet. -/
def Balance.hand : Balance → Multiset Tagged
  | .moving _ stolen => stolen
  | .waiting | .surveying _ => 0

/-- A system, what has been enqueued, and what workers have taken. -/
structure Ledger where
  system : System
  enqueued : Multiset Tagged
  taken : Multiset Tagged

/-- What a step enqueues from outside. -/
def arrivals (s : System) : Label → Multiset Tagged
  | .enqueue _ events => tag s.nextSeq events
  | _ => 0

/-- What a step takes from a queue for a worker. -/
def takings (s : System) : Label → Multiset Tagged
  | .drain table _ => (s.processors table).drained
  | _ => 0

/-- The step is about a processor of the list. -/
def Registered (cfg : ParallelConfig) : Label → Prop
  | .enqueue table _ | .drain table _ | .acquire table _ | .send table _ | .forward table =>
    table < cfg.tables
  | .survey | .steal | .settle => True

/-- The processors with whatever is in their queues, and the balancer, under every interleaving. -/
def ledger (cfg : ParallelConfig) : Machine Ledger Label where
  init k := k.system.balance = .waiting ∧ k.enqueued = queued cfg k.system ∧ k.taken = 0
  step k l k' :=
    Registered cfg l ∧ System.step cfg k.system l = some k'.system ∧
      k'.enqueued = k.enqueued + arrivals k.system l ∧ k'.taken = k.taken + takings k.system l

variable {cfg : ParallelConfig} {s s' : System} {k k' : Ledger} {l : Label} {table : Nat}
  {p : Processor}

/-! ## The queues after a step -/

theorem queued_setProcessor (h : table < cfg.tables) (p : Processor) :
    queued cfg (s.setProcessor table p) + (s.processors table).queue = queued cfg s + p.queue :=
  sum_update_add (Finset.mem_range.mpr h) s.processors p fun p => (p.queue : Multiset Tagged)

/-- A queue that loses events. -/
theorem queued_take (h : table < cfg.tables) {moved : Multiset Tagged}
    (hqueue : ((s.processors table).queue : Multiset Tagged) = p.queue + moved) :
    queued cfg (s.setProcessor table p) + moved = queued cfg s := by
  have hset := queued_setProcessor (s := s) h p
  rw [hqueue, ← add_assoc, add_right_comm] at hset
  exact add_right_cancel hset

/-- A queue that gets events. -/
theorem queued_put (h : table < cfg.tables) {moved : Multiset Tagged}
    (hqueue : (p.queue : Multiset Tagged) = (s.processors table).queue + moved) :
    queued cfg (s.setProcessor table p) = queued cfg s + moved := by
  have hset := queued_setProcessor (s := s) h p
  rw [hqueue, ← add_assoc, add_right_comm] at hset
  exact add_right_cancel hset

theorem queued_same (h : table < cfg.tables) (hqueue : p.queue = (s.processors table).queue) :
    queued cfg (s.setProcessor table p) = queued cfg s := by
  have hset := queued_setProcessor (s := s) h p
  rw [hqueue] at hset
  exact add_right_cancel hset

/-- The part that `steal_events` leaves, and what it takes. -/
theorem queue_eq_afterSteal (p : Processor) (count : Nat) :
    (p.queue : Multiset Tagged) = (p.afterSteal count).queue + p.stolen count := by
  rw [Processor.afterSteal, Processor.stolen, List.take_reverse, Multiset.coe_add,
    Multiset.coe_eq_coe]
  refine List.Perm.trans ?_ ((List.reverse_perm _).symm.append_left _)
  rw [List.take_append_drop]

/-- The part that a tick leaves, and what it drains. -/
theorem queue_eq_drained (p : Processor) :
    (p.queue : Multiset Tagged) =
      p.queue.drop (min 10 p.queue.length) + (p.drained : Multiset Tagged) := by
  rw [Multiset.coe_add, Multiset.coe_eq_coe]
  refine List.Perm.trans ?_ List.perm_append_comm
  rw [Processor.drained, List.take_append_drop]

theorem queued_enqueue (h : table < cfg.tables) (events : List Tagged) :
    queued cfg (s.setProcessor table ((s.processors table).enqueueEvents events)) =
      queued cfg s + events :=
  queued_put h (Multiset.coe_add _ _).symm

theorem queued_steal (h : table < cfg.tables) (count : Nat) :
    queued cfg (s.setProcessor table ((s.processors table).afterSteal count)) +
      (s.processors table).stolen count = queued cfg s :=
  queued_take h (queue_eq_afterSteal _ count)

/-! ## Conservation -/

/-- The balancer knows processors of the list only. -/
def Aware (cfg : ParallelConfig) : Balance → Prop
  | .waiting => True
  | .surveying sizes => ∀ entry ∈ sizes, entry.1 < cfg.tables
  | .moving small _ => small < cfg.tables

/-- What is enqueued is in a queue, with the balancer or taken. -/
structure Conserved (cfg : ParallelConfig) (k : Ledger) : Prop where
  conserved : queued cfg k.system + k.system.balance.hand + k.taken = k.enqueued
  aware : Aware cfg k.system.balance

/-- The first of the sorted sizes is the least. -/
theorem head_least {sizes : List (Nat × Nat)} {entry : Nat × Nat}
    (h : (sizes.insertionSort fun a b => a.2 ≤ b.2).head? = some entry) :
    entry ∈ sizes ∧ ∀ other ∈ sizes, entry.2 ≤ other.2 := by
  have hsorted := List.pairwise_insertionSort (fun a b : Nat × Nat => a.2 ≤ b.2) sizes
  obtain ⟨rest, hrest⟩ := List.head?_eq_some_iff.mp h
  rw [hrest] at hsorted
  refine ⟨(List.mem_insertionSort _).mp (hrest ▸ List.mem_cons_self), fun other hother => ?_⟩
  have hmem := (List.mem_insertionSort fun a b : Nat × Nat => a.2 ≤ b.2).mpr hother
  rw [hrest] at hmem
  rcases List.mem_cons.mp hmem with rfl | hmem
  · exact le_refl _
  · exact List.rel_of_pairwise_cons hsorted hmem

/-- The last of the sorted sizes is the greatest. -/
theorem getLast_greatest {sizes : List (Nat × Nat)} {entry : Nat × Nat}
    (h : (sizes.insertionSort fun a b => a.2 ≤ b.2).getLast? = some entry) :
    entry ∈ sizes ∧ ∀ other ∈ sizes, other.2 ≤ entry.2 := by
  have hsorted := List.pairwise_insertionSort (fun a b : Nat × Nat => a.2 ≤ b.2) sizes
  obtain ⟨before, hbefore⟩ := List.getLast?_eq_some_iff.mp h
  rw [hbefore] at hsorted
  refine ⟨(List.mem_insertionSort _).mp (hbefore ▸ List.mem_concat_self), fun other hother => ?_⟩
  have hmem := (List.mem_insertionSort fun a b : Nat × Nat => a.2 ≤ b.2).mpr hother
  rw [hbefore] at hmem
  rcases List.mem_append.mp hmem with hmem | hmem
  · exact (List.pairwise_append.mp hsorted).2.2 other hmem entry List.mem_cons_self
  · rw [List.mem_singleton.mp hmem]

/-- A plan is to move half the difference of the largest and the smallest size. -/
theorem plan_eq_some {sizes : List (Nat × Nat)} {small large count : Nat}
    (h : plan sizes = some (small, large, count)) :
    ∃ smallSize largeSize, (small, smallSize) ∈ sizes ∧ (large, largeSize) ∈ sizes ∧
      (∀ entry ∈ sizes, smallSize ≤ entry.2 ∧ entry.2 ≤ largeSize) ∧
      smallSize + 100 < largeSize ∧ count = (largeSize - smallSize) / 2 := by
  simp only [plan] at h
  split at h
  · next small' smallSize large' largeSize hhead hlast =>
    split at h
    · next hdiffer =>
      cases h
      obtain ⟨hsmall, hleast⟩ := head_least hhead
      obtain ⟨hlarge, hgreatest⟩ := getLast_greatest hlast
      refine ⟨smallSize, largeSize, hsmall, hlarge, fun entry hentry => ?_, hdiffer, rfl⟩
      exact ⟨hleast entry hentry, hgreatest entry hentry⟩
    · cases h
  · cases h

/-- There is none if no two sizes differ by more than 100. -/
theorem plan_eq_none {sizes : List (Nat × Nat)} (h : plan sizes = none) :
    ∀ entry ∈ sizes, ∀ other ∈ sizes, other.2 ≤ entry.2 + 100 := by
  simp only [plan] at h
  split at h
  · next small smallSize large largeSize hhead hlast =>
    split at h
    · cases h
    · next hclose =>
      intro entry hentry other hother
      have hleast := (head_least hhead).2 entry hentry
      have hgreatest := (getLast_greatest hlast).2 other hother
      omega
  · next hnone =>
    intro entry hentry
    have hne : sizes.insertionSort (fun a b => a.2 ≤ b.2) ≠ [] :=
      List.ne_nil_of_mem ((List.mem_insertionSort _).mpr hentry)
    exact absurd (List.getLast?_eq_some_getLast hne) (hnone _ _ _ _ (List.head?_eq_some_head hne))

theorem Aware.survey {sizes : List (Nat × Nat)} (h : Aware cfg (.surveying sizes))
    (hnext : sizes.length < cfg.tables) (size : Nat) :
    Aware cfg (.surveying (sizes ++ [(sizes.length, size)])) := by
  intro entry hentry
  rcases List.mem_append.mp hentry with hold | hnew
  · exact h entry hold
  · rw [List.mem_singleton.mp hnew]
    exact hnext

/-- A step that leaves the queues and the balancer's hands alone. -/
theorem Conserved.same (h : Conserved cfg k) (hqueued : queued cfg s' = queued cfg k.system)
    (hhand : s'.balance.hand = k.system.balance.hand) (haware : Aware cfg s'.balance) :
    Conserved cfg ⟨s', k.enqueued + 0, k.taken + 0⟩ := by
  refine ⟨?_, haware⟩
  rw [hqueued, hhand, add_zero, add_zero]
  exact h.conserved

theorem Conserved.step (h : Conserved cfg k) (hs : (ledger cfg).step k l k') :
    Conserved cfg k' := by
  obtain ⟨hregistered, hstep, henqueued, htaken⟩ := hs
  obtain ⟨s', enqueued', taken'⟩ := k'
  have hconserved := h.conserved
  have haware := h.aware
  simp only at hstep henqueued htaken
  subst henqueued htaken
  cases moves_of_step hstep with
  | enqueue table events =>
    refine ⟨?_, haware⟩
    show queued cfg (k.system.setProcessor table _) + k.system.balance.hand + (k.taken + 0) =
      k.enqueued + (tag k.system.nextSeq events : Multiset Tagged)
    rw [queued_enqueue hregistered, ← hconserved, add_zero]
    ac_rfl
  | @drain table worker hidle hworker hqueue =>
    refine ⟨?_, haware⟩
    have htake := queued_take (s := k.system) (p := System.setWorker
      { k.system.processors table with
        queue := (k.system.processors table).queue.drop
          (min 10 (k.system.processors table).queue.length) }
      worker (.waiting (k.system.processors table).drained)) hregistered
      (queue_eq_drained (k.system.processors table))
    show queued cfg (k.system.setProcessor table _) + k.system.balance.hand +
      (k.taken + ((k.system.processors table).drained : Multiset Tagged)) = k.enqueued + 0
    rw [← hconserved, ← htake, add_zero]
    ac_rfl
  -- none of these steps touches a queue
  | acquire hwaiting hpermits => exact h.same (queued_same hregistered rfl) rfl haware
  | send hworking hprocessed hresults => exact h.same (queued_same hregistered rfl) rfl haware
  | panic hworking hprocessed => exact h.same (queued_same hregistered rfl) rfl haware
  | forward hresults => exact h.same (queued_same (s := k.system) hregistered rfl) rfl haware
  | surveyFirst htables hwaiting =>
    refine h.same rfl ?_ ?_
    · rw [hwaiting]
      rfl
    · intro entry hentry
      rw [List.mem_singleton.mp hentry]
      exact Nat.lt_of_lt_of_le Nat.zero_lt_two htables
  | surveyNext hsurveying hnext =>
    rw [hsurveying] at haware
    refine h.same rfl ?_ (haware.survey hnext _)
    rw [hsurveying]
    rfl
  | leave hsurveying hplan =>
    refine h.same rfl ?_ trivial
    rw [hsurveying]
    rfl
  -- what leaves the large queue is in the balancer's hand
  | @steal sizes small large count hsurveying hplan =>
    rw [hsurveying] at haware hconserved
    obtain ⟨smallSize, largeSize, hsmall, hlarge, -⟩ := plan_eq_some hplan
    refine ⟨?_, haware _ hsmall⟩
    show queued cfg (k.system.setProcessor large _) +
      ((k.system.processors large).stolen count : Multiset Tagged) + (k.taken + 0) = k.enqueued + 0
    rw [queued_steal (haware _ hlarge), add_zero, add_zero, ← hconserved]
    exact congrArg (· + k.taken) (add_zero _).symm
  | @settle small stolen hmoving =>
    rw [hmoving] at haware hconserved
    refine ⟨?_, trivial⟩
    show queued cfg (k.system.setProcessor small _) + 0 + (k.taken + 0) = k.enqueued + 0
    rw [queued_enqueue haware, add_zero, add_zero, add_zero, ← hconserved]
    rfl

theorem reachable_conserved (h : (ledger cfg).Reachable k) : Conserved cfg k := by
  refine h.invariant (I := Conserved cfg) ?_ fun k l k' hconserved hs => hconserved.step hs
  intro k hinit
  obtain ⟨hwaiting, henqueued, htaken⟩ := hinit
  refine ⟨?_, ?_⟩
  · rw [hwaiting, henqueued, htaken]
    show queued cfg k.system + 0 + 0 = queued cfg k.system
    rw [add_zero, add_zero]
  · rw [hwaiting]
    trivial

/-! ## A round of the balancer -/

/-- `balance_work` while nothing else happens: all sizes, then at most one move. -/
def balanceWork (cfg : ParallelConfig) (s : System) : Option System :=
  if cfg.tables < 2 then some s
  else
    (Machine.runFn (System.step cfg) s (List.replicate cfg.tables .survey ++ [.steal])).bind
      fun t =>
        match t.balance with
        | .moving _ _ => System.step cfg t .settle
        | _ => some t

/-- `queue_size` -/
def queueSize (s : System) (table : Nat) : Nat := (s.processors table).queue.length

/-- A round has moved events from a largest queue to a smallest one, which differed by more than 100
and now by one at most; or no two queues differed by more than 100, and it has done nothing. -/
def Balanced (cfg : ParallelConfig) (s s' : System) : Prop :=
  (∃ small < cfg.tables, ∃ large < cfg.tables,
    (∀ t < cfg.tables, queueSize s small ≤ queueSize s t ∧ queueSize s t ≤ queueSize s large) ∧
      queueSize s small + 100 < queueSize s large ∧
      queueSize s' small ≤ queueSize s' large ∧ queueSize s' large ≤ queueSize s' small + 1 ∧
      ∀ t, t ≠ small → t ≠ large → s'.processors t = s.processors t) ∨
  (∀ t < cfg.tables, ∀ u < cfg.tables, queueSize s u ≤ queueSize s t + 100) ∧ s' = s

/-- The sizes of the first `n` queues. -/
def firstSizes (s : System) (n : Nat) : List (Nat × Nat) :=
  (List.range n).map fun t => (t, queueSize s t)

theorem mem_firstSizes {n t size : Nat} :
    (t, size) ∈ firstSizes s n ↔ t < n ∧ queueSize s t = size := by
  simp only [firstSizes, List.mem_map, List.mem_range, Prod.mk.injEq]
  constructor
  · rintro ⟨u, hu, rfl, hsize⟩
    exact ⟨hu, hsize⟩
  · exact fun h => ⟨t, h.1, rfl, h.2⟩

/-- The first `n` sizes have been read. -/
theorem runFn_survey (hstealing : cfg.workStealing = true) (htables : 2 ≤ cfg.tables)
    (hwaiting : s.balance = .waiting) {n : Nat} (hn : 1 ≤ n) (hle : n ≤ cfg.tables) :
    Machine.runFn (System.step cfg) s (List.replicate n .survey) =
      some { s with balance := .surveying (firstSizes s n) } := by
  induction n, hn using Nat.le_induction with
  | base =>
    simp only [List.replicate_one, Machine.runFn, System.step, hstealing, htables, and_self,
      if_true, hwaiting]
    rfl
  | succ n hn ih =>
    have hlength : (firstSizes s n).length = n := by simp [firstSizes]
    rw [List.replicate_succ', Machine.runFn_append, ih (Nat.le_of_succ_le hle), Option.bind_some]
    simp only [Machine.runFn, System.step, hstealing, htables, and_self, if_true, hlength]
    rw [if_pos (show n < cfg.tables from hle), firstSizes, firstSizes, List.range_succ,
      List.map_append]
    rfl

/-- A round without a plan. -/
theorem balanceWork_none (hstealing : cfg.workStealing = true) (htables : 2 ≤ cfg.tables)
    (hwaiting : s.balance = .waiting) (hplan : plan (firstSizes s cfg.tables) = none) :
    balanceWork cfg s = some s := by
  have hlength : (firstSizes s cfg.tables).length = cfg.tables := by simp [firstSizes]
  have hsame : { s with balance := .waiting } = s := by
    rw [← hwaiting]
  rw [balanceWork, if_neg (Nat.not_lt.mpr htables), Machine.runFn_append,
    runFn_survey hstealing htables hwaiting (Nat.le_of_succ_le htables) (le_refl _),
    Option.bind_some]
  simp only [Machine.runFn, System.step, hlength, if_true, hplan, hsame, Option.bind_some, hwaiting]

/-- The system after a move of `count` events. -/
def moved (s : System) (small large count : Nat) : System :=
  let t := s.setProcessor large ((s.processors large).afterSteal count)
  { t.setProcessor small
      ((t.processors small).enqueueEvents ((s.processors large).stolen count)) with
    balance := .waiting }

theorem balanceWork_some (hstealing : cfg.workStealing = true) (htables : 2 ≤ cfg.tables)
    (hwaiting : s.balance = .waiting) {small large count : Nat}
    (hplan : plan (firstSizes s cfg.tables) = some (small, large, count)) :
    balanceWork cfg s = some (moved s small large count) := by
  have hlength : (firstSizes s cfg.tables).length = cfg.tables := by simp [firstSizes]
  rw [balanceWork, if_neg (Nat.not_lt.mpr htables), Machine.runFn_append,
    runFn_survey hstealing htables hwaiting (Nat.le_of_succ_le htables) (le_refl _),
    Option.bind_some]
  simp only [Machine.runFn, System.step, hlength, if_true, hplan, Option.bind_some]
  rfl

theorem queueSize_moved_large {small large : Nat} (hne : small ≠ large) (count : Nat) :
    queueSize (moved s small large count) large =
      queueSize s large - min count (queueSize s large / 2) := by
  show (((s.setProcessor large _).setProcessor small _).processors large).queue.length = _
  rw [System.processors_setProcessor_of_ne hne.symm, System.processors_setProcessor_self]
  show ((s.processors large).queue.take _).length = _
  rw [List.length_take]
  exact Nat.min_eq_left (Nat.sub_le _ _)

theorem queueSize_moved_small {small large : Nat} (hne : small ≠ large) (count : Nat) :
    queueSize (moved s small large count) small =
      queueSize s small + min count (queueSize s large / 2) := by
  show (((s.setProcessor large _).setProcessor small _).processors small).queue.length = _
  rw [System.processors_setProcessor_self, System.processors_setProcessor_of_ne hne]
  show ((s.processors small).queue ++ (s.processors large).stolen count).length = _
  rw [List.length_append, Processor.stolen, List.length_take, List.length_reverse]
  refine congrArg (queueSize s small + ·) (Nat.min_eq_left ?_)
  exact Nat.le_trans (Nat.min_le_right _ _) (Nat.div_le_self _ 2)

theorem processors_moved_of_ne {small large t : Nat} (hsmall : t ≠ small) (hlarge : t ≠ large)
    (count : Nat) : (moved s small large count).processors t = s.processors t := by
  show ((s.setProcessor large _).setProcessor small _).processors t = _
  rw [System.processors_setProcessor_of_ne hsmall, System.processors_setProcessor_of_ne hlarge]

/-- The cap of `steal_events` does not bind, and the two halves are within one of each other. -/
theorem balanced_moved {small large count : Nat}
    (hplan : plan (firstSizes s cfg.tables) = some (small, large, count)) :
    Balanced cfg s (moved s small large count) := by
  obtain ⟨smallSize, largeSize, hsmall, hlarge, hbounds, hdiffer, hcount⟩ := plan_eq_some hplan
  obtain ⟨hsmallTable, rfl⟩ := mem_firstSizes.mp hsmall
  obtain ⟨hlargeTable, rfl⟩ := mem_firstSizes.mp hlarge
  have hne : small ≠ large := by
    intro heq
    rw [heq] at hdiffer
    omega
  refine .inl ⟨small, hsmallTable, large, hlargeTable, ?_, hdiffer, ?_, ?_, ?_⟩
  · exact fun t ht => hbounds (t, queueSize s t) (mem_firstSizes.mpr ⟨ht, rfl⟩)
  · rw [queueSize_moved_small hne, queueSize_moved_large hne]
    omega
  · rw [queueSize_moved_small hne, queueSize_moved_large hne]
    omega
  · exact fun t htsmall htlarge => processors_moved_of_ne htsmall htlarge count

/-- Fewer than two processors cannot differ. -/
theorem balanced_few (hfew : cfg.tables < 2) : Balanced cfg s s := by
  refine .inr ⟨fun t ht u hu => ?_, rfl⟩
  have heq : u = t := by omega
  rw [heq]
  exact Nat.le_add_right _ _

theorem balanceWork_balanced (hstealing : cfg.workStealing = true)
    (hwaiting : s.balance = .waiting) :
    ∃ s', balanceWork cfg s = some s' ∧ Balanced cfg s s' := by
  by_cases htables : 2 ≤ cfg.tables
  · cases hplan : plan (firstSizes s cfg.tables) with
    | none =>
      refine ⟨s, balanceWork_none hstealing htables hwaiting hplan, .inr ⟨fun t ht u hu => ?_, rfl⟩⟩
      exact plan_eq_none hplan (t, queueSize s t) (mem_firstSizes.mpr ⟨ht, rfl⟩) (u, queueSize s u)
        (mem_firstSizes.mpr ⟨hu, rfl⟩)
    | some move =>
      obtain ⟨small, large, count⟩ := move
      exact ⟨_, balanceWork_some hstealing htables hwaiting hplan, balanced_moved hplan⟩
  · have hfew : cfg.tables < 2 := Nat.lt_of_not_le htables
    exact ⟨s, by rw [balanceWork, if_pos hfew], balanced_few hfew⟩

/-- No interleaving of enqueueing, draining and balancing loses or repeats an event, and a round of
the balancer with nothing in between leaves its two queues balanced. -/
theorem work_balance (cfg : ParallelConfig) :
    (∀ k, (ledger cfg).Reachable k →
      queued cfg k.system + k.system.balance.hand + k.taken = k.enqueued) ∧
    ∀ s, cfg.workStealing = true → s.balance = .waiting →
      ∃ s', balanceWork cfg s = some s' ∧ Balanced cfg s s' :=
  ⟨fun _ hk => (reachable_conserved hk).conserved,
    fun _ hstealing hwaiting => balanceWork_balanced hstealing hwaiting⟩

/-! ### Two tables -/

/-- Two tables without stages, one worker each. -/
def twoQueues : ParallelConfig where
  rt := ⟨id, id, ""⟩
  tables := 2
  stages _ := ⟨none, none, none, none⟩
  workersPerTable := 1
  maxConcurrentEvents := 1000
  workStealing := true

/-- A hundred and one events wait at the second table. -/
def loaded : System :=
  (System.start twoQueues).setProcessor 1
    (((System.start twoQueues).processors 1).enqueueEvents
      (tag 0 (.replicate 101 (.insert "books" (.object []) none))))

/-- Fifty of them are in the balancer's hands, and a round that is not disturbed brings them to the
first table. -/
theorem work_balance_books :
    (∃ k, (ledger twoQueues).Reachable k ∧ k.system.balance.hand.card = 50 ∧
      queued twoQueues k.system + k.system.balance.hand + k.taken = k.enqueued) ∧
    ∃ s', balanceWork twoQueues loaded = some s' ∧ Balanced twoQueues loaded s' := by
  have h₀ : (ledger twoQueues).Reachable ⟨loaded, queued twoQueues loaded, 0⟩ :=
    .init ⟨rfl, rfl, rfl⟩
  have h₁ : (ledger twoQueues).Reachable ⟨_, _, _⟩ :=
    h₀.step (l := Label.survey) ⟨trivial, rfl, rfl, rfl⟩
  have h₂ : (ledger twoQueues).Reachable ⟨_, _, _⟩ :=
    h₁.step (l := Label.survey) ⟨trivial, rfl, rfl, rfl⟩
  have h₃ : (ledger twoQueues).Reachable ⟨_, _, _⟩ :=
    h₂.step (l := Label.steal) ⟨trivial, rfl, rfl, rfl⟩
  exact ⟨⟨_, h₃, rfl, (work_balance twoQueues).1 _ h₃⟩, (work_balance twoQueues).2 loaded rfl rfl⟩

end Parallel

end MeiliBridge
