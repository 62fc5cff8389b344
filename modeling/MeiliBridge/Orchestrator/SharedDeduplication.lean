import Mathlib.Data.Finset.Card
import Mathlib.Logic.Function.Basic
import MeiliBridge.Lib.SlidingWindow
import MeiliBridge.Lib.Trans
import MeiliBridge.Orchestrator.ProcessBatch

/-!
# Two tasks at one deduplicator

All tasks share one `AtLeastOnceManager`, and a key of its window does not say which task it comes
from. The deduplication loops of two tasks are two parties of a machine, whose steps are the single
operations of `deduplicate` in any order (`program_step`). What one task sends is independent of
the other's events exactly when the two have no key in common and the window has room for the
other's keys (`dedup_independent_iff`).
-/

set_option autoImplicit false

namespace MeiliBridge

open Interaction Trans SlidingWindow

namespace SharedDeduplication

/-! ## The window as a log -/

/-- How many keys a deduplicator holds: it never goes below one. -/
def capacity (windowSize : Nat) : Nat := max windowSize 1

theorem capacity_pos (n : Nat) : 0 < capacity n := by
  unfold capacity
  omega

/-- The deduplicator holds the last keys of the log, each marked once. -/
structure Holds (d : EventDeduplicator) (n : Nat) (log : List DeduplicationKey) : Prop where
  size : d.windowSize = n
  queue : d.keyQueue = (log.take (capacity n)).reverse
  marks : ∀ key, d.keySet.lookup key = if key ∈ log.take (capacity n) then some 1 else none

variable {d : EventDeduplicator} {n : Nat} {log : List DeduplicationKey} {key : DeduplicationKey}

theorem Holds.new (n : Nat) : Holds (.new n) n [] := by
  refine ⟨rfl, ?_, fun key => ?_⟩
  · rw [List.take_nil]
    rfl
  · rw [List.take_nil]
    rfl

theorem Holds.contains (h : Holds d n log) (key : DeduplicationKey) :
    d.contains key = true ↔ key ∈ log.take (capacity n) := by
  rw [EventDeduplicator.contains, h.marks]
  split <;> simp_all

/-- A log that fills the window, and its oldest key. -/
theorem take_capacity_full (hfull : n ≤ (log.take (capacity n)).length)
    {older : List DeduplicationKey} {oldest : DeduplicationKey}
    (htake : log.take (capacity n) = older ++ [oldest]) : log.take (capacity n - 1) = older := by
  refine take_pred_of_full ?_ htake
  -- a window that holds something is not of size zero
  rw [htake, List.length_append, List.length_singleton] at hfull ⊢
  unfold capacity
  omega

/-- The deduplicator after it has made room for another key. -/
theorem Holds.room (h : Holds d n log) (hlog : Entered (capacity n) log)
    (d' : EventDeduplicator) (hd' : d' = if d.windowSize ≤ d.keyQueue.length then d.evict else d) :
    d'.windowSize = n ∧ d'.keyQueue = (log.take (capacity n - 1)).reverse ∧
      ∀ k, d'.keySet.lookup k = if k ∈ log.take (capacity n - 1) then some 1 else none := by
  subst hd'
  rw [h.size, h.queue, List.length_reverse]
  by_cases hfull : n ≤ (log.take (capacity n)).length
  · rw [if_pos hfull, EventDeduplicator.evict, h.queue]
    rcases List.eq_nil_or_concat' (log.take (capacity n)) with hnil | ⟨older, oldest, htake⟩
    · -- an empty window is full only when its size is zero
      have hlog : log = [] := by
        have hpos := capacity_pos n
        rw [List.take_eq_nil_iff] at hnil
        exact hnil.resolve_left (by omega)
      subst hlog
      simp only [List.take_nil, List.reverse_nil]
      refine ⟨h.size, ?_, fun k => ?_⟩
      · rw [h.queue, List.take_nil, List.reverse_nil]
      · rw [h.marks, List.take_nil]
    · have hnodup := hlog.nodup
      have hrest := take_capacity_full hfull htake
      have hmark : d.keySet.lookup oldest = some 1 := by
        rw [h.marks, htake]
        simp
      rw [htake] at hnodup ⊢
      have hnot : oldest ∉ older := fun hmem =>
        (List.nodup_append.mp hnodup).2.2 oldest hmem oldest List.mem_cons_self rfl
      simp only [List.reverse_append, List.reverse_cons, List.reverse_nil, List.nil_append,
        List.singleton_append, hrest]
      refine ⟨h.size, trivial, fun k => ?_⟩
      simp only [EventDeduplicator.release, hmark, if_true]
      by_cases hk : k = oldest
      · subst hk
        rw [AList.lookup_erase, if_neg hnot]
      · rw [AList.lookup_erase_ne hk, h.marks, htake]
        simp [hk]
  · rw [if_neg hfull]
    have hshort : log.take (capacity n - 1) = log.take (capacity n) := by
      have hlength : log.length ≤ capacity n - 1 := by
        rw [List.length_take] at hfull
        unfold capacity at hfull ⊢
        omega
      rw [List.take_of_length_le hlength, List.take_of_length_le (by omega)]
    rw [hshort]
    exact ⟨h.size, h.queue, h.marks⟩

theorem Holds.add (h : Holds d n log) (hlog : Entered (capacity n) log)
    (hkey : key ∉ log.take (capacity n)) : Holds (d.add key) n (key :: log) := by
  have hnone : d.keySet.lookup key = none := by rw [h.marks, if_neg hkey]
  have hcounted : Holds { d with stats := { d.stats with totalEvents := d.stats.totalEvents + 1 } }
      n log := ⟨h.size, h.queue, h.marks⟩
  obtain ⟨hsize, hqueue, hmarks⟩ := hcounted.room hlog _ rfl
  have htake : (key :: log).take (capacity n) = key :: log.take (capacity n - 1) := by
    obtain ⟨c, hc⟩ := Nat.exists_eq_succ_of_ne_zero (capacity_pos n).ne'
    rw [hc, List.take_succ_cons, Nat.succ_sub_one]
  simp only [EventDeduplicator.add, hnone]
  refine ⟨hsize, ?_, fun k => ?_⟩
  · rw [htake, hqueue, List.reverse_cons]
  · rw [htake]
    by_cases hk : k = key
    · subst hk
      simp
    · rw [AList.lookup_insert_ne hk, hmarks]
      simp [hk]

/-! ## Two deduplication loops -/

/-- The task whose events are watched, and the other one. -/
inductive Side where
  | own
  | other
  deriving DecidableEq

/-- A task's loop over the events of its batches. -/
structure Loop where
  todo : List Event
  /-- the event that has been found to be new and is not marked yet -/
  marking : Option Event
  handled : List Event
  /-- the events that go into a `ProcessEvents` command -/
  sent : List Event

def Loop.start (events : List Event) : Loop := ⟨events, none, [], []⟩

/-- One operation of the loop on the deduplicator. -/
def Loop.step (t : Loop) (d : EventDeduplicator) : Option (Loop × EventDeduplicator) :=
  match t.marking with
  | some e =>
    some (⟨t.todo, none, t.handled ++ [e], t.sent ++ [e]⟩, d.add (createDedupKeyFromEvent e))
  | none =>
    match t.todo with
    | [] => none
    | e :: todo =>
      if d.contains (createDedupKeyFromEvent e) then
        some (⟨todo, none, t.handled ++ [e], t.sent⟩, d)
      else some (⟨todo, some e, t.handled, t.sent⟩, d)

/-- What is left of the program of a loop. -/
def Loop.program (cfg : AtLeastOnceConfig) (t : Loop) : TaskProg (List Event) :=
  match t.marking with
  | some e => do
    Env.deduplicatorAdd (createDedupKeyFromEvent e)
    let rest ← PipelineOrchestrator.deduplicate cfg t.todo
    pure (t.sent ++ [e] ++ rest)
  | none => do
    let rest ← PipelineOrchestrator.deduplicate cfg t.todo
    pure (t.sent ++ rest)

section

variable {cfg : AtLeastOnceConfig}

theorem program_eq {t : Loop} (hmarking : t.marking = none) : t.program cfg =
    (PipelineOrchestrator.deduplicate cfg t.todo).bind fun rest => pure (t.sent ++ rest) := by
  unfold Loop.program
  rw [hmarking]
  rfl

theorem program_marking {t : Loop} {e : Event} (hmarking : t.marking = some e) : t.program cfg =
    .act (.deduplicatorAdd (createDedupKeyFromEvent e)) fun _ =>
      (PipelineOrchestrator.deduplicate cfg t.todo).bind fun rest =>
        pure (t.sent ++ [e] ++ rest) := by
  unfold Loop.program
  rw [hmarking]
  rfl

/-- The head of the loop, in a manager that is enabled. -/
theorem deduplicate_cons (henabled : cfg.enabled = true) (e : Event) (es : List Event) :
    PipelineOrchestrator.deduplicate cfg (e :: es) =
      .act (.deduplicatorContains (createDedupKeyFromEvent e)) fun duplicate =>
        if duplicate then PipelineOrchestrator.deduplicate cfg es
        else .act (.deduplicatorAdd (createDedupKeyFromEvent e)) fun _ =>
          (PipelineOrchestrator.deduplicate cfg es).bind fun rest => pure (e :: rest) := by
  simp only [PipelineOrchestrator.deduplicate, AtLeastOnceManager.isDuplicate,
    AtLeastOnceManager.markProcessed, henabled, not_true_eq_false, if_false]
  rfl

/-- **A step of a loop is one operation of `deduplicate`.** -/
theorem program_step (henabled : cfg.enabled = true) {t t' : Loop} {w : World}
    {d' : EventDeduplicator} (h : t.step w.deduplicator = some (t', d')) (c : Choice) :
    ∃ o k, t.program cfg = .act o k ∧ k (w.exec c o).1 = t'.program cfg ∧
      (w.exec c o).2 = { w with deduplicator := d' } := by
  unfold Loop.step at h
  cases hmarking : t.marking with
  | some e =>
    simp only [hmarking, Option.some.injEq, Prod.mk.injEq] at h
    obtain ⟨rfl, rfl⟩ := h
    exact ⟨_, _, program_marking hmarking, rfl, rfl⟩
  | none =>
    rw [hmarking] at h
    cases htodo : t.todo with
    | nil =>
      rw [htodo] at h
      cases h
    | cons e todo =>
      rw [program_eq hmarking, htodo, deduplicate_cons henabled]
      simp only [htodo] at h
      refine ⟨_, _, rfl, ?_⟩
      by_cases hseen : w.deduplicator.contains (createDedupKeyFromEvent e) = true
      · simp only [hseen, if_true, Option.some.injEq, Prod.mk.injEq] at h
        obtain ⟨rfl, rfl⟩ := h
        simp only [World.exec, hseen, if_true]
        exact ⟨rfl, trivial⟩
      · simp only [hseen, Bool.false_eq_true, if_false, Option.some.injEq, Prod.mk.injEq] at h
        obtain ⟨rfl, rfl⟩ := h
        simp only [World.exec, hseen, Bool.false_eq_true, if_false]
        refine ⟨?_, trivial⟩
        rw [program_marking rfl]
        simp only [Prog.bind, Prog.bind_assoc]
        simp [Prog.bind]

end

structure State where
  window : EventDeduplicator
  task : Side → Loop

/-- The operations of the two loops in any order, on a new window. -/
def machine (windowSize : Nat) (events : Side → List Event) : Machine State Side :=
  .ofFn ⟨.new windowSize, fun side => .start (events side)⟩ fun s side =>
    ((s.task side).step s.window).map fun r => ⟨r.2, Function.update s.task side r.1⟩

/-- The events of the two tasks -/
def events (own other : List Event) : Side → List Event
  | .own => own
  | .other => other

/-! ## What a task sends of its own accord -/

abbrev keyOf : Event → DeduplicationKey := createDedupKeyFromEvent

/-- What of these events a task sends when it has the window to itself, newest first. -/
abbrev sentAlone (n : Nat) (es : List Event) : List Event := accepted keyOf (capacity n) es

theorem sentAlone_seen {es : List Event} {e : Event}
    (h : keyOf e ∈ ((sentAlone n es).map keyOf).take (capacity n)) :
    sentAlone n (es ++ [e]) = sentAlone n es := by
  rw [sentAlone, accepted_concat, accept, if_pos h]

theorem sentAlone_new {es : List Event} {e : Event}
    (h : keyOf e ∉ ((sentAlone n es).map keyOf).take (capacity n)) :
    sentAlone n (es ++ [e]) = e :: sentAlone n es := by
  rw [sentAlone, accepted_concat, accept, if_neg h]

/-- Every run of the first task sends what it would send alone. -/
def Undisturbed (n : Nat) (own other : List Event) : Prop :=
  ∀ s, (machine n (events own other)).Reachable s →
    (s.task .own).sent = (sentAlone n (s.task .own).handled).reverse

/-- The number of keys the events have -/
def keyCount (es : List Event) : Nat := (es.map keyOf).toFinset.card

/-- No key in common, and where an event repeats a key that its own task has left in the window, the
window has room for the keys of the other task as well. -/
structure Separate (n : Nat) (own other : List Event) : Prop where
  disjoint : ∀ e ∈ own, ∀ e' ∈ other, keyOf e ≠ keyOf e'
  room : ∀ before e after, own = before ++ e :: after →
    keyOf e ∈ ((sentAlone n before).map keyOf).take (capacity n) →
      keyOf e ∈ ((sentAlone n before).map keyOf).take (capacity n - keyCount other)

/-! ## Separate tasks do not disturb each other -/

/-- The window as a log of both tasks, in which the own task's keys are what it would have entered
alone. -/
structure Inv (n : Nat) (own other : List Event) (log : List DeduplicationKey) (s : State) :
    Prop where
  holds : Holds s.window n log
  entered : Entered (capacity n) log
  parts : log.filter (· ∈ own.map keyOf) = (sentAlone n (s.task .own).handled).map keyOf
  others : ∀ key ∈ log, key ∉ own.map keyOf → key ∈ other.map keyOf
  sent : (s.task .own).sent = (sentAlone n (s.task .own).handled).reverse
  fresh : ∀ side e, (s.task side).marking = some e → keyOf e ∉ log.take (capacity n)

section

variable {own other : List Event} {s s' : State} {side : Side}

theorem Inv.init : Inv n own other []
    ⟨.new n, fun side => .start (events own other side)⟩ where
  holds := .new n
  entered := .nil
  parts := rfl
  others _ h := by cases h
  sent := rfl
  fresh _ _ h := by cases h

/-- A step of a loop, by what it does. -/
inductive Step (s : State) (side : Side) : State → Prop
  | mark (e : Event) (h : (s.task side).marking = some e) :
    Step s side ⟨s.window.add (keyOf e), Function.update s.task side
      ⟨(s.task side).todo, none, (s.task side).handled ++ [e], (s.task side).sent ++ [e]⟩⟩
  | skip (e : Event) (todo : List Event) (h : (s.task side).marking = none)
    (htodo : (s.task side).todo = e :: todo) (hseen : s.window.contains (keyOf e) = true) :
    Step s side ⟨s.window, Function.update s.task side
      ⟨todo, none, (s.task side).handled ++ [e], (s.task side).sent⟩⟩
  | check (e : Event) (todo : List Event) (h : (s.task side).marking = none)
    (htodo : (s.task side).todo = e :: todo) (hnew : ¬ s.window.contains (keyOf e) = true) :
    Step s side ⟨s.window, Function.update s.task side
      ⟨todo, some e, (s.task side).handled, (s.task side).sent⟩⟩

theorem step_iff : (machine n (events own other)).step s side s' ↔ Step s side s' := by
  simp only [machine, Machine.ofFn, Loop.step, Option.map_eq_some_iff]
  constructor
  · rintro ⟨r, hr, rfl⟩
    cases hmarking : (s.task side).marking with
    | some e =>
      simp only [hmarking, Option.some.injEq] at hr
      subst hr
      exact .mark e hmarking
    | none =>
      cases htodo : (s.task side).todo with
      | nil => simp [hmarking, htodo] at hr
      | cons e todo =>
        simp only [hmarking, htodo] at hr
        split at hr
        · next hseen =>
          obtain rfl := Option.some.inj hr
          exact .skip e todo hmarking htodo hseen
        · next hnew =>
          obtain rfl := Option.some.inj hr
          exact .check e todo hmarking htodo hnew
  · intro h
    cases h with
    | mark e h => exact ⟨_, by rw [h], rfl⟩
    | skip e todo h htodo hseen =>
      refine ⟨(⟨todo, none, (s.task side).handled ++ [e], (s.task side).sent⟩, s.window), ?_, rfl⟩
      simp only [h, htodo, hseen, if_true]
    | check e todo h htodo hnew =>
      refine ⟨(⟨todo, some e, (s.task side).handled, (s.task side).sent⟩, s.window), ?_, rfl⟩
      simp only [h, htodo, hnew]
      rfl

/-- Each loop has its events in front of it, between check and mark, or behind it. -/
def Split (own other : List Event) (s : State) : Prop :=
  ∀ side, (s.task side).handled ++ ((s.task side).marking.toList ++ (s.task side).todo) =
    events own other side

theorem Split.step (h : Split own other s) (hs : Step s side s') : Split own other s' := by
  intro side'
  have hside := h side'
  cases hs with
  | mark e hm =>
    by_cases heq : side' = side
    · subst heq
      simpa [hm] using hside
    · simpa [heq] using hside
  | skip e todo hm htodo hseen =>
    by_cases heq : side' = side
    · subst heq
      simpa [hm, htodo] using hside
    · simpa [heq] using hside
  | check e todo hm htodo hnew =>
    by_cases heq : side' = side
    · subst heq
      simpa [hm, htodo] using hside
    · simpa [heq] using hside

theorem reachable_split (h : (machine n (events own other)).Reachable s) : Split own other s := by
  refine h.invariant ?_ fun s side s' hi hs => hi.step (step_iff.mp hs)
  rintro s rfl side
  rfl

theorem Split.mem_own (h : Split own other s) {e : Event}
    (he : e ∈ (s.task .own).marking.toList ++ (s.task .own).todo) : e ∈ own := by
  have hsplit : _ = own := h .own
  rw [← hsplit]
  exact List.mem_append_right _ he

theorem Split.mem_other (h : Split own other s) {e : Event}
    (he : e ∈ (s.task .other).marking.toList ++ (s.task .other).todo) : e ∈ other := by
  have hsplit : _ = other := h .other
  rw [← hsplit]
  exact List.mem_append_right _ he

/-- What the own task finds in the window is what it would find there alone. -/
theorem Inv.seen_iff {log : List DeduplicationKey} (h : Inv n own other log s)
    (hsep : Separate n own other) {e : Event} {rest : List Event}
    (hown : own = (s.task .own).handled ++ e :: rest) :
    keyOf e ∈ log.take (capacity n) ↔
      keyOf e ∈ ((sentAlone n (s.task .own).handled).map keyOf).take (capacity n) := by
  have hmem : decide (keyOf e ∈ own.map keyOf) = true := by
    rw [hown]
    simp
  rw [← h.parts]
  constructor
  · exact mem_take_filter hmem
  · intro halone
    rw [h.parts] at halone
    have hroom := hsep.room _ e rest hown halone
    rw [← h.parts] at hroom
    refine mem_take_of_filter h.entered (fun key hkey hnot => ?_) hmem hroom
    exact List.mem_toFinset.mpr (h.others key hkey (by simpa using hnot))

theorem mem_take_cons {k x : DeduplicationKey} (h : x ∈ (k :: log).take (capacity n)) :
    x = k ∨ x ∈ log.take (capacity n) := by
  obtain ⟨c, hc⟩ := Nat.exists_eq_succ_of_ne_zero (capacity_pos n).ne'
  rw [hc, List.take_succ_cons, List.mem_cons] at h
  exact h.imp_right fun h => List.take_subset_take_left _ (by omega) h

theorem Inv.mark_own (h : Inv n own other log s) (hsplit : Split own other s)
    (hsep : Separate n own other) {e : Event}
    (hm : (s.task .own).marking = some e) (hwindow : s'.window = s.window.add (keyOf e))
    (hown : s'.task .own = ⟨(s.task .own).todo, none, (s.task .own).handled ++ [e],
      (s.task .own).sent ++ [e]⟩)
    (hother : s'.task .other = s.task .other) : Inv n own other (keyOf e :: log) s' := by
  have hfresh := h.fresh .own e hm
  have hmem : e ∈ own := hsplit.mem_own (by simp [hm])
  have hevents : own = (s.task .own).handled ++ e :: (s.task .own).todo := by
    have hevents : _ = own := hsplit .own
    rw [← hevents, hm]
    rfl
  have haccept : sentAlone n ((s.task .own).handled ++ [e]) =
      e :: sentAlone n (s.task .own).handled :=
    sentAlone_new fun halone => hfresh ((h.seen_iff hsep hevents).mpr halone)
  refine ⟨hwindow ▸ h.holds.add h.entered hfresh, .cons h.entered hfresh, ?_, ?_, ?_, ?_⟩
  · rw [hown, haccept, List.filter_cons_of_pos (by simpa using ⟨e, hmem, rfl⟩), h.parts]
    rfl
  · intro key hkey hnot
    rcases List.mem_cons.mp hkey with rfl | hkey
    · exact absurd (List.mem_map_of_mem hmem) hnot
    · exact h.others key hkey hnot
  · rw [hown, haccept, h.sent, List.reverse_cons]
  · intro side e' hm'
    -- the own task has nothing left to mark; the other task marks a key of its own
    cases side with
    | own =>
      rw [hown] at hm'
      cases hm'
    | other =>
      rw [hother] at hm'
      intro hkey
      rcases mem_take_cons hkey with heq | hkey
      · exact hsep.disjoint e hmem e' (hsplit.mem_other (by simp [hm'])) heq.symm
      · exact h.fresh .other e' hm' hkey

theorem Inv.mark_other (h : Inv n own other log s) (hsplit : Split own other s)
    (hsep : Separate n own other) {e : Event}
    (hm : (s.task .other).marking = some e) (hwindow : s'.window = s.window.add (keyOf e))
    (hown : s'.task .own = s.task .own)
    (hother : s'.task .other = ⟨(s.task .other).todo, none, (s.task .other).handled ++ [e],
      (s.task .other).sent ++ [e]⟩) : Inv n own other (keyOf e :: log) s' := by
  have hfresh := h.fresh .other e hm
  have hmem : e ∈ other := hsplit.mem_other (by simp [hm])
  have hnot : keyOf e ∉ own.map keyOf := by
    intro hkey
    obtain ⟨e', he', heq⟩ := List.mem_map.mp hkey
    exact hsep.disjoint e' he' e hmem heq
  refine ⟨hwindow ▸ h.holds.add h.entered hfresh, .cons h.entered hfresh, ?_, ?_, ?_, ?_⟩
  · rw [hown, List.filter_cons_of_neg (by simpa using hnot), h.parts]
  · intro key hkey hkeynot
    rcases List.mem_cons.mp hkey with rfl | hkey
    · exact List.mem_map_of_mem hmem
    · exact h.others key hkey hkeynot
  · rw [hown]
    exact h.sent
  · intro side e' hm'
    cases side with
    | own =>
      rw [hown] at hm'
      intro hkey
      rcases mem_take_cons hkey with heq | hkey
      · exact hsep.disjoint e' (hsplit.mem_own (by simp [hm'])) e hmem heq
      · exact h.fresh .own e' hm' hkey
    | other =>
      rw [hother] at hm'
      cases hm'

/-- A step that leaves the window alone -/
theorem Inv.quiet (h : Inv n own other log s) (hwindow : s'.window = s.window)
    (hsent : (s'.task .own).sent = (s.task .own).sent)
    (halone : sentAlone n (s'.task .own).handled = sentAlone n (s.task .own).handled)
    (hfresh : ∀ side e, (s'.task side).marking = some e → keyOf e ∉ log.take (capacity n)) :
    Inv n own other log s' :=
  ⟨hwindow ▸ h.holds, h.entered, by rw [halone, h.parts], h.others, by rw [hsent, halone, h.sent],
    hfresh⟩

theorem Inv.fresh_update (h : Inv n own other log s) (side side' : Side) (e : Event) {t : Loop}
    (ht : ∀ e, t.marking = some e → keyOf e ∉ log.take (capacity n))
    (hm : (Function.update s.task side t side').marking = some e) :
    keyOf e ∉ log.take (capacity n) := by
  by_cases hside : side' = side
  · subst hside
    rw [Function.update_self] at hm
    exact ht e hm
  · rw [Function.update_of_ne hside] at hm
    exact h.fresh side' e hm

/-- An event whose key is in the window is dropped, as it would be by the task alone. -/
theorem Inv.skip (h : Inv n own other log s) (hsplit : Split own other s)
    (hsep : Separate n own other) {e : Event} {todo : List Event}
    (hm : (s.task side).marking = none) (htodo : (s.task side).todo = e :: todo)
    (hseen : s.window.contains (keyOf e) = true) :
    Inv n own other log ⟨s.window, Function.update s.task side
      ⟨todo, none, (s.task side).handled ++ [e], (s.task side).sent⟩⟩ := by
  have hevents := hsplit side
  rw [hm, htodo] at hevents
  have hfresh : ∀ side' e', _ := fun side' e' => h.fresh_update side side' e'
    (t := ⟨todo, none, (s.task side).handled ++ [e], (s.task side).sent⟩) (by simp)
  cases side with
  | other => exact h.quiet rfl rfl rfl hfresh
  | own =>
    refine h.quiet rfl rfl ?_ hfresh
    simp only [Function.update_self]
    exact sentAlone_seen ((h.seen_iff hsep hevents.symm).mp ((h.holds.contains _).mp hseen))

/-- An event whose key is not in the window is going to be marked. -/
theorem Inv.check (h : Inv n own other log s) {e : Event} {todo : List Event}
    (hnew : ¬ s.window.contains (keyOf e) = true) :
    Inv n own other log ⟨s.window, Function.update s.task side
      ⟨todo, some e, (s.task side).handled, (s.task side).sent⟩⟩ := by
  have hfree : keyOf e ∉ log.take (capacity n) := fun hmem => hnew ((h.holds.contains _).mpr hmem)
  refine h.quiet rfl ?_ ?_ fun side' e' => h.fresh_update side side' e' fun e' he' => ?_
  · cases side <;> simp
  · cases side <;> simp
  · obtain rfl := Option.some.inj he'
    exact hfree

theorem Inv.step (h : Inv n own other log s) (hsplit : Split own other s)
    (hsep : Separate n own other) (hs : Step s side s') : ∃ log, Inv n own other log s' := by
  cases hs with
  | mark e hm =>
    cases side with
    | own => exact ⟨_, h.mark_own hsplit hsep hm rfl (by simp) (by simp)⟩
    | other => exact ⟨_, h.mark_other hsplit hsep hm rfl (by simp) (by simp)⟩
  | skip e todo hm htodo hseen => exact ⟨log, h.skip hsplit hsep hm htodo hseen⟩
  | check e todo hm htodo hnew => exact ⟨log, h.check hnew⟩

theorem Separate.undisturbed (hsep : Separate n own other) : Undisturbed n own other := by
  intro s hs
  have hinv : ∃ log, Inv n own other log s := by
    refine hs.invariant_using (I := fun s => ∃ log, Inv n own other log s)
      (fun _ h => reachable_split h) ?_ ?_
    · rintro s rfl
      exact ⟨[], .init⟩
    · rintro s side s' hsplit ⟨log, h⟩ hs'
      exact h.step hsplit hsep (step_iff.mp hs')
  obtain ⟨log, h⟩ := hinv
  exact h.sent

/-! ## A run with one task at a time -/

/-- No event is between its check and its mark, and the window is filled as the log says. -/
structure Resting (n : Nat) (log : List DeduplicationKey) (s : State) : Prop where
  holds : Holds s.window n log
  entered : Entered (capacity n) log

theorem handle_seen (hs : (machine n (events own other)).Reachable s) (h : Resting n log s)
    {e : Event} {todo handled sent : List Event}
    (htask : s.task side = ⟨e :: todo, none, handled, sent⟩)
    (hseen : keyOf e ∈ log.take (capacity n)) :
    ∃ s', (machine n (events own other)).Reachable s' ∧ Resting n log s' ∧
      (∀ side', side' ≠ side → s'.task side' = s.task side') ∧
      s'.task side = ⟨todo, none, handled ++ [e], sent⟩ := by
  have hstep : Step s side _ :=
    .skip e todo (by rw [htask]) (by rw [htask]) ((h.holds.contains _).mpr hseen)
  refine ⟨_, hs.step (step_iff.mpr hstep), ⟨h.holds, h.entered⟩, fun side' hne => ?_, ?_⟩
  · simp [hne]
  · simp [htask]

theorem handle_new (hs : (machine n (events own other)).Reachable s) (h : Resting n log s)
    {e : Event} {todo handled sent : List Event}
    (htask : s.task side = ⟨e :: todo, none, handled, sent⟩)
    (hnew : keyOf e ∉ log.take (capacity n)) :
    ∃ s', (machine n (events own other)).Reachable s' ∧ Resting n (keyOf e :: log) s' ∧
      (∀ side', side' ≠ side → s'.task side' = s.task side') ∧
      s'.task side = ⟨todo, none, handled ++ [e], sent ++ [e]⟩ := by
  have hcheck : Step s side _ := .check e todo (by rw [htask]) (by rw [htask])
    fun hseen => hnew ((h.holds.contains _).mp hseen)
  have hmark : Step _ side _ := .mark e
    (s := ⟨s.window, Function.update s.task side
      ⟨todo, some e, (s.task side).handled, (s.task side).sent⟩⟩) (by simp)
  refine ⟨_, (hs.step (step_iff.mpr hcheck)).step (step_iff.mpr hmark),
    ⟨h.holds.add h.entered hnew, .cons h.entered hnew⟩, fun side' hne => ?_, ?_⟩
  · simp [hne]
  · simp [htask]

/-- One task handles events while the other one rests. -/
theorem handle_all (es : List Event) (hs : (machine n (events own other)).Reachable s)
    (h : Resting n log s) {todo handled sent : List Event}
    (htask : s.task side = ⟨es ++ todo, none, handled, sent⟩) :
    ∃ s' new, (machine n (events own other)).Reachable s' ∧
      Resting n ((new.map keyOf).reverse ++ log) s' ∧
      (∀ side', side' ≠ side → s'.task side' = s.task side') ∧
      s'.task side = ⟨todo, none, handled ++ es, sent ++ new⟩ ∧ new ⊆ es ∧
      (∀ e ∈ es, keyOf e ∈ (new.map keyOf).reverse ++ log) ∧
      ∀ entries, log = entries.map keyOf →
        new.reverse ++ entries = es.foldl (accept keyOf (capacity n)) entries := by
  induction es generalizing s log handled sent with
  | nil =>
    exact ⟨s, [], hs, h, fun _ _ => rfl, by simpa using htask, by simp, by simp, fun _ _ => rfl⟩
  | cons e es ih =>
    -- the loop takes its events one by one, and what the window has seen is not sent
    by_cases hseen : keyOf e ∈ log.take (capacity n)
    · obtain ⟨s₁, hs₁, h₁, hrest₁, htask₁⟩ := handle_seen hs h htask hseen
      obtain ⟨s₂, new, hs₂, h₂, hrest₂, htask₂, hnew, hkeys, halone⟩ := ih hs₁ h₁ htask₁
      refine ⟨s₂, new, hs₂, h₂, fun side' hne => ?_, by simpa using htask₂,
        fun x hx => List.mem_cons_of_mem _ (hnew hx), fun x hx => ?_, fun entries hentries => ?_⟩
      · rw [hrest₂ side' hne, hrest₁ side' hne]
      · rcases List.mem_cons.mp hx with rfl | hx
        · exact List.mem_append_right _ (List.mem_of_mem_take hseen)
        · exact hkeys x hx
      · rw [halone entries hentries, List.foldl_cons, accept, if_pos (hentries ▸ hseen)]
    · obtain ⟨s₁, hs₁, h₁, hrest₁, htask₁⟩ := handle_new hs h htask hseen
      obtain ⟨s₂, new, hs₂, h₂, hrest₂, htask₂, hnew, hkeys, halone⟩ := ih hs₁ h₁ htask₁
      have hlog : ((e :: new).map keyOf).reverse ++ log =
          (new.map keyOf).reverse ++ keyOf e :: log := by simp
      refine ⟨s₂, e :: new, hs₂, hlog ▸ h₂, fun side' hne => ?_, by simpa using htask₂, ?_,
        fun x hx => ?_, fun entries hentries => ?_⟩
      · rw [hrest₂ side' hne, hrest₁ side' hne]
      · exact List.cons_subset_cons _ hnew
      · rw [hlog]
        rcases List.mem_cons.mp hx with rfl | hx
        · simp
        · exact hkeys x hx
      · rw [List.foldl_cons, accept, if_neg (hentries ▸ hseen),
          ← halone (e :: entries) (by simp [hentries])]
        simp

theorem reachable_start : (machine n (events own other)).Reachable
    ⟨.new n, fun side => .start (events own other side)⟩ := .init rfl

/-- The own task handles its first events before the other one does anything. -/
theorem handle_own (other : List Event) {before after : List Event} (hown : own = before ++ after) :
    ∃ s, (machine n (events own other)).Reachable s ∧
      Resting n ((sentAlone n before).map keyOf) s ∧ s.task .other = .start other ∧
      s.task .own = ⟨after, none, before, (sentAlone n before).reverse⟩ := by
  have hstart : Loop.start (events own other .own) = ⟨before ++ after, none, [], []⟩ := by
    rw [← hown]
    rfl
  obtain ⟨s, new, hs, h, hrest, htask, -, -, halone⟩ :=
    handle_all before reachable_start ⟨.new n, .nil⟩ hstart
  have hnew : new.reverse = sentAlone n before := by simpa [accepted] using halone [] rfl
  rw [← List.map_reverse, hnew, List.append_nil] at h
  refine ⟨s, hs, h, hrest .other (by simp), ?_⟩
  rw [htask, ← hnew]
  simp

/-! ## Tasks that are not separate disturb each other -/

/-- The first event with a key. -/
theorem exists_first {es : List Event} {key : DeduplicationKey} (h : key ∈ es.map keyOf) :
    ∃ before e after, es = before ++ e :: after ∧ keyOf e = key ∧ key ∉ before.map keyOf := by
  obtain ⟨before, after, hmap, hbefore⟩ := List.eq_append_cons_of_mem h
  obtain ⟨front, back, rfl, rfl, hback⟩ := List.map_eq_append_iff.mp hmap
  obtain ⟨e, rest, rfl, hkey, -⟩ := List.map_eq_cons_iff.mp hback
  exact ⟨front, e, rest, rfl, hkey, hbefore⟩

/-- Events that have all keys of the others are at least as many as those keys. -/
theorem keyCount_le {es new : List Event} (h : ∀ e ∈ es, keyOf e ∈ new.map keyOf) :
    keyCount es ≤ new.length := by
  have hsubset : (es.map keyOf).toFinset ⊆ (new.map keyOf).toFinset := by
    intro key hkey
    obtain ⟨e, he, rfl⟩ := List.mem_map.mp (List.mem_toFinset.mp hkey)
    exact List.mem_toFinset.mpr (h e he)
  have hcard := (Finset.card_le_card hsubset).trans (List.toFinset_card_le (new.map keyOf))
  rwa [List.length_map] at hcard

theorem Undisturbed.disjoint (h : Undisturbed n own other) :
    ∀ e ∈ own, ∀ e' ∈ other, keyOf e ≠ keyOf e' := by
  intro x hx y hy hxy
  -- the first event that has a key in common with the other task
  obtain ⟨e, hfind⟩ : ∃ e, own.find? (fun e => decide (keyOf e ∈ other.map keyOf)) = some e := by
    rw [← Option.isSome_iff_exists, List.find?_isSome]
    exact ⟨x, hx, by simpa using ⟨y, hy, hxy.symm⟩⟩
  rw [List.find?_eq_some_iff_append] at hfind
  obtain ⟨hkey, before, after, hown, hbefore⟩ := hfind
  simp only [decide_eq_true_eq, Bool.not_eq_true', decide_eq_false_iff_not] at hkey hbefore
  -- the other task handles its events just before, and then the key is in the window
  obtain ⟨s₁, hs₁, hrest₁, hother₁, hown₁⟩ := handle_own (n := n) other hown
  obtain ⟨before', e', after', hsplit', hkey', hbefore'⟩ := exists_first hkey
  have hstart : s₁.task .other = ⟨before' ++ e' :: after', none, [], []⟩ := by
    rw [hother₁, hsplit']
    rfl
  have hfresh : keyOf e ∉ (sentAlone n before).map keyOf := by
    intro hmem
    obtain ⟨x, hx, hxe⟩ := List.mem_map.mp hmem
    exact hbefore x (mem_of_mem_accepted hx) (hxe ▸ hkey)
  obtain ⟨s₂, new, hs₂, hrest₂, hsame₂, hother₂, hnew, -⟩ := handle_all before' hs₁ hrest₁ hstart
  obtain ⟨s₃, hs₃, hrest₃, hsame₃, -⟩ := handle_new hs₂ hrest₂ hother₂ (by
    intro hmem
    rw [hkey'] at hmem
    rcases List.mem_append.mp (List.mem_of_mem_take hmem) with hmem | hmem
    · exact hbefore' (List.map_subset keyOf hnew (List.mem_reverse.mp hmem))
    · exact hfresh hmem)
  have hown₃ : s₃.task .own = ⟨e :: after, none, before, (sentAlone n before).reverse⟩ := by
    rw [hsame₃ .own (by simp), hsame₂ .own (by simp), hown₁]
  have hseen : keyOf e ∈ (keyOf e' :: ((new.map keyOf).reverse ++
      (sentAlone n before).map keyOf)).take (capacity n) := by
    obtain ⟨c, hc⟩ := Nat.exists_eq_succ_of_ne_zero (capacity_pos n).ne'
    rw [hc, List.take_succ_cons, hkey']
    exact List.mem_cons_self
  obtain ⟨s₄, hs₄, -, -, hown₄⟩ := handle_seen hs₃ hrest₃ hown₃ hseen
  have hsent := h s₄ hs₄
  simp only [hown₄] at hsent
  rw [sentAlone_new fun hmem => hfresh (List.mem_of_mem_take hmem)] at hsent
  simpa using congrArg List.length hsent

theorem Undisturbed.room (h : Undisturbed n own other) {before after : List Event} {e : Event}
    (hown : own = before ++ e :: after)
    (hseen : keyOf e ∈ ((sentAlone n before).map keyOf).take (capacity n)) :
    keyOf e ∈ ((sentAlone n before).map keyOf).take (capacity n - keyCount other) := by
  by_contra hroom
  -- the entry of the key, and what has come after it
  obtain ⟨newer, first, older, haccepted, hfirst, hnot⟩ := exists_first (List.mem_of_mem_take hseen)
  have hlong : capacity n ≤ newer.length + keyCount other := by
    rw [haccepted, List.map_append, List.map_cons, hfirst, mem_take_iff hnot, List.length_map]
      at hroom
    omega
  obtain ⟨start, rest, rfl, holder, hfresh⟩ := accepted_split haccepted
  have hentry : sentAlone n (start ++ [first]) = first :: older := by
    rw [sentAlone_new (by rw [sentAlone, holder]; exact hfresh), sentAlone, holder]
  -- the other task handles all its events right after the key has entered
  have hown' : own = (start ++ [first]) ++ (rest ++ e :: after) := by simp [hown]
  obtain ⟨s₁, hs₁, hrest₁, hother₁, hown₁⟩ := handle_own (n := n) other hown'
  have hstart : s₁.task .other = ⟨other ++ [], none, [], []⟩ := by
    rw [hother₁, List.append_nil]
    rfl
  obtain ⟨s₂, new, hs₂, hrest₂, hsame₂, -, hnew, hkeys, -⟩ := handle_all other hs₁ hrest₁ hstart
  have hown₂ := (hsame₂ .own (by simp)).trans hown₁
  obtain ⟨s₃, new', hs₃, hrest₃, -, hown₃, -⟩ := handle_all rest hs₂ hrest₂ hown₂
  -- the own task has gone on as it would alone
  have hnew' : new' = newer.reverse := by
    have hsent := h s₃ hs₃
    simp only [hown₃] at hsent
    rw [hentry, List.append_assoc, List.singleton_append, haccepted, List.reverse_append] at hsent
    exact List.append_cancel_left hsent
  have hdisjoint := h.disjoint
  have hgone : keyOf e ∉ newer.map keyOf ++ (new.map keyOf).reverse := by
    intro hmem
    rcases List.mem_append.mp hmem with hmem | hmem
    · exact hnot hmem
    · obtain ⟨x, hx, hxe⟩ := List.mem_map.mp (List.mem_reverse.mp hmem)
      exact hdisjoint e (by simp [hown]) x (hnew hx) hxe.symm
  have hcount : keyCount other ≤ new.length := by
    refine keyCount_le fun x hx => ?_
    rcases List.mem_append.mp (hkeys x hx) with hmem | hmem
    · exact List.mem_reverse.mp hmem
    · obtain ⟨y, hy, hyx⟩ := List.mem_map.mp hmem
      have hyown : y ∈ own := by
        rw [hown']
        exact List.mem_append_left _ (mem_of_mem_accepted hy)
      exact absurd hyx (hdisjoint y hyown x hx)
  have hlog : (new'.map keyOf).reverse ++ ((new.map keyOf).reverse ++
      (sentAlone n (start ++ [first])).map keyOf) =
      (newer.map keyOf ++ (new.map keyOf).reverse) ++ keyOf e :: older.map keyOf := by
    rw [hentry, hnew']
    simp [hfirst]
  rw [hlog] at hrest₃
  have houtside : keyOf e ∉ ((newer.map keyOf ++ (new.map keyOf).reverse) ++
      keyOf e :: older.map keyOf).take (capacity n) := by
    rw [mem_take_iff hgone]
    simp only [List.length_append, List.length_map, List.length_reverse]
    omega
  obtain ⟨s₄, hs₄, -, -, hown₄⟩ := handle_new hs₃ hrest₃ hown₃ houtside
  have hsent₃ := h s₃ hs₃
  have hsent₄ := h s₄ hs₄
  simp only [hown₃] at hsent₃
  simp only [hown₄, hsent₃] at hsent₄
  rw [List.append_assoc start, List.singleton_append, sentAlone_seen hseen] at hsent₄
  simpa using congrArg List.length hsent₄

theorem undisturbed_iff : Undisturbed n own other ↔ Separate n own other :=
  ⟨fun h => ⟨h.disjoint, fun _ _ _ hown => h.room hown⟩, Separate.undisturbed⟩

/-! ## The two-run statement -/

/-- Runs with different events of the other task send the same events of the own task, as far as
they have handled the same. -/
def Independent (n : Nat) (own other other' : List Event) : Prop :=
  ∀ s s', (machine n (events own other)).Reachable s →
    (machine n (events own other')).Reachable s' →
    (s.task .own).handled = (s'.task .own).handled → (s.task .own).sent = (s'.task .own).sent

theorem Independent.symm {other' : List Event} (h : Independent n own other other') :
    Independent n own other' other :=
  fun s s' hs hs' heq => (h s' s hs' hs heq.symm).symm

theorem Independent.undisturbed {other' : List Event} (h : Independent n own other other') :
    Undisturbed n own other := by
  intro s hs
  have hsplit : _ = own := reachable_split hs .own
  obtain ⟨s', hs', -, -, hown'⟩ := handle_own (n := n) other' hsplit.symm
  rw [h s s' hs hs' (by rw [hown']), hown']

/-- **Whether a task's events are sent is independent of the other task's events exactly when the
tasks are separate** in both runs. -/
theorem dedup_independent_iff (n : Nat) (own other other' : List Event) :
    Independent n own other other' ↔ Separate n own other ∧ Separate n own other' := by
  rw [← undisturbed_iff, ← undisturbed_iff]
  constructor
  · exact fun h => ⟨h.undisturbed, h.symm.undisturbed⟩
  · rintro ⟨h, h'⟩ s s' hs hs' heq
    rw [h s hs, h' s' hs', heq]

end

/-- A change that is delivered to the task of `books` and to that of `public.books`. -/
def bookEvent : Event :=
  .cdc ⟨.create, "books", "public", [("id", .string "b1")], some (.postgreSQL "0/10")⟩

/-- A task does not send a change that another task has sent before it. -/
theorem dedup_not_always_independent : ¬ ∀ n own other other', Independent n own other other' := by
  intro h
  have hundisturbed := (h 10000 [bookEvent] [bookEvent] []).undisturbed
  exact hundisturbed.disjoint bookEvent List.mem_cons_self bookEvent List.mem_cons_self rfl

end SharedDeduplication

end MeiliBridge
