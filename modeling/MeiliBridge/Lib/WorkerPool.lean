import Mathlib.Algebra.BigOperators.Group.Finset.Basic
import Mathlib.Data.Multiset.Filter
import MeiliBridge.Lib.Trans

/-!
# Workers on one queue

A pool of workers takes items off the front of a queue, makes something of each item or nothing, and
puts what it has made where it is fetched. A worker may hold its items for as long as it likes, so
what is fetched comes in another order than the items did.

`Conserves` is what remains true in any case: nothing is lost and nothing made twice. What is made
for one key comes in order if no worker takes an item for a key that another worker has in hand
(`Apart`); then all that is made for a key is in one line (`InLine`).
-/

set_option autoImplicit false

namespace WorkerPool

open Trans

/-- `entered` records all items that were ever put into the queue. -/
structure Pool (α β : Type) where
  queue : List α
  held : Nat → List α
  ready : List β
  fetched : List β
  entered : List α

inductive Move (α : Type) where
  | put (items : List α)
  | take (worker count : Nat)
  | finish (worker : Nat)
  | fetch (count : Nat)

variable {α β K : Type}

/-- What is made of each item is a matter of the item alone. -/
inductive Step (make : α → Option β) (workers : Nat) : Pool α β → Move α → Pool α β → Prop
  | put {p : Pool α β} {items : List α} :
      Step make workers p (.put items)
        { p with queue := p.queue ++ items, entered := p.entered ++ items }
  | take {p : Pool α β} {worker count : Nat} (hworker : worker < workers)
      (hidle : p.held worker = []) :
      Step make workers p (.take worker count)
        { p with
          queue := p.queue.drop count
          held := Function.update p.held worker (p.queue.take count) }
  | finish {p : Pool α β} {worker : Nat} :
      Step make workers p (.finish worker)
        { p with
          held := Function.update p.held worker []
          ready := p.ready ++ (p.held worker).filterMap make }
  | fetch {p : Pool α β} {count : Nat} :
      Step make workers p (.fetch count)
        { p with ready := p.ready.drop count, fetched := p.fetched ++ p.ready.take count }

def Pool.empty : Pool α β := ⟨[], fun _ => [], [], [], []⟩

/-- A pool that starts empty -/
def machine (make : α → Option β) (workers : Nat) : Machine (Pool α β) (Move α) where
  init p := p = .empty
  step := Step make workers

/-- Everything that was put in has been fetched. -/
structure Pool.Settled (p : Pool α β) : Prop where
  queue : p.queue = []
  held : ∀ worker, p.held worker = []
  ready : p.ready = []

variable {make : α → Option β} {workers : Nat} {p p' : Pool α β} {m : Move α}

/-! ## Nothing is lost -/

/-- What will come of the items that the workers have in hand. -/
def inHands (make : α → Option β) (workers : Nat) (held : Nat → List α) : Multiset β :=
  ∑ i ∈ Finset.range workers, ((held i).filterMap make : Multiset β)

theorem inHands_update (make : α → Option β) (held : Nat → List α) {worker : Nat}
    (hworker : worker < workers) (items : List α) :
    inHands make workers (Function.update held worker items) +
        ((held worker).filterMap make : Multiset β) =
      inHands make workers held + (items.filterMap make : Multiset β) := by
  have hmem : worker ∈ Finset.range workers := Finset.mem_range.mpr hworker
  have hrest : ∑ i ∈ (Finset.range workers).erase worker,
      ((Function.update held worker items i).filterMap make : Multiset β) =
      ∑ i ∈ (Finset.range workers).erase worker, ((held i).filterMap make : Multiset β) := by
    refine Finset.sum_congr rfl fun i hi => ?_
    rw [Function.update_of_ne (Finset.ne_of_mem_erase hi)]
  unfold inHands
  rw [← Finset.add_sum_erase _ _ hmem, ← Finset.add_sum_erase _ _ hmem, hrest,
    Function.update_self]
  ac_rfl

/-- What was fetched, what is ready, and what will come of the items in hand and in the queue, are
together what the items that were put in make. -/
structure Conserves (make : α → Option β) (workers : Nat) (p : Pool α β) : Prop where
  spare : ∀ worker, workers ≤ worker → p.held worker = []
  made : (p.fetched : Multiset β) + p.ready + inHands make workers p.held +
    (p.queue.filterMap make : List β) = (p.entered.filterMap make : List β)

theorem Conserves.empty : Conserves make workers (Pool.empty : Pool α β) := by
  refine ⟨fun _ _ => rfl, ?_⟩
  simp [inHands, Pool.empty]

theorem Conserves.step (h : Conserves make workers p) (hs : Step make workers p m p') :
    Conserves make workers p' := by
  have hmade := h.made
  cases hs with
  | @put items =>
    refine ⟨h.spare, ?_⟩
    show _ + _ + _ + (((p.queue ++ items).filterMap make : List β) : Multiset β) =
      ((p.entered ++ items).filterMap make : List β)
    rw [List.filterMap_append, List.filterMap_append, ← Multiset.coe_add, ← Multiset.coe_add,
      ← hmade]
    ac_rfl
  | @take worker count hworker hidle =>
    have hhands : inHands make workers (Function.update p.held worker (p.queue.take count)) =
        inHands make workers p.held + ((p.queue.take count).filterMap make : List β) := by
      rw [← inHands_update make p.held hworker, hidle]
      exact (add_zero _).symm
    have hqueue : p.queue.filterMap make =
        (p.queue.take count).filterMap make ++ (p.queue.drop count).filterMap make := by
      rw [← List.filterMap_append, List.take_append_drop]
    refine ⟨?_, ?_⟩
    · intro other hother
      show Function.update p.held worker _ other = []
      rw [Function.update_of_ne (by omega)]
      exact h.spare other hother
    · show (p.fetched : Multiset β) + p.ready + inHands make workers _ +
        ((p.queue.drop count).filterMap make : List β) = _
      rw [hhands, ← hmade, hqueue, ← Multiset.coe_add]
      ac_rfl
  | @finish worker =>
    have hmoved : ((p.held worker).filterMap make : Multiset β) +
        inHands make workers (Function.update p.held worker []) = inHands make workers p.held := by
      by_cases hworker : worker < workers
      · have hhands := inHands_update make p.held hworker []
        rw [add_comm]
        simpa using hhands
      · -- there is no such worker
        have hnone := h.spare worker (Nat.le_of_not_lt hworker)
        have hsame : Function.update p.held worker [] = p.held := by
          rw [← hnone, Function.update_eq_self]
        rw [hsame, hnone]
        exact zero_add _
    refine ⟨?_, ?_⟩
    · intro other hother
      show Function.update p.held worker [] other = []
      by_cases hworker : other = worker
      · rw [hworker, Function.update_self]
      · rw [Function.update_of_ne hworker]
        exact h.spare other hother
    · show _ + ((p.ready ++ (p.held worker).filterMap make : List β) : Multiset β) +
        inHands make workers _ + _ = _
      rw [← hmade, ← Multiset.coe_add, ← hmoved]
      ac_rfl
  | @fetch count =>
    refine ⟨h.spare, ?_⟩
    show ((p.fetched ++ p.ready.take count : List β) : Multiset β) + (p.ready.drop count : List β) +
      _ + _ = _
    have hready : (p.ready : Multiset β) =
        (p.ready.take count : List β) + (p.ready.drop count : List β) := by
      rw [Multiset.coe_add, List.take_append_drop]
    rw [← hmade, ← Multiset.coe_add, hready]
    ac_rfl

theorem reachable_conserves (h : (machine make workers).Reachable p) :
    Conserves make workers p := by
  refine h.invariant ?_ fun _ _ _ hi hs => hi.step hs
  rintro p rfl
  exact .empty

/-- **What is fetched in the end is what the items make**, in some order. -/
theorem Conserves.fetched_perm (h : Conserves make workers p) (hsettled : p.Settled) :
    p.fetched.Perm (p.entered.filterMap make) := by
  have hmade := h.made
  have hhands : inHands make workers p.held = 0 := by
    refine Finset.sum_eq_zero fun i _ => ?_
    rw [hsettled.held i]
    rfl
  rw [hsettled.queue, hsettled.ready, hhands] at hmade
  exact Multiset.coe_eq_coe.mp (by simpa using hmade)

/-! ## Order -/

section Order

variable [DecidableEq K] (key : β → Option K)

/-- What is made for a key -/
def keyed (k : K) (ys : List β) : List β := ys.filter (key · = some k)

theorem keyed_append (k : K) (xs ys : List β) :
    keyed key k (xs ++ ys) = keyed key k xs ++ keyed key k ys := List.filter_append ..

/-- A worker takes no item for a key that another worker has in hand. -/
def Apart (make : α → Option β) (p : Pool α β) : Move α → Prop
  | .take worker count => ∀ k, keyed key k ((p.queue.take count).filterMap make) ≠ [] →
      ∀ other, other ≠ worker → keyed key k ((p.held other).filterMap make) = []
  | _ => True

/-- All that is made for the key, from what was fetched back to the queue. -/
def line (make : α → Option β) (p : Pool α β) (worker : Nat) (k : K) : List β :=
  keyed key k p.fetched ++ keyed key k p.ready ++ keyed key k ((p.held worker).filterMap make) ++
    keyed key k (p.queue.filterMap make)

/-- One worker at most has items for the key, and all of them are in line. -/
def InLine (make : α → Option β) (k : K) (p : Pool α β) : Prop :=
  ∃ worker, (∀ other, other ≠ worker → keyed key k ((p.held other).filterMap make) = []) ∧
    line key make p worker k = keyed key k (p.entered.filterMap make)

variable {key} {k : K}

theorem InLine.take {worker count : Nat} (h : InLine key make k p) (hidle : p.held worker = [])
    (hapart : Apart key make p (.take worker count)) :
    InLine key make k { p with
      queue := p.queue.drop count
      held := Function.update p.held worker (p.queue.take count) } := by
  obtain ⟨owner, hothers, hline⟩ := h
  have hqueue : keyed key k (p.queue.filterMap make) =
      keyed key k ((p.queue.take count).filterMap make) ++
        keyed key k ((p.queue.drop count).filterMap make) := by
    rw [← keyed_append, ← List.filterMap_append, List.take_append_drop]
  have hidle : keyed key k ((p.held worker).filterMap make) = [] := by
    rw [hidle]
    rfl
  by_cases hnone : keyed key k ((p.queue.take count).filterMap make) = []
  · -- nothing for the key is taken: who has its items keeps them
    have hheld : ∀ i, keyed key k ((Function.update p.held worker (p.queue.take count) i).filterMap
        make) = keyed key k ((p.held i).filterMap make) := by
      intro i
      by_cases hi : i = worker
      · rw [hi, Function.update_self, hnone, hidle]
      · rw [Function.update_of_ne hi]
    refine ⟨owner, fun other hother => (hheld other).trans (hothers other hother), ?_⟩
    rw [← hline, line, line, hheld, hqueue, hnone, List.nil_append]
  · -- the worker gets items for the key, and nobody else has any
    have howner : keyed key k ((p.held owner).filterMap make) = [] := by
      by_cases hown : owner = worker
      · rw [hown, hidle]
      · exact hapart k hnone owner hown
    refine ⟨worker, ?_, ?_⟩
    · intro other hother
      show keyed key k ((Function.update p.held worker _ other).filterMap make) = []
      rw [Function.update_of_ne hother]
      exact hapart k hnone other hother
    · rw [← hline, line, line, howner, hqueue, List.append_nil]
      dsimp only
      rw [Function.update_self, List.append_assoc]

theorem InLine.finish {worker : Nat} (h : InLine key make k p) :
    InLine key make k { p with
      held := Function.update p.held worker []
      ready := p.ready ++ (p.held worker).filterMap make } := by
  obtain ⟨owner, hothers, hline⟩ := h
  refine ⟨owner, ?_, ?_⟩
  · intro other hother
    show keyed key k ((Function.update p.held worker [] other).filterMap make) = []
    by_cases hworker : other = worker
    · rw [hworker, Function.update_self]
      rfl
    · rw [Function.update_of_ne hworker]
      exact hothers other hother
  · rw [← hline, line, line]
    dsimp only
    rw [keyed_append]
    by_cases hworker : owner = worker
    · rw [hworker, Function.update_self]
      simp [keyed]
    · rw [Function.update_of_ne hworker, hothers worker (Ne.symm hworker), List.append_nil]

theorem InLine.step (h : InLine key make k p) (hapart : Apart key make p m)
    (hs : Step make workers p m p') : InLine key make k p' := by
  cases hs with
  | put =>
    obtain ⟨owner, hothers, hline⟩ := h
    refine ⟨owner, hothers, ?_⟩
    rw [List.filterMap_append, keyed_append, ← hline, line, line, List.filterMap_append,
      keyed_append]
    simp only [List.append_assoc]
  | take hworker hidle => exact h.take hidle hapart
  | finish => exact h.finish
  | @fetch count =>
    obtain ⟨owner, hothers, hline⟩ := h
    refine ⟨owner, hothers, ?_⟩
    have hready : keyed key k (p.ready.take count) ++ keyed key k (p.ready.drop count) =
        keyed key k p.ready := by
      rw [← keyed_append, List.take_append_drop]
    rw [← hline, line, line, keyed_append, ← hready]
    simp only [List.append_assoc]

theorem reachable_inLine (h : ((machine make workers).restrict (Apart key make)).Reachable p)
    (k : K) : InLine key make k p := by
  refine h.invariant ?_ fun _ _ _ hi hs => hi.step hs.1 hs.2
  rintro p rfl
  exact ⟨0, fun _ _ => rfl, rfl⟩

/-- **What is fetched for a key in the end is what its items make, in their order.** -/
theorem InLine.keyed_fetched (h : InLine key make k p) (hsettled : p.Settled) :
    keyed key k p.fetched = keyed key k (p.entered.filterMap make) := by
  obtain ⟨owner, -, hline⟩ := h
  rw [line, hsettled.queue, hsettled.held, hsettled.ready] at hline
  simpa [keyed] using hline

/-- One worker alone is always apart from the others. -/
theorem apart_of_one_worker (h : Conserves make workers p) (hone : workers ≤ 1)
    (hs : Step make workers p m p') : Apart key make p m := by
  cases hs with
  | take hworker hidle =>
    intro k _ other hother
    have hspare : workers ≤ other := by omega
    rw [h.spare other hspare]
    rfl
  | put | finish | fetch => trivial

theorem reachable_apart
    (h : ((machine make workers).restrict fun p m =>
      workers ≤ 1 ∨ Apart key make p m).Reachable p) :
    ((machine make workers).restrict (Apart key make)).Reachable p := by
  induction h with
  | init h => exact .init h
  | step hr hs ih =>
    obtain ⟨hone | hapart, hs⟩ := hs
    · exact ih.step ⟨apart_of_one_worker (reachable_conserves hr.of_restrict) hone hs, hs⟩
    · exact ih.step ⟨hapart, hs⟩

end Order

end WorkerPool
