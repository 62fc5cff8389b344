import Mathlib.Algebra.BigOperators.Group.Finset.Basic
import MeiliBridge.Pipeline.Parallel

/-!
# What a step of the parallel processors does

`Moves` says for each label what a step requires and what it leaves, so that a proof about steps is
a case analysis of it (`moves_of_step`). Sums over all tables or all workers change with one of them
(`sum_update_add`).
-/

set_option autoImplicit false

namespace MeiliBridge

namespace Parallel

inductive Moves (cfg : ParallelConfig) (s : System) : Label → System → Prop
  | enqueue (table : Nat) (events : List Event) :
      Moves cfg s (.enqueue table events)
        { s.setProcessor table ((s.processors table).enqueueEvents (tag s.nextSeq events)) with
          nextSeq := s.nextSeq + events.length }
  | drain {table worker : Nat} (hidle : (s.processors table).workers worker = .idle)
      (hworker : worker < cfg.workersPerTable) (hqueue : (s.processors table).queue ≠ []) :
      Moves cfg s (.drain table worker)
        (s.setProcessor table (System.setWorker
          { s.processors table with
            queue := (s.processors table).queue.drop (min 10 (s.processors table).queue.length) }
          worker (.waiting (s.processors table).drained)))
  | acquire {table worker : Nat} {events : List Tagged}
      (hwaiting : (s.processors table).workers worker = .waiting events)
      (hpermits : events.length ≤ (s.processors table).permits) :
      Moves cfg s (.acquire table worker)
        (s.setProcessor table (System.setWorker
          { s.processors table with permits := (s.processors table).permits - events.length }
          worker (.working events)))
  /-- the worker sends its processed batch, which may be empty -/
  | send {table worker : Nat} {events processed : List Tagged} {results : List (List Tagged)}
      (hworking : (s.processors table).workers worker = .working events)
      (hprocessed : processBatch cfg.rt (cfg.stages table) events = some processed)
      (hresults : processed = [] ∧ results = (s.processors table).results ∨
        processed ≠ [] ∧ (s.processors table).results.length < 100 ∧
          results = (s.processors table).results ++ [processed]) :
      Moves cfg s (.send table worker)
        (s.setProcessor table (System.setWorker
          { s.processors table with
            permits := (s.processors table).permits + events.length
            results } worker .idle))
  | panic {table worker : Nat} {events : List Tagged}
      (hworking : (s.processors table).workers worker = .working events)
      (hprocessed : processBatch cfg.rt (cfg.stages table) events = none) :
      Moves cfg s (.send table worker)
        (s.setProcessor table (System.setWorker
          { s.processors table with permits := (s.processors table).permits + events.length }
          worker .dead))
  | forward {table : Nat} {batch : List Tagged} {rest : List (List Tagged)}
      (hresults : (s.processors table).results = batch :: rest) :
      Moves cfg s (.forward table)
        { s.setProcessor table { s.processors table with results := rest } with
          delivered := s.delivered ++ batch }
  | surveyFirst (htables : 2 ≤ cfg.tables) (hwaiting : s.balance = .waiting) :
      Moves cfg s .survey { s with balance := .surveying [(0, (s.processors 0).queue.length)] }
  | surveyNext {sizes : List (Nat × Nat)} (hsurveying : s.balance = .surveying sizes)
      (hnext : sizes.length < cfg.tables) :
      Moves cfg s .survey
        { s with
          balance := .surveying
            (sizes ++ [(sizes.length, (s.processors sizes.length).queue.length)]) }
  | steal {sizes : List (Nat × Nat)} {small large count : Nat}
      (hsurveying : s.balance = .surveying sizes)
      (hplan : plan sizes = some (small, large, count)) :
      Moves cfg s .steal
        { s.setProcessor large ((s.processors large).afterSteal count) with
          balance := .moving small ((s.processors large).stolen count) }
  | leave {sizes : List (Nat × Nat)} (hsurveying : s.balance = .surveying sizes)
      (hplan : plan sizes = none) : Moves cfg s .steal { s with balance := .waiting }
  | settle {small : Nat} {stolen : List Tagged} (hmoving : s.balance = .moving small stolen) :
      Moves cfg s .settle
        { s.setProcessor small ((s.processors small).enqueueEvents stolen) with
          balance := .waiting }

variable {cfg : ParallelConfig} {s s' : System} {l : Label}

@[simp] theorem System.processors_setProcessor_self (s : System) (table : Nat) (p : Processor) :
    (s.setProcessor table p).processors table = p :=
  Function.update_self ..

theorem System.processors_setProcessor_of_ne {t table : Nat} (h : t ≠ table) (s : System)
    (p : Processor) : (s.setProcessor table p).processors t = s.processors t :=
  Function.update_of_ne h ..

theorem System.processors_setProcessor (s : System) (table t : Nat) (p : Processor) :
    (s.setProcessor table p).processors t = if t = table then p else s.processors t := by
  by_cases h : t = table
  · rw [if_pos h, h, processors_setProcessor_self]
  · rw [if_neg h, processors_setProcessor_of_ne h]

/-- A sum of which one summand has changed. -/
theorem sum_update_add {ι α M : Type} [DecidableEq ι] [AddCommMonoid M] {I : Finset ι} {i : ι}
    (h : i ∈ I) (f : ι → α) (v : α) (g : α → M) :
    ∑ j ∈ I, g (Function.update f i v j) + g (f i) = ∑ j ∈ I, g (f j) + g v := by
  have hrest : ∑ j ∈ I.erase i, g (Function.update f i v j) = ∑ j ∈ I.erase i, g (f j) := by
    refine Finset.sum_congr rfl fun j hj => ?_
    rw [Function.update_of_ne (Finset.ne_of_mem_erase hj)]
  rw [← Finset.add_sum_erase _ _ h, ← Finset.add_sum_erase _ _ h, hrest, Function.update_self]
  ac_rfl

theorem moves_of_step (h : System.step cfg s l = some s') : Moves cfg s l s' := by
  cases l with
  | enqueue table events =>
    cases h
    exact .enqueue table events
  | drain table worker =>
    simp only [System.step] at h
    split at h
    · next hidle =>
      split at h
      · next hready =>
        cases h
        exact .drain hidle hready.1 hready.2
      · cases h
    · cases h
  | acquire table worker =>
    simp only [System.step] at h
    split at h
    · next events hwaiting =>
      split at h
      · next hpermits =>
        cases h
        exact .acquire hwaiting hpermits
      · cases h
    · cases h
  | send table worker =>
    simp only [System.step] at h
    split at h
    · next events hworking =>
      split at h
      · next hprocessed =>
        cases h
        -- an empty result is not sent, whatever room the channel has
        exact .send hworking hprocessed (.inl ⟨rfl, rfl⟩)
      · next processed hne hprocessed =>
        split at h
        · next hroom =>
          cases h
          exact .send hworking hprocessed (.inr ⟨hne, hroom, rfl⟩)
        · cases h
      · next hprocessed =>
        cases h
        exact .panic hworking hprocessed
    · cases h
  | forward table =>
    simp only [System.step] at h
    split at h
    · cases h
    · next batch rest hresults =>
      cases h
      exact .forward hresults
  | survey =>
    simp only [System.step] at h
    split at h
    · next hready =>
      split at h
      · next hwaiting =>
        cases h
        exact .surveyFirst hready.2 hwaiting
      · next sizes hsurveying =>
        split at h
        · next hnext =>
          cases h
          exact .surveyNext hsurveying hnext
        · cases h
      · cases h
    · cases h
  | steal =>
    simp only [System.step] at h
    split at h
    · next sizes hsurveying =>
      split at h
      · split at h
        · next small large count hplan =>
          cases h
          exact .steal hsurveying hplan
        · next hplan =>
          cases h
          exact .leave hsurveying hplan
      · cases h
    · cases h
  | settle =>
    simp only [System.step] at h
    split at h
    · next small stolen hmoving =>
      cases h
      exact .settle hmoving
    · cases h

end Parallel

end MeiliBridge
