import Mathlib.Logic.Function.Basic
import Mathlib.Data.List.Induction

/-!
# Logs of puts and deletes over keys

A log of `put` and `del` operations acts on a map from keys to values. What it leaves at a key is
decided by the last operation on that key (`run_apply`). A batch that issues all puts of a log and
then all its deletes runs `regroup`; `run_regroup_eq_iff` says for which logs that is the same.
-/

set_option autoImplicit false

namespace KeyedLog

variable {K V : Type} [DecidableEq K]

inductive Op (K V : Type) where
  | put (k : K) (v : V)
  | del (k : K)
  deriving DecidableEq

namespace Op

def key : Op K V → K
  | .put k _ => k
  | .del k => k

/-- What the operation leaves at its key. -/
def value : Op K V → Option V
  | .put _ v => some v
  | .del _ => none

def isPut : Op K V → Bool
  | .put _ _ => true
  | .del _ => false

omit [DecidableEq K] in
theorem eq_del_of_not_isPut {o : Op K V} (h : o.isPut = false) : o = .del o.key := by
  cases o with
  | put k v => cases h
  | del k => rfl

end Op

/-- One operation. -/
def apply (m : K → Option V) (o : Op K V) : K → Option V := Function.update m o.key o.value

/-- A log, first operation first. -/
def run (ops : List (Op K V)) (m : K → Option V) : K → Option V := ops.foldl apply m

/-- The last operation on a key. -/
def lastOn (k : K) (ops : List (Op K V)) : Option (Op K V) :=
  (ops.filter (·.key = k)).getLast?

/-- All puts of a log, then all its deletes. -/
def regroup (ops : List (Op K V)) : List (Op K V) :=
  ops.filter (·.isPut) ++ ops.filter (!·.isPut)

@[simp] theorem run_nil (m : K → Option V) : run [] m = m := rfl

theorem run_append (xs ys : List (Op K V)) (m : K → Option V) :
    run (xs ++ ys) m = run ys (run xs m) := List.foldl_append ..

theorem lastOn_concat (k : K) (ops : List (Op K V)) (o : Op K V) :
    lastOn k (ops ++ [o]) = if o.key = k then some o else lastOn k ops := by
  by_cases h : o.key = k <;> simp [lastOn, List.filter_append, h]

/-- **The last operation on a key decides what the log leaves there.** -/
theorem run_apply (ops : List (Op K V)) (m : K → Option V) (k : K) :
    run ops m k = ((lastOn k ops).map Op.value).getD (m k) := by
  induction ops using List.reverseRecOn with
  | nil => rfl
  | append_singleton ops o ih =>
    rw [run_append, lastOn_concat]
    by_cases h : o.key = k
    · subst h
      simp [run, apply]
    · simp only [run, List.foldl_cons, List.foldl_nil, apply, if_neg h]
      rw [Function.update_of_ne (Ne.symm h)]
      exact ih

theorem lastOn_append (k : K) (xs ys : List (Op K V)) :
    lastOn k (xs ++ ys) = (lastOn k ys).or (lastOn k xs) := by
  simp [lastOn, List.filter_append, List.getLast?_append]

theorem mem_of_lastOn {k : K} {ops : List (Op K V)} {o : Op K V} (h : lastOn k ops = some o) :
    o ∈ ops ∧ o.key = k := by
  have hm := List.mem_of_getLast? h
  simpa using hm

theorem lastOn_eq_none_iff {k : K} {ops : List (Op K V)} :
    lastOn k ops = none ↔ ∀ o ∈ ops, o.key ≠ k := by
  simp [lastOn]

theorem lastOn_dels {k : K} {ops : List (Op K V)} (h : Op.del k ∈ ops) :
    lastOn k (ops.filter (!·.isPut)) = some (.del k) := by
  cases hl : lastOn k (ops.filter (!·.isPut)) with
  | none =>
    exact absurd rfl (lastOn_eq_none_iff.mp hl (.del k) (List.mem_filter.mpr ⟨h, rfl⟩))
  | some o =>
    obtain ⟨hm, rfl⟩ := mem_of_lastOn hl
    have hp := (List.mem_filter.mp hm).2
    exact congrArg some (Op.eq_del_of_not_isPut (by simpa using hp))

theorem lastOn_puts {k : K} {ops : List (Op K V)} (h : Op.del k ∉ ops) :
    lastOn k (ops.filter (·.isPut)) = lastOn k ops := by
  unfold lastOn
  congr 1
  rw [List.filter_filter]
  refine List.filter_congr fun o ho => ?_
  by_cases hk : o.key = k
  · subst hk
    have hp : o.isPut = true := by
      by_contra hp
      exact h (Op.eq_del_of_not_isPut (by simpa using hp) ▸ ho)
    simp [hp]
  · simp [hk]

/-- What regrouping changes: a key some operation deletes stays deleted. -/
theorem lastOn_regroup_of_mem {k : K} {ops : List (Op K V)} (h : Op.del k ∈ ops) :
    lastOn k (regroup ops) = some (.del k) := by
  rw [regroup, lastOn_append, lastOn_dels h, Option.some_or]

theorem lastOn_regroup_of_not_mem {k : K} {ops : List (Op K V)} (h : Op.del k ∉ ops) :
    lastOn k (regroup ops) = lastOn k ops := by
  have hnone : lastOn k (ops.filter (!·.isPut)) = none := by
    refine lastOn_eq_none_iff.mpr fun o ho hk => h ?_
    obtain ⟨hm, hp⟩ := List.mem_filter.mp ho
    rw [← hk, ← Op.eq_del_of_not_isPut (by simpa using hp)]
    exact hm
  rw [regroup, lastOn_append, hnone, Option.none_or, lastOn_puts h]

/-- Every key the log deletes is deleted by the last operation on it. -/
def Regroupable (ops : List (Op K V)) : Prop :=
  ∀ k, Op.del k ∈ ops → lastOn k ops = some (.del k)

/-- **Puts first, then deletes, is the log itself exactly for regroupable logs**, whatever the map
held before. -/
theorem run_regroup_eq_iff {ops : List (Op K V)} {m : K → Option V} :
    run (regroup ops) m = run ops m ↔ Regroupable ops := by
  constructor
  · intro h k hk
    have hat := congrFun h k
    rw [run_apply, run_apply, lastOn_regroup_of_mem hk] at hat
    cases hl : lastOn k ops with
    | none => exact absurd rfl (lastOn_eq_none_iff.mp hl _ hk)
    | some o =>
      obtain ⟨-, rfl⟩ := mem_of_lastOn hl
      cases o with
      | put k v => simp [hl, Op.value] at hat
      | del k => rfl
  · intro h
    funext k
    rw [run_apply, run_apply]
    by_cases hk : Op.del k ∈ ops
    · rw [lastOn_regroup_of_mem hk, h k hk]
    · rw [lastOn_regroup_of_not_mem hk]

end KeyedLog
