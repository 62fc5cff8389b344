import Mathlib.Logic.Basic

/-!
# Labelled machines, and the invariants of their runs

A machine is a set of initial states and a labelled step relation. `Machine.Reachable.invariant`
is the one induction over runs: a predicate that holds initially and that every step preserves
holds in every reachable state. `Machine.restrict` keeps the steps that meet a condition on the
state before the step, so "every run whose steps all meet the condition" is reachability in the
restricted machine.

`Machine.ofFn` is the machine of a step *function*. Its runs are computed by `runFn`, which is how
a concrete run is exhibited, with the conditions on its steps if they are decidable
(`reachable_of_checked`); for a function that is total, `Machine.ofTotal`, it is a `foldl`.
-/

set_option autoImplicit false

namespace Trans

/-- A labelled transition system with its initial states. -/
structure Machine (σ ℓ : Type) where
  init : σ → Prop
  step : σ → ℓ → σ → Prop

namespace Machine

variable {σ ℓ : Type}

/-- The states some run of `M` ends in. -/
inductive Reachable (M : Machine σ ℓ) : σ → Prop
  | init {s : σ} (h : M.init s) : Reachable M s
  | step {s s' : σ} {l : ℓ} (hr : Reachable M s) (hs : M.step s l s') : Reachable M s'

/-- The steps of `M` that start from a state meeting `ok`. -/
def restrict (M : Machine σ ℓ) (ok : σ → ℓ → Prop) : Machine σ ℓ where
  init := M.init
  step s l s' := ok s l ∧ M.step s l s'

theorem Reachable.invariant {M : Machine σ ℓ} {I : σ → Prop} (hinit : ∀ s, M.init s → I s)
    (hstep : ∀ s l s', I s → M.step s l s' → I s') {s : σ} (h : M.Reachable s) : I s := by
  induction h with
  | init h => exact hinit _ h
  | step _ hs ih => exact hstep _ _ _ ih hs

/-- An invariant may use another one that is already known. -/
theorem Reachable.invariant_using {M : Machine σ ℓ} {J I : σ → Prop}
    (hJ : ∀ s, M.Reachable s → J s) (hinit : ∀ s, M.init s → I s)
    (hstep : ∀ s l s', J s → I s → M.step s l s' → I s') {s : σ} (h : M.Reachable s) : I s := by
  induction h with
  | init h => exact hinit _ h
  | step hr hs ih => exact hstep _ _ _ (hJ _ hr) ih hs

theorem Reachable.of_restrict {M : Machine σ ℓ} {ok : σ → ℓ → Prop} {s : σ}
    (h : (M.restrict ok).Reachable s) : M.Reachable s := by
  induction h with
  | init h => exact .init h
  | step _ hs ih => exact .step ih hs.2

/-- A condition that every step meets leaves all runs. -/
theorem Reachable.restrict {M : Machine σ ℓ} {ok : σ → ℓ → Prop} (hok : ∀ s l, ok s l) {s : σ}
    (h : M.Reachable s) : (M.restrict ok).Reachable s := by
  induction h with
  | init h => exact .init h
  | step _ hs ih => exact .step ih ⟨hok _ _, hs⟩

/-- A weaker condition leaves more runs. -/
theorem Reachable.mono {M : Machine σ ℓ} {ok ok' : σ → ℓ → Prop}
    (hok : ∀ s l, ok s l → ok' s l) {s : σ} (h : (M.restrict ok).Reachable s) :
    (M.restrict ok').Reachable s := by
  induction h with
  | init h => exact .init h
  | step _ hs ih => exact .step ih ⟨hok _ _ hs.1, hs.2⟩

/-- The machine of a partial step function started at `s₀`. -/
def ofFn (s₀ : σ) (f : σ → ℓ → Option σ) : Machine σ ℓ where
  init s := s = s₀
  step s l s' := f s l = some s'

theorem Reachable.restrict_step {s₀ s s' : σ} {f : σ → ℓ → Option σ} {ok : σ → ℓ → Prop}
    (h : ((ofFn s₀ f).restrict ok).Reachable s) (l : ℓ) (hok : ok s l) (hs : f s l = some s') :
    ((ofFn s₀ f).restrict ok).Reachable s' :=
  .step h ⟨hok, hs⟩

/-- The machine of a total step function -/
def ofTotal (init : σ → Prop) (f : σ → ℓ → σ) : Machine σ ℓ where
  init := init
  step s l s' := s' = f s l

/-- Every step of the run of these labels meets the condition. -/
def Along (f : σ → ℓ → σ) (ok : σ → ℓ → Prop) : σ → List ℓ → Prop
  | _, [] => True
  | s, l :: ls => ok s l ∧ Along f ok (f s l) ls

theorem Reachable.foldl {init : σ → Prop} {f : σ → ℓ → σ} {ok : σ → ℓ → Prop} {s : σ}
    {ls : List ℓ} (h : ((ofTotal init f).restrict ok).Reachable s) (hls : Along f ok s ls) :
    ((ofTotal init f).restrict ok).Reachable (ls.foldl f s) := by
  induction ls generalizing s with
  | nil => exact h
  | cons l ls ih => exact ih (.step h ⟨hls.1, rfl⟩) hls.2

theorem Along.of_forall {f : σ → ℓ → σ} {P : ℓ → Prop} {ls : List ℓ} (h : ∀ l ∈ ls, P l) (s : σ) :
    Along f (fun _ l => P l) s ls := by
  induction ls generalizing s with
  | nil => trivial
  | cons l ls ih =>
    refine ⟨h l List.mem_cons_self, ih ?_ _⟩
    intro l' hl'
    exact h l' (List.mem_cons_of_mem l hl')

/-- The state a sequence of labels leads to, if every step is enabled. -/
def runFn (f : σ → ℓ → Option σ) : σ → List ℓ → Option σ
  | s, [] => some s
  | s, l :: ls => (f s l).bind fun s' => runFn f s' ls

theorem runFn_append (f : σ → ℓ → Option σ) (ls ls' : List ℓ) (s : σ) :
    runFn f s (ls ++ ls') = (runFn f s ls).bind fun t => runFn f t ls' := by
  induction ls generalizing s with
  | nil => rfl
  | cons l ls ih =>
    rw [List.cons_append, runFn, runFn]
    cases f s l with
    | none => rfl
    | some t => exact ih t

theorem reachable_of_runFn {s₀ : σ} {f : σ → ℓ → Option σ} :
    ∀ {ls : List ℓ} {s s' : σ}, (ofFn s₀ f).Reachable s → runFn f s ls = some s' →
      (ofFn s₀ f).Reachable s'
  | [], _, _, hr, h => by
    simp only [runFn, Option.some.injEq] at h
    exact h ▸ hr
  | l :: ls, s, s', hr, h => by
    simp only [runFn, Option.bind_eq_some_iff] at h
    obtain ⟨t, ht, hrest⟩ := h
    exact reachable_of_runFn (.step hr ht) hrest

/-- The step function that takes only the steps that meet the condition -/
def checked (f : σ → ℓ → Option σ) (ok : σ → ℓ → Prop) [∀ s l, Decidable (ok s l)] (s : σ)
    (l : ℓ) : Option σ :=
  if ok s l then f s l else none

theorem Reachable.of_checked {s₀ : σ} {f : σ → ℓ → Option σ} {ok : σ → ℓ → Prop}
    [∀ s l, Decidable (ok s l)] {s : σ} (h : (ofFn s₀ (checked f ok)).Reachable s) :
    ((ofFn s₀ f).restrict ok).Reachable s := by
  induction h with
  | init h => exact .init h
  | @step s s' l _ hs ih =>
    have hstep : checked f ok s l = some s' := hs
    rw [checked, Option.ite_none_right_eq_some] at hstep
    exact ih.restrict_step l hstep.1 hstep.2

/-- A run is computed with its conditions. -/
theorem reachable_of_checked {s₀ s : σ} {f : σ → ℓ → Option σ} {ok : σ → ℓ → Prop}
    [∀ s l, Decidable (ok s l)] {ls : List ℓ} (h : runFn (checked f ok) s₀ ls = some s) :
    ((ofFn s₀ f).restrict ok).Reachable s :=
  .of_checked (reachable_of_runFn (.init rfl) h)

end Machine

end Trans
