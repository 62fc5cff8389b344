import MeiliBridge.Lib.Trans

/-!
# Endless runs, and what must happen in them

`Machine.Reachable` is about what a machine never does. That it gets something done is a matter of
its endless runs, in which nothing is made to happen but by fairness: a set of steps that could be
taken from some time on is taken (`WeaklyFair`), or one that could be taken again and again
(`StronglyFair`). `WeaklyFair.leadsTo` and `StronglyFair.leadsTo` turn this into progress by one
step, and `Run.reaches` goes on from there to any number of steps.

`Run.map` sees the run of a part in a run of the whole.
-/

set_option autoImplicit false

namespace Trans

namespace Machine

variable {σ ℓ τ κ : Type}

/-- An endless run. For any time nothing need happen. -/
structure Run (M : Machine σ ℓ) where
  state : Nat → σ
  init : M.init (state 0)
  next : ∀ n, state (n + 1) = state n ∨ ∃ l, M.step (state n) l (state (n + 1))

/-- Some step of `A` can be taken. -/
def Enabled (M : Machine σ ℓ) (A : ℓ → Prop) (s : σ) : Prop := ∃ l s', A l ∧ M.step s l s'

namespace Run

variable {M : Machine σ ℓ} (ρ : M.Run)

/-- The step at this time is one of `A`. -/
def Takes (A : ℓ → Prop) (n : Nat) : Prop := ∃ l, A l ∧ M.step (ρ.state n) l (ρ.state (n + 1))

def WeaklyFair (A : ℓ → Prop) : Prop :=
  ∀ n, (∀ m, n ≤ m → M.Enabled A (ρ.state m)) → ∃ m, n ≤ m ∧ ρ.Takes A m

def StronglyFair (A : ℓ → Prop) : Prop :=
  (∀ n, ∃ m, n ≤ m ∧ M.Enabled A (ρ.state m)) → ∀ n, ∃ m, n ≤ m ∧ ρ.Takes A m

/-- Again and again the run is in such a state. -/
def Often (P : σ → Prop) : Prop := ∀ n, ∃ m, n ≤ m ∧ P (ρ.state m)

variable {ρ} {A : ℓ → Prop} {P Q R : σ → Prop} {i : Nat}

theorem reachable (ρ : M.Run) (n : Nat) : M.Reachable (ρ.state n) := by
  induction n with
  | zero => exact .init ρ.init
  | succ n ih =>
    rcases ρ.next n with hsame | ⟨l, hstep⟩
    · rw [hsame]
      exact ih
    · exact ih.step hstep

/-- What no step ends lasts. -/
theorem lasts (hkept : ∀ n, i ≤ n → P (ρ.state n) → P (ρ.state (n + 1))) {n m : Nat}
    (hstart : i ≤ n) (hnm : n ≤ m) (h : P (ρ.state n)) : P (ρ.state m) := by
  induction hnm with
  | refl => exact h
  | step hnm ih => exact hkept _ (Nat.le_trans hstart hnm) ih

/-- What has risen has risen at some time. -/
theorem exists_rise {f : σ → Nat} {n m : Nat} (hnm : n ≤ m)
    (h : f (ρ.state n) < f (ρ.state m)) :
    ∃ i, n ≤ i ∧ f (ρ.state i) < f (ρ.state (i + 1)) := by
  induction hnm with
  | refl => exact absurd h (Nat.lt_irrefl _)
  | @step m hnm ih =>
    by_cases hbefore : f (ρ.state n) < f (ρ.state m)
    · exact ih hbefore
    · exact ⟨m, hnm, Nat.lt_of_le_of_lt (Nat.le_of_not_lt hbefore) h⟩

/-- If nothing but `Q` ends `P`, then `P` lasts for ever or `Q` comes. -/
theorem lasts_or (hkept : ∀ n, i ≤ n → P (ρ.state n) →
      P (ρ.state (n + 1)) ∨ Q (ρ.state (n + 1))) {n : Nat} (hstart : i ≤ n)
    (h : P (ρ.state n)) : (∀ m, n ≤ m → P (ρ.state m)) ∨ ∃ m, n ≤ m ∧ Q (ρ.state m) := by
  by_cases hnever : ∃ m, n ≤ m ∧ Q (ρ.state m)
  · exact .inr hnever
  · refine .inl fun m hnm => ?_
    induction hnm with
    | refl => exact h
    | @step m hnm ih =>
      rcases hkept m (Nat.le_trans hstart hnm) ih with hp | hq
      · exact hp
      · exact absurd ⟨m + 1, Nat.le_succ_of_le hnm, hq⟩ hnever

/-- **Progress by a step that can be taken as long as it is needed.** -/
theorem WeaklyFair.leadsTo (hfair : ρ.WeaklyFair A)
    (henabled : ∀ n, i ≤ n → P (ρ.state n) → M.Enabled A (ρ.state n))
    (hkept : ∀ n, i ≤ n → P (ρ.state n) → P (ρ.state (n + 1)) ∨ Q (ρ.state (n + 1)))
    (htaken : ∀ n, i ≤ n → P (ρ.state n) → ρ.Takes A n → Q (ρ.state (n + 1)))
    {n : Nat} (hstart : i ≤ n) (h : P (ρ.state n)) : ∃ m, n ≤ m ∧ Q (ρ.state m) := by
  rcases lasts_or hkept hstart h with hlasts | hq
  · obtain ⟨m, hnm, htakes⟩ := hfair n fun m hnm =>
      henabled m (Nat.le_trans hstart hnm) (hlasts m hnm)
    exact ⟨m + 1, Nat.le_succ_of_le hnm,
      htaken m (Nat.le_trans hstart hnm) (hlasts m hnm) htakes⟩
  · exact hq

/-- **Progress by a step that can be taken again and again**, whenever `R` holds. -/
theorem StronglyFair.leadsTo (hfair : ρ.StronglyFair A) (hoften : ρ.Often R)
    (henabled : ∀ n, i ≤ n → P (ρ.state n) → R (ρ.state n) → M.Enabled A (ρ.state n))
    (hkept : ∀ n, i ≤ n → P (ρ.state n) → P (ρ.state (n + 1)) ∨ Q (ρ.state (n + 1)))
    (htaken : ∀ n, i ≤ n → P (ρ.state n) → ρ.Takes A n → Q (ρ.state (n + 1)))
    {n : Nat} (hstart : i ≤ n) (h : P (ρ.state n)) : ∃ m, n ≤ m ∧ Q (ρ.state m) := by
  rcases lasts_or hkept hstart h with hlasts | hq
  · have hagain : ∀ k, ∃ m, k ≤ m ∧ M.Enabled A (ρ.state m) := by
      intro k
      obtain ⟨m, hm, hr⟩ := hoften (max n k)
      have hnm : n ≤ m := Nat.le_trans (Nat.le_max_left n k) hm
      exact ⟨m, Nat.le_trans (Nat.le_max_right n k) hm,
        henabled m (Nat.le_trans hstart hnm) (hlasts m hnm) hr⟩
    obtain ⟨m, hnm, htakes⟩ := hfair hagain n
    exact ⟨m + 1, Nat.le_succ_of_le hnm,
      htaken m (Nat.le_trans hstart hnm) (hlasts m hnm) htakes⟩
  · exact hq

/-- A number that rises again as long as it is below `k` gets there. -/
theorem reaches {f : σ → Nat} {k : Nat}
    (hrises : ∀ n, i ≤ n → f (ρ.state n) < k → ∃ m, n ≤ m ∧ f (ρ.state n) < f (ρ.state m))
    {n : Nat} (hstart : i ≤ n) : ∃ m, n ≤ m ∧ k ≤ f (ρ.state m) := by
  -- by induction on what is missing
  generalize hmissing : k - f (ρ.state n) = missing
  induction missing using Nat.strongRecOn generalizing n with
  | ind missing ih =>
    by_cases hlt : f (ρ.state n) < k
    · obtain ⟨m, hnm, hrise⟩ := hrises n hstart hlt
      obtain ⟨m', hm', hk⟩ := ih (k - f (ρ.state m)) (by omega) (Nat.le_trans hstart hnm) rfl
      exact ⟨m', Nat.le_trans hnm hm', hk⟩
    · exact ⟨n, Nat.le_refl n, Nat.le_of_not_lt hlt⟩

/-! ## The run of a part -/

section Map

variable {N : Machine τ κ}

/-- What a run of the whole is to a part of it. -/
def map (ρ : M.Run) (f : σ → τ) (hinit : ∀ s, M.init s → N.init (f s))
    (hstep : ∀ s l s', M.step s l s' → f s' = f s ∨ ∃ k, N.step (f s) k (f s')) : N.Run where
  state n := f (ρ.state n)
  init := hinit _ ρ.init
  next n := by
    rcases ρ.next n with hsame | ⟨l, hs⟩
    · exact .inl (congrArg f hsame)
    · exact hstep _ _ _ hs

/-- A step of the part is a step of the whole. -/
theorem WeaklyFair.map {f : σ → τ} {hinit : ∀ s, M.init s → N.init (f s)}
    {hstep : ∀ s l s', M.step s l s' → f s' = f s ∨ ∃ k, N.step (f s) k (f s')} {B : κ → Prop}
    (hfair : ρ.WeaklyFair A) (henabled : ∀ s, N.Enabled B (f s) → M.Enabled A s)
    (htaken : ∀ s l s', A l → M.step s l s' → ∃ k, B k ∧ N.step (f s) k (f s')) :
    (ρ.map f hinit hstep).WeaklyFair B := by
  intro n hall
  obtain ⟨m, hnm, l, hl, hs⟩ := hfair n fun m hnm => henabled _ (hall m hnm)
  exact ⟨m, hnm, htaken _ _ _ hl hs⟩

end Map

/-! ## Runs that come to rest -/

/-- A run that rests can take a step instead, and rest after it. -/
theorem exists_step_rest {s s' : σ} {l : ℓ} {ρ : M.Run} {n : Nat}
    (hrest : ∀ m, n ≤ m → ρ.state m = s) (hs : M.step s l s') :
    ∃ ρ' : M.Run, (∀ m, m ≤ n → ρ'.state m = ρ.state m) ∧ ∀ m, n < m → ρ'.state m = s' := by
  refine ⟨⟨fun m => if m ≤ n then ρ.state m else s', ?_, ?_⟩, ?_, ?_⟩
  · rw [if_pos (Nat.zero_le n)]
    exact ρ.init
  · intro m
    by_cases hm : m + 1 ≤ n
    · rw [if_pos hm, if_pos (by omega)]
      exact ρ.next m
    · rw [if_neg hm]
      by_cases hlast : m ≤ n
      · obtain rfl : m = n := by omega
        rw [if_pos hlast, hrest m (Nat.le_refl m)]
        exact .inr ⟨l, hs⟩
      · rw [if_neg hlast]
        exact .inl rfl
  · exact fun m hm => if_pos hm
  · exact fun m hm => if_neg (Nat.not_le_of_lt hm)

/-- Some run goes to any state that is reachable, and rests there. -/
theorem exists_rest {s : σ} (h : M.Reachable s) :
    ∃ (ρ : M.Run) (n : Nat), ∀ m, n ≤ m → ρ.state m = s := by
  induction h with
  | @init s h => exact ⟨⟨fun _ => s, h, fun _ => .inl rfl⟩, 0, fun _ _ => rfl⟩
  | step _ hs ih =>
    obtain ⟨ρ, n, hrest⟩ := ih
    obtain ⟨ρ', -, hrest'⟩ := exists_step_rest hrest hs
    exact ⟨ρ', n + 1, hrest'⟩

/-- A run that rests is fair to what cannot be done there. -/
theorem weaklyFair_of_rest {s : σ} {n : Nat} (hrest : ∀ m, n ≤ m → ρ.state m = s)
    (h : ¬ M.Enabled A s) : ρ.WeaklyFair A := by
  intro k hall
  have hlater := hall (max n k) (Nat.le_max_right n k)
  rw [hrest _ (Nat.le_max_left n k)] at hlater
  exact absurd hlater h

/-- It is also fair to what changes nothing there. -/
theorem stronglyFair_of_rest {s : σ} {n : Nat} (hrest : ∀ m, n ≤ m → ρ.state m = s)
    (h : M.Enabled A s → ∃ l, A l ∧ M.step s l s) : ρ.StronglyFair A := by
  intro hagain k
  obtain ⟨m, hm, henabled⟩ := hagain (max n k)
  have hnm : n ≤ m := Nat.le_trans (Nat.le_max_left n k) hm
  rw [hrest m hnm] at henabled
  obtain ⟨l, hl, hs⟩ := h henabled
  refine ⟨m, Nat.le_trans (Nat.le_max_right n k) hm, l, hl, ?_⟩
  rw [hrest m hnm, hrest (m + 1) (Nat.le_succ_of_le hnm)]
  exact hs

end Run

end Machine

end Trans
