import MeiliBridge.Recovery.CircuitBreaker

/-!
# Protected calls

`CircuitBreaker::call` asks whether it is allowed, runs the operation, and records how that ended.
A call that is dropped in between records nothing and gives no slot back. The breaker leaves
`HalfOpen` on recorded outcomes only, so that it stays there for good once all slots are taken and
no call is left to record one: `Stuck`.
-/

set_option autoImplicit false

namespace MeiliBridge

namespace CircuitBreaker

/-- What happens to the calls: one is made, or one that was admitted ends. -/
inductive CallEvent where
  | call
  | succeeds
  | fails
  | cancelled
  | wait (duration : Nat)
  deriving DecidableEq

/-- The breaker, and how many admitted calls have not ended -/
structure Calls where
  clocked : Clocked
  outstanding : Nat

namespace Calls

abbrev breaker (s : Calls) : CircuitBreaker := s.clocked.breaker

variable (counting : Counting) (config : CircuitBreakerConfig)

/-- An admitted call ends, and this is recorded. -/
def ends (s : Calls) (op : Op) : Option Calls :=
  match s.outstanding with
  | 0 => none
  | n + 1 => some ⟨(s.clocked.step counting config op).2, n⟩

def step (s : Calls) : CallEvent → Option Calls
  | .call =>
    let (allowed, clocked) := s.clocked.step counting config .isAllowed
    some ⟨clocked, if allowed then s.outstanding + 1 else s.outstanding⟩
  | .succeeds => s.ends counting config .recordSuccess
  | .fails => s.ends counting config .recordFailure
  | .cancelled =>
    match s.outstanding with
    | 0 => none
    | n + 1 => some { s with outstanding := n }
  | .wait duration =>
    some { s with clocked := (s.clocked.step counting config (.wait duration)).2 }

end Calls

/-- A new breaker and the calls made through it -/
def callsMachine (counting : Counting) (config : CircuitBreakerConfig) (now : Nat) :
    Trans.Machine Calls CallEvent :=
  .ofFn ⟨⟨now, .new⟩, 0⟩ (Calls.step counting config)

/-- All slots of the episode are taken, and no call is left that could end it. -/
def Stuck (config : CircuitBreakerConfig) (s : Calls) : Prop :=
  s.breaker.state = .halfOpen ∧ config.halfOpenMaxRequests ≤ s.breaker.stats.halfOpenRequests ∧
    s.outstanding = 0

/-- When all slots are taken, the last call is not cancelled, and its success is enough to close. -/
def EndsWell (counting : Counting) (config : CircuitBreakerConfig) (s : Calls) (l : CallEvent) :
    Prop :=
  s.breaker.state = .halfOpen → config.halfOpenMaxRequests ≤ s.breaker.stats.halfOpenRequests →
    s.outstanding = 1 → l ≠ .cancelled ∧
      (l = .succeeds →
        config.successThreshold ≤ counting.next s.breaker.stats.consecutiveSuccesses)

variable {counting : Counting} {config : CircuitBreakerConfig} {s s' : Calls} {l : CallEvent}

theorem ends_eq_some {op : Op} : s.ends counting config op = some s' ↔
    ∃ n, s.outstanding = n + 1 ∧ s' = ⟨(s.clocked.step counting config op).2, n⟩ := by
  rw [Calls.ends]
  cases s.outstanding with
  | zero => simp
  | succ n => simp [eq_comm]

theorem cancelled_eq_some : s.step counting config .cancelled = some s' ↔
    ∃ n, s.outstanding = n + 1 ∧ s' = { s with outstanding := n } := by
  rw [Calls.step]
  cases s.outstanding with
  | zero => simp
  | succ n => simp [eq_comm]

/-- What a call does, by the state it finds -/
theorem call_cases (hs : s.step counting config .call = some s') :
    (s.breaker.state ≠ .halfOpen ∧ s'.breaker = s.breaker) ∨
    (s.breaker.state = .opened ∧ s'.breaker.stats.halfOpenRequests = 0 ∧
      s'.outstanding = s.outstanding + 1) ∨
    (s.breaker.state = .halfOpen ∧
      s.breaker.stats.halfOpenRequests < config.halfOpenMaxRequests ∧
      s'.breaker = { s.breaker with
        stats := { s.breaker.stats with
          halfOpenRequests := s.breaker.stats.halfOpenRequests + 1 } } ∧
      s'.outstanding = s.outstanding + 1) ∨
    (s.breaker.state = .halfOpen ∧
      config.halfOpenMaxRequests ≤ s.breaker.stats.halfOpenRequests ∧ s' = s) := by
  have hcall : s' = ⟨⟨s.clocked.now, (s.breaker.isAllowed config s.clocked.now).2⟩,
      if (s.breaker.isAllowed config s.clocked.now).1 then s.outstanding + 1
      else s.outstanding⟩ := (Option.some.inj hs).symm
  rcases isAllowed_cases config s.clocked.now s.breaker with ⟨hold, heq⟩ | ⟨hold, -, heq⟩ |
    ⟨hold, -, heq⟩ | ⟨hold, hslot, heq⟩ | ⟨hold, hfull, heq⟩
  · rw [heq] at hcall
    exact .inl ⟨by simp [hold], by rw [hcall]⟩
  · rw [heq] at hcall
    exact .inr (.inl ⟨hold, by rw [hcall], by rw [hcall]; rfl⟩)
  · rw [heq] at hcall
    exact .inl ⟨by simp [hold], by rw [hcall]⟩
  · rw [heq] at hcall
    exact .inr (.inr (.inl ⟨hold, hslot, by rw [hcall], by rw [hcall]; rfl⟩))
  · rw [heq] at hcall
    exact .inr (.inr (.inr ⟨hold, hfull, hcall⟩))

theorem stuck_step_iff (hs : s.step counting config l = some s') (h : ¬ Stuck config s) :
    ¬ Stuck config s' ↔ EndsWell counting config s l := by
  -- only a call that ends can leave the last slot taken with nobody to give it back
  cases l with
  | call =>
    refine iff_of_true ?_ (by simp [EndsWell])
    rcases call_cases hs with ⟨hold, hsame⟩ | ⟨-, -, hmore⟩ | ⟨-, -, -, hmore⟩ | ⟨-, -, rfl⟩
    · rintro ⟨hstate, -⟩
      rw [hsame] at hstate
      exact hold hstate
    · rintro ⟨-, -, hnone⟩
      omega
    · rintro ⟨-, -, hnone⟩
      omega
    · exact h
  | succeeds =>
    obtain ⟨n, hn, rfl⟩ := ends_eq_some.mp hs
    show ¬ ((s.breaker.recordSuccess counting config).state = .halfOpen ∧
      config.halfOpenMaxRequests ≤
        (s.breaker.recordSuccess counting config).stats.halfOpenRequests ∧ n = 0) ↔ _
    rcases recordSuccess_cases counting config s.breaker with ⟨-, hreached, heq⟩ | ⟨hcounts, heq⟩
    · rw [heq]
      simp [EndsWell, hreached]
    · rw [heq]
      simp only [EndsWell, hn, Nat.add_eq_right, CircuitStats.recordSuccess]
      constructor
      · intro hnot hstate hfull hlast
        exact absurd ⟨hstate, hfull, hlast⟩ hnot
      · rintro hwell ⟨hstate, hfull, hlast⟩
        exact hcounts hstate ((hwell hstate hfull hlast).2 trivial)
  | fails =>
    obtain ⟨n, -, rfl⟩ := ends_eq_some.mp hs
    refine iff_of_true ?_ (by simp [EndsWell])
    rintro ⟨hstate, -⟩
    exact recordFailure_state_ne hstate
  | cancelled =>
    obtain ⟨n, hn, rfl⟩ := cancelled_eq_some.mp hs
    simp [Stuck, EndsWell, hn]
  | wait duration =>
    obtain rfl := Option.some.inj hs
    exact iff_of_true h (by simp [EndsWell])

/-! ## Where it stays -/

/-- A breaker that is stuck allows nothing. -/
theorem Stuck.denied (h : Stuck config s) :
    (s.clocked.step counting config .isAllowed).1 = false := by
  show (s.breaker.isAllowed config s.clocked.now).1 = false
  rw [isAllowed_full h.1 h.2.1]

theorem Stuck.step (h : Stuck config s) (hs : s.step counting config l = some s') :
    Stuck config s' := by
  cases l with
  | call =>
    rcases call_cases hs with ⟨hold, -⟩ | ⟨hold, -⟩ | ⟨-, hslot, -⟩ | ⟨-, -, rfl⟩
    · exact absurd h.1 hold
    · simp [h.1] at hold
    · exact absurd h.2.1 (Nat.not_le.mpr hslot)
    · exact h
  | succeeds =>
    obtain ⟨n, hn, -⟩ := ends_eq_some.mp hs
    simp [h.2.2] at hn
  | fails =>
    obtain ⟨n, hn, -⟩ := ends_eq_some.mp hs
    simp [h.2.2] at hn
  | cancelled =>
    obtain ⟨n, hn, -⟩ := cancelled_eq_some.mp hs
    simp [h.2.2] at hn
  | wait duration =>
    obtain rfl := Option.some.inj hs
    exact h

theorem Stuck.run (h : Stuck config s) {ls : List CallEvent}
    (hrun : Trans.Machine.runFn (Calls.step counting config) s ls = some s') :
    Stuck config s' := by
  induction ls generalizing s with
  | nil =>
    obtain rfl := Option.some.inj hrun
    exact h
  | cons l ls ih =>
    obtain ⟨t, ht, hrest⟩ := Option.bind_eq_some_iff.mp hrun
    exact ih (h.step ht) hrest

/-- **The breaker does not get stuck** as long as the last call of an episode ends well; if it does
not, the breaker is stuck, and allows no call from then on. -/
theorem stuck_iff {now : Nat} (h : ((callsMachine counting config now).restrict
      (EndsWell counting config)).Reachable s) :
    ¬ Stuck config s ∧
      (∀ l s', s.step counting config l = some s' →
        (¬ Stuck config s' ↔ EndsWell counting config s l)) ∧
      ∀ t ls t', Stuck config t →
        Trans.Machine.runFn (Calls.step counting config) t ls = some t' →
          (t'.clocked.step counting config .isAllowed).1 = false := by
  have hnot : ¬ Stuck config s := by
    apply h.invariant (I := fun s => ¬ Stuck config s)
    · rintro s rfl ⟨hstate, -⟩
      cases hstate
    · rintro s l s' hs ⟨hwell, hstep⟩
      exact (stuck_step_iff hstep hs).mpr hwell
  refine ⟨hnot, ?_, ?_⟩
  · intro l s' hs
    exact stuck_step_iff hs hnot
  · intro t ls t' ht hrun
    exact (ht.run hrun).denied

/-- One failure opens, one success closes, and there is one slot. -/
def oneSlot : CircuitBreakerConfig := ⟨1, 1, 0, 0, 1⟩

/-- In `HalfOpen` with two calls, one of them in the slot -/
def twoCalls : Calls := ⟨⟨0, ⟨.halfOpen, ⟨1, 0, 1, some 0, some 0⟩⟩⟩, 2⟩

theorem stuck_iff_two : ¬ Stuck oneSlot twoCalls ∧
    (∀ l s', twoCalls.step .wrapping oneSlot l = some s' →
      (¬ Stuck oneSlot s' ↔ EndsWell .wrapping oneSlot twoCalls l)) ∧
    ∀ t ls t', Stuck oneSlot t →
      Trans.Machine.runFn (Calls.step .wrapping oneSlot) t ls = some t' →
        (t'.clocked.step .wrapping oneSlot .isAllowed).1 = false := by
  have hinit : ((callsMachine .wrapping oneSlot 0).restrict
    (EndsWell .wrapping oneSlot)).Reachable ⟨⟨0, .new⟩, 0⟩ := .init rfl
  have hcalled := hinit.restrict_step .call (by simp [EndsWell]) rfl
  have hopened := hcalled.restrict_step .fails (by simp [EndsWell]) rfl
  have hbegun := hopened.restrict_step .call (by simp [EndsWell]) rfl
  have htwo := hbegun.restrict_step .call (by simp [EndsWell]) rfl
  exact stuck_iff htwo

/-- Five calls that fail, half a minute, and four calls that are cancelled -/
def fourCancelled : List CallEvent :=
  (List.replicate 5 [.call, .fails]).flatten ++ [.wait (fromSecs 30)] ++
    List.replicate 4 .call ++ List.replicate 4 .cancelled

theorem may_get_stuck : ¬ ∀ (counting : Counting) (config : CircuitBreakerConfig) (now : Nat)
    (s : Calls), 1 ≤ config.failureThreshold → 1 ≤ config.successThreshold →
      1 ≤ config.halfOpenMaxRequests → (callsMachine counting config now).Reachable s →
        ¬ Stuck config s := by
  intro h
  have hrun : Trans.Machine.runFn (Calls.step .wrapping .default) ⟨⟨0, .new⟩, 0⟩ fourCancelled =
      some ⟨⟨fromSecs 30, ⟨.halfOpen, ⟨5, 0, 3, some 0, some 0⟩⟩⟩, 0⟩ := rfl
  have hnot := h .wrapping .default 0 _ (by decide) (by decide) (by decide)
    (Trans.Machine.reachable_of_runFn (.init rfl) hrun)
  exact hnot ⟨rfl, Nat.le_refl 3, rfl⟩

/-! ## Without cancellations -/

/-- In `HalfOpen` every request but the ones that are outstanding has counted a success. -/
def Accounted (config : CircuitBreakerConfig) (s : Calls) : Prop :=
  s.breaker.state = .halfOpen →
    s.breaker.stats.halfOpenRequests + 1 ≤ s.outstanding ∨
      s.breaker.stats.consecutiveSuccesses < config.successThreshold ∧
        s.breaker.stats.halfOpenRequests + 1 ≤
          s.breaker.stats.consecutiveSuccesses + s.outstanding

/-- A slot is taken by a call that is outstanding. -/
theorem Accounted.call (h : Accounted config s) (hs : s.step counting config .call = some s') :
    Accounted config s' := by
  intro hstate
  rcases call_cases hs with ⟨hold, hsame⟩ | ⟨-, hnone, hmore⟩ | ⟨hold, -, hslot, hmore⟩ |
    ⟨-, -, rfl⟩
  · rw [hsame] at hstate
    exact absurd hstate hold
  · left
    omega
  · rw [hslot, hmore]
    rcases h hold with hall | ⟨hbelow, hsome⟩
    · left
      show s.breaker.stats.halfOpenRequests + 1 + 1 ≤ s.outstanding + 1
      omega
    · right
      refine ⟨hbelow, ?_⟩
      show s.breaker.stats.halfOpenRequests + 1 + 1 ≤
        s.breaker.stats.consecutiveSuccesses + (s.outstanding + 1)
      omega
  · exact h hstate

/-- A success that does not close is counted for the call that ends. -/
theorem Accounted.succeeds (h : Accounted config s)
    (hs : s.step .natural config .succeeds = some s') : Accounted config s' := by
  obtain ⟨n, hn, rfl⟩ := ends_eq_some.mp hs
  intro hstate
  have hnew : (s.breaker.recordSuccess .natural config).state = .halfOpen := hstate
  rcases recordSuccess_cases .natural config s.breaker with ⟨-, -, heq⟩ | ⟨hcounts, heq⟩
  · rw [heq] at hnew
    cases hnew
  · rw [heq] at hnew
    have hbelow : ¬ config.successThreshold ≤ s.breaker.stats.consecutiveSuccesses + 1 :=
      hcounts hnew
    right
    show (s.breaker.recordSuccess .natural config).stats.consecutiveSuccesses <
        config.successThreshold ∧
      (s.breaker.recordSuccess .natural config).stats.halfOpenRequests + 1 ≤
        (s.breaker.recordSuccess .natural config).stats.consecutiveSuccesses + n
    rw [heq]
    show s.breaker.stats.consecutiveSuccesses + 1 < config.successThreshold ∧
      s.breaker.stats.halfOpenRequests + 1 ≤ s.breaker.stats.consecutiveSuccesses + 1 + n
    rcases h hnew with hall | ⟨-, hsome⟩
    · omega
    · omega

theorem Accounted.step (h : Accounted config s)
    (hkept : l = .cancelled → s.breaker.state ≠ .halfOpen)
    (hs : s.step .natural config l = some s') : Accounted config s' := by
  cases l with
  | call => exact h.call hs
  | succeeds => exact h.succeeds hs
  | fails =>
    obtain ⟨n, -, rfl⟩ := ends_eq_some.mp hs
    intro hstate
    exact absurd hstate recordFailure_state_ne
  | cancelled =>
    obtain ⟨n, -, rfl⟩ := cancelled_eq_some.mp hs
    intro hstate
    exact absurd hstate (hkept rfl)
  | wait duration =>
    obtain rfl := Option.some.inj hs
    exact h

/-- With slots for the successes that close the breaker, and where no call is cancelled in
`HalfOpen`, the breaker does not get stuck. -/
theorem never_stuck_uncancelled {now : Nat}
    (hslots : config.successThreshold ≤ config.halfOpenMaxRequests + 1)
    (h : ((callsMachine .natural config now).restrict fun s l =>
      l = .cancelled → s.breaker.state ≠ .halfOpen).Reachable s) : ¬ Stuck config s := by
  have haccounted : Accounted config s := by
    apply h.invariant (I := Accounted config)
    · rintro s rfl hstate
      cases hstate
    · rintro s l s' hs ⟨hkept, hstep⟩
      exact hs.step hkept hstep
  rintro ⟨hstate, hfull, hnone⟩
  rcases haccounted hstate with hall | ⟨hbelow, hsome⟩
  · omega
  · omega

end CircuitBreaker

end MeiliBridge
