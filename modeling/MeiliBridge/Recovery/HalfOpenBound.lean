import MeiliBridge.Recovery.BreakerLog

/-!
# The requests of a half-open episode

The request that finds the timeout over begins an episode and is let through without taking one of
the `half_open_max_requests`, so that an episode may have one more: `halfOpen_bound`.
-/

set_option autoImplicit false

namespace MeiliBridge

namespace CircuitBreaker

variable {counting : Counting} {config : CircuitBreakerConfig} {s : Logged} {op : Op}

/-- The request that begins an episode takes no slot. -/
structure SlotsCounted (s : Logged) : Prop where
  outside : s.breaker.state ≠ .halfOpen → episode s.log = []
  inside : s.breaker.state = .halfOpen →
    s.allowedRequests = s.breaker.stats.halfOpenRequests + 1

theorem SlotsCounted.step (hop : Automatic op) (h : SlotsCounted s) :
    SlotsCounted (s.step counting config op) := by
  refine ⟨episode_step_nil, ?_⟩
  intro hstate
  rw [Logged.allowedRequests, inEpisode_step hstate]
  cases op with
  | isAllowed =>
    show s.allowedRequests + (if (s.breaker.isAllowed config s.clocked.now).1 then 1 else 0) =
      (s.breaker.isAllowed config s.clocked.now).2.stats.halfOpenRequests + 1
    have hnew : (s.breaker.isAllowed config s.clocked.now).2.state = .halfOpen := hstate
    rcases isAllowed_cases config s.clocked.now s.breaker with ⟨hold, heq⟩ | ⟨hold, -, heq⟩ |
      ⟨hold, -, heq⟩ | ⟨hold, -, heq⟩ | ⟨hold, -, heq⟩
    · simp [heq, hold] at hnew
    · have hnone : s.allowedRequests = 0 := by
        rw [Logged.allowedRequests, Logged.inEpisode, h.outside (by simp [hold])]
        rfl
      simp [heq, hnone]
    · simp [heq, hold] at hnew
    · simp [heq, h.inside hold]
    · simp [heq, h.inside hold]
  | recordSuccess =>
    show s.allowedRequests + 0 =
      (s.breaker.recordSuccess counting config).stats.halfOpenRequests + 1
    have hnew : (s.breaker.recordSuccess counting config).state = .halfOpen := hstate
    rcases recordSuccess_cases counting config s.breaker with ⟨-, -, heq⟩ | ⟨-, heq⟩
    · simp [heq] at hnew
    · rw [heq] at hnew ⊢
      exact h.inside hnew
  | recordFailure => exact absurd hstate recordFailure_state_ne
  | setState newState => exact absurd rfl (hop newState)
  | wait duration => exact h.inside hstate

/-- A slot is free in `HalfOpen`. -/
def SlotFree (config : CircuitBreakerConfig) (s : Logged) : Prop :=
  s.breaker.state = .halfOpen →
    s.breaker.stats.halfOpenRequests < config.halfOpenMaxRequests

/-- A request does not take the last slot of an episode, and does not begin one without any. -/
def LeavesSlot (config : CircuitBreakerConfig) (s : Logged) (op : Op) : Prop :=
  op = .isAllowed →
    (s.breaker.state = .opened → s.breaker.TimeoutOver config s.clocked.now →
      0 < config.halfOpenMaxRequests) ∧
    (s.breaker.state = .halfOpen →
      s.breaker.stats.halfOpenRequests + 1 ≠ config.halfOpenMaxRequests)

theorem slotFree_step_iff (hop : Automatic op) (h : SlotFree config s) :
    SlotFree config (s.step counting config op) ↔ LeavesSlot config s op := by
  cases op with
  | isAllowed =>
    show ((s.breaker.isAllowed config s.clocked.now).2.state = .halfOpen →
      (s.breaker.isAllowed config s.clocked.now).2.stats.halfOpenRequests <
        config.halfOpenMaxRequests) ↔ _
    -- the call that opens the episode is let through without being counted
    rcases isAllowed_cases config s.clocked.now s.breaker with ⟨hold, heq⟩ | ⟨hold, hover, heq⟩ |
      ⟨hold, hover, heq⟩ | ⟨hold, hslot, heq⟩ | ⟨hold, hfull, heq⟩
    · simp [heq, hold, LeavesSlot]
    · simp [heq, hold, hover, LeavesSlot]
    · simp [heq, hold, hover, LeavesSlot]
    · simp only [heq, hold, LeavesSlot, forall_const, reduceCtorEq, false_implies, true_and]
      omega
    · exact absurd (h hold) (Nat.not_lt.mpr hfull)
  | recordSuccess =>
    refine iff_of_true ?_ (by simp [LeavesSlot])
    intro hstate
    have hnew : (s.breaker.recordSuccess counting config).state = .halfOpen := hstate
    show (s.breaker.recordSuccess counting config).stats.halfOpenRequests <
      config.halfOpenMaxRequests
    rcases recordSuccess_cases counting config s.breaker with ⟨-, -, heq⟩ | ⟨-, heq⟩
    · simp [heq] at hnew
    · rw [heq] at hnew ⊢
      exact h hnew
  | recordFailure =>
    refine iff_of_true ?_ (by simp [LeavesSlot])
    intro hstate
    exact absurd hstate recordFailure_state_ne
  | setState newState => exact absurd rfl (hop newState)
  | wait duration =>
    refine iff_of_true ?_ (by simp [LeavesSlot])
    exact h

/-- The bound in terms of what the breaker knows -/
theorem SlotsCounted.bound_iff (h : SlotsCounted s) :
    s.allowedRequests ≤ config.halfOpenMaxRequests ↔ SlotFree config s := by
  by_cases hstate : s.breaker.state = .halfOpen
  · rw [h.inside hstate, Nat.succ_le_iff]
    constructor
    · intro hslot _
      exact hslot
    · intro hfree
      exact hfree hstate
  · simp [Logged.allowedRequests, Logged.inEpisode, h.outside hstate, SlotFree, hstate]

/-- **At most `half_open_max_requests` in an episode**, as long as no request takes the last slot;
one that does is one too many. -/
theorem halfOpen_bound (h : ((loggedMachine counting config).restrict fun s op =>
      Automatic op ∧ LeavesSlot config s op).Reachable s) :
    s.allowedRequests ≤ config.halfOpenMaxRequests ∧
      ∀ op, Automatic op →
        ((s.step counting config op).allowedRequests ≤ config.halfOpenMaxRequests ↔
          LeavesSlot config s op) := by
  have hinv : SlotsCounted s ∧ SlotFree config s := by
    apply h.invariant (I := fun s => SlotsCounted s ∧ SlotFree config s)
    · rintro s ⟨now, rfl⟩
      refine ⟨⟨fun _ => rfl, ?_⟩, ?_⟩
      · intro hstate
        cases hstate
      · intro hstate
        cases hstate
    · rintro s op s' ⟨hcounted, hfree⟩ ⟨⟨hop, hleaves⟩, rfl⟩
      exact ⟨hcounted.step hop, (slotFree_step_iff hop hfree).mpr hleaves⟩
  refine ⟨hinv.1.bound_iff.mpr hinv.2, ?_⟩
  intro op hop
  rw [(hinv.1.step hop).bound_iff, slotFree_step_iff hop hinv.2]

/-- One failure opens, one success closes, and there are two slots. -/
def twoSlots : CircuitBreakerConfig := ⟨1, 1, 0, 0, 2⟩

theorem halfOpen_bound_two :
    (Logged.after .wrapping twoSlots [.recordFailure, .isAllowed, .isAllowed]).allowedRequests ≤
        twoSlots.halfOpenMaxRequests ∧
      ∀ op, Automatic op → (((Logged.after .wrapping twoSlots
          [.recordFailure, .isAllowed, .isAllowed]).step .wrapping twoSlots op).allowedRequests ≤
            twoSlots.halfOpenMaxRequests ↔
        LeavesSlot twoSlots
          (.after .wrapping twoSlots [.recordFailure, .isAllowed, .isAllowed]) op) := by
  apply halfOpen_bound
  apply reachable_after
  refine ⟨⟨by simp [Automatic], by simp [LeavesSlot]⟩, ⟨by simp [Automatic], ?_⟩,
    ⟨by simp [Automatic], ?_⟩, trivial⟩
  · intro _
    exact ⟨fun _ _ => Nat.two_pos, fun hstate => by cases hstate⟩
  · intro _
    exact ⟨fun _ _ => Nat.two_pos, fun _ => by decide⟩

/-- Five failures, half a minute, and four requests -/
def fourRequests : List Op :=
  List.replicate 5 .recordFailure ++ [.wait (fromSecs 30)] ++ List.replicate 4 .isAllowed

theorem halfOpen_bound_broken : ¬ ∀ (counting : Counting) (config : CircuitBreakerConfig)
    (s : Logged), ((loggedMachine counting config).restrict fun _ op => Automatic op).Reachable s →
      s.allowedRequests ≤ config.halfOpenMaxRequests := by
  intro h
  have hfour := h .wrapping .default (.after .wrapping .default fourRequests) <| by
    apply reachable_after
    apply Trans.Machine.Along.of_forall
    simp [fourRequests, Automatic]
  exact absurd hfour (by decide)

end CircuitBreaker

end MeiliBridge
