import MeiliBridge.Recovery.BreakerLog

/-!
# The successes that close the breaker

The counter of consecutive successes is one for all states, and an episode does not begin with a
new one: `closes_on_fresh_evidence` says when what it counts is of the episode.
-/

set_option autoImplicit false

namespace MeiliBridge

namespace CircuitBreaker

variable {counting : Counting} {config : CircuitBreakerConfig} {s : Logged} {op : Op}

/-- Each time that the breaker has closed from `HalfOpen`, it was on enough successes of the
episode, the last one included, and after no failure. -/
def ClosedOnFresh (config : CircuitBreakerConfig) : List Entry → Prop :=
  History.Each fun e before => e.before = .halfOpen → e.after = .closed →
    config.successThreshold ≤ (e :: episode before).countP (·.op = .recordSuccess) ∧
      ∀ e' ∈ e :: episode before, e'.op ≠ .recordFailure

/-- The only state that is set by hand is `HalfOpen`. -/
def SetsHalfOpen (op : Op) : Prop := ∀ newState, op = .setState newState → newState = .halfOpen

/-- The step begins an episode. -/
def Begins (config : CircuitBreakerConfig) (s : Logged) (op : Op) : Prop :=
  (op = .isAllowed ∧ s.breaker.state = .opened ∧ s.breaker.TimeoutOver config s.clocked.now) ∨
    (op = .setState .halfOpen ∧ s.breaker.state ≠ .halfOpen)

/-- No success is left over where an episode begins, or one is enough to close. -/
def BeginsFresh (config : CircuitBreakerConfig) (s : Logged) (op : Op) : Prop :=
  Begins config s op →
    s.breaker.stats.consecutiveSuccesses = 0 ∨ config.successThreshold ≤ 1

structure SuccessesFresh (config : CircuitBreakerConfig) (s : Logged) : Prop where
  outside : s.breaker.state ≠ .halfOpen → episode s.log = []
  inside : s.breaker.state = .halfOpen →
    s.breaker.stats.consecutiveSuccesses ≤ s.freshSuccesses ∨ config.successThreshold ≤ 1
  noFailure : ∀ e ∈ episode s.log, e.op ≠ .recordFailure
  closings : ClosedOnFresh config s.log

/-- The successes counted are of the episode. -/
theorem SuccessesFresh.inside_step (hop : SetsHalfOpen op) (hbegins : BeginsFresh config s op)
    (h : SuccessesFresh config s) (hstate : (s.step counting config op).breaker.state = .halfOpen) :
    (s.step counting config op).breaker.stats.consecutiveSuccesses ≤
        (s.step counting config op).freshSuccesses ∨ config.successThreshold ≤ 1 := by
  rw [Logged.freshSuccesses, inEpisode_step hstate]
  cases op with
  | isAllowed =>
    show (s.breaker.isAllowed config s.clocked.now).2.stats.consecutiveSuccesses ≤
      s.freshSuccesses + 0 ∨ _
    have hnew : (s.breaker.isAllowed config s.clocked.now).2.state = .halfOpen := hstate
    rcases isAllowed_cases config s.clocked.now s.breaker with ⟨hold, heq⟩ | ⟨hold, hover, heq⟩ |
      ⟨hold, -, heq⟩ | ⟨hold, -, heq⟩ | ⟨hold, -, heq⟩
    · simp [heq, hold] at hnew
    · rw [heq]
      -- the episode begins here, with no success of its own yet
      apply (hbegins (.inl ⟨rfl, hold, hover⟩)).imp_left
      intro hnone
      simp [hnone]
    · simp [heq, hold] at hnew
    · rw [heq]
      exact h.inside hold
    · rw [heq]
      exact h.inside hold
  | recordSuccess =>
    show (s.breaker.recordSuccess counting config).stats.consecutiveSuccesses ≤
      s.freshSuccesses + 1 ∨ _
    have hnew : (s.breaker.recordSuccess counting config).state = .halfOpen := hstate
    rcases recordSuccess_cases counting config s.breaker with ⟨-, -, heq⟩ | ⟨-, heq⟩
    -- this success closes the breaker
    · simp [heq] at hnew
    · rw [heq] at hnew ⊢
      apply (h.inside hnew).imp_left
      intro hle
      exact Nat.le_trans (counting.next_le _) (Nat.add_le_add_right hle 1)
  | recordFailure => exact absurd hstate recordFailure_state_ne
  | setState newState =>
    obtain rfl := hop newState rfl
    show s.breaker.stats.consecutiveSuccesses ≤ s.freshSuccesses + 0 ∨ _
    by_cases hold : s.breaker.state = .halfOpen
    · exact h.inside hold
    · apply (hbegins (.inr ⟨rfl, hold⟩)).imp_left
      intro hnone
      simp [hnone]
  | wait duration => exact h.inside hstate

/-- In `HalfOpen` only a success closes the breaker, when it makes the number full. -/
theorem closing_step (hop : SetsHalfOpen op) (hold : s.breaker.state = .halfOpen)
    (hnew : (s.step counting config op).breaker.state = .closed) : op = .recordSuccess ∧
      config.successThreshold ≤ counting.next s.breaker.stats.consecutiveSuccesses := by
  cases op with
  | isAllowed =>
    have hstate : (s.breaker.isAllowed config s.clocked.now).2.state = .closed := hnew
    rcases isAllowed_cases config s.clocked.now s.breaker with ⟨hother, -⟩ | ⟨hother, -, -⟩ |
      ⟨hother, -, -⟩ | ⟨-, -, heq⟩ | ⟨-, -, heq⟩
    · simp [hold] at hother
    · simp [hold] at hother
    · simp [hold] at hother
    · simp [heq, hold] at hstate
    · simp [heq, hold] at hstate
  | recordSuccess =>
    refine ⟨rfl, ?_⟩
    have hstate : (s.breaker.recordSuccess counting config).state = .closed := hnew
    rcases recordSuccess_cases counting config s.breaker with ⟨-, hreached, -⟩ | ⟨-, heq⟩
    · exact hreached
    · simp [heq, hold] at hstate
  | recordFailure =>
    have hstate : (s.breaker.recordFailure counting config s.clocked.now).state = .closed := hnew
    simp [recordFailure_halfOpen hold] at hstate
  | setState newState =>
    obtain rfl := hop newState rfl
    cases hnew
  | wait duration =>
    have hstate : s.breaker.state = .closed := hnew
    simp [hold] at hstate

theorem SuccessesFresh.step (hop : SetsHalfOpen op) (hbegins : BeginsFresh config s op)
    (h : SuccessesFresh config s) : SuccessesFresh config (s.step counting config op) where
  outside := episode_step_nil
  inside := h.inside_step hop hbegins
  noFailure := by
    rw [episode_step]
    split
    · next hstate =>
      intro e he
      rcases List.mem_cons.mp he with rfl | he
      · intro hfailure
        obtain rfl : op = .recordFailure := hfailure
        exact recordFailure_state_ne hstate
      · exact h.noFailure e he
    · simp
  closings := by
    refine History.each_cons.mpr ⟨?_, h.closings⟩
    intro hold hnew
    obtain ⟨rfl, hreached⟩ := closing_step hop hold hnew
    constructor
    · rw [List.countP_cons]
      show config.successThreshold ≤ s.freshSuccesses + 1
      rcases h.inside hold with hfresh | hone
      · exact Nat.le_trans (Nat.le_trans hreached (counting.next_le _))
          (Nat.add_le_add_right hfresh 1)
      · exact Nat.le_trans hone (Nat.le_add_left 1 _)
    · intro e' he'
      rcases List.mem_cons.mp he' with rfl | he'
      · simp [Logged.entry]
      · exact h.noFailure e' he'

theorem SuccessesFresh.successes (h : SuccessesFresh config s) (m : Nat) : SuccessesFresh config
    ((List.replicate m .recordSuccess).foldl (Logged.step counting config) s) := by
  induction m generalizing s with
  | zero => exact h
  | succ m ih =>
    apply ih
    apply h.step
    · simp [SetsHalfOpen]
    · simp [BeginsFresh, Begins]

theorem successesFresh_start (now : Nat) : SuccessesFresh config (.start now) where
  outside := by
    intro _
    rfl
  inside := by simp [Logged.start, CircuitBreaker.new]
  noFailure := by simp [Logged.start, episode]
  closings := History.each_nil _

theorem successesFresh_reachable (h : ((loggedMachine counting config).restrict fun s op =>
    SetsHalfOpen op ∧ BeginsFresh config s op).Reachable s) : SuccessesFresh config s := by
  apply h.invariant
  · rintro s ⟨now, rfl⟩
    exact successesFresh_start now
  · rintro s op s' hs ⟨⟨hop, hbegins⟩, rfl⟩
    exact hs.step hop hbegins

/-- With successes left over the breaker closes early. -/
theorem closes_early {n : Nat} (hstate : s.breaker.state = .halfOpen) (hn : n ≠ 0)
    (hfew : s.freshSuccesses + n < config.successThreshold)
    (hleft : config.successThreshold ≤ s.breaker.stats.consecutiveSuccesses + n) :
    ∃ m, ¬ ClosedOnFresh config
      ((List.replicate m .recordSuccess).foldl (Logged.step .natural config) s).log := by
  induction n generalizing s with
  | zero => exact absurd rfl hn
  | succ n ih =>
    -- the next success closes the circuit on stale ones, or it is one success nearer to that
    by_cases hreached : config.successThreshold ≤ s.breaker.stats.consecutiveSuccesses + 1
    · refine ⟨1, ?_⟩
      intro hclosings
      have hnew : (s.breaker.recordSuccess .natural config).state = .closed := by
        rw [recordSuccess_closes hstate hreached]
      obtain ⟨hcount, -⟩ := (History.each_cons.mp hclosings).1 hstate hnew
      rw [List.countP_cons] at hcount
      have hfresh : config.successThreshold ≤ s.freshSuccesses + 1 := hcount
      omega
    · have hbreaker : (s.step .natural config .recordSuccess).breaker =
          { s.breaker with stats := s.breaker.stats.recordSuccess .natural } :=
        recordSuccess_counts fun _ => hreached
      have hnew : (s.step .natural config .recordSuccess).breaker.state = .halfOpen := by
        rw [hbreaker]
        exact hstate
      have hfresh : (s.step .natural config .recordSuccess).freshSuccesses =
          s.freshSuccesses + 1 := by
        rw [Logged.freshSuccesses, inEpisode_step hnew]
        rfl
      have hsuccesses : (s.step .natural config .recordSuccess).breaker.stats.consecutiveSuccesses =
          s.breaker.stats.consecutiveSuccesses + 1 := by
        rw [hbreaker]
        rfl
      obtain ⟨m, hm⟩ := ih hnew (by omega) (by omega) (by omega)
      exact ⟨m + 1, hm⟩

/-- What an episode begins with -/
theorem begins_step (hbegins : Begins config s op) (h : SuccessesFresh config s) :
    (s.step counting config op).breaker.state = .halfOpen ∧
      (s.step counting config op).freshSuccesses = 0 ∧
      (s.step counting config op).breaker.stats.consecutiveSuccesses =
        s.breaker.stats.consecutiveSuccesses := by
  have hstate : (s.step counting config op).breaker.state = .halfOpen ∧
      (s.step counting config op).breaker.stats.consecutiveSuccesses =
        s.breaker.stats.consecutiveSuccesses := by
    rcases hbegins with ⟨rfl, hold, hover⟩ | ⟨rfl, -⟩
    · have heq : (s.step counting config .isAllowed).breaker =
          (s.breaker.isAllowed config s.clocked.now).2 := rfl
      rw [heq, isAllowed_probe hold hover]
      exact ⟨rfl, rfl⟩
    · exact ⟨rfl, rfl⟩
  have hold : s.breaker.state ≠ .halfOpen := by
    rcases hbegins with ⟨-, hold, -⟩ | ⟨-, hold⟩
    · simp [hold]
    · exact hold
  refine ⟨hstate.1, ?_, hstate.2⟩
  rw [Logged.freshSuccesses, inEpisode_step hstate.1, Logged.inEpisode, h.outside hold]
  rcases hbegins with ⟨rfl, -⟩ | ⟨rfl, -⟩
  · rfl
  · rfl

/-- **The breaker closes on successes of the episode**, as long as no episode begins with successes
left over; from one that does, successes alone lead to an early closing. -/
theorem closes_on_fresh_evidence (h : ((loggedMachine counting config).restrict fun s op =>
      SetsHalfOpen op ∧ BeginsFresh config s op).Reachable s) :
    ClosedOnFresh config s.log ∧
      (counting = .natural → ∀ op, SetsHalfOpen op →
        (BeginsFresh config s op ↔ ∀ m, ClosedOnFresh config
          ((List.replicate m .recordSuccess).foldl (Logged.step counting config)
            (s.step counting config op)).log)) := by
  have hs := successesFresh_reachable h
  refine ⟨hs.closings, ?_⟩
  rintro rfl op hop
  constructor
  · intro hbegins m
    exact ((hs.step hop hbegins).successes m).closings
  · intro hclosings hbegins
    obtain ⟨hstate, hfresh, hsuccesses⟩ := @begins_step .natural config s op hbegins hs
    apply Decidable.byContradiction
    intro hnot
    rw [not_or] at hnot
    obtain ⟨m, hm⟩ := @closes_early config _ (config.successThreshold - 1) hstate (by omega)
      (by omega) (by omega)
    exact hm (hclosings m)

/-- Two successes close, and a success before the failure does not count. -/
def twoSuccesses : CircuitBreakerConfig := ⟨1, 2, 0, 0, 2⟩

theorem closes_on_fresh_evidence_two :
    ClosedOnFresh twoSuccesses (Logged.after .natural twoSuccesses
        [.recordSuccess, .recordFailure, .isAllowed, .recordSuccess, .recordSuccess]).log ∧
      (Counting.natural = .natural → ∀ op, SetsHalfOpen op →
        (BeginsFresh twoSuccesses (.after .natural twoSuccesses
            [.recordSuccess, .recordFailure, .isAllowed, .recordSuccess, .recordSuccess]) op ↔
          ∀ m, ClosedOnFresh twoSuccesses ((List.replicate m .recordSuccess).foldl
            (Logged.step .natural twoSuccesses) ((Logged.after .natural twoSuccesses
              [.recordSuccess, .recordFailure, .isAllowed, .recordSuccess, .recordSuccess]).step
                .natural twoSuccesses op)).log)) := by
  apply closes_on_fresh_evidence
  apply reachable_after
  refine ⟨⟨by simp [SetsHalfOpen], by simp [BeginsFresh, Begins]⟩,
    ⟨by simp [SetsHalfOpen], by simp [BeginsFresh, Begins]⟩, ⟨by simp [SetsHalfOpen], ?_⟩,
    ⟨by simp [SetsHalfOpen], by simp [BeginsFresh, Begins]⟩,
    ⟨by simp [SetsHalfOpen], by simp [BeginsFresh, Begins]⟩, trivial⟩
  intro _
  exact .inl rfl

/-- Three calls of before the failures succeed late, and one success of the episode closes. -/
def lateSuccesses : List Op :=
  List.replicate 5 .recordFailure ++ List.replicate 3 .recordSuccess ++
    [.wait (fromSecs 30), .isAllowed, .recordSuccess]

theorem may_close_on_late_successes : ¬ ∀ (counting : Counting) (config : CircuitBreakerConfig)
    (s : Logged),
      ((loggedMachine counting config).restrict fun _ op => SetsHalfOpen op).Reachable s →
        ClosedOnFresh config s.log := by
  intro h
  have hclosings := h .wrapping .default (.after .wrapping .default lateSuccesses) <| by
    apply reachable_after
    apply Trans.Machine.Along.of_forall
    simp [lateSuccesses, SetsHalfOpen]
  obtain ⟨hcount, -⟩ := (History.each_cons.mp hclosings).1 rfl rfl
  exact absurd hcount (by decide)

end CircuitBreaker

end MeiliBridge
