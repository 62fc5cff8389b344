import MeiliBridge.Recovery.Backoff

/-!
# Retry loops

`with_retry` counts its attempts itself; the loops of the `RetryManager` leave the counting to an
`ExponentialBackoff`. All three call the operation until it succeeds, until an error is judged not
retryable, or until `max_retries` retries are made, and return what the last call gave.
-/

set_option autoImplicit false

namespace MeiliBridge

/-- A loop that has returned: its calls, the delays it slept, and what it returned -/
structure Retried (δ α : Type) where
  calls : Nat
  slept : List δ
  outcome : Result α

def Retried.afterSleep {δ α : Type} (delay : δ) (r : Retried δ α) : Retried δ α :=
  { r with slept := delay :: r.slept }

/-- The operation of a loop, by the number of the call -/
abbrev Attempts (ε α : Type) := Nat → Except ε α

section WithRetry

variable {ε α : Type} (config : RetryConfig) (isRetryable : ε → Bool)
  (into : ε → MeiliBridgeError) (draws : RetryConfig.Draws) (operation : Attempts ε α)

/-- The loop of `with_retry` after this many calls -/
def withRetryLoop (calls attempt delayMs : Nat) : Retried Nat α :=
  match operation calls with
  | .ok result => ⟨calls + 1, [], .ok result⟩
  | .error err =>
    if !isRetryable err || config.maxRetries ≤ attempt then ⟨calls + 1, [], .error (into err)⟩
    else
      (withRetryLoop (calls + 1) (attempt + 1) (config.nextDelayMs delayMs)).afterSleep
        (config.actualDelay draws attempt delayMs)
termination_by config.maxRetries - attempt
decreasing_by
  simp_all
  omega

def withRetry : Retried Nat α :=
  withRetryLoop config isRetryable into draws operation 0 0 config.initialDelayMs

end WithRetry

namespace RetryManager

section Loop

variable {α : Type} (mul : MulF64) (factors : Nat → JitterFactor)
  (shouldRetry : Nat → MeiliBridgeError → Bool) (operation : Attempts MeiliBridgeError α)

/-- The loop of the manager after this many calls. The judgement may change from one error to the
next. -/
def retryLoop (calls : Nat) (backoff : ExponentialBackoff) : Except Fault (Retried Duration α) :=
  match operation calls with
  | .ok result => .ok ⟨calls + 1, [], .ok result⟩
  | .error error =>
    if !shouldRetry calls error then .ok ⟨calls + 1, [], .error error⟩
    else
      match hnext : backoff.nextDelay mul (factors calls) with
      | .error fault => .error fault
      | .ok (none, _) => .ok ⟨calls + 1, [], .error error⟩
      | .ok (some delay, backoff') =>
        (retryLoop (calls + 1) backoff').map (Retried.afterSleep delay)
termination_by backoff.retriesRemaining
decreasing_by
  obtain ⟨hlt, -, grown, -, rfl⟩ := ExponentialBackoff.nextDelay_eq_some.mp hnext
  exact Nat.sub_lt_sub_left hlt (Nat.lt_succ_self _)

def executeWithConditionalRetry (policy : RetryPolicy) : Except Fault (Retried Duration α) :=
  retryLoop mul factors shouldRetry operation 0 (.new policy)

/-- The same without a judgement -/
def executeWithRetry (policy : RetryPolicy) : Except Fault (Retried Duration α) :=
  retryLoop mul factors (fun _ _ => true) operation 0 (.new policy)

end Loop

end RetryManager

/-! ## How often they call -/

section EndsAt

variable {ε α : Type}

/-- From call `first` on, `last` is the first call that succeeds, that fails with an error which is
not retryable, or that is number `maxRetries + 1`. -/
structure EndsAt (retryable : Nat → ε → Bool) (maxRetries : Nat) (operation : Attempts ε α)
    (first last : Nat) : Prop where
  le : last ≤ maxRetries
  earlier : ∀ k, first ≤ k → k < last → ∃ e, operation k = .error e ∧ retryable k e = true
  stops : (∃ v, operation last = .ok v) ∨
    (∃ e, operation last = .error e ∧ retryable last e = false) ∨ last = maxRetries

variable {retryable : Nat → ε → Bool} {maxRetries first : Nat} {operation : Attempts ε α}

theorem EndsAt.here (hle : first ≤ maxRetries)
    (h : (∃ v, operation first = .ok v) ∨
      (∃ e, operation first = .error e ∧ retryable first e = false) ∨ first = maxRetries) :
    EndsAt retryable maxRetries operation first first :=
  ⟨hle, fun _ hk hlt => absurd hlt (Nat.not_lt.mpr hk), h⟩

theorem EndsAt.retried {last : Nat} {e : ε} (he : operation first = .error e)
    (hretryable : retryable first e = true)
    (h : EndsAt retryable maxRetries operation (first + 1) last) :
    EndsAt retryable maxRetries operation first last := by
  refine ⟨h.le, fun k hk hlt => ?_, h.stops⟩
  rcases Nat.eq_or_lt_of_le hk with rfl | hk
  · exact ⟨e, he, hretryable⟩
  · exact h.earlier k hk hlt

end EndsAt

theorem withRetryLoop_ends {ε α : Type} (config : RetryConfig) (isRetryable : ε → Bool)
    (into : ε → MeiliBridgeError) (draws : RetryConfig.Draws) (operation : Attempts ε α)
    (calls attempt delayMs : Nat) (hcalls : attempt = calls) (hle : attempt ≤ config.maxRetries) :
    ∃ last, EndsAt (fun _ => isRetryable) config.maxRetries operation calls last ∧
      (withRetryLoop config isRetryable into draws operation calls attempt delayMs).calls =
        last + 1 ∧
      (withRetryLoop config isRetryable into draws operation calls attempt delayMs).outcome =
        (operation last).mapError into := by
  fun_induction withRetryLoop config isRetryable into draws operation calls attempt delayMs with
  | case1 calls attempt delayMs result hok =>
    subst hcalls
    exact ⟨attempt, .here hle (.inl ⟨result, hok⟩), rfl, by rw [hok]; rfl⟩
  | case2 calls attempt delayMs err herr hstop =>
    subst hcalls
    refine ⟨attempt, .here hle ?_, rfl, by rw [herr]; rfl⟩
    rcases Bool.or_eq_true_iff.mp hstop with hjudged | hlast
    · exact .inr (.inl ⟨err, herr, by simpa using hjudged⟩)
    · exact .inr (.inr (Nat.le_antisymm hle (of_decide_eq_true hlast)))
  | case3 calls attempt delayMs err herr hgo ih =>
    subst hcalls
    have hretry : isRetryable err = true ∧ attempt < config.maxRetries := by simpa using hgo
    obtain ⟨last, hends, hlast, houtcome⟩ := ih rfl hretry.2
    exact ⟨last, hends.retried herr hretry.1, hlast, houtcome⟩

theorem RetryManager.retryLoop_ends {α : Type} (mul : Duration → ℚ → Duration)
    (factors : Nat → JitterFactor) (shouldRetry : Nat → MeiliBridgeError → Bool)
    (operation : Attempts MeiliBridgeError α) (calls : Nat) (backoff : ExponentialBackoff)
    (hcalls : backoff.currentRetry = calls)
    (hle : backoff.currentRetry ≤ backoff.policy.maxRetries) :
    ∃ last slept, EndsAt shouldRetry backoff.policy.maxRetries operation calls last ∧
      retryLoop (fun d q => .ok (mul d q)) factors shouldRetry operation calls backoff =
        .ok ⟨last + 1, slept, operation last⟩ := by
  fun_induction retryLoop (fun d q => .ok (mul d q)) factors shouldRetry operation
    calls backoff with
  | case1 calls backoff result hok =>
    subst hcalls
    exact ⟨_, [], .here hle (.inl ⟨result, hok⟩), by rw [hok]⟩
  | case2 calls backoff error herr hjudged =>
    subst hcalls
    exact ⟨_, [], .here hle (.inr (.inl ⟨error, herr, by simpa using hjudged⟩)), by rw [herr]⟩
  -- no fault comes up, as the durations are multiplied by a function that always answers
  | case3 calls backoff error herr hgo fault hnext =>
    rcases Nat.eq_or_lt_of_le hle with hlast | hlt
    · rw [ExponentialBackoff.nextDelay_none (Nat.le_of_eq hlast.symm)] at hnext
      cases hnext
    · obtain ⟨delay, b', hsome⟩ := ExponentialBackoff.nextDelay_total mul hlt
      rw [hsome] at hnext
      cases hnext
  -- out of delays: this was call number `max_retries + 1`
  | case4 calls backoff error herr hgo b' hnext =>
    subst hcalls
    rcases Nat.eq_or_lt_of_le hle with hlast | hlt
    · exact ⟨_, [], .here hle (.inr (.inr hlast)), by rw [herr]⟩
    · obtain ⟨delay, b', hsome⟩ := ExponentialBackoff.nextDelay_total mul hlt
      rw [hsome] at hnext
      cases hnext
  | case5 calls backoff error herr hgo delay b' hnext ih =>
    subst hcalls
    obtain ⟨hlt, -, grown, -, rfl⟩ := ExponentialBackoff.nextDelay_eq_some.mp hnext
    obtain ⟨last, slept, hends, hrun⟩ := ih rfl hlt
    refine ⟨last, delay :: slept, hends.retried herr (by simpa using hgo), ?_⟩
    rw [hrun]
    rfl

/-- The three loops call the operation up to and including the first success, the first error that
is not retryable or call number `max_retries + 1`, and return what that call gave. How the durations
are multiplied is left open. -/
theorem retry_loops_end {ε α : Type} :
    (∀ (config : RetryConfig) (isRetryable : ε → Bool) (into : ε → MeiliBridgeError)
        (draws : RetryConfig.Draws) (operation : Attempts ε α),
      ∃ last, EndsAt (fun _ => isRetryable) config.maxRetries operation 0 last ∧
        (withRetry config isRetryable into draws operation).calls = last + 1 ∧
        (withRetry config isRetryable into draws operation).outcome =
          (operation last).mapError into) ∧
    ∀ (policy : RetryPolicy) (mul : Duration → ℚ → Duration) (factors : Nat → JitterFactor)
        (operation : Attempts MeiliBridgeError α),
      (∃ last slept, EndsAt (fun _ _ => true) policy.maxRetries operation 0 last ∧
        RetryManager.executeWithRetry (fun d q => .ok (mul d q)) factors operation policy =
          .ok ⟨last + 1, slept, operation last⟩) ∧
      ∀ shouldRetry : Nat → MeiliBridgeError → Bool,
        ∃ last slept, EndsAt shouldRetry policy.maxRetries operation 0 last ∧
          RetryManager.executeWithConditionalRetry (fun d q => .ok (mul d q)) factors shouldRetry
            operation policy = .ok ⟨last + 1, slept, operation last⟩ := by
  refine ⟨?_, ?_⟩
  · intro config isRetryable into draws operation
    exact withRetryLoop_ends config isRetryable into draws operation 0 0 _ rfl (Nat.zero_le _)
  · intro policy mul factors operation
    have hloop := fun shouldRetry => RetryManager.retryLoop_ends mul factors shouldRetry operation 0
      (.new policy) rfl (Nat.zero_le _)
    exact ⟨hloop _, hloop⟩

end MeiliBridge
