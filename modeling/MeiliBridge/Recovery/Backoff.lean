import Mathlib.Data.Rat.Floor
import MeiliBridge.Base.Number
import MeiliBridge.Models.Error

/-!
# Delays between retries

The delays of `with_retry` are milliseconds in a `u64`, those of `ExponentialBackoff` are
`Duration`s. Both grow by a factor up to a maximum, and both may be jittered before they are slept.
A factor is the exact rational value of its `f64`.
-/

set_option autoImplicit false

namespace MeiliBridge

/-! ## Milliseconds -/

def saturatingAdd (a b : Nat) : Nat := min (a + b) u64Max

structure RetryConfig where
  maxRetries : Nat
  initialDelayMs : Nat
  maxDelayMs : Nat
  multiplier : ℚ
  jitter : Bool

namespace RetryConfig

/-- `gen_range(0..=n)` for the retry of that number -/
abbrev Draws := Nat → (n : Nat) → Fin (n + 1)

/-- The delay that is slept before the retry after this attempt -/
def actualDelay (config : RetryConfig) (draws : Draws) (attempt delayMs : Nat) : Nat :=
  if config.jitter then saturatingAdd delayMs (draws attempt (delayMs / 4)) else delayMs

/-- The delay for the next retry -/
def nextDelayMs (config : RetryConfig) (delayMs : Nat) : Nat :=
  let delay := castU64 (delayMs * config.multiplier)
  if config.maxDelayMs < delay then config.maxDelayMs else delay

end RetryConfig

/-! ## Durations -/

/-- The longest `Duration`, in nanoseconds -/
def maxNanos : Nat := 18446744073709551615999999999

/-- `Duration`, in nanoseconds -/
abbrev Duration := { nanos : Nat // nanos ≤ maxNanos }

/-- `Duration::mul_f64`: to the nearest nanosecond; a negative product and one that is too long
panic. -/
def Duration.mulF64 (d : Duration) (q : ℚ) : Except Fault Duration :=
  if 0 ≤ d.1 * q then
    let nanos := (F64.roundHalfEven (d.1 * q)).toNat
    if h : nanos ≤ maxNanos then .ok ⟨nanos, h⟩ else .error .panic
  else .error .panic

structure RetryPolicy where
  maxRetries : Nat
  initialDelay : Duration
  maxDelay : Duration
  multiplier : ℚ
  jitter : Bool

/-- `gen_range(0.5..1.5)` -/
abbrev JitterFactor := { q : ℚ // 1 / 2 ≤ q ∧ q < 3 / 2 }

/-- How durations are multiplied -/
abbrev MulF64 := Duration → ℚ → Except Fault Duration

structure ExponentialBackoff where
  policy : RetryPolicy
  currentRetry : Nat
  currentDelay : Duration

namespace ExponentialBackoff

def new (policy : RetryPolicy) : ExponentialBackoff := ⟨policy, 0, policy.initialDelay⟩

def reset (b : ExponentialBackoff) : ExponentialBackoff :=
  { b with currentRetry := 0, currentDelay := b.policy.initialDelay }

/-- The delay that is returned, before it is -/
def jittered (mul : MulF64) (factor : JitterFactor) (b : ExponentialBackoff) :
    Except Fault Duration :=
  if b.policy.jitter then mul b.currentDelay factor else .ok b.currentDelay

def nextDelay (mul : MulF64) (factor : JitterFactor) (b : ExponentialBackoff) :
    Except Fault (Option Duration × ExponentialBackoff) :=
  if b.policy.maxRetries ≤ b.currentRetry then .ok (none, b)
  else do
    let delay ← b.jittered mul factor
    let grown ← mul b.currentDelay b.policy.multiplier
    let next := if b.policy.maxDelay < grown then b.policy.maxDelay else grown
    .ok (some delay, { b with currentRetry := b.currentRetry + 1, currentDelay := next })

def retriesRemaining (b : ExponentialBackoff) : Nat := b.policy.maxRetries - b.currentRetry

variable {mul : MulF64} {factor : JitterFactor} {b b' : ExponentialBackoff}

theorem nextDelay_none (h : b.policy.maxRetries ≤ b.currentRetry) :
    b.nextDelay mul factor = .ok (none, b) := if_pos h

theorem eq_of_nextDelay_none (h : b.nextDelay mul factor = .ok (none, b')) : b' = b := by
  rw [nextDelay] at h
  split at h
  · exact (Prod.mk.inj (Except.ok.inj h)).2.symm
  · obtain ⟨delay, -, hrest⟩ := bind_eq_ok.mp h
    obtain ⟨grown, -, heq⟩ := bind_eq_ok.mp hrest
    cases (Prod.mk.inj (Except.ok.inj heq)).1

/-- The delay, and the backoff for the one after it -/
theorem nextDelay_eq_some {delay : Duration} :
    b.nextDelay mul factor = .ok (some delay, b') ↔
      b.currentRetry < b.policy.maxRetries ∧ b.jittered mul factor = .ok delay ∧
      ∃ grown, mul b.currentDelay b.policy.multiplier = .ok grown ∧
        b' = ⟨b.policy, b.currentRetry + 1, min b.policy.maxDelay grown⟩ := by
  rw [nextDelay]
  by_cases hmax : b.policy.maxRetries ≤ b.currentRetry
  · rw [if_pos hmax]
    exact iff_of_false (fun h => by cases h) fun h => Nat.not_lt.mpr hmax h.1
  · rw [if_neg hmax, bind_eq_ok]
    constructor
    · rintro ⟨d, hd, hrest⟩
      obtain ⟨grown, hgrown, heq⟩ := bind_eq_ok.mp hrest
      obtain ⟨hdelay, rfl⟩ := Prod.mk.inj (Except.ok.inj heq)
      obtain rfl := Option.some.inj hdelay
      exact ⟨Nat.lt_of_not_le hmax, hd, grown, hgrown, by rw [min_def_lt]⟩
    · rintro ⟨-, hd, grown, hgrown, rfl⟩
      refine ⟨delay, hd, bind_eq_ok.mpr ⟨grown, hgrown, ?_⟩⟩
      rw [min_def_lt]

/-- Where no multiplication panics, only the number of retries ends the delays. -/
theorem nextDelay_total (mul : Duration → ℚ → Duration)
    (h : b.currentRetry < b.policy.maxRetries) :
    ∃ delay b', b.nextDelay (fun d q => .ok (mul d q)) factor = .ok (some delay, b') := by
  have hjittered : ∃ delay, b.jittered (fun d q => .ok (mul d q)) factor = .ok delay := by
    rw [jittered]
    split
    · exact ⟨_, rfl⟩
    · exact ⟨_, rfl⟩
  obtain ⟨delay, hdelay⟩ := hjittered
  exact ⟨delay, _, nextDelay_eq_some.mpr ⟨h, hdelay, _, rfl, rfl⟩⟩

end ExponentialBackoff

end MeiliBridge
