import Mathlib.Tactic.Linarith
import MeiliBridge.Lib.Trans
import MeiliBridge.Recovery.Retry

/-!
# The maximum delay

Both backoffs cut the delay when they compute the next one. The first delay is never cut, and the
jitter comes after the cut: a delay is slept or returned within the maximum for every draw exactly
if the delay before the jitter leaves room for the largest draw (`delays_capped_iff`).
-/

set_option autoImplicit false

namespace MeiliBridge

/-! ## Milliseconds -/

namespace RetryConfig

/-- Nothing that `with_retry` sleeps is over the maximum. -/
def Capped (config : RetryConfig) : Prop :=
  ∀ (ε α : Type) (isRetryable : ε → Bool) (into : ε → MeiliBridgeError) (draws : Draws)
    (operation : Attempts ε α),
    ∀ delay ∈ (withRetry config isRetryable into draws operation).slept, delay ≤ config.maxDelayMs

/-- The delay before the retry after this many attempts, without jitter -/
def delayBefore (config : RetryConfig) : Nat → Nat
  | 0 => config.initialDelayMs
  | attempt + 1 => config.nextDelayMs (config.delayBefore attempt)

/-- With the largest draw -/
def mostSlept (config : RetryConfig) (delayMs : Nat) : Nat :=
  if config.jitter then saturatingAdd delayMs (delayMs / 4) else delayMs

variable {config : RetryConfig}

theorem actualDelay_le (draws : Draws) (attempt delayMs : Nat) :
    config.actualDelay draws attempt delayMs ≤ config.mostSlept delayMs := by
  rw [actualDelay, mostSlept]
  split
  · have hdraw := (draws attempt (delayMs / 4)).is_le
    exact min_le_min_right _ (Nat.add_le_add_left hdraw _)
  · exact Nat.le_refl _

theorem actualDelay_last (attempt delayMs : Nat) :
    config.actualDelay (fun _ n => Fin.last n) attempt delayMs = config.mostSlept delayMs := rfl

theorem slept_eq {ε α : Type} {isRetryable : ε → Bool} {into : ε → MeiliBridgeError}
    {draws : Draws} {operation : Attempts ε α} {calls attempt delayMs delay : Nat}
    (hdelay : delayMs = config.delayBefore attempt)
    (h : delay ∈ (withRetryLoop config isRetryable into draws operation calls attempt
      delayMs).slept) :
    ∃ k, k < config.maxRetries ∧ delay = config.actualDelay draws k (config.delayBefore k) := by
  fun_induction withRetryLoop config isRetryable into draws operation calls attempt delayMs with
  | case1 calls attempt delayMs result hok => cases h
  | case2 calls attempt delayMs err herr hstop => cases h
  | case3 calls attempt delayMs err herr hgo ih =>
    subst hdelay
    rcases List.mem_cons.mp h with rfl | h
    · have hlt : attempt < config.maxRetries := by
        simp only [Bool.or_eq_true, decide_eq_true_eq, not_or] at hgo
        exact Nat.lt_of_not_le hgo.2
      exact ⟨attempt, hlt, rfl⟩
    · exact ih rfl h

/-- An operation that goes on failing makes every retry. -/
theorem mem_slept {ε α : Type} {isRetryable : ε → Bool} {into : ε → MeiliBridgeError}
    {draws : Draws} {operation : Attempts ε α}
    (hfails : ∀ k, ∃ e, operation k = .error e ∧ isRetryable e = true)
    {calls attempt delayMs k : Nat} (hdelay : delayMs = config.delayBefore attempt)
    (hk : attempt ≤ k) (hlt : k < config.maxRetries) :
    config.actualDelay draws k (config.delayBefore k) ∈
      (withRetryLoop config isRetryable into draws operation calls attempt delayMs).slept := by
  fun_induction withRetryLoop config isRetryable into draws operation calls attempt delayMs with
  | case1 calls attempt delayMs result hok =>
    obtain ⟨e, he, -⟩ := hfails calls
    rw [hok] at he
    cases he
  | case2 calls attempt delayMs err herr hstop =>
    obtain ⟨e, he, hretryable⟩ := hfails calls
    obtain rfl := Except.error.inj (herr.symm.trans he)
    rw [hretryable, Bool.not_true, Bool.false_or, decide_eq_true_eq] at hstop
    exact absurd (Nat.lt_of_le_of_lt hk hlt) (Nat.not_lt.mpr hstop)
  | case3 calls attempt delayMs err herr hgo ih =>
    subst hdelay
    rcases Nat.eq_or_lt_of_le hk with rfl | hk
    · exact List.mem_cons_self
    · exact List.mem_cons_of_mem _ (ih rfl hk)

/-- The delays are capped just if none of them is over the maximum with the largest draw. -/
theorem capped_iff : config.Capped ↔
    ∀ k, k < config.maxRetries → config.mostSlept (config.delayBefore k) ≤ config.maxDelayMs := by
  constructor
  · intro h k hk
    have hmem := @mem_slept config MeiliBridgeError Unit (fun _ => true) id (fun _ n => Fin.last n)
      (fun _ => .error (.io "refused")) (fun _ => ⟨_, rfl, rfl⟩) 0 0 _ k rfl (Nat.zero_le k) hk
    rw [← config.actualDelay_last k]
    exact h _ _ _ _ _ _ _ hmem
  · intro h ε α isRetryable into draws operation delay hdelay
    obtain ⟨k, hk, rfl⟩ := slept_eq rfl hdelay
    exact (actualDelay_le draws k _).trans (h k hk)

end RetryConfig

/-! ## Rounding -/

theorem F64.abs_roundHalfEven_sub_le (x : ℚ) : |(F64.roundHalfEven x : ℚ) - x| ≤ 1 / 2 := by
  have hfloor : ((x.floor : Int) : ℚ) ≤ x := Int.floor_le x
  have hlt : x < (x.floor : Int) + 1 := Int.lt_floor_add_one x
  rw [F64.roundHalfEven, abs_le]
  split_ifs <;> push_cast <;> constructor <;> linarith

theorem F64.roundHalfEven_le {x : ℚ} {n : Int} (h : x < n + 1 / 2) : F64.roundHalfEven x ≤ n := by
  obtain ⟨-, hup⟩ := abs_le.mp (F64.abs_roundHalfEven_sub_le x)
  apply Int.lt_add_one_iff.mp
  exact_mod_cast (by linarith : (F64.roundHalfEven x : ℚ) < n + 1)

theorem F64.le_roundHalfEven {x : ℚ} {n : Int} (h : n - 1 / 2 < x) : n ≤ F64.roundHalfEven x := by
  obtain ⟨hdown, -⟩ := abs_le.mp (F64.abs_roundHalfEven_sub_le x)
  apply Int.lt_add_one_iff.mp
  exact_mod_cast (by linarith : (n : ℚ) < F64.roundHalfEven x + 1)

theorem F64.toNat_roundHalfEven {x : ℚ} {n : Nat} (hlo : n - 1 / 2 < x) (hhi : x < n + 1 / 2) :
    (F64.roundHalfEven x).toNat = n := by
  have heq : F64.roundHalfEven x = (n : Int) := by
    apply le_antisymm
    · exact F64.roundHalfEven_le (by rw [Int.cast_natCast]; exact hhi)
    · exact F64.le_roundHalfEven (by rw [Int.cast_natCast]; exact hlo)
  rw [heq, Int.toNat_natCast]

/-! ## Durations -/

namespace Duration

theorem mulF64_eq_ok {d x : Duration} {q : ℚ} :
    d.mulF64 q = .ok x ↔ 0 ≤ d.1 * q ∧ x.1 = (F64.roundHalfEven (d.1 * q)).toNat := by
  rw [mulF64]
  split
  · next hnonneg =>
    dsimp only
    split
    · next hle =>
      rw [Except.ok.injEq, Subtype.ext_iff]
      exact ⟨fun h => ⟨hnonneg, h.symm⟩, fun h => h.2.symm⟩
    · next hlong =>
      refine iff_of_false (fun h => by cases h) fun h => hlong ?_
      rw [← h.2]
      exact x.2
  · next hneg => exact iff_of_false (fun h => by cases h) fun h => hneg h.1

/-- The longest product with a jitter factor -/
def longest (d : Duration) : Nat := min (3 * d.1 / 2) maxNanos

theorem le_longest (d : Duration) : d.1 ≤ d.longest := by
  refine le_min ?_ d.2
  omega

theorem mulF64_le_longest {d x : Duration} {factor : JitterFactor}
    (h : d.mulF64 factor = .ok x) : x.1 ≤ d.longest := by
  obtain ⟨-, hx⟩ := mulF64_eq_ok.mp h
  refine le_min ?_ x.2
  rw [hx]
  apply Int.toNat_le.mpr
  apply F64.roundHalfEven_le
  have hhalf : (3 * d.1 : ℚ) ≤ 2 * (3 * d.1 / 2 : Nat) + 1 := by
    exact_mod_cast (by omega : 3 * d.1 ≤ 2 * (3 * d.1 / 2) + 1)
  rw [Int.cast_natCast]
  rcases Nat.eq_zero_or_pos d.1 with hzero | hpos
  · rw [hzero]
    norm_num
  · have hlt := mul_lt_mul_of_pos_left factor.2.2 (Nat.cast_pos.mpr hpos : (0 : ℚ) < d.1)
    linarith

/-- Every duration that is not shorter and at most one and a half times as long is a product. -/
theorem exists_mulF64 {d x : Duration} (hle : d.1 ≤ x.1) (hx : x.1 ≤ 3 * d.1 / 2) :
    ∃ factor : JitterFactor, d.mulF64 factor = .ok x := by
  rcases Nat.eq_zero_or_pos d.1 with hzero | hpos
  · refine ⟨⟨1, by norm_num⟩, mulF64_eq_ok.mpr ⟨by rw [hzero]; norm_num, ?_⟩⟩
    rw [hzero] at hx ⊢
    rw [F64.toNat_roundHalfEven (n := 0) (by norm_num) (by norm_num)]
    exact Nat.le_zero.mp hx
  · have hd : (1 : ℚ) ≤ d.1 := by exact_mod_cast hpos
    have hlo : (d.1 : ℚ) ≤ x.1 := by exact_mod_cast hle
    have hhi : (2 * x.1 : ℚ) ≤ 3 * d.1 := by exact_mod_cast (by omega : 2 * x.1 ≤ 3 * d.1)
    have hne : (d.1 : ℚ) ≠ 0 := by linarith
    let factor : JitterFactor := ⟨(x.1 - 1 / 4) / d.1, by
      rw [le_div_iff₀ (by linarith), div_lt_iff₀ (by linarith)]
      constructor <;> linarith⟩
    have hprod : (d.1 : ℚ) * factor.1 = x.1 - 1 / 4 := mul_div_cancel₀ _ hne
    refine ⟨factor, mulF64_eq_ok.mpr ?_⟩
    rw [hprod]
    exact ⟨by linarith, (F64.toNat_roundHalfEven (by linarith) (by linarith)).symm⟩

end Duration

namespace RetryPolicy

def grow (policy : RetryPolicy) (d : Duration) : Option Duration :=
  (d.mulF64 policy.multiplier).toOption.map (min policy.maxDelay)

/-- The delay before the retry after this many attempts, without jitter -/
def delayBefore (policy : RetryPolicy) : Nat → Option Duration
  | 0 => some policy.initialDelay
  | attempt + 1 => (policy.delayBefore attempt).bind policy.grow

/-- With the largest jitter -/
def mostReturned (policy : RetryPolicy) (d : Duration) : Nat :=
  if policy.jitter then d.longest else d.1

end RetryPolicy

namespace ExponentialBackoff

inductive Use where
  | nextDelay (factor : JitterFactor)
  | reset

/-- A use of the backoff; none when `next_delay` panics -/
def use (b : ExponentialBackoff) : Use → Option ExponentialBackoff
  | .nextDelay factor => (b.nextDelay Duration.mulF64 factor).toOption.map Prod.snd
  | .reset => some b.reset

def machine (policy : RetryPolicy) : Trans.Machine ExponentialBackoff Use :=
  .ofFn (.new policy) use

variable {policy : RetryPolicy} {b b' : ExponentialBackoff} {factor : JitterFactor}
  {delay next : Duration}

theorem grow_eq_some {d : Duration} : policy.grow d = some next ↔
    ∃ grown, d.mulF64 policy.multiplier = .ok grown ∧ next = min policy.maxDelay grown := by
  rw [RetryPolicy.grow]
  cases d.mulF64 policy.multiplier with
  | error fault =>
    refine iff_of_false (fun h => by cases h) fun h => ?_
    obtain ⟨_, h, -⟩ := h
    cases h
  | ok grown =>
    constructor
    · intro h
      exact ⟨grown, rfl, (Option.some.inj h).symm⟩
    · rintro ⟨grown', h, rfl⟩
      obtain rfl := Except.ok.inj h
      rfl

/-- The delay and the next one, in terms of the policy -/
theorem nextDelay_eq_grow :
    b.nextDelay Duration.mulF64 factor = .ok (some delay, b') ↔
      b.currentRetry < b.policy.maxRetries ∧ b.jittered Duration.mulF64 factor = .ok delay ∧
      ∃ next, b.policy.grow b.currentDelay = some next ∧
        b' = ⟨b.policy, b.currentRetry + 1, next⟩ := by
  rw [nextDelay_eq_some]
  constructor
  · rintro ⟨hlt, hdelay, grown, hgrown, rfl⟩
    exact ⟨hlt, hdelay, _, grow_eq_some.mpr ⟨grown, hgrown, rfl⟩, rfl⟩
  · rintro ⟨hlt, hdelay, next, hnext, rfl⟩
    obtain ⟨grown, hgrown, rfl⟩ := grow_eq_some.mp hnext
    exact ⟨hlt, hdelay, grown, hgrown, rfl⟩

theorem jittered_le (h : b.jittered Duration.mulF64 factor = .ok delay) :
    delay.1 ≤ b.policy.mostReturned b.currentDelay := by
  rw [jittered] at h
  rw [RetryPolicy.mostReturned]
  split at h
  · next hjitter =>
    rw [if_pos hjitter]
    exact Duration.mulF64_le_longest h
  · next hjitter =>
    rw [if_neg hjitter]
    obtain rfl := Except.ok.inj h
    exact Nat.le_refl _

theorem mostReturned_le (d : Duration) : policy.mostReturned d ≤ maxNanos := by
  rw [RetryPolicy.mostReturned]
  split
  · exact min_le_right _ _
  · exact d.2

theorem le_mostReturned (d : Duration) : d.1 ≤ policy.mostReturned d := by
  rw [RetryPolicy.mostReturned]
  split
  · exact d.le_longest
  · exact Nat.le_refl _

/-- The largest delay is returned for some draw, and so is the delay without jitter. -/
theorem exists_jittered {n : Nat} (hlo : b.currentDelay.1 ≤ n)
    (hhi : n ≤ b.policy.mostReturned b.currentDelay) :
    ∃ factor : JitterFactor, ∃ delay : Duration,
      b.jittered Duration.mulF64 factor = .ok delay ∧ delay.1 = n := by
  let delay : Duration := ⟨n, hhi.trans (mostReturned_le _)⟩
  rw [RetryPolicy.mostReturned] at hhi
  split at hhi
  · next hjitter =>
    have hlongest : delay.1 ≤ 3 * b.currentDelay.1 / 2 := hhi.trans (min_le_left _ _)
    obtain ⟨factor, hfactor⟩ := Duration.exists_mulF64 (x := delay) hlo hlongest
    exact ⟨factor, delay, by rw [jittered, if_pos hjitter, hfactor], rfl⟩
  · next hjitter =>
    refine ⟨⟨1, by norm_num⟩, b.currentDelay, by rw [jittered, if_neg hjitter], ?_⟩
    exact Nat.le_antisymm hlo hhi

/-- A backoff in use holds the delay of its policy. -/
theorem delayBefore_reachable (h : (machine policy).Reachable b) :
    b.policy = policy ∧ policy.delayBefore b.currentRetry = some b.currentDelay := by
  apply h.invariant (I := fun b => b.policy = policy ∧
    policy.delayBefore b.currentRetry = some b.currentDelay)
  · intro b hb
    rw [hb]
    exact ⟨rfl, rfl⟩
  · intro b u b' hb hstep
    obtain ⟨rfl, hdelay⟩ := hb
    cases u with
    | reset =>
      obtain rfl := Option.some.inj hstep
      exact ⟨rfl, rfl⟩
    | nextDelay factor =>
      obtain ⟨⟨returned, after⟩, hreturned, rfl⟩ := Option.map_eq_some_iff.mp hstep
      have hok : b.nextDelay Duration.mulF64 factor = .ok (returned, after) := by
        cases hnext : b.nextDelay Duration.mulF64 factor with
        | error fault =>
          rw [hnext] at hreturned
          cases hreturned
        | ok r =>
          rw [hnext] at hreturned
          rw [Option.some.inj hreturned]
      cases returned with
      | none =>
        obtain rfl := eq_of_nextDelay_none hok
        exact ⟨rfl, hdelay⟩
      | some delay =>
        obtain ⟨-, -, next, hnext, rfl⟩ := nextDelay_eq_grow.mp hok
        refine ⟨rfl, ?_⟩
        rw [RetryPolicy.delayBefore, hdelay, Option.bind_some, hnext]

theorem use_nextDelay (h : b.nextDelay Duration.mulF64 factor = .ok (some delay, b')) :
    b.use (.nextDelay factor) = some b' := by
  rw [use, h]
  rfl

/-- Each delay that is reached without a panic -/
theorem reachable_delayBefore {attempt : Nat} (hle : attempt ≤ policy.maxRetries) {d : Duration}
    (h : policy.delayBefore attempt = some d) :
    (machine policy).Reachable ⟨policy, attempt, d⟩ := by
  induction attempt generalizing d with
  | zero =>
    obtain rfl := Option.some.inj h
    exact .init rfl
  | succ attempt ih =>
    obtain ⟨before, hbefore, hgrow⟩ := Option.bind_eq_some_iff.mp h
    have hreach := ih (Nat.le_of_succ_le hle) hbefore
    obtain ⟨factor, delay, hdelay, -⟩ := @exists_jittered ⟨policy, attempt, before⟩ before.1
      (Nat.le_refl _) (le_mostReturned before)
    exact .step hreach (use_nextDelay (nextDelay_eq_grow.mpr ⟨hle, hdelay, d, hgrow, rfl⟩))

end ExponentialBackoff

/-- Nothing that `next_delay` returns is over the maximum. -/
def RetryPolicy.Capped (policy : RetryPolicy) : Prop :=
  ∀ b, (ExponentialBackoff.machine policy).Reachable b →
    ∀ factor delay b', b.nextDelay Duration.mulF64 factor = .ok (some delay, b') →
      delay ≤ policy.maxDelay

/-- The delays are capped just if none of those that are returned is over the maximum with the
largest jitter. -/
theorem RetryPolicy.capped_iff {policy : RetryPolicy} : policy.Capped ↔
    ∀ k, k < policy.maxRetries → ∀ d, policy.delayBefore k = some d → (policy.grow d).isSome →
      policy.mostReturned d ≤ policy.maxDelay.1 := by
  constructor
  · intro h k hk d hd hgrows
    obtain ⟨next, hnext⟩ := Option.isSome_iff_exists.mp hgrows
    obtain ⟨factor, delay, hdelay, hmost⟩ := @ExponentialBackoff.exists_jittered ⟨policy, k, d⟩ _
      (ExponentialBackoff.le_mostReturned d) (Nat.le_refl _)
    have hreach := ExponentialBackoff.reachable_delayBefore (Nat.le_of_lt hk) hd
    have hcapped := h _ hreach factor delay _
      (ExponentialBackoff.nextDelay_eq_grow.mpr ⟨hk, hdelay, next, hnext, rfl⟩)
    rw [← hmost]
    exact hcapped
  · intro h b hb factor delay b' hnext
    obtain ⟨rfl, hd⟩ := ExponentialBackoff.delayBefore_reachable hb
    obtain ⟨hlt, hdelay, next, hgrow, -⟩ := ExponentialBackoff.nextDelay_eq_grow.mp hnext
    have hmost := h _ hlt _ hd (Option.isSome_of_eq_some hgrow)
    exact (ExponentialBackoff.jittered_le hdelay).trans hmost

/-- With either backoff nothing over the maximum comes out just if, before every retry that is
made, the delay leaves room for the largest jitter. -/
theorem delays_capped_iff (config : RetryConfig) (policy : RetryPolicy) :
    (config.Capped ↔ ∀ k, k < config.maxRetries →
      config.mostSlept (config.delayBefore k) ≤ config.maxDelayMs) ∧
    (policy.Capped ↔ ∀ k, k < policy.maxRetries → ∀ d, policy.delayBefore k = some d →
      (policy.grow d).isSome → policy.mostReturned d ≤ policy.maxDelay.1) :=
  ⟨RetryConfig.capped_iff, RetryPolicy.capped_iff⟩

/-- One second before the only retry, which is also the maximum: the jitter goes over it. -/
theorem delays_over_maximum :
    ¬ (∀ config : RetryConfig, config.Capped) ∧ ¬ ∀ policy : RetryPolicy, policy.Capped := by
  refine ⟨fun hall => ?_, fun hall => ?_⟩
  · have hmost := RetryConfig.capped_iff.mp (hall ⟨1, 1000, 1000, 2, true⟩) 0 (Nat.lt_succ_self 0)
    revert hmost
    decide
  · let second : Duration := ⟨1000000000, by decide⟩
    have hdouble : second.mulF64 2 = .ok ⟨2000000000, by decide⟩ := by
      refine Duration.mulF64_eq_ok.mpr ⟨by norm_num [second], ?_⟩
      exact (F64.toNat_roundHalfEven (by norm_num [second]) (by norm_num [second])).symm
    have hgrows : (RetryPolicy.grow ⟨1, second, second, 2, true⟩ second).isSome = true :=
      Option.isSome_of_eq_some
        (ExponentialBackoff.grow_eq_some.mpr ⟨_, hdouble, rfl⟩)
    have hmost := RetryPolicy.capped_iff.mp (hall ⟨1, second, second, 2, true⟩) 0
      (Nat.lt_succ_self 0) second rfl hgrows
    revert hmost
    decide

end MeiliBridge
