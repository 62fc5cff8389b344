import Mathlib.Tactic.Linarith
import MeiliBridge.Base.Number
import MeiliBridge.Config

/-!
# Adaptive batching

The manager keeps a batch size for every table, which it moves with the average latency of the last
batches and with the memory pressure. Factors, ratios and percentages are exact rationals here, and
a size is truncated as the code truncates it.

The pressure is a percentage, and the rule compares it with 0.8. `movesRight_iff` says where the
rule moves the size the right way all the same, and where truncation keeps it from moving.
-/

set_option autoImplicit false

namespace MeiliBridge

structure AdaptiveBatchingConfig where
  targetLatencyMs : Nat
  adjustmentFactor : ℚ
  metricWindowSize : Nat
  adjustmentIntervalMs : Nat
  /-- A percentage, which the rule does not look at -/
  memoryPressureThreshold : ℚ
  perTableOptimization : Bool

/-- What is read here of the metrics of a batch -/
structure BatchMetrics where
  batchSize : Nat
  processingTimeMs : Nat

structure TableBatchState where
  currentBatchSize : Nat
  metricsWindow : List BatchMetrics
  lastAdjustment : Nat
  consecutiveSuccesses : UInt32
  consecutiveFailures : UInt32

def TableBatchState.new (initialSize now : Nat) : TableBatchState := ⟨initialSize, [], now, 0, 0⟩

/-- The used and the total memory that `System` reports -/
structure SystemMemory where
  used : Nat
  total : Nat

/-- `get_memory_pressure`: a percentage -/
def SystemMemory.pressure (memory : SystemMemory) : ℚ :=
  if 0 < memory.total then memory.used / memory.total * 100 else 0

/-- `AdaptiveBatchingConfig::default` -/
def AdaptiveBatchingConfig.default : AdaptiveBatchingConfig where
  targetLatencyMs := 1000
  adjustmentFactor := 1 / 5
  metricWindowSize := 10
  adjustmentIntervalMs := 5000
  memoryPressureThreshold := 80
  perTableOptimization := true

namespace AdaptiveBatchingManager

/-- `target_latency_ms as f64 / avg_latency_ms as f64` -/
inductive LatencyRatio where
  | nan
  | infinite
  | finite (ratio : ℚ)

def latencyRatio (target avgLatency : Nat) : LatencyRatio :=
  if avgLatency = 0 then if target = 0 then .nan else .infinite
  else .finite (target / avgLatency)

variable (config : AdaptiveBatchingConfig)

/-- The size times one plus the factor, for `f64::min(latency_ratio - 1.0, 1.0)` -/
def increased (currentSize : Nat) (excess : ℚ) : Nat :=
  castU64 (currentSize * (1 + config.adjustmentFactor * excess))

/-- The size times one minus the factor, for `f64::min(1.0 - latency_ratio, 0.5)` -/
def decreased (currentSize : Nat) (deficit : ℚ) : Nat :=
  castU64 (currentSize * (1 - config.adjustmentFactor * deficit))

/-- The size that the latency asks for -/
def byLatency (currentSize avgLatency : Nat) : Nat :=
  match latencyRatio config.targetLatencyMs avgLatency with
  | .nan => currentSize
  | .infinite => increased config currentSize 1
  | .finite ratio =>
    if 6 / 5 < ratio then increased config currentSize (min (ratio - 1) 1)
    else if ratio < 4 / 5 then decreased config currentSize (min (1 - ratio) (1 / 2))
    else currentSize

def calculateNewBatchSize (currentSize avgLatency : Nat) (memoryPressure : ℚ)
    (minSize maxSize : Nat) : Nat :=
  let newSize :=
    if 4 / 5 < memoryPressure then castU64 (currentSize * (4 / 5))
    else byLatency config currentSize avgLatency
  min (max newSize minSize) maxSize

/-- The sum is a `u64` and may wrap. -/
def calculateAverageLatency (window : List BatchMetrics) : Nat :=
  if window = [] then 0
  else (window.map BatchMetrics.processingTimeMs).sum % 18446744073709551616 / window.length

/-- `get_batch_size`, with the size and the states after it -/
def getBatchSize (states : Dict TableBatchState) (now : Nat) (memory : SystemMemory)
    (table : String) (defaultSize minSize maxSize : Nat) : Nat × Dict TableBatchState :=
  if config.perTableOptimization then
    let state := (states.lookup table).getD (.new defaultSize now)
    let states := states.insert table state
    if now - state.lastAdjustment <
      config.adjustmentIntervalMs then (state.currentBatchSize, states)
    else if config.metricWindowSize / 2 ≤ state.metricsWindow.length then
      let newSize := calculateNewBatchSize config state.currentBatchSize
        (calculateAverageLatency state.metricsWindow) memory.pressure minSize maxSize
      if newSize ≠ state.currentBatchSize then
        (newSize, states.insert table
          { state with currentBatchSize := newSize, lastAdjustment := now })
      else (state.currentBatchSize, states)
    else (state.currentBatchSize, states)
  else (defaultSize, states)

/-- What `record_metrics` does to the state of a table -/
def recorded (metrics : BatchMetrics) (state : TableBatchState) : TableBatchState :=
  let window := state.metricsWindow ++ [metrics]
  let window := if config.metricWindowSize < window.length then window.tail else window
  if metrics.processingTimeMs < config.targetLatencyMs then
    { state with
      metricsWindow := window
      consecutiveSuccesses := state.consecutiveSuccesses + 1
      consecutiveFailures := 0 }
  else
    { state with
      metricsWindow := window
      consecutiveFailures := state.consecutiveFailures + 1
      consecutiveSuccesses := 0 }

def recordMetrics (states : Dict TableBatchState) (now : Nat) (table : String)
    (metrics : BatchMetrics) : Dict TableBatchState :=
  let state := (states.lookup table).getD (.new metrics.batchSize now)
  states.insert table (recorded config metrics state)

/-! ## What the calls do to a state -/

/-- The state of a table after `get_batch_size` -/
def adjusted (state : TableBatchState) (now : Nat) (memory : SystemMemory)
    (minSize maxSize : Nat) : TableBatchState :=
  let newSize := calculateNewBatchSize config state.currentBatchSize
    (calculateAverageLatency state.metricsWindow) memory.pressure minSize maxSize
  if config.adjustmentIntervalMs ≤ now - state.lastAdjustment ∧
      config.metricWindowSize / 2 ≤ state.metricsWindow.length ∧
      newSize ≠ state.currentBatchSize then
    { state with currentBatchSize := newSize, lastAdjustment := now }
  else state

section States

variable {config} {states : Dict TableBatchState} {state : TableBatchState} {now : Nat}
  {memory : SystemMemory} {table : String} {defaultSize minSize maxSize : Nat}

theorem getBatchSize_eq (h : config.perTableOptimization = true)
    (hstate : (states.lookup table).getD (.new defaultSize now) = state) :
    getBatchSize config states now memory table defaultSize minSize maxSize =
      ((adjusted config state now memory minSize maxSize).currentBatchSize,
        states.insert table (adjusted config state now memory minSize maxSize)) := by
  rw [getBatchSize, if_pos h, hstate, adjusted]
  dsimp only
  by_cases helapsed : now - state.lastAdjustment < config.adjustmentIntervalMs
  · rw [if_pos helapsed, if_neg fun hand => Nat.not_le.mpr helapsed hand.1]
  · rw [if_neg helapsed]
    by_cases hwindow : config.metricWindowSize / 2 ≤ state.metricsWindow.length
    · rw [if_pos hwindow]
      split
      · next hne =>
        rw [if_pos ⟨Nat.not_lt.mp helapsed, hwindow, hne⟩, AList.insert_insert]
      · next heq => rw [if_neg fun hand => heq hand.2.2]
    · rw [if_neg hwindow, if_neg fun hand => hwindow hand.2.1]

theorem adjusted_metricsWindow :
    (adjusted config state now memory minSize maxSize).metricsWindow = state.metricsWindow := by
  rw [adjusted]
  split <;> rfl

/-- When it is time, the size is what the rule gives. -/
theorem adjusted_of_due (helapsed : config.adjustmentIntervalMs ≤ now - state.lastAdjustment)
    (hwindow : config.metricWindowSize / 2 ≤ state.metricsWindow.length) :
    (adjusted config state now memory minSize maxSize).currentBatchSize =
      calculateNewBatchSize config state.currentBatchSize
        (calculateAverageLatency state.metricsWindow) memory.pressure minSize maxSize := by
  rw [adjusted]
  split
  · rfl
  · next hnot =>
    by_contra hne
    exact hnot ⟨helapsed, hwindow, fun heq => hne heq.symm⟩

theorem adjusted_of_not_due (h : ¬ (config.adjustmentIntervalMs ≤ now - state.lastAdjustment ∧
    config.metricWindowSize / 2 ≤ state.metricsWindow.length)) :
    adjusted config state now memory minSize maxSize = state := by
  rw [adjusted]
  rw [if_neg fun hand => h ⟨hand.1, hand.2.1⟩]

theorem calculate_bounds {currentSize avgLatency : Nat} {memoryPressure : ℚ}
    (h : minSize ≤ maxSize) :
    minSize ≤ calculateNewBatchSize config currentSize avgLatency memoryPressure minSize maxSize ∧
      calculateNewBatchSize config currentSize avgLatency memoryPressure minSize maxSize ≤
        maxSize := by
  rw [calculateNewBatchSize]
  exact ⟨le_min (le_max_right _ _) h, min_le_right _ _⟩

theorem recorded_currentBatchSize (metrics : BatchMetrics) :
    (recorded config metrics state).currentBatchSize = state.currentBatchSize := by
  rw [recorded]
  split <;> rfl

/-- The window grows until it is full. -/
theorem le_recorded_window {n : Nat} (metrics : BatchMetrics)
    (hn : n ≤ state.metricsWindow.length + 1) (hmax : n ≤ config.metricWindowSize) :
    n ≤ (recorded config metrics state).metricsWindow.length := by
  have hlength : (recorded config metrics state).metricsWindow.length =
      if config.metricWindowSize < (state.metricsWindow ++ [metrics]).length
        then (state.metricsWindow ++ [metrics]).tail.length
        else (state.metricsWindow ++ [metrics]).length := by
    rw [recorded]
    split <;> split <;> rfl
  rw [hlength, List.length_tail, List.length_append, List.length_singleton]
  split <;> omega

end States

/-! ## The direction of a move -/

/-- The average latency is below `target / 1.2`. -/
def Faster (avgLatency : Nat) : Prop := (avgLatency : ℚ) < config.targetLatencyMs / (6 / 5)

/-- The average latency is above `target / 0.8`. -/
def Slower (avgLatency : Nat) : Prop := (config.targetLatencyMs : ℚ) / (4 / 5) < avgLatency

/-- Below the configured pressure the new size is larger, smaller or the same, as the latency asks
for, unless the bound is reached. -/
def MovesRight (currentSize avgLatency : Nat) (memoryPressure : ℚ) (minSize maxSize : Nat) : Prop :=
  memoryPressure < config.memoryPressureThreshold →
    let newSize := calculateNewBatchSize config currentSize avgLatency memoryPressure
      minSize maxSize
    (Faster config avgLatency →
      currentSize < newSize ∨ currentSize = maxSize ∧ newSize = maxSize) ∧
    (Slower config avgLatency →
      newSize < currentSize ∨ currentSize = minSize ∧ newSize = minSize) ∧
    (¬ Faster config avgLatency → ¬ Slower config avgLatency → newSize = currentSize)

/-- `latency_ratio - 1.0`, at most 1 -/
def excess (avgLatency : Nat) : ℚ :=
  if avgLatency = 0 then 1 else min (config.targetLatencyMs / avgLatency - 1) 1

/-- A fast table grows if the pressure is at most 0.8 percent and the increase is at least one
document; a steady one stays if the pressure is at most 0.8 percent. Where the bounds leave no room,
nothing is asked. -/
def RuleFits (currentSize avgLatency : Nat) (memoryPressure : ℚ) (minSize maxSize : Nat) : Prop :=
  (Faster config avgLatency → minSize = maxSize ∨ memoryPressure ≤ 4 / 5 ∧
    (currentSize = maxSize ∨
      1 ≤ currentSize * (config.adjustmentFactor * excess config avgLatency))) ∧
  (¬ Faster config avgLatency → ¬ Slower config avgLatency →
    memoryPressure ≤ 4 / 5 ∨ currentSize = minSize)

theorem castU64_le {q : ℚ} {n : Nat} (h : q < n + 1) : castU64 q ≤ n := by
  refine (min_le_left _ _).trans (Int.toNat_le.mpr ?_)
  apply Int.lt_add_one_iff.mp
  apply Int.floor_lt.mpr
  push_cast
  exact h

theorem le_castU64 {q : ℚ} {n : Nat} (h : (n : ℚ) ≤ q) (hn : n ≤ u64Max) : n ≤ castU64 q := by
  have hfloor : (n : Int) ≤ ⌊q⌋ := Int.le_floor.mpr (by exact_mod_cast h)
  exact le_min (by omega) hn

/-! ## What the latency asks for -/

variable {config} {currentSize avgLatency : Nat}

theorem byLatency_faster (h : Faster config avgLatency) :
    byLatency config currentSize avgLatency =
      increased config currentSize (excess config avgLatency) := by
  rw [Faster, lt_div_iff₀ (by norm_num)] at h
  rw [byLatency, latencyRatio, excess]
  by_cases havg : avgLatency = 0
  · have htarget : config.targetLatencyMs ≠ 0 := by
      intro hzero
      rw [havg, hzero] at h
      norm_num at h
    rw [if_pos havg, if_pos havg, if_neg htarget]
  · have hpos : (0 : ℚ) < avgLatency := Nat.cast_pos.mpr (Nat.pos_of_ne_zero havg)
    have hratio : 6 / 5 < (config.targetLatencyMs : ℚ) / avgLatency := by
      rw [lt_div_iff₀ hpos]
      linarith
    rw [if_neg havg, if_neg havg]
    dsimp only
    rw [if_pos hratio]

theorem byLatency_slower (h : Slower config avgLatency) :
    ∃ deficit : ℚ, 0 < deficit ∧ byLatency config currentSize avgLatency =
      decreased config currentSize deficit := by
  have htarget : (0 : ℚ) ≤ config.targetLatencyMs := Nat.cast_nonneg _
  rw [Slower, div_lt_iff₀ (by norm_num)] at h
  have hpos : (0 : ℚ) < avgLatency := by linarith
  have havg : avgLatency ≠ 0 := Nat.cast_ne_zero.mp hpos.ne'
  have hratio : (config.targetLatencyMs : ℚ) / avgLatency < 4 / 5 := by
    rw [div_lt_iff₀ hpos]
    linarith
  refine ⟨min (1 - config.targetLatencyMs / avgLatency) (1 / 2), ?_, ?_⟩
  · exact lt_min (by linarith) (by norm_num)
  · rw [byLatency, latencyRatio, if_neg havg]
    dsimp only
    rw [if_neg (by linarith), if_pos hratio]

theorem byLatency_steady (hfaster : ¬ Faster config avgLatency)
    (hslower : ¬ Slower config avgLatency) :
    byLatency config currentSize avgLatency = currentSize := by
  rw [Faster, lt_div_iff₀ (by norm_num)] at hfaster
  rw [Slower, div_lt_iff₀ (by norm_num)] at hslower
  rw [byLatency, latencyRatio]
  by_cases havg : avgLatency = 0
  · have htarget : config.targetLatencyMs = 0 := by
      rw [havg, Nat.cast_zero, zero_mul, not_lt] at hfaster
      exact Nat.cast_eq_zero.mp (le_antisymm hfaster (Nat.cast_nonneg _))
    rw [if_pos havg, if_pos htarget]
  · have hpos : (0 : ℚ) < avgLatency := Nat.cast_pos.mpr (Nat.pos_of_ne_zero havg)
    have hfast : ¬ 6 / 5 < (config.targetLatencyMs : ℚ) / avgLatency := by
      rw [lt_div_iff₀ hpos]
      linarith
    have hslow : ¬ (config.targetLatencyMs : ℚ) / avgLatency < 4 / 5 := by
      rw [div_lt_iff₀ hpos]
      linarith
    rw [if_neg havg]
    dsimp only
    rw [if_neg hfast, if_neg hslow]

theorem excess_nonneg (h : Faster config avgLatency) : 0 ≤ excess config avgLatency := by
  rw [Faster, lt_div_iff₀ (by norm_num)] at h
  rw [excess]
  split
  · norm_num
  · next havg =>
    have hpos : (0 : ℚ) < avgLatency := Nat.cast_pos.mpr (Nat.pos_of_ne_zero havg)
    refine le_min ?_ zero_le_one
    rw [sub_nonneg, le_div_iff₀ hpos]
    linarith

/-- An increase takes effect just if it is at least one document. -/
theorem lt_increased_iff {q : ℚ} (hroom : currentSize + 1 ≤ u64Max) :
    currentSize < increased config currentSize q ↔
      1 ≤ currentSize * (config.adjustmentFactor * q) := by
  rw [increased, mul_add, mul_one]
  constructor
  · intro hlt
    by_contra hsmall
    have hle := @castU64_le (currentSize + currentSize * (config.adjustmentFactor * q)) currentSize
      (by linarith)
    exact Nat.not_lt.mpr hle hlt
  · intro hlarge
    apply le_castU64 _ hroom
    push_cast
    linarith

theorem le_increased {q : ℚ} (hq : 0 ≤ config.adjustmentFactor * q) (hmax : currentSize ≤ u64Max) :
    currentSize ≤ increased config currentSize q := by
  apply le_castU64 _ hmax
  have hcur : (0 : ℚ) ≤ currentSize := Nat.cast_nonneg _
  nlinarith

/-- A product with less than one is truncated to less. -/
theorem castU64_mul_lt {f : ℚ} (hf : f < 1) (hpos : 0 < currentSize) :
    castU64 (currentSize * f) < currentSize := by
  obtain ⟨n, rfl⟩ := Nat.exists_eq_succ_of_ne_zero hpos.ne'
  apply Nat.lt_succ_of_le
  apply castU64_le
  have hn : (0 : ℚ) < (n.succ : Nat) := Nat.cast_pos.mpr hpos
  push_cast at hn ⊢
  nlinarith

theorem castU64_zero_mul (f : ℚ) : castU64 ((0 : Nat) * f) = 0 := by
  rw [Nat.cast_zero, zero_mul]
  exact Nat.le_zero.mp (castU64_le (by norm_num))

/-! ## The rule -/

variable {memoryPressure : ℚ} {minSize maxSize : Nat}

theorem calculate_of_pressure (h : 4 / 5 < memoryPressure) :
    calculateNewBatchSize config currentSize avgLatency memoryPressure minSize maxSize =
      min (max (castU64 (currentSize * (4 / 5))) minSize) maxSize := by
  rw [calculateNewBatchSize, if_pos h]

theorem calculate_of_no_pressure (h : memoryPressure ≤ 4 / 5) :
    calculateNewBatchSize config currentSize avgLatency memoryPressure minSize maxSize =
      min (max (byLatency config currentSize avgLatency) minSize) maxSize := by
  rw [calculateNewBatchSize, if_neg (not_lt.mpr h)]

/-- What asks for the right way, case by case -/
structure Direction (config : AdaptiveBatchingConfig) (currentSize avgLatency : Nat)
    (memoryPressure : ℚ) (minSize maxSize newSize : Nat) : Prop where
  faster : Faster config avgLatency →
    (currentSize < newSize ∨ currentSize = maxSize ∧ newSize = maxSize ↔
      minSize = maxSize ∨ memoryPressure ≤ 4 / 5 ∧ (currentSize = maxSize ∨
        1 ≤ currentSize * (config.adjustmentFactor * excess config avgLatency)))
  slower : Slower config avgLatency →
    newSize < currentSize ∨ currentSize = minSize ∧ newSize = minSize
  steady : ¬ Faster config avgLatency → ¬ Slower config avgLatency →
    (newSize = currentSize ↔ memoryPressure ≤ 4 / 5 ∨ currentSize = minSize)

/-- Under pressure every size shrinks. -/
theorem direction_of_pressure (hpressure : 4 / 5 < memoryPressure) (hmin : minSize ≤ currentSize)
    (hmax : currentSize ≤ maxSize) :
    Direction config currentSize avgLatency memoryPressure minSize maxSize
      (calculateNewBatchSize config currentSize avgLatency memoryPressure minSize maxSize) := by
  have hnot : ¬ memoryPressure ≤ 4 / 5 := not_le.mpr hpressure
  have hraw : castU64 (currentSize * (4 / 5)) < currentSize ∨
      currentSize = 0 ∧ castU64 (currentSize * (4 / 5)) = 0 := by
    rcases Nat.eq_zero_or_pos currentSize with hzero | hpos
    · refine .inr ⟨hzero, ?_⟩
      rw [hzero]
      exact castU64_zero_mul _
    · exact .inl (castU64_mul_lt (by norm_num) hpos)
  rw [calculate_of_pressure hpressure]
  generalize castU64 (currentSize * (4 / 5)) = raw at hraw
  refine ⟨fun _ => ?_, fun _ => ?_, fun _ _ => ?_⟩
  · simp only [hnot, false_and, or_false]
    omega
  · omega
  · simp only [hnot, false_or]
    omega

/-- Without pressure the size follows the latency. -/
theorem direction_of_no_pressure (hpressure : memoryPressure ≤ 4 / 5)
    (hfactor : 0 < config.adjustmentFactor) (hmin : minSize ≤ currentSize)
    (hmax : currentSize ≤ maxSize) (hu64 : maxSize ≤ u64Max) :
    Direction config currentSize avgLatency memoryPressure minSize maxSize
      (calculateNewBatchSize config currentSize avgLatency memoryPressure minSize maxSize) := by
  rw [calculate_of_no_pressure hpressure]
  refine ⟨fun hfaster => ?_, fun hslower => ?_, fun hfaster hslower => ?_⟩
  · have hle := @le_increased config currentSize (excess config avgLatency)
      (mul_nonneg hfactor.le (excess_nonneg hfaster)) (hmax.trans hu64)
    rw [byLatency_faster hfaster]
    rcases Nat.eq_or_lt_of_le hmax with hfull | hroom
    · refine iff_of_true (.inr ⟨hfull, ?_⟩) (.inr ⟨hpressure, .inl hfull⟩)
      omega
    · rw [← lt_increased_iff (Nat.le_trans hroom hu64)]
      simp only [hpressure, true_and, hroom.ne, false_and, or_false, false_or]
      omega
  · obtain ⟨deficit, hdeficit, heq⟩ := @byLatency_slower config currentSize avgLatency hslower
    rw [heq]
    rcases Nat.eq_zero_or_pos currentSize with hzero | hpos
    · have hraw : decreased config currentSize deficit = 0 := by
        rw [decreased, hzero]
        exact castU64_zero_mul _
      omega
    · have hlt : decreased config currentSize deficit < currentSize :=
        castU64_mul_lt (by linarith [mul_pos hfactor hdeficit]) hpos
      omega
  · rw [byLatency_steady hfaster hslower]
    refine iff_of_true ?_ (.inl hpressure)
    omega

/-- **The rule moves a size the right way exactly in these cases.** -/
theorem movesRight_iff (hfactor : 0 < config.adjustmentFactor ∧ config.adjustmentFactor < 1)
    (hmin : minSize ≤ currentSize) (hmax : currentSize ≤ maxSize) (hu64 : maxSize ≤ u64Max) :
    MovesRight config currentSize avgLatency memoryPressure minSize maxSize ↔
      (memoryPressure < config.memoryPressureThreshold →
        RuleFits config currentSize avgLatency memoryPressure minSize maxSize) := by
  have hdirection : Direction config currentSize avgLatency memoryPressure minSize maxSize
      (calculateNewBatchSize config currentSize avgLatency memoryPressure minSize maxSize) := by
    rcases lt_or_ge (4 / 5) memoryPressure with hhigh | hlow
    · exact direction_of_pressure hhigh hmin hmax
    · exact direction_of_no_pressure hlow hfactor.1 hmin hmax hu64
  refine imp_congr_right fun _ => ?_
  constructor
  · rintro ⟨hfaster, -, hsteady⟩
    exact ⟨fun hf => (hdirection.faster hf).mp (hfaster hf),
      fun hf hs => (hdirection.steady hf hs).mp (hsteady hf hs)⟩
  · rintro ⟨hfaster, hsteady⟩
    exact ⟨fun hf => (hdirection.faster hf).mpr (hfaster hf), hdirection.slower,
      fun hf hs => (hdirection.steady hf hs).mpr (hsteady hf hs)⟩

theorem movesRight_iff_default :
    MovesRight .default 100 500 50 10 1000 ↔
      ((50 : ℚ) < AdaptiveBatchingConfig.default.memoryPressureThreshold →
        RuleFits .default 100 500 50 10 1000) :=
  @movesRight_iff .default 100 500 50 10 1000
    (by norm_num [AdaptiveBatchingConfig.default]) (by decide) (by decide) (by decide)

/-- With half of the memory used, a table that takes half of the target latency is slowed down. -/
theorem fast_table_shrinks :
    ¬ ∀ (config : AdaptiveBatchingConfig) (currentSize avgLatency : Nat) (memoryPressure : ℚ)
        (minSize maxSize : Nat), 0 < config.adjustmentFactor ∧ config.adjustmentFactor < 1 →
      minSize ≤ currentSize → currentSize ≤ maxSize → maxSize ≤ u64Max →
      MovesRight config currentSize avgLatency memoryPressure minSize maxSize := by
  intro hall
  have hmoves := hall .default 100 500 50 10 1000 (by norm_num [AdaptiveBatchingConfig.default])
    (by decide) (by decide) (by decide) (by norm_num [AdaptiveBatchingConfig.default])
  rw [calculate_of_pressure (by norm_num)] at hmoves
  have hraw : castU64 ((100 : Nat) * (4 / 5)) < 100 := castU64_mul_lt (by norm_num) (by decide)
  have hfaster : Faster .default 500 := by norm_num [Faster, AdaptiveBatchingConfig.default]
  have hgrown := hmoves.1 hfaster
  omega

end AdaptiveBatchingManager

end MeiliBridge
