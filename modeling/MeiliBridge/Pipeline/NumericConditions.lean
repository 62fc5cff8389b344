import Mathlib.Algebra.Order.Floor.Ring
import Mathlib.Tactic.Linarith
import Mathlib.Tactic.NormNum
import MeiliBridge.Pipeline.Filter

/-!
# Numeric conditions

`Equals` compares two JSON numbers as they are written, `GreaterThan` and `LessThan` compare the
doubles nearest to them. `numeric_trichotomy_iff` says for which numbers the three exclude and
complete each other; for integers up to 2^53 they do, since these are doubles themselves.
-/

set_option autoImplicit false

namespace MeiliBridge

/-! ## Integers that are doubles -/

namespace F64

theorem pow2_eq (e : Int) : pow2 e = (2 : ℚ) ^ e := by
  rw [pow2]
  split
  · next he =>
    obtain ⟨k, rfl⟩ := Int.eq_ofNat_of_zero_le he
    simp
  · next he =>
    obtain ⟨k, hk⟩ := Int.eq_ofNat_of_zero_le (by omega : 0 ≤ -e)
    have hneg : e = -(k : Int) := by omega
    rw [hneg]
    simp

theorem roundHalfEven_int (k : Int) : roundHalfEven (k : ℚ) = k := by
  simp [roundHalfEven]

theorem pow_log2_le {n : Nat} (hn : n ≠ 0) : (2 : ℚ) ^ (n.log2 : Int) ≤ n := by
  have h := Nat.log2_self_le hn
  exact_mod_cast h

/-- Up to 2^53 an integer is a multiple of the last place of its double. -/
theorem exists_mantissa {n : Nat} (hn : n ≠ 0) (h : n ≤ 2 ^ 53) :
    ∃ k : Int, (n : ℚ) / 2 ^ ((n.log2 : Int) - 52) = k := by
  have htwo : (2 : ℚ) ≠ 0 := by norm_num
  by_cases hlog : n.log2 ≤ 52
  · refine ⟨n * 2 ^ (52 - n.log2), ?_⟩
    have hexp : (n.log2 : Int) - 52 = -((52 - n.log2 : Nat) : Int) := by omega
    rw [hexp, zpow_neg, zpow_natCast, div_inv_eq_mul]
    push_cast
    ring
  · have hlow : 2 ^ 53 ≤ n := le_trans (Nat.pow_le_pow_right (by norm_num) (by omega))
      (Nat.log2_self_le hn)
    obtain rfl : n = 2 ^ 53 := le_antisymm h hlow
    refine ⟨2 ^ 52, ?_⟩
    rw [Nat.log2_two_pow]
    norm_num

/-- **An integer up to 2^53 is a double.** -/
theorem ofInt_val {n : Int} (h : n.natAbs ≤ 2 ^ 53) : (ofInt n).val = n := by
  by_cases hzero : n = 0
  · subst hzero
    simp [ofInt, ofRat?]
  · have hnat : n.natAbs ≠ 0 := Int.natAbs_ne_zero.mpr hzero
    have habs : |(n : ℚ)| = (n.natAbs : ℚ) := by rw [Nat.cast_natAbs, Int.cast_abs]
    have hlow := pow_log2_le hnat
    obtain ⟨k, hk⟩ := exists_mantissa hnat h
    have htwo : (2 : ℚ) ≠ 0 := by norm_num
    have hpos : (0 : ℚ) < 2 ^ ((n.natAbs.log2 : Int) - 52) := zpow_pos (by norm_num) _
    have hfull : ¬ (k : ℚ) < 2 ^ (52 : Int) := by
      rw [not_lt, ← hk, le_div_iff₀ hpos, ← zpow_add₀ htwo]
      simpa using hlow
    have hmax : max ((n.natAbs.log2 : Int) - 52) (-1074) = (n.natAbs.log2 : Int) - 52 := by omega
    have hvalue : (k : ℚ) * 2 ^ ((n.natAbs.log2 : Int) - 52) = n.natAbs := by
      rw [← hk, div_mul_cancel₀ _ hpos.ne']
    have hbound : ¬ (2 : ℚ) ^ (1024 : Int) ≤ n.natAbs := by
      rw [not_le]
      have hcast : (n.natAbs : ℚ) ≤ 2 ^ 53 := by exact_mod_cast h
      calc (n.natAbs : ℚ) ≤ 2 ^ (53 : Int) := by exact_mod_cast hcast
        _ < 2 ^ (1024 : Int) := zpow_lt_zpow_right₀ (by norm_num) (by norm_num)
    have hrat : ofRat? (n : ℚ) = some ⟨if (n : ℚ) < 0 then -(n.natAbs : ℚ) else n.natAbs⟩ := by
      rw [ofRat?, if_neg (Int.cast_ne_zero.mpr hzero)]
      simp only [habs, Rat.num_natCast, Rat.den_natCast, Int.toNat_natCast, pow2_eq]
      have hone : Nat.log2 1 = 0 := by decide
      simp only [hone, Nat.cast_zero, sub_zero, hk, if_neg hfull, hmax, roundHalfEven_int, hvalue,
        if_neg hbound]
    rw [ofInt, hrat, Option.getD_some]
    show (if (n : ℚ) < 0 then -(n.natAbs : ℚ) else n.natAbs) = n
    rw [← habs]
    split
    · next hneg => rw [abs_of_neg hneg, neg_neg]
    · next hnonneg => rw [abs_of_nonneg (not_lt.mp hnonneg)]

end F64

/-! ## The three comparisons -/

/-- One of three holds, and no other. -/
def ExactlyOne (p q r : Prop) : Prop := (p ∧ ¬ q ∧ ¬ r) ∨ (¬ p ∧ q ∧ ¬ r) ∨ (¬ p ∧ ¬ q ∧ r)

namespace EventFilter

variable {data : Fields} {field : String} {a b : Number}

theorem equals_iff (h : data.get field = some (.number a)) :
    evaluateCondition (.equals field (.number b)) data = true ↔ a = b := by
  simp [evaluateCondition, h]

theorem greaterThan_iff (h : data.get field = some (.number a)) :
    evaluateCondition (.greaterThan field (.number b)) data = true ↔ b.asF64.val < a.asF64.val := by
  simp [evaluateCondition, compareValues, h]

theorem lessThan_iff (h : data.get field = some (.number a)) :
    evaluateCondition (.lessThan field (.number b)) data = true ↔ a.asF64.val < b.asF64.val := by
  simp [evaluateCondition, compareValues, h]

theorem exactlyOne_iff : ExactlyOne (a = b) (b.asF64.val < a.asF64.val)
    (a.asF64.val < b.asF64.val) ↔ a = b ∨ a.asF64.val ≠ b.asF64.val := by
  constructor
  · rintro (⟨heq, -, -⟩ | ⟨-, hgreater, -⟩ | ⟨-, -, hless⟩)
    · exact .inl heq
    · exact .inr hgreater.ne'
    · exact .inr hless.ne
  · intro hcase
    by_cases heq : a = b
    · subst heq
      exact .inl ⟨rfl, lt_irrefl _, lt_irrefl _⟩
    · rcases lt_or_gt_of_ne (hcase.resolve_left heq) with hless | hgreater
      · exact .inr (.inr ⟨heq, hless.not_gt, hless⟩)
      · exact .inr (.inl ⟨heq, hgreater, hgreater.not_gt⟩)

/-- **Exactly one comparison holds exactly where** the two numbers are written alike or differ as
doubles. -/
theorem numeric_trichotomy_iff (h : data.get field = some (.number a)) :
    ExactlyOne (evaluateCondition (.equals field (.number b)) data = true)
        (evaluateCondition (.greaterThan field (.number b)) data = true)
        (evaluateCondition (.lessThan field (.number b)) data = true) ↔
      a = b ∨ a.asF64.val ≠ b.asF64.val := by
  rw [equals_iff h, greaterThan_iff h, lessThan_iff h, exactlyOne_iff]

/-- A price that is written as the value is -/
theorem numeric_trichotomy_iff_price :
    ExactlyOne
      (evaluateCondition (.equals "price" (.number (.posInt 1))) [("price", .number (.posInt 1))])
      (evaluateCondition (.greaterThan "price" (.number (.posInt 1)))
        [("price", .number (.posInt 1))])
      (evaluateCondition (.lessThan "price" (.number (.posInt 1)))
        [("price", .number (.posInt 1))]) :=
  (numeric_trichotomy_iff rfl).mpr (.inl rfl)

theorem asF64_ofI64 {n : Int} (h : n.natAbs ≤ 2 ^ 53) : (Number.ofI64 n).asF64.val = n := by
  rw [Number.ofI64]
  split
  · next hn =>
    have hnat : n.toNat.toUInt64.toNat = n.toNat := by
      rw [Nat.toUInt64, UInt64.toNat_ofNat']
      exact Nat.mod_eq_of_lt (by omega)
    rw [Number.asF64, hnat, Int.toNat_of_nonneg hn, F64.ofInt_val h]
  · next hn =>
    have hint : (Int64.ofInt n).toInt = n := Int64.toInt_ofInt_of_le (by omega) (by omega)
    rw [Number.asF64, hint, F64.ofInt_val h]

/-- Integers up to 2^53 are equal, or differ as doubles. -/
theorem small_integers_consistent {m n : Int} (hm : m.natAbs ≤ 2 ^ 53) (hn : n.natAbs ≤ 2 ^ 53) :
    Number.ofI64 m = .ofI64 n ∨
      (Number.ofI64 m).asF64.val ≠ (Number.ofI64 n).asF64.val := by
  rw [asF64_ofI64 hm, asF64_ofI64 hn]
  by_cases heq : m = n
  · exact .inl (by rw [heq])
  · exact .inr (by exact_mod_cast heq)

/-- A price of 1 is no double 1.0, and neither above nor below it. -/
theorem numbers_not_always_consistent : ¬ ∀ (data : Fields) (field : String) (a b : Number),
    data.get field = some (.number a) →
      ExactlyOne (evaluateCondition (.equals field (.number b)) data = true)
        (evaluateCondition (.greaterThan field (.number b)) data = true)
        (evaluateCondition (.lessThan field (.number b)) data = true) := by
  intro h
  have hone := h [("price", .number (.posInt 1))] "price" (.posInt 1) (.float ⟨1⟩) rfl
  rw [equals_iff rfl, greaterThan_iff rfl, lessThan_iff rfl, exactlyOne_iff] at hone
  rcases hone with heq | hne
  · cases heq
  · exact hne (asF64_ofI64 (n := 1) (by decide))

end EventFilter

end MeiliBridge
