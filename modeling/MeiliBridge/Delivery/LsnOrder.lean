import Mathlib.Data.Prod.Lex
import MeiliBridge.Lib.KeyOrder
import MeiliBridge.Models.Event

/-!
# The order of LSNs

`compare_lsn` and `Position::is_after` split an LSN at its slash and compare the two halves as
hexadecimal numbers, with `0` for a half that is none. They part ways on a string that does not have
two halves: `compare_lsn` then compares the strings, and `is_after` is false.

Both are readings of one key, the pair of numbers of a string with two halves (`lsnKey`):
`compare_lsn` is a comparison by this key, and `is_after` is the order of the keys. So `compare_lsn`
is antisymmetric, and transitive except where it mixes the two orders (`compare_lsn_order`).
-/

set_option autoImplicit false

namespace MeiliBridge

open KeyOrder
open Position (lsnPart)

/-- `compare_lsn` -/
def compareLsn (lsn1 lsn2 : String) : Ordering :=
  match Text.split '/' lsn1, Text.split '/' lsn2 with
  | [h1, l1], [h2, l2] =>
    match compare (lsnPart h1) (lsnPart h2) with
    | .eq => compare (lsnPart l1) (lsnPart l2)
    | other => other
  | _, _ => compare lsn1 lsn2

/-- The string splits into two halves. -/
def twoHalves (lsn : String) : Bool := (Text.split '/' lsn).length == 2

/-- A text of hexadecimal digits with a value below `2 ^ 64`. -/
structure HexNumber (s : String) (n : Nat) : Prop where
  nonempty : s ≠ ""
  value : Text.digits? 16 s.toList = some n
  bound : n < 2 ^ 64

/-- A string of the form hex/hex, with its two numbers. -/
def IsLsn (lsn : String) (hi lo : Nat) : Prop :=
  ∃ h l, lsn = h ++ "/" ++ l ∧ HexNumber h hi ∧ HexNumber l lo

/-! ## The key of an LSN -/

/-- The numbers of the two halves, the first one being the more significant. -/
def lsnKey (lsn : String) : Option (ℕ ×ₗ ℕ) :=
  match Text.split '/' lsn with
  | [h, l] => some (toLex (lsnPart h, lsnPart l))
  | _ => none

variable {a b c : String} {hi lo hi' lo' : Nat}

theorem twoHalves_eq (lsn : String) : twoHalves lsn = hasKey lsnKey lsn := by
  unfold twoHalves hasKey lsnKey
  split
  · next h l hsplit => simp [hsplit]
  · next hno =>
    rw [Option.isSome_none, beq_eq_false_iff_ne]
    intro hlength
    obtain ⟨h, l, hsplit⟩ := List.length_eq_two.mp hlength
    exact hno h l hsplit

theorem compare_toLex (hi lo hi' lo' : Nat) :
    compare (toLex (hi, lo)) (toLex (hi', lo')) = (compare hi hi').then (compare lo lo') := by
  rcases lt_trichotomy hi hi' with h | rfl | h
  · have hlex : toLex (hi, lo) < toLex (hi', lo') := Prod.Lex.toLex_lt_toLex.mpr (.inl h)
    rw [compare_lt_iff_lt.mpr hlex, compare_lt_iff_lt.mpr h]
    rfl
  · rw [compare_eq_iff_eq.mpr rfl, Ordering.eq_then]
    rcases lt_trichotomy lo lo' with h | rfl | h
    · have hlex : toLex (hi, lo) < toLex (hi, lo') := Prod.Lex.toLex_lt_toLex.mpr (.inr ⟨rfl, h⟩)
      rw [compare_lt_iff_lt.mpr hlex, compare_lt_iff_lt.mpr h]
    · rw [compare_eq_iff_eq.mpr rfl, compare_eq_iff_eq.mpr rfl]
    · have hlex : toLex (hi, lo') < toLex (hi, lo) := Prod.Lex.toLex_lt_toLex.mpr (.inr ⟨rfl, h⟩)
      rw [compare_gt_iff_gt.mpr hlex, compare_gt_iff_gt.mpr h]
  · have hlex : toLex (hi', lo') < toLex (hi, lo) := Prod.Lex.toLex_lt_toLex.mpr (.inl h)
    rw [compare_gt_iff_gt.mpr hlex, compare_gt_iff_gt.mpr h]
    rfl

theorem lsnKey_eq {h l : String} (hsplit : Text.split '/' a = [h, l]) :
    lsnKey a = some (toLex (lsnPart h, lsnPart l)) := by
  simp only [lsnKey, hsplit]

theorem lsnKey_eq_none (hno : ∀ h l, Text.split '/' a ≠ [h, l]) : lsnKey a = none := by
  unfold lsnKey
  split
  · next h l hsplit => exact absurd hsplit (hno h l)
  · rfl

/-- Two strings have two halves each, or one of them has no key. -/
theorem halves_or_none (a b : String) :
    (∃ h₁ l₁ h₂ l₂, Text.split '/' a = [h₁, l₁] ∧ Text.split '/' b = [h₂, l₂]) ∨
      (∀ h₁ l₁ h₂ l₂, Text.split '/' a = [h₁, l₁] → Text.split '/' b ≠ [h₂, l₂]) ∧
        (lsnKey a = none ∨ lsnKey b = none) := by
  by_cases ha : ∃ h l, Text.split '/' a = [h, l]
  · obtain ⟨h₁, l₁, ha⟩ := ha
    by_cases hb : ∃ h l, Text.split '/' b = [h, l]
    · obtain ⟨h₂, l₂, hb⟩ := hb
      exact .inl ⟨h₁, l₁, h₂, l₂, ha, hb⟩
    · push Not at hb
      exact .inr ⟨fun _ _ h l _ => hb h l, .inr (lsnKey_eq_none hb)⟩
  · push Not at ha
    exact .inr ⟨fun h l _ _ hsplit => absurd hsplit (ha h l), .inl (lsnKey_eq_none ha)⟩

/-- **`compare_lsn` compares by the key.** -/
theorem compareLsn_eq (a b : String) : compareLsn a b = compareByKey lsnKey a b := by
  rcases halves_or_none a b with ⟨h₁, l₁, h₂, l₂, ha, hb⟩ | ⟨hno, hnone⟩
  · rw [compareByKey_some (lsnKey_eq ha) (lsnKey_eq hb), compare_toLex]
    simp only [compareLsn, ha, hb]
    cases compare (lsnPart h₁) (lsnPart h₂) <;> rfl
  · rw [compareByKey_none hnone]
    unfold compareLsn
    split
    · next ha hb => exact absurd hb (hno _ _ _ _ ha)
    · rfl

/-- **`is_after` is the order of the keys.** -/
theorem isAfter_iff_key :
    (Position.postgreSQL a).isAfter (.postgreSQL b) = true ↔
      ∃ x, lsnKey a = some x ∧ ∃ y, lsnKey b = some y ∧ y < x := by
  rcases halves_or_none a b with ⟨h₁, l₁, h₂, l₂, ha, hb⟩ | ⟨hno, hnone⟩
  · rw [lsnKey_eq ha, lsnKey_eq hb]
    simp only [Position.isAfter, ha, hb, decide_eq_true_eq, Option.some.injEq, exists_eq_left',
      Prod.Lex.toLex_lt_toLex]
    exact or_congr_right (and_congr_left' eq_comm)
  · have hfalse : (Position.postgreSQL a).isAfter (.postgreSQL b) = false := by
      -- the second branch, since `hno` rules out the first one
      simp only [Position.isAfter]
    rw [hfalse]
    constructor
    · intro h
      cases h
    · rintro ⟨x, hx, y, hy, -⟩
      rcases hnone with hnone | hnone
      · cases hnone.symm.trans hx
      · cases hnone.symm.trans hy

/-! ## Strings of the form hex/hex -/

theorem digit_of_digits {cs : List Char} {n : Nat} (h : Text.digits? 16 cs = some n) :
    ∀ c ∈ cs, (Text.digit? 16 c).isSome = true := by
  unfold Text.digits? at h
  generalize some 0 = start at h
  induction cs generalizing start with
  | nil =>
    intro c hc
    cases hc
  | cons c cs ih =>
    intro c' hc'
    rw [List.foldl_cons] at h
    rcases List.mem_cons.mp hc' with rfl | hmem
    · cases hdigit : Text.digit? 16 c' with
      | some d => rfl
      | none =>
        -- the rest of the digits cannot make up for it
        have hnone : ∀ cs : List Char, cs.foldl (fun acc c => acc.bind fun n =>
            (Text.digit? 16 c).map fun d => n * 16 + d) (none : Option Nat) = none := by
          intro cs
          induction cs with
          | nil => rfl
          | cons c cs ih => exact ih
        cases start <;> simp [hdigit, hnone] at h
    · exact ih _ h c' hmem

theorem HexNumber.not_mem {s : String} {n : Nat} (h : HexNumber s n) {c : Char}
    (hc : Text.digit? 16 c = none) : c ∉ s.toList := by
  intro hmem
  have hdigit := digit_of_digits h.value c hmem
  simp [hc] at hdigit

theorem HexNumber.lsnPart_eq {s : String} {n : Nat} (h : HexNumber s n) : lsnPart s = n := by
  have hplus : s.toList.head? ≠ some '+' := by
    intro hhead
    exact h.not_mem (c := '+') (by decide) (List.mem_of_mem_head? hhead)
  have hne : s.toList ≠ [] := by
    intro hnil
    exact h.nonempty (String.toList_eq_nil_iff.mp hnil)
  simp only [lsnPart, Text.parseU64, hplus, hne, h.value, Option.filter, h.bound, if_false,
    decide_true, if_true, Option.getD_some]

theorem IsLsn.key (h : IsLsn a hi lo) : lsnKey a = some (toLex (hi, lo)) := by
  obtain ⟨s, t, rfl, hs, ht⟩ := h
  have hsplit : Text.split '/' (s ++ "/" ++ t) = [s, t] := by
    have hlist : (s ++ "/" ++ t).toList = s.toList ++ '/' :: t.toList := by
      simp [String.toList_append]
    have hslash : Text.digit? 16 '/' = none := by decide
    rw [Text.split, hlist, List.splitOn_append_cons_self_of_not_mem (hs.not_mem hslash),
      List.splitOn_eq_singleton (ht.not_mem hslash)]
    simp
  rw [lsnKey_eq hsplit, hs.lsnPart_eq, ht.lsnPart_eq]

/-! ## The order -/

theorem compareLsn_swap (a b : String) : compareLsn a b = (compareLsn b a).swap := by
  rw [compareLsn_eq, compareLsn_eq, compareByKey_swap]

theorem compareLsn_trans (hhalves : [a, b, c].countP twoHalves ≠ 2) (hab : compareLsn a b ≠ .gt)
    (hbc : compareLsn b c ≠ .gt) : compareLsn a c ≠ .gt := by
  rw [compareLsn_eq] at hab hbc ⊢
  rw [funext twoHalves_eq] at hhalves
  exact Ordering.isLE_iff_ne_gt.mp (compareByKey_isLE_trans hhalves
    (Ordering.isLE_iff_ne_gt.mpr hab) (Ordering.isLE_iff_ne_gt.mpr hbc))

theorem IsLsn.compareLsn (ha : IsLsn a hi lo) (hb : IsLsn b hi' lo') :
    MeiliBridge.compareLsn a b = (compare hi hi').then (compare lo lo') := by
  rw [compareLsn_eq, compareByKey_some ha.key hb.key, compare_toLex]

/-- **`compare_lsn` as an order.** It is antisymmetric on all strings, transitive on three strings
of which not exactly two have two halves, and on strings of the form hex/hex the lexicographic order
of the two numbers. -/
theorem compare_lsn_order (a b c : String) :
    compareLsn a b = (compareLsn b a).swap ∧
      ([a, b, c].countP twoHalves ≠ 2 → compareLsn a b ≠ .gt → compareLsn b c ≠ .gt →
        compareLsn a c ≠ .gt) ∧
      ∀ hi lo hi' lo', IsLsn a hi lo → IsLsn b hi' lo' →
        compareLsn a b = (compare hi hi').then (compare lo lo') :=
  ⟨compareLsn_swap a b, compareLsn_trans, fun _ _ _ _ ha hb => ha.compareLsn hb⟩

/-- An LSN, a later one, and a string without a slash that stands between them. -/
theorem compare_lsn_not_transitive :
    ¬ ∀ a b c : String, compareLsn a b = (compareLsn b a).swap ∧
      (compareLsn a b ≠ .gt → compareLsn b c ≠ .gt → compareLsn a c ≠ .gt) := by
  intro h
  exact (h "2/0" "10/0" "1z").2 (by decide) (by decide) (by decide)

/-- Three LSNs in order, and the numbers of two of them. -/
theorem compare_lsn_order_three :
    compareLsn "9/2000" "A/1000" ≠ .gt ∧ compareLsn "A/1000" "A/FFFF" ≠ .gt ∧
      compareLsn "9/2000" "A/FFFF" ≠ .gt ∧ IsLsn "9/2000" 9 0x2000 ∧ IsLsn "A/1000" 10 0x1000 ∧
      compareLsn "9/2000" "A/1000" = (compare 9 10).then (compare 0x2000 0x1000) := by
  have h := compare_lsn_order "9/2000" "A/1000" "A/FFFF"
  have ha : IsLsn "9/2000" 9 0x2000 :=
    ⟨"9", "2000", rfl, ⟨by decide, rfl, by decide⟩, ⟨by decide, rfl, by decide⟩⟩
  have hb : IsLsn "A/1000" 10 0x1000 :=
    ⟨"A", "1000", rfl, ⟨by decide, rfl, by decide⟩, ⟨by decide, rfl, by decide⟩⟩
  have hab : compareLsn "9/2000" "A/1000" ≠ .gt := by decide
  have hbc : compareLsn "A/1000" "A/FFFF" ≠ .gt := by decide
  exact ⟨hab, hbc, h.2.1 (by decide) hab hbc, ha, hb, h.2.2 _ _ _ _ ha hb⟩

/-- **The two comparisons agree where both strings have two halves**, and elsewhere `is_after` never
holds. -/
theorem is_after_iff_greater (a b : String) :
    (Position.postgreSQL a).isAfter (.postgreSQL b) = true ↔
      twoHalves a = true ∧ twoHalves b = true ∧ compareLsn a b = .gt := by
  rw [isAfter_iff_key, compareLsn_eq, twoHalves_eq, twoHalves_eq]
  constructor
  · rintro ⟨x, hx, y, hy, hlt⟩
    rw [compareByKey_some hx hy, compare_gt_iff_gt, hasKey, hasKey, hx, hy]
    exact ⟨rfl, rfl, hlt⟩
  · rintro ⟨ha, hb, hgt⟩
    obtain ⟨x, hx⟩ := Option.isSome_iff_exists.mp ha
    obtain ⟨y, hy⟩ := Option.isSome_iff_exists.mp hb
    rw [compareByKey_some hx hy, compare_gt_iff_gt] at hgt
    exact ⟨x, hx, y, hy, hgt⟩

/-- Two strings without a slash, the first of which is the greater one. -/
theorem is_after_not_greater :
    ¬ ∀ a b : String, (Position.postgreSQL a).isAfter (.postgreSQL b) = true ↔
      compareLsn a b = .gt := by
  intro h
  exact absurd ((h "b" "a").mpr (by decide)) (by decide)

end MeiliBridge
