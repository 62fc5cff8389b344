import Mathlib.Data.List.Sort

/-!
# Sorted tables, and the pages of their rows

A `Table` holds its rows in one fixed order, each at most once. `rank t x` is the number of rows
before `x`, so the page at an offset holds the rows whose rank lies in its window (`mem_page`). A
row that is inserted or deleted moves the rank of every row behind it by one, and no other
(`rank_insert`, `rank_delete`).
-/

set_option autoImplicit false

namespace Paging

variable {ρ : Type} [LinearOrder ρ]

structure Table (ρ : Type) [LinearOrder ρ] where
  rows : List ρ
  sorted : rows.Pairwise (· < ·)

namespace Table

/-- How many of the rows stand before `x`. -/
def rank (t : Table ρ) (x : ρ) : Nat := t.rows.countP fun y => decide (y < x)

def page (t : Table ρ) (limit offset : Nat) : List ρ := (t.rows.drop offset).take limit

theorem sorted_insert {x : ρ} {l : List ρ} (h : l.Pairwise (· < ·)) (hx : x ∉ l) :
    (l.orderedInsert (· ≤ ·) x).Pairwise (· < ·) := by
  induction l with
  | nil => simp
  | cons y l ih =>
    obtain ⟨hy, hl⟩ := List.pairwise_cons.mp h
    rw [List.mem_cons, not_or] at hx
    rw [List.orderedInsert_cons]
    split
    · next hle =>
      have hlt : x < y := lt_of_le_of_ne hle hx.1
      refine List.pairwise_cons.mpr ⟨?_, h⟩
      intro z hz
      rcases List.mem_cons.mp hz with rfl | hz
      · exact hlt
      · exact hlt.trans (hy z hz)
    · next hle =>
      refine List.pairwise_cons.mpr ⟨?_, ih hl hx.2⟩
      intro z hz
      rcases (List.mem_orderedInsert _).mp hz with rfl | hz
      · exact not_le.mp hle
      · exact hy z hz

def insert (t : Table ρ) (x : ρ) (h : x ∉ t.rows) : Table ρ where
  rows := t.rows.orderedInsert (· ≤ ·) x
  sorted := sorted_insert t.sorted h

def delete (t : Table ρ) (x : ρ) : Table ρ where
  rows := t.rows.erase x
  sorted := t.sorted.sublist List.erase_sublist

theorem mem_insert {t : Table ρ} {x y : ρ} (h : x ∉ t.rows) :
    y ∈ (t.insert x h).rows ↔ y = x ∨ y ∈ t.rows := List.mem_orderedInsert _

theorem nodup (t : Table ρ) : t.rows.Nodup := t.sorted.imp ne_of_lt

theorem mem_delete {t : Table ρ} {x y : ρ} : y ∈ (t.delete x).rows ↔ y ≠ x ∧ y ∈ t.rows :=
  t.nodup.mem_erase_iff

theorem rank_insert {t : Table ρ} {x : ρ} (h : x ∉ t.rows) (y : ρ) :
    (t.insert x h).rank y = t.rank y + if x < y then 1 else 0 := by
  have hperm := List.perm_orderedInsert (· ≤ ·) x t.rows
  show (t.rows.orderedInsert (· ≤ ·) x).countP _ = _
  rw [hperm.countP_eq, List.countP_cons]
  simp [rank]

theorem rank_delete {t : Table ρ} {x : ρ} (h : x ∈ t.rows) (y : ρ) :
    t.rank y = (t.delete x).rank y + if x < y then 1 else 0 := by
  have hperm := List.perm_cons_erase h
  show t.rows.countP _ = (t.rows.erase x).countP _ + _
  rw [hperm.countP_eq, List.countP_cons]
  simp

theorem mem_window {x : ρ} {l : List ρ} (h : l.Pairwise (· < ·)) (limit offset : Nat) :
    x ∈ (l.drop offset).take limit ↔ x ∈ l ∧ offset ≤ l.countP (fun y => decide (y < x)) ∧
      l.countP (fun y => decide (y < x)) < offset + limit := by
  induction l generalizing limit offset with
  | nil => simp
  | cons y l ih =>
    obtain ⟨hy, hl⟩ := List.pairwise_cons.mp h
    have hzero : l.countP (fun z => decide (z < y)) = 0 := by
      rw [List.countP_eq_zero]
      intro z hz
      simpa using (hy z hz).le
    have hbehind : x ∈ l → y < x := hy x
    -- the head is skipped, or it is the first of the window
    cases offset with
    | succ offset =>
      rw [List.drop_succ_cons, ih hl, List.countP_cons]
      by_cases hx : x = y
      · subst hx
        have hnot : x ∉ l := fun hmem => lt_irrefl x (hbehind hmem)
        simp [hnot, hzero]
      · simp only [List.mem_cons, hx, false_or]
        refine and_congr_right fun hmem => ?_
        simp only [decide_eq_true (hbehind hmem), if_true]
        omega
    | zero =>
      cases limit with
      | zero => simp
      | succ limit =>
        have hfirst := ih hl limit 0
        rw [List.drop_zero] at hfirst
        rw [List.drop_zero, List.take_succ_cons, List.mem_cons, hfirst, List.countP_cons]
        by_cases hx : x = y
        · subst hx
          simp [hzero]
        · simp only [List.mem_cons, hx, false_or]
          refine and_congr_right fun hmem => ?_
          simp only [decide_eq_true (hbehind hmem), if_true]
          omega

/-- A page holds the rows whose rank lies in its window. -/
theorem mem_page {t : Table ρ} {x : ρ} {limit offset : Nat} :
    x ∈ t.page limit offset ↔
      x ∈ t.rows ∧ offset ≤ t.rank x ∧ t.rank x < offset + limit :=
  mem_window t.sorted limit offset

theorem rank_lt {t : Table ρ} {x : ρ} (h : x ∈ t.rows) : t.rank x < t.rows.length := by
  refine lt_of_le_of_ne List.countP_le_length ?_
  intro heq
  have hself := List.countP_eq_length.mp heq x h
  simp at hself

theorem page_eq_nil {t : Table ρ} {limit offset : Nat} (hlimit : 1 ≤ limit) :
    t.page limit offset = [] ↔ t.rows.length ≤ offset := by
  rw [page, List.take_eq_nil_iff, List.drop_eq_nil_iff]
  omega

end Table

end Paging
