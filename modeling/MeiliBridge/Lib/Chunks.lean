import Mathlib.Data.List.Basic

/-!
# A list cut into pieces of one length

`l.chunks n` is what `slice::chunks` yields: pieces of `n` elements, the last of which may be
shorter. A size of 0 yields nothing here.
-/

set_option autoImplicit false

namespace List

variable {α : Type}

/-- Cut off at most `fuel` pieces. -/
def chunksFrom (n : Nat) : Nat → List α → List (List α)
  | 0, _ | _, [] => []
  | fuel + 1, a :: l => (a :: l).take n :: chunksFrom n fuel ((a :: l).drop n)

def chunks (n : Nat) (l : List α) : List (List α) := if n = 0 then [] else chunksFrom n l.length l

variable {n : Nat}

theorem chunksFrom_of_le (hn : 0 < n) {fuel fuel' : Nat} {l : List α} (h : l.length ≤ fuel)
    (h' : l.length ≤ fuel') : chunksFrom n fuel l = chunksFrom n fuel' l := by
  induction fuel generalizing fuel' l with
  | zero =>
    rw [length_eq_zero_iff.mp (Nat.le_zero.mp h)]
    cases fuel' <;> rfl
  | succ fuel ih =>
    cases l with
    | nil => cases fuel' <;> rfl
    | cons a l =>
      cases fuel' with
      | zero => simp at h'
      | succ fuel' =>
        have hlen : ((a :: l).drop n).length ≤ l.length := by
          rw [length_drop, length_cons]
          omega
        rw [length_cons, Nat.add_le_add_iff_right] at h h'
        rw [chunksFrom, chunksFrom, ih (Nat.le_trans hlen h) (Nat.le_trans hlen h')]

@[simp] theorem chunks_nil : (([] : List α).chunks n) = [] := by
  unfold chunks
  split <;> rfl

/-- The first piece, and the pieces of the rest. -/
theorem chunks_append (hn : 0 < n) {l : List α} (hl : l.length = n) (rest : List α) :
    (l ++ rest).chunks n = l :: rest.chunks n := by
  cases l with
  | nil => exact absurd hl (Nat.ne_of_lt hn)
  | cons a l =>
    have hdrop : ((a :: l) ++ rest).drop n = rest := by rw [← hl, drop_left]
    have htake : ((a :: l) ++ rest).take n = a :: l := by rw [← hl, take_left]
    rw [cons_append] at hdrop htake
    rw [chunks, chunks, if_neg (Nat.ne_of_gt hn), if_neg (Nat.ne_of_gt hn), cons_append,
      length_cons, chunksFrom, htake, hdrop, chunksFrom_of_le hn ?_ (Nat.le_refl rest.length)]
    rw [length_append]
    exact Nat.le_add_left _ _

theorem chunks_short {l : List α} (hne : l ≠ []) (hl : l.length ≤ n) : l.chunks n = [l] := by
  cases l with
  | nil => exact absurd rfl hne
  | cons a l =>
    have hn : n ≠ 0 := by
      rw [length_cons] at hl
      omega
    rw [chunks, if_neg hn, length_cons, chunksFrom, take_of_length_le hl, drop_of_length_le hl]
    cases l <;> rfl

/-- Everything is in some piece. -/
theorem flatten_chunks (hn : 0 < n) (l : List α) : (l.chunks n).flatten = l := by
  have hall : ∀ (fuel : Nat) (l : List α), l.length ≤ fuel → (chunksFrom n fuel l).flatten = l := by
    intro fuel
    induction fuel with
    | zero =>
      intro l hl
      rw [length_eq_zero_iff.mp (Nat.le_zero.mp hl)]
      rfl
    | succ fuel ih =>
      intro l hl
      cases l with
      | nil => rfl
      | cons a l =>
        rw [chunksFrom, flatten_cons, ih, take_append_drop]
        rw [length_drop]
        omega
  rw [chunks, if_neg (Nat.ne_of_gt hn)]
  exact hall _ l (Nat.le_refl _)

theorem ne_nil_of_mem_chunks {l piece : List α} (h : piece ∈ l.chunks n) : piece ≠ [] := by
  have hall : ∀ (fuel : Nat) (l : List α), 0 < n → ∀ piece ∈ chunksFrom n fuel l, piece ≠ [] := by
    intro fuel
    induction fuel with
    | zero =>
      intro l _ piece hpiece
      cases hpiece
    | succ fuel ih =>
      intro l hn piece hpiece
      cases l with
      | nil => cases hpiece
      | cons a l =>
        rcases mem_cons.mp hpiece with rfl | hpiece
        · simpa using (Nat.ne_of_gt hn)
        · exact ih _ hn piece hpiece
  unfold chunks at h
  split at h
  · cases h
  · next hn => exact hall _ l (Nat.pos_of_ne_zero hn) piece h

end List
