import Mathlib.Data.List.Pairwise
import Mathlib.Data.String.Basic
import MeiliBridge.Base.Value

/-!
# Maps of fields in key order

A map that is built by insertions is in key order, so that it is known by the values of its keys.
-/

set_option autoImplicit false

namespace MeiliBridge

namespace Fields

/-- Each key is before the ones that follow. -/
def Ordered (data : Fields) : Prop := data.Pairwise fun a b => a.1 < b.1

theorem ordered_nil : Ordered [] := List.Pairwise.nil

theorem mem_insert {key : String} {v : Value} {data : Fields} {e : String × Value}
    (h : e ∈ data.insert key v) : e = (key, v) ∨ e ∈ data := by
  induction data with
  | nil => exact .inl (List.mem_singleton.mp h)
  | cons first rest ih =>
    obtain ⟨k, x⟩ := first
    rw [insert] at h
    split at h
    · rcases List.mem_cons.mp h with h | h
      · exact .inl h
      · exact .inr (List.mem_cons_of_mem _ h)
    · split at h
      · exact List.mem_cons.mp h
      · rcases List.mem_cons.mp h with h | h
        · exact .inr (h ▸ List.mem_cons_self)
        · exact (ih h).imp_right (List.mem_cons_of_mem _)

theorem Ordered.insert {data : Fields} (h : Ordered data) (key : String) (v : Value) :
    Ordered (data.insert key v) := by
  induction data with
  | nil => exact List.pairwise_singleton _ _
  | cons first rest ih =>
    obtain ⟨k, x⟩ := first
    obtain ⟨hfirst, hrest⟩ := List.pairwise_cons.mp h
    rw [Fields.insert]
    split
    · next heq =>
      subst heq
      exact List.pairwise_cons.mpr ⟨hfirst, hrest⟩
    · next hne =>
      split
      · next hlt =>
        refine List.pairwise_cons.mpr ⟨?_, h⟩
        intro e he
        rcases List.mem_cons.mp he with rfl | he
        · exact hlt
        · exact hlt.trans (hfirst e he)
      · next hnlt =>
        refine List.pairwise_cons.mpr ⟨?_, ih hrest⟩
        intro e he
        rcases mem_insert he with rfl | he
        · exact lt_of_le_of_ne (not_lt.mp hnlt) (Ne.symm hne)
        · exact hfirst e he

/-- Whatever only inserts keeps the order. -/
theorem Ordered.foldl {β : Type} {f : Fields → β → Fields} {bs : List β}
    (hstep : ∀ acc b, Ordered acc → Ordered (f acc b)) {data : Fields} (h : Ordered data) :
    Ordered (bs.foldl f data) := by
  induction bs generalizing data with
  | nil => exact h
  | cons b bs ih => exact ih (hstep data b h)

theorem Ordered.insertAll {data : Fields} (h : Ordered data) (entries : Fields) :
    Ordered (data.insertAll entries) :=
  Ordered.foldl (fun _ entry hacc => hacc.insert entry.1 entry.2) h

theorem get_cons (k key : String) (v : Value) (data : Fields) :
    Fields.get ((k, v) :: data) key = if key = k then some v else Fields.get data key := by
  by_cases hkey : key = k
  · simp [get, hkey]
  · simp [get, List.lookup_cons, beq_false_of_ne hkey, hkey]

theorem Ordered.mem_iff {data : Fields} (h : Ordered data) {key : String} {v : Value} :
    (key, v) ∈ data ↔ data.get key = some v := by
  induction data with
  | nil => simp [get]
  | cons first rest ih =>
    obtain ⟨k, x⟩ := first
    obtain ⟨hfirst, hrest⟩ := List.pairwise_cons.mp h
    rw [get_cons]
    by_cases hkey : key = k
    · subst hkey
      have hnot : (key, v) ∉ rest := fun hmem => lt_irrefl key (hfirst (key, v) hmem)
      simp [hnot, eq_comm]
    · simp [hkey, ih hrest]

/-- **Two ordered maps with the same values are the same.** -/
theorem Ordered.ext {data data' : Fields} (h : Ordered data) (h' : Ordered data')
    (hget : ∀ key, data.get key = data'.get key) : data = data' := by
  have hnodup {data : Fields} (h : Ordered data) : data.Nodup := by
    refine List.Pairwise.imp ?_ h
    intro a b hlt heq
    rw [heq] at hlt
    exact lt_irrefl _ hlt
  have hperm : data.Perm data' := by
    rw [List.perm_ext_iff_of_nodup (hnodup h) (hnodup h')]
    rintro ⟨key, v⟩
    rw [h.mem_iff, h'.mem_iff, hget]
  exact hperm.eq_of_pairwise (fun a b _ _ hab hba => absurd (hab.trans hba) (lt_irrefl _)) h h'

/-! ## The values of a map that is built by insertions -/

/-- A key that is put has a value that does not depend on what was there before. -/
theorem get_insertAll_of_mem_keys {entries : Fields} {key : String}
    (h : key ∈ entries.map Prod.fst) (data data' : Fields) :
    (data.insertAll entries).get key = (data'.insertAll entries).get key := by
  induction entries generalizing data data' with
  | nil => cases h
  | cons entry entries ih =>
    by_cases hrest : key ∈ entries.map Prod.fst
    · exact ih hrest _ _
    · rw [List.map_cons, List.mem_cons] at h
      have hkey : key = entry.1 := h.resolve_right hrest
      have hput (data : Fields) :
          (data.insertAll (entry :: entries)).get key = some entry.2 := by
        refine (get_insertAll_of_not_mem hrest _).trans ?_
        rw [get_insert, if_pos hkey]
      rw [hput, hput]

theorem get_insertAll_eq_none_iff {entries : Fields} {key : String} :
    (insertAll [] entries).get key = none ↔ key ∉ entries.map Prod.fst := by
  constructor
  · intro hnone hmem
    induction entries with
    | nil => cases hmem
    | cons entry entries ih =>
      by_cases hrest : key ∈ entries.map Prod.fst
      · apply ih _ hrest
        rw [← hnone]
        exact get_insertAll_of_mem_keys hrest _ _
      · have hget := get_insertAll_of_not_mem hrest (Fields.insert entry.1 entry.2 [])
        rw [List.map_cons, List.mem_cons] at hmem
        rw [get_insert, if_pos (hmem.resolve_right hrest)] at hget
        have hsome : (insertAll [] (entry :: entries)).get key = some entry.2 := hget
        rw [hnone] at hsome
        cases hsome
  · intro hnot
    rw [get_insertAll_of_not_mem hnot]
    rfl

end Fields

end MeiliBridge
