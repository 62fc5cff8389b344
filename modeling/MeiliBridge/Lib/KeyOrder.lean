import Mathlib.Order.Compare
import Mathlib.Order.Lattice

/-!
# Comparing by a key that not every value has

`compareByKey` compares two values by their keys when both have one, and as they stand otherwise. It
is antisymmetric. It need not be transitive: of three values of which two have a key, the keys order
the two and the values themselves order each of them against the third. In every other case one
order speaks (`compareByKey_isLE_trans`).

`earliest` is the search for the least element by a test that says whether one element comes after
another. Where the test compares a rank, the search finds an element of the least rank.
-/

set_option autoImplicit false

namespace KeyOrder

variable {α κ : Type}

section Compare

variable [Ord α] [Ord κ] (key : α → Option κ)

/-- Compare by the key, if both have one. -/
def compareByKey (a b : α) : Ordering :=
  match key a, key b with
  | some x, some y => compare x y
  | _, _ => compare a b

/-- The value has a key. -/
def hasKey (a : α) : Bool := (key a).isSome

variable {key} {a b c : α}

theorem compareByKey_some {x y : κ} (ha : key a = some x) (hb : key b = some y) :
    compareByKey key a b = compare x y := by
  simp only [compareByKey, ha, hb]

theorem compareByKey_none (h : key a = none ∨ key b = none) :
    compareByKey key a b = compare a b := by
  unfold compareByKey
  rcases h with h | h
  · rw [h]
  · rw [h]
    cases key a <;> rfl

theorem compareByKey_swap [Std.OrientedOrd α] [Std.OrientedOrd κ] (a b : α) :
    compareByKey key a b = (compareByKey key b a).swap := by
  cases ha : key a with
  | none =>
    rw [compareByKey_none (.inl ha), compareByKey_none (.inr ha)]
    exact Std.OrientedOrd.eq_swap
  | some x =>
    cases hb : key b with
    | none =>
      rw [compareByKey_none (.inr hb), compareByKey_none (.inl hb)]
      exact Std.OrientedOrd.eq_swap
    | some y =>
      rw [compareByKey_some ha hb, compareByKey_some hb ha]
      exact Std.OrientedOrd.eq_swap

/-- **The comparison is transitive on three values of which not exactly two have a key.** -/
theorem compareByKey_isLE_trans [Std.TransOrd α] [Std.TransOrd κ]
    (hkeys : [a, b, c].countP (hasKey key) ≠ 2) (hab : (compareByKey key a b).isLE = true)
    (hbc : (compareByKey key b c).isLE = true) : (compareByKey key a c).isLE = true := by
  cases ha : key a <;> cases hb : key b <;> cases hc : key c <;>
    simp only [hasKey, ha, hb, hc, List.countP_cons, List.countP_nil, Option.isSome_some,
      Option.isSome_none, if_true, Bool.false_eq_true, if_false] at hkeys <;>
    simp only [compareByKey, ha, hb, hc] at hab hbc ⊢
  -- all three have a key, or at most one has
  case some.some.some x y z => exact Std.TransOrd.isLE_trans hab hbc
  case none.none.none => exact Std.TransOrd.isLE_trans hab hbc
  case some.none.none => exact Std.TransOrd.isLE_trans hab hbc
  case none.some.none => exact Std.TransOrd.isLE_trans hab hbc
  case none.none.some => exact Std.TransOrd.isLE_trans hab hbc
  all_goals exact absurd rfl hkeys

end Compare

/-! ## The earliest element -/

section Earliest

variable (after : α → α → Bool)

/-- One round of the search: an element takes the place of the one found so far unless it comes
after it. -/
def keepEarlier : Option α → α → Option α
  | none, a => some a
  | some current, a => if after a current then some current else some a

def earliest (xs : List α) : Option α := xs.foldl (keepEarlier after) none

theorem foldl_keepEarlier (xs : List α) (current : α) :
    ∃ e, xs.foldl (keepEarlier after) (some current) = some e ∧ e ∈ current :: xs := by
  induction xs generalizing current with
  | nil => exact ⟨current, rfl, List.mem_cons_self⟩
  | cons x xs ih =>
    rw [List.foldl_cons, keepEarlier]
    split
    · obtain ⟨e, he, hmem⟩ := ih current
      refine ⟨e, he, ?_⟩
      rcases List.mem_cons.mp hmem with rfl | hmem
      · exact List.mem_cons_self
      · exact List.mem_cons_of_mem _ (List.mem_cons_of_mem _ hmem)
    · obtain ⟨e, he, hmem⟩ := ih x
      exact ⟨e, he, List.mem_cons_of_mem _ hmem⟩

theorem earliest_eq_none_iff {xs : List α} : earliest after xs = none ↔ xs = [] := by
  cases xs with
  | nil => exact ⟨fun _ => rfl, fun _ => rfl⟩
  | cons x xs =>
    obtain ⟨e, he, -⟩ := foldl_keepEarlier after xs x
    have hsome : earliest after (x :: xs) = some e := he
    simp [hsome]

variable {after}

theorem earliest_mem {xs : List α} {e : α} (h : earliest after xs = some e) : e ∈ xs := by
  cases xs with
  | nil => cases h
  | cons x xs =>
    obtain ⟨e', he', hmem⟩ := foldl_keepEarlier after xs x
    obtain rfl := Option.some.inj (he'.symm.trans h)
    exact hmem

variable {β : Type} [LinearOrder β] {rank : α → β}

theorem foldl_keepEarlier_least {xs : List α} {current e : α}
    (hrank : ∀ a ∈ current :: xs, ∀ b ∈ current :: xs, after a b = true ↔ rank b < rank a)
    (h : xs.foldl (keepEarlier after) (some current) = some e) :
    ∀ a ∈ current :: xs, rank e ≤ rank a := by
  induction xs generalizing current with
  | nil =>
    obtain rfl := Option.some.inj h
    intro a ha
    rw [List.mem_singleton.mp ha]
  | cons x xs ih =>
    rw [List.foldl_cons, keepEarlier] at h
    have hx := hrank x (by simp) current (by simp)
    split at h
    · next hafter =>
      -- the element found so far stays, and is no later than the new one
      have hleast := ih (fun a ha b hb => hrank a (by grind) b (by grind)) h
      intro a ha
      rcases List.mem_cons.mp ha with rfl | ha
      · exact hleast a List.mem_cons_self
      · rcases List.mem_cons.mp ha with rfl | ha
        · exact (hleast current List.mem_cons_self).trans (hx.mp hafter).le
        · exact hleast a (List.mem_cons_of_mem _ ha)
    · next hafter =>
      have hleast := ih (fun a ha b hb =>
        hrank a (List.mem_cons_of_mem _ ha) b (List.mem_cons_of_mem _ hb)) h
      intro a ha
      rcases List.mem_cons.mp ha with rfl | ha
      · exact (hleast x List.mem_cons_self).trans (not_lt.mp fun hlt => hafter (hx.mpr hlt))
      · exact hleast a ha

/-- **The search finds an element of the least rank.** -/
theorem earliest_least {xs : List α} {e : α}
    (hrank : ∀ a ∈ xs, ∀ b ∈ xs, after a b = true ↔ rank b < rank a)
    (h : earliest after xs = some e) : ∀ a ∈ xs, rank e ≤ rank a := by
  cases xs with
  | nil => cases h
  | cons x xs => exact foldl_keepEarlier_least hrank h

end Earliest

end KeyOrder
