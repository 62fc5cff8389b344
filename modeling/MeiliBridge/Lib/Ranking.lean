import Mathlib.Data.List.Count
import Mathlib.Data.List.Pairwise
import Mathlib.Data.List.Sort

/-!
# The first of a list, by one key and by another

`l.sortedBy f` is `l` sorted by a key. Where no two elements have the same key, the first `n` by
`f` are the first `n` by `g` when `g` also puts each of them before all that `f` puts after it
(`take_sortedBy_eq_iff`).
-/

set_option autoImplicit false

namespace List

variable {α ι κ : Type} {f : α → ι} {g : α → κ} {l : List α}

/-- No two elements have the same key. -/
def DistinctBy (f : α → ι) (l : List α) : Prop := (l.map f).Nodup

theorem DistinctBy.eq (h : l.DistinctBy f) {a b : α} (ha : a ∈ l) (hb : b ∈ l) (heq : f a = f b) :
    a = b :=
  inj_on_of_nodup_map h ha hb heq

variable [LinearOrder ι] [LinearOrder κ]

/-- Sorted by a key; elements with the same key stay in their order. -/
def sortedBy (f : α → ι) (l : List α) : List α := l.insertionSort fun a b => f a ≤ f b

theorem perm_sortedBy : (l.sortedBy f).Perm l := perm_insertionSort _ l

@[simp] theorem mem_sortedBy {a : α} : a ∈ l.sortedBy f ↔ a ∈ l := perm_sortedBy.mem_iff

@[simp] theorem length_sortedBy : (l.sortedBy f).length = l.length := perm_sortedBy.length_eq

theorem pairwise_sortedBy : (l.sortedBy f).Pairwise fun a b => f a ≤ f b :=
  have : Std.Total fun a b : α => f a ≤ f b := ⟨fun a b => le_total (f a) (f b)⟩
  have : IsTrans α fun a b => f a ≤ f b := ⟨fun _ _ _ h h' => le_trans h h'⟩
  pairwise_insertionSort _ l

theorem pairwise_lt_sortedBy (h : l.DistinctBy f) :
    (l.sortedBy f).Pairwise fun a b => f a < f b := by
  have hnodup : ((l.sortedBy f).map f).Nodup := (perm_sortedBy.map f).nodup_iff.mpr h
  have hne : (l.sortedBy f).Pairwise fun a b => f a ≠ f b := pairwise_map.mp hnodup
  exact pairwise_sortedBy.imp₂ (fun a b hle hne => lt_of_le_of_ne hle hne) hne

/-- A list in the order of the key is the sorted list. -/
theorem eq_sortedBy {l' : List α} (h : l.DistinctBy f) (hperm : l'.Perm l)
    (hsorted : l'.Pairwise fun a b => f a ≤ f b) : l' = l.sortedBy f := by
  refine (hperm.trans perm_sortedBy.symm).eq_of_pairwise ?_ hsorted pairwise_sortedBy
  intro a b ha hb hab hba
  exact h.eq (hperm.mem_iff.mp ha) (mem_sortedBy.mp hb) (le_antisymm hab hba)

/-- How many elements come before this one. -/
def countLess (f : α → ι) (l : List α) (a : α) : Nat := l.countP fun b => f b < f a

theorem mem_take_sortedBy (h : l.DistinctBy f) {n : Nat} {a : α} (ha : a ∈ l) :
    a ∈ (l.sortedBy f).take n ↔ l.countLess f a < n := by
  have hsplit := take_append_drop n (l.sortedBy f)
  have hlt := pairwise_lt_sortedBy h
  rw [← hsplit, pairwise_append] at hlt
  obtain ⟨-, -, hcross⟩ := hlt
  have hcount : l.countLess f a = ((l.sortedBy f).take n).countP (fun b => f b < f a) +
      ((l.sortedBy f).drop n).countP (fun b => f b < f a) := by
    rw [countLess, ← countP_append, hsplit]
    exact (perm_sortedBy.countP_eq _).symm
  have hlen : ((l.sortedBy f).take n).length ≤ n := length_take_le _ _
  constructor
  · intro htake
    have hdrop : ((l.sortedBy f).drop n).countP (fun b => f b < f a) = 0 := by
      refine countP_eq_zero.mpr fun b hb => ?_
      simpa using le_of_lt (hcross a htake b hb)
    have hself : ((l.sortedBy f).take n).countP (fun b => f b < f a) <
        ((l.sortedBy f).take n).length :=
      countP_lt_length_iff.mpr ⟨a, htake, by simp⟩
    omega
  · intro hbefore
    rcases mem_append.mp (hsplit.symm ▸ mem_sortedBy.mpr ha : a ∈ take n _ ++ drop n _) with
      htake | hdrop
    · exact htake
    · have hall : ((l.sortedBy f).take n).countP (fun b => f b < f a) =
          ((l.sortedBy f).take n).length :=
        countP_eq_length.mpr fun b hb => by simpa using hcross b hb a hdrop
      have hlong : 0 < ((l.sortedBy f).drop n).length := length_pos_of_mem hdrop
      rw [length_take] at hall
      rw [length_drop] at hlong
      omega

/-- Two lists sorted by different keys begin with the same elements. -/
theorem take_sortedBy_eq_iff (hf : l.DistinctBy f) (hg : l.DistinctBy g) (n : Nat) :
    (l.sortedBy g).take n = (l.sortedBy f).take n ↔
      ∀ a ∈ l, l.countLess f a < n → ∀ b ∈ l, f a < f b → g a < g b := by
  have hlt := pairwise_lt_sortedBy hf
  rw [← take_append_drop n (l.sortedBy f), pairwise_append] at hlt
  obtain ⟨htake, hdrop, hcross⟩ := hlt
  constructor
  · intro heq a ha hbefore b hb hab
    have hmem : a ∈ (l.sortedBy f).take n := (mem_take_sortedBy hf ha).mpr hbefore
    have hsorted := pairwise_lt_sortedBy hg
    rw [← take_append_drop n (l.sortedBy g), heq, pairwise_append] at hsorted
    obtain ⟨htake', -, hcross'⟩ := hsorted
    by_cases hbmem : b ∈ (l.sortedBy f).take n
    · -- both are among the first: `f` and `g` order the same list
      have hboth : ((l.sortedBy f).take n).Pairwise fun a b =>
          (f a < f b → g a < g b) ∧ (f b < f a → g b < g a) :=
        htake.imp₂ (fun a b hf hg => ⟨fun _ => hg, fun h => absurd h (lt_asymm hf)⟩) htake'
      have : Std.Symm fun a b : α => (f a < f b → g a < g b) ∧ (f b < f a → g b < g a) :=
        ⟨fun a b h => h.symm⟩
      exact (hboth.forall_of_forall (fun a _ => ⟨fun h => absurd h (lt_irrefl _),
        fun h => absurd h (lt_irrefl _)⟩) hmem hbmem).1 hab
    · refine hcross' a hmem b ?_
      have hall : b ∈ (l.sortedBy g).take n ++ (l.sortedBy g).drop n := by
        rw [take_append_drop]
        exact mem_sortedBy.mpr hb
      rw [heq] at hall
      exact (mem_append.mp hall).resolve_left hbmem
  · intro hall
    have hin : ∀ a ∈ (l.sortedBy f).take n, a ∈ l ∧ l.countLess f a < n := by
      intro a ha
      have hmem := mem_sortedBy.mp (mem_of_mem_take ha)
      exact ⟨hmem, (mem_take_sortedBy hf hmem).mp ha⟩
    have hout : ∀ b ∈ (l.sortedBy f).drop n, b ∈ l :=
      fun b hb => mem_sortedBy.mp (mem_of_mem_drop hb)
    -- what is left over, sorted by `g`, continues the list
    have hwhole : (l.sortedBy f).take n ++ ((l.sortedBy f).drop n).sortedBy g = l.sortedBy g := by
      refine eq_sortedBy hg ?_ (pairwise_append.mpr ⟨?_, pairwise_sortedBy, ?_⟩)
      · refine (perm_sortedBy.append_left _).trans ?_
        rw [take_append_drop]
        exact perm_sortedBy
      · refine htake.imp_of_mem fun ha hb hab => le_of_lt ?_
        exact hall _ (hin _ ha).1 (hin _ ha).2 _ (hin _ hb).1 hab
      · intro a ha b hb
        have hb := mem_sortedBy.mp hb
        exact le_of_lt (hall a (hin a ha).1 (hin a ha).2 b (hout b hb) (hcross a ha b hb))
    rw [← hwhole, take_append, length_take, length_sortedBy]
    rcases le_total n l.length with hn | hn
    · rw [min_eq_left hn, Nat.sub_self, take_zero, append_nil, take_take, min_self]
    · rw [drop_eq_nil_of_le (by rw [length_sortedBy]; exact hn), take_take, min_self]
      simp [sortedBy]

end List
