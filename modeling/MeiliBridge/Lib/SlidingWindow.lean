import Mathlib.Data.Finset.Card
import Mathlib.Data.List.Dedup
import Mathlib.Data.List.Nodup

/-!
# First-in first-out windows

A log of what has entered a window, newest first: the window holds the last `n` entries, and
nothing enters while it is inside. `accepted` runs one stream of items through a window of its own;
`Entered` says of a log with entries from anywhere that it was filled in this way.

Two streams that share a window without sharing a key see each other only through the room they
take. `mem_take_of_filter` says how much that is: what is still inside a window that is shorter by
the number of the other stream's keys is still inside the shared one.
-/

set_option autoImplicit false

namespace SlidingWindow

variable {ε κ : Type}

section

variable [DecidableEq κ]

/-- One item at a window of `n`: it enters unless its key is inside. -/
def accept (key : ε → κ) (n : Nat) (log : List ε) (e : ε) : List ε :=
  if key e ∈ (log.map key).take n then log else e :: log

/-- What of a stream has entered a window of its own, newest first. -/
def accepted (key : ε → κ) (n : Nat) (es : List ε) : List ε := es.foldl (accept key n) []

variable {key : ε → κ} {n : Nat}

@[simp] theorem accepted_nil : accepted key n [] = [] := rfl

@[simp] theorem accepted_concat (es : List ε) (e : ε) :
    accepted key n (es ++ [e]) = accept key n (accepted key n es) e := by
  simp [accepted]

theorem mem_of_mem_accepted {es : List ε} {x : ε} (h : x ∈ accepted key n es) : x ∈ es := by
  induction es using List.reverseRecOn with
  | nil => cases h
  | append_singleton es e ih =>
    rw [accepted_concat, accept] at h
    split at h
    · exact List.mem_append_left _ (ih h)
    · rcases List.mem_cons.mp h with rfl | h
      · simp
      · exact List.mem_append_left _ (ih h)

/-- An entry has entered at some point of the stream, when the older entries were there. -/
theorem accepted_split {es newer older : List ε} {e : ε}
    (h : accepted key n es = newer ++ e :: older) :
    ∃ before after, es = before ++ e :: after ∧ accepted key n before = older ∧
      key e ∉ (older.map key).take n := by
  induction es using List.reverseRecOn generalizing newer with
  | nil => simp at h
  | append_singleton es x ih =>
    rw [accepted_concat, accept] at h
    split at h
    · obtain ⟨before, after, rfl, hbefore, hkey⟩ := ih h
      exact ⟨before, after ++ [x], by simp, hbefore, hkey⟩
    · next hfresh =>
      cases newer with
      | nil =>
        obtain ⟨rfl, rfl⟩ := List.cons.inj h
        exact ⟨es, [], rfl, rfl, hfresh⟩
      | cons y newer =>
        obtain ⟨-, h⟩ := List.cons.inj h
        obtain ⟨before, after, rfl, hbefore, hkey⟩ := ih h
        exact ⟨before, after ++ [x], by simp, hbefore, hkey⟩

end

/-- Each entry of the log was outside a window of `n` when it entered. -/
inductive Entered (n : Nat) : List κ → Prop
  | nil : Entered n []
  | cons {k : κ} {log : List κ} (h : Entered n log) (hk : k ∉ log.take n) : Entered n (k :: log)

section

variable {n : Nat} {log : List κ}

theorem Entered.older {newer : List κ} (h : Entered n (newer ++ log)) : Entered n log := by
  induction newer with
  | nil => exact h
  | cons k newer ih =>
    cases h with
    | cons h _ => exact ih h

/-- The entries inside the window are distinct. -/
theorem Entered.nodup (h : Entered n log) : (log.take n).Nodup := by
  have hlength (m : Nat) (hm : m ≤ n) : (log.take m).Nodup := by
    induction h generalizing m with
    | nil => simp
    | @cons k log h hk ih =>
      cases m with
      | zero => simp
      | succ m =>
        rw [List.take_succ_cons, List.nodup_cons]
        have hsub : log.take m ⊆ log.take n := List.take_subset_take_left _ (by omega)
        exact ⟨fun hmem => hk (hsub hmem), ih m (by omega)⟩
  exact hlength n le_rfl

/-- What a full window keeps when its oldest entry leaves it. -/
theorem take_pred_of_full {older : List κ} {oldest : κ} (hfull : n ≤ (log.take n).length)
    (htake : log.take n = older ++ [oldest]) : log.take (n - 1) = older := by
  have hlength : (log.take n).length ≤ n := List.length_take_le _ _
  rw [htake, List.length_append, List.length_singleton] at hfull hlength
  have holder : n - 1 = older.length := by omega
  have htake' := congrArg (List.take (n - 1)) htake
  rw [List.take_take, Nat.min_eq_left (Nat.sub_le _ _), holder, List.take_left] at htake'
  rw [holder]
  exact htake'

/-- The newest entry of a key is inside the window while fewer than `n` have come after it. -/
theorem mem_take_iff {newer older : List κ} {k : κ} (hk : k ∉ newer) :
    k ∈ (newer ++ k :: older).take n ↔ newer.length < n := by
  rw [List.take_append, List.mem_append]
  constructor
  · intro h
    rcases h with h | h
    · exact absurd (List.mem_of_mem_take h) hk
    · by_contra hn
      rw [Nat.sub_eq_zero_of_le (not_lt.mp hn)] at h
      cases h
  · intro h
    obtain ⟨m, hm⟩ : ∃ m, n - newer.length = m + 1 := ⟨n - newer.length - 1, by omega⟩
    rw [hm]
    simp

/-- What is inside a window is inside that of any part of the stream that it belongs to. -/
theorem mem_take_filter {p : κ → Bool} {k : κ} (hk : p k = true) (h : k ∈ log.take n) :
    k ∈ (log.filter p).take n := by
  obtain ⟨newer, older, rfl, hnewer⟩ := List.eq_append_cons_of_mem (List.mem_of_mem_take h)
  rw [mem_take_iff hnewer] at h
  rw [List.filter_append, List.filter_cons_of_pos hk,
    mem_take_iff fun hmem => hnewer (List.mem_filter.mp hmem).1]
  exact lt_of_le_of_lt (List.length_filter_le _ _) h

/-- **The room that other entries take**: an entry stays inside if it would with a window shorter by
the number of their keys. -/
theorem mem_take_of_filter [DecidableEq κ] {p : κ → Bool} {others : Finset κ} {k : κ}
    (h : Entered n log)
    (hothers : ∀ x ∈ log, p x = false → x ∈ others) (hk : p k = true)
    (hmem : k ∈ (log.filter p).take (n - others.card)) : k ∈ log.take n := by
  obtain ⟨newer, older, rfl, hnewer⟩ :=
    List.eq_append_cons_of_mem (List.mem_filter.mp (List.mem_of_mem_take hmem)).1
  rw [List.filter_append, List.filter_cons_of_pos hk,
    mem_take_iff fun hmem => hnewer (List.mem_filter.mp hmem).1] at hmem
  rw [mem_take_iff hnewer]
  by_contra hlong
  -- the first `n` entries that came after `k` are distinct
  set after := newer.drop (newer.length - n)
  have hafter : after.length = n := by
    rw [List.length_drop]
    omega
  have hnodup : after.Nodup := by
    have hentered : Entered n (after ++ k :: older) := by
      refine @Entered.older _ n _ (newer.take (newer.length - n)) ?_
      rwa [← List.append_assoc, List.take_append_drop]
    simpa [← hafter] using hentered.nodup
  have hsub : after ⊆ newer := List.drop_subset _ _
  have hown : (after.filter p).length ≤ (newer.filter p).length :=
    ((List.drop_sublist _ _).filter _).length_le
  have hrest : (after.filter fun x => !p x).length ≤ others.card := by
    rw [← List.toFinset_card_of_nodup (hnodup.filter _)]
    refine Finset.card_le_card fun x hx => ?_
    obtain ⟨hx, hp⟩ := List.mem_filter.mp (List.mem_toFinset.mp hx)
    exact hothers x (List.mem_append_left _ (hsub hx)) (by simpa using hp)
  have hparts := List.length_eq_length_filter_add (l := after) p
  omega

end

end SlidingWindow
