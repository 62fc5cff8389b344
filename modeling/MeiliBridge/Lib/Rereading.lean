import MeiliBridge.Lib.SlidingWindow

/-!
# Reading a log again

A reader hands over the entries of a log one after another. It may go back as often as it likes and
hand over entries again. A window that keeps as many entries as the reader goes back lets each entry
in once, and in the order of the log: `foldl_accept_reads`.
-/

set_option autoImplicit false

namespace Rereading

open SlidingWindow

variable {ε κ : Type}

/-- A reader that has handed over the first `f` entries hands over these, and has then handed over
the first `f'`. Each item is the next entry, or again one of the last `n`. -/
inductive Reads (log : List ε) (n : Nat) : Nat → List ε → Nat → Prop
  | nil {f : Nat} : Reads log n f [] f
  | next {f f' : Nat} {e : ε} {es : List ε} (he : log[f]? = some e)
      (h : Reads log n (f + 1) es f') : Reads log n f (e :: es) f'
  | again {f f' i : Nat} {e : ε} {es : List ε} (he : log[i]? = some e) (hbehind : i < f)
      (hnear : f ≤ i + n) (h : Reads log n f es f') : Reads log n f (e :: es) f'

variable {log : List ε} {n m f f' f'' : Nat} {es es' : List ε}

theorem Reads.le (h : Reads log n f es f') : f ≤ f' := by
  induction h with
  | nil => exact Nat.le_refl _
  | next _ _ ih => omega
  | again _ _ _ _ ih => exact ih

theorem Reads.append (h : Reads log n f es f') (h' : Reads log n f' es' f'') :
    Reads log n f (es ++ es') f'' := by
  induction h with
  | nil => exact h'
  | next he _ ih => exact .next he (ih h')
  | again he hbehind hnear _ ih => exact .again he hbehind hnear (ih h')

/-- What has been handed over is in the log, before the point that has been reached. -/
theorem Reads.index (h : Reads log n f es f') : ∀ e ∈ es, ∃ i, i < f' ∧ log[i]? = some e := by
  induction h with
  | nil => exact fun e he => absurd he List.not_mem_nil
  | next he h ih =>
    intro x hx
    rcases List.mem_cons.mp hx with rfl | hx
    · exact ⟨_, h.le, he⟩
    · exact ih x hx
  | again he hbehind _ h ih =>
    intro x hx
    rcases List.mem_cons.mp hx with rfl | hx
    · exact ⟨_, Nat.lt_of_lt_of_le hbehind h.le, he⟩
    · exact ih x hx

/-- How far back a reader goes matters only up to where the items are. -/
theorem Reads.within (h : Reads log m f es f')
    (hnear : ∀ e ∈ es, ∀ i, log[i]? = some e → f' ≤ i + n) : Reads log n f es f' := by
  induction h with
  | nil => exact .nil
  | next he _ ih => exact .next he (ih fun x hx => hnear x (List.mem_cons_of_mem _ hx))
  | @again f f' i e es he hbehind _ h ih =>
    have hreach := hnear e List.mem_cons_self i he
    have hle := h.le
    exact .again he hbehind (by omega) (ih fun x hx => hnear x (List.mem_cons_of_mem _ hx))

/-- What has been handed over once can be handed over again. -/
theorem reads_again (hread : ∀ e ∈ es, ∃ i, i < f ∧ log[i]? = some e) : Reads log f f es f := by
  induction es with
  | nil => exact .nil
  | cons e es ih =>
    obtain ⟨i, hi, he⟩ := hread e List.mem_cons_self
    exact .again he hi (by omega) (ih fun x hx => hread x (List.mem_cons_of_mem _ hx))

section Window

variable {key : ε → κ}

/-- An entry is in the window of those up to `f` while it is one of the last `n`. -/
theorem key_mem_window {i : Nat} {e : ε} (he : log[i]? = some e) (hbehind : i < f)
    (hnear : f ≤ i + n) : key e ∈ ((log.take f).reverse.map key).take n := by
  have hi : i < (log.take f).length := by
    obtain ⟨hlength, -⟩ := List.getElem?_eq_some_iff.mp he
    rw [List.length_take]
    omega
  have hget : (log.take f)[i]? = some e := by
    rw [List.getElem?_take_of_lt hbehind, he]
  have hrev : (log.take f).reverse[(log.take f).length - 1 - i]? = some e := by
    rw [List.getElem?_reverse (by omega), ← hget]
    congr 1
    omega
  have hlength : (log.take f).length ≤ f := List.length_take_le _ _
  refine List.mem_of_getElem? (i := (log.take f).length - 1 - i) ?_
  rw [List.getElem?_take_of_lt (by omega), List.getElem?_map, hrev]
  rfl

/-- The next entry is new where the keys tell the entries apart. -/
theorem key_not_mem_window (hkeys : (log.map key).Nodup) {e : ε} (he : log[f]? = some e) :
    key e ∉ ((log.take f).reverse.map key).take n := by
  intro hmem
  obtain ⟨x, hx, hkey⟩ := List.mem_map.mp (List.mem_of_mem_take hmem)
  obtain ⟨i, hi, hget⟩ := List.getElem_of_mem (List.mem_reverse.mp hx)
  rw [List.length_take] at hi
  have hxi : log[i]? = some x := by
    rw [← hget, List.getElem_take, List.getElem?_eq_getElem]
  have hsame : (log.map key)[i]? = (log.map key)[f]? := by
    rw [List.getElem?_map, List.getElem?_map, hxi, he]
    exact congrArg some hkey
  have hlength : i < (log.map key).length := by
    rw [List.length_map]
    omega
  have hif := (List.getElem?_inj hlength hkeys).mp hsame
  omega

/-- **The window lets each entry in once.** What a window of `n` has let in, after a reader that
goes back by no more than `n` entries, is what the reader has got to. -/
theorem foldl_accept_reads [DecidableEq κ] (hkeys : (log.map key).Nodup) (h : Reads log n f es f') :
    es.foldl (accept key n) (log.take f).reverse = (log.take f').reverse := by
  induction h with
  | nil => rfl
  | next he _ ih =>
    rw [List.foldl_cons, accept, if_neg (key_not_mem_window hkeys he), ← ih,
      List.take_add_one, he, List.reverse_append]
    rfl
  | again he hbehind hnear _ ih =>
    rw [List.foldl_cons, accept, if_pos (key_mem_window he hbehind hnear), ih]

end Window

end Rereading
