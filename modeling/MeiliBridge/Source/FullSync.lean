import Mathlib.Algebra.Group.Nat.Defs
import Mathlib.Algebra.Ring.Int.Defs
import MeiliBridge.Lib.Paging
import MeiliBridge.Lib.Trans

/-!
# The pages of a full sync beside the commits of other clients

`sync_table` counts the rows and then reads page after page by offset. Every query sees the rows
that are committed when it runs, so a commit between two queries moves the rows behind it. `step`
runs one query of the sync, or one commit.

A row that is there from the start is missed when a commit moves it over an edge of the window that
is still to be read: over the next offset by a deletion before it, over the last position that the
count makes the loop read by an insertion before it. `Meets` is the condition that a commit does
not, and `sync_complete` says that it is exactly what is needed.
-/

set_option autoImplicit false

namespace MeiliBridge

open Paging Trans

namespace FullSyncHandler

variable {ρ : Type} [LinearOrder ρ]

/-- An `i64` that is too large or too small by less than `2 ^ 64`. -/
def wrapI64 (n : Int) : Int :=
  if 2 ^ 63 ≤ n then n - 2 ^ 64 else if n < -2 ^ 63 then n + 2 ^ 64 else n

/-- `n as i64` of a `usize` -/
def asI64 (n : UInt64) : Int := wrapI64 n.toNat

/-- `n + k` of two `i64`. Overflow checks are off in a release build. -/
def addI64 (n k : Int) : Int := wrapI64 (n + k)

/-- What `sync_table` does next. -/
inductive Phase where
  | count
  | pages (totalCount : Nat) (offset : Int)
  /-- it has returned `Ok` after the last page -/
  | done
  /-- it has returned the error of a query -/
  | failed
  /-- it has returned `Ok` because nobody receives the rows any more -/
  | stopped
deriving DecidableEq

structure State (ρ : Type) [LinearOrder ρ] where
  table : Table ρ
  phase : Phase
  /-- the rows sent so far -/
  sent : List ρ
  /-- the rows that have been in the table at every moment since the sync began -/
  kept : List ρ

inductive Label (ρ : Type) where
  /-- another client's commits -/
  | insert (row : ρ)
  | delete (row : ρ)
  /-- the next query of `sync_table`, and the sending of its rows -/
  | query
  | queryFails
  /-- the next page, whose receiver goes away after `n` rows -/
  | receiverDropped (n : Nat)

/-- Nothing is committed. -/
def Label.Quiet : Label ρ → Prop
  | .insert _ | .delete _ => False
  | _ => True

/-- The step asks for a page. -/
def Label.queries : Label ρ → Bool
  | .query => true
  | _ => false

namespace State

/-- The head of the loop: `while offset < total_count`. -/
def loop (totalCount : Nat) (offset : Int) : Phase :=
  if offset < totalCount then .pages totalCount offset else .done

/-- The count is a `bigint`. -/
def afterCount (rows : Nat) : Phase := if rows < 2 ^ 63 then loop rows 0 else .failed

/-- PostgreSQL refuses a negative `LIMIT` or `OFFSET`. -/
def select (s : State ρ) (limit offset : Int) : Option (List ρ) :=
  if limit < 0 ∨ offset < 0 then none else some (s.table.page limit.toNat offset.toNat)

/-- The body of the loop. -/
def nextPage (batchSize : UInt64) (totalCount : Nat) (offset : Int) (s : State ρ) : State ρ :=
  match s.select (asI64 batchSize) offset with
  | none => { s with phase := .failed }
  | some rows =>
    if rows.isEmpty then { s with phase := .done }
    else
      { s with sent := s.sent ++ rows
               phase := loop totalCount (addI64 offset (asI64 batchSize)) }

def step (batchSize : UInt64) (s : State ρ) : Label ρ → Option (State ρ)
  | .insert row =>
    if h : row ∈ s.table.rows then none else some { s with table := s.table.insert row h }
  | .delete row =>
    if row ∈ s.table.rows then
      some { s with table := s.table.delete row, kept := s.kept.filter (· ≠ row) }
    else none
  | .query =>
    match s.phase with
    | .count => some { s with phase := afterCount s.table.rows.length }
    | .pages totalCount offset => some (s.nextPage batchSize totalCount offset)
    | _ => none
  | .queryFails =>
    match s.phase with
    | .count | .pages .. => some { s with phase := .failed }
    | _ => none
  | .receiverDropped n =>
    match s.phase with
    | .pages _ offset =>
      (s.select (asI64 batchSize) offset).map fun rows =>
        { s with sent := s.sent ++ rows.take n, phase := .stopped }
    | _ => none

/-- A sync of the table begins. -/
def begin (table : Table ρ) : State ρ := ⟨table, .count, [], table.rows⟩

end State

/-- A full sync of a table, with what other clients commit meanwhile. -/
def machine (batchSize : UInt64) (table : Table ρ) : Machine (State ρ) (Label ρ) :=
  .ofFn (.begin table) (State.step batchSize)

/-! ## The window that is still to be read -/

/-- Where the pages of a sync end: the count, rounded up to whole pages. -/
def reach (batchSize : UInt64) (totalCount : Nat) : Nat :=
  (totalCount + batchSize.toNat - 1) / batchSize.toNat * batchSize.toNat

section

variable {batchSize : UInt64} {totalCount offset : Nat}

theorem count_le_reach (hb : 1 ≤ batchSize.toNat) : totalCount ≤ reach batchSize totalCount := by
  have hdiv := Nat.div_add_mod (totalCount + batchSize.toNat - 1) batchSize.toNat
  have hmod := Nat.mod_lt (totalCount + batchSize.toNat - 1) hb
  rw [Nat.mul_comm] at hdiv
  unfold reach
  omega

theorem reach_le (hb : 1 ≤ batchSize.toNat) (hdvd : batchSize.toNat ∣ offset)
    (h : totalCount ≤ offset) : reach batchSize totalCount ≤ offset := by
  obtain ⟨k, rfl⟩ := hdvd
  have hk : (totalCount + batchSize.toNat - 1) / batchSize.toNat < k + 1 := by
    rw [Nat.div_lt_iff_lt_mul hb, Nat.succ_mul, Nat.mul_comm k]
    omega
  rw [Nat.mul_comm batchSize.toNat]
  exact Nat.mul_le_mul_right _ (Nat.lt_succ_iff.mp hk)

theorem page_le_reach (hb : 1 ≤ batchSize.toNat) (hdvd : batchSize.toNat ∣ offset)
    (h : offset < totalCount) : offset + batchSize.toNat ≤ reach batchSize totalCount := by
  obtain ⟨k, rfl⟩ := hdvd
  have hk : k + 1 ≤ (totalCount + batchSize.toNat - 1) / batchSize.toNat := by
    rw [Nat.le_div_iff_mul_le hb, Nat.succ_mul, Nat.mul_comm k]
    omega
  calc batchSize.toNat * k + batchSize.toNat = (k + 1) * batchSize.toNat := by
        rw [Nat.succ_mul, Nat.mul_comm k]
    _ ≤ reach batchSize totalCount := Nat.mul_le_mul_right _ hk

end

theorem asI64_cases (n : UInt64) : asI64 n = n.toNat ∧ n.toNat < 2 ^ 63 ∨ asI64 n < 0 := by
  have hlt := n.toNat_lt
  unfold asI64 wrapI64
  split <;> omega

/-- The next offset, or a negative one where the sum does not fit. -/
theorem addI64_cases {n k : Nat} (hn : n < 2 ^ 63) (hk : k < 2 ^ 63) :
    addI64 n k = (n + k : Nat) ∨ addI64 n k < 0 ∧ 2 ^ 63 ≤ n + k := by
  unfold addI64 wrapI64
  split <;> omega

namespace State

variable {batchSize : UInt64} {s s' : State ρ} {l : Label ρ} {r : ρ}

/-- Between two pages. An offset that has wrapped around is negative. -/
structure Between (batchSize : UInt64) (totalCount : Nat) (offset : Int) : Prop where
  small : totalCount < 2 ^ 63
  dvd : ∀ n : Nat, offset = n → batchSize.toNat ∣ n

def Paged (batchSize : UInt64) (s : State ρ) : Prop :=
  ∀ totalCount offset, s.phase = .pages totalCount offset →
    offset < totalCount ∧ Between batchSize totalCount offset

/-- What the next page does. -/
inductive PageStep (batchSize : UInt64) (totalCount : Nat) (offset : Int) (s : State ρ) :
    State ρ → Prop
  | refused : PageStep batchSize totalCount offset s { s with phase := .failed }
  | empty (n : Nat) (hn : offset = n) (hrows : s.table.rows.length ≤ n) :
    PageStep batchSize totalCount offset s { s with phase := .done }
  | page (n : Nat) (next : Int) (hn : offset = n) (hbetween : Between batchSize totalCount next)
      (hnext : next = (n + batchSize.toNat : Nat) ∨ next < 0 ∧ totalCount ≤ n + batchSize.toNat) :
    PageStep batchSize totalCount offset s
      { s with sent := s.sent ++ s.table.page batchSize.toNat n, phase := loop totalCount next }

theorem select_refused {limit offset : Int} (h : limit < 0 ∨ offset < 0) :
    s.select limit offset = none := if_pos h

theorem select_page (s : State ρ) (limit offset : Nat) :
    s.select limit offset = some (s.table.page limit offset) := by
  have hnot : ¬((limit : Int) < 0 ∨ (offset : Int) < 0) := by omega
  exact if_neg hnot

theorem nextPage_none {totalCount : Nat} {offset : Int}
    (h : s.select (asI64 batchSize) offset = none) :
    s.nextPage batchSize totalCount offset = { s with phase := .failed } := by
  rw [nextPage, h]

theorem nextPage_some {totalCount : Nat} {offset : Int} {rows : List ρ}
    (h : s.select (asI64 batchSize) offset = some rows) :
    s.nextPage batchSize totalCount offset =
      if rows.isEmpty then { s with phase := .done }
      else { s with sent := s.sent ++ rows
                    phase := loop totalCount (addI64 offset (asI64 batchSize)) } := by
  rw [nextPage, h]

theorem nextPage_step (hb : 1 ≤ batchSize.toNat) {totalCount : Nat} {offset : Int}
    (hlt : offset < totalCount) (h : Between batchSize totalCount offset) :
    PageStep batchSize totalCount offset s (s.nextPage batchSize totalCount offset) := by
  rcases asI64_cases batchSize with ⟨hsize, hsmall⟩ | hneg
  · by_cases hnegative : offset < 0
    · rw [nextPage_none (select_refused (.inr hnegative))]
      exact .refused
    · obtain ⟨n, rfl⟩ := Int.eq_ofNat_of_zero_le (not_lt.mp hnegative)
      have hn : n < 2 ^ 63 := by
        have hcount := h.small
        omega
      have hselect := select_page s batchSize.toNat n
      rw [← hsize] at hselect
      rw [nextPage_some hselect]
      split
      · next hempty =>
        exact .empty n rfl ((Table.page_eq_nil hb).mp (List.isEmpty_iff.mp hempty))
      · rw [hsize]
        rcases addI64_cases hn hsmall with hsum | ⟨hwrapped, hlarge⟩
        · rw [hsum]
          refine .page n _ rfl ⟨h.small, ?_⟩ (.inl rfl)
          intro m hm
          obtain rfl := Int.ofNat_inj.mp hm
          exact Nat.dvd_add_self_right.mpr (h.dvd n rfl)
        · refine .page n _ rfl ⟨h.small, ?_⟩ (.inr ⟨hwrapped, ?_⟩)
          · intro m hm
            omega
          · have hcount := h.small
            omega
  · rw [nextPage_none (select_refused (.inl hneg))]
    exact .refused

theorem loop_pages {totalCount n : Nat} {offset o : Int} (h : loop totalCount offset = .pages n o) :
    n = totalCount ∧ o = offset ∧ offset < totalCount := by
  unfold loop at h
  split at h
  · next hlt =>
    obtain ⟨rfl, rfl⟩ := Phase.pages.inj h
    exact ⟨rfl, rfl, hlt⟩
  · cases h

theorem begin_paged (table : Table ρ) : (begin table).Paged batchSize := by
  intro totalCount offset h
  cases h

/-- What one step does. -/
inductive Change (batchSize : UInt64) (s : State ρ) : Label ρ → State ρ → Prop
  | insert (row : ρ) (h : row ∉ s.table.rows) :
    Change batchSize s (.insert row) { s with table := s.table.insert row h }
  | delete (row : ρ) (h : row ∈ s.table.rows) :
    Change batchSize s (.delete row)
      { s with table := s.table.delete row, kept := s.kept.filter (· ≠ row) }
  | count (h : s.phase = .count) :
    Change batchSize s .query { s with phase := afterCount s.table.rows.length }
  | page (totalCount : Nat) (offset : Int) (h : s.phase = .pages totalCount offset) :
    Change batchSize s .query (s.nextPage batchSize totalCount offset)
  | queryFails : Change batchSize s .queryFails { s with phase := .failed }
  | receiverDropped (n totalCount : Nat) (offset : Int) (rows : List ρ)
      (h : s.phase = .pages totalCount offset)
        (hrows : s.select (asI64 batchSize) offset = some rows) :
    Change batchSize s (.receiverDropped n)
      { s with sent := s.sent ++ rows.take n, phase := .stopped }

theorem step_change (hs : s.step batchSize l = some s') : Change batchSize s l s' := by
  cases l with
  | insert row =>
    by_cases h : row ∈ s.table.rows
    · cases (dif_pos h).symm.trans hs
    · cases (dif_neg h).symm.trans hs
      exact .insert row h
  | delete row =>
    by_cases h : row ∈ s.table.rows
    · cases (if_pos h).symm.trans hs
      exact .delete row h
    · cases (if_neg h).symm.trans hs
  -- a query needs the phase it belongs to; the commits of others do not
  | query =>
    cases h : s.phase with
    | count =>
      simp only [step, h] at hs
      cases hs
      exact .count h
    | pages totalCount offset =>
      simp only [step, h] at hs
      cases hs
      exact .page totalCount offset h
    | _ =>
      simp only [step, h] at hs
      cases hs
  | queryFails =>
    cases h : s.phase with
    | count | pages =>
      simp only [step, h] at hs
      cases hs
      exact .queryFails
    | _ =>
      simp only [step, h] at hs
      cases hs
  | receiverDropped n =>
    cases h : s.phase with
    | pages totalCount offset =>
      simp only [step, h, Option.map_eq_some_iff] at hs
      obtain ⟨rows, hrows, rfl⟩ := hs
      exact .receiverDropped n totalCount offset rows h hrows
    | _ =>
      simp only [step, h] at hs
      cases hs

theorem Paged.step (hb : 1 ≤ batchSize.toNat) (h : s.Paged batchSize)
    (hs : s.step batchSize l = some s') : s'.Paged batchSize := by
  cases step_change hs with
  | insert | delete => exact h
  | count hphase =>
    intro totalCount offset hcount
    simp only [afterCount] at hcount
    split at hcount
    · next hsmall =>
      obtain ⟨rfl, rfl, hlt⟩ := loop_pages hcount
      refine ⟨hlt, hsmall, ?_⟩
      intro n hn
      obtain rfl : n = 0 := by omega
      exact Nat.dvd_zero _
    · cases hcount
  | page totalCount offset hphase =>
    obtain ⟨hlt, hbetween⟩ := h totalCount offset hphase
    have hpage := nextPage_step (s := s) hb hlt hbetween
    generalize s.nextPage batchSize totalCount offset = t at hpage ⊢
    cases hpage with
    | refused | empty =>
      intro totalCount offset hphase
      cases hphase
    | page n next hn hbetween hnext =>
      intro total o hloop
      obtain ⟨rfl, rfl, hlt⟩ := loop_pages hloop
      exact ⟨hlt, hbetween⟩
  | queryFails | receiverDropped =>
    intro totalCount offset hphase
    cases hphase

/-! ### The sync comes to an end -/

/-- A bound on the pages that are still to be read. -/
def left (s : State ρ) : Nat :=
  match s.phase with
  | .pages totalCount offset => if offset < 0 then 1 else (totalCount - offset).toNat + 1
  | _ => 0

theorem left_loop {table : Table ρ} {sent kept : List ρ} {totalCount : Nat} {offset : Int} :
    left (⟨table, loop totalCount offset, sent, kept⟩ : State ρ) ≤
      if offset < 0 then 1
      else if offset < totalCount then (totalCount - offset).toNat + 1 else 0 := by
  unfold loop
  split
  · next hlt => exact le_of_eq (if_congr Iff.rfl rfl rfl)
  · exact Nat.zero_le _

/-- Every page brings the end of the sync nearer, whatever is committed meanwhile. -/
theorem left_lt (hb : 1 ≤ batchSize.toNat) (h : s.Paged batchSize) {totalCount : Nat} {offset : Int}
    (hphase : s.phase = .pages totalCount offset) (hs : s.step batchSize .query = some s') :
    s'.left < s.left := by
  obtain ⟨hlt, hbetween⟩ := h totalCount offset hphase
  have hpage := nextPage_step (s := s) hb hlt hbetween
  have hleft : s.left = if offset < 0 then 1 else (totalCount - offset).toNat + 1 := by
    rw [left, hphase]
  have hpos : 0 < s.left := by
    rw [hleft]
    split <;> omega
  cases step_change hs with
  | count hcount => cases hphase.symm.trans hcount
  | page n o hphase' =>
    obtain ⟨rfl, rfl⟩ := Phase.pages.inj (hphase.symm.trans hphase')
    generalize s.nextPage batchSize totalCount offset = t at hpage ⊢
    cases hpage with
    | refused | empty => exact hpos
    | page n next hn hnextBetween hnext =>
      refine left_loop.trans_lt ?_
      rw [hleft]
      split <;> split <;> (try split) <;> omega

theorem left_commit (hcommit : ¬ l.Quiet) (hs : s.step batchSize l = some s') :
    s'.left = s.left := by
  cases step_change hs with
  | insert | delete => rfl
  | _ => exact absurd trivial hcommit

theorem loop_ne_count (totalCount : Nat) (offset : Int) : loop totalCount offset ≠ .count := by
  unfold loop
  split <;> nofun

/-- The rows are counted once. -/
theorem phase_ne_count (hb : 1 ≤ batchSize.toNat) (h : s.Paged batchSize)
    (hcount : s.phase ≠ .count)
    (hs : s.step batchSize l = some s') : s'.phase ≠ .count := by
  cases step_change hs with
  | insert | delete => exact hcount
  | count hphase => exact absurd hphase hcount
  | page totalCount offset hphase =>
    obtain ⟨hlt, hbetween⟩ := h totalCount offset hphase
    have hpage := nextPage_step (s := s) hb hlt hbetween
    generalize s.nextPage batchSize totalCount offset = t at hpage ⊢
    cases hpage with
    | refused | empty => nofun
    | page => exact loop_ne_count _ _
  | queryFails | receiverDropped => nofun

/-- One step of the sync, and the pages that it leaves. -/
theorem left_step (hb : 1 ≤ batchSize.toNat) (h : s.Paged batchSize) (hcount : s.phase ≠ .count)
    (hs : s.step batchSize l = some s') : l.queries.toNat + s'.left ≤ s.left := by
  cases l with
  | insert | delete =>
    rw [left_commit id hs]
    exact Nat.le_of_eq (Nat.zero_add _)
  | query =>
    have hpages : ∃ totalCount offset, s.phase = .pages totalCount offset := by
      cases step_change hs with
      | count hphase => exact absurd hphase hcount
      | page totalCount offset hphase => exact ⟨totalCount, offset, hphase⟩
    obtain ⟨totalCount, offset, hphase⟩ := hpages
    have hlt := left_lt hb h hphase hs
    show 1 + s'.left ≤ s.left
    omega
  | queryFails | receiverDropped =>
    cases step_change hs
    exact Nat.zero_le _

/-- **The sync comes to an end.** From its first page on it makes no more queries than its bound,
whatever is committed between them. -/
theorem queries_le (hb : 1 ≤ batchSize.toNat) {labels : List (Label ρ)} (h : s.Paged batchSize)
    (hcount : s.phase ≠ .count) (hruns : labels.foldlM (State.step batchSize) s = some s') :
    labels.countP Label.queries + s'.left ≤ s.left := by
  induction labels generalizing s with
  | nil =>
    obtain rfl := Option.some.inj hruns
    exact Nat.le_of_eq (Nat.zero_add _)
  | cons l labels ih =>
    obtain ⟨t, hs, hrest⟩ := Option.bind_eq_some_iff.mp hruns
    have hfirst := left_step hb h hcount hs
    have hlater := ih (h.step hb hs) (phase_ne_count hb h hcount hs) hrest
    have hcons : (l :: labels).countP Label.queries =
        labels.countP Label.queries + l.queries.toNat := by
      rw [List.countP_cons]
      cases l <;> rfl
    omega

/-! ## What commits may do -/

/-- A commit that moves no row of the start out of the window that is still to be read, unless it
has been sent. -/
def Meets (batchSize : UInt64) (s : State ρ) : Label ρ → Prop
  | .insert row =>
    match s.phase with
    | .pages totalCount _ => ∀ r ∈ s.kept, r ∉ s.sent → row < r →
      s.table.rank r + 1 < reach batchSize totalCount
    | _ => True
  | .delete row =>
    match s.phase with
    | .pages _ offset => ∀ r ∈ s.kept, r ∉ s.sent → row < r → offset < s.table.rank r
    | _ => True
  | _ => True

instance (s : State ρ) (l : Label ρ) : Decidable (s.Meets batchSize l) := by
  unfold Meets
  split <;> first | infer_instance | (split <;> infer_instance)

/-- The rows of the start that are still to be sent stand in the window. -/
structure Inv (batchSize : UInt64) (s : State ρ) : Prop where
  present : ∀ r ∈ s.kept, r ∈ s.table.rows
  window : ∀ totalCount offset, s.phase = .pages totalCount offset → ∀ r ∈ s.kept, r ∉ s.sent →
    0 ≤ offset ∧ offset ≤ s.table.rank r ∧ s.table.rank r < reach batchSize totalCount
  done : s.phase = .done → ∀ r ∈ s.kept, r ∈ s.sent

theorem begin_inv (table : Table ρ) : (begin table).Inv batchSize where
  present r h := h
  window totalCount offset h := by cases h
  done h := by cases h

theorem inv_returned {table : Table ρ} {sent kept : List ρ} {phase : Phase}
    (hphase : phase = .failed ∨ phase = .stopped) (hpresent : ∀ r ∈ kept, r ∈ table.rows) :
    Inv batchSize (⟨table, phase, sent, kept⟩ : State ρ) where
  present := hpresent
  window totalCount offset h := by
    obtain rfl : phase = .pages totalCount offset := h
    simp at hphase
  done h := by
    obtain rfl : phase = .done := h
    simp at hphase

theorem inv_done {table : Table ρ} {sent kept : List ρ} (hpresent : ∀ r ∈ kept, r ∈ table.rows)
    (hsent : ∀ r ∈ kept, r ∈ sent) : Inv batchSize (⟨table, .done, sent, kept⟩ : State ρ) where
  present := hpresent
  window totalCount offset h := by cases h
  done _ := hsent

/-- The head of the loop keeps the window, or finds it empty. -/
theorem inv_loop (hb : 1 ≤ batchSize.toNat) {table : Table ρ} {sent kept : List ρ}
    {totalCount : Nat} {offset : Int} (hbetween : Between batchSize totalCount offset)
    (hpresent : ∀ r ∈ kept, r ∈ table.rows)
    (hwindow : ∀ r ∈ kept, r ∉ sent →
      0 ≤ offset ∧ offset ≤ table.rank r ∧ table.rank r < reach batchSize totalCount) :
    Inv batchSize (⟨table, loop totalCount offset, sent, kept⟩ : State ρ) where
  present := hpresent
  window n o hloop := by
    obtain ⟨rfl, rfl, -⟩ := loop_pages hloop
    exact hwindow
  done hloop r hr := by
    by_contra hsent
    obtain ⟨hnonneg, hoffset, hreach⟩ := hwindow r hr hsent
    obtain ⟨n, rfl⟩ := Int.eq_ofNat_of_zero_le hnonneg
    have hcount : totalCount ≤ n := by
      by_contra hlt
      simp only [loop, if_pos (show (n : Int) < totalCount by omega)] at hloop
      cases hloop
    have hend := reach_le hb (hbetween.dvd n rfl) hcount
    omega

theorem Inv.step (hb : 1 ≤ batchSize.toNat) (hpaged : s.Paged batchSize) (h : s.Inv batchSize)
    (hmeets : s.Meets batchSize l) (hs : s.step batchSize l = some s') : s'.Inv batchSize := by
  cases step_change hs with
  | insert row hrow =>
    refine ⟨fun r hr => (Table.mem_insert hrow).mpr (.inr (h.present r hr)), ?_, h.done⟩
    intro totalCount offset hphase r hr hsent
    obtain ⟨hnonneg, hoffset, hreach⟩ := h.window totalCount offset hphase r hr hsent
    show 0 ≤ offset ∧ offset ≤ ((s.table.insert row hrow).rank r : Nat) ∧
      (s.table.insert row hrow).rank r < _
    simp only [Meets, show s.phase = _ from hphase] at hmeets
    rw [Table.rank_insert]
    split
    · next hlt =>
      have hmoved := hmeets r hr hsent hlt
      omega
    · omega
  | delete row hrow =>
    have hkept : ∀ r ∈ s.kept.filter (· ≠ row), r ≠ row ∧ r ∈ s.kept := by
      intro r hr
      have hboth := List.mem_filter.mp hr
      exact ⟨of_decide_eq_true hboth.2, hboth.1⟩
    refine ⟨?_, ?_, ?_⟩
    · intro r hr
      exact Table.mem_delete.mpr ⟨(hkept r hr).1, h.present r (hkept r hr).2⟩
    · intro totalCount offset hphase r hr hsent
      obtain ⟨hnonneg, hoffset, hreach⟩ :=
        h.window totalCount offset hphase r (hkept r hr).2 hsent
      show 0 ≤ offset ∧ offset ≤ ((s.table.delete row).rank r : Nat) ∧
        (s.table.delete row).rank r < _
      simp only [Meets, show s.phase = _ from hphase] at hmeets
      have hrank := Table.rank_delete hrow r
      split at hrank
      · next hlt =>
        have hmoved := hmeets r (hkept r hr).2 hsent hlt
        omega
      · omega
    · intro hdone r hr
      exact h.done hdone r (hkept r hr).2
  | count hphase =>
    show Inv batchSize ⟨s.table, afterCount s.table.rows.length, s.sent, s.kept⟩
    unfold afterCount
    split
    · next hsmall =>
      have hbetween : Between batchSize s.table.rows.length 0 := by
        refine ⟨hsmall, ?_⟩
        intro n hn
        obtain rfl : n = 0 := by omega
        exact Nat.dvd_zero _
      refine inv_loop hb hbetween h.present ?_
      intro r hr hsent
      have hrank := Table.rank_lt (h.present r hr)
      have hend : s.table.rows.length ≤ reach batchSize _ := count_le_reach hb
      omega
    · exact inv_returned (.inl rfl) h.present
  | page totalCount offset hphase =>
    obtain ⟨hlt, hbetween⟩ := hpaged totalCount offset hphase
    have hwindow := h.window totalCount offset hphase
    have hpage := nextPage_step (s := s) hb hlt hbetween
    generalize s.nextPage batchSize totalCount offset = t at hpage ⊢
    cases hpage with
    | refused => exact inv_returned (.inl rfl) h.present
    | empty n hn hrows =>
      refine inv_done h.present ?_
      intro r hr
      by_contra hsent
      have hrank := Table.rank_lt (h.present r hr)
      have hunread := hwindow r hr hsent
      omega
    | page n next hn hnextBetween hnext =>
      refine inv_loop hb hnextBetween h.present ?_
      intro r hr hsent
      rw [List.mem_append, not_or] at hsent
      obtain ⟨-, hoffset, hreach⟩ := hwindow r hr hsent.1
      -- the row is in the window but not on the page, so it stands behind the page
      have hbehind : n + batchSize.toNat ≤ s.table.rank r := by
        by_contra hon
        exact hsent.2 (Table.mem_page.mpr ⟨h.present r hr, by omega, by omega⟩)
      rcases hnext with hsum | ⟨hwrapped, hcount⟩
      · omega
      · have hend := reach_le hb (Nat.dvd_add_self_right.mpr (hbetween.dvd n hn)) hcount
        omega
  | queryFails => exact inv_returned (.inl rfl) h.present
  | receiverDropped => exact inv_returned (.inr rfl) h.present

theorem reachable_inv (hb : 1 ≤ batchSize.toNat) {table : Table ρ}
    (h : ((machine batchSize table).restrict (Meets batchSize)).Reachable s) :
    s.Paged batchSize ∧ s.Inv batchSize := by
  refine h.invariant (I := fun s => s.Paged batchSize ∧ s.Inv batchSize) ?_ ?_
  · intro s hs
    exact hs ▸ ⟨begin_paged table, begin_inv table⟩
  · intro s l s' hinv hs
    exact ⟨hinv.1.step hb hs.2, hinv.2.step hb hinv.1 hs.1 hs.2⟩

/-! ## Rows that have been missed -/

/-- The positions of the window. A negative offset is refused. -/
def InWindow (batchSize : UInt64) (s : State ρ) (r : ρ) : Prop :=
  match s.phase with
  | .count => True
  | .pages totalCount offset =>
    0 ≤ offset ∧ offset ≤ s.table.rank r ∧ s.table.rank r < reach batchSize totalCount
  | _ => False

/-- The row has not been sent, and no page that is still to be read has it. -/
def Missed (batchSize : UInt64) (s : State ρ) (r : ρ) : Prop :=
  r ∉ s.sent ∧ ¬ s.InWindow batchSize r

theorem missed_loop {table : Table ρ} {sent kept : List ρ} {totalCount : Nat} {offset : Int}
    (hsent : r ∉ sent)
    (h : ¬(0 ≤ offset ∧ offset ≤ table.rank r ∧ table.rank r < reach batchSize totalCount)) :
    Missed batchSize (⟨table, loop totalCount offset, sent, kept⟩ : State ρ) r := by
  refine ⟨hsent, ?_⟩
  unfold loop
  split
  · exact h
  · exact not_false

theorem not_mem_page {totalCount : Nat} {offset : Int} (hb : 1 ≤ batchSize.toNat)
    (hpaged : s.Paged batchSize) (h : s.Missed batchSize r)
    (hphase : s.phase = .pages totalCount offset) {n : Nat} (hn : offset = n) :
    r ∉ s.table.page batchSize.toNat n := by
  intro hmem
  obtain ⟨-, hfrom, hto⟩ := Table.mem_page.mp hmem
  obtain ⟨hlt, hbetween⟩ := hpaged totalCount offset hphase
  have hend : n + _ ≤ reach batchSize totalCount :=
    page_le_reach hb (hbetween.dvd n hn) (by omega)
  refine h.2 ?_
  simp only [InWindow, hphase]
  omega

theorem Missed.step (hb : 1 ≤ batchSize.toNat) (hpaged : s.Paged batchSize)
    (h : s.Missed batchSize r) (hquiet : l.Quiet) (hs : s.step batchSize l = some s') :
    s'.Missed batchSize r ∧ s'.kept = s.kept := by
  cases step_change hs with
  | insert | delete => cases hquiet
  | count hphase =>
    refine absurd ?_ h.2
    simp only [InWindow, hphase]
  | page totalCount offset hphase =>
    obtain ⟨hlt, hbetween⟩ := hpaged totalCount offset hphase
    have hpage := nextPage_step (s := s) hb hlt hbetween
    generalize s.nextPage batchSize totalCount offset = t at hpage ⊢
    cases hpage with
    | refused | empty => exact ⟨⟨h.1, not_false⟩, rfl⟩
    | page n next hn hnextBetween hnext =>
      refine ⟨missed_loop ?_ ?_, rfl⟩
      · rw [List.mem_append, not_or]
        exact ⟨h.1, not_mem_page hb hpaged h hphase hn⟩
      · have hout := h.2
        simp only [InWindow, hphase] at hout
        omega
  | queryFails => exact ⟨⟨h.1, not_false⟩, rfl⟩
  -- the rows sent before the receiver went away are those of the page
  | receiverDropped n totalCount offset rows hphase hrows =>
    refine ⟨⟨?_, not_false⟩, rfl⟩
    rw [List.mem_append, not_or]
    refine ⟨h.1, ?_⟩
    intro hmem
    rcases asI64_cases batchSize with ⟨hsize, -⟩ | hneg
    · by_cases hnegative : offset < 0
      · cases (select_refused (.inr hnegative)).symm.trans hrows
      · obtain ⟨m, rfl⟩ := Int.eq_ofNat_of_zero_le (not_lt.mp hnegative)
        rw [hsize] at hrows
        cases (select_page s _ m).symm.trans hrows
        exact not_mem_page hb hpaged h hphase rfl (List.mem_of_mem_take hmem)
    · cases (select_refused (.inl hneg)).symm.trans hrows

/-- A missed row stays missed while nothing is committed. -/
theorem Missed.run (hb : 1 ≤ batchSize.toNat) {ls : List (Label ρ)} (hpaged : s.Paged batchSize)
    (h : s.Missed batchSize r) (hquiet : ∀ l ∈ ls, l.Quiet)
    (hs : Machine.runFn (State.step batchSize) s ls = some s') :
    s'.Missed batchSize r ∧ s'.kept = s.kept := by
  induction ls generalizing s with
  | nil =>
    obtain rfl := Option.some.inj hs
    exact ⟨h, rfl⟩
  | cons l ls ih =>
    obtain ⟨t, ht, hrest⟩ := Option.bind_eq_some_iff.mp hs
    obtain ⟨hmissed, hkept⟩ := h.step hb hpaged (hquiet l List.mem_cons_self) ht
    obtain ⟨hlast, hkeptLast⟩ :=
      ih (hpaged.step hb ht) hmissed (fun l hl => hquiet l (List.mem_cons_of_mem _ hl)) hrest
    exact ⟨hlast, hkeptLast.trans hkept⟩

/-- A commit that does not meet the condition moves a row out of the window. -/
theorem missed_of_not_meets (h : ¬ s.Meets batchSize l) (hs : s.step batchSize l = some s') :
    ∃ r ∈ s'.kept, s'.Missed batchSize r := by
  cases step_change hs with
  | insert row hrow =>
    cases hphase : s.phase with
    | pages totalCount offset =>
      simp only [Meets, hphase, not_forall, not_lt, exists_prop] at h
      obtain ⟨r, hr, hsent, hlt, hend⟩ := h
      have hrank := Table.rank_insert hrow r
      rw [if_pos hlt] at hrank
      refine ⟨r, hr, hsent, ?_⟩
      simp only [InWindow, hrank]
      omega
    | _ => simp [Meets, hphase] at h
  | delete row hrow =>
    cases hphase : s.phase with
    | pages totalCount offset =>
      simp only [Meets, hphase, not_forall, not_lt, exists_prop] at h
      obtain ⟨r, hr, hsent, hlt, hend⟩ := h
      have hrank := Table.rank_delete hrow r
      rw [if_pos hlt] at hrank
      refine ⟨r, List.mem_filter.mpr ⟨hr, decide_eq_true hlt.ne'⟩, hsent, ?_⟩
      simp only [InWindow]
      omega
    | _ => simp [Meets, hphase] at h
  | _ => simp [Meets] at h

/-- In every run whose commits move no row of the start out of the window unsent, each row that has
been there from the start to the end is sent. After any other commit a row of the start is left out
unless something else is committed. -/
theorem sync_complete (batchSize : UInt64) (hb : 1 ≤ batchSize.toNat) (table : Table ρ)
    (s : State ρ) (h : ((machine batchSize table).restrict (Meets batchSize)).Reachable s) :
    (s.phase = .done → ∀ r ∈ s.kept, r ∈ s.sent) ∧
      ∀ l s', s.step batchSize l = some s' → ¬ s.Meets batchSize l →
        ∃ r ∈ s'.kept, ∀ ls s'', (∀ l ∈ ls, l.Quiet) →
          Machine.runFn (State.step batchSize) s' ls = some s'' → r ∈ s''.kept ∧ r ∉ s''.sent := by
  obtain ⟨hpaged, hinv⟩ := reachable_inv hb h
  refine ⟨hinv.done, ?_⟩
  intro l s' hs hnot
  obtain ⟨r, hr, hmissed⟩ := missed_of_not_meets hnot hs
  refine ⟨r, hr, ?_⟩
  intro ls s'' hquiet hrun
  obtain ⟨hlast, hkept⟩ := hmissed.run hb (hpaged.step hb hs) hquiet hrun
  exact ⟨hkept ▸ hr, hlast.1⟩

/-! ## A row that is missed -/

/-- A table of two rows. -/
def twoRows : Table Nat := ⟨[1, 2], by decide⟩

/-- The first row is deleted once it has been sent. -/
def deletedRun : List (Label Nat) := [.query, .query, .delete 1, .query]

theorem row_not_sent :
    ¬ ∀ (batchSize : UInt64) (table : Table Nat) (s : State Nat), 1 ≤ batchSize.toNat →
      (machine batchSize table).Reachable s → s.phase = .done → ∀ r ∈ s.kept, r ∈ s.sent := by
  intro hall
  have hrun : Machine.runFn (State.step 1) (begin twoRows) deletedRun =
    some ⟨twoRows.delete 1, .done, [1], [2]⟩ := by rfl
  have hr := Machine.reachable_of_runFn (.init rfl) hrun
  have hsent := hall 1 twoRows _ (by decide) hr rfl 2 (by decide)
  simp at hsent

/-- The condition and the rule at work on a sync beside which a row is appended. -/
theorem sync_complete_appended :
    ∃ s : State Nat, ((machine 1 twoRows).restrict (Meets 1)).Reachable s ∧ s.phase = .done ∧
      s.kept = [1, 2] ∧ ∀ r ∈ s.kept, r ∈ s.sent := by
  have h₀ : ((machine 1 twoRows).restrict (Meets 1)).Reachable (begin twoRows) := .init rfl
  have h₁ := h₀.restrict_step .query trivial rfl
  have h₂ := h₁.restrict_step .query trivial rfl
  have h₃ := h₂.restrict_step (.insert 3) (by decide) rfl
  have h₄ := h₃.restrict_step .query trivial rfl
  exact ⟨_, h₄, rfl, rfl, (sync_complete 1 (by decide) twoRows _ h₄).1 rfl⟩

end State

end FullSyncHandler

end MeiliBridge
