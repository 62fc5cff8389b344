import Mathlib.Algebra.BigOperators.Group.Multiset.Basic
import Mathlib.Algebra.Order.BigOperators.Group.Multiset
import Mathlib.Algebra.Order.Group.Nat

/-!
# Reservations against a limit

A counter of 64 bits that many clients share. A call adds its size to the counter, checks the new
total against a limit, and then either takes the size back or keeps it until it is released; other
calls may come between any two of these steps. The counter always is, in arithmetic modulo 2^64,
what the calls in progress and the reservations add up to (`Balanced`). As long as no addition
wraps, it is the sum itself, and what has been granted fits the limit (`Within`).
-/

set_option autoImplicit false

namespace Reservation

/-- How far a call has come after its addition -/
inductive Phase where
  | added (newTotal : UInt64)
  | rejected
  | accepted
  deriving DecidableEq

structure Call where
  size : UInt64
  phase : Phase
  deriving DecidableEq

structure Pool where
  current : UInt64
  calls : Multiset Call
  live : Multiset UInt64

/-- Take one element out. -/
def takeOut {α : Type} [DecidableEq α] (a : α) (s : Multiset α) : Option (Multiset α) :=
  if a ∈ s then some (s.erase a) else none

theorem takeOut_eq_some {α : Type} [DecidableEq α] {a : α} {s rest : Multiset α} :
    takeOut a s = some rest ↔ s = a ::ₘ rest := by
  rw [takeOut]
  constructor
  · intro h
    split at h
    · next hmem =>
      obtain rfl := Option.some.inj h
      exact (Multiset.cons_erase hmem).symm
    · cases h
  · rintro rfl
    rw [if_pos (Multiset.mem_cons_self a rest), Multiset.erase_cons_head]

theorem map_takeOut_eq_some {α β : Type} [DecidableEq α] {a : α} {s : Multiset α}
    {f : Multiset α → β} {b : β} :
    (takeOut a s).map f = some b ↔ ∃ rest, s = a ::ₘ rest ∧ b = f rest := by
  rw [Option.map_eq_some_iff]
  constructor
  · rintro ⟨rest, htake, rfl⟩
    exact ⟨rest, takeOut_eq_some.mp htake, rfl⟩
  · rintro ⟨rest, hs, rfl⟩
    exact ⟨rest, takeOut_eq_some.mpr hs, rfl⟩

namespace Pool

def empty : Pool := ⟨0, 0, 0⟩

/-- The first step of a call -/
def add (size : UInt64) (p : Pool) : Pool :=
  { p with
    current := p.current + size
    calls := ⟨size, .added (p.current + size)⟩ ::ₘ p.calls }

/-- A call compares the total that it has seen with the limit. -/
def check (limit size newTotal : UInt64) (p : Pool) : Option Pool :=
  (takeOut ⟨size, .added newTotal⟩ p.calls).map fun rest =>
    { p with calls := ⟨size, if limit < newTotal then .rejected else .accepted⟩ ::ₘ rest }

/-- A call over the limit takes its size back, and ends. -/
def rollBack (size : UInt64) (p : Pool) : Option Pool :=
  (takeOut ⟨size, .rejected⟩ p.calls).map fun rest =>
    { p with current := p.current - size, calls := rest }

/-- A call within the limit ends with a reservation. -/
def grant (size : UInt64) (p : Pool) : Option Pool :=
  (takeOut ⟨size, .accepted⟩ p.calls).map fun rest =>
    { p with calls := rest, live := size ::ₘ p.live }

def release (size : UInt64) (p : Pool) : Option Pool :=
  (takeOut size p.live).map fun rest => { p with current := p.current - size, live := rest }

/-! ## What the steps do -/

variable {p p' : Pool} {limit size newTotal : UInt64}

theorem check_eq_some : p.check limit size newTotal = some p' ↔
    ∃ rest, p.calls = ⟨size, .added newTotal⟩ ::ₘ rest ∧
      p' = { p with
        calls := ⟨size, if limit < newTotal then .rejected else .accepted⟩ ::ₘ rest } :=
  map_takeOut_eq_some

theorem rollBack_eq_some : p.rollBack size = some p' ↔
    ∃ rest, p.calls = ⟨size, .rejected⟩ ::ₘ rest ∧
      p' = { p with current := p.current - size, calls := rest } :=
  map_takeOut_eq_some

theorem grant_eq_some : p.grant size = some p' ↔
    ∃ rest, p.calls = ⟨size, .accepted⟩ ::ₘ rest ∧
      p' = { p with calls := rest, live := size ::ₘ p.live } :=
  map_takeOut_eq_some

theorem release_eq_some : p.release size = some p' ↔
    ∃ rest, p.live = size ::ₘ rest ∧ p' = { p with current := p.current - size, live := rest } :=
  map_takeOut_eq_some

/-- A step that adds nothing -/
inductive Settles (limit : UInt64) (p p' : Pool) : Prop
  | check (size newTotal : UInt64) (h : p.check limit size newTotal = some p')
  | rollBack (size : UInt64) (h : p.rollBack size = some p')
  | grant (size : UInt64) (h : p.grant size = some p')
  | release (size : UInt64) (h : p.release size = some p')

/-! ## Sums -/

/-- The sum of a measure -/
def sumOf {α : Type} (f : α → Nat) (s : Multiset α) : Nat := (s.map f).sum

theorem sumOf_cons {α : Type} (f : α → Nat) (a : α) (s : Multiset α) :
    sumOf f (a ::ₘ s) = f a + sumOf f s := by
  rw [sumOf, Multiset.map_cons, Multiset.sum_cons]
  rfl

/-- What is reserved -/
def reserved (p : Pool) : Nat := sumOf UInt64.toNat p.live

/-- What the calls in progress have added -/
def inProgress (p : Pool) : Nat := sumOf (fun c => c.size.toNat) p.calls

def total (p : Pool) : Nat := p.reserved + p.inProgress

/-- What a call in progress will reserve -/
def claim (limit : UInt64) (c : Call) : Nat :=
  match c.phase with
  | .added newTotal => if limit < newTotal then 0 else c.size.toNat
  | .rejected => 0
  | .accepted => c.size.toNat

def claims (limit : UInt64) (p : Pool) : Nat := sumOf (claim limit) p.calls

theorem claim_le (limit : UInt64) (c : Call) : claim limit c ≤ c.size.toNat := by
  rw [claim]
  split
  · split
    · exact Nat.zero_le _
    · exact Nat.le_refl _
  · exact Nat.zero_le _
  · exact Nat.le_refl _

theorem claims_le (limit : UInt64) (p : Pool) : p.claims limit ≤ p.inProgress :=
  Multiset.sum_map_le_sum_map _ _ fun c _ => claim_le limit c

/-! ## The balance -/

/-- The counter is the total, modulo 2^64. -/
def Balanced (p : Pool) : Prop := p.current.toNat = p.total % 2 ^ 64

theorem balanced_empty : empty.Balanced := rfl

theorem total_add : (p.add size).total = p.total + size.toNat := by
  simp only [total, reserved, inProgress, add, sumOf_cons]
  omega

theorem total_check (h : p.check limit size newTotal = some p') : p'.total = p.total := by
  obtain ⟨rest, hcalls, rfl⟩ := check_eq_some.mp h
  simp only [total, reserved, inProgress, hcalls, sumOf_cons]

theorem total_rollBack (h : p.rollBack size = some p') : p.total = p'.total + size.toNat := by
  obtain ⟨rest, hcalls, rfl⟩ := rollBack_eq_some.mp h
  simp only [total, reserved, inProgress, hcalls, sumOf_cons]
  omega

theorem total_grant (h : p.grant size = some p') : p'.total = p.total := by
  obtain ⟨rest, hcalls, rfl⟩ := grant_eq_some.mp h
  simp only [total, reserved, inProgress, hcalls, sumOf_cons]
  omega

theorem total_release (h : p.release size = some p') : p.total = p'.total + size.toNat := by
  obtain ⟨rest, hlive, rfl⟩ := release_eq_some.mp h
  simp only [total, reserved, inProgress, hlive, sumOf_cons]
  omega

theorem Balanced.add (h : p.Balanced) : (p.add size).Balanced := by
  rw [Balanced, total_add, Pool.add, UInt64.toNat_add, h]
  exact Nat.mod_add_mod _ _ _

/-- To take a size back undoes its addition. -/
theorem Balanced.sub (h : p.Balanced) (htotal : p.total = p'.total + size.toNat)
    (hcurrent : p'.current = p.current - size) : p'.Balanced := by
  have hsize := size.toNat_lt
  rw [Balanced] at h
  rw [Balanced, hcurrent, UInt64.toNat_sub, h, htotal]
  omega

theorem Balanced.settles (h : p.Balanced) (hs : Settles limit p p') : p'.Balanced := by
  cases hs with
  | check size newTotal hcheck =>
    have htotal := total_check hcheck
    obtain ⟨rest, -, rfl⟩ := check_eq_some.mp hcheck
    rw [Balanced, htotal]
    exact h
  | rollBack size hback =>
    have htotal := total_rollBack hback
    obtain ⟨rest, -, rfl⟩ := rollBack_eq_some.mp hback
    exact h.sub htotal rfl
  | grant size hgrant =>
    have htotal := total_grant hgrant
    obtain ⟨rest, -, rfl⟩ := grant_eq_some.mp hgrant
    rw [Balanced, htotal]
    exact h
  | release size hrelease =>
    have htotal := total_release hrelease
    obtain ⟨rest, -, rfl⟩ := release_eq_some.mp hrelease
    exact h.sub htotal rfl

/-! ## The limit -/

/-- What is reserved or going to be fits the limit. -/
def Within (limit : UInt64) (p : Pool) : Prop := p.reserved + p.claims limit ≤ limit.toNat

/-- The counter as it stands, as long as nothing has wrapped -/
theorem Balanced.current_eq (h : p.Balanced) (hsmall : p.total < 2 ^ 64) :
    p.current.toNat = p.total := by
  rw [h, Nat.mod_eq_of_lt hsmall]

/-- An addition that does not wrap sees the total of all, and so more than is reserved. -/
theorem Within.add (h : p.Within limit) (hcurrent : p.current.toNat = p.total)
    (hsmall : p.current.toNat + size.toNat < 2 ^ 64) : (p.add size).Within limit := by
  have hclaims := p.claims_le limit
  have hnew : (p.current + size).toNat = p.total + size.toNat := by
    rw [UInt64.toNat_add, Nat.mod_eq_of_lt hsmall, hcurrent]
  have hsum : (p.add size).reserved + (p.add size).claims limit =
      p.reserved + ((if limit < p.current + size then 0 else size.toNat) + p.claims limit) := by
    simp only [reserved, claims, Pool.add, claim, sumOf_cons]
  rw [Within, hsum]
  split
  · rw [Nat.zero_add]
    exact h
  · next hle =>
    rw [UInt64.not_lt, UInt64.le_iff_toNat_le, hnew, total] at hle
    omega

theorem Within.check (h : p.Within limit) (hs : p.check limit size newTotal = some p') :
    p'.Within limit := by
  obtain ⟨rest, hcalls, rfl⟩ := check_eq_some.mp hs
  have hsame : claim limit ⟨size, if limit < newTotal then .rejected else .accepted⟩ =
      claim limit ⟨size, .added newTotal⟩ := by
    by_cases hover : limit < newTotal
    · simp [claim, hover]
    · simp [claim, hover]
  simp only [Within, reserved, claims, hcalls, sumOf_cons] at h ⊢
  rw [hsame]
  exact h

theorem Within.rollBack (h : p.Within limit) (hs : p.rollBack size = some p') :
    p'.Within limit := by
  obtain ⟨rest, hcalls, rfl⟩ := rollBack_eq_some.mp hs
  simp only [Within, reserved, claims, hcalls, sumOf_cons] at h ⊢
  omega

theorem Within.grant (h : p.Within limit) (hs : p.grant size = some p') : p'.Within limit := by
  obtain ⟨rest, hcalls, rfl⟩ := grant_eq_some.mp hs
  simp only [Within, reserved, claims, hcalls, claim, sumOf_cons] at h ⊢
  omega

theorem Within.release (h : p.Within limit) (hs : p.release size = some p') :
    p'.Within limit := by
  obtain ⟨rest, hlive, rfl⟩ := release_eq_some.mp hs
  simp only [Within, reserved, claims, hlive, sumOf_cons] at h ⊢
  omega

/-- Nothing has wrapped, and the limit is kept. -/
structure InRange (limit : UInt64) (p : Pool) : Prop where
  small : p.total < 2 ^ 64
  within : p.Within limit

theorem inRange_empty (limit : UInt64) : empty.InRange limit where
  small := by decide
  within := Nat.zero_le _

/-- An addition that does not wrap is on top of the total. -/
theorem InRange.add (h : p.InRange limit) (hbalanced : p.Balanced)
    (hnew : p.current.toNat + size.toNat < 2 ^ 64) : (p.add size).InRange limit := by
  have hcurrent := hbalanced.current_eq h.small
  refine ⟨?_, h.within.add hcurrent hnew⟩
  rw [total_add, ← hcurrent]
  exact hnew

theorem InRange.settles (h : p.InRange limit) (hs : Settles limit p p') : p'.InRange limit := by
  have hsmall := h.small
  cases hs with
  | check size newTotal hcheck =>
    refine ⟨?_, h.within.check hcheck⟩
    rw [total_check hcheck]
    exact hsmall
  | rollBack size hback =>
    have htotal := total_rollBack hback
    exact ⟨by omega, h.within.rollBack hback⟩
  | grant size hgrant =>
    refine ⟨?_, h.within.grant hgrant⟩
    rw [total_grant hgrant]
    exact hsmall
  | release size hrelease =>
    have htotal := total_release hrelease
    exact ⟨by omega, h.within.release hrelease⟩

end Pool

end Reservation
