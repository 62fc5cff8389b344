import Mathlib.Data.List.AList
import Mathlib.Data.List.Infix
import Mathlib.Data.List.Sort
import Mathlib.Data.Prod.Lex
import Mathlib.Data.String.Basic

/-!
# A keyspace of strings and sorted sets

The documented behaviour of a Redis database, as far as strings with expiry, sorted sets and key
patterns go. Times are in milliseconds. A command is a function of the keyspace; what expires leaves
it in `expire`, which a user runs before each command, with the time of the command.

* A string has contents of any type `V`: what its text stands for. Scores are of any linear order.
* A key of the wrong type reads as an absent one; the database would answer with an error.
* Patterns are matched byte by byte, as the database does (`Glob`).
-/

set_option autoImplicit false

/-! ## Filtering a map -/

namespace AList

variable {α : Type} {β : α → Type} [DecidableEq α]

/-- The entries that meet `p`. -/
def filterEntries (p : Sigma β → Bool) (m : AList β) : AList β where
  entries := m.entries.filter p
  nodupKeys := m.nodupKeys.sublist List.filter_sublist

theorem lookup_filterEntries (p : Sigma β → Bool) (m : AList β) (k : α) :
    (m.filterEntries p).lookup k = (m.lookup k).filter fun v => p ⟨k, v⟩ := by
  ext v
  have hm : v ∈ m.lookup k ↔ ⟨k, v⟩ ∈ m.entries := mem_lookup_iff
  have hkept : v ∈ (m.filterEntries p).lookup k ↔ ⟨k, v⟩ ∈ (m.filterEntries p).entries :=
    mem_lookup_iff
  simp only [Option.mem_def] at hm hkept
  rw [hkept, filterEntries, List.mem_filter, ← hm, Option.filter_eq_some_iff]

variable {γ : Type}

theorem lookup_insert_eq_ite (m : AList fun _ : α => γ) (k other : α) (v : γ) :
    (m.insert k v).lookup other = if other = k then some v else m.lookup other := by
  by_cases h : other = k
  · subst h
    rw [lookup_insert, if_pos rfl]
  · rw [lookup_insert_ne h, if_neg h]

theorem lookup_erase_eq_ite (m : AList fun _ : α => γ) (k other : α) :
    (m.erase k).lookup other = if other = k then none else m.lookup other := by
  by_cases h : other = k
  · subst h
    rw [lookup_erase, if_pos rfl]
  · rw [lookup_erase_ne h, if_neg h]

end AList

namespace Redis

/-! ## Sorted sets -/

/-- A sorted set: the score of each member. -/
abbrev SortedSet (σ : Type) := AList fun _ : String => σ

namespace SortedSet

variable {σ : Type} [LinearOrder σ]

/-- The members with their scores, by score and then by name. -/
def ranked (s : SortedSet σ) : List (σ ×ₗ String) :=
  (s.entries.map fun entry => toLex (entry.2, entry.1)).insertionSort (· ≤ ·)

/-- `ZRANGE` with two indices, each counted from the end when it is negative. -/
def range (s : SortedSet σ) (start stop : Int) : List String :=
  let n : Int := s.ranked.length
  let first := if start < 0 then max 0 (start + n) else start
  let last := if stop < 0 then stop + n else stop
  ((s.ranked.map fun member => (ofLex member).2).take (last + 1).toNat).drop first.toNat

variable {s : SortedSet σ}

theorem mem_ranked {score : σ} {member : String} :
    toLex (score, member) ∈ s.ranked ↔ s.lookup member = some score := by
  rw [ranked, List.mem_insertionSort, List.mem_map]
  have hlookup := @AList.mem_lookup_iff _ _ _ member score s
  simp only [Option.mem_def] at hlookup
  rw [hlookup]
  constructor
  · rintro ⟨⟨m, sc⟩, hmem, heq⟩
    obtain ⟨rfl, rfl⟩ := Prod.mk.inj (toLex.injective heq)
    exact hmem
  · intro hmem
    exact ⟨_, hmem, rfl⟩

theorem pairwise_ranked : s.ranked.Pairwise (· < ·) := by
  have hnodup : s.ranked.Nodup := by
    refine (List.perm_insertionSort _ _).nodup_iff.mpr (List.Nodup.map_on ?_ s.nodupKeys.nodup)
    intro x _ y _ heq
    obtain ⟨hscore, hmember⟩ := Prod.mk.inj (toLex.injective heq)
    cases x
    cases y
    cases hmember
    cases hscore
    rfl
  have hsorted : s.ranked.Pairwise (· ≤ ·) := List.pairwise_insertionSort _ _
  exact (hsorted.and hnodup).imp fun h => lt_of_le_of_ne h.1 h.2

/-- How many of so many members the indices from the first member to `stop` cover. -/
def covered (stop : Int) (count : Nat) : Nat :=
  ((if stop < 0 then stop + count else stop) + 1).toNat

theorem range_zero (stop : Int) :
    s.range 0 stop =
      (s.ranked.map fun member => (ofLex member).2).take (covered stop s.ranked.length) := by
  simp only [range, covered, lt_irrefl, if_false, Int.toNat_zero, List.drop_zero]

/-- All members. -/
theorem range_all : s.range 0 (-1) = s.ranked.map fun member => (ofLex member).2 := by
  rw [range_zero, List.take_of_length_le]
  rw [List.length_map, covered, if_pos (by omega)]
  omega

end SortedSet

/-! ## Keys -/

variable {σ V : Type}

inductive Data (σ V : Type) where
  | string (v : V)
  | sortedSet (s : SortedSet σ)

structure Entry (σ V : Type) where
  data : Data σ V
  /-- when the key expires, if it does -/
  deadline : Option Nat

abbrev Keyspace (σ V : Type) := AList fun _ : String => Entry σ V

def Entry.live (now : Nat) (entry : Entry σ V) : Bool :=
  entry.deadline.all fun deadline => decide (now < deadline)

/-- The keys that have not expired at the time `now`. -/
def expire (now : Nat) (db : Keyspace σ V) : Keyspace σ V :=
  db.filterEntries fun entry => entry.2.live now

/-- `GET` -/
def get (db : Keyspace σ V) (key : String) : Option V :=
  match (db.lookup key).map Entry.data with
  | some (.string v) => some v
  | _ => none

/-- `SET` -/
def set (db : Keyspace σ V) (key : String) (v : V) : Keyspace σ V :=
  db.insert key ⟨.string v, none⟩

/-- `SET` with `EX`, at the time `now` -/
def setEx (db : Keyspace σ V) (now : Nat) (key : String) (v : V) (seconds : Nat) : Keyspace σ V :=
  db.insert key ⟨.string v, some (now + seconds * 1000)⟩

/-- `DEL` -/
def del (db : Keyspace σ V) (key : String) : Keyspace σ V := db.erase key

/-- The sorted set at a key, the empty one if there is none. -/
def sortedSet (db : Keyspace σ V) (key : String) : SortedSet σ :=
  match (db.lookup key).map Entry.data with
  | some (.sortedSet s) => s
  | _ => ∅

/-- `ZADD` -/
def zadd (db : Keyspace σ V) (key member : String) (score : σ) : Keyspace σ V :=
  db.insert key ⟨.sortedSet ((sortedSet db key).insert member score),
    (db.lookup key).bind Entry.deadline⟩

/-- `ZREM`. A sorted set that has become empty leaves the keyspace. -/
def zrem (db : Keyspace σ V) (key member : String) : Keyspace σ V :=
  match db.lookup key with
  | some ⟨.sortedSet s, deadline⟩ =>
    if (s.erase member).entries = [] then db.erase key
    else db.insert key ⟨.sortedSet (s.erase member), deadline⟩
  | _ => db

/-- `ZRANGE` -/
def zrange [LinearOrder σ] (db : Keyspace σ V) (key : String) (start stop : Int) : List String :=
  (sortedSet db key).range start stop

/-! ### What a command does to the keys -/

section Keys

variable (db : Keyspace σ V) (key other : String)

@[simp] theorem get_set (v : V) :
    get (set db key v) other = if other = key then some v else get db other := by
  by_cases h : other = key
  · subst h
    simp [get, set]
  · simp [get, set, h]

@[simp] theorem get_del : get (del db key) other = if other = key then none else get db other := by
  by_cases h : other = key
  · subst h
    simp [get, del, AList.lookup_erase]
  · simp [get, del, h, AList.lookup_erase_ne h]

@[simp] theorem get_zadd (member : String) (score : σ) :
    get (zadd db key member score) other = if other = key then none else get db other := by
  by_cases h : other = key
  · subst h
    simp [get, zadd]
  · simp [get, zadd, h]

@[simp] theorem get_zrem (member : String) : get (zrem db key member) other = get db other := by
  unfold zrem
  split
  · next s deadline hlookup =>
    by_cases h : other = key
    · subst h
      split <;> simp [get, hlookup, AList.lookup_erase]
    · split <;> simp [get, h, AList.lookup_erase_ne h]
  · rfl

@[simp] theorem sortedSet_set (v : V) :
    sortedSet (set db key v) other = if other = key then ∅ else sortedSet db other := by
  by_cases h : other = key
  · subst h
    simp [sortedSet, set]
  · simp [sortedSet, set, h]

@[simp] theorem sortedSet_del :
    sortedSet (del db key) other = if other = key then ∅ else sortedSet db other := by
  by_cases h : other = key
  · subst h
    simp [sortedSet, del, AList.lookup_erase]
  · simp [sortedSet, del, h, AList.lookup_erase_ne h]

@[simp] theorem sortedSet_zadd (member : String) (score : σ) :
    sortedSet (zadd db key member score) other =
      if other = key then (sortedSet db key).insert member score else sortedSet db other := by
  by_cases h : other = key
  · subst h
    simp [sortedSet, zadd]
  · simp [sortedSet, zadd, h]

@[simp] theorem sortedSet_zrem (member : String) :
    sortedSet (zrem db key member) other =
      if other = key then (sortedSet db key).erase member else sortedSet db other := by
  unfold zrem
  split
  · next s deadline hlookup =>
    by_cases h : other = key
    · subst h
      rw [if_pos rfl]
      have hs : sortedSet db other = s := by simp [sortedSet, hlookup]
      rw [hs]
      split
      · next hempty =>
        simp only [sortedSet, AList.lookup_erase, Option.map_none]
        exact (AList.ext hempty).symm
      · simp [sortedSet]
    · split <;> simp [sortedSet, h, AList.lookup_erase_ne h]
  · next hother =>
    split
    · next h =>
      subst h
      have hs : sortedSet db other = ∅ := by
        unfold sortedSet
        split
        · next s hdata =>
          obtain ⟨entry, hlookup, hdata⟩ := Option.map_eq_some_iff.mp hdata
          exact absurd (by rw [hlookup, ← hdata]) (hother s entry.deadline)
        · rfl
      rw [hs]
      rfl
    · rfl

@[simp] theorem get_setEx (now : Nat) (v : V) (seconds : Nat) :
    get (setEx db now key v seconds) other = if other = key then some v else get db other := by
  by_cases h : other = key
  · subst h
    simp [get, setEx]
  · simp [get, setEx, h]

end Keys

/-! ## Patterns -/

namespace Glob

inductive Token where
  /-- `*` -/
  | star
  /-- `?` -/
  | any
  | byte (b : UInt8)
  /-- `[...]`, with whether it is negated -/
  | oneOf (negated : Bool) (ranges : List (UInt8 × UInt8))

/-- The bytes of a text. -/
def bytes (text : String) : List UInt8 := text.toByteArray.data.toList

/-- Read a pattern; `inside` is the class that is being read, if there is one. -/
def tokens : Option (Bool × List (UInt8 × UInt8)) → List UInt8 → List Token
  | none, [] => []
  | some (negated, ranges), [] => [.oneOf negated ranges]
  | none, 42 :: pattern => .star :: tokens none pattern
  | none, 63 :: pattern => .any :: tokens none pattern
  | none, 91 :: 94 :: pattern => tokens (some (true, [])) pattern
  | none, 91 :: pattern => tokens (some (false, [])) pattern
  | none, 92 :: b :: pattern => .byte b :: tokens none pattern
  | none, b :: pattern => .byte b :: tokens none pattern
  | some (negated, ranges), 92 :: b :: pattern =>
    tokens (some (negated, (b, b) :: ranges)) pattern
  | some (negated, ranges), 93 :: pattern => .oneOf negated ranges :: tokens none pattern
  | some (negated, ranges), a :: 45 :: b :: pattern =>
    tokens (some (negated, (min a b, max a b) :: ranges)) pattern
  | some (negated, ranges), b :: pattern => tokens (some (negated, (b, b) :: ranges)) pattern

def accepts : List Token → List UInt8 → Bool
  | [], text => text.isEmpty
  | .star :: rest, text => text.tails.any (accepts rest)
  | .any :: rest, _ :: text => accepts rest text
  | .byte b :: rest, x :: text => b == x && accepts rest text
  | .oneOf negated ranges :: rest, x :: text =>
    (ranges.any (fun r => r.1 ≤ x && x ≤ r.2) != negated) && accepts rest text
  | _ :: _, [] => false

/-- Whether a key matches a pattern. -/
def keyMatches (pattern key : String) : Bool := accepts (tokens none (bytes pattern)) (bytes key)

/-- No character of the text has a meaning in a pattern. -/
def Literal (text : String) : Prop := ∀ b ∈ bytes text, b ≠ 42 ∧ b ≠ 63 ∧ b ≠ 91 ∧ b ≠ 92

@[simp] theorem bytes_append (s t : String) : bytes (s ++ t) = bytes s ++ bytes t := by
  simp [bytes, String.toByteArray_append]

theorem tokens_literal {bs : List UInt8} (h : ∀ b ∈ bs, b ≠ 42 ∧ b ≠ 63 ∧ b ≠ 91 ∧ b ≠ 92) :
    tokens none (bs ++ [42]) = bs.map .byte ++ [.star] := by
  induction bs with
  | nil => rfl
  | cons b bs ih =>
    obtain ⟨hstar, hany, hclass, hescape⟩ := h b List.mem_cons_self
    have ih := ih fun x hx => h x (List.mem_cons_of_mem _ hx)
    rw [List.cons_append, tokens, ih]
    · rfl
    all_goals simp_all

theorem accepts_star {bs text : List UInt8} :
    accepts (bs.map .byte ++ [.star]) text = true ↔ bs <+: text := by
  induction bs generalizing text with
  | nil =>
    simp only [List.map_nil, List.nil_append, accepts, List.any_eq_true, List.nil_prefix, iff_true]
    exact ⟨[], (List.mem_tails _ _).mpr List.nil_suffix, rfl⟩
  | cons b bs ih =>
    cases text with
    | nil => simp [accepts]
    | cons x text =>
      simp [accepts, ih, List.cons_prefix_cons]

/-- A pattern that is literal up to its final star matches what begins with the literal part. -/
theorem keyMatches_literal {stem : String} (h : Literal stem) (key : String) :
    keyMatches (stem ++ "*") key = true ↔ bytes stem <+: bytes key := by
  rw [keyMatches, bytes_append]
  have hstar : bytes "*" = [42] := rfl
  rw [hstar, tokens_literal h, accepts_star]

end Glob

/-- `KEYS` -/
def keys (db : Keyspace σ V) (pattern : String) : List String :=
  db.keys.filter (Glob.keyMatches pattern)

end Redis
