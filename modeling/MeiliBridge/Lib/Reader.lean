import Mathlib.Data.List.Infix
import Mathlib.Logic.Basic

/-!
# Readers over a list of tokens

A `Reader` takes tokens off the front of a list, or fails. `Reads p ts a` says that `p` reads `a`
from exactly the tokens `ts`: it leaves whatever follows them, and it refuses every strict prefix
of them. The rules compose: what a sequence of readers reads is the concatenation of what each of
them reads. A reader that goes on to the end of its input has nothing to leave; `ReadsAll` is the
form for it.
-/

set_option autoImplicit false

/-- Reads from the front of a list of tokens. -/
abbrev Reader (τ ε : Type) := StateT (List τ) (Except ε)

namespace Reader

variable {τ ε α β : Type}

/-- What a reader makes of a list: its result and what it leaves, or an error. -/
abbrev on (p : Reader τ ε α) (ts : List τ) : Except ε (α × List τ) := p.run ts

/-! ## The basic readers -/

/-- The next token, or an error at the end. -/
def next (eof : ε) : Reader τ ε τ := fun
  | [] => .error eof
  | t :: ts => .ok (t, ts)

/-- The next `n` tokens, or an error if there are fewer. -/
def take (eof : ε) (n : Nat) : Reader τ ε (List τ) := fun ts =>
  if n ≤ ts.length then .ok (ts.take n, ts.drop n) else .error eof

/-- The tokens up to the first one that satisfies `stop`, which is read as well. -/
def upTo (eof : ε) (stop : τ → Bool) : Reader τ ε (List τ) := fun
  | [] => .error eof
  | t :: ts =>
    if stop t then .ok ([], ts)
    else (upTo eof stop ts).map fun (read, rest) => (t :: read, rest)

/-- The results of `n` readings. -/
def times (p : Reader τ ε α) : Nat → Reader τ ε (List α)
  | 0 => pure []
  | n + 1 => do
    let a ← p
    let as ← times p n
    pure (a :: as)

/-- An outcome that depends on no token. -/
def ofExcept (x : Except ε α) : Reader τ ε α := fun ts => x.map (·, ts)

theorem on_bind (p : Reader τ ε α) (f : α → Reader τ ε β) (ts : List τ) :
    (p >>= f).on ts = (p.on ts).bind fun r => (f r.1).on r.2 := by
  rw [on, StateT.run_bind]
  rfl

/-! ## What a reader reads -/

/-- `p` reads `a` from exactly the tokens `ts`. -/
structure Reads (p : Reader τ ε α) (ts : List τ) (a : α) : Prop where
  accepts : ∀ rest, p.on (ts ++ rest) = .ok (a, rest)
  refuses : ∀ q, q <+: ts → q ≠ ts → ∃ e, p.on q = .error e

/-- `p` reads `a` from the tokens `ts` and their end. -/
structure ReadsAll (p : Reader τ ε α) (ts : List τ) (a : α) : Prop where
  accepts : p.on ts = .ok (a, [])
  refuses : ∀ q, q <+: ts → q ≠ ts → ∃ e, p.on q = .error e

theorem Reads.all {p : Reader τ ε α} {ts : List τ} {a : α} (h : Reads p ts a) :
    ReadsAll p ts a where
  accepts := by
    have haccepts := h.accepts []
    rwa [List.append_nil] at haccepts
  refuses := h.refuses

/-- A strict prefix of two lists cuts the first one, or the second one after it. -/
theorem strict_prefix_append {q xs ys : List τ} (h : q <+: xs ++ ys) (hne : q ≠ xs ++ ys) :
    (q <+: xs ∧ q ≠ xs) ∨ ∃ q', q = xs ++ q' ∧ q' <+: ys ∧ q' ≠ ys := by
  rcases List.prefix_or_prefix_of_prefix h (List.prefix_append xs ys) with hcut | ⟨q', rfl⟩
  · by_cases heq : q = xs
    · refine .inr ⟨[], by simp [heq], List.nil_prefix, ?_⟩
      intro hys
      exact hne (by rw [heq, ← hys, List.append_nil])
    · exact .inl ⟨hcut, heq⟩
  · refine .inr ⟨q', rfl, (List.prefix_append_right_inj xs).mp h, ?_⟩
    intro hys
    exact hne (by rw [hys])

theorem strict_prefix_singleton {q : List τ} {t : τ} (h : q <+: [t]) (hne : q ≠ [t]) : q = [] := by
  rcases List.prefix_cons_iff.mp h with rfl | ⟨q', rfl, hq'⟩
  · rfl
  · exact absurd (by rw [List.prefix_nil.mp hq']) hne

theorem Reads.pure (a : α) : Reads (Pure.pure a : Reader τ ε α) [] a where
  accepts _ := rfl
  refuses _ hq hne := absurd (List.prefix_nil.mp hq) hne

/-- One reader after the other. -/
theorem Reads.bind {p : Reader τ ε α} {f : α → Reader τ ε β} {ts us : List τ} {a : α} {b : β}
    (hp : Reads p ts a) (hf : Reads (f a) us b) : Reads (p >>= f) (ts ++ us) b where
  accepts rest := by
    rw [on_bind, List.append_assoc, hp.accepts]
    exact hf.accepts rest
  refuses q hq hne := by
    rcases strict_prefix_append hq hne with ⟨hcut, hne⟩ | ⟨q', rfl, hcut, hne⟩
    · obtain ⟨e, he⟩ := hp.refuses q hcut hne
      exact ⟨e, by rw [on_bind, he]; rfl⟩
    · obtain ⟨e, he⟩ := hf.refuses q' hcut hne
      exact ⟨e, by rw [on_bind, hp.accepts]; exact he⟩

theorem Reads.bind_all {p : Reader τ ε α} {f : α → Reader τ ε β} {ts us : List τ} {a : α} {b : β}
    (hp : Reads p ts a) (hf : ReadsAll (f a) us b) : ReadsAll (p >>= f) (ts ++ us) b where
  accepts := by
    rw [on_bind, hp.accepts]
    exact hf.accepts
  refuses q hq hne := by
    rcases strict_prefix_append hq hne with ⟨hcut, hne⟩ | ⟨q', rfl, hcut, hne⟩
    · obtain ⟨e, he⟩ := hp.refuses q hcut hne
      exact ⟨e, by rw [on_bind, he]; rfl⟩
    · obtain ⟨e, he⟩ := hf.refuses q' hcut hne
      exact ⟨e, by rw [on_bind, hp.accepts]; exact he⟩

/-- The last reader, and what is made of its result. -/
theorem Reads.bind_pure {p : Reader τ ε α} {ts : List τ} {a : α} (hp : Reads p ts a) (f : α → β) :
    Reads (p >>= fun a => Pure.pure (f a)) ts (f a) := by
  rw [← List.append_nil ts]
  exact hp.bind (.pure _)

theorem Reads.next (eof : ε) (t : τ) : Reads (Reader.next eof) [t] t where
  accepts _ := rfl
  refuses q hq hne := by
    rw [strict_prefix_singleton hq hne]
    exact ⟨eof, rfl⟩

theorem Reads.take (eof : ε) {n : Nat} {ts : List τ} (h : ts.length = n) :
    Reads (Reader.take eof n) ts ts where
  accepts rest := by
    subst h
    simp [on, Reader.take, StateT.run]
  refuses q hq hne := by
    refine ⟨eof, if_neg ?_⟩
    intro hn
    exact hne (hq.eq_of_length_le (h ▸ hn))

theorem Reads.upTo (eof : ε) {stop : τ → Bool} {ts : List τ} {t : τ}
    (hts : ∀ x ∈ ts, stop x = false) (ht : stop t = true) :
    Reads (Reader.upTo eof stop) (ts ++ [t]) ts := by
  induction ts with
  | nil =>
    refine ⟨fun rest => ?_, ?_⟩
    · show (if stop t then _ else _) = _
      rw [if_pos ht]
      rfl
    · intro q hq hne
      rw [strict_prefix_singleton hq hne]
      exact ⟨eof, rfl⟩
  | cons x xs ih =>
    have hx : stop x = false := hts x List.mem_cons_self
    have hstep : ∀ us, (Reader.upTo eof stop).on (x :: us) =
        ((Reader.upTo eof stop).on us).map fun r => (x :: r.1, r.2) := by
      intro us
      show (if stop x then _ else _) = _
      rw [hx]
      rfl
    obtain ⟨haccepts, hrefuses⟩ := ih fun y hy => hts y (List.mem_cons_of_mem _ hy)
    refine ⟨fun rest => ?_, ?_⟩
    · rw [List.cons_append, List.cons_append, hstep, haccepts]
      rfl
    · intro q hq hne
      rcases List.prefix_cons_iff.mp hq with rfl | ⟨q', rfl, hq'⟩
      · exact ⟨eof, rfl⟩
      · obtain ⟨e, he⟩ := hrefuses q' hq' fun heq => hne (by rw [heq]; rfl)
        exact ⟨e, by rw [hstep, he]; rfl⟩

/-- Readings in a row read the concatenation. -/
theorem Reads.times {p : Reader τ ε α} :
    ∀ {as : List α} {tss : List (List τ)}, List.Forall₂ (fun a ts => Reads p ts a) as tss →
      Reads (Reader.times p as.length) tss.flatten as
  | _, _, .nil => .pure []
  | _, _, .cons ha has => ha.bind ((Reads.times has).bind_pure _)

theorem Reads.ofExcept (a : α) : Reads (Reader.ofExcept (.ok a) : Reader τ ε α) [] a where
  accepts _ := rfl
  refuses _ hq hne := absurd (List.prefix_nil.mp hq) hne

/-! ## What a reader leaves -/

/-- What the reader leaves is the end of what it was given. -/
def LeavesEnd (p : Reader τ ε α) : Prop :=
  ∀ ts a rest, p.on ts = .ok (a, rest) → rest <:+ ts

theorem LeavesEnd.pure (a : α) : LeavesEnd (Pure.pure a : Reader τ ε α) := by
  intro ts _ rest h
  cases h
  exact List.suffix_refl _

theorem LeavesEnd.bind {p : Reader τ ε α} {f : α → Reader τ ε β} (hp : LeavesEnd p)
    (hf : ∀ a, LeavesEnd (f a)) : LeavesEnd (p >>= f) := by
  intro ts b rest h
  rw [on_bind] at h
  cases hread : p.on ts with
  | error e =>
    rw [hread] at h
    cases h
  | ok r =>
    rw [hread] at h
    exact (hf r.1 r.2 b rest h).trans (hp ts r.1 r.2 hread)

theorem LeavesEnd.next (eof : ε) : LeavesEnd (Reader.next eof : Reader τ ε τ) := by
  intro ts t rest h
  cases ts with
  | nil => cases h
  | cons t' ts =>
    cases h
    exact List.suffix_cons _ _

theorem LeavesEnd.take (eof : ε) (n : Nat) :
    LeavesEnd (Reader.take eof n : Reader τ ε (List τ)) := by
  intro ts read rest h
  simp only [on, StateT.run, Reader.take] at h
  split at h
  · cases h
    exact List.drop_suffix n ts
  · cases h

theorem LeavesEnd.ofExcept (x : Except ε α) : LeavesEnd (Reader.ofExcept x : Reader τ ε α) := by
  intro ts a rest h
  cases x with
  | error e => cases h
  | ok a' =>
    cases h
    exact List.suffix_refl _

theorem LeavesEnd.times {p : Reader τ ε α} (hp : LeavesEnd p) :
    ∀ n, LeavesEnd (Reader.times p n)
  | 0 => .pure []
  | n + 1 => hp.bind fun _ => (LeavesEnd.times hp n).bind fun _ => .pure _

end Reader
