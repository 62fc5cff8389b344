import Mathlib.Data.List.DropRight
import MeiliBridge.Base.Number

/-!
# The string operations of a hand-written parser, on characters

The `str` methods that the parsers of textual messages take their input apart with, on the list of
its characters. A slice that cuts a character at a boundary of one byte cannot go wrong there, since
the characters that are searched for are ASCII.
-/

set_option autoImplicit false

namespace MeiliBridge

namespace Chars

/-- `str::trim` -/
def trim (cs : List Char) : List Char :=
  (cs.dropWhile Text.isWhitespace).rdropWhile Text.isWhitespace

/-- `str::trim_end_matches` with one character -/
def trimEndMatches (c : Char) (cs : List Char) : List Char := cs.rdropWhile (· == c)

/-- `str::split_once` with one character -/
def splitOnce (sep : Char) : List Char → Option (List Char × List Char)
  | [] => none
  | c :: cs =>
    if c = sep then some ([], cs) else (splitOnce sep cs).map fun r => (c :: r.1, r.2)

/-- What stands before and after the position that `str::rfind` gives for one character. -/
def rsplitOnce (sep : Char) (cs : List Char) : Option (List Char × List Char) :=
  (splitOnce sep cs.reverse).map fun r => (r.2.reverse, r.1.reverse)

/-- `str::replace` of two single quotes by one -/
def undouble : List Char → List Char
  | '\'' :: '\'' :: cs => '\'' :: undouble cs
  | c :: cs => c :: undouble cs
  | [] => []

/-- `str::eq_ignore_ascii_case` -/
def eqIgnoreAsciiCase (cs ds : List Char) : Bool := cs.map Char.toLower == ds.map Char.toLower

/-- `str::parse` of an `i64` -/
def parseI64 (cs : List Char) : Option Int :=
  let digits := fun ds => if ds = [] then none else Text.digits? 10 ds
  match cs with
  | '-' :: ds => ((digits ds).map fun n => -(n : Int)).filter (-2 ^ 63 ≤ ·)
  | '+' :: ds => ((digits ds).map Int.ofNat).filter (· < 2 ^ 63)
  | ds => ((digits ds).map Int.ofNat).filter (· < 2 ^ 63)

/-! ## Trimming -/

/-- Nothing to trim at either end -/
def Trimmed (cs : List Char) : Prop :=
  (∀ c ∈ cs.head?, Text.isWhitespace c = false) ∧ ∀ c ∈ cs.getLast?, Text.isWhitespace c = false

theorem trim_eq_self {cs : List Char} (h : Trimmed cs) : trim cs = cs := by
  have hstart : cs.dropWhile Text.isWhitespace = cs := by
    cases cs with
    | nil => rfl
    | cons c cs =>
      have hc : Text.isWhitespace c = false := h.1 c rfl
      rw [List.dropWhile_cons_of_neg (by simp [hc])]
  rw [trim, hstart, List.rdropWhile_eq_self_iff]
  intro hne
  simp [h.2 _ (List.getLast?_eq_some_getLast hne)]

theorem trim_eq_self_iff {cs : List Char} : trim cs = cs ↔ Trimmed cs := by
  refine ⟨fun h => ?_, trim_eq_self⟩
  have hsuffix : cs.dropWhile Text.isWhitespace <:+ cs := List.dropWhile_suffix _
  have hstart : cs.dropWhile Text.isWhitespace = cs := by
    apply hsuffix.eq_of_length_le
    have hlength := (List.rdropWhile_prefix Text.isWhitespace
      (cs.dropWhile Text.isWhitespace)).length_le
    rwa [← trim, h] at hlength
  constructor
  · intro c hc
    cases cs with
    | nil => cases hc
    | cons d ds =>
      obtain rfl := Option.some.inj hc
      by_contra hblank
      rw [List.dropWhile_cons_of_pos (by simpa using hblank)] at hstart
      have hlength := (List.dropWhile_suffix (l := ds) Text.isWhitespace).length_le
      rw [hstart, List.length_cons] at hlength
      omega
  · intro c hc
    rw [trim, hstart, List.rdropWhile_eq_self_iff] at h
    have hne : cs ≠ [] := List.ne_nil_of_mem (List.mem_of_getLast? hc)
    rw [List.getLast?_eq_some_getLast hne] at hc
    rw [← Option.some.inj hc]
    simpa using h hne

theorem mem_dropWhile {p : Char → Bool} {c : Char} (hc : p c = false) {cs : List Char}
    (h : c ∈ cs) : c ∈ cs.dropWhile p := by
  rw [← List.takeWhile_append_dropWhile (p := p) (l := cs)] at h
  rcases List.mem_append.mp h with h | h
  · have hp := List.mem_takeWhile_imp h
    simp [hc] at hp
  · exact h

/-- What is no blank stays. -/
theorem mem_trim {c : Char} (hc : Text.isWhitespace c = false) {cs : List Char} (h : c ∈ cs) :
    c ∈ trim cs := by
  have hstart := mem_dropWhile hc h
  rw [trim, List.rdropWhile, List.mem_reverse]
  exact mem_dropWhile hc (List.mem_reverse.mpr hstart)

theorem filter_dropWhile_not (p : Char → Bool) (cs : List Char) :
    (cs.dropWhile p).filter (!p ·) = cs.filter (!p ·) := by
  induction cs with
  | nil => rfl
  | cons c cs ih =>
    by_cases hc : p c = true
    · rw [List.dropWhile_cons_of_pos hc, ih, List.filter_cons_of_neg (by simp [hc])]
    · rw [List.dropWhile_cons_of_neg hc]

/-- Trimming takes only blanks away. -/
theorem filter_trim (cs : List Char) :
    (trim cs).filter (!Text.isWhitespace ·) = cs.filter (!Text.isWhitespace ·) := by
  rw [trim, List.rdropWhile, List.filter_reverse, filter_dropWhile_not, List.filter_reverse,
    List.reverse_reverse, filter_dropWhile_not]

theorem trim_head {cs : List Char} {c : Char} (h : (trim cs).head? = some c) :
    Text.isWhitespace c = false := by
  obtain ⟨rest, hrest⟩ := List.rdropWhile_prefix Text.isWhitespace (cs.dropWhile Text.isWhitespace)
  have hhead : (cs.dropWhile Text.isWhitespace).head? = some c := by
    rw [← hrest, List.head?_append_of_ne_nil]
    · exact h
    · intro hnil
      rw [trim, hnil] at h
      cases h
  have hnot := List.head?_dropWhile_not Text.isWhitespace cs
  rw [hhead] at hnot
  exact hnot

/-- Trimming adds nothing. -/
theorem mem_of_mem_trim {x : Char} (hx : Text.isWhitespace x = false) {cs : List Char}
    (h : x ∈ trim cs) : x ∈ cs := by
  have hfilter : x ∈ (trim cs).filter (!Text.isWhitespace ·) :=
    List.mem_filter.mpr ⟨h, by simp [hx]⟩
  rw [filter_trim] at hfilter
  exact (List.mem_filter.mp hfilter).1

@[simp] theorem trim_nil : trim [] = [] := rfl

/-- Leading blanks are trimmed. -/
theorem trim_cons {c : Char} {cs : List Char} (h : Text.isWhitespace c = true) :
    trim (c :: cs) = trim cs := by
  rw [trim, List.dropWhile_cons_of_pos h, trim]

/-- A text that ends in no blank is trimmed at its start. -/
theorem trimmed_append {cs ds : List Char} (hcs : cs ≠ []) (hds : ds ≠ [])
    (hfirst : ∀ c ∈ cs.head?, Text.isWhitespace c = false)
    (hlast : ∀ c ∈ ds.getLast?, Text.isWhitespace c = false) : Trimmed (cs ++ ds) := by
  constructor
  · rw [List.head?_append_of_ne_nil _ hcs]
    exact hfirst
  · rw [List.getLast?_append_of_ne_nil _ hds]
    exact hlast

/-! ## Splitting -/

theorem splitOnce_append {sep : Char} {cs : List Char} (h : sep ∉ cs) (rest : List Char) :
    splitOnce sep (cs ++ sep :: rest) = some (cs, rest) := by
  induction cs with
  | nil => simp [splitOnce]
  | cons c cs ih =>
    have hne : c ≠ sep := fun heq => h (heq ▸ List.mem_cons_self)
    have hcs := ih fun hmem => h (List.mem_cons_of_mem _ hmem)
    rw [List.cons_append, splitOnce, if_neg hne, hcs, Option.map_some]

theorem splitOnce_eq_none_iff {sep : Char} {cs : List Char} :
    splitOnce sep cs = none ↔ sep ∉ cs := by
  induction cs with
  | nil => simp [splitOnce]
  | cons c cs ih =>
    rw [splitOnce]
    split
    · next heq => simp [heq]
    · next hne => simp [ih, Ne.symm hne]

/-- The parts around the first separator -/
theorem splitOnce_eq_some {sep : Char} {cs before after : List Char}
    (h : splitOnce sep cs = some (before, after)) :
    cs = before ++ sep :: after ∧ sep ∉ before := by
  induction cs generalizing before with
  | nil => cases h
  | cons c cs ih =>
    rw [splitOnce] at h
    split at h
    · next heq =>
      obtain ⟨rfl, rfl⟩ := Prod.mk.inj (Option.some.inj h)
      exact ⟨by rw [heq, List.nil_append], List.not_mem_nil⟩
    · next hne =>
      obtain ⟨⟨before', after'⟩, hsplit, heq⟩ := Option.map_eq_some_iff.mp h
      obtain ⟨rfl, rfl⟩ := Prod.mk.inj heq
      obtain ⟨rfl, hnot⟩ := ih hsplit
      refine ⟨rfl, fun hmem => ?_⟩
      rcases List.mem_cons.mp hmem with rfl | hmem
      · exact hne rfl
      · exact hnot hmem

theorem rsplitOnce_append {sep : Char} {after : List Char} (h : sep ∉ after)
    (before : List Char) : rsplitOnce sep (before ++ sep :: after) = some (before, after) := by
  have hreverse : (before ++ sep :: after).reverse = after.reverse ++ sep :: before.reverse := by
    simp
  rw [rsplitOnce, hreverse, splitOnce_append (by simpa using h)]
  simp

theorem rsplitOnce_eq_some {sep : Char} {cs before after : List Char}
    (h : rsplitOnce sep cs = some (before, after)) :
    cs = before ++ sep :: after ∧ sep ∉ after := by
  obtain ⟨⟨after', before'⟩, hsplit, heq⟩ := Option.map_eq_some_iff.mp h
  obtain ⟨rfl, rfl⟩ := Prod.mk.inj heq
  obtain ⟨hcs, hnot⟩ := splitOnce_eq_some hsplit
  refine ⟨?_, by simpa using hnot⟩
  rw [← List.reverse_reverse cs, hcs]
  simp

theorem rsplitOnce_eq_none_iff {sep : Char} {cs : List Char} :
    rsplitOnce sep cs = none ↔ sep ∉ cs := by
  rw [rsplitOnce, Option.map_eq_none_iff, splitOnce_eq_none_iff, List.mem_reverse]

theorem trimEndMatches_eq_self {c : Char} {cs : List Char} (h : c ∉ cs) :
    trimEndMatches c cs = cs := by
  rw [trimEndMatches, List.rdropWhile_eq_self_iff]
  intro hne heq
  exact h (beq_iff_eq.mp heq ▸ List.getLast_mem hne)

/-! ## Numbers -/

theorem digits_none {c : Char} (hc : Text.digit? 10 c = none) {cs : List Char} (h : c ∈ cs) :
    Text.digits? 10 cs = none := by
  have hnone (cs : List Char) : (cs.foldl (fun acc c => acc.bind fun n =>
      (Text.digit? 10 c).map fun d => n * 10 + d) (none : Option Nat)) = none := by
    induction cs with
    | nil => rfl
    | cons c cs ih => exact ih
  obtain ⟨before, after, rfl⟩ := List.append_of_mem h
  rw [Text.digits?, List.foldl_append, List.foldl_cons, hc]
  cases (before.foldl (fun acc c => acc.bind fun n =>
      (Text.digit? 10 c).map fun d => n * 10 + d) (some 0)) with
  | none => exact hnone after
  | some n => exact hnone after

/-- The lowercase characters of numbers, with the words for numbers that are not finite. -/
def numeralChars : List Char := "0123456789+-.einftya".toList

/-- A character that no number has, in lower or upper case. -/
def Foreign (c : Char) : Prop := c.toLower ∉ numeralChars

theorem Foreign.ne {c x : Char} (h : Foreign c) (hx : x.toLower ∈ numeralChars) : c ≠ x := by
  rintro rfl
  exact h hx

theorem Foreign.no_digit {c : Char} (h : Foreign c) : Text.digit? 10 c = none := by
  have hall : ∀ n < 10, (Char.ofNat (48 + n)).toLower ∈ numeralChars := by decide
  cases hdigit : Text.digit? 10 c with
  | none => rfl
  | some d =>
    have hrange : 48 ≤ c.toNat ∧ c.toNat < 58 := by
      simp only [Text.digit?, Option.filter_eq_some_iff, decide_eq_true_eq] at hdigit
      obtain ⟨hd, hlt⟩ := hdigit
      split at hd
      · omega
      · split at hd
        · cases hd
          omega
        · split at hd
          · cases hd
            omega
          · cases hd
    have hc := hall (c.toNat - 48) (by omega)
    rw [Nat.add_sub_cancel' hrange.1, Char.ofNat_toNat] at hc
    exact absurd hc h

theorem Foreign.mem_sign {c : Char} (h : Foreign c) {cs : List Char} (hmem : c ∈ cs) :
    c ∈ (F64.sign cs).2 := by
  have hminus : c ≠ '-' := h.ne (by decide)
  have hplus : c ≠ '+' := h.ne (by decide)
  unfold F64.sign
  split
  · simpa [hminus] using hmem
  · simpa [hplus] using hmem
  · exact hmem

/-- The digits in front are dropped without it. -/
theorem Foreign.mem_dropWhile {c : Char} (h : Foreign c) {cs : List Char} (hmem : c ∈ cs) :
    c ∈ cs.dropWhile fun x => (Text.digit? 10 x).isSome :=
  Chars.mem_dropWhile (by simp [h.no_digit]) hmem

theorem Foreign.exponent_none {c : Char} (h : Foreign c) {cs : List Char} (hmem : c ∈ cs) :
    F64.exponent? cs = none := by
  cases cs with
  | nil => cases hmem
  | cons x cs =>
    rw [F64.exponent?]
    split
    · next hx =>
      have hne : c ≠ x := by
        rcases hx with rfl | rfl
        · exact h.ne (by decide)
        · exact h.ne (by decide)
      have hds := h.mem_sign (List.mem_of_ne_of_mem hne hmem)
      simp [List.ne_nil_of_mem hds, digits_none h.no_digit hds]
    · rfl

/-- A text with a foreign character is no number. -/
theorem Foreign.no_number {c : Char} (h : Foreign c) {s : String} (hmem : c ∈ s.toList) :
    parseI64 s.toList = none ∧ F64.parse s = none := by
  have hsign := h.mem_sign hmem
  constructor
  · have hdigits {ds : List Char} (hds : c ∈ ds) :
        (if ds = [] then none else Text.digits? 10 ds) = none := by
      rw [digits_none h.no_digit hds, ite_self]
    have hminus : c ≠ '-' := h.ne (by decide)
    have hplus : c ≠ '+' := h.ne (by decide)
    unfold parseI64
    split
    · next ds heq =>
      rw [heq] at hmem
      simp only [hdigits (List.mem_of_ne_of_mem hminus hmem)]
      rfl
    · next ds heq =>
      rw [heq] at hmem
      simp only [hdigits (List.mem_of_ne_of_mem hplus hmem)]
      rfl
    · simp only [hdigits hmem]
      rfl
  · have hlower : c.toLower ∈ (F64.sign s.toList).2.map Char.toLower := List.mem_map_of_mem hsign
    have hword {word : List Char} (hall : word ⊆ numeralChars) :
        (F64.sign s.toList).2.map Char.toLower ≠ word := by
      rintro rfl
      exact h (hall hlower)
    have hwords : ¬ ((F64.sign s.toList).2.map Char.toLower = "inf".toList ∨
        (F64.sign s.toList).2.map Char.toLower = "infinity".toList ∨
        (F64.sign s.toList).2.map Char.toLower = "nan".toList) := by
      rintro (heq | heq | heq)
      · exact hword (by decide) heq
      · exact hword (by decide) heq
      · exact hword (by decide) heq
    have hrest := h.mem_dropWhile hsign
    have hpoint : c ≠ '.' := h.ne (by decide)
    simp only [F64.parse, if_neg hwords]
    -- whatever the digits are, the rest of the text is no exponent
    split
    · next r hr =>
      rw [hr] at hrest
      have hexponent := h.exponent_none (h.mem_dropWhile (List.mem_of_ne_of_mem hpoint hrest))
      split
      · rfl
      · simp [hexponent]
    · have hexponent := h.exponent_none hrest
      split
      · rfl
      · simp [hexponent]
end Chars

end MeiliBridge
