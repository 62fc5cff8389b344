import MeiliBridge.Source.ArrayText

/-!
# Arrays of texts

What PostgreSQL prints for an array of texts, from its documented output, and what `decode_value`
makes of it. Quotes and escapes are resolved as they should be, but the decoder of an element then
trims it, takes it for NULL if it is that word, and strips quotes that are part of it; and the last
element is left out where it is empty. `arrayOut_decodes_iff` says which arrays are read back.
-/

set_option autoImplicit false

namespace MeiliBridge

namespace Types

open Oids

/-! ## What PostgreSQL prints -/

/-- `array_isspace` -/
def isSpace (c : Char) : Bool := c == ' ' || (9 ≤ c.toNat && c.toNat ≤ 13)

/-- The characters that an element is quoted for. -/
def isSpecial (c : Char) : Bool :=
  c == '"' || c == '\\' || c == '\x7b' || c == '\x7d' || c == ',' || isSpace c

def needsQuotes (cs : List Char) : Bool :=
  cs == [] || Chars.eqIgnoreAsciiCase cs "NULL".toList || cs.any isSpecial

/-- A quote and a backslash are escaped. -/
def escape (cs : List Char) : List Char :=
  cs.flatMap fun c => if c = '"' ∨ c = '\\' then ['\\', c] else [c]

def elementOut : Option String → List Char
  | none => "NULL".toList
  | some s => if needsQuotes s.toList then '"' :: (escape s.toList ++ ['"']) else s.toList

/-- The elements, between commas. -/
def contentOut (xs : List (Option String)) : List Char := [','].intercalate (xs.map elementOut)

/-- `array_out` of an array of texts -/
def arrayOut (xs : List (Option String)) : String :=
  String.ofList ('\x7b' :: (contentOut xs ++ ['\x7d']))

/-! ## Pieces -/

/-- The text of an element, without quotes and escapes. -/
def textOf : Option String → List Char
  | none => "NULL".toList
  | some s => s.toList

theorem split_escape (current cs rest : List Char) :
    split true false current (escape cs ++ '"' :: rest) =
      split false false (current ++ cs) rest := by
  induction cs generalizing current with
  | nil => simp [escape, split]
  | cons c cs ih =>
    rw [escape, List.flatMap_cons, ← escape, List.append_assoc]
    split
    · rw [List.cons_append, List.singleton_append, split, if_pos ⟨rfl, rfl⟩, split, ih,
        List.append_assoc, List.singleton_append]
    · next hplain =>
      rw [not_or] at hplain
      rw [List.singleton_append, split, if_neg (fun h => hplain.2 h.1), if_neg hplain.1,
        if_neg (by simp), ih, List.append_assoc, List.singleton_append]

theorem split_plain {cs : List Char} (h : cs.any isSpecial = false) (current rest : List Char) :
    split false false current (cs ++ rest) = split false false (current ++ cs) rest := by
  induction cs generalizing current with
  | nil => simp
  | cons c cs ih =>
    rw [List.any_cons, Bool.or_eq_false_iff] at h
    have hquote : c ≠ '"' := by
      rintro rfl
      cases h.1
    have hcomma : c ≠ ',' := by
      rintro rfl
      cases h.1
    rw [List.cons_append, split, if_neg (by simp), if_neg hquote, if_neg (fun h => hcomma h.1),
      ih h.2, List.append_assoc, List.singleton_append]

theorem split_elementOut (x : Option String) (current rest : List Char) :
    split false false current (elementOut x ++ rest) =
      split false false (current ++ textOf x) rest := by
  cases x with
  | none => exact split_plain (by decide) current rest
  | some s =>
    rw [elementOut, textOf]
    split
    · rw [List.cons_append, split, if_neg (by simp), if_pos rfl, List.append_assoc]
      exact split_escape current s.toList rest
    · next hplain =>
      rw [Bool.not_eq_true, needsQuotes, Bool.or_eq_false_iff] at hplain
      exact split_plain hplain.2 current rest

theorem split_contentOut (xs : List (Option String)) (x : Option String) :
    split false false [] (contentOut (xs ++ [x])) = (xs.map textOf, textOf x) := by
  induction xs with
  | nil =>
    have helement := split_elementOut x [] []
    rw [List.append_nil] at helement
    rw [List.nil_append, contentOut, List.map_singleton, List.intercalate_singleton, helement]
    rfl
  | cons y ys ih =>
    rw [List.cons_append, contentOut, List.map_cons, List.intercalate_cons_of_ne_nil (by simp),
      ← contentOut, List.append_assoc, split_elementOut, List.nil_append, List.singleton_append,
      split, if_neg (by decide), if_neg (by decide), if_pos ⟨rfl, rfl⟩, ih]
    rfl

/-- No element ends in a comma outside quotes. -/
theorem getLast_elementOut (x : Option String) :
    elementOut x ≠ [] ∧ (elementOut x).getLast? ≠ some ',' := by
  cases x with
  | none => decide
  | some s =>
    rw [elementOut]
    split
    · refine ⟨List.cons_ne_nil _ _, ?_⟩
      rw [← List.cons_append, List.getLast?_concat]
      decide
    · next hplain =>
      rw [Bool.not_eq_true, needsQuotes, Bool.or_eq_false_iff, Bool.or_eq_false_iff] at hplain
      refine ⟨by simpa using hplain.1.1, fun hlast => ?_⟩
      have hcomma := List.any_eq_false.mp hplain.2 ',' (List.mem_of_getLast? hlast)
      exact hcomma rfl

theorem contentOut_suffix (xs : List (Option String)) (x : Option String) :
    elementOut x <:+ contentOut (xs ++ [x]) := by
  induction xs with
  | nil =>
    rw [List.nil_append, contentOut, List.map_singleton, List.intercalate_singleton]
  | cons y ys ih =>
    rw [List.cons_append, contentOut, List.map_cons, List.intercalate_cons_of_ne_nil (by simp)]
    exact ih.trans (List.suffix_append _ _)

theorem getLast_contentOut (xs : List (Option String)) (x : Option String) :
    (contentOut (xs ++ [x])).getLast? ≠ some ',' := by
  obtain ⟨before, hsplit⟩ := contentOut_suffix xs x
  rw [← hsplit, List.getLast?_append_of_ne_nil _ (getLast_elementOut x).1]
  exact (getLast_elementOut x).2

/-- The last element is left out if it is empty. -/
theorem elementsOf_contentOut (xs : List (Option String)) (x : Option String) :
    elementsOf (contentOut (xs ++ [x])) =
      if textOf x = [] then xs.map textOf else (xs ++ [x]).map textOf := by
  rw [elementsOf, split_contentOut]
  simp only [getLast_contentOut, or_false, ne_eq, ite_not, List.map_append, List.map_singleton]

/-! ## Elements -/

/-- The JSON value of an element -/
def valueOf : Option String → Value
  | none => .null
  | some s => .string s

/-- The text of an element is its own: it has no blank at either end, it is not the word for a
missing element, and it is not in quotes. -/
structure Unambiguous (s : String) : Prop where
  trimmed : Chars.Trimmed s.toList
  notNull : s ≠ "NULL"
  notQuoted : ¬ Delimited '"' '"' s.toList

variable {fromStr : String → Option Value}

theorem length_trim_le (cs : List Char) : (Chars.trim cs).length ≤ cs.length :=
  (List.rdropWhile_prefix _ _).length_le.trans (List.dropWhile_suffix _).length_le

/-- An element keeps its text only where no quotes are stripped from it, and no blanks. -/
theorem unquoted_eq_self {cs : List Char} (h : unquoted cs = cs) :
    Chars.trim cs = cs ∧ ¬ Delimited '"' '"' cs := by
  rw [unquoted] at h
  split at h
  · next hquotes =>
    have hlength := congrArg List.length h
    have htrim := length_trim_le cs
    have hne : Chars.trim cs ≠ [] := by
      intro hnil
      rw [hnil] at hquotes
      cases hquotes.1
    have hpos := List.length_pos_of_ne_nil hne
    rw [content, List.length_dropLast, List.length_tail] at hlength
    omega
  · next hquotes =>
    rw [h] at hquotes
    exact ⟨h, hquotes⟩

theorem parse_some_iff (s : String) :
    parseArrayElement (fun bytes => decodeValue fromStr bytes text) s.toList = .ok (.string s) ↔
      Unambiguous s := by
  constructor
  · intro h
    have hnull : Chars.trim s.toList ≠ "NULL".toList := by
      intro hnull
      rw [parseArrayElement_null hnull] at h
      cases h
    have hlone : Chars.trim s.toList ≠ ['"'] := by
      intro hlone
      rw [parseArrayElement_lone hlone] at h
      cases h
    rw [parseArrayElement_decode hnull hlone, decodeValue_text] at h
    -- an element that comes back is its own text without quotes
    have hself : unquoted s.toList = s.toList := by
      have hstring := congrArg String.toList (Value.string.inj (Except.ok.inj h))
      rwa [String.toList_ofList] at hstring
    obtain ⟨htrim, hquotes⟩ := unquoted_eq_self hself
    refine ⟨Chars.trim_eq_self_iff.mp htrim, ?_, hquotes⟩
    rintro rfl
    exact hnull htrim
  · intro h
    have htrim := Chars.trim_eq_self h.trimmed
    have hnull : Chars.trim s.toList ≠ "NULL".toList := by
      intro hnull
      rw [htrim] at hnull
      exact h.notNull (String.toList_injective hnull)
    have hlone : Chars.trim s.toList ≠ ['"'] := by
      intro hlone
      rw [htrim] at hlone
      apply h.notQuoted
      rw [hlone]
      exact ⟨rfl, rfl⟩
    rw [parseArrayElement_decode hnull hlone, decodeValue_text, unquoted, htrim,
      if_neg h.notQuoted, String.ofList_toList]

theorem parse_textOf_iff (x : Option String) :
    parseArrayElement (fun bytes => decodeValue fromStr bytes text) (textOf x) = .ok (valueOf x) ↔
      ∀ s ∈ x, Unambiguous s := by
  cases x with
  | none =>
    rw [textOf, parseArrayElement_null (by decide)]
    simp [valueOf]
  | some s =>
    rw [textOf, valueOf, parse_some_iff]
    simp

/-! ## Arrays -/

theorem delimited_arrayOut (xs : List (Option String)) :
    Delimited '\x7b' '\x7d' (arrayOut xs).toList := by
  rw [arrayOut, String.toList_ofList, ← List.cons_append]
  exact ⟨rfl, List.getLast?_concat⟩

theorem content_arrayOut (xs : List (Option String)) :
    content (arrayOut xs).toList = contentOut xs := by
  rw [arrayOut, String.toList_ofList, content, List.tail_cons, List.dropLast_concat]

theorem decode_arrayOut (xs : List (Option String)) :
    decodeValue fromStr (Text.utf8 (arrayOut xs)) textArray =
      ((elementsOf (contentOut xs)).mapM
        (parseArrayElement fun bytes => decodeValue fromStr bytes text)).map .array := by
  rw [decodeValue_array (Text.fromUtf8_utf8 _) (by decide),
    decodeArray_elements _ (delimited_arrayOut xs), content_arrayOut]
  rfl

theorem map_array_eq_ok {r : Except Fault (List Value)} {values : List Value} :
    r.map Value.array = .ok (.array values) ↔ r = .ok values := by
  cases r with
  | error e =>
    constructor
    · intro h
      cases h
    · intro h
      cases h
  | ok values' =>
    constructor
    · intro h
      rw [Value.array.inj (Except.ok.inj h)]
    · intro h
      rw [Except.ok.inj h]
      rfl

/-- **An array of texts is read back exactly when** each of its elements has a text of its own, and
the last one is not empty. -/
theorem arrayOut_decodes_iff (fromStr : String → Option Value) (xs : List (Option String)) :
    decodeValue fromStr (Text.utf8 (arrayOut xs)) textArray = .ok (.array (xs.map valueOf)) ↔
      (∀ s, some s ∈ xs → Unambiguous s) ∧ xs.getLast? ≠ some (some "") := by
  rw [decode_arrayOut, map_array_eq_ok, mapM_ok_iff]
  rcases List.eq_nil_or_concat xs with rfl | ⟨ys, x, hxs⟩
  · simp [contentOut, elementsOf, split]
  · rw [List.concat_eq_append] at hxs
    rw [hxs, elementsOf_contentOut, List.getLast?_concat]
    split
    · next hempty =>
      -- an element is missing
      constructor
      · intro h
        have hlength := h.length_eq
        simp at hlength
      · rintro ⟨hall, hlast⟩
        cases x with
        | none => cases hempty
        | some s =>
          have hs : s = "" := String.toList_eq_nil_iff.mp hempty
          exact absurd (by rw [hs]) hlast
    · next hnonempty =>
      have hlast : some x ≠ some (some "") := by
        intro heq
        rw [Option.some.inj heq] at hnonempty
        exact hnonempty rfl
      rw [List.forall₂_map_left_iff, List.forall₂_map_right_iff, List.forall₂_same]
      simp only [parse_textOf_iff, hlast, ne_eq, not_false_eq_true, and_true]
      constructor
      · intro h s hs
        exact h (some s) hs s rfl
      · intro h y hy s hs
        exact h s (Option.mem_def.mp hs ▸ hy)

/-- An array with an empty text -/
theorem arrayOut_not_always_decodes : ¬ ∀ (fromStr : String → Option Value)
    (xs : List (Option String)),
    decodeValue fromStr (Text.utf8 (arrayOut xs)) textArray = .ok (.array (xs.map valueOf)) := by
  intro h
  have hdecode := h (fun _ => none) [some ""]
  rw [decode_arrayOut] at hdecode
  have hempty : elementsOf (contentOut [some ""]) = [] := by decide
  rw [hempty] at hdecode
  cases hdecode

end Types

end MeiliBridge
