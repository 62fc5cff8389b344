import Mathlib.Data.List.Forall2
import MeiliBridge.Source.Types

/-!
# Array texts, and when the decoder panics

Commas outside quotes part the content of an array into pieces, from which quotes and escapes have
been taken away; the decoder of an array maps the decoder of an element over them. What is left of
an element can be a single quote, which begins and ends it at once: `returns_iff` says that this is
the only way for `decode_value` to panic.
-/

set_option autoImplicit false

namespace MeiliBridge

namespace Types

open Oids

/-! ## Pieces -/

/-- The pieces that a comma ends, and what comes after the last one. -/
def split : Bool → Bool → List Char → List Char → List (List Char) × List Char
  | _, _, current, [] => ([], current)
  | inQuotes, true, current, ch :: cs => split inQuotes false (current ++ [ch]) cs
  | inQuotes, false, current, ch :: cs =>
    if ch = '\\' ∧ inQuotes = true then split inQuotes true current cs
    else if ch = '"' then split (!inQuotes) false current cs
    else if ch = ',' ∧ inQuotes = false then
      (current :: (split inQuotes false [] cs).1, (split inQuotes false [] cs).2)
    else split inQuotes false (current ++ [ch]) cs

/-- The elements of an array with this content: the last piece counts unless it is empty and no
comma stands before it. -/
def elementsOf (content : List Char) : List (List Char) :=
  let r := split false false [] content
  if r.2 ≠ [] ∨ content.getLast? = some ',' then r.1 ++ [r.2] else r.1

/-- What stands between the first and the last character. -/
def content (text : List Char) : List Char := text.tail.dropLast

/-- An element without blanks around it, and without quotes that are left. -/
def unquoted (element : List Char) : List Char :=
  if Delimited '"' '"' (Chars.trim element) then content (Chars.trim element)
  else Chars.trim element

theorem inner_of_delimited {first last : Char} (hne : first ≠ last) {cs : List Char}
    (h : Delimited first last cs) : inner cs = .ok (content cs) := by
  obtain ⟨hfirst, hlast⟩ := h
  rw [inner, if_neg]
  · rfl
  · intro hshort
    cases cs with
    | nil => cases hfirst
    | cons c cs =>
      cases cs with
      | nil => exact hne ((Option.some.inj hfirst).symm.trans (Option.some.inj hlast))
      | cons d ds =>
        simp only [List.length_cons] at hshort
        omega

section

variable {α β ε : Type} {f : α → Except ε β}

theorem mapM_ok_iff {xs : List α} {ys : List β} :
    xs.mapM f = .ok ys ↔ List.Forall₂ (fun x y => f x = .ok y) xs ys := by
  induction xs generalizing ys with
  | nil =>
    rw [List.mapM_nil, List.forall₂_nil_left_iff]
    constructor
    · intro h
      cases h
      rfl
    · rintro rfl
      rfl
  | cons x xs ih =>
    rw [List.mapM_cons, bind_eq_ok, List.forall₂_cons_left_iff]
    constructor
    · rintro ⟨y, hy, hbind⟩
      obtain ⟨rest, hrest, heq⟩ := bind_eq_ok.mp hbind
      cases heq
      exact ⟨y, rest, hy, ih.mp hrest, rfl⟩
    · rintro ⟨y, rest, hy, hrest, rfl⟩
      exact ⟨y, hy, bind_eq_ok.mpr ⟨rest, ih.mpr hrest, rfl⟩⟩

theorem ok_of_mapM {xs : List α} {ys : List β} (h : xs.mapM f = .ok ys) {x : α} (hx : x ∈ xs) :
    ∃ y, f x = .ok y := by
  have hpairs := mapM_ok_iff.mp h
  induction hpairs generalizing x with
  | nil => cases hx
  | cons hhead hrest ih =>
    rcases List.mem_cons.mp hx with rfl | hx
    · exact ⟨_, hhead⟩
    · exact ih (mapM_ok_iff.mpr hrest) hx

theorem mapM_error {xs : List α} {e : ε} (h : xs.mapM f = .error e) :
    ∃ x ∈ xs, f x = .error e := by
  induction xs with
  | nil => cases h
  | cons x xs ih =>
    rw [List.mapM_cons] at h
    cases hx : f x with
    | error e' =>
      rw [hx] at h
      cases h
      exact ⟨x, List.mem_cons_self, hx⟩
    | ok y =>
      rw [hx] at h
      cases hrest : xs.mapM f with
      | error e' =>
        have hboth : (xs.mapM f >>= fun ys => pure (y :: ys) : Except ε (List β)) = .error e := h
        rw [hrest] at hboth
        cases hboth
        obtain ⟨x', hx', herror⟩ := ih hrest
        exact ⟨x', List.mem_cons_of_mem x hx', herror⟩
      | ok ys =>
        have hboth : (xs.mapM f >>= fun ys => pure (y :: ys) : Except ε (List β)) = .error e := h
        rw [hrest] at hboth
        cases hboth

/-- Where all errors are the same, a list is refused as its elements are. -/
theorem mapM_error_iff {e₀ : ε} (h : ∀ x e, f x = .error e → e = e₀) {xs : List α} {e : ε} :
    xs.mapM f = .error e ↔ e = e₀ ∧ ∃ x ∈ xs, f x = .error e₀ := by
  constructor
  · intro hxs
    obtain ⟨x, hx, hfails⟩ := mapM_error hxs
    obtain rfl := h x e hfails
    exact ⟨rfl, x, hx, hfails⟩
  · rintro ⟨rfl, x, hx, hfails⟩
    cases hxs : xs.mapM f with
    | ok ys =>
      obtain ⟨y, hy⟩ := ok_of_mapM hxs hx
      rw [hfails] at hy
      cases hy
    | error e' =>
      obtain ⟨x', -, hfails'⟩ := mapM_error hxs
      rw [h x' e' hfails']

end

section

variable (decode : List UInt8 → Except Fault Value)

/-- The loop decodes the pieces that it completes, and keeps the last one. -/
theorem arrayLoop_split (elements : List Value) (current : List Char) (inQuotes escapeNext : Bool)
    (cs : List Char) :
    (arrayLoop decode ⟨elements, current, inQuotes, escapeNext⟩ cs).map
        (fun s => (s.elements, s.current)) =
      ((split inQuotes escapeNext current cs).1.mapM (parseArrayElement decode)).map
        fun values => (elements ++ values, (split inQuotes escapeNext current cs).2) := by
  induction cs generalizing elements current inQuotes escapeNext with
  | nil =>
    rw [arrayLoop, split, List.mapM_nil]
    show Except.ok (elements, current) = .ok (elements ++ [], current)
    rw [List.append_nil]
  | cons ch cs ih =>
    rw [arrayLoop]
    cases escapeNext with
    | true => exact ih elements (current ++ [ch]) inQuotes false
    | false =>
      rw [split, arrayStep, if_neg Bool.false_ne_true]
      split
      · exact ih elements current inQuotes true
      · split
        · exact ih elements current (!inQuotes) false
        · split
          · rw [List.mapM_cons]
            -- the first element that does not parse ends both
            cases hvalue : parseArrayElement decode current with
            | error e => rfl
            | ok value =>
              have hrest := ih (elements ++ [value]) [] inQuotes false
              refine Eq.trans hrest ?_
              cases (split inQuotes false [] cs).1.mapM (parseArrayElement decode) with
              | error e => rfl
              | ok values =>
                show Except.ok (elements ++ [value] ++ values, _) =
                  .ok (elements ++ value :: values, _)
                rw [List.append_assoc, List.singleton_append]
          · exact ih elements (current ++ [ch]) inQuotes false

/-- An array is decoded element by element. -/
theorem decodeArray_elements {text : List Char} (h : Delimited '\x7b' '\x7d' text) :
    decodeArray decode text =
      ((elementsOf (content text)).mapM (parseArrayElement decode)).map .array := by
  rw [decodeArray, if_neg (not_not_intro h), inner_of_delimited (by decide) h]
  show (if content text = [] then _ else _) = _
  split
  · next hnil =>
    rw [hnil]
    rfl
  · have hloop := arrayLoop_split decode [] [] false false (content text)
    simp only [elementsOf]
    generalize split false false [] (content text) = r at hloop ⊢
    -- the loop stops at the first element that is refused, and so does the map over the pieces
    cases hend : arrayLoop decode ⟨[], [], false, false⟩ (content text) with
    | error e =>
      cases hpieces : r.1.mapM (parseArrayElement decode) with
      | ok values =>
        rw [hend, hpieces] at hloop
        cases hloop
      | error e' =>
        rw [hend, hpieces] at hloop
        cases hloop
        split
        · rw [List.mapM_append, hpieces]
          rfl
        · rw [hpieces]
          rfl
    | ok s =>
      cases hpieces : r.1.mapM (parseArrayElement decode) with
      | error e' =>
        rw [hend, hpieces] at hloop
        cases hloop
      | ok values =>
        rw [hend, hpieces] at hloop
        obtain ⟨helements, hcurrent⟩ := Prod.mk.inj (Except.ok.inj hloop)
        rw [List.nil_append] at helements
        -- the last piece is an element unless it is empty and no comma stands before the end
        show (if s.current ≠ [] ∨ (content text).getLast? = some ',' then _ else _) = _
        rw [hcurrent, helements]
        split
        · rw [List.mapM_append, hpieces, List.mapM_cons, List.mapM_nil]
          cases parseArrayElement decode r.2 with
          | error e => rfl
          | ok value => rfl
        · rw [hpieces]
          rfl

/-! ## Elements -/

variable {decode : List UInt8 → Except Fault Value} {element : List Char}

/-- A quote by itself begins and ends the element. -/
theorem parseArrayElement_lone (h : Chars.trim element = ['"']) :
    parseArrayElement decode element = .error .panic := by
  rw [parseArrayElement, h, if_neg (by decide), if_pos (by decide)]
  rfl

theorem parseArrayElement_null (h : Chars.trim element = "NULL".toList) :
    parseArrayElement decode element = .ok .null := by
  rw [parseArrayElement, if_pos h]

theorem parseArrayElement_decode (hnull : Chars.trim element ≠ "NULL".toList)
    (hlone : Chars.trim element ≠ ['"']) :
    parseArrayElement decode element = decode (Text.utf8 (String.ofList (unquoted element))) := by
  simp only [parseArrayElement, if_neg hnull, unquoted]
  split
  · next hquotes =>
    have hlong : ¬ (Chars.trim element).length < 2 := by
      intro hshort
      cases htrim : Chars.trim element with
      | nil =>
        rw [htrim] at hquotes
        cases hquotes.1
      | cons c cs =>
        rw [htrim] at hquotes hlone hshort
        have hnil : cs = [] := List.eq_nil_of_length_eq_zero (by
          rw [List.length_cons] at hshort
          omega)
        rw [hnil] at hlone
        exact hlone (congrArg (fun c => [c]) (Option.some.inj hquotes.1))
    rw [inner, if_neg hlong]
    rfl
  · rfl

end

/-! ## Panics -/

/-- Some element is a quote by itself, be it of an array that is an element. -/
inductive HasLoneQuote : UInt32 → List Char → Prop
  | lone {typeOid : UInt32} {text element : List Char} (harray : isArrayType typeOid = true)
      (hbraces : Delimited '\x7b' '\x7d' text) (helement : element ∈ elementsOf (content text))
      (hlone : Chars.trim element = ['"']) : HasLoneQuote typeOid text
  | nested {typeOid : UInt32} {text element : List Char} (harray : isArrayType typeOid = true)
      (hbraces : Delimited '\x7b' '\x7d' text) (helement : element ∈ elementsOf (content text))
      (hnested : HasLoneQuote (elementType typeOid) (unquoted element)) : HasLoneQuote typeOid text

theorem HasLoneQuote.braces {typeOid : UInt32} {text : List Char} (h : HasLoneQuote typeOid text) :
    Delimited '\x7b' '\x7d' text := by
  cases h with
  | lone _ hbraces => exact hbraces
  | nested _ hbraces => exact hbraces

theorem HasLoneQuote.array {typeOid : UInt32} {text : List Char} (h : HasLoneQuote typeOid text) :
    isArrayType typeOid = true := by
  cases h with
  | lone harray => exact harray
  | nested harray => exact harray

theorem hasLoneQuote_iff {typeOid : UInt32} {text : List Char} (harray : isArrayType typeOid = true)
    (hbraces : Delimited '\x7b' '\x7d' text) :
    HasLoneQuote typeOid text ↔ ∃ element ∈ elementsOf (content text),
      Chars.trim element = ['"'] ∨ HasLoneQuote (elementType typeOid) (unquoted element) := by
  constructor
  · intro h
    cases h with
    | lone _ _ hmem hlone => exact ⟨_, hmem, .inl hlone⟩
    | nested _ _ hmem hnested => exact ⟨_, hmem, .inr hnested⟩
  · rintro ⟨element, hmem, hlone | hnested⟩
    · exact .lone harray hbraces hmem hlone
    · exact .nested harray hbraces hmem hnested

theorem map_array_eq_error {r : Except Fault (List Value)} {f : Fault} :
    r.map Value.array = .error f ↔ r = .error f := by
  cases r with
  | error e => simp [Except.map]
  | ok values => simp [Except.map]

/-- An element panics by itself, or where its text does. -/
theorem parseArrayElement_error_iff {decode : List UInt8 → Except Fault Value} {elementOid : UInt32}
    (hdecode : ∀ (s : String) (f : Fault), decode (Text.utf8 s) = .error f ↔
      f = .panic ∧ HasLoneQuote elementOid s.toList) (element : List Char) (f : Fault) :
    parseArrayElement decode element = .error f ↔
      f = .panic ∧ (Chars.trim element = ['"'] ∨ HasLoneQuote elementOid (unquoted element)) := by
  by_cases hlone : Chars.trim element = ['"']
  · rw [parseArrayElement_lone hlone]
    constructor
    · intro heq
      exact ⟨(Except.error.inj heq).symm, .inl hlone⟩
    · rintro ⟨rfl, -⟩
      rfl
  · by_cases hnull : Chars.trim element = "NULL".toList
    · rw [parseArrayElement_null hnull]
      constructor
      · intro heq
        cases heq
      · rintro ⟨-, hquote | hnested⟩
        · exact absurd hquote hlone
        · have hbraces := hnested.braces
          rw [unquoted, hnull, if_neg (by decide)] at hbraces
          exact absurd hbraces (by decide)
    · rw [parseArrayElement_decode hnull hlone, hdecode, String.toList_ofList]
      simp only [hlone, false_or]

section

variable {fromStr : String → Option Value} {bytes : List UInt8} {typeOid : UInt32} {s : String}

/-- A text is decoded, or there is a panic; and there is one exactly when some element is a quote by
itself. -/
theorem decodeValue_error_iff (h : Text.fromUtf8 bytes = .ok s) (f : Fault) :
    decodeValue fromStr bytes typeOid = .error f ↔ f = .panic ∧ HasLoneQuote typeOid s.toList := by
  induction bytes, typeOid using decodeValue.induct generalizing s f with
  | case1 bytes typeOid e he =>
    rw [h] at he
    cases he
  | case2 bytes typeOid text htext harray ih =>
    rw [h] at htext
    cases htext
    have helement := @parseArrayElement_error_iff
      (fun bytes => decodeValue fromStr bytes (elementType typeOid)) _
      (fun s f => ih (Text.utf8 s) (Text.fromUtf8_utf8 s) f)
    rw [decodeValue_array h harray]
    by_cases hbraces : Delimited '\x7b' '\x7d' text.toList
    · have hpanics := @mapM_error_iff _ _ _ _ _ fun element f hfails =>
        ((helement element f).mp hfails).1
      rw [decodeArray_elements _ hbraces, map_array_eq_error, hpanics,
        hasLoneQuote_iff harray hbraces]
      simp only [helement, true_and]
    · rw [decodeArray, if_pos hbraces]
      constructor
      · intro heq
        cases heq
      · rintro ⟨-, hlone⟩
        exact absurd hlone.braces hbraces
  | case3 bytes typeOid text htext hscalar =>
    rw [h] at htext
    cases htext
    rw [decodeValue_scalar h (Bool.eq_false_of_not_eq_true hscalar)]
    constructor
    · intro heq
      cases heq
    · rintro ⟨-, hlone⟩
      exact absurd hlone.array hscalar

/-- **`decode_value` returns a value or an error exactly when** no element of an array text is a
quote by itself, in the text or, where the elements have a type that counts as an array type, in an
element. -/
theorem returns_iff (fromStr : String → Option Value) (bytes : List UInt8) (typeOid : UInt32) :
    (∃ r : Result Value, decodeValue fromStr bytes typeOid = r.toFault) ↔
      ∀ s : String, Text.fromUtf8 bytes = .ok s → ¬ HasLoneQuote typeOid s.toList := by
  constructor
  · rintro ⟨r, hr⟩ s hs hlone
    rw [(decodeValue_error_iff hs .panic).mpr ⟨rfl, hlone⟩] at hr
    cases r with
    | ok value => cases hr
    | error e => cases hr
  · intro hnone
    cases hs : Text.fromUtf8 bytes with
    | error e => exact ⟨.error _, decodeValue_invalid hs⟩
    | ok s =>
      cases hvalue : decodeValue fromStr bytes typeOid with
      | ok value => exact ⟨.ok value, rfl⟩
      | error f => exact absurd ((decodeValue_error_iff hs f).mp hvalue).2 (hnone s hs)

end

/-- The text of an array with one element, a quote, as PostgreSQL prints it -/
def quoteArray : String := "\x7b\"\\\"\"\x7d"

theorem quoteArray_lone : HasLoneQuote textArray quoteArray.toList :=
  @HasLoneQuote.lone textArray quoteArray.toList ['"'] (by decide) (by decide) (by decide)
    (by decide)

theorem not_always_returns : ¬ ∀ (fromStr : String → Option Value) (bytes : List UInt8)
    (typeOid : UInt32), ∃ r : Result Value, decodeValue fromStr bytes typeOid = r.toFault := by
  intro h
  obtain ⟨r, hr⟩ := h (fun _ => none) (Text.utf8 quoteArray) textArray
  rw [(decodeValue_error_iff (Text.fromUtf8_utf8 quoteArray) .panic).mpr
    ⟨rfl, quoteArray_lone⟩] at hr
  cases r with
  | ok value => cases hr
  | error e => cases hr

end Types

end MeiliBridge
