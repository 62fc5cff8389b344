import MeiliBridge.Source.ArrayText

/-!
# JSONB columns

The scalar match has one arm for `JSON` and `JSONB`, but the test for array types comes before it,
and `JSONB` is among the numbers from 1000 on: a JSONB text is decoded as an array if braces are
around it, and else stays a text. `jsonb_agrees_iff` says when the two types give the same.
-/

set_option autoImplicit false

namespace MeiliBridge

namespace Types

open Oids

/-! ## Printed values -/

theorem length_quote (s : String) : s.toList.length < (Value.quote s).toList.length := by
  have hescape (cs : List Char) : cs.length ≤ (cs.flatMap Value.escapeChar).length := by
    induction cs with
    | nil => exact Nat.le_refl 0
    | cons c cs ih =>
      have hchar : 1 ≤ (Value.escapeChar c).length := by
        unfold Value.escapeChar
        repeat' split
        all_goals simp
      rw [List.flatMap_cons, List.length_append, List.length_cons]
      omega
  have hlength := hescape s.toList
  simp [Value.quote] at hlength ⊢
  omega

/-- No value is the text that is printed for it. -/
theorem string_display_ne (v : Value) : Value.string v.display ≠ v := by
  intro h
  cases v with
  | string s =>
    rw [Value.display] at h
    have hlength := length_quote s
    rw [Value.string.inj h] at hlength
    exact Nat.lt_irrefl _ hlength
  | _ => cases h

theorem display_array_head (xs : List Value) :
    (Value.array xs).display.toList.head? = some '[' := by
  simp [Value.display]

/-! ## The two types -/

/-- What a parser of JSON texts does: a text that begins with a brace is an object, and a string is
shorter than its literal. -/
structure JsonSyntax (fromStr : String → Option Value) : Prop where
  object : ∀ s v, s.toList.head? = some '\x7b' → fromStr s = some v → ∃ fields, v = .object fields
  string : ∀ s t, fromStr s = some (.string t) → t.length < s.length

section

variable {fromStr : String → Option Value} {bytes : List UInt8} {s : String}

theorem decode_json (h : Text.fromUtf8 bytes = .ok s) :
    decodeValue fromStr bytes json = .ok ((fromStr s).getD (.string s)) :=
  decodeValue_scalar h (by decide)

/-- A JSONB text becomes an array, or stays a text. -/
theorem decode_jsonb (h : Text.fromUtf8 bytes = .ok s) {v : Value}
    (hv : decodeValue fromStr bytes jsonb = .ok v) :
    if Delimited '\x7b' '\x7d' s.toList then ∃ xs, v = .array xs else v = .string s := by
  rw [decodeValue_array h (by decide)] at hv
  split
  · next hbraces =>
    rw [decodeArray_elements _ hbraces] at hv
    cases hmap : (elementsOf (content s.toList)).mapM
        (parseArrayElement fun bytes => decodeValue fromStr bytes (elementType jsonb)) with
    | error f =>
      rw [hmap] at hv
      cases hv
    | ok xs =>
      rw [hmap] at hv
      exact ⟨xs, (Except.ok.inj hv).symm⟩
  · next hbraces =>
    rw [decodeArray, if_pos hbraces, String.ofList_toList] at hv
    exact (Except.ok.inj hv).symm

theorem jsonb_eq_json_iff (hjson : JsonSyntax fromStr) (bytes : List UInt8) :
    decodeValue fromStr bytes jsonb = decodeValue fromStr bytes json ↔
      ∀ s : String, Text.fromUtf8 bytes = .ok s →
        ¬ Delimited '\x7b' '\x7d' s.toList ∧ fromStr s = none := by
  constructor
  · intro heq s hs
    rw [decode_json hs] at heq
    have hjsonb := decode_jsonb hs heq
    split at hjsonb
    · next hbraces =>
      obtain ⟨xs, hxs⟩ := hjsonb
      -- JSON makes an object of it, or leaves the text
      cases hparsed : fromStr s with
      | none =>
        rw [hparsed] at hxs
        cases hxs
      | some v =>
        obtain ⟨fields, hobject⟩ := hjson.object s v hbraces.1 hparsed
        rw [hparsed, Option.getD_some, hobject] at hxs
        cases hxs
    · next hbraces =>
      refine ⟨hbraces, ?_⟩
      cases hparsed : fromStr s with
      | none => rfl
      | some v =>
        rw [hparsed, Option.getD_some] at hjsonb
        rw [hjsonb] at hparsed
        exact absurd (hjson.string s s hparsed) (Nat.lt_irrefl _)
  · intro h
    cases hs : Text.fromUtf8 bytes with
    | error e => rw [decodeValue_invalid hs, decodeValue_invalid hs]
    | ok s =>
      obtain ⟨hbraces, hnone⟩ := h s hs
      rw [decode_json hs, hnone, decodeValue_array hs (by decide), decodeArray, if_pos hbraces,
        String.ofList_toList, Option.getD_none]

/-- The text of a value is never read back as JSONB. -/
theorem jsonb_display_ne (v : Value) :
    decodeValue fromStr (Text.utf8 v.display) jsonb ≠ .ok v := by
  intro h
  have hjsonb := decode_jsonb (Text.fromUtf8_utf8 _) h
  split at hjsonb
  · next hbraces =>
    obtain ⟨xs, hxs⟩ := hjsonb
    rw [hxs, Delimited, display_array_head] at hbraces
    exact absurd hbraces.1 (by decide)
  · exact string_display_ne v hjsonb.symm

theorem json_display_iff (v : Value) :
    decodeValue fromStr (Text.utf8 v.display) json = .ok v ↔ fromStr v.display = some v := by
  rw [decode_json (Text.fromUtf8_utf8 _)]
  cases hparsed : fromStr v.display with
  | none =>
    constructor
    · intro h
      exact absurd (Except.ok.inj h) (string_display_ne v)
    · intro h
      cases h
  | some v' =>
    constructor
    · intro h
      rw [← Except.ok.inj h]
      rfl
    · intro h
      rw [Option.some.inj h]
      rfl

/-- **JSONB decodes like JSON exactly where** the bytes are no UTF-8, or the text is no JSON and has
no braces around it. The text of a value is read back as JSON whenever the parser reads it back, and
never as JSONB. -/
theorem jsonb_agrees_iff (fromStr : String → Option Value) (hjson : JsonSyntax fromStr) :
    (∀ bytes : List UInt8, decodeValue fromStr bytes jsonb = decodeValue fromStr bytes json ↔
      ∀ s : String, Text.fromUtf8 bytes = .ok s →
        ¬ Delimited '\x7b' '\x7d' s.toList ∧ fromStr s = none) ∧
    (∀ v : Value, decodeValue fromStr (Text.utf8 v.display) json = .ok v ↔
      fromStr v.display = some v) ∧
    ∀ v : Value, decodeValue fromStr (Text.utf8 v.display) jsonb ≠ .ok v :=
  ⟨jsonb_eq_json_iff hjson, json_display_iff, jsonb_display_ne⟩

end

/-- The parser on the texts `null`, which is JSON, and `nul`, which is not -/
def nullParser (s : String) : Option Value := if s = "null" then some .null else none

theorem nullParser_syntax : JsonSyntax nullParser := by
  constructor
  · intro s v hhead hparsed
    rw [nullParser] at hparsed
    split at hparsed
    · next hs =>
      rw [hs] at hhead
      exact absurd hhead (by decide)
    · cases hparsed
  · intro s t hparsed
    rw [nullParser] at hparsed
    split at hparsed
    · cases hparsed
    · cases hparsed

/-- The two types agree on `nul`; on `null` only JSON gives the value. -/
theorem jsonb_agrees_iff_null :
    decodeValue nullParser (Text.utf8 "nul") jsonb = decodeValue nullParser (Text.utf8 "nul") json ∧
    decodeValue nullParser (Text.utf8 Value.null.display) json = .ok .null ∧
    decodeValue nullParser (Text.utf8 Value.null.display) jsonb ≠ .ok .null := by
  obtain ⟨hagrees, hjson, hjsonb⟩ := jsonb_agrees_iff nullParser nullParser_syntax
  refine ⟨(hagrees _).mpr ?_, (hjson .null).mpr rfl, hjsonb .null⟩
  intro s hs
  rw [Text.fromUtf8_utf8] at hs
  rw [← Except.ok.inj hs]
  exact ⟨by decide, by decide⟩

/-- The text `null` -/
theorem jsonb_not_always_like_json : ¬ ∀ fromStr : String → Option Value, JsonSyntax fromStr →
    ∀ bytes, decodeValue fromStr bytes jsonb = decodeValue fromStr bytes json := by
  intro h
  have hagrees := (jsonb_eq_json_iff nullParser_syntax (Text.utf8 "null")).mp
    (h nullParser nullParser_syntax _)
  have hnone := (hagrees "null" (Text.fromUtf8_utf8 _)).2
  cases hnone

end Types

end MeiliBridge
