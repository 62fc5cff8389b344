import MeiliBridge.Pipeline.TransformOrder

/-!
# Where the transformer panics

A conversion to a number unwraps a JSON number that an infinity and a NaN do not have; everything
else that `transform` does is defined for all texts: the slice that `concat` takes
(`evaluateExpression_sliced`), and the lookups along a path.
-/

set_option autoImplicit false

namespace MeiliBridge

/-! ## Slices -/

namespace Text

/-- The characters before a byte and after it; `none` inside a character and beyond the end. -/
def splitAtByte (n : Nat) : List Char → Option (List Char × List Char)
  | [] => if n = 0 then some ([], []) else none
  | c :: cs =>
    if n = 0 then some ([], c :: cs)
    else if c.utf8Size ≤ n then
      (splitAtByte (n - c.utf8Size) cs).map fun halves => (c :: halves.1, halves.2)
    else none

/-- `str::len` -/
def byteLen (cs : List Char) : Nat := (cs.map Char.utf8Size).sum

/-- `&s[start..stop]` -/
def slice (s : String) (start stop : Nat) : Except Fault String :=
  match (splitAtByte stop s.toList).bind fun halves => splitAtByte start halves.1 with
  | some (_, inner) => .ok (String.ofList inner)
  | none => .error .panic

theorem splitAtByte_append (cs rest : List Char) :
    splitAtByte (byteLen cs) (cs ++ rest) = some (cs, rest) := by
  induction cs with
  | nil => cases rest <;> simp [splitAtByte, byteLen]
  | cons c cs ih =>
    have hlen : byteLen (c :: cs) = c.utf8Size + byteLen cs := by simp [byteLen]
    have hpos := c.utf8Size_pos
    rw [hlen, List.cons_append, splitAtByte, if_neg (by omega), if_pos (by omega),
      Nat.add_sub_cancel_left, ih]
    rfl

theorem byteLen_append (cs cs' : List Char) : byteLen (cs ++ cs') = byteLen cs + byteLen cs' := by
  simp [byteLen]

/-- A slice whose ends are between characters -/
theorem slice_eq {s : String} {front inner rest : List Char}
    (h : s.toList = front ++ inner ++ rest) :
    slice s (byteLen front) (byteLen (front ++ inner)) = .ok (String.ofList inner) := by
  rw [slice, h, splitAtByte_append, Option.bind_some, splitAtByte_append]

end Text

namespace EventTransformer

/-- `evaluate_expression` with the slice that it takes -/
def evaluateSliced (expression : String) (data : Fields) : Except Fault (Option Value) :=
  if Text.startsWith expression "concat(" ∧ Text.endsWith expression ")" then do
    let inner ← Text.slice expression 7 (Text.byteLen expression.toList - 1)
    let fields := (Text.split ',' inner).map Text.trim
    .ok (some (.string (Text.join (fields.map (concatPart data)) "")))
  else .ok none

/-- What stands between the brackets of a `concat` -/
theorem exists_inner {expression : String} (hstart : Text.startsWith expression "concat(" = true)
    (hend : Text.endsWith expression ")" = true) :
    ∃ inner, expression.toList = "concat(".toList ++ inner ++ [')'] := by
  rw [Text.startsWith, List.isPrefixOf_iff_prefix] at hstart
  rw [Text.endsWith, List.isSuffixOf_iff_suffix] at hend
  obtain ⟨rest, hrest⟩ := hstart
  obtain ⟨front, hfront⟩ := hend
  have hlast : ("concat(".toList ++ rest).getLast? = some ')' := by
    rw [hrest, ← hfront]
    exact List.getLast?_concat
  rcases List.eq_nil_or_concat rest with rfl | ⟨inner, c, hconcat⟩
  · -- the last character would be the opening bracket
    simp at hlast
  · rw [List.concat_eq_append] at hconcat
    rw [hconcat, ← List.append_assoc, List.getLast?_concat] at hlast
    obtain rfl := Option.some.inj hlast
    exact ⟨inner, by rw [← hrest, hconcat, List.append_assoc]⟩

/-- **The slice of a `concat` is defined.** -/
theorem evaluateExpression_sliced (expression : String) (data : Fields) :
    evaluateSliced expression data = .ok (evaluateExpression expression data) := by
  rw [evaluateSliced, evaluateExpression]
  split
  · next hconcat =>
    obtain ⟨inner, hinner⟩ := exists_inner hconcat.1 hconcat.2
    have hstop : Text.byteLen expression.toList - 1 = Text.byteLen ("concat(".toList ++ inner) := by
      rw [hinner, Text.byteLen_append]
      rfl
    have hslice : Text.slice expression 7 (Text.byteLen expression.toList - 1) =
        .ok (String.ofList inner) := by
      rw [hstop]
      exact Text.slice_eq hinner
    have hdrop : (expression.toList.drop 7).dropLast = inner := by
      rw [hinner]
      simp
    rw [hslice, hdrop]
    rfl
  · rfl

/-! ## Conversions -/

/-- The value is a number, or the text of a finite one. -/
def IsNumeric (value : Value) : Prop :=
  (∃ n, value = .number n) ∨ ∃ s x, value = .string s ∧ F64.parse s = some (.finite x)

/-- The value is a text that reads as an infinity or as no number at all. -/
def IsNonFinite (value : Value) : Prop := ∃ s, value = .string s ∧ F64.parse s = some .nonFinite

/-- `convert_type` has a result. -/
def Convertible (value : Value) (toType : String) : Prop :=
  toType = "string" ∨ toType = "boolean" ∨ toType = "array" ∨ toType = "number" ∧ IsNumeric value

section

variable {rt : Runtime} {value : Value} {toType : String}

theorem convertType_total (h : toType = "string" ∨ toType = "boolean" ∨ toType = "array") :
    ∃ converted, convertType rt value toType = .ok converted := by
  rcases h with rfl | rfl | rfl
  · cases value with
    | string s => exact ⟨_, rfl⟩
    | number n => exact ⟨_, rfl⟩
    | bool b => exact ⟨_, rfl⟩
    | _ => exact ⟨_, rfl⟩
  · cases value with
    | bool b => exact ⟨_, rfl⟩
    | string s => exact ⟨_, rfl⟩
    | number n => exact ⟨_, rfl⟩
    | _ => exact ⟨_, rfl⟩
  · cases value with
    | array xs => exact ⟨_, rfl⟩
    | _ => exact ⟨_, rfl⟩

theorem convertType_unknown (hstring : toType ≠ "string") (hnumber : toType ≠ "number")
    (hboolean : toType ≠ "boolean") (harray : toType ≠ "array") :
    convertType rt value toType = pipelineError s!"Unknown type conversion: {toType}" := by
  unfold convertType
  split
  · exact absurd rfl hstring
  · exact absurd rfl hnumber
  · exact absurd rfl hboolean
  · exact absurd rfl harray
  · rfl

theorem convertType_number_ok :
    (∃ converted, convertType rt value "number" = .ok converted) ↔ IsNumeric value := by
  cases value with
  | string s =>
    cases hparse : F64.parse s with
    | none => simp [convertType, pipelineError, IsNumeric, hparse]
    | some parsed =>
      cases parsed with
      | finite x => simp [convertType, IsNumeric, hparse]
      | nonFinite => simp [convertType, IsNumeric, hparse]
  | _ => simp [convertType, pipelineError, IsNumeric]

theorem convertType_number_panic :
    convertType rt value "number" = .error .panic ↔ IsNonFinite value := by
  cases value with
  | string s =>
    cases hparse : F64.parse s with
    | none => simp [convertType, pipelineError, IsNonFinite, hparse]
    | some parsed =>
      cases parsed with
      | finite x => simp [convertType, IsNonFinite, hparse]
      | nonFinite => simp [convertType, IsNonFinite, hparse]
  | _ => simp [convertType, pipelineError, IsNonFinite]

theorem convertType_ok_iff :
    (∃ converted, convertType rt value toType = .ok converted) ↔ Convertible value toType := by
  constructor
  · rintro ⟨converted, hok⟩
    by_contra hnot
    simp only [Convertible, not_or] at hnot
    obtain ⟨hstring, hboolean, harray, hnumber⟩ := hnot
    have hne : toType ≠ "number" := by
      rintro rfl
      exact hnumber ⟨rfl, convertType_number_ok.mp ⟨converted, hok⟩⟩
    rw [convertType_unknown hstring hne hboolean harray] at hok
    cases hok
  · rintro (hstring | hboolean | harray | ⟨rfl, hnumeric⟩)
    · exact convertType_total (.inl hstring)
    · exact convertType_total (.inr (.inl hboolean))
    · exact convertType_total (.inr (.inr harray))
    · exact convertType_number_ok.mpr hnumeric

theorem convertType_panic_iff :
    convertType rt value toType = .error .panic ↔ toType = "number" ∧ IsNonFinite value := by
  constructor
  · intro hpanic
    have hnot : ¬ Convertible value toType := by
      rw [← @convertType_ok_iff rt]
      rintro ⟨converted, hok⟩
      rw [hpanic] at hok
      cases hok
    simp only [Convertible, not_or] at hnot
    by_cases hnumber : toType = "number"
    · subst hnumber
      exact ⟨rfl, convertType_number_panic.mp hpanic⟩
    · rw [convertType_unknown hnot.1 hnumber hnot.2.1 hnot.2.2.1] at hpanic
      cases hpanic
  · rintro ⟨rfl, hnonFinite⟩
    exact convertType_number_panic.mpr hnonFinite

/-! ## Where a conversion is reached -/

variable {data : Fields} {ts : List FieldTransform} {removed : List String} {f : Fault}

/-- After these transforms comes a conversion of this value: none of them takes the field away. -/
def Reaches (data : Fields) (removed : List String) (ts before : List FieldTransform)
    (toType : String) (value : Value) : Prop :=
  ∃ field after, ts = before ++ .convert field toType :: after ∧
    field ∉ removed ++ takenBy before ∧ data.get field = some value

variable {t : FieldTransform} {before : List FieldTransform}

/-- Only a conversion of a field that is left can fail. -/
theorem output_error_iff : output rt (without removed data) t = .error f ↔
    ∃ field toType value, t = .convert field toType ∧ field ∉ removed ∧
      data.get field = some value ∧ convertType rt value toType = .error f := by
  cases t with
  | convert field toType =>
    rw [output, get_without]
    by_cases hremoved : field ∈ removed
    · simp [hremoved]
    · cases hget : data.get field with
      | none => simp [hremoved, hget]
      | some value =>
        rw [if_neg hremoved]
        cases hconvert : convertType rt value toType with
        | ok converted => simp [Except.map, hget, hconvert]
        | error e => simp [Except.map, hremoved, hget, hconvert]
  | _ => simp [output]

theorem not_reaches_nil {toType : String} {value : Value} :
    ¬ Reaches data removed [] before toType value := by
  rintro ⟨field, after, hsplit, -⟩
  cases before <;> cases hsplit

theorem reaches_head {toType : String} {value : Value} :
    Reaches data removed (t :: ts) [] toType value ↔
      ∃ field, t = .convert field toType ∧ field ∉ removed ∧ data.get field = some value := by
  simp [Reaches, append_takenBy_nil]

theorem reaches_cons {toType : String} {value : Value} :
    Reaches data removed (t :: ts) (t :: before) toType value ↔
      Reaches data (removed ++ takes t) ts before toType value := by
  simp only [Reaches, append_takenBy_cons, List.cons_append, List.cons.injEq, true_and]

/-- The first conversion without a result fails like this. -/
def FirstFails (rt : Runtime) (data : Fields) (removed : List String) (ts : List FieldTransform)
    (f : Fault) : Prop :=
  ∃ before toType value, Reaches data removed ts before toType value ∧
    convertType rt value toType = .error f ∧
    ∀ before' toType' value', Reaches data removed before before' toType' value' →
      Convertible value' toType'

/-- A conversion that fails is no conversion with a result. -/
theorem not_convertible {toType : String} (h : convertType rt value toType = .error f) :
    ¬ Convertible value toType := by
  rw [← @convertType_ok_iff rt]
  rintro ⟨converted, hok⟩
  rw [h] at hok
  cases hok

/-- Where the first transform fails, the others do not count. -/
theorem firstFails_head {field toType : String} {e : Fault} (hleft : field ∉ removed)
    (hget : data.get field = some value) (hfails : convertType rt value toType = .error e) :
    FirstFails rt data removed (.convert field toType :: ts) f ↔ e = f := by
  have hreaches : ∀ us, Reaches data removed (.convert field toType :: us) [] toType value := by
    intro us
    exact reaches_head.mpr ⟨field, rfl, hleft, hget⟩
  constructor
  · rintro ⟨before, toType', value', hreached, hfails', hearlier⟩
    cases before with
    | nil =>
      obtain ⟨field', hsame, -, hget'⟩ := reaches_head.mp hreached
      cases hsame
      rw [hget] at hget'
      cases hget'
      rw [hfails] at hfails'
      exact Except.error.inj hfails'
    | cons t' before =>
      obtain ⟨field', after, hsplit, -⟩ := id hreached
      cases (List.cons.inj hsplit).1
      exact absurd (hearlier [] toType value (hreaches before)) (not_convertible hfails)
  · rintro rfl
    refine ⟨[], toType, value, hreaches ts, hfails, ?_⟩
    intro before' toType' value' hreached
    exact absurd hreached not_reaches_nil

/-- A first transform with a result leaves it to the others. -/
theorem firstFails_tail (hok : ∀ toType value, Reaches data removed (t :: ts) [] toType value →
      Convertible value toType) :
    FirstFails rt data removed (t :: ts) f ↔ FirstFails rt data (removed ++ takes t) ts f := by
  constructor
  · rintro ⟨before, toType, value, hreaches, hfails, hearlier⟩
    cases before with
    | nil => exact absurd (hok toType value hreaches) (not_convertible hfails)
    | cons t' before =>
      obtain ⟨field, after, hsplit, -⟩ := id hreaches
      cases (List.cons.inj hsplit).1
      refine ⟨before, toType, value, reaches_cons.mp hreaches, hfails, ?_⟩
      intro before' toType' value' hreaches'
      exact hearlier (t :: before') toType' value' (reaches_cons.mpr hreaches')
  · rintro ⟨before, toType, value, hreaches, hfails, hearlier⟩
    refine ⟨t :: before, toType, value, reaches_cons.mpr hreaches, hfails, ?_⟩
    intro before' toType' value' hreaches'
    cases before' with
    | nil =>
      apply hok toType' value'
      rw [reaches_head] at hreaches' ⊢
      exact hreaches'
    | cons t' before' =>
      obtain ⟨field, after, hsplit, -⟩ := id hreaches'
      cases (List.cons.inj hsplit).1
      exact hearlier before' toType' value' (reaches_cons.mp hreaches')

theorem outputs_cons_error_iff {first : Option (String × Value)}
    (hfirst : output rt (without removed data) t = .ok first) :
    outputs rt data removed (t :: ts) = .error f ↔
      outputs rt data (removed ++ takes t) ts = .error f := by
  rw [outputs, hfirst]
  show (outputs rt data (removed ++ takes t) ts >>= fun rest =>
    pure (first.toList ++ rest)) = .error f ↔ _
  cases outputs rt data (removed ++ takes t) ts with
  | error e => exact Iff.rfl
  | ok rest =>
    constructor
    · intro h
      cases h
    · intro h
      cases h

/-- The first conversion without a result is the one that counts. -/
theorem outputs_error_iff :
    outputs rt data removed ts = .error f ↔ FirstFails rt data removed ts f := by
  induction ts generalizing removed with
  | nil =>
    constructor
    · intro h
      cases h
    · rintro ⟨before, toType, value, hreaches, -⟩
      exact absurd hreaches not_reaches_nil
  | cons t ts ih =>
    cases hfirst : output rt (without removed data) t with
    | error e =>
      obtain ⟨field, toType, value, rfl, hleft, hget, hfails⟩ := output_error_iff.mp hfirst
      have houtputs : outputs rt data removed (.convert field toType :: ts) = .error e := by
        rw [outputs, hfirst]
        rfl
      rw [houtputs, firstFails_head hleft hget hfails]
      simp
    | ok first =>
      rw [outputs_cons_error_iff hfirst, ih, firstFails_tail]
      intro toType value hreaches
      obtain ⟨field, rfl, hleft, hget⟩ := reaches_head.mp hreaches
      rw [← @convertType_ok_iff rt]
      cases hconvert : convertType rt value toType with
      | ok converted => exact ⟨converted, rfl⟩
      | error e =>
        rw [output_error_iff.mpr ⟨field, toType, value, rfl, hleft, hget, hconvert⟩] at hfirst
        cases hfirst

/-- A text that is no number is converted, and every conversion before it has a result. -/
def Panics (data : Fields) (ts : List FieldTransform) : Prop :=
  ∃ before value, Reaches data [] ts before "number" value ∧ IsNonFinite value ∧
    ∀ before' toType' value', Reaches data [] before before' toType' value' →
      Convertible value' toType'

theorem transformFields_panic_iff {fieldConfig : Dict FieldTransform} :
    transformFields rt data fieldConfig = .error .panic ↔
      Panics data (fieldConfig.entries.map (·.2)) := by
  rw [transformFields_rowOf, rowOf_eq_error, outputs_error_iff]
  constructor
  · rintro ⟨before, toType, value, hreaches, hpanic, hearlier⟩
    obtain ⟨rfl, hnonFinite⟩ := convertType_panic_iff.mp hpanic
    exact ⟨before, value, hreaches, hnonFinite, hearlier⟩
  · rintro ⟨before, value, hreaches, hnonFinite, hearlier⟩
    exact ⟨before, "number", value, hreaches, convertType_panic_iff.mpr ⟨rfl, hnonFinite⟩,
      hearlier⟩

end

/-! ## Events -/

/-- The row that the field transforms of a table rewrite -/
def fieldRow : Event → Option (String × Fields)
  | .cdc e => some (e.table, e.data)
  | .fullSync table (.object obj) => some (table, obj)
  | _ => none

section

variable {rt : Runtime} {t : EventTransformer}

theorem answers_iff {α : Type} {x : Except Fault α} :
    (∃ r : Result α, x = r.toFault) ↔ x ≠ .error .panic := by
  constructor
  · rintro ⟨r, rfl⟩ hpanic
    cases r with
    | error e => cases hpanic
    | ok a => cases hpanic
  · intro hne
    cases x with
    | ok a => exact ⟨.ok a, rfl⟩
    | error f =>
      cases f with
      | err e => exact ⟨.error e, rfl⟩
      | panic => exact absurd rfl hne

theorem applyFieldConfig_panic_iff {table : String} {data : Fields} :
    applyFieldConfig rt t table data = .error .panic ↔
      ∃ fieldConfig, t.config.fields.lookup table = some fieldConfig ∧
        Panics data (fieldConfig.entries.map (·.2)) := by
  rw [applyFieldConfig]
  cases hconfig : t.config.fields.lookup table with
  | none => simp
  | some fieldConfig =>
    show transformFields rt data fieldConfig = .error .panic ↔ _
    rw [transformFields_panic_iff]
    simp

/-- What follows does not fail. -/
theorem bind_eq_error {α β : Type} {x : Except Fault α} {g : α → Except Fault β} {h : α → β}
    (hg : ∀ a, g a = .ok (h a)) {f : Fault} : (x >>= g) = .error f ↔ x = .error f := by
  cases x with
  | error f' =>
    show Except.error f' = .error f ↔ _
    simp
  | ok a =>
    show g a = .error f ↔ _
    simp [hg]

/-- Only the field transforms panic. -/
theorem transform_panic_iff {e : Event} : t.transform rt e = .error .panic ↔
    ∃ table data, fieldRow e = some (table, data) ∧
      applyFieldConfig rt t table data = .error .panic := by
  cases e with
  | cdc e =>
    rw [transform, bind_eq_error fun data => by rw [applyGlobalTransforms_eq]; rfl]
    simp [fieldRow]
  | fullSync table data =>
    cases data with
    | object obj =>
      rw [transform, bind_eq_error fun data => rfl]
      simp [fieldRow]
    | _ => simp [transform, fieldRow]
  | _ => simp [transform, fieldRow]

end

/-- **The transformer answers, unless it converts the text of an infinity.** The slices of `concat`
are all defined; a call returns exactly when no conversion to a number comes to a text that is an
infinity or no number at all. -/
theorem transform_answers_iff (rt : Runtime) (t : EventTransformer) (e : Event) :
    (∀ expression data, evaluateSliced expression data = .ok (evaluateExpression expression data)) ∧
    ((∃ r : Result (Option Event), t.transform rt e = r.toFault) ↔
      ∀ table data, fieldRow e = some (table, data) →
        ∀ fieldConfig, t.config.fields.lookup table = some fieldConfig →
          ¬ Panics data (fieldConfig.entries.map (·.2))) := by
  refine ⟨evaluateExpression_sliced, ?_⟩
  rw [answers_iff, Ne, transform_panic_iff]
  constructor
  · intro hnot table data hrow fieldConfig hconfig hpanics
    apply hnot
    exact ⟨table, data, hrow, applyFieldConfig_panic_iff.mpr ⟨fieldConfig, hconfig, hpanics⟩⟩
  · rintro hnever ⟨table, data, hrow, hpanic⟩
    obtain ⟨fieldConfig, hconfig, hpanics⟩ := applyFieldConfig_panic_iff.mp hpanic
    exact hnever table data hrow fieldConfig hconfig hpanics

/-- A column of type text holds `inf`, which the transform of its table makes a number. -/
theorem transformer_may_panic :
    ¬ ∀ (rt : Runtime) (t : EventTransformer) (e : Event),
      ∃ r : Result (Option Event), t.transform rt e = r.toFault := by
  intro h
  have hnonFinite : F64.parse "inf" = some .nonFinite := by rfl
  have hanswers := answers_iff.mp (h ⟨id, id, ""⟩
    ⟨⟨⟨[⟨"items", ⟨[⟨"1", .convert "price" "number"⟩], List.nodupKeys_singleton _⟩⟩],
      List.nodupKeys_singleton _⟩, none⟩⟩
    (.fullSync "items" (.object [("price", .string "inf")])))
  apply hanswers
  rw [transform_panic_iff]
  refine ⟨"items", [("price", .string "inf")], rfl, ?_⟩
  rw [applyFieldConfig_panic_iff]
  refine ⟨_, rfl, [], .string "inf", ⟨"price", [], rfl, List.not_mem_nil, rfl⟩,
    ⟨"inf", rfl, hnonFinite⟩, ?_⟩
  intro before' toType' value' hreaches
  exact absurd hreaches not_reaches_nil

end EventTransformer

end MeiliBridge
