import MeiliBridge.Pipeline.TransformOrder

/-!
# The hash order

Which rows come out the same whatever order the hash maps of a table are iterated in. A mapping is
settled by its entries two by two; for the transforms it takes what the row may hold at each key,
since a rename decides what the others find.
-/

set_option autoImplicit false

namespace MeiliBridge

namespace EventTransformer

/-! ## What the orders leave at a key -/

/-- A rename that writes another field than this one -/
def movesElsewhere (key : String) : FieldTransform → Bool
  | .rename _ target => target ≠ key
  | _ => false

/-- What the row may hold at a key, of a row that no transform refuses. A transform writes it once
some fields are gone, if none of the fields left then has to be moved there; or the field keeps what
it has, if no transform writes it once all that can be moved elsewhere is. -/
inductive KeyOutcome (rt : Runtime) (data : Fields) (ts : List FieldTransform) (key : String) :
    Option Value → Prop
  | written {t : FieldTransform} {gone : List String} {v : Value} (hmem : t ∈ ts)
      (hgone : gone ⊆ takenBy ts) (hwrites : Writes rt data gone t key v)
      (hleft : ∀ s, .rename s key ∈ ts → data.containsKey s = true → s ∉ gone → s ∉ takes t →
        ∃ elsewhere, elsewhere ≠ key ∧ .rename s elsewhere ∈ ts) :
      KeyOutcome rt data ts key (some v)
  | kept (h : ∀ t ∈ ts, ∀ v,
      ¬ Writes rt data (takenBy (ts.filter (movesElsewhere key))) t key v) :
      KeyOutcome rt data ts key (if key ∈ takenBy ts then none else data.get key)

/-- **The order does not matter**: a field that stays is refused, and all that are refused are
refused alike; or none is, and one thing can come of each key. -/
def OneOutcome (rt : Runtime) (data : Fields) (ts : List FieldTransform) : Prop :=
  (∃ f, (∃ field toType, .convert field toType ∈ ts ∧ field ∉ takenBy ts ∧
      Refuses rt data (.convert field toType) f) ∧
    ∀ t ∈ ts, ∀ f', Refuses rt data t f' → f' = f) ∨
  (∀ t ∈ ts, ∀ f, ¬ Refuses rt data t f) ∧
    ∀ key o o', KeyOutcome rt data ts key o → KeyOutcome rt data ts key o' → o = o'

section

variable {rt : Runtime} {data : Fields} {ts ts' : List FieldTransform} {key : String}
  {t : FieldTransform} {written : Fields} {removed : List String}

theorem mem_takenBy_perm (hperm : ts'.Perm ts) {s : String} : s ∈ takenBy ts' ↔ s ∈ takenBy ts := by
  simp only [mem_takenBy, hperm.mem_iff]

theorem mem_takenBy_elsewhere {s : String} : s ∈ takenBy (ts.filter (movesElsewhere key)) ↔
    ∃ elsewhere, elsewhere ≠ key ∧ .rename s elsewhere ∈ ts := by
  simp [mem_takenBy, movesElsewhere, and_comm]

/-- Where no transform refuses the row, none does once fields are gone. -/
theorem outputs_of_not_refused (h : ∀ t ∈ ts, ∀ f, ¬ Refuses rt data t f) (removed : List String) :
    ∃ written, outputs rt data removed ts = .ok written := by
  apply outputs_ok
  intro t ht removed' _ f hrefused
  obtain ⟨-, -, -, -, hrefuses⟩ := refuses_without hrefused
  exact h t ht f hrefuses

/-! ## The row at a key -/

theorem get_includeRemaining (data result : Fields) (key : String) :
    (includeRemaining data result).get key = (result.get key).or (data.get key) := by
  have hsame : includeRemaining data result = FieldMapper.includeUnmapped data result [] := by
    rw [includeRemaining, FieldMapper.includeUnmapped]
    congr 1
    funext acc e
    by_cases hthere : acc.containsKey e.1 = true
    · simp [hthere]
    · simp [hthere]
  rw [hsame, FieldMapper.get_includeUnmapped, if_neg List.not_mem_nil]

theorem rowOf_eq_ok {row : Fields} (h : rowOf rt data ts = .ok row) :
    ∃ written, outputs rt data [] ts = .ok written ∧
      row = includeRemaining (without (takenBy ts) data) (Fields.insertAll [] written) := by
  rw [rowOf] at h
  cases hwritten : outputs rt data [] ts with
  | error f =>
    rw [hwritten] at h
    cases h
  | ok written =>
    rw [hwritten] at h
    exact ⟨written, rfl, (Except.ok.inj h).symm⟩

theorem ordered_row {row : Fields} (h : rowOf rt data ts = .ok row) : row.Ordered := by
  obtain ⟨written, -, rfl⟩ := rowOf_eq_ok h
  apply (Fields.ordered_nil.insertAll written).foldl
  intro acc e hacc
  show Fields.Ordered (if acc.containsKey e.1 then acc else acc.insert e.1 e.2)
  split
  · exact hacc
  · exact hacc.insert _ _

/-- **What an order leaves at a key is one of the outcomes.** -/
theorem outcome_of_order (hperm : ts'.Perm ts) {row : Fields} (h : rowOf rt data ts' = .ok row)
    (key : String) : KeyOutcome rt data ts key (row.get key) := by
  obtain ⟨written, hwritten, rfl⟩ := rowOf_eq_ok h
  rw [get_includeRemaining]
  cases hget : (Fields.insertAll [] written).get key with
  | some v =>
    obtain ⟨before, after, rest, t, rfl, hwrites, hafter, hnot⟩ := last_write hwritten hget
    rw [List.nil_append] at hwrites hafter
    have ht : t ∈ ts := hperm.subset (List.mem_append_right before List.mem_cons_self)
    refine .written ht ?_ hwrites ?_
    · intro s hs
      rw [← mem_takenBy_perm hperm, takenBy_append]
      exact List.mem_append_left _ hs
    · intro s hrename hpresent hstays hother
      have hmem := hperm.symm.subset hrename
      -- it is not renamed before, nor by the transform itself
      have hlater : .rename s key ∈ after := by
        rcases List.mem_append.mp hmem with hbefore | hmem
        · exact absurd (mem_takenBy.mpr ⟨key, hbefore⟩) hstays
        · rcases List.mem_cons.mp hmem with rfl | hlater
          · exact absurd (List.mem_singleton_self s) hother
          · exact hlater
      have hleft : s ∉ takenBy before ++ takes t := by
        rw [List.mem_append]
        exact not_or.mpr ⟨hstays, hother⟩
      obtain ⟨elsewhere, hne, hin⟩ := moved_elsewhere hafter hnot hlater hleft hpresent
      exact ⟨elsewhere, hne, hperm.subset (List.mem_append_right _ (List.mem_cons_of_mem t hin))⟩
  | none =>
    rw [Option.none_or, get_without]
    simp only [mem_takenBy_perm hperm]
    rw [Fields.get_insertAll_eq_none_iff] at hget
    refine .kept fun t ht v hwrites => ?_
    obtain ⟨before, after, rfl⟩ := List.append_of_mem (hperm.symm.subset ht)
    -- what is gone when its turn comes has been moved elsewhere
    have hgone : ∀ s ∈ takenBy before, data.containsKey s = true →
        s ∈ takenBy (ts.filter (movesElsewhere key)) := by
      intro s hs hpresent
      obtain ⟨target, htarget⟩ := mem_takenBy.mp hs
      obtain ⟨elsewhere, hne, hin⟩ := moved_elsewhere hwritten hget
        (List.mem_append_left _ htarget) List.not_mem_nil hpresent
      exact mem_takenBy_elsewhere.mpr ⟨elsewhere, hne, hperm.subset hin⟩
    obtain ⟨v', hwrites'⟩ := hwrites.of_fewer hgone
    exact not_writes_of_not_mem hwritten hget v' hwrites'

/-! ## Orders that leave an outcome -/

theorem rowOf_ok (h : outputs rt data [] ts = .ok written) :
    rowOf rt data ts =
      .ok (includeRemaining (without (takenBy ts) data) (Fields.insertAll [] written)) := by
  rw [rowOf, h]
  rfl

/-- A transform whose write none of the later ones replaces -/
theorem row_of_last {before after : List FieldTransform} {first rest : Fields} {v : Value}
    (hbefore : outputs rt data [] before = .ok first)
    (hwrites : Writes rt data (takenBy before) t key v)
    (hafter : outputs rt data (takenBy before ++ takes t) after = .ok rest)
    (hnot : key ∉ rest.map Prod.fst) :
    ∃ row, rowOf rt data (before ++ t :: after) = .ok row ∧ row.get key = some v := by
  have hlast : outputs rt data (takenBy before) (t :: after) = .ok ((key, v) :: rest) := by
    rw [outputs, hwrites]
    show (outputs rt data (takenBy before ++ takes t) after >>= _) = _
    rw [hafter]
    rfl
  refine ⟨_, rowOf_ok (outputs_append hbefore hlast), ?_⟩
  rw [get_includeRemaining, Fields.insertAll_append]
  show ((Fields.insertAll (Fields.insert key v _) rest).get key).or _ = _
  rw [Fields.get_insertAll_of_not_mem hnot, Fields.get_insert, if_pos rfl, Option.some_or]

/-- The renames of the fields that are not among these -/
def stays (gone : List String) : FieldTransform → Bool
  | .rename source _ => source ∉ gone
  | _ => false

/-- The renames to other fields do not write this one. -/
theorem not_writes_of_elsewhere (h : movesElsewhere key t = true) (removed : List String)
    (v : Value) : ¬ Writes rt data removed t key v := by
  cases t with
  | rename source target =>
    intro hwrites
    obtain ⟨-, -, rfl⟩ := writes_rename_iff.mp hwrites
    simp [movesElsewhere] at h
  | _ => cases h

section

variable {others : List FieldTransform} {gone : List String} {v : Value}

theorem rename_mem_stays {s target : String} :
    .rename s target ∈ others.filter (stays gone) ↔ .rename s target ∈ others ∧ s ∉ gone := by
  simp [stays, List.mem_filter]

/-- What does not stay takes out these fields. -/
theorem mem_takenBy_early (hgone : gone ⊆ takenBy (t :: others))
    (hwrites : Writes rt data gone t key v) (s : String) :
    s ∈ takenBy (others.filter fun t' => !stays gone t') ↔ s ∈ gone := by
  constructor
  · intro hs
    obtain ⟨target, hrename⟩ := mem_takenBy.mp hs
    simpa [stays] using List.of_mem_filter hrename
  · intro hs
    obtain ⟨target, hrename⟩ := mem_takenBy.mp (hgone hs)
    rcases List.mem_cons.mp hrename with rfl | hrename
    · exact absurd hs (writes_rename_iff.mp hwrites).1
    · exact mem_takenBy.mpr ⟨target, List.mem_filter.mpr ⟨hrename, by simp [stays, hs]⟩⟩

/-- After the renames to other fields, the ones to the key find nothing left. -/
theorem not_writes_late {t' : FieldTransform}
    (hleft : ∀ s, .rename s key ∈ others → data.containsKey s = true → s ∉ gone → s ∉ takes t →
      ∃ elsewhere, elsewhere ≠ key ∧ .rename s elsewhere ∈ others)
    (hmem : t' ∈ others.filter (stays gone)) (htakes : takes t ⊆ removed)
    (hmoved : takenBy ((others.filter (stays gone)).filter (movesElsewhere key)) ⊆ removed) :
    ¬ Writes rt data removed t' key v := by
  intro hwrites
  cases t' with
  | rename s target =>
    obtain ⟨hstays, hvalue, rfl⟩ := writes_rename_iff.mp hwrites
    obtain ⟨hother, hs⟩ := rename_mem_stays.mp hmem
    have hpresent : data.containsKey s = true := by simp [Fields.containsKey, hvalue]
    obtain ⟨elsewhere, hne, hin⟩ := hleft s hother hpresent hs fun hmem => hstays (htakes hmem)
    apply hstays
    apply hmoved
    rw [mem_takenBy]
    exact ⟨elsewhere, List.mem_filter.mpr
      ⟨rename_mem_stays.mpr ⟨hin, hs⟩, by simp [movesElsewhere, hne]⟩⟩
  | _ => exact absurd (List.of_mem_filter hmem) Bool.false_ne_true

/-- What takes the fields out comes first, and of the renames after it the ones to other fields. -/
theorem order_written (hnone : ∀ t' ∈ others, ∀ f, ¬ Refuses rt data t' f)
    (hgone : gone ⊆ takenBy (t :: others)) (hwrites : Writes rt data gone t key v)
    (hleft : ∀ s, .rename s key ∈ others → data.containsKey s = true → s ∉ gone → s ∉ takes t →
      ∃ elsewhere, elsewhere ≠ key ∧ .rename s elsewhere ∈ others) :
    ∃ ts', ts'.Perm (t :: others) ∧ ∃ row, rowOf rt data ts' = .ok row ∧ row.get key = some v := by
  -- renames of fields that have to stay come last, and of these the ones that write `key`; whatever
  -- else there is goes before `t`
  let early := others.filter fun t' => !stays gone t'
  let late := others.filter (stays gone)
  let elsewhere := late.filter (movesElsewhere key)
  let there := late.filter fun t' => !movesElsewhere key t'
  have hsub {p : FieldTransform → Bool} {t' : FieldTransform} (h : t' ∈ others.filter p) :
      ∀ f, ¬ Refuses rt data t' f := hnone t' (List.mem_of_mem_filter h)
  have hwrites' : Writes rt data (takenBy early) t key v := by
    rw [Writes, without_congr (mem_takenBy_early hgone hwrites)]
    exact hwrites
  obtain ⟨first, hfirst⟩ := outputs_of_not_refused (fun t' (ht' : t' ∈ early) => hsub ht') []
  obtain ⟨moved, hmoved⟩ := outputs_of_not_refused
    (fun t' (ht' : t' ∈ elsewhere) => hsub (List.mem_of_mem_filter ht')) (takenBy early ++ takes t)
  obtain ⟨rest, hrest⟩ := outputs_of_not_refused
    (fun t' (ht' : t' ∈ there) => hsub (List.mem_of_mem_filter ht'))
    (takenBy early ++ takes t ++ takenBy elsewhere)
  have hnot_moved : key ∉ moved.map Prod.fst :=
    not_written (fun t' ht' removed' _ => not_writes_of_elsewhere (List.of_mem_filter ht') removed')
      hmoved
  have hnot_rest : key ∉ rest.map Prod.fst := by
    refine not_written (fun t' ht' removed' hremoved v' => ?_) hrest
    apply not_writes_late hleft (List.mem_of_mem_filter ht')
    · exact fun s hs => hremoved (List.mem_append_left _ (List.mem_append_right _ hs))
    · exact fun s hs => hremoved (List.mem_append_right _ hs)
  have hafter := outputs_append hmoved hrest
  have hnot : key ∉ (moved ++ rest).map Prod.fst := by
    rw [List.map_append, List.mem_append]
    exact not_or.mpr ⟨hnot_moved, hnot_rest⟩
  refine ⟨early ++ t :: (elsewhere ++ there), ?_, row_of_last hfirst hwrites' hafter hnot⟩
  have hlate : (elsewhere ++ there).Perm late := List.filter_append_perm _ _
  have hothers : (early ++ late).Perm others :=
    List.perm_append_comm.trans (List.filter_append_perm _ _)
  exact List.perm_middle.trans (((hlate.append_left early).trans hothers).cons t)

end

/-- All that can be moved elsewhere is moved first. -/
theorem order_kept (hnone : ∀ t ∈ ts, ∀ f, ¬ Refuses rt data t f)
    (h : ∀ t ∈ ts, ∀ v, ¬ Writes rt data (takenBy (ts.filter (movesElsewhere key))) t key v) :
    ∃ ts', ts'.Perm ts ∧ ∃ row, rowOf rt data ts' = .ok row ∧
      row.get key = if key ∈ takenBy ts then none else data.get key := by
  let elsewhere := ts.filter (movesElsewhere key)
  let there := ts.filter fun t => !movesElsewhere key t
  have hperm : (elsewhere ++ there).Perm ts := List.filter_append_perm _ _
  obtain ⟨moved, hmoved⟩ := outputs_of_not_refused
    (fun t (ht : t ∈ elsewhere) => hnone t (List.mem_of_mem_filter ht)) []
  obtain ⟨rest, hrest⟩ := outputs_of_not_refused
    (fun t (ht : t ∈ there) => hnone t (List.mem_of_mem_filter ht)) (takenBy elsewhere)
  have hnot_moved : key ∉ moved.map Prod.fst :=
    not_written (fun t ht removed' _ => not_writes_of_elsewhere (List.of_mem_filter ht) removed')
      hmoved
  have hnot_rest : key ∉ rest.map Prod.fst := by
    refine not_written (fun t ht removed' hremoved v hwritten => ?_) hrest
    obtain ⟨v', hwritten'⟩ := hwritten.of_fewer fun s hs _ => hremoved hs
    exact h t (List.mem_of_mem_filter ht) v' hwritten'
  refine ⟨elsewhere ++ there, hperm, _, rowOf_ok (outputs_append hmoved hrest), ?_⟩
  have hnone' : (Fields.insertAll [] (moved ++ rest)).get key = none := by
    rw [Fields.get_insertAll_eq_none_iff, List.map_append, List.mem_append]
    exact not_or.mpr ⟨hnot_moved, hnot_rest⟩
  rw [get_includeRemaining, hnone', Option.none_or, get_without]
  simp only [mem_takenBy_perm hperm]

/-- **Each outcome is left by an order.** -/
theorem KeyOutcome.exists_order {o : Option Value} (h : KeyOutcome rt data ts key o)
    (hnone : ∀ t ∈ ts, ∀ f, ¬ Refuses rt data t f) :
    ∃ ts', ts'.Perm ts ∧ ∃ row, rowOf rt data ts' = .ok row ∧ row.get key = o := by
  cases h with
  | @written t gone v hmem hgone hwrites hleft =>
    obtain ⟨before, after, rfl⟩ := List.append_of_mem hmem
    have hperm : (t :: (before ++ after)).Perm (before ++ t :: after) := List.perm_middle.symm
    have hothers {t' : FieldTransform} (ht' : t' ∈ before ++ after) : t' ∈ before ++ t :: after :=
      hperm.subset (List.mem_cons_of_mem t ht')
    have hgone' : gone ⊆ takenBy (t :: (before ++ after)) := by
      intro s hs
      rw [mem_takenBy_perm hperm]
      exact hgone hs
    obtain ⟨ts', hts', row, hrow, hget⟩ :=
      order_written (fun t' ht' => hnone t' (hothers ht')) hgone' hwrites
        (fun s hrename hpresent hs htakes => by
          obtain ⟨elsewhere, hne, hin⟩ := hleft s (hothers hrename) hpresent hs htakes
          refine ⟨elsewhere, hne, ?_⟩
          rcases List.mem_cons.mp (hperm.symm.subset hin) with rfl | hin
          · exact absurd (List.mem_singleton_self s) htakes
          · exact hin)
    exact ⟨ts', hts'.trans hperm, row, hrow, hget⟩
  | kept h => exact order_kept hnone h

/-! ## Refusals -/

/-- A transform that refuses the row can come first. -/
theorem order_refused {f : Fault} (hmem : t ∈ ts) (h : Refuses rt data t f) :
    ∃ ts', ts'.Perm ts ∧ rowOf rt data ts' = .error f := by
  obtain ⟨before, after, rfl⟩ := List.append_of_mem hmem
  refine ⟨t :: (before ++ after), List.perm_middle.symm, rowOf_eq_error.mpr ?_⟩
  rw [outputs, without_nil, h]
  rfl

/-- The renames can come first. -/
theorem order_renamed (h : ∀ field toType, .convert field toType ∈ ts → field ∉ takenBy ts →
    ∀ f, ¬ Refuses rt data (.convert field toType) f) :
    ∃ ts', ts'.Perm ts ∧ ∃ row, rowOf rt data ts' = .ok row := by
  let renames := ts.filter fun t => !(takes t).isEmpty
  let others := ts.filter fun t => !(!(takes t).isEmpty)
  have hperm : (renames ++ others).Perm ts := List.filter_append_perm _ _
  obtain ⟨first, hfirst⟩ : ∃ first, outputs rt data [] renames = .ok first := by
    apply outputs_ok
    intro t ht removed' _ f hrefused
    obtain ⟨field, toType, rfl, -, -⟩ := refuses_without hrefused
    exact absurd (List.of_mem_filter ht) Bool.false_ne_true
  obtain ⟨rest, hrest⟩ : ∃ rest, outputs rt data (takenBy renames) others = .ok rest := by
    apply outputs_ok
    intro t ht removed' hremoved f hrefused
    obtain ⟨field, toType, rfl, hleft, hrefuses⟩ := refuses_without hrefused
    refine h field toType (List.mem_of_mem_filter ht) (fun htaken => hleft (hremoved ?_)) f hrefuses
    obtain ⟨target, htarget⟩ := mem_takenBy.mp htaken
    exact mem_takenBy.mpr ⟨target, List.mem_filter.mpr ⟨htarget, rfl⟩⟩
  exact ⟨_, hperm, _, rowOf_ok (outputs_append hfirst hrest)⟩

/-- A refused field that no rename takes is refused whenever its turn comes. -/
theorem outputs_refused {field toType : String} {f : Fault} (hmem : .convert field toType ∈ ts)
    (hstays : field ∉ removed ++ takenBy ts) (h : Refuses rt data (.convert field toType) f) :
    outputs rt data removed ts ≠ .ok written := by
  induction ts generalizing removed written with
  | nil => cases hmem
  | cons t ts ih =>
    intro hok
    obtain ⟨first, rest, hfirst, hrest, -⟩ := outputs_cons_ok hok
    rcases List.mem_cons.mp hmem with rfl | hmem
    · rw [h.without fun hremoved => hstays (List.mem_append_left _ hremoved)] at hfirst
      cases hfirst
    · rw [append_takenBy_cons] at hstays
      exact ih hmem hstays hrest

/-! ## Every order -/

theorem OneOutcome.rowOf_perm (h : OneOutcome rt data ts) (hperm : ts'.Perm ts) :
    rowOf rt data ts' = rowOf rt data ts := by
  rcases h with ⟨f, ⟨field, toType, hmem, hstays, hrefuses⟩, halike⟩ | ⟨hnone, hone⟩
  · have herror {us : List FieldTransform} (hus : us.Perm ts) : rowOf rt data us = .error f := by
      rw [rowOf_eq_error]
      cases hwritten : outputs rt data [] us with
      | ok written =>
        have hstays' : field ∉ [] ++ takenBy us := by
          rw [List.nil_append, mem_takenBy_perm hus]
          exact hstays
        exact absurd hwritten (outputs_refused (hus.symm.subset hmem) hstays' hrefuses)
      | error f' =>
        obtain ⟨t, ht, hrefuses'⟩ := outputs_error hwritten
        rw [halike t (hus.subset ht) f' hrefuses']
    rw [herror hperm, herror (List.Perm.refl ts)]
  · have hok {us : List FieldTransform} (hus : us.Perm ts) : ∃ row, rowOf rt data us = .ok row := by
      obtain ⟨written, hwritten⟩ :=
        outputs_of_not_refused (fun t ht => hnone t (hus.subset ht)) []
      exact ⟨_, rowOf_ok hwritten⟩
    obtain ⟨row', hrow'⟩ := hok hperm
    obtain ⟨row, hrow⟩ := hok (List.Perm.refl ts)
    have hsame : row' = row := by
      apply (ordered_row hrow').ext (ordered_row hrow)
      intro key
      exact hone key _ _ (outcome_of_order hperm hrow' key)
        (outcome_of_order (List.Perm.refl ts) hrow key)
    rw [hrow', hrow, hsame]

/-- **Every order makes the same row exactly where one thing can come of it.** -/
theorem rowOf_perm_iff : (∀ ts', ts'.Perm ts → rowOf rt data ts' = rowOf rt data ts) ↔
    OneOutcome rt data ts := by
  refine ⟨fun h => ?_, fun h ts' hperm => h.rowOf_perm hperm⟩
  by_cases hany : ∃ t ∈ ts, ∃ f, Refuses rt data t f
  · obtain ⟨t, ht, f, hrefuses⟩ := hany
    have herror {t : FieldTransform} {f : Fault} (ht : t ∈ ts) (hrefuses : Refuses rt data t f) :
        rowOf rt data ts = .error f := by
      obtain ⟨ts', hperm, hrow⟩ := order_refused ht hrefuses
      rw [← h ts' hperm, hrow]
    have halike : ∀ t' ∈ ts, ∀ f', Refuses rt data t' f' → f' = f := by
      intro t' ht' f' hrefuses'
      have hrow := herror ht' hrefuses'
      rw [herror ht hrefuses] at hrow
      exact (Except.error.inj hrow).symm
    refine .inl ⟨f, ?_, halike⟩
    by_contra hnot
    -- with the renames first there is no refusal
    obtain ⟨ts', hperm, row, hrow⟩ :=
      @order_renamed rt data ts fun field toType hmem hstays f' hr =>
        hnot ⟨field, toType, hmem, hstays, halike _ hmem f' hr ▸ hr⟩
    rw [h ts' hperm, herror ht hrefuses] at hrow
    cases hrow
  · have hnone : ∀ t ∈ ts, ∀ f, ¬ Refuses rt data t f := fun t ht f hrefuses =>
      hany ⟨t, ht, f, hrefuses⟩
    refine .inr ⟨hnone, fun key o o' ho ho' => ?_⟩
    obtain ⟨us, hperm, row, hrow, rfl⟩ := ho.exists_order hnone
    obtain ⟨us', hperm', row', hrow', rfl⟩ := ho'.exists_order hnone
    rw [h us hperm] at hrow
    rw [h us' hperm', hrow] at hrow'
    rw [Except.ok.inj hrow']

end

theorem transformFields_order_iff (rt : Runtime) (data : Fields)
    (fieldConfig : Dict FieldTransform) : (∀ other, Reordered fieldConfig other →
      transformFields rt data other = transformFields rt data fieldConfig) ↔
      OneOutcome rt data (fieldConfig.entries.map (·.2)) := by
  rw [← rowOf_perm_iff]
  constructor
  · intro h ts' hperm
    have hlift : Relation.Comp (fun ts' entries => ts' = entries.map (·.2)) List.Perm ts'
        fieldConfig.entries := by
      rw [List.eq_map_comp_perm]
      exact hperm
    obtain ⟨entries, rfl, hentries⟩ := hlift
    obtain ⟨other, hother, rfl⟩ := reordered_of_perm hentries
    have hrow := h other hother
    rw [transformFields_rowOf, transformFields_rowOf] at hrow
    exact hrow
  · intro h other hother
    rw [transformFields_rowOf, transformFields_rowOf]
    exact h _ (hother.map _)

end EventTransformer

/-! ## Mapping and transforming -/

/-- **When the hash order does not matter**: for the mappings, where the entries that write one
field write one value; for the transforms, where one thing can come of the row. -/
theorem hash_order_iff (rt : Runtime) (m : FieldMapper) (data : Fields) :
    (∀ fieldMappings : Dict FieldMapping,
      (∀ other, Reordered fieldMappings other →
        m.mapFields data other = m.mapFields data fieldMappings) ↔
        m.WritesAgree data fieldMappings.entries) ∧
      ∀ fieldConfig : Dict FieldTransform,
        (∀ other, Reordered fieldConfig other →
          EventTransformer.transformFields rt data other =
            EventTransformer.transformFields rt data fieldConfig) ↔
          EventTransformer.OneOutcome rt data (fieldConfig.entries.map (·.2)) :=
  ⟨m.mapFields_order_iff data, EventTransformer.transformFields_order_iff rt data⟩

theorem nodupKeys_pair {X : Type} {k k' : String} (hne : k ≠ k') (x x' : X) :
    List.NodupKeys [(⟨k, x⟩ : Σ _ : String, X), ⟨k', x'⟩] := by
  simp [List.nodupKeys_cons, List.keys, hne]

/-- Two fields are mapped to one, and one field is renamed to two. -/
theorem hash_order_matters :
    (¬ ∀ (m : FieldMapper) (data : Fields) (fieldMappings other : Dict FieldMapping),
      Reordered fieldMappings other →
        m.mapFields data other = m.mapFields data fieldMappings) ∧
      ¬ ∀ (rt : Runtime) (data : Fields) (fieldConfig other : Dict FieldTransform),
        Reordered fieldConfig other →
          EventTransformer.transformFields rt data other =
            EventTransformer.transformFields rt data fieldConfig := by
  constructor
  · intro h
    have hrow := h ⟨⟨∅, "exclude", none⟩⟩ [("first", .bool true), ("last", .bool false)]
      ⟨[⟨"first", .simple "name"⟩, ⟨"last", .simple "name"⟩], nodupKeys_pair (by decide) _ _⟩
      ⟨[⟨"last", .simple "name"⟩, ⟨"first", .simple "name"⟩], nodupKeys_pair (by decide) _ _⟩
      (List.Perm.swap _ _ _)
    rw [FieldMapper.mapFields_writes, FieldMapper.mapFields_writes] at hrow
    have hname :
        Fields.get [("name", .bool true)] "name" = Fields.get [("name", .bool false)] "name" :=
      congrArg (Fields.get · "name") (Except.ok.inj hrow)
    cases hname
  · intro h
    have hrow := h ⟨id, id, ""⟩ [("price", .bool true)]
      ⟨[⟨"1", .rename "price" "cost"⟩, ⟨"2", .rename "price" "total"⟩],
        nodupKeys_pair (by decide) _ _⟩
      ⟨[⟨"2", .rename "price" "total"⟩, ⟨"1", .rename "price" "cost"⟩],
        nodupKeys_pair (by decide) _ _⟩
      (List.Perm.swap _ _ _)
    have hkeys : (.ok [("total", .bool true)] : Except Fault Fields) = .ok [("cost", .bool true)] :=
      hrow
    obtain ⟨hfirst, -⟩ := List.cons.inj (Except.ok.inj hkeys)
    exact absurd (Prod.mk.inj hfirst).1 (by decide)

end MeiliBridge
