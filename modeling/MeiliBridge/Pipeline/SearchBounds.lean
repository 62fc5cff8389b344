import MeiliBridge.Lib.Loop
import MeiliBridge.Pipeline.EventRouter

/-!
# The bounds of the search

`find_json_string_value` once more, with its loops and its accesses as they stand: an index that is
out of bounds panics, and nothing says yet that the loops are left. `search_ends` is the refinement:
the search is left without a panic, with the result of `findJsonStringValue`.
-/

set_option autoImplicit false

namespace MeiliBridge

open Loop

/-! ## Checked accesses -/

/-- `data[i]` -/
def byteAt (data : List UInt8) (i : Nat) : Except Fault UInt8 :=
  if h : i < data.length then .ok data[i] else .error .panic

/-- `data[i..]` -/
def tailFrom (data : List UInt8) (i : Nat) : Except Fault (List UInt8) :=
  if i ≤ data.length then .ok (data.drop i) else .error .panic

/-- `data[s..e]` -/
def byteRange (data : List UInt8) (s e : Nat) : Except Fault (List UInt8) :=
  if s ≤ e ∧ e ≤ data.length then .ok ((data.take e).drop s) else .error .panic

theorem byteAt_of_lt {data : List UInt8} {i : Nat} (h : i < data.length) :
    byteAt data i = .ok data[i] := dif_pos h

theorem tailFrom_of_lt {data : List UInt8} {i : Nat} (h : i < data.length) :
    tailFrom data i = .ok (data.drop i) := if_pos (Nat.le_of_lt h)

namespace KeySearch

/-- Where the search stands: at the head of one of its three loops -/
inductive Phase where
  | search (i : Nat)
  | separators (i : Nat)
  | string (start i : Nat)

/-- One turn of the loop that the search stands at. The inner loops share the index of the outer
one, and where they give nothing it goes on from there. -/
def turn (data key : List UInt8) : Phase → Except Fault (Turn Phase (Option (Nat × Nat)))
  | .search i =>
    if i < data.length then do
      let rest ← tailFrom data i
      if key.isPrefixOf rest then pure (.next (.separators (i + key.length)))
      else pure (.next (.search (i + 1)))
    else pure (.done none)
  | .separators i =>
    if i < data.length then do
      let b ← byteAt data i
      if isSeparator b then pure (.next (.separators (i + 1)))
      else if b = 34 then pure (.next (.string (i + 1) (i + 1)))
      else pure (.next (.search (i + 1)))
    else pure (.next (.search (i + 1)))
  | .string start i =>
    if i < data.length then do
      let b ← byteAt data i
      if b = 92 then pure (.next (.string start (i + 2)))
      else if b = 34 then pure (.done (some (start, i)))
      else pure (.next (.string start (i + 1)))
    else pure (.next (.search (i + 1)))

/-- The search from a phase on -/
def checkedSearch (data key : List UInt8) (phase : Phase) :
    Turn Phase (Except Fault (Option (Nat × Nat))) :=
  orFail (turn data key phase)

variable {data key : List UInt8}

/-! ## The search is left -/

/-- Behind the end of the data there is nothing to find. -/
theorem search_past {i : Nat} (h : ¬ i < data.length) :
    Finishes (checkedSearch data key) (.search i) (.ok none) := by
  apply Finishes.of_ok_done
  simp [turn, h, pure, Except.pure]

theorem string_ends (start i : Nat) : Finishes (checkedSearch data key) (.string start i)
    (.ok ((closingQuote data i).map (start, ·))) := by
  fun_induction closingQuote data i with
  | case1 i h hescape ih =>
    apply Finishes.of_ok_next _ ih
    simp [turn, h, byteAt_of_lt h, hescape, bind, Except.bind, pure, Except.pure]
  | case2 i h hescape hquote =>
    apply Finishes.of_ok_done
    simp [turn, h, byteAt_of_lt h, hquote, bind, Except.bind, pure, Except.pure]
  | case3 i h hescape hquote ih =>
    apply Finishes.of_ok_next _ ih
    simp [turn, h, byteAt_of_lt h, hescape, hquote, bind, Except.bind, pure, Except.pure]
  | case4 i h =>
    -- the string is not closed: the outer loop is left at its next turn
    apply Finishes.of_ok_next _ (search_past (i := i + 1) (by omega))
    simp [turn, h, pure, Except.pure]

/-- Where the search goes on from the byte at `i`, which is no separator -/
def afterSeparators (data : List UInt8) (i : Nat) : Phase :=
  if data[i]? = some 34 then .string (i + 1) (i + 1) else .search (i + 1)

theorem separators_end {r : Except Fault (Option (Nat × Nat))} (i : Nat)
    (h : Finishes (checkedSearch data key) (afterSeparators data (skipSeparators data i)) r) :
    Finishes (checkedSearch data key) (.separators i) r := by
  fun_induction skipSeparators data i with
  | case1 i hi hsep ih =>
    apply Finishes.of_ok_next _ (ih h)
    simp [turn, hi, byteAt_of_lt hi, hsep, bind, Except.bind, pure, Except.pure]
  | case2 i hi hsep =>
    apply Finishes.of_ok_next _ h
    simp only [turn, hi, byteAt_of_lt hi, hsep, bind, Except.bind, pure, Except.pure,
      afterSeparators, List.getElem?_eq_getElem hi]
    by_cases hquote : data[i] = 34 <;> simp [hquote]
  | case3 i hi =>
    apply Finishes.of_ok_next _ h
    simp [turn, hi, pure, Except.pure, afterSeparators]

/-- **The search is left without a panic, and with the result of the model.** -/
theorem search_ends (i : Nat) :
    Finishes (checkedSearch data key) (.search i) (.ok (findFrom data key i)) := by
  fun_induction findFrom data key i with
  | case1 i h hkey j hquote =>
    -- a string that is not closed ends the whole search, as it does in the model
    have hafter : afterSeparators data j = .string (j + 1) (j + 1) := if_pos hquote
    apply Finishes.of_ok_next _ (separators_end (i + key.length) (hafter ▸ string_ends _ _))
    simp [turn, h, tailFrom_of_lt h, hkey, bind, Except.bind, pure, Except.pure]
  | case2 i h hkey j hquote ih =>
    have hafter : afterSeparators data j = .search (j + 1) := if_neg hquote
    apply Finishes.of_ok_next _ (separators_end (i + key.length) (hafter ▸ ih))
    simp [turn, h, tailFrom_of_lt h, hkey, bind, Except.bind, pure, Except.pure]
  | case3 i h hkey ih =>
    apply Finishes.of_ok_next _ ih
    simp [turn, h, tailFrom_of_lt h, hkey, bind, Except.bind, pure, Except.pure]
  | case4 i h => exact search_past h

/-! ## What is found -/

/-- The text from `s` to the quote at `e`: no byte of it is a quote unless it is the second one of
a pair with a backslash, read from the left. -/
structure ClosedText (data : List UInt8) (s e : Nat) : Prop where
  ordered : s ≤ e
  inside : e < data.length
  quote : data[e]? = some 34
  escaped : ∃ items : List JsonText.Item, JsonText.itemsBytes items = slice data (s, e)

/-- The content ends at the first quote that is not escaped. -/
theorem content_closed (data : List UInt8) : ∀ s ∈ content data,
    (∃ items, JsonText.itemsBytes items = s) ∧ data[s.length]? = some 34 := by
  fun_induction content data with
  | case1 => simp
  | case2 => exact fun s hs => Option.some.inj hs ▸ ⟨⟨[], rfl⟩, rfl⟩
  | case3 b hquote => simp
  | case4 c rest ih =>
    intro s hs
    obtain ⟨t, ht, rfl⟩ := Option.map_eq_some_iff.mp hs
    obtain ⟨⟨items, hitems⟩, hquote⟩ := ih t ht
    exact ⟨⟨.escape c :: items, congrArg (92 :: c :: ·) hitems⟩, hquote⟩
  | case5 c rest => exact fun s hs => Option.some.inj hs ▸ ⟨⟨[], rfl⟩, rfl⟩
  | case6 b c rest hescape hquote ih =>
    intro s hs
    obtain ⟨t, ht, rfl⟩ := Option.map_eq_some_iff.mp hs
    obtain ⟨⟨items, hitems⟩, hclosed⟩ := ih t ht
    exact ⟨⟨.plain b ⟨hquote, hescape⟩ :: items, congrArg (b :: ·) hitems⟩, hclosed⟩

theorem closingQuote_closed {i e : Nat} (h : closingQuote data i = some e) :
    ClosedText data i e := by
  rw [closingQuote_eq] at h
  obtain ⟨s, hs, rfl⟩ := Option.map_eq_some_iff.mp h
  obtain ⟨⟨items, hitems⟩, hquote⟩ := content_closed _ s hs
  rw [List.getElem?_drop] at hquote
  obtain ⟨hinside, -⟩ := List.getElem?_eq_some_iff.mp hquote
  exact ⟨Nat.le_add_right i _, hinside, hquote, items, hitems.trans (slice_content hs).symm⟩

theorem findFrom_closed (i : Nat) : ∀ r ∈ findFrom data key i, ClosedText data r.1 r.2 := by
  fun_induction findFrom data key i with
  | case1 i h hkey j hquote =>
    intro r hr
    obtain ⟨e, he, rfl⟩ := Option.map_eq_some_iff.mp hr
    exact closingQuote_closed he
  | case2 i h hkey j hquote ih => exact ih
  | case3 i h hkey ih => exact ih
  | case4 i h => simp

end KeySearch

namespace ZeroCopyEventRouter

open KeySearch

/-- The loop over the whitespace before the object -/
def blankTurn (eventData : List UInt8) (offset : Nat) : Except Fault (Turn Nat Nat) :=
  if offset < eventData.length then do
    let b ← byteAt eventData offset
    if isAsciiWhitespace b then pure (.next (offset + 1)) else pure (.done offset)
  else pure (.done offset)

def opensObject (eventData : List UInt8) (offset : Nat) : Except Fault Bool :=
  if eventData.length ≤ offset then pure false
  else do
    let b ← byteAt eventData offset
    pure (b == 123)

/-- The table that is read from the range the search has found -/
def readTable (eventData : List UInt8) : Option (Nat × Nat) → Except Fault EventView
  | some (s, e) => do
    let bytes ← byteRange eventData s e
    match Text.fromUtf8 bytes with
    | .ok table => pure ⟨table, eventData⟩
    | .error e => throw (.err (.validation s!"Invalid UTF-8: {e}"))
  | none => throw (.err (.validation "Missing table field"))

/-- `route_event` with its loops and accesses, if each loop is left within `fuel` turns -/
def checkedRouteEvent (fuel : Nat) (eventData : List UInt8) : Option (Except Fault EventView) :=
  andThen (run (fun offset => orFail (blankTurn eventData offset)) fuel 0) fun offset =>
    andThen (some (opensObject eventData offset)) fun opens =>
      if opens then
        andThen (run (checkedSearch eventData (quoted tableName)) fuel (.search 0)) fun range =>
          some (readTable eventData range)
      else some (.error (.err (.validation "Invalid JSON object")))

/-! ## The router does not panic -/

theorem blanks_end {eventData : List UInt8} (offset : Nat) :
    ∃ offset', Finishes (fun offset => orFail (blankTurn eventData offset)) offset (.ok offset') ∧
      eventData.drop offset' = (eventData.drop offset).dropWhile isAsciiWhitespace := by
  induction hleft : eventData.length - offset generalizing offset with
  | zero =>
    have hpast : ¬ offset < eventData.length := by omega
    refine ⟨offset, .of_ok_done ?_, ?_⟩
    · simp [blankTurn, hpast, pure, Except.pure]
    · rw [List.drop_eq_nil_of_le (Nat.le_of_not_lt hpast)]
      rfl
  | succ left ih =>
    have hlt : offset < eventData.length := by omega
    rw [List.drop_eq_getElem_cons hlt]
    by_cases hblank : isAsciiWhitespace eventData[offset] = true
    · obtain ⟨offset', hends, hdrop⟩ := ih (offset + 1) (by omega)
      refine ⟨offset', .of_ok_next ?_ hends, ?_⟩
      · simp [blankTurn, hlt, byteAt_of_lt hlt, hblank, bind, Except.bind, pure, Except.pure]
      · rw [hdrop, List.dropWhile_cons_of_pos hblank]
    · refine ⟨offset, .of_ok_done ?_, ?_⟩
      · simp [blankTurn, hlt, byteAt_of_lt hlt, hblank, bind, Except.bind, pure, Except.pure]
      · rw [List.dropWhile_cons_of_neg hblank, ← List.drop_eq_getElem_cons hlt]

theorem opensObject_eq (eventData : List UInt8) (offset : Nat) : opensObject eventData offset =
    .ok (decide ((eventData.drop offset).head? = some 123)) := by
  unfold opensObject
  split
  · next hpast =>
    rw [List.drop_eq_nil_of_le hpast]
    rfl
  · next hlt =>
    have hlt : offset < eventData.length := Nat.lt_of_not_le hlt
    rw [byteAt_of_lt hlt, List.drop_eq_getElem_cons hlt]
    simp only [bind, Except.bind, pure, Except.pure, List.head?_cons, Option.some.injEq,
      beq_eq_decide]

theorem byteRange_of_closed {eventData : List UInt8} {s e : Nat} (h : ClosedText eventData s e) :
    byteRange eventData s e = .ok (slice eventData (s, e)) :=
  if_pos ⟨h.ordered, Nat.le_of_lt h.inside⟩

/-- **Routing is done without a panic, and with the result of the model.** -/
theorem checkedRouteEvent_eq (eventData : List UInt8) : ∃ n, ∀ fuel, n ≤ fuel →
    checkedRouteEvent fuel eventData = some (routeEvent eventData).toFault := by
  obtain ⟨offset, hblanks, hdrop⟩ := @blanks_end eventData 0
  obtain ⟨n, hn⟩ := hblanks.eventually
  obtain ⟨m, hm⟩ := (@search_ends eventData (quoted tableName) 0).eventually
  refine ⟨n + m, fun fuel hfuel => ?_⟩
  rw [checkedRouteEvent, hn fuel (by omega), andThen_ok, opensObject_eq, andThen_ok, hdrop,
    List.drop_zero, hm fuel (by omega), andThen_ok, routeEvent]
  by_cases hopens : (eventData.dropWhile isAsciiWhitespace).head? = some 123
  · rw [if_pos (decide_eq_true hopens), if_neg (not_not_intro hopens), findJsonStringValue]
    cases hfind : findFrom eventData (quoted tableName) 0 with
    | none => rfl
    | some r =>
      have hrange := byteRange_of_closed (findFrom_closed 0 r hfind)
      simp only [readTable, hrange, bind, Except.bind]
      cases Text.fromUtf8 (slice eventData r) <;> rfl
  · rw [if_neg (by simp [hopens]), if_pos hopens]
    rfl

/-- **The search is left without an access out of bounds, for all bytes and every key, and what it
gives is a text up to its closing quote**; so the slice that the router takes is in bounds. -/
theorem byte_search_safe (data key : List UInt8) :
    Finishes (checkedSearch data key) (.search 0) (.ok (findJsonStringValue data key)) ∧
      (∀ s e, findJsonStringValue data key = some (s, e) → ClosedText data s e) ∧
      ∃ n, ∀ fuel, n ≤ fuel →
        checkedRouteEvent fuel data = some (routeEvent data).toFault :=
  ⟨search_ends 0, fun s e h => findFrom_closed 0 (s, e) h, checkedRouteEvent_eq data⟩

end ZeroCopyEventRouter

end MeiliBridge
