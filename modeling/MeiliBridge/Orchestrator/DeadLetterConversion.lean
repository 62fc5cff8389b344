import MeiliBridge.Orchestrator.AtLeastOnce

/-!
# The two conversions of an event

A failed event is filed in the dead letter queue as the record that `convert_to_models_event` makes
of it. `From<CdcEvent>` makes the same kind of record of a CDC event. The first unwraps the data of
some events as an object, and puts the row of every CDC event among the new values;
`conversion_total_and_faithful_iff` says for which events that does no harm.
-/

set_option autoImplicit false

namespace MeiliBridge

open Interaction

/-- The key of `From<CdcEvent>` -/
def CdcEvent.key (cdc : CdcEvent) : Value :=
  ((cdc.data.get "id").or (cdc.data.get "_id")).getD .null

/-- `From<CdcEvent>`, with the fresh id and the event's own timestamp. -/
def ModelsEvent.fromCdcEvent (id : String) (timestamp : Nat) (cdc : CdcEvent) : ModelsEvent where
  id
  eventType := cdc.eventType
  source := ⟨"", cdc.schema, cdc.table⟩
  data :=
    match cdc.eventType with
    | .create => ⟨cdc.key, none, some cdc.data⟩
    | .update => ⟨cdc.key, none, some cdc.data⟩
    | .delete => ⟨cdc.key, some cdc.data, none⟩
    | .truncate | .schema => ⟨cdc.key, none, none⟩
  metadata := ⟨none, "", []⟩
  timestamp

/-- The same type, source, key, old and new values. -/
def ModelsEvent.Agrees (m m' : ModelsEvent) : Prop :=
  m.eventType = m'.eventType ∧ m.source = m'.source ∧ m.data.key = m'.data.key ∧
    m.data.old = m'.data.old ∧ m.data.new = m'.data.new

/-- The value whose object the conversion unwraps. -/
def Event.unwrapped : Event → Option Value
  | .insert _ newData _ => some newData
  | .update _ _ newData _ => some newData
  | .delete _ oldData _ => some oldData
  | .fullSync _ data => some data
  | .cdc _ | .checkpoint _ | .heartbeat => none

/-- What is unwrapped is an object. -/
def Event.Unwraps (event : Event) : Prop :=
  ∀ data, event.unwrapped = some data → ∃ fields, data = .object fields

/-- A row was inserted or updated, and the two conversions look for its key in the same field. -/
def CdcEvent.Converts (cdc : CdcEvent) : Prop :=
  (cdc.eventType = .create ∨ cdc.eventType = .update) ∧
    ((cdc.data.get "id").isSome ∨ (cdc.data.get "_id").getD .null = .null)

theorem unwrapObject_eq (v : Value) :
    (∃ fields, v = .object fields ∧ unwrapObject v = .ok fields) ∨
      (¬ (∃ fields, v = .object fields) ∧ unwrapObject v = .error .panic) := by
  cases v with
  | object fields => exact .inl ⟨fields, rfl, rfl⟩
  | _ => exact .inr ⟨by simp, rfl⟩

/-- Only the unwrapping of its object can keep an event from being converted. -/
theorem modelsEventParts_unwrapped {event : Event} {data : Value}
    (h : event.unwrapped = some data) :
    ∃ parts : Fields → EventType × EventSource × EventData,
      modelsEventParts event = (unwrapObject data).map parts := by
  cases event with
  | insert table newData position =>
    cases h
    exact ⟨_, rfl⟩
  | update table oldData newData position =>
    cases h
    exact ⟨_, rfl⟩
  | delete table oldData position =>
    cases h
    exact ⟨_, rfl⟩
  | fullSync table data =>
    cases h
    exact ⟨_, rfl⟩
  | _ => cases h

theorem modelsEventParts_of_none {event : Event} (h : event.unwrapped = none) :
    ∃ parts, modelsEventParts event = .ok parts := by
  cases event with
  | cdc e => exact ⟨_, rfl⟩
  | checkpoint position => exact ⟨_, rfl⟩
  | heartbeat => exact ⟨_, rfl⟩
  | _ => cases h

/-- The conversion has its parts, or it panics. -/
theorem modelsEventParts_cases (event : Event) :
    (event.Unwraps ∧ ∃ parts, modelsEventParts event = .ok parts) ∨
      (¬ event.Unwraps ∧ modelsEventParts event = .error .panic) := by
  unfold Event.Unwraps
  cases h : event.unwrapped with
  | none => exact .inl ⟨by simp, modelsEventParts_of_none h⟩
  | some data =>
    obtain ⟨parts, hparts⟩ := modelsEventParts_unwrapped h
    rw [hparts]
    rcases unwrapObject_eq data with ⟨fields, hobject, hunwrap⟩ | ⟨hnot, hunwrap⟩
    · refine .inl ⟨?_, parts fields, by rw [hunwrap]; rfl⟩
      intro data' h'
      cases h'
      exact ⟨fields, hobject⟩
    · refine .inr ⟨?_, by rw [hunwrap]; rfl⟩
      intro hall
      exact hnot (hall data rfl)

/-- A run of the conversion, in any world and with any id and clock reading. -/
abbrev ConvertsTo (event : Event) (w : World) (r : Except Fault ModelsEvent) (w' : World) : Prop :=
  Runs World.handler (fun _ => True) (convertToModelsEvent event) w r w'

theorem convertsTo_of_parts {event : Event} {eventType : EventType} {source : EventSource}
    {data : EventData} (h : modelsEventParts event = .ok (eventType, source, data)) {w w' : World}
    {r : Except Fault ModelsEvent} (hruns : ConvertsTo event w r w') :
    ∃ id timestamp, r = .ok ⟨id, eventType, source, data, ⟨none, "", []⟩, timestamp⟩ := by
  unfold ConvertsTo convertToModelsEvent at hruns
  rw [h] at hruns
  obtain ⟨c, -, c', -, hr, -⟩ := hruns
  exact ⟨c.uuid, c'.now, hr⟩

theorem convertsTo_total_iff (event : Event) (w : World) :
    (∀ r w', ConvertsTo event w r w' → ∃ m, r = .ok m) ↔ event.Unwraps := by
  rcases modelsEventParts_cases event with ⟨hobject, ⟨eventType, source, data⟩, hparts⟩ |
    ⟨hnot, hparts⟩
  · refine iff_of_true ?_ hobject
    intro r w' hruns
    obtain ⟨id, timestamp, hr⟩ := convertsTo_of_parts hparts hruns
    exact ⟨_, hr⟩
  · refine iff_of_false ?_ hnot
    intro h
    have hruns : ConvertsTo event w (.error .panic) w := by
      unfold ConvertsTo convertToModelsEvent
      rw [hparts]
      exact ⟨rfl, rfl⟩
    obtain ⟨m, hm⟩ := h _ _ hruns
    cases hm

theorem getD_eq_or_getD {a b : Option Value} :
    a.getD .null = (a.or b).getD .null ↔ a.isSome ∨ b.getD .null = .null := by
  cases a with
  | none => exact ⟨fun h => .inr h.symm, fun h => (h.resolve_left (by simp)).symm⟩
  | some v => simp

theorem convertsTo_agrees_iff {cdc : CdcEvent} {w w' : World} {m : ModelsEvent}
    (hruns : ConvertsTo (.cdc cdc) w (.ok m) w') (id : String) (timestamp : Nat) :
    m.Agrees (.fromCdcEvent id timestamp cdc) ↔ cdc.Converts := by
  obtain ⟨id', timestamp', hm⟩ := convertsTo_of_parts rfl hruns
  obtain rfl := Except.ok.inj hm
  unfold CdcEvent.Converts
  rw [← getD_eq_or_getD]
  cases h : cdc.eventType with
  | create => simp [ModelsEvent.Agrees, ModelsEvent.fromCdcEvent, h, CdcEvent.key]
  | update => simp [ModelsEvent.Agrees, ModelsEvent.fromCdcEvent, h, CdcEvent.key]
  | delete => simp [ModelsEvent.Agrees, ModelsEvent.fromCdcEvent, h]
  | truncate => simp [ModelsEvent.Agrees, ModelsEvent.fromCdcEvent, h]
  | schema => simp [ModelsEvent.Agrees, ModelsEvent.fromCdcEvent, h]

/-- **The conversion never panics exactly when** what it unwraps is an object, and **makes of a CDC
event what `From<CdcEvent>` makes of it exactly when** the event is an insert or an update whose key
is not in the field `_id` alone. -/
theorem conversion_total_and_faithful_iff (w : World) :
    (∀ event : Event,
      (∀ r w', ConvertsTo event w r w' → ∃ m, r = .ok m) ↔ event.Unwraps) ∧
    (∀ (cdc : CdcEvent) (m : ModelsEvent) (w' : World), ConvertsTo (.cdc cdc) w (.ok m) w' →
      ∀ id timestamp, m.Agrees (.fromCdcEvent id timestamp cdc) ↔ cdc.Converts) :=
  ⟨fun event => convertsTo_total_iff event w,
    fun _ _ _ hruns id timestamp => convertsTo_agrees_iff hruns id timestamp⟩

/-! ### A row that is no object, and a deleted row -/

/-- A row of a full sync that is a text. -/
def textRow : Event := .fullSync "books" (.string "x1")

def deletedBook : CdcEvent := ⟨.delete, "books", "public", [("id", .string "b1")], none⟩

/-- What becomes of the deleted book. -/
def deletedBookRecord : ModelsEvent where
  id := "4f2a"
  eventType := .delete
  source := ⟨"", "public", "books"⟩
  data := ⟨.string "b1", none, some [("id", .string "b1")]⟩
  metadata := ⟨none, "", []⟩
  timestamp := 0

theorem deletedBook_convertsTo :
    ConvertsTo (.cdc deletedBook) freshWorld (.ok deletedBookRecord) freshWorld :=
  ⟨answering .dropped, trivial, answering .dropped, trivial, rfl, rfl⟩

theorem conversion_not_total_and_faithful :
    (¬ ∀ event w r w', ConvertsTo event w r w' → ∃ m, r = .ok m) ∧
      ¬ ∀ cdc w m w', ConvertsTo (.cdc cdc) w (.ok m) w' →
        ∀ id timestamp, m.Agrees (.fromCdcEvent id timestamp cdc) := by
  refine ⟨?_, ?_⟩
  · intro h
    obtain ⟨m, hm⟩ := h textRow freshWorld (.error .panic) freshWorld ⟨rfl, rfl⟩
    cases hm
  · intro h
    obtain ⟨-, -, -, hold, -⟩ := h _ _ _ _ deletedBook_convertsTo "4f2a" 0
    cases hold

theorem conversion_total_and_faithful_iff_deletedBook :
    ¬ deletedBookRecord.Agrees (.fromCdcEvent "4f2a" 0 deletedBook) := by
  rw [(conversion_total_and_faithful_iff freshWorld).2 deletedBook deletedBookRecord freshWorld
    deletedBook_convertsTo]
  rintro ⟨hcreate | hupdate, -⟩
  · cases hcreate
  · cases hupdate

end MeiliBridge
