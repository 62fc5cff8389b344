import MeiliBridge.Delivery.Deduplication
import MeiliBridge.Pipeline.SingleEvent

/-!
# Positions through the stages

No stage changes the position of an event, and the `Delete` that the soft-delete handler makes of
an update takes that update's position. So both copies of `process_single_event` return an event
with the position of the one they got.
-/

set_option autoImplicit false

namespace MeiliBridge

theorem Event.Rewritten.extractPosition {e e' : Event} (h : e.Rewritten e') :
    extractPositionFromEvent e' = extractPositionFromEvent e := by
  cases e with
  | cdc c =>
    cases e' with
    | cdc c' =>
      obtain ⟨table, data, rfl⟩ := h
      rfl
    | _ => cases h
  | fullSync table data => cases e' <;> first | rfl | cases h
  | _ =>
    replace h : e' = _ := h
    rw [h]

namespace Stages

variable {rt : Runtime} {st : Stages} {e e' : Event}

theorem eq_of_applyFilter (h : st.applyFilter e = .kept e') : e' = e := by
  rcases st.applyFilter_cases e with hkept | hdropped
  · rw [hkept] at h
    cases h
    rfl
  · rw [hdropped] at h
    cases h

theorem extractPosition_applySoftDelete (h : st.applySoftDelete e = .kept e') :
    extractPositionFromEvent e' = extractPositionFromEvent e := by
  unfold applySoftDelete at h
  split at h
  · cases h
    rfl
  · next sd _ =>
    split at h <;> cases h
    next hsd =>
    cases e with
    | cdc c =>
      rw [sd.transformEvent_cdc] at hsd
      split at hsd <;> cases hsd <;> rfl
    | fullSync table data =>
      rw [sd.transformEvent_fullSync] at hsd
      split at hsd <;> cases hsd
      rfl
    | update table oldData newData position =>
      simp only [SoftDeleteHandler.transformEvent] at hsd
      repeat' split at hsd
      all_goals cases hsd; rfl
    | _ => cases hsd; rfl

/-- The orchestrator's copy keeps the position. -/
theorem extractPosition_processSingleEvent (h : st.processSingleEvent rt e = .kept e') :
    extractPositionFromEvent e' = extractPositionFromEvent e := by
  rw [processSingleEvent_eq] at h
  obtain ⟨e₁, hfilter, h⟩ := Outcome.andThen_eq_kept.mp h
  obtain ⟨e₂, hrewrite, hsoft⟩ := Outcome.andThen_eq_kept.mp h
  rw [extractPosition_applySoftDelete hsoft, (rewrite_rewritten hrewrite).extractPosition,
    eq_of_applyFilter hfilter]

end Stages

/-- The parallel processor's copy keeps the position. -/
theorem ParallelTableProcessor.extractPosition_processSingleEvent {rt : Runtime} {st : Stages}
    {e e' : Event} (h : processSingleEvent rt st e = .kept e') :
    extractPositionFromEvent e' = extractPositionFromEvent e := by
  obtain ⟨e₁, hfilter, h⟩ := Outcome.andThen_eq_kept.mp h
  obtain ⟨e₂, hsoft, hrewrite⟩ := Outcome.andThen_eq_kept.mp h
  rw [(Stages.rewrite_rewritten hrewrite).extractPosition,
    Stages.extractPosition_applySoftDelete hsoft, Stages.eq_of_applyFilter hfilter]

end MeiliBridge
