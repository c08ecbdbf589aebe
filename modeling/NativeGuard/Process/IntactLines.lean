import NativeGuard.Audit.AuditLines
import NativeGuard.Protocol.AuditTrail
import NativeGuard.Protocol.PartialEnvelope
import NativeGuard.Protocol.StringEscapers

/-!
# The audit lines of a run

Whatever the messages, an event that the filter records carries the size of its
message and an id that is absent or a complete token: the classifier keeps no other,
on rejection too. So every record of a run is one intact line (`audit_lines_intact`).
-/

namespace NativeGuard.Protocol.ToolCallFilter

open Json Data Process Audit

/-! ## §1  The events of one call -/

/-- The event is about the classified message. -/
def About (envelope : Envelope) (event : AuditEvent) : Prop :=
  event.idJson = envelope.idJson ∧ event.includeMessageSize = true

variable {f : ToolCallFilter} {message : Bytes}

theorem inspectToolsList_about (envelope : Envelope) :
    ∀ event ∈ (f.inspectToolsList envelope message).events, About envelope event := by
  intro event hevent
  rw [inspectToolsList_event hevent]
  exact ⟨rfl, rfl⟩

theorem inspectToolsCall_about (envelope : Envelope) :
    ∀ event ∈ (f.inspectToolsCall envelope message).events, About envelope event := by
  rcases f.inspectToolsCall_cases envelope message with
    ⟨e, -, heq⟩ | ⟨params, -, ⟨-, heq⟩ | ⟨-, heq⟩⟩ <;>
    (rw [heq]; exact List.forall_mem_singleton.mpr ⟨rfl, rfl⟩)

theorem inspect_about : ∀ event ∈ (f.inspect message).events,
    About (classify f.config.runtime message) event := by
  rcases f.inspect_cases message with
    ⟨-, heq⟩ | ⟨-, -, heq⟩ | ⟨-, -, heq⟩ | ⟨-, -, -, heq⟩
  · rw [heq]
    exact List.forall_mem_singleton.mpr ⟨rfl, rfl⟩
  · rw [heq]
    exact inspectToolsCall_about _
  · rw [heq]
    exact inspectToolsList_about _
  · rw [heq]
    exact fun _ h => absurd h List.not_mem_nil

theorem inspectServer_about : ∀ event ∈ (f.inspectServer message).events,
    About (classify f.config.runtime message) event := by
  intro event hevent
  by_cases hreplace : (f.inspectServer message).decision.action = .replace
  · obtain ⟨-, out, removedTools, -, -, hevents⟩ := f.replaced_of_pending hreplace
    rw [hevents] at hevent
    obtain ⟨name, -, rfl⟩ := List.mem_map.mp hevent
    exact ⟨rfl, rfl⟩
  · rw [f.inspectServer_events_of_not_replaced hreplace] at hevent
    exact absurd hevent List.not_mem_nil

/-- The classifier keeps a whole id token or none, on rejected messages too. -/
theorem About.sound {event : AuditEvent}
    (h : About (classify f.config.runtime message) event) : Sound event := by
  refine ⟨h.2, ?_⟩
  rw [h.1]
  rcases (classify_scanned f.config.runtime message).id with ⟨hnone, -⟩ | ⟨v, hkind, hv⟩
  · exact Or.inl hnone
  · exact Or.inr ⟨v, by rw [hkind]; rfl, hv⟩

theorem recorded_sound (call : Call) : ∀ event ∈ f.recorded call, Sound event := by
  rcases call with input | ⟨direction, encodedMessageBytes⟩
  · cases input with
    | client message => exact fun event h => (inspect_about event h).sound
    | server message => exact fun event h => (inspectServer_about event h).sound
    | closed => exact fun _ h => absurd h List.not_mem_nil
  · exact List.forall_mem_singleton.mpr ⟨rfl, Or.inl rfl⟩

/-- Every event of a run is sound. -/
theorem trail_sound (f : ToolCallFilter) (calls : List Call) :
    ∀ event ∈ f.trail calls, Sound event := by
  intro event hevent
  rw [trail_eq, List.mem_flatMap] at hevent
  obtain ⟨step, -, hevent⟩ := hevent
  exact recorded_sound step.2 event hevent

/-! ## §2  The lines -/

theorem isPlainByte_of_ascii {b : UInt8}
    (h : 0x20 ≤ b ∧ b ≤ 0x7E ∧ b ≠ 0x22 ∧ b ≠ 0x5C) : isPlainByte b = true := by
  obtain ⟨hlow, -, hquote, hslash⟩ := h
  simp [isPlainByte, hlow, hquote, hslash]

/-- The record of a sound event holds no control byte. -/
theorem recordTextAt_printable {event : AuditEvent} (h : Sound event) {timestamp : Bytes}
    (hplain : timestamp.all isPlainByte = true) :
    ∀ b ∈ recordTextAt event timestamp, 0x20 ≤ b := by
  have hname : ∀ {raw : Bytes}, raw.all isPlainByte = true → ∀ b ∈ raw, 0x20 ≤ b :=
    fun hraw => (stringBody_plain hraw).printable
  have hnone : ∀ b ∈ ([] : Bytes), 0x20 ≤ b := fun _ hb => absurd hb List.not_mem_nil
  unfold recordTextAt
  simp only [List.forall_mem_append]
  refine ⟨printable_of_all (by decide), hname hplain, printable_of_all (by decide),
    hname (eventName_plain _), printable_of_all (by decide), hname (decisionName_plain _),
    printable_of_all (by decide), hname (reasonName_plain _), printable_of_all (by decide),
    ?_, ?_, ?_, printable_of_all (by decide)⟩
  · split
    · exact List.forall_mem_append.mpr
        ⟨printable_of_all (by decide), Escapers.jsonString_printable event.toolName⟩
    · exact hnone
  · split
    · rename_i hid
      obtain ⟨v, hsome, hv⟩ := h.id.resolve_left hid
      obtain ⟨kind, hkind⟩ := Option.isSome_iff_exists.mp hsome
      rw [hv]
      exact List.forall_mem_append.mpr
        ⟨printable_of_all (by decide), idKindOf_printable hkind⟩
    · exact hnone
  · split
    · refine List.forall_mem_append.mpr ⟨printable_of_all (by decide), fun b hb => ?_⟩
      exact (Data.isDigit_of_mem_decimal b hb).printable
    · exact hnone

/-- For every event of every run, and every limit: the record is given up, or it is the
text of an object that fits the limit, holds no newline and reads as the fields of the
event. A sink that has failed hands nothing to its stream any more. -/
theorem audit_lines_intact (policy : Security.PolicyTable) (config : FilterConfig)
    (calls : List Call) (timestamp : Bytes)
    (htimestamp : ∀ b ∈ timestamp, 0x20 ≤ b ∧ b ≤ 0x7E ∧ b ≠ 0x22 ∧ b ≠ 0x5C) :
    (∀ event ∈ (init policy config).trail calls, ∀ limit,
      formatRecordAt event (some timestamp) limit = none ∨
      ∃ line, formatRecordAt event (some timestamp) limit = some line ∧
        line.length ≤ limit ∧ 0x0A ∉ line ∧
        ∃ ms, line = (Value.obj noGap ms).render ∧
          List.Forall₂ Reads ms (recordFields event timestamp)) ∧
    ∀ (sink : JsonlAuditSink) (earlier later : List SinkStep),
      (sink.deliverAll earlier).1.failed = true →
        (sink.deliverAll (earlier ++ later)).2 = (sink.deliverAll earlier).2 := by
  have hplain : timestamp.all isPlainByte = true :=
    List.all_eq_true.mpr fun b hb => isPlainByte_of_ascii (htimestamp b hb)
  constructor
  · intro event hevent limit
    have hsound := trail_sound _ calls event hevent
    rcases Nat.eq_zero_or_pos limit with rfl | hlimit
    · exact Or.inl rfl
    · rw [formatRecordAt_eq event timestamp hlimit]
      split
      · rename_i hfits
        obtain ⟨ms, htext, hreads⟩ := recordTextAt_tree hsound hplain
        refine Or.inr ⟨_, rfl, hfits, fun hnewline => ?_, ms, htext, hreads⟩
        exact absurd (recordTextAt_printable hsound hplain _ hnewline) (by decide)
      · exact Or.inl rfl
  · intro sink earlier later hfailed
    rw [JsonlAuditSink.deliverAll_stops hfailed]

theorem audit_lines_intact_example :
    ∃ event ∈ (init (.ofDefaults {}) {}).trail [.input (.client refusedCall)],
      event.toolName = ascii "x" ∧ event.idJson = ascii "7" ∧
      ∃ line, formatRecordAt event (some (ascii "2026-01-01T00:00:00Z")) 1024 = some line ∧
        line.length ≤ 1024 ∧ 0x0A ∉ line ∧ ∃ ms, line = (Value.obj noGap ms).render ∧
          List.Forall₂ Reads ms (recordFields event (ascii "2026-01-01T00:00:00Z")) := by
  have hevent : ∃ event ∈ (init (.ofDefaults {}) {}).trail [.input (.client refusedCall)],
      event.toolName = ascii "x" ∧ event.idJson = ascii "7" ∧
        formatRecordAt event (some (ascii "2026-01-01T00:00:00Z")) 1024 ≠ none := by
    decide +kernel
  obtain ⟨event, hmem, hname, hid, hformat⟩ := hevent
  have hline := (audit_lines_intact (.ofDefaults {}) {} [.input (.client refusedCall)]
    (ascii "2026-01-01T00:00:00Z") (forall_mem_of_all (by decide))).1 event hmem 1024
  exact ⟨event, hmem, hname, hid, hline.resolve_left hformat⟩

end NativeGuard.Protocol.ToolCallFilter
