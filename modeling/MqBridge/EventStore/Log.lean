import MqBridge.EventStore.Store

/-! The log over whole runs. Every operation appends at its end or drops from its
front, and a read copies a piece of what is left from the two halves of the ring
buffer that holds it. -/
namespace MqBridge.EventStore

open List

inductive Operation where
  | append (event : CanonicalMessage) (timestamp : Nat)
  | appendBatch (messages : List CanonicalMessage) (timestamp : Nat)
  | registerSubscriber (id : String) (now : Nat)
  | ack (id : String) (offset now gcNow : Nat)
  | runGc (now : Nat)

def Store.perform (s : Store) : Operation → Store
  | .append event timestamp => (s.append event timestamp).1
  | .appendBatch messages timestamp => (s.appendBatch messages timestamp).1
  | .registerSubscriber id now => s.registerSubscriber id now
  | .ack id offset now gcNow => (s.ack id offset now gcNow).1
  | .runGc now => (s.runGc now).1

def Operation.messages : Operation → List CanonicalMessage
  | .append event _ => [event]
  | .appendBatch messages _ => messages
  | .registerSubscriber .. | .ack .. | .runGc _ => []

/-- The events from `start` to before `stop`; there is none if they are not all in the slice. -/
def slice (events : List StoredEvent) (start stop : Nat) : Option (List StoredEvent) :=
  if start ≤ stop ∧ stop ≤ events.length then some ((events.drop start).take (stop - start))
  else none

/-- A read of the log as it lies in memory, in two slices. -/
def Store.copyEventsSince (s : Store) (s1 s2 : List StoredEvent) (lastKnownOffset limit : Nat) :
    Option (Except ConsumerError (List StoredEvent)) :=
  let startOffset := lastKnownOffset + 1
  if startOffset < s.baseOffset then some (.error (.gap startOffset s.baseOffset))
  else
    let startIndex := if s.baseOffset < startOffset then startOffset - s.baseOffset else 0
    if s1.length + s2.length ≤ startIndex then some (.ok [])
    else
      let count := min limit (s1.length + s2.length - startIndex)
      if startIndex < s1.length then
        let takeS1 := min count (s1.length - startIndex)
        let remaining := count - takeS1
        if 0 < remaining then do
          let first ← slice s1 startIndex (startIndex + takeS1)
          let second ← slice s2 0 remaining
          some (.ok (first ++ second))
        else (slice s1 startIndex (startIndex + takeS1)).map .ok
      else
        let s2Index := startIndex - s1.length
        (slice s2 s2Index (s2Index + count)).map .ok

/-- The copy stays within the slices, and is the same wherever the buffer is split. -/
theorem copyEventsSince_eq {s : Store} {s1 s2 : List StoredEvent} (hEvents : s1 ++ s2 = s.events)
    (lastKnownOffset limit : Nat) :
    s.copyEventsSince s1 s2 lastKnownOffset limit =
      some (s.getEventsSince lastKnownOffset limit) := by
  rw [Store.copyEventsSince, Store.getEventsSince, ← hEvents]
  have hStart :
      (if s.baseOffset < lastKnownOffset + 1 then lastKnownOffset + 1 - s.baseOffset else 0) =
      lastKnownOffset + 1 - s.baseOffset := by
    split_ifs <;> omega
  simp only [hStart]
  generalize lastKnownOffset + 1 - s.baseOffset = start
  have hLimit : ((s1 ++ s2).drop start).take limit =
      ((s1 ++ s2).drop start).take (min limit (s1.length + s2.length - start)) := by
    rw [take_eq_take_iff, length_drop, length_append]
    omega
  have hCount : min limit (s1.length + s2.length - start) ≤ s1.length + s2.length - start :=
    min_le_right ..
  rw [hLimit]
  generalize min limit (s1.length + s2.length - start) = count at hCount
  split_ifs with hGap hNone hFirst hBoth
  · rfl
  · rw [drop_eq_nil_of_le (by rw [length_append]; exact hNone), take_nil]
  · have hWhole : min count (s1.length - start) = s1.length - start := by omega
    have hAll : (s1.drop start).take count = s1.drop start :=
      take_of_length_le (by rw [length_drop]; omega)
    rw [hWhole, slice, if_pos (by omega), slice, if_pos (by omega),
      drop_append_of_le_length hFirst.le,
      take_append, hAll, length_drop, Nat.add_sub_cancel_left,
        take_of_length_le (length_drop ..).le]
    rfl
  · have hPart : min count (s1.length - start) = count := by omega
    rw [hPart, slice, if_pos (by omega), drop_append_of_le_length hFirst.le,
      Nat.add_sub_cancel_left, take_append_of_le_length (by rw [length_drop]; omega)]
    rfl
  · rw [slice, if_pos (by omega), drop_append, drop_eq_nil_of_le (not_lt.mp hFirst),
      Nat.add_sub_cancel_left]
    rfl

theorem push_events (s : Store) (messages : List CanonicalMessage) (timestamp : Nat) :
    ∃ count, (s.push messages timestamp).events =
        (s.events ++ messages.zipIdx.map fun m =>
          StoredEvent.mk m.1 (s.nextOffset + m.2) timestamp).drop count ∧
      (s.push messages timestamp).baseOffset = s.baseOffset + count ∧
      (s.push messages timestamp).nextOffset = s.nextOffset + messages.length := by
  rw [Store.push, Store.enforceMaxCount]
  split
  · exact ⟨0, rfl, rfl, rfl⟩
  · exact ⟨_, rfl, rfl, rfl⟩

/-- The log is what is left of everything that was appended. -/
structure Represents (s : Store) (appended : List CanonicalMessage) :
    Prop extends Contiguous s where
  messages : s.events.map StoredEvent.message = appended.drop (s.baseOffset - 1)
  first : 1 ≤ s.baseOffset
  last : s.nextOffset = appended.length + 1

namespace Represents

variable {s t : Store} {appended : List CanonicalMessage}

theorem new (policy : RetentionPolicy) (now : Nat) : Represents (Store.new policy now) [] where
  toContiguous := new_contiguous policy now
  messages := rfl
  first := Nat.le_refl 1
  last := rfl

variable (h : Represents s appended)

include h

/-- Dropping from the front keeps the rest. -/
theorem drop {count : Nat} (hContig : Contiguous t)
    (hEvents : t.events = s.events.drop count) (hBase : t.baseOffset = s.baseOffset + count)
    (hCount : count ≤ s.events.length) : Represents t appended where
  toContiguous := hContig
  messages := by
    have hFirst := h.first
    rw [hEvents, map_drop, h.messages, drop_drop]
    congr 1
    omega
  first := hBase ▸ h.first.trans (Nat.le_add_right ..)
  last := by
    have hNext := h.next
    rw [hContig.next, hEvents, length_drop, ← h.last]
    omega

theorem push (messages : List CanonicalMessage) (timestamp : Nat) :
    Represents (s.push messages timestamp) (appended ++ messages) := by
  have hContig := push_contiguous h.toContiguous messages timestamp
  obtain ⟨count, hEvents, hBase, hNext⟩ := push_events s messages timestamp
  have hFirst := h.first
  have hLen : s.baseOffset - 1 ≤ appended.length := by
    have hBounds := h.next.symm.trans h.last
    omega
  refine ⟨hContig, ?_, hBase ▸ hFirst.trans (Nat.le_add_right ..), ?_⟩
  · have hSum : s.baseOffset + count - 1 = s.baseOffset - 1 + count := by omega
    rw [hEvents, hBase, hSum, map_drop, map_append, map_map, ← drop_drop,
      drop_append_of_le_length hLen, h.messages]
    congr 2
    exact zipIdx_map_fst 0 messages
  · rw [hNext, h.last, length_append]
    omega

theorem perform (operation : Operation) :
    Represents (s.perform operation) (appended ++ operation.messages) := by
  cases operation with
  | append event timestamp => exact h.push [event] timestamp
  | appendBatch messages timestamp =>
    rw [Store.perform, Store.appendBatch]
    split_ifs with hEmpty
    · rw [Operation.messages, isEmpty_iff.mp hEmpty, append_nil]
      exact h
    · exact h.push messages timestamp
  | registerSubscriber id now =>
    rw [Store.perform, Store.registerSubscriber, Operation.messages, append_nil]
    split_ifs <;> exact { h with }
  | ack id offset now gcNow =>
    obtain ⟨hEvents, hBase, -, hCount⟩ := ack_events s id offset now gcNow
    rw [Operation.messages, append_nil]
    exact h.drop (ack_contiguous h.toContiguous ..) hEvents hBase hCount
  | runGc now =>
    obtain ⟨hEvents, hBase, -, hCount⟩ := runGc_events s now
    rw [Operation.messages, append_nil]
    exact h.drop (runGc_contiguous h.toContiguous now) hEvents hBase hCount

theorem run (operations : List Operation) :
    Represents (operations.foldl Store.perform s)
      (appended ++ operations.flatMap Operation.messages) := by
  induction operations generalizing s appended with
  | nil =>
    rw [flatMap_nil, append_nil]
    exact h
  | cons operation rest ih =>
    rw [flatMap_cons, ← append_assoc]
    exact ih (h.perform operation)

/-- What was appended and is not stored any more is before the first stored event. -/
theorem removed_iff (k : Nat) :
    (k < appended.length ∧ ∀ event ∈ s.events, event.offset ≠ k + 1) ↔ k + 1 < s.baseOffset := by
  have hStored :
      (∃ event ∈ s.events, event.offset = k + 1) ↔ s.baseOffset ≤ k + 1 ∧ k + 1 < s.nextOffset := by
    rw [← mem_map, h.offsets, mem_range'_1, h.next]
  have hLast := h.last
  have hNext := h.next
  constructor
  · rintro ⟨hAppended, hNone⟩
    by_contra hBase
    obtain ⟨event, hMem, hOffset⟩ := hStored.mpr ⟨not_lt.mp hBase, by omega⟩
    exact hNone event hMem hOffset
  · intro hBase
    refine ⟨by omega, fun event hMem hOffset => ?_⟩
    exact absurd (hStored.mp ⟨event, hMem, hOffset⟩).1 (not_le.mpr hBase)

end Represents

/-- After any operations the stored events have consecutive offsets, and they are the last
of those appended. A read copies the events after `k` in order, as many as there are up to the
limit, unless the first of them is gone. -/
theorem log_represents (policy : RetentionPolicy) (now : Nat) (operations : List Operation) :
    let s := operations.foldl Store.perform (Store.new policy now)
    let appended := operations.flatMap Operation.messages
    s.events.map StoredEvent.offset = List.range' s.baseOffset s.events.length ∧
      s.nextOffset = s.baseOffset + s.events.length ∧
      s.nextOffset = appended.length + 1 ∧
      s.events.map StoredEvent.message = appended.drop (s.baseOffset - 1) ∧
      ∀ split k limit,
        let read := s.copyEventsSince (s.events.take split) (s.events.drop split) k limit
        if k < appended.length ∧ ∀ event ∈ s.events, event.offset ≠ k + 1 then
          read = some (.error (.gap (k + 1) s.baseOffset))
        else ∃ events, read = some (.ok events) ∧ events <:+: s.events ∧
          events.map StoredEvent.offset =
            List.range' (k + 1) (min limit (s.nextOffset - (k + 1))) := by
  intro s appended
  have h : Represents s appended := (Represents.new policy now).run operations
  refine ⟨h.offsets, h.next, h.last, h.messages, fun split k limit => ?_⟩
  rw [copyEventsSince_eq (take_append_drop split s.events), Store.getEventsSince]
  simp only [h.removed_iff k]
  split_ifs with hBase
  · rfl
  · refine ⟨_, rfl, IsInfix.trans ⟨[], _, take_append_drop ..⟩ (drop_suffix ..).isInfix, ?_⟩
    rw [getEventsSince_offsets h.toContiguous (if_neg hBase), length_take, length_drop]
    have hNext := h.next
    congr 1
    omega

end MqBridge.EventStore
