import MqBridge.Collections.Places
import MqBridge.Consumer

/-! The in-memory event store: an append-only log whose front is dropped by
the retention policy and by garbage collection, and the acknowledged offset of
each subscriber. Times and durations are in milliseconds; an operation that
reads the clock takes the value it reads. The lock of the log makes each
operation one step. -/
namespace MqBridge.EventStore

open List

structure RetentionPolicy where
  maxAge : Option Nat
  maxCount : Option Nat
  subscriberTimeout : Nat
  gcInterval : Nat
  deriving DecidableEq

def RetentionPolicy.default : RetentionPolicy where
  maxAge := some (3600 * 24 * 1000)
  maxCount := some 100000
  subscriberTimeout := 300 * 1000
  gcInterval := 1000

structure SubscriberState where
  lastAckOffset : Nat
  lastSeen : Nat
  deriving DecidableEq

structure StoredEvent where
  message : CanonicalMessage
  offset : Nat
  storedAt : Nat
  deriving DecidableEq

/-- The subscribers are entries of a map from ids. `offsetUpdate` is the
value of the watch channel that waiting consumers look at. -/
structure Store where
  events : List StoredEvent
  subscribers : List (String × SubscriberState)
  nextOffset : Nat
  baseOffset : Nat
  policy : RetentionPolicy
  offsetUpdate : Nat
  droppedEvents : Nat
  delivered : Nat
  lastGc : Nat
  deriving DecidableEq

def Store.new (policy : RetentionPolicy) (now : Nat) : Store where
  events := []
  subscribers := []
  nextOffset := 1
  baseOffset := 1
  policy := policy
  offsetUpdate := 0
  droppedEvents := 0
  delivered := 0
  lastGc := now

def Store.drain (s : Store) (count : Nat) : Store :=
  { s with events := s.events.drop count, baseOffset := s.baseOffset + count }

def Store.enforceMaxCount (s : Store) : Store :=
  match s.policy.maxCount with
  | none => s
  | some max =>
    let removeCount := s.events.length - max
    { s.drain removeCount with droppedEvents := s.droppedEvents + removeCount }

def Store.push (s : Store) (messages : List CanonicalMessage) (timestamp : Nat) : Store :=
  let stored := messages.zipIdx.map fun m => ⟨m.1, s.nextOffset + m.2, timestamp⟩
  { Store.enforceMaxCount { s with
      events := s.events ++ stored
      nextOffset := s.nextOffset + messages.length } with
    offsetUpdate := s.nextOffset + messages.length - 1 }

def Store.append (s : Store) (event : CanonicalMessage) (timestamp : Nat) : Store × Nat :=
  (s.push [event] timestamp, s.nextOffset)

def Store.appendBatch (s : Store) (messages : List CanonicalMessage) (timestamp : Nat) :
    Store × Nat :=
  if messages.isEmpty then (s, s.nextOffset - 1)
  else (s.push messages timestamp, s.nextOffset + messages.length - 1)

def Store.registerSubscriber (s : Store) (id : String) (now : Nat) : Store :=
  if s.subscribers.any (fun entry => decide (entry.1 = id)) then
    { s with subscribers := s.subscribers.map fun entry =>
        if entry.1 = id then (entry.1, { entry.2 with lastSeen := now }) else entry }
  else { s with subscribers := s.subscribers ++ [(id, ⟨0, now⟩)] }

/-- The events after `lastKnownOffset`, or a gap if the first of them is gone. -/
def Store.getEventsSince (s : Store) (lastKnownOffset limit : Nat) :
    Except ConsumerError (List StoredEvent) :=
  let startOffset := lastKnownOffset + 1
  if startOffset < s.baseOffset then .error (.gap startOffset s.baseOffset)
  else .ok ((s.events.drop (startOffset - s.baseOffset)).take limit)

inductive GcCause where
  /-- All active subscribers have acknowledged it. -/
  | acked
  /-- It is older than the policy allows. -/
  | aged
  deriving DecidableEq

def isActive (timeout now : Nat) (entry : String × SubscriberState) : Bool :=
  decide (entry.2.lastSeen ≤ now ∧ now - entry.2.lastSeen < timeout)

def isAged (policy : RetentionPolicy) (now : Nat) (event : StoredEvent) : Bool :=
  match policy.maxAge with
  | some maxAge => decide (event.storedAt ≤ now ∧ maxAge < now - event.storedAt)
  | none => false

/-- Whether the event at `offset` may go, given the acknowledged offsets of
the active subscribers. -/
def gcCause (policy : RetentionPolicy) (now : Nat) (activeAcks : List Nat) (offset : Nat)
    (event : StoredEvent) : Option GcCause :=
  if activeAcks.min?.any (fun minAck => decide (offset ≤ minAck)) then some .acked
  else if isAged policy now event then some .aged
  else none

/-- The offsets the collection removes, in order: it stops at the first event
that has to stay. -/
def gcRemoved (policy : RetentionPolicy) (now : Nat) (activeAcks : List Nat) (offset : Nat) :
    List StoredEvent → List (Nat × GcCause)
  | [] => []
  | event :: rest =>
    match gcCause policy now activeAcks offset event with
    | some cause => (offset, cause) :: gcRemoved policy now activeAcks (offset + 1) rest
    | none => []

/-- `run_gc`, with what it removed. Subscribers that timed out are dropped. -/
def Store.runGc (s : Store) (now : Nat) : Store × List (Nat × GcCause) :=
  if s.subscribers.isEmpty then (s, [])
  else
    let subscribers := s.subscribers.filter (isActive s.policy.subscriberTimeout now)
    let activeAcks := subscribers.map fun entry => entry.2.lastAckOffset
    let removed := gcRemoved s.policy now activeAcks s.baseOffset s.events
    ({ s with subscribers := subscribers }.drain removed.length, removed)

def Store.recordAck (s : Store) (id : String) (offset now : Nat) : Store :=
  { s with subscribers := s.subscribers.map fun entry =>
      if entry.1 = id then (entry.1, ⟨max entry.2.lastAckOffset offset, now⟩) else entry }

/-- Acknowledges the events up to `offset`. The collection runs if the last
one is long enough ago, and reads the clock again. -/
def Store.ack (s : Store) (id : String) (offset now gcNow : Nat) :
    Store × List (Nat × GcCause) :=
  let s := s.recordAck id offset now
  if s.policy.gcInterval ≤ now - s.lastGc then { s with lastGc := now }.runGc gcNow
  else (s, [])

def Store.unread (s : Store) : Nat := s.nextOffset - 1 - max s.delivered (s.baseOffset - 1)

/-! ### The log has consecutive offsets -/

/-- The stored events have the offsets from `baseOffset` to `nextOffset`. -/
structure Contiguous (s : Store) : Prop where
  offsets : s.events.map StoredEvent.offset = List.range' s.baseOffset s.events.length
  next : s.nextOffset = s.baseOffset + s.events.length

theorem new_contiguous (policy : RetentionPolicy) (now : Nat) :
    Contiguous (Store.new policy now) := ⟨rfl, rfl⟩

variable {s : Store}

section

variable (h : Contiguous s)

include h

theorem drain_contiguous {count : Nat}
    (hCount : count ≤ s.events.length) : Contiguous (s.drain count) where
  offsets := by
    change (s.events.drop count).map StoredEvent.offset =
      range' (s.baseOffset + count) (s.events.drop count).length
    rw [map_drop, h.offsets]
    simp
  next := by
    change s.nextOffset = s.baseOffset + count + (s.events.drop count).length
    rw [h.next, length_drop]
    omega

theorem enforceMaxCount_contiguous : Contiguous s.enforceMaxCount := by
  rw [Store.enforceMaxCount]
  split
  · exact h
  next max _ =>
    have hDrain := drain_contiguous h (Nat.sub_le s.events.length max)
    exact { hDrain with }

theorem push_contiguous (messages : List CanonicalMessage)
    (timestamp : Nat) : Contiguous (s.push messages timestamp) := by
  have hPushed : Contiguous { s with
      events := s.events ++ messages.zipIdx.map fun m => ⟨m.1, s.nextOffset + m.2, timestamp⟩
      nextOffset := s.nextOffset + messages.length } := by
    constructor
    · simp only [map_append, map_map, length_append, length_map, length_zipIdx, h.offsets,
        ← range'_append_1]
      congr 1
      rw [← h.next, range'_eq_map_range, range_eq_range', ← zipIdx_map_snd 0 messages, map_map]
      rfl
    · simp only [length_append, length_map, length_zipIdx, h.next, add_assoc]
  have hKept := enforceMaxCount_contiguous hPushed
  exact { hKept with }

end

theorem gcRemoved_length_le (policy : RetentionPolicy) (now : Nat) (activeAcks : List Nat)
    (offset : Nat) (events : List StoredEvent) :
    (gcRemoved policy now activeAcks offset events).length ≤ events.length := by
  induction events generalizing offset with
  | nil => exact le_refl _
  | cons event rest ih =>
    rw [gcRemoved]
    split
    · exact Nat.succ_le_succ (ih (offset + 1))
    · exact Nat.zero_le _

section

variable (h : Contiguous s)

include h

theorem runGc_contiguous (now : Nat) : Contiguous (s.runGc now).1 := by
  rw [Store.runGc]
  split_ifs
  · exact h
  · refine drain_contiguous ?_ (gcRemoved_length_le ..)
    exact { h with }

theorem ack_contiguous (id : String) (offset now gcNow : Nat) :
    Contiguous (s.ack id offset now gcNow).1 := by
  rw [Store.ack]
  split_ifs
  · refine runGc_contiguous ?_ gcNow
    exact { h with }
  · exact { h with }

theorem registerSubscriber_contiguous (id : String) (now : Nat) :
    Contiguous (s.registerSubscriber id now) := by
  rw [Store.registerSubscriber]
  split_ifs
  · exact { h with }
  · exact { h with }

end

/-- A collection takes the events that it removes from the front of the log. -/
theorem runGc_events (s : Store) (now : Nat) :
    (s.runGc now).1.events = s.events.drop (s.runGc now).2.length ∧
      (s.runGc now).1.baseOffset = s.baseOffset + (s.runGc now).2.length ∧
      (s.runGc now).1.policy = s.policy ∧ (s.runGc now).2.length ≤ s.events.length := by
  rw [Store.runGc]
  split_ifs
  · simp
  · exact ⟨rfl, rfl, rfl, gcRemoved_length_le ..⟩

theorem ack_events (s : Store) (id : String) (offset now gcNow : Nat) :
    (s.ack id offset now gcNow).1.events = s.events.drop (s.ack id offset now gcNow).2.length ∧
      (s.ack id offset now gcNow).1.baseOffset =
        s.baseOffset + (s.ack id offset now gcNow).2.length ∧
      (s.ack id offset now gcNow).1.policy = s.policy ∧
      (s.ack id offset now gcNow).2.length ≤ s.events.length := by
  rw [Store.ack]
  split_ifs
  · exact runGc_events { s.recordAck id offset now with lastGc := now } gcNow
  · simp [Store.recordAck]

variable {events : List StoredEvent}

/-- A read returns consecutive events from the first one it asks for. -/
theorem getEventsSince_offsets (h : Contiguous s) {lastKnownOffset limit : Nat}
    (hRead : s.getEventsSince lastKnownOffset limit = .ok events) :
    events.map StoredEvent.offset = List.range' (lastKnownOffset + 1) events.length := by
  rw [Store.getEventsSince] at hRead
  split_ifs at hRead with hGap
  cases hRead
  have hStart : s.baseOffset + (lastKnownOffset + 1 - s.baseOffset) * 1 = lastKnownOffset + 1 := by
    omega
  rw [map_take, map_drop, h.offsets, drop_range', hStart, length_take, length_drop]
  rcases le_total (s.events.length - (lastKnownOffset + 1 - s.baseOffset)) limit with hAll | hSome
  · rw [take_range'_of_length_le hAll, min_eq_right hAll]
  · rw [take_range'_of_length_ge hSome, min_eq_left hSome]

/-! ### What is removed for being acknowledged -/

theorem acked_of_gcCause {policy : RetentionPolicy} {now offset : Nat} {activeAcks : List Nat}
    {event : StoredEvent} (hCause : gcCause policy now activeAcks offset event = some .acked) :
    ∃ acked ∈ activeAcks, offset ≤ acked := by
  rw [gcCause] at hCause
  split_ifs at hCause with hAcked hAged
  · obtain ⟨minAck, hMin, hLe⟩ := (Option.any_eq_true ..).mp hAcked
    exact ⟨minAck, min?_mem hMin, of_decide_eq_true hLe⟩
  · cases hCause

theorem mem_gcRemoved_acked {policy : RetentionPolicy} {now : Nat} {activeAcks : List Nat}
    {offset x : Nat}
    (hRemoved : (x, GcCause.acked) ∈ gcRemoved policy now activeAcks offset events) :
    ∃ acked ∈ activeAcks, x ≤ acked := by
  induction events generalizing offset with
  | nil => cases hRemoved
  | cons event rest ih =>
    rw [gcRemoved] at hRemoved
    split at hRemoved
    next cause hCause =>
      rcases mem_cons.mp hRemoved with hThis | hRest
      · cases hThis
        exact acked_of_gcCause hCause
      · exact ih hRest
    next => cases hRemoved

def AcksBelow (s : Store) (bound : Nat) : Prop :=
  ∀ entry ∈ s.subscribers, entry.2.lastAckOffset ≤ bound

theorem recordAck_acksBelow {bound offset : Nat} (h : AcksBelow s bound)
    (hOffset : offset ≤ bound) (id : String) (now : Nat) :
    AcksBelow (s.recordAck id offset now) bound := by
  intro entry hEntry
  obtain ⟨old, hOld, rfl⟩ := mem_map.mp hEntry
  split_ifs
  · exact Nat.max_le.mpr ⟨h old hOld, hOffset⟩
  · exact h old hOld

theorem registerSubscriber_acksBelow {bound : Nat} (h : AcksBelow s bound)
    (id : String) (now : Nat) : AcksBelow (s.registerSubscriber id now) bound := by
  rw [Store.registerSubscriber]
  split_ifs
  · intro entry hEntry
    obtain ⟨old, hOld, rfl⟩ := mem_map.mp hEntry
    split_ifs
    · exact h old hOld
    · exact h old hOld
  · exact Places.forall_mem_snoc h (Nat.zero_le bound)

/-- An acknowledgement removes as acknowledged only what some subscriber has
acknowledged. -/
theorem ack_acksBelow {bound offset : Nat} (h : AcksBelow s bound)
    (hOffset : offset ≤ bound) (id : String) (now gcNow : Nat) :
    AcksBelow (s.ack id offset now gcNow).1 bound ∧
      ∀ x, (x, GcCause.acked) ∈ (s.ack id offset now gcNow).2 → x ≤ bound := by
  have hRecorded := recordAck_acksBelow h hOffset id now
  rw [Store.ack]
  split_ifs
  · rw [Store.runGc]
    split_ifs
    · exact ⟨hRecorded, nofun⟩
    · refine ⟨fun entry hEntry => hRecorded entry (mem_of_mem_filter hEntry), ?_⟩
      intro x hRemoved
      obtain ⟨acked, hAcked, hLe⟩ := mem_gcRemoved_acked hRemoved
      obtain ⟨entry, hEntry, rfl⟩ := mem_map.mp hAcked
      exact hLe.trans (hRecorded entry (mem_of_mem_filter hEntry))
  · exact ⟨hRecorded, nofun⟩

end MqBridge.EventStore
