import MqBridge.EventStore.Store
import MqBridge.Machine.Run

/-! One consumer of an event store. `receive_batch` is two steps: it loads the
position of the consumer, may wait for events, and then reads, stores the new
position and notes how many rewinds there were. Between the two, appends and
commits of earlier batches can happen. Commits run in the order of the reads;
a commit that never runs is passed over. -/
namespace MqBridge.EventStore

open Option

/-- What the commit of a batch remembers: the batch covers the offsets after
`lastOffsetVal` up to `newOffset`. -/
structure Batch where
  lastOffsetVal : Nat
  newOffset : Nat
  readAt : Nat
  deriving DecidableEq

inductive Event where
  | handedOut (offsets : List Nat)
  /-- The commit of a batch contains a nack. -/
  | nacked (lastOffsetVal newOffset : Nat)
  | acked (offset : Nat)
  /-- The garbage collection removes an event for being acknowledged. -/
  | collected (offset : Nat)
  deriving DecidableEq

structure State where
  store : Store
  lastOffset : Nat
  rewinds : Nat
  /-- The position that a `receive_batch` under way has loaded. -/
  pending : Option Nat
  outstanding : List Batch
  log : List Event
  deriving DecidableEq

def initial (policy : RetentionPolicy) (now : Nat) : State :=
  ⟨Store.new policy now, 0, 0, none, [], []⟩

inductive Action where
  | append (event : CanonicalMessage) (timestamp : Nat)
  | appendBatch (messages : List CanonicalMessage) (timestamp : Nat)
  | receiveStart (now : Nat)
  | receiveEnd (maxMessages : Nat)
  /-- The idle wait times out into an empty batch, or the caller drops the
  receive. -/
  | giveUp
  /-- The commit of the first batch after the `skip` oldest ones, which are
  never committed. -/
  | commit (skip : Nat) (dispositions : List MessageDisposition) (now gcNow : Nat)
  deriving DecidableEq

def State.finishReceive (s : State) (lastOffsetVal : Nat) (events : List StoredEvent) : State :=
  let newOffset := (events.getLast?.map StoredEvent.offset).getD lastOffsetVal
  { s with
    store := { s.store with delivered :=
      if events.isEmpty then s.store.delivered else max s.store.delivered newOffset }
    lastOffset := newOffset
    pending := none
    outstanding := s.outstanding ++ [⟨lastOffsetVal, newOffset, s.rewinds⟩]
    log := s.log ++ [.handedOut (events.map StoredEvent.offset)] }

def collectedOf : Nat × GcCause → Option Event
  | (offset, .acked) => some (.collected offset)
  | (_, .aged) => none

def State.commit (subscriberId : String) (s : State) (batch : Batch) (rest : List Batch)
    (dispositions : List MessageDisposition) (now gcNow : Nat) : State :=
  if anyNack dispositions then
    { s with
      rewinds := s.rewinds + 1
      lastOffset := min s.lastOffset batch.lastOffsetVal
      outstanding := rest
      log := s.log ++ [.nacked batch.lastOffsetVal batch.newOffset] }
  else if s.rewinds = batch.readAt then
    let acked := s.store.ack subscriberId batch.newOffset now gcNow
    { s with
      store := acked.1
      outstanding := rest
      log := s.log ++ .acked batch.newOffset :: acked.2.filterMap collectedOf }
  else { s with outstanding := rest }

/-- The store's writers and one subscriber take turns. -/
def step (subscriberId : String) (s : State) : Action → Option State
  | .append event timestamp => some { s with store := (s.store.append event timestamp).1 }
  | .appendBatch messages timestamp =>
    some { s with store := (s.store.appendBatch messages timestamp).1 }
  | .receiveStart now =>
    match s.pending with
    | none =>
      some { s with
        store := s.store.registerSubscriber subscriberId now
        pending := some s.lastOffset }
    | some _ => none
  | .receiveEnd maxMessages =>
    match s.pending with
    | none => none
    | some lastOffsetVal =>
      match s.store.getEventsSince lastOffsetVal maxMessages with
      | .error _ => some { s with pending := none }
      | .ok events =>
        if events.isEmpty ∧ s.store.offsetUpdate ≤ lastOffsetVal then none
        else some (s.finishReceive lastOffsetVal events)
  | .giveUp =>
    match s.pending with
    | none => none
    | some _ => some { s with pending := none }
  | .commit skip dispositions now gcNow =>
    match s.outstanding.drop skip with
    | [] => none
    | batch :: rest => some (s.commit subscriberId batch rest dispositions now gcNow)

/-- A receive ends with an error that changes nothing, or with a batch. -/
theorem step_receiveEnd {subscriberId : String} {s t : State} {maxMessages : Nat}
    (hStep : step subscriberId s (.receiveEnd maxMessages) = some t) :
    ∃ lastOffsetVal, s.pending = some lastOffsetVal ∧
      (t = { s with pending := none } ∨ ∃ events, s.store.getEventsSince lastOffsetVal maxMessages =
        .ok events ∧ t = s.finishReceive lastOffsetVal events) := by
  rw [step] at hStep
  split at hStep
  next => cases hStep
  next lastOffsetVal hPend =>
    refine ⟨lastOffsetVal, hPend, ?_⟩
    split at hStep
    next => exact .inl (some.inj hStep).symm
    next events hRead =>
      split_ifs at hStep
      exact .inr ⟨events, hRead, (some.inj hStep).symm⟩

/-- The position after a read is the offset of the last event, which are
consecutive. -/
theorem newOffset_eq {store : Store} (h : Contiguous store) {lastOffsetVal maxMessages : Nat}
    {events : List StoredEvent}
    (hRead : store.getEventsSince lastOffsetVal maxMessages = .ok events) :
    (events.getLast?.map StoredEvent.offset).getD lastOffsetVal =
      lastOffsetVal + events.length := by
  rw [← List.getLast?_map, getEventsSince_offsets h hRead, List.getLast?_range']
  split_ifs with hEmpty
  · rw [hEmpty]
    rfl
  · rw [getD_some]
    omega

end MqBridge.EventStore
