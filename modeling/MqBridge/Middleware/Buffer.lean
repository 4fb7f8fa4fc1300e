import MqBridge.Machine.Run
import MqBridge.Publisher
import MqBridge.Collections.InsertionMap

/-! The buffering publisher. Messages of all callers wait in one queue and are
sent in batches, when there are enough of them or a timer runs out. The result
of a batch is handed back to the callers by message id.

Each task that is spawned, a timer or the start of a flush, takes its steps at
any time. A step is what is done between two awaits. The time of a timer is
not modelled: it runs out at any time. -/
namespace MqBridge.Buffer

inductive Sent where
  | ack
  | response (message : CanonicalMessage)
  deriving DecidableEq

abbrev EntryResult := Except PublisherError Sent

/-- A message on its way, with its caller. Entries are numbered as they arrive. -/
structure Entry where
  number : Nat
  caller : Nat
  message : CanonicalMessage
  deriving DecidableEq

def Entry.messageId (entry : Entry) : Nat := entry.message.messageId

structure BufferCore where
  maxMessages : Nat
  positive : 0 < maxMessages

def BufferCore.new (maxMessages : Nat) : Except String BufferCore :=
  if h : maxMessages = 0 then .error "Buffer max_messages must be greater than zero"
  else .ok ⟨maxMessages, Nat.pos_of_ne_zero h⟩

/-- The loop of `take_batch`: sends whose caller gave up are dropped, and the
batch ends at a repeated id. -/
def takeBatchLoop (isClosed : Entry → Bool) (maxMessages : Nat) (entries : List Entry) :
    List Entry → List Entry × List Entry
  | [] => (entries, [])
  | front :: pending =>
    if maxMessages ≤ entries.length then (entries, front :: pending)
    else if isClosed front then takeBatchLoop isClosed maxMessages entries pending
    else if front.messageId ∈ entries.map Entry.messageId then (entries, front :: pending)
    else takeBatchLoop isClosed maxMessages (entries ++ [front]) pending

def takeBatch (isClosed : Entry → Bool) (pending : List Entry) (maxMessages : Nat) :
    List Entry × List Entry :=
  takeBatchLoop isClosed maxMessages [] pending

def rebuildError (error : PublisherError) (message : String) : PublisherError :=
  match error with
  | .retryable _ => .retryable message
  | .nonRetryable _ => .nonRetryable message
  | .connection _ => .connection message

def failedMap (failed : List Failure) : Nat → Option PublisherError :=
  LastOf.collect (fun failure => failure.1.messageId) Prod.snd failed

def responseMap (responses : List CanonicalMessage) : Nat → Option CanonicalMessage :=
  LastOf.collect CanonicalMessage.messageId id responses

/-- The loop over the entries of a batch. An error stays in its map as a copy,
a response is taken out. -/
def distributeEach (failed : Nat → Option PublisherError)
    (responses : Nat → Option CanonicalMessage) : List Entry → List (Nat × EntryResult)
  | [] => []
  | entry :: rest =>
    match failed entry.messageId with
    | some error =>
      (entry.number, .error error) ::
        distributeEach
          (Function.update failed entry.messageId (some (rebuildError error error.toText)))
          responses rest
    | none =>
      match responses entry.messageId with
      | some response =>
        (entry.number, .ok (.response response)) ::
          distributeEach failed (Function.update responses entry.messageId none) rest
      | none => (entry.number, .ok .ack) :: distributeEach failed responses rest

def distributeBatchResults (entries : List Entry) : SendResult → List (Nat × EntryResult)
  | .ok .ack => entries.map fun entry => (entry.number, .ok .ack)
  | .ok (.partly responses failed) =>
    distributeEach (failedMap failed) (responseMap (responses.getD [])) entries
  | .error error =>
    entries.map fun entry => (entry.number, .error (rebuildError error error.toText))

inductive Reply where
  | sent (result : EntryResult)
  | batch (result : SendResult)
  deriving DecidableEq

inductive Status where
  | waiting
  /-- The future of the call is dropped, and its receivers with it. -/
  | gaveUp
  | answered (reply : Reply)
  deriving DecidableEq

structure Caller where
  isBatch : Bool
  entries : List Entry
  status : Status

def batchResult (messages : List CanonicalMessage) (results : List EntryResult) : SentBatch :=
  let responses := results.filterMap fun result =>
    match result with
    | .ok (.response response) => some response
    | _ => none
  let failed := (messages.zip results).filterMap fun entry =>
    match entry.2 with
    | .error error => some (entry.1, error)
    | .ok _ => none
  if failed.isEmpty && responses.isEmpty then .ack
  else .partly (if responses.isEmpty then none else some responses) failed

def Caller.reply (caller : Caller) (results : List EntryResult) : Option Reply :=
  if caller.isBatch then
    some (.batch (.ok (batchResult (caller.entries.map Entry.message) results)))
  else results.getLast?.map .sent

structure Flight where
  entries : List Entry
  /-- The results are handed back; the state is reset next. -/
  distributed : Bool

structure State where
  pending : List Entry
  flushInProgress : Bool
  timerGeneration : Nat
  /-- The `flush` calls that wait to be told. -/
  flushWaiters : List Nat
  /-- The generations of the timers that have not run out. -/
  timers : List Nat
  /-- How many runs of `maybe_flush` have yet to look at the state. -/
  starts : Nat
  flights : List Flight
  callers : List Caller
  arrived : List Entry
  /-- The batches that were given to the inner publisher. -/
  sent : List (List Entry)
  /-- The batches it has answered, with its results. -/
  results : List (List Entry × SendResult)
  /-- The `flush` calls that found nothing to wait for. -/
  flushed : List Nat

def new : State := ⟨[], false, 0, [], [], 0, [], [], [], [], [], []⟩

namespace State

variable (s : State)

def isClosed (entry : Entry) : Bool :=
  match s.callers[entry.caller]? with
  | some caller => decide (caller.status = .gaveUp)
  | none => false

def answers : List (Nat × EntryResult) :=
  s.results.flatMap fun entry => distributeBatchResults entry.1 entry.2

/-- A timer of a new generation. The counter wraps around. -/
def spawnTimer : State :=
  let generation := (s.timerGeneration + 1) % 2 ^ 64
  { s with timerGeneration := generation, timers := s.timers ++ [generation] }

def tryStartFlush : State := { s with starts := s.starts + 1 }

end State

inductive Action where
  | send (message : CanonicalMessage)
  | sendBatch (messages : List CanonicalMessage)
  /-- The call has all its results and returns. -/
  | collect (caller : Nat)
  | giveUp (caller : Nat)
  /-- A round of the loop of `flush`. -/
  | flush (id : Nat)
  | onTimer (generation : Nat)
  | maybeFlush
  /-- The inner publisher has answered; a panic of it is an answer as well. -/
  | distribute (flight : Nat) (result : SendResult)
  | reset (flight : Nat)
  deriving DecidableEq

/-- The steps that are not those of a caller. -/
def Action.IsTask : Action → Prop
  | onTimer _ | maybeFlush | distribute _ _ | reset _ => True
  | _ => False

namespace State

variable (core : BufferCore) (s : State)

def entriesOf (messages : List CanonicalMessage) : List Entry :=
  messages.zipIdx.map fun entry => ⟨s.arrived.length + entry.2, s.callers.length, entry.1⟩

def enqueueMessages (isBatch : Bool) (messages : List CanonicalMessage) : State :=
  let entries := s.entriesOf messages
  let t :=
    { s with
      pending := s.pending ++ entries
      arrived := s.arrived ++ entries
      callers := s.callers ++ [⟨isBatch, entries, .waiting⟩] }
  if core.maxMessages ≤ t.pending.length then t.tryStartFlush
  else if s.pending.isEmpty && !s.flushInProgress then t.spawnTimer
  else t

def startFlush : State :=
  if s.flushInProgress || s.pending.isEmpty then s
  else
    let (batch, rest) := takeBatch s.isClosed s.pending core.maxMessages
    if batch.isEmpty then { s with pending := rest, flushWaiters := [] }
    else
      { s with
        pending := rest
        flushInProgress := true
        timerGeneration := (s.timerGeneration + 1) % 2 ^ 64
        flights := s.flights ++ [⟨batch, false⟩]
        sent := s.sent ++ [batch] }

def reset (flight : Nat) : State :=
  let s := { s with flushInProgress := false, flights := s.flights.eraseIdx flight }
  if s.pending.isEmpty then { s with flushWaiters := [] }
  else if core.maxMessages ≤ s.pending.length then s.tryStartFlush
  else s.spawnTimer

end State

/-- Callers, timers and flushes take turns. -/
def step (core : BufferCore) (s : State) : Action → Option State
  | .send message => some (s.enqueueMessages core false [message])
  | .sendBatch messages =>
    if messages.isEmpty then
      some { s with callers := s.callers ++ [⟨true, [], .answered (.batch (.ok .ack))⟩] }
    else some (s.enqueueMessages core true messages)
  | .collect index => do
      let caller ← s.callers[index]?
      if caller.status = .waiting then
        let results ← caller.entries.mapM fun entry => s.answers.lookup entry.number
        let reply ← caller.reply results
        some { s with callers := s.callers.set index { caller with status := .answered reply } }
      else none
  | .giveUp index => do
      let caller ← s.callers[index]?
      if caller.status = .waiting then
        some { s with callers := s.callers.set index { caller with status := .gaveUp } }
      else none
  | .flush id =>
    if id ∈ s.flushWaiters then none
    else if s.pending.isEmpty && !s.flushInProgress then
      some { s with flushed := s.flushed ++ [id] }
    else some (State.tryStartFlush { s with flushWaiters := s.flushWaiters ++ [id] })
  | .onTimer generation =>
    if generation ∈ s.timers then
      let t := { s with timers := s.timers.erase generation }
      if s.timerGeneration = generation && !s.flushInProgress && !s.pending.isEmpty then
        some t.tryStartFlush
      else some t
    else none
  | .maybeFlush =>
    if s.starts = 0 then none
    else some (State.startFlush core { s with starts := s.starts - 1 })
  | .distribute index result => do
      let flight ← s.flights[index]?
      if flight.distributed then none
      else
        some { s with
          flights := s.flights.set index { flight with distributed := true }
          results := s.results ++ [(flight.entries, result)] }
  | .reset index => do
      let flight ← s.flights[index]?
      if flight.distributed then some (s.reset core index) else none

end MqBridge.Buffer
