import MqBridge.Consumer
import MqBridge.Machine.Run
import MqBridge.Support.Text

/-! The `sequence` input: endpoints that are read one after another. A phase
is over when its source is drained and the route has settled its batches, and
a marker then tells a restart to begin with the next one.

Handed-out batches are committed or dropped at any time, also those of an
earlier consumer of the same sequence. The guard of a batch sets the failure
flag of its tracker before it lowers the counter, in two steps. -/
namespace MqBridge.Sequence

open Text

structure Config where
  /-- The types of the endpoints, in order. -/
  endpoints : List String
  /-- There is a `cursor_id` with a `checkpoint_store`. -/
  checkpointed : Bool

/-- Stored with the marker to detect a changed list. -/
def Config.shape (config : Config) : String := String.intercalate "," config.endpoints

def loadPhase (raw : Option String) (len : Nat) (shape : String) : Except String Nat :=
  match raw with
  | none => .ok 0
  | some raw =>
    let text := trim raw.toList
    let parts := splitOnce ' ' text
    match (parts.map fun part => String.ofList part.2).filter (· ≠ shape) with
    | some stored =>
      .error ("sequence: the stored phase marker belongs to the endpoints [" ++ stored ++
        "], but this sequence has [" ++ shape ++ "]. Use a new cursor_id or remove the marker.")
    | none =>
      match parseUnsigned (String.ofList (parts.elim text Prod.fst)) with
      -- a marker of a longer sequence must not index past this one
      | some phase => if phase.toNat < len then .ok phase.toNat else .ok 0
      | none => .ok 0

def Config.load (config : Config) (marker : Option String) : Except String Nat :=
  if config.checkpointed then loadPhase marker config.endpoints.length config.shape else .ok 0

/-- Batches of the running phase the route has not settled yet. -/
structure Unsettled where
  count : Nat
  failed : Bool

inductive Progress where
  | handedOut
  | committing (dispositions : Dispositions)
  /-- The guard is dropped. -/
  | dropping (clean : Bool)
  /-- The flag is set if it has to be; the counter comes next. -/
  | counting (clean : Bool)
  | settled (clean : Bool)
  deriving DecidableEq

/-- A batch that was handed out, by which consumer of the sequence and in
which phase. Batches of the last phase have no tracker. `outcome` has what the
inner commit was called with and what it returned. -/
structure Batch where
  run : Nat
  phase : Nat
  tracker : Option Nat
  progress : Progress
  outcome : Option (Dispositions × CommitResult)

/-- The batch was committed successfully and without a Nack. -/
def Batch.Delivered (batch : Batch) : Prop :=
  ∃ dispositions, batch.outcome = some (dispositions, .ok ()) ∧ .nack ∉ dispositions

/-- Where a call of `receive_batch` is, once the phase has no more messages. -/
inductive Control where
  | idle
  | looking
  | waiting
  /-- All batches of the tracker are settled. -/
  | drained
  | closing
  | saving
  deriving DecidableEq

/-- `saved` has the consumer and the phase of each marker that was written. -/
structure State where
  marker : Option String
  run : Nat
  phase : Nat
  control : Control
  trackers : List Unsettled
  unsettled : Nat
  unconfirmed : Bool
  batches : List Batch
  saved : List (Nat × Nat)

inductive Event where
  | commit (dispositions : Dispositions)
  | committed (result : CommitResult)
  /-- The commit, or the future of its call, is dropped. -/
  | drop
  | flag
  | settle

inductive Action where
  | receive (answer : Except ConsumerError (List CanonicalMessage))
  | look
  | changed
  | timeout
  | swapFailed
  | close
  /-- A save that fails may have written the marker. -/
  | save (written : Bool)
  /-- The future of `receive_batch` is dropped. -/
  | cancel
  | batch (index : Nat) (event : Event)
  | restart

/-- A consumer for the sequence, beside what earlier ones have left. -/
def State.start (s : State) (run phase : Nat) : State :=
  { s with
    run := run
    phase := phase
    control := .idle
    trackers := s.trackers ++ [⟨0, false⟩]
    unsettled := s.trackers.length
    unconfirmed := false }

def new (config : Config) (marker : Option String) : Except String State :=
  (config.load marker).map fun phase =>
    State.start ⟨marker, 0, 0, .idle, [], 0, false, [], []⟩ 0 phase

namespace State

variable (config : Config) (s : State)

def isLastPhase : Bool := decide (config.endpoints.length ≤ s.phase + 1)

def modifyTracker (tracker : Option Nat) (f : Unsettled → Unsettled) : List Unsettled :=
  match tracker with
  | some tracker => s.trackers.modify tracker f
  | none => s.trackers

def track : State :=
  { s with
    trackers := s.trackers.modify s.unsettled fun u => { u with count := u.count + 1 }
    batches := s.batches ++ [⟨s.run, s.phase, some s.unsettled, .handedOut, none⟩] }

def receive : Except ConsumerError (List CanonicalMessage) → State
  | .ok messages =>
    if s.isLastPhase config then
      { s with batches := s.batches ++ [⟨s.run, s.phase, none, .handedOut, none⟩] }
    else if messages.isEmpty then { s with control := .looking }
    else s.track
  | .error .endOfStream => if s.isLastPhase config then s else { s with control := .looking }
  | .error _ => s

end State

def Batch.advance (batch : Batch) : Event → Option (Batch × (Unsettled → Unsettled))
  | .commit dispositions =>
    match batch.progress with
    | .handedOut => some ({ batch with progress := .committing dispositions }, id)
    | _ => none
  | .committed result =>
    match batch.progress with
    | .committing dispositions =>
      some
        ({ batch with
            progress := .dropping (!anyNack dispositions && result.isOk)
            outcome := some (dispositions, result) }, id)
    | _ => none
  | .drop =>
    match batch.progress with
    | .handedOut | .committing _ => some ({ batch with progress := .dropping false }, id)
    | _ => none
  | .flag =>
    match batch.progress with
    | .dropping clean =>
      some ({ batch with progress := .counting clean }, fun u =>
        if clean then u else { u with failed := true })
    | _ => none
  | .settle =>
    match batch.progress with
    | .counting clean =>
      some ({ batch with progress := .settled clean }, fun u => { u with count := u.count - 1 })
    | _ => none

def step (config : Config) (s : State) : Action → Option State
  | .receive answer => if s.control = .idle then some (s.receive config answer) else none
  | .look =>
    if s.control = .looking then
      (s.trackers[s.unsettled]?).map fun u =>
        { s with control := if u.count = 0 then .drained else .waiting }
    else none
  | .changed => if s.control = .waiting then some { s with control := .looking } else none
  | .timeout =>
    if s.control = .waiting then
      some
        { s with
          unconfirmed := true
          trackers := s.trackers ++ [⟨0, false⟩]
          unsettled := s.trackers.length
          control := .closing }
    else none
  | .swapFailed =>
    if s.control = .drained then
      (s.trackers[s.unsettled]?).map fun u =>
        if u.failed then
          { s with
            trackers := s.trackers.modify s.unsettled fun u => { u with failed := false }
            unconfirmed := true
            control := .idle }
        else { s with control := .closing }
    else none
  | .close =>
    if s.control = .closing then
      some
        { s with
          phase := s.phase + 1
          control := if config.checkpointed && !s.unconfirmed then .saving else .idle }
    else none
  | .save written =>
    if s.control = .saving then
      if written then
        some
          { s with
            marker := some (toString s.phase ++ " " ++ config.shape)
            saved := s.saved ++ [(s.run, s.phase)]
            control := .idle }
      else some { s with control := .idle }
    else none
  | .cancel =>
    if s.control = .waiting ∨ s.control = .closing ∨ s.control = .saving then
      some { s with control := .idle }
    else none
  | .restart =>
    match config.load s.marker with
    | .ok phase => some (s.start (s.run + 1) phase)
    | .error _ => none
  | .batch index event =>
    (s.batches[index]?).bind fun batch =>
      (batch.advance event).map fun (after, change) =>
        { s with
          trackers := s.modifyTracker batch.tracker change
          batches := s.batches.set index after }

end MqBridge.Sequence
