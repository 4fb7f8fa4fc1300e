import Mathlib.Data.List.Dedup
import MqBridge.Machine.Run
import MqBridge.Consumer

/-! Any number of deduplicating consumers that share one store. Every inner
batch goes its own way: its keys are reserved one by one, keys held elsewhere
are waited for, what was processed before is settled without the route, and
the rest is handed out with a commit that marks the keys before it commits the
inner batch. Between any two calls of the store every other batch can move.

A copy is what a source hands out as one message. It is received again only
when it was not acknowledged and is not with a consumer any more; a source that
hands out a message twice at a time hands out two copies. -/
namespace MqBridge.Deduplication

/-! ### The store

As the consumers see it, keys are claimed, released, renewed and marked, each at a time
the caller reads from the clock. -/

inductive Reservation where
  /-- Newly claimed: the caller owns the key until it marks or releases it. -/
  | claimed
  /-- Committed within the TTL: a true duplicate. -/
  | processed
  /-- Claimed by a delivery that has not committed yet. -/
  | inFlight
  deriving DecidableEq

/-- A deduplication backend. Whatever happens to it besides the calls, such as
expiry, clean-up or new settings, is an event of its own. A key is reported as
processed only if it was marked; what else a backend does is left open, it may
forget keys and fail to mark them. -/
structure DedupStore (κ : Type) where
  State : Type
  Event : Type
  new : State
  reserve : κ → Nat → State → Except ConsumerError Reservation × State
  markProcessed : κ → Nat → State → State
  markProcessedWithResponse : κ → Nat → List UInt8 → State → State
  storedResponse : κ → Nat → State → Option (List UInt8) × State
  release : κ → Nat → State → State
  renew : κ → Nat → State → State
  occur : Event → State → State
  Marked : State → κ → Prop
  marked_new : ∀ k, ¬ Marked new k
  reserve_processed : ∀ {k now s}, (reserve k now s).1 = .ok .processed → Marked s k
  marked_reserve : ∀ {k now s j}, Marked (reserve k now s).2 j → Marked s j
  marked_markProcessed : ∀ {k now s j}, Marked (markProcessed k now s) j → j = k ∨ Marked s j
  marked_withResponse : ∀ {k now response s j},
    Marked (markProcessedWithResponse k now response s) j → j = k ∨ Marked s j
  marked_storedResponse : ∀ {k now s j}, Marked (storedResponse k now s).2 j → Marked s j
  marked_release : ∀ {k now s j}, Marked (release k now s) j → Marked s j
  marked_renew : ∀ {k now s j}, Marked (renew k now s) j → Marked s j
  marked_occur : ∀ {event s j}, Marked (occur event s) j → Marked s j

/-! ### The consumers -/

structure Slot where
  index : Nat
  copy : Nat
  deriving DecidableEq

/-- `replay_response`, with the way replies are written and read. -/
structure Replay where
  enabled : Bool
  write : CanonicalMessage → Option (List UInt8)
  read : List UInt8 → Option CanonicalMessage

/-- The serialized reply to keep, when this disposition carries one. -/
def storedReply (replay : Replay) : MessageDisposition → Option (List UInt8)
  | .reply message => if replay.enabled then replay.write message else none
  | .ack | .nack => none

section Keys

variable {κ : Type} [DecidableEq κ] (key : Nat → κ)

def firstOfFrom (seen : List (κ × Nat)) (slot : Nat) : List Nat → List (Option Nat)
  | [] => []
  | copy :: rest =>
    match seen.lookup (key copy) with
    | some first => some first :: firstOfFrom seen (slot + 1) rest
    | none => none :: firstOfFrom ((key copy, slot) :: seen) (slot + 1) rest

/-- The first copy's slot for a key repeated inside the batch. -/
def firstOf (messages : List Nat) : List (Option Nat) := firstOfFrom key [] 0 messages

/-- The slots that have to be reserved, one for each key of the batch. -/
def unique (messages : List Nat) : List Slot :=
  (messages.zipIdx.zip (firstOf key messages)).filterMap fun entry =>
    if entry.2.isNone then some ⟨entry.1.2, entry.1.1⟩ else none

end Keys

/-- A repeat inside a batch answers with whatever reply its first copy got. -/
def copyRepliesToRepeats (dispositions : Dispositions) (firstOf : List (Option Nat)) :
    Dispositions :=
  firstOf.zipIdx.foldl (fun dispositions entry =>
    match entry.1 with
    | some first =>
      match dispositions[first]? with
      | some (.reply reply) => dispositions.set entry.2 (.reply reply)
      | _ => dispositions
    | none => dispositions) dispositions

inductive Phase where
  /-- `reserve_many` has the answers `done` and the slots `todo` before it. -/
  | reserving (done : List (Slot × Reservation)) (todo : List Slot)
  /-- Some key is held elsewhere; the batch's own claims are given back. -/
  | releasing (todo : List Slot)
  /-- The loop that keeps a message or finds the answer to a duplicate. -/
  | sorting (todo : List (Slot × Reservation)) (kept : List Slot) (settled : Dispositions)
  | handedOut (kept : List Slot) (settled : Dispositions)
  /-- The handed-out commit was called and writes to the store. -/
  | storing (acked : List Slot) (replied : List (Slot × List UInt8)) (failed : List Slot)
      (full : Dispositions)
  /-- The commit of the inner batch is to be called. For a batch that keeps
  nothing this may be much later, when its held commit is released. -/
  | committing (full : Dispositions)
  | closed

def Phase.isOpen : Phase → Bool
  | .closed => false
  | _ => true

structure Batch where
  messages : List Nat
  replay : Replay
  phase : Phase

/-- What a batch does next. The clock is read anew for each call. -/
inductive Move where
  | reserve (now : Nat)
  /-- `settle_in_flight` looks at the answers, before or after its deadline. -/
  | settle (expired : Bool)
  | release (now : Nat)
  | wake
  | sort (now : Nat)
  | deliver
  /-- The route calls the handed-out commit, with one disposition a message. -/
  | commit (dispositions : Dispositions)
  | store (now : Nat)
  /-- The inner commit is called; it takes effect for some of the slots, for
  all of them if it succeeds. -/
  | innerCommit (applied : Nat → Bool)
  /-- The batch is given up: its commit is dropped, cancelled, or fails on the
  held commits it carries. -/
  | abandon

section Machine

variable {κ : Type} [DecidableEq κ] (store : DedupStore κ) (key : Nat → κ)

/-- What a move changes: the dispositions that the route gave for copies, and
the copies that were acknowledged or answered to their source. -/
structure Effect where
  phase : Phase
  state : store.State
  commits : List (Nat × MessageDisposition) := []
  acked : List Nat := []

/-- How to settle a duplicate: its stored reply under `replay_response`, else
a plain ack. -/
def duplicateDisposition (replay : Replay) (slot : Slot) (now : Nat) (s : store.State) :
    MessageDisposition × store.State :=
  if replay.enabled then
    let (response, s) := store.storedResponse (key slot.copy) now s
    match response.bind replay.read with
    | some reply => (.reply reply, s)
    | none => (.ack, s)
  else (.ack, s)

/-- A key still held elsewhere past the deadline is processed unclaimed. -/
def takeAnyway (entry : Slot × Reservation) : Slot × Reservation :=
  (entry.1, if entry.2 = .inFlight then .claimed else entry.2)

def fullDispositions (batch : Batch) (kept : List Slot) (settled dispositions : Dispositions) :
    Dispositions :=
  let full :=
    (kept.zip dispositions).foldl (fun full entry => full.set entry.1.index entry.2) settled
  if batch.replay.enabled then copyRepliesToRepeats full (firstOf key batch.messages) else full

def Batch.advance (batch : Batch) (s : store.State) (move : Move) : Option (Effect store) :=
  match batch.phase, move with
  | .reserving done (slot :: todo), .reserve now =>
    match store.reserve (key slot.copy) now s with
    | (.ok reservation, s) =>
      some { phase := .reserving (done ++ [(slot, reservation)]) todo, state := s }
    -- handed back rather than dropped
    | (.error _, s) =>
      some { phase := .committing (List.replicate batch.messages.length .nack), state := s }
  | .reserving done [], .settle expired =>
    let settled := List.replicate batch.messages.length MessageDisposition.ack
    if done.all fun entry => entry.2 ≠ .inFlight then
      some { phase := .sorting done [] settled, state := s }
    else if expired then some { phase := .sorting (done.map takeAnyway) [] settled, state := s }
    else
      some
        { phase := .releasing ((done.filter fun entry => entry.2 = .claimed).map Prod.fst)
          state := s }
  | .releasing (slot :: todo), .release now =>
    some { phase := .releasing todo, state := store.release (key slot.copy) now s }
  | .releasing [], .wake =>
    some { phase := .reserving [] (unique key batch.messages), state := s }
  | .sorting ((slot, reservation) :: todo) kept settled, .sort now =>
    if reservation = .processed then
      let (disposition, s) := duplicateDisposition store key batch.replay slot now s
      some { phase := .sorting todo kept (settled.set slot.index disposition), state := s }
    else some { phase := .sorting todo (kept ++ [slot]) settled, state := s }
  | .sorting [] kept settled, .deliver =>
    let settled :=
      if batch.replay.enabled then copyRepliesToRepeats settled (firstOf key batch.messages)
      else settled
    if kept.isEmpty then some { phase := .committing settled, state := s }
    else some { phase := .handedOut kept settled, state := s }
  | .handedOut kept settled, .commit dispositions =>
    if dispositions.length = kept.length then
      let given := kept.zip dispositions
      some
        { phase := .storing ((given.filter fun entry =>
              (storedReply batch.replay entry.2).isNone && entry.2 ≠ .nack).map Prod.fst)
            (given.filterMap fun entry =>
              (storedReply batch.replay entry.2).map fun reply => (entry.1, reply))
            ((given.filter fun entry => entry.2 = .nack).map Prod.fst)
            (fullDispositions key batch kept settled dispositions)
          state := s
          commits := given.map fun entry => (entry.1.copy, entry.2) }
    else none
  | .storing (slot :: acked) replied failed full, .store now =>
    some
      { phase := .storing acked replied failed full
        state := store.markProcessed (key slot.copy) now s }
  | .storing [] ((slot, reply) :: replied) failed full, .store now =>
    some
      { phase := .storing [] replied failed full
        state := store.markProcessedWithResponse (key slot.copy) now reply s }
  | .storing [] [] (slot :: failed) full, .store now =>
    some { phase := .storing [] [] failed full, state := store.release (key slot.copy) now s }
  | .storing [] [] [] full, .store _ => some { phase := .committing full, state := s }
  | .committing full, .innerCommit applied =>
    some
      { phase := .closed
        state := s
        acked := ((batch.messages.zip full).zipIdx.filter fun entry =>
          entry.1.2 ≠ .nack && applied entry.2).map fun entry => entry.1.1 }
  | phase, .abandon => if phase.isOpen then some { phase := .closed, state := s } else none
  | _, _ => none

/-- `commits` has every disposition that the route gave for a copy it was
handed, `acked` the copies whose source got an Ack or a Reply. -/
structure State where
  store : store.State
  batches : List Batch
  commits : List (Nat × MessageDisposition)
  acked : List Nat

inductive Action where
  | receive (replay : Replay) (messages : List Nat)
  | move (batch : Nat) (move : Move)
  /-- The lease task renews claims; which ones makes no difference here. -/
  | renew (key : κ) (now : Nat)
  | event (event : store.Event)

def init : State store := ⟨store.new, [], [], []⟩

variable {store}

def State.Available (s : State store) (copy : Nat) : Prop :=
  copy ∉ s.acked ∧ ∀ batch ∈ s.batches, batch.phase.isOpen = true → copy ∉ batch.messages

instance (s : State store) (copy : Nat) : Decidable (s.Available copy) :=
  inferInstanceAs (Decidable (_ ∧ _))

def Batch.start (replay : Replay) (messages : List Nat) : Batch :=
  ⟨messages, replay, .reserving [] (unique key messages)⟩

def State.apply (s : State store) (index : Nat) (batch : Batch) (effect : Effect store) :
    State store where
  store := effect.state
  batches := s.batches.set index { batch with phase := effect.phase }
  commits := s.commits ++ effect.commits
  acked := s.acked ++ effect.acked

variable (store)

/-- Batches move one at a time, in any order. -/
def step (s : State store) : Action store → Option (State store)
  | .receive replay messages =>
    if messages.Nodup ∧ ∀ copy ∈ messages, s.Available copy then
      some { s with batches := s.batches ++ [Batch.start key replay messages] }
    else none
  | .move index move =>
    match s.batches[index]? with
    | some batch =>
      (batch.advance store key s.store move).map fun effect => s.apply index batch effect
    | none => none
  | .renew k now => some { s with store := store.renew k now s.store }
  | .event event => some { s with store := store.occur event s.store }

end Machine

end MqBridge.Deduplication
