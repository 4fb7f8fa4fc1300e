import Mathlib.Data.List.Perm.Basic
import MqBridge.Machine.Run
import MqBridge.Middleware.WeakJoin.Tracker

/-! The weak join. Messages wait in groups by a metadata key; a group that is
complete, or whose time is up, becomes one joined message. What is joined is
handed out in batches, and the commit of a handed-out batch settles the
messages of its joins.

A joined message is a function of its key and its messages and is left as
these two. The map of the groups is a list, and each call reads it in an order
of its own. Instants are nanoseconds. -/
namespace MqBridge.WeakJoin

open List (isEmpty_nil)

open Option

inductive WeakJoinAck where
  | onJoin
  | onReceive
  deriving DecidableEq

inductive WeakJoinTimeout where
  | fire
  | discard
  deriving DecidableEq

structure Config where
  groupBy : String
  expectedCount : Nat
  timeoutMs : Nat
  branchBy : Option String
  required : List String
  onTimeout : WeakJoinTimeout
  ack : WeakJoinAck
  /-- What the source says of its commits. -/
  commitRequiresOrder : Bool
  exitOnEmpty : Bool

/-- A buffered message. It has a slot only under `ack: on_join`. -/
structure Member where
  message : CanonicalMessage
  slot : Option Slot
  deriving DecidableEq

structure Group where
  started : Nat
  members : List Member
  deriving DecidableEq

/-- The joined message of a group, with the messages it stands for. -/
structure Join where
  key : String
  members : List Member
  deriving DecidableEq

def isComplete (config : Config) (messages : List CanonicalMessage) : Bool :=
  match config.branchBy with
  | none => decide (config.expectedCount ≤ messages.length)
  | some branchBy =>
    let distinct := (messages.filterMap fun m => m.metadata.lookup branchBy).dedup
    if config.required.isEmpty then decide (config.expectedCount ≤ distinct.length)
    else config.required.all fun branch => decide (branch ∈ distinct)

/-- What a call of `receive_batch` works on while it holds the state. -/
structure Intake where
  pending : List (String × Group)
  ready : List Join
  discarded : List Member

namespace Intake

variable (config : Config) (intake : Intake)

def members : List Member :=
  intake.pending.flatMap (fun entry => entry.2.members) ++ intake.ready.flatMap Join.members ++
    intake.discarded

/-- A group whose time is up is emitted, or its messages are dropped. -/
def closeGroup (entry : String × Group) : Intake :=
  if config.onTimeout = .discard then
    { intake with discarded := intake.discarded ++ entry.2.members }
  else { intake with ready := intake.ready ++ [⟨entry.1, entry.2.members⟩] }

def expired (now : Nat) (group : Group) : Bool :=
  decide (config.timeoutMs * 1000000 ≤ now - group.started)

def checkTimeouts (now : Nat) : Intake :=
  (intake.pending.filter fun entry => expired config now entry.2).foldl (closeGroup config)
    { intake with pending := intake.pending.filter fun entry => !expired config now entry.2 }

def flushAllPending : Intake :=
  intake.pending.foldl (closeGroup config) { intake with pending := [] }

end Intake

def takeGroup (key : String) : List (String × Group) → Option Group × List (String × Group)
  | [] => (none, [])
  | entry :: rest =>
    if entry.1 = key then (some entry.2, rest)
    else
      let (found, others) := takeGroup key rest
      (found, entry :: others)

def keyOf (config : Config) (message : CanonicalMessage) : String :=
  (message.metadata.lookup config.groupBy).getD "default"

namespace Intake

variable (config : Config) (intake : Intake)

/-- One message of the source joins its group, which may be complete then. -/
def enter (now : Nat) (member : Member) : Intake :=
  let key := keyOf config member.message
  let taken := takeGroup key intake.pending
  let group := taken.1.getD ⟨now, []⟩
  let group := { group with members := group.members ++ [member] }
  if isComplete config (group.members.map Member.message) then
    { intake with pending := taken.2, ready := intake.ready ++ [⟨key, group.members⟩] }
  else { intake with pending := taken.2 ++ [(key, group)] }

end Intake

def membersOf (seq : Option Nat) (messages : List CanonicalMessage) : List Member :=
  messages.zipIdx.map fun entry => ⟨entry.1, seq.map fun seq => ⟨seq, entry.2⟩⟩

inductive Owner where
  | receive (maxMessages : Nat)
  | commit
  deriving DecidableEq

/-- A run of `settle_and_commit`, with the tracker locked. -/
structure Settling where
  owner : Owner
  due : DueCommits
  firstErr : Option String

structure State where
  pending : List (String × Group)
  ready : List Join
  tracker : AckTracker
  /-- The messages a call of `receive_batch` has to acknowledge before it
  hands out joins, and how many of these it may hand out. -/
  call : Option (List Member × Nat)
  settling : Option Settling
  /-- The batches whose commit was not called, and those whose commit was. -/
  waiting : List (List Join)
  called : List (List Join × Dispositions)
  /-- The batches that were taken in. -/
  received : List (List Member)
  /-- The source has answered with an empty batch. -/
  drained : Bool
  /-- Discarded messages that are acknowledged, or whose call has ended. -/
  dropped : List Member
  settled : List (Slot × MessageDisposition)
  /-- The commits of source batches that were called. -/
  commits : DueCommits
  panicked : Bool
  /-- What the last call of `receive_batch` has returned. -/
  returned : Option (Except ConsumerError (List Join))

def new : State :=
  ⟨[], [], .new, none, none, [], [], [], false, [], [], [], false, none⟩

inductive Action where
  | takeReady (maxMessages : Nat)
  /-- The source answers. `onReceive` is what its commit returns if it is
  called at once; `checked` and `now` are when the groups are looked at and
  when messages are added to them. -/
  | receive (maxMessages : Nat) (answer : Except ConsumerError (List CanonicalMessage))
      (onReceive : CommitResult) (order : List (String × Group)) (checked now : Nat)
  /-- The time of a group is up before the source answers. -/
  | tick (maxMessages : Nat) (order : List (String × Group)) (now : Nat)
  /-- The discarded messages are acknowledged, if there are any. -/
  | ackDiscarded
  | commit (index : Nat) (dispositions : Dispositions)
  /-- The next due commit runs, with what it returns. -/
  | runCommit (result : CommitResult)
  /-- The future that holds the tracker is dropped. -/
  | abandon
  /-- The future of `receive_batch` is dropped. -/
  | cancel

namespace State

variable (config : Config) (s : State)

def idle : Bool := s.call.isNone && s.settling.all fun settling => decide (settling.owner = .commit)

def takeReady (max : Nat) : State :=
  { s with
    ready := s.ready.drop max
    waiting := s.waiting ++ [s.ready.take max]
    returned := some (.ok (s.ready.take max)) }

def store (intake : Intake) (max : Nat) : State :=
  { s with
    pending := intake.pending
    ready := intake.ready
    call := some (intake.discarded, max)
    returned := none }

def register (messages : List CanonicalMessage) : State × List Member :=
  let (tracker, seq) := s.tracker.register messages.length
  let members := membersOf (some seq) messages
  ({ s with tracker := tracker, received := s.received ++ [members] }, members)

/-- The part of `settle_and_commit` before the first commit. -/
def settle (owner : Owner) (entries : List (Slot × MessageDisposition)) : State :=
  match s.tracker.settleAll config.commitRequiresOrder entries with
  | none => { s with panicked := true }
  | some (tracker, due) =>
    let (later, tracker) :=
      if config.commitRequiresOrder then ([], tracker) else tracker.popAll tracker.batches.length
    { s with
      tracker := tracker
      settling := some ⟨owner, due ++ later, none⟩
      settled := s.settled ++ entries }

def finish (settling : Settling) : State :=
  let s := { s with settling := none }
  match settling.owner, settling.firstErr with
  | .commit, _ => s
  | .receive max, none => s.takeReady max
  | .receive _, some error => { s with returned := some (.error (.connection error)) }

def runCommit (settling : Settling) (result : CommitResult) : State :=
  match if config.commitRequiresOrder then s.tracker.popDue else (none, s.tracker) with
  | (some due, tracker) =>
    let s := { s with tracker := tracker, commits := s.commits ++ [due] }
    match result with
    | .ok () => s
    | .error error => s.finish { settling with firstErr := some error }
  | (none, tracker) =>
    let s := { s with tracker := tracker }
    match settling.due with
    | [] => s.finish settling
    | due :: rest =>
      -- one failure must not drop the rest
      let firstErr :=
        match result with
        | .ok () => settling.firstErr
        | .error error => settling.firstErr.or (some error)
      { s with
        commits := s.commits ++ [due]
        settling := some { settling with due := rest, firstErr := firstErr } }

end State

def settlements (joins : List Join) (dispositions : Dispositions) :
    List (Slot × MessageDisposition) :=
  (joins.zip dispositions).flatMap fun entry =>
    (entry.1.members.filterMap Member.slot).map fun slot => (slot, entry.2)

def State.enterAll (config : Config) (s : State) (members : List Member)
    (order : List (String × Group)) (checked now : Nat) : Intake :=
  let intake := Intake.checkTimeouts config ⟨order, [], []⟩ checked
  let intake :=
    if members.isEmpty && config.exitOnEmpty then intake.flushAllPending config else intake
  let intake := members.foldl (fun intake => Intake.enter config intake now) intake
  { intake with ready := s.ready ++ intake.ready }

def step (config : Config) (s : State) : Action → Option State
  | .takeReady max =>
    if s.idle = true ∧ s.ready ≠ [] then some (s.takeReady max) else none
  | .receive max answer onReceive order checked now =>
    if s.idle = true ∧ s.ready = [] ∧ order.Perm s.pending then
      match answer with
      | .error error => some { s with returned := some (.error error) }
      | .ok messages =>
        let s := { s with drained := s.drained || messages.isEmpty }
        if messages = [] then some (s.store (s.enterAll config [] order checked now) max)
        else
          match config.ack, onReceive with
          | .onJoin, _ =>
            if s.settling.isNone then
              let (s, members) := s.register messages
              some (s.store (s.enterAll config members order checked now) max)
            else none
          | .onReceive, .error error =>
            some { s with returned := some (.error (.connection error)) }
          | .onReceive, .ok () =>
            let members := membersOf none messages
            some ({ s with received := s.received ++ [members] }.store
              (s.enterAll config members order checked now) max)
    else none
  | .tick max order now =>
    if s.idle = true ∧ s.ready = [] ∧ order.Perm s.pending then
      let intake := Intake.checkTimeouts config ⟨order, [], []⟩ now
      some (s.store { intake with ready := s.ready ++ intake.ready } max)
    else none
  | .ackDiscarded =>
    match s.call with
    | none => none
    | some (discarded, max) =>
      if config.ack = .onJoin ∧ discarded ≠ [] then
        if s.settling.isNone then
          let s := { s with call := none, dropped := s.dropped ++ discarded }
          some (s.settle config (.receive max)
            ((discarded.filterMap Member.slot).map fun slot => (slot, .ack)))
        else none
      else
        some ({ s with call := none, dropped := s.dropped ++ discarded }.takeReady max)
  | .commit index dispositions =>
    match s.waiting[index]? with
    | none => none
    | some joins =>
      let s :=
        { s with
          waiting := s.waiting.eraseIdx index
          called := s.called ++ [(joins, dispositions)] }
      match config.ack with
      | .onReceive => some s
      | .onJoin =>
        if s.settling.isNone then
          some (s.settle config .commit (settlements joins dispositions))
        else none
  | .runCommit result => s.settling.map fun settling => s.runCommit config settling result
  | .abandon => s.settling.map fun _ => { s with settling := none }
  | .cancel =>
    s.call.map fun (discarded, _) =>
      { s with call := none, dropped := s.dropped ++ discarded }

structure State.Asks (s : State) (order : List (String × Group)) : Prop where
  idle : s.idle = true
  ready : s.ready = []
  order : order.Perm s.pending

inductive Moves (config : Config) (s : State) : Action → State → Prop where
  | takeReady {max : Nat} (hIdle : s.idle = true) (hReady : s.ready ≠ []) :
      Moves config s (.takeReady max) (s.takeReady max)
  | fail {max checked now : Nat} {answer : Except ConsumerError (List CanonicalMessage)}
      {onReceive : CommitResult} {order : List (String × Group)} {error : ConsumerError}
      (hIdle : s.idle = true) :
      Moves config s (.receive max answer onReceive order checked now)
        { s with returned := some (.error error) }
  | empty {max checked now : Nat} {onReceive : CommitResult} {order : List (String × Group)}
      (hAsks : s.Asks order) :
      Moves config s (.receive max (.ok []) onReceive order checked now)
        (State.store { s with drained := true } (s.enterAll config [] order checked now) max)
  | register {max checked now : Nat} {messages : List CanonicalMessage} {onReceive : CommitResult}
      {order : List (String × Group)} (hAsks : s.Asks order) (hMsgs : messages ≠ [])
      (hAck : config.ack = .onJoin) (hFree : s.settling = none) :
      Moves config s (.receive max (.ok messages) onReceive order checked now)
        (State.store (s.register messages).1
          (s.enterAll config (s.register messages).2 order checked now) max)
  | take {max checked now : Nat} {messages : List CanonicalMessage} {order : List (String × Group)}
      (hAsks : s.Asks order) (hMsgs : messages ≠ []) (hAck : config.ack = .onReceive) :
      Moves config s (.receive max (.ok messages) (.ok ()) order checked now)
        (State.store { s with received := s.received ++ [membersOf none messages] }
          (s.enterAll config (membersOf none messages) order checked now) max)
  | tick {max now : Nat} {order : List (String × Group)} (hAsks : s.Asks order) :
      Moves config s (.tick max order now)
        (s.store (Intake.checkTimeouts config ⟨order, [], []⟩ now) max)
  | ackDiscarded {discarded : List Member} {max : Nat} (hCall : s.call = some (discarded, max))
      (hAck : config.ack = .onJoin) (hFree : s.settling = none) :
      Moves config s .ackDiscarded
        (State.settle config { s with call := none, dropped := s.dropped ++ discarded }
          (.receive max) ((discarded.filterMap Member.slot).map fun slot => (slot, .ack)))
  | handOut {discarded : List Member} {max : Nat} (hCall : s.call = some (discarded, max)) :
      Moves config s .ackDiscarded
        (State.takeReady { s with call := none, dropped := s.dropped ++ discarded } max)
  | forget {index : Nat} {dispositions : Dispositions} {joins : List Join}
      (hJoins : s.waiting[index]? = some joins) (hAck : config.ack = .onReceive) :
      Moves config s (.commit index dispositions)
        { s with
          waiting := s.waiting.eraseIdx index
          called := s.called ++ [(joins, dispositions)] }
  | commit {index : Nat} {dispositions : Dispositions} {joins : List Join}
      (hJoins : s.waiting[index]? = some joins) (hAck : config.ack = .onJoin)
      (hFree : s.settling = none) :
      Moves config s (.commit index dispositions)
        (State.settle config { s with
            waiting := s.waiting.eraseIdx index
            called :=
              s.called ++ [(joins, dispositions)] } .commit (settlements joins dispositions))
  | runCommit {settling : Settling} {result : CommitResult}
      (hSettling : s.settling = some settling) :
      Moves config s (.runCommit result) (s.runCommit config settling result)
  | abandon {settling : Settling} (hSettling : s.settling = some settling) :
      Moves config s .abandon { s with settling := none }
  | cancel {discarded : List Member} {max : Nat} (hCall : s.call = some (discarded, max)) :
      Moves config s .cancel { s with call := none, dropped := s.dropped ++ discarded }

theorem step_receive {config : Config} {s t : State} {max checked now : Nat}
    {answer : Except ConsumerError (List CanonicalMessage)} {onReceive : CommitResult}
    {order : List (String × Group)}
    (hStep : step config s (.receive max answer onReceive order checked now) = some t) :
    Moves config s (.receive max answer onReceive order checked now) t := by
  simp only [step] at hStep
  split at hStep
  case isFalse => cases hStep
  case isTrue hGuard =>
    have hAsks : s.Asks order := ⟨hGuard.1, hGuard.2.1, hGuard.2.2⟩
    cases answer with
    | error error =>
      cases hStep
      exact .fail hAsks.idle
    | ok messages =>
      by_cases hMsgs : messages = []
      · subst hMsgs
        simp only [if_true, isEmpty_nil, Bool.or_true] at hStep
        cases hStep
        exact .empty hAsks
      · have hSome : messages.isEmpty = false := by simpa using hMsgs
        simp only [hMsgs, if_false, hSome, Bool.or_false] at hStep
        split at hStep
        · split at hStep
          · cases hStep
            exact .register hAsks hMsgs ‹_› (isNone_iff_eq_none.mp ‹_›)
          · cases hStep
        · cases hStep
          exact .fail hAsks.idle
        · cases hStep
          exact .take hAsks hMsgs ‹_›

theorem step_moves {config : Config} {s t : State} {action : Action}
    (hStep : step config s action = some t) : Moves config s action t := by
  cases action with
  | takeReady max =>
    simp only [step, ite_none_right_eq_some, some.injEq] at hStep
    obtain ⟨⟨hIdle, hReady⟩, rfl⟩ := hStep
    exact .takeReady hIdle hReady
  | receive => exact step_receive hStep
  | tick max order now =>
    simp only [step, ite_none_right_eq_some, some.injEq] at hStep
    obtain ⟨⟨hIdle, hReady, hOrder⟩, rfl⟩ := hStep
    rw [hReady]
    exact .tick ⟨hIdle, hReady, hOrder⟩
  | ackDiscarded =>
    simp only [step] at hStep
    split at hStep
    · cases hStep
    · split at hStep
      case isTrue hAck =>
        simp only [ite_none_right_eq_some, some.injEq] at hStep
        obtain ⟨hFree, rfl⟩ := hStep
        exact .ackDiscarded ‹_› hAck.1 (isNone_iff_eq_none.mp hFree)
      case isFalse =>
        cases hStep
        exact .handOut ‹_›
  | commit index dispositions =>
    simp only [step] at hStep
    split at hStep
    · cases hStep
    · split at hStep
      · cases hStep
        exact .forget ‹_› ‹_›
      · simp only [ite_none_right_eq_some, some.injEq] at hStep
        obtain ⟨hFree, rfl⟩ := hStep
        exact .commit ‹_› ‹_› (isNone_iff_eq_none.mp hFree)
  | runCommit result =>
    obtain ⟨settling, hSettling, rfl⟩ := map_eq_some_iff.mp hStep
    exact .runCommit hSettling
  | abandon =>
    obtain ⟨settling, hSettling, rfl⟩ := map_eq_some_iff.mp hStep
    exact .abandon hSettling
  | cancel =>
    obtain ⟨⟨discarded, max⟩, hCall, rfl⟩ := map_eq_some_iff.mp hStep
    exact .cancel hCall

end MqBridge.WeakJoin
