import MqBridge.Collections.Places
import MqBridge.Consumer
import MqBridge.Machine.Run

/-! Commit handling for consumer middleware that drops messages out of a
batch, shared by the deduplication and the filter. The inner consumer needs
ordered commits, so the commit of a batch that was emptied is held while a
retained delivery is uncommitted. Held commits run from inside the commit of
the next delivery, when nothing is in flight, on a drain, or in the disconnect
hook.

Inner batches are numbered in the order they are received. What the commit of
an inner batch returns is an arbitrary function of its number; each of them
is called at most once. The commits that were handed out run one at a time in
the order of their deliveries, one inner commit a step, between any two steps
of the receiving side. -/
namespace MqBridge.Deferred

open List Option

/-- What a held commit settles its dropped messages with. -/
inductive Emptied where
  | acked (dropped : Nat)
  | settled (dispositions : Dispositions)
  deriving DecidableEq

def maxDeferredCommits : Nat := 1024

def Emptied.isAcked : Emptied → Bool
  | .acked _ => true
  | .settled _ => false

/-- `settle_emptied` keeps plain acknowledgements as a count. -/
def settleEmptied (dispositions : Dispositions) : Emptied :=
  if dispositions.all (fun d => decide (d = .ack)) then .acked dispositions.length
  else .settled dispositions

/-- The queue of held commits, by the number of their inner batch. -/
abbrev Held := List (Nat × Emptied)

/-- Puts a commit into the queue. Unless the queue is about to run, the oldest
plain acknowledgement makes room when the queue is full. -/
def pushHeld (idle : Bool) (held : Held) (batch : Nat) (emptied : Emptied) : Held :=
  let room :=
    if !idle && decide (maxDeferredCommits ≤ held.length) then
      held.eraseP fun entry => entry.2.isAcked
    else held
  room ++ [(batch, emptied)]

inductive Read where
  /-- The call fails. If a batch was received, its commit is dropped. -/
  | failed (received : Bool)
  /-- The batch is nacked at once and the call fails. -/
  | handedBack
  /-- An empty batch, the sign of a drained source. -/
  | drained
  /-- Every message was dropped. -/
  | emptied (emptied : Emptied)
  /-- Some messages were kept; `last` tells whether the call returns. -/
  | kept (count : Nat) (last : Bool)
  deriving DecidableEq

/-- A `receive_batch` under way: how many messages it may return, how many it
has kept, and the inner commits of what it has kept, in order. -/
structure Call where
  target : Nat
  count : Nat
  plan : List Nat
  deriving DecidableEq

/-- A commit that was handed out: the inner commits it runs, in order, and
how many dispositions it insists on, if it does. -/
structure Delivery where
  plan : List Nat
  expected : Option Nat
  deriving DecidableEq

/-- Commits that the receiving side is running. `requeue` tells whether those
behind a failure stay in the queue. -/
structure Release where
  commits : Held
  requeue : Bool
  deriving DecidableEq

structure State where
  /-- How many inner batches were received. -/
  received : Nat
  held : Held
  inFlight : Nat
  call : Option Call
  release : Option Release
  /-- Handed-out commits that nobody has called yet. -/
  waiting : List Delivery
  /-- What the handed-out commit under way has yet to run. -/
  running : Option (List Nat)
  retained : List Nat
  emptied : List Nat
  log : List (Nat × CommitResult)
  deriving DecidableEq

def initial : State := ⟨0, [], 0, none, none, [], none, [], [], []⟩

/-- The two middlewares differ in what they make of an answer, and in whether
their commits count the dispositions. -/
structure Consumer (Answer : Type) where
  read : Call → Answer → Read
  countsDispositions : Bool

inductive Action (Answer : Type) where
  | receive (maxMessages : Nat)
  | read (answer : Answer)
  /-- The receiving side runs its next commit. -/
  | release
  /-- The caller drops a receive, or the disconnect hook, that is under way. -/
  | cancel
  | disconnectHook
  /-- The commit of a delivery is called with so many dispositions. The
  `skip` deliveries before it are never committed. -/
  | call (skip dispositions : Nat)
  /-- The handed-out commit under way runs its next inner commit. -/
  | commit
  /-- The handed-out commit under way is dropped. -/
  | abort
  deriving DecidableEq

def releaseOf (commits : Held) (requeue : Bool) : Option Release :=
  if commits.isEmpty then none else some ⟨commits, requeue⟩

/-- What a call does with one answer. Outside of `receive_batch`, only
`inFlight` tells it about the deliveries before. -/
def State.read (s : State) (outcome : Nat → CommitResult) (counts : Bool) (call : Call) :
    Read → State
  | .failed received =>
    { s with call := none, received := if received then s.received + 1 else s.received }
  | .handedBack =>
    { s with
      call := none
      received := s.received + 1
      log := s.log ++ [(s.received, outcome s.received)] }
  | .drained =>
    if call.plan.isEmpty then
      { s with
        call := none
        received := s.received + 1
        held := []
        release := releaseOf s.held false }
    else
      { s with
        call := none
        received := s.received + 1
        held := []
        inFlight := s.inFlight + 1
        waiting := s.waiting ++ [⟨call.plan ++ s.held.map Prod.fst ++ [s.received],
          if counts then some call.count else none⟩] }
  | .emptied emptied =>
    if s.inFlight = 0 then
      { s with
        received := s.received + 1
        emptied := s.emptied ++ [s.received]
        held := []
        release := releaseOf (pushHeld true s.held s.received emptied) true }
    else
      { s with
        received := s.received + 1
        emptied := s.emptied ++ [s.received]
        held := pushHeld false s.held s.received emptied }
  | .kept count last =>
    if last then
      { s with
        call := none
        received := s.received + 1
        retained := s.retained ++ [s.received]
        held := []
        inFlight := s.inFlight + 1
        waiting := s.waiting ++ [⟨call.plan ++ s.held.map Prod.fst ++ [s.received],
          if counts then some (call.count + count) else none⟩] }
    else
      { s with
        call :=
          some ⟨call.target, call.count + count, call.plan ++ s.held.map Prod.fst ++ [s.received]⟩
        received := s.received + 1
        retained := s.retained ++ [s.received]
        held := [] }

/-- Receiving and commits take turns. -/
def step {Answer : Type} (c : Consumer Answer) (outcome : Nat → CommitResult) (s : State) :
    Action Answer → Option State
  | .receive maxMessages =>
    match s.call, s.release with
    | none, none => some { s with call := some ⟨max maxMessages 1, 0, []⟩ }
    | _, _ => none
  | .read answer =>
    match s.call, s.release with
    | some call, none => some (s.read outcome c.countsDispositions call (c.read call answer))
    | _, _ => none
  | .release =>
    match s.release with
    | some ⟨(batch, _) :: rest, requeue⟩ =>
      let s' := { s with log := s.log ++ [(batch, outcome batch)] }
      match outcome batch with
      | .ok _ => some { s' with release := releaseOf rest requeue }
      | .error _ =>
        some { s' with
          release := none
          call := none
          held := if requeue then rest else s.held }
    | _ => none
  | .cancel =>
    match s.release with
    | some release =>
      some { s with
        call := none
        release := none
        held := if release.requeue then release.commits else s.held }
    | none => if s.call.isSome then some { s with call := none } else none
  | .disconnectHook =>
    match s.call, s.release with
    | none, none => some { s with held := [], release := releaseOf s.held false }
    | _, _ => none
  | .call skip dispositions =>
    match s.running, s.waiting.drop skip with
    | none, delivery :: rest =>
      if delivery.expected.all fun expected => decide (dispositions = expected) then
        some { s with waiting := rest, running := some delivery.plan }
      else some { s with waiting := rest }
    | _, _ => none
  | .commit =>
    match s.running with
    | some (batch :: rest) =>
      let s' := { s with log := s.log ++ [(batch, outcome batch)] }
      match outcome batch with
      | .ok _ =>
        if rest.isEmpty then some { s' with running := none, inFlight := s.inFlight - 1 }
        else some { s' with running := some rest }
      | .error _ => some { s' with running := none }
    | _ => none
  | .abort => if s.running.isSome then some { s with running := none } else none

/-! ### Everything waits in the order it was received -/

def planOf (call : Option Call) : List Nat := (call.map Call.plan).getD []

def releaseIds (release : Option Release) : List Nat :=
  (release.map fun r => r.commits.map Prod.fst).getD []

@[simp] theorem planOf_none : planOf none = [] := rfl

@[simp] theorem planOf_some (call : Call) : planOf (some call) = call.plan := rfl

@[simp] theorem releaseIds_none : releaseIds none = [] := rfl

@[simp] theorem releaseIds_some (release : Release) :
    releaseIds (some release) = release.commits.map Prod.fst := rfl

@[simp] theorem releaseIds_releaseOf (commits : Held) (requeue : Bool) :
    releaseIds (releaseOf commits requeue) = commits.map Prod.fst := by
  cases commits <;> rfl

def State.handedOut (s : State) : List Nat :=
  s.running.getD [] ++ s.waiting.flatMap Delivery.plan

/-- Every inner commit that can still run, oldest first. -/
def State.queue (s : State) : List Nat :=
  s.handedOut ++ (planOf s.call ++ (releaseIds s.release ++ s.held.map Prod.fst))

/-- The inner commits that can still run are in the order of their batches,
and no number is used before its batch is received. -/
structure InOrder (s : State) : Prop where
  sorted : s.queue.Pairwise (· < ·)
  bound : ∀ i ∈ s.queue, i < s.received
  retained : ∀ i ∈ s.retained, i < s.received
  emptied : ∀ i ∈ s.emptied, i < s.received
  logged : ∀ entry ∈ s.log, entry.1 < s.received

theorem initial_inOrder : InOrder initial where
  sorted := List.Pairwise.nil
  bound := nofun
  retained := nofun
  emptied := nofun
  logged := nofun

theorem old_or_new {α : Type} {l : List α} {last : α} (i : α) (hMem : i ∈ l ++ [last]) :
    i ∈ l ∨ i = last :=
  (mem_append.mp hMem).imp_right mem_singleton.mp

section InOrder
variable {s t : State}

variable (h : InOrder s)

include h

/-- A step that receives no batch and adds no commit. -/
theorem InOrder.shrink {held : Held} {inFlight : Nat} {call : Option Call}
    {release : Option Release}
    {waiting : List Delivery} {running : Option (List Nat)} {log : List (Nat × CommitResult)}
    (hQueue : (State.queue { s with held, inFlight, call, release, waiting, running, log }).Sublist
      s.queue) (hLogged : ∀ entry ∈ log, entry.1 < s.received) :
    InOrder { s with held, inFlight, call, release, waiting, running, log } :=
  ⟨h.sorted.sublist hQueue, fun i hMem => h.bound i (hQueue.subset hMem), h.retained, h.emptied,
    hLogged⟩

/-- A step that receives the next batch, and may put its commit at the end. -/
theorem InOrder.receive (hQueue : t.queue.Sublist (s.queue ++ [s.received]))
    (hRecv : t.received = s.received + 1)
    (hRetained : ∀ i ∈ t.retained, i ∈ s.retained ∨ i = s.received)
    (hEmptied : ∀ i ∈ t.emptied, i ∈ s.emptied ∨ i = s.received)
    (hLogged : ∀ entry ∈ t.log, entry ∈ s.log ∨ entry.1 = s.received) : InOrder t := by
  have hSorted : (s.queue ++ [s.received]).Pairwise (· < ·) := by
    exact Places.pairwise_snoc h.sorted h.bound
  have hNext (i : Nat) (hMem : i < s.received ∨ i = s.received) : i < t.received := by
    rw [hRecv]
    exact Nat.lt_succ_iff_lt_or_eq.mpr hMem
  refine ⟨hSorted.sublist hQueue, ?_, ?_, ?_, ?_⟩
  · intro i hMem
    exact hNext i ((old_or_new i (hQueue.subset hMem)).imp_left (h.bound i))
  · intro i hMem
    exact hNext i ((hRetained i hMem).imp_left (h.retained i))
  · intro i hMem
    exact hNext i ((hEmptied i hMem).imp_left (h.emptied i))
  · intro entry hMem
    exact hNext entry.1 ((hLogged entry hMem).imp_left (h.logged entry))

/-- A commit that was in the queue may be logged. -/
theorem InOrder.logged_snoc {batch : Nat} (hBatch : batch ∈ s.queue)
    (result : CommitResult) : ∀ entry ∈ s.log ++ [(batch, result)], entry.1 < s.received :=
  Places.forall_mem_snoc h.logged (h.bound batch hBatch)

end InOrder

theorem pushHeld_sublist (idle : Bool) (held : Held) (batch : Nat) (emptied : Emptied) :
    ((pushHeld idle held batch emptied).map Prod.fst).Sublist (held.map Prod.fst ++ [batch]) := by
  rw [pushHeld, map_append]
  refine .append ?_ (.refl _)
  split_ifs
  · exact eraseP_sublist.map Prod.fst
  · exact .refl _

/-- An answer of the inner consumer keeps the queue in order, whatever the
call makes of it. -/
theorem read_inOrder {s : State} (h : InOrder s) {call : Call} (hCall : s.call = some call)
    (hRelease : s.release = none) (outcome : Nat → CommitResult) (counts : Bool) (r : Read) :
    InOrder (s.read outcome counts call r) := by
  have hQueue : s.queue = s.handedOut ++ (call.plan ++ s.held.map Prod.fst) := by
    simp [State.queue, hCall, hRelease]
  cases r with
  | failed received =>
    have hSub : (State.queue { s with call := none }).Sublist s.queue := by
      simp [State.queue, State.handedOut]
    cases received with
    | false => exact h.shrink hSub h.logged
    | true =>
      exact h.receive (hSub.trans (sublist_append_left _ _)) rfl
        (fun _ => .inl) (fun _ => .inl) (fun _ => .inl)
  | handedBack =>
    refine h.receive ?_ rfl (fun _ => .inl) (fun _ => .inl) ?_
    · refine trans ?_ (sublist_append_left _ _)
      simp [State.read, State.queue, State.handedOut]
    · exact fun entry hMem => (old_or_new entry hMem).imp_right fun hNew => by rw [hNew]
  | drained =>
    rw [State.read]
    split_ifs
    · refine h.receive ?_ rfl (fun _ => .inl) (fun _ => .inl) (fun _ => .inl)
      refine trans ?_ (sublist_append_left _ _)
      simp [State.queue, State.handedOut]
    all_goals
      refine h.receive ?_ rfl (fun _ => .inl) (fun _ => .inl) (fun _ => .inl)
      rw [hQueue]
      simp [State.queue, State.handedOut, hRelease]
  | emptied emptied =>
    rw [State.read]
    split_ifs
    · refine h.receive ?_ rfl (fun _ => .inl) old_or_new (fun _ => .inl)
      rw [hQueue]
      simpa [State.queue, State.handedOut, hCall]
        using pushHeld_sublist true s.held s.received emptied
    · refine h.receive ?_ rfl (fun _ => .inl) old_or_new (fun _ => .inl)
      simpa [State.queue, State.handedOut]
        using pushHeld_sublist false s.held s.received emptied
  | kept count last =>
    rw [State.read]
    split_ifs
    all_goals
      refine h.receive ?_ rfl old_or_new (fun _ => .inl) (fun _ => .inl)
      rw [hQueue]
      simp [State.queue, State.handedOut, hRelease]

end MqBridge.Deferred

/-! `DeduplicationConsumer::receive_batch`, as far as the order of the inner
commits goes. What the store says about the keys of a batch is part of the
answer: each message is either claimed, or already settled. -/
namespace MqBridge.Deduplication

open Deferred

inductive Answer where
  /-- The inner `receive_batch` fails. -/
  | error
  /-- A batch, but the clock is before the epoch. -/
  | clockError
  /-- A batch. `reserved` tells whether its keys could be reserved; a slot is
  `none` for a claimed key, and the disposition of a message that was already
  processed or that repeats a key of the batch. -/
  | batch (reserved : Bool) (slots : List (Option MessageDisposition))
  deriving DecidableEq

/-- Every batch that keeps a message is returned at once. -/
def read (_ : Call) : Answer → Read
  | .error => .failed false
  | .clockError => .failed true
  | .batch reserved slots =>
    if slots.isEmpty then .drained
    else if reserved then
      match slots.mapM id with
      | some settled => .emptied (settleEmptied settled)
      | none => .kept (slots.countP Option.isNone) true
    else .handedBack

/-- The commit of a deduplicated batch does not count its dispositions. -/
def consumer : Consumer Answer := ⟨read, false⟩

end MqBridge.Deduplication

/-! `FilterConsumer::receive_batch`, as far as the order of the inner commits
goes. A call collects kept messages over several inner batches until it has
enough of them, or an inner batch is shorter than it asked for. -/
namespace MqBridge.Filter

open Deferred

def keepOrFail (onError : InputErrorPolicy) : Except String Bool → Except String Bool
  | .error error => if onError = .drop then .ok false else .error error
  | .ok keep => .ok keep

inductive Answer where
  /-- The inner `receive_batch` fails. -/
  | error
  /-- A batch, with what the expression says about each message. -/
  | batch (results : List (Except String Bool))

/-- The call asked for what it lacks; a batch that is shorter ends it. -/
def read (onError : InputErrorPolicy) (call : Call) : Answer → Read
  | .error => .failed false
  | .batch results =>
    if results.isEmpty then .drained
    else
      match results.mapM (keepOrFail onError) with
      | .error _ => .failed true
      | .ok keepFlags =>
        let kept := keepFlags.countP id
        if kept = 0 then .emptied (.acked keepFlags.length)
        else .kept kept (decide (call.target ≤ call.count + kept) ||
          decide (results.length < call.target - call.count))

/-- The commit of a filtered batch insists on one disposition for each
message it returned. -/
def consumer (onError : InputErrorPolicy) : Consumer Answer := ⟨read onError, true⟩

end MqBridge.Filter
