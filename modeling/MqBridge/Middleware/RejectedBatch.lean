import MqBridge.Middleware.Aggregate.Fold
import MqBridge.Middleware.UnpackFolding

/-! The consumers that may hand out no message of an inner batch: transform,
lookup, aggregate and unpack. Each of them commits such a batch itself, inside
`receive_batch`, while the commits it handed out before may be outstanding. A
source with cumulative acknowledgements then counts those batches as done.

What a transformation, a lookup or a fold makes of each message is part of what
the consumer is given. -/
namespace MqBridge

open List Machine

namespace Rejecting

inductive Verdict where
  /-- An empty batch is passed on. -/
  | idle
  /-- Messages are handed out; `commit` turns the dispositions the route gives
  them into those of the inner commit. -/
  | handOut (messages : List CanonicalMessage) (commit : Dispositions → Dispositions)
  /-- Nothing is handed out and the inner commit is called at once. The call
  then fails with the error, or reads on if the commit succeeded. -/
  | settle (dispositions : Dispositions) (error : Option ConsumerError)

def keptIndices {ε : Type} (results : List (Except ε CanonicalMessage)) : List Nat :=
  results.zipIdx.filterMap fun result => result.1.toOption.map fun _ => result.2

def keptMessages {ε : Type} (results : List (Except ε CanonicalMessage)) :
    List CanonicalMessage :=
  results.filterMap Except.toOption

/-- The dispositions of the kept messages at their indices, and the filler at
all others. -/
def remap {ε : Type} (filler : MessageDisposition) (results : List (Except ε CanonicalMessage))
    (dispositions : Dispositions) : Dispositions :=
  ((keptIndices results).zip dispositions).foldl (fun all kept => all.set kept.1 kept.2)
    (List.replicate results.length filler)

/-- What the three consumers have in common: a batch of which nothing was kept
is settled with the filler; the others are handed out. -/
def keepOrSettle {ε : Type} (filler : MessageDisposition)
    (results : List (Except ε CanonicalMessage)) : Verdict :=
  if (keptMessages results).isEmpty then .settle (List.replicate results.length filler) none
  else if (keptMessages results).length = results.length then .handOut (keptMessages results) id
  else .handOut (keptMessages results) (remap filler results)

structure Delivery where
  batch : Nat
  commit : Dispositions → Dispositions

structure State where
  received : Nat
  /-- The handed-out commits that were not called. -/
  waiting : List Delivery
  /-- Some commit was dropped without being called. -/
  dropped : Bool
  log : List CommitCall
  /-- What the calls of `receive_batch` returned. -/
  returned : List (Except ConsumerError (List CanonicalMessage))

def initial : State := ⟨0, [], false, [], []⟩

inductive Action (Batch : Type) where
  /-- The loop of `receive_batch` reads from the inner consumer. -/
  | read (answer : Except ConsumerError Batch)
  /-- A handed-out commit is called, and calls the inner commit. -/
  | commit (index : Nat) (dispositions : Dispositions)
  /-- A handed-out commit is dropped without being called. -/
  | drop (index : Nat)
  /-- A receive is dropped with an inner batch in its hands. -/
  | cancel

def State.read (s : State) (outcome : Nat → CommitResult) : Verdict → State
  | .idle => { s with returned := s.returned ++ [.ok []] }
  | .handOut messages commit =>
    { s with
      received := s.received + 1
      waiting := s.waiting ++ [⟨s.received, commit⟩]
      returned := s.returned ++ [.ok messages] }
  | .settle dispositions error =>
    { s with
      received := s.received + 1
      log := s.log ++ [⟨s.received, true, dispositions⟩]
      returned := s.returned ++
        match error, outcome s.received with
        | some error, _ => [.error error]
        | none, .ok _ => []
        | none, .error cause => [.error (.connection cause)] }

variable {Batch : Type}

def step (verdict : Batch → Verdict) (outcome : Nat → CommitResult) (s : State) :
    Action Batch → Option State
  | .read (.error error) => some { s with returned := s.returned ++ [.error error] }
  | .read (.ok batch) => some (s.read outcome (verdict batch))
  | .commit index dispositions =>
    match s.waiting[index]? with
    | some delivery =>
      some { s with
        waiting := s.waiting.eraseIdx index
        log := s.log ++ [⟨delivery.batch, false, delivery.commit dispositions⟩] }
    | none => none
  | .drop index =>
    if index < s.waiting.length then
      some { s with waiting := s.waiting.eraseIdx index, dropped := true }
    else none
  | .cancel => some { s with received := s.received + 1, dropped := true }

end Rejecting

namespace Transform

structure Compiled where
  isNoop : Bool
  /-- Both change the message in place. -/
  transform : CanonicalMessage → CanonicalMessage × Except String Unit
  handleFailure : CanonicalMessage → String → CanonicalMessage × Except String Unit

def Compiled.apply (compiled : Compiled) (message : CanonicalMessage) :
    Except (CanonicalMessage × String) CanonicalMessage :=
  match compiled.transform message with
  | (changed, .ok _) => .ok changed
  | (changed, .error error) =>
    match compiled.handleFailure changed error with
    | (handled, .ok _) => .ok handled
    | (handled, .error error) => .error (handled, error)

/-- A nonempty batch that is kept as a whole is not one of which nothing is
kept, so the order of the two checks makes no difference. -/
def verdict (compiled : Compiled) (messages : List CanonicalMessage) : Rejecting.Verdict :=
  if messages.isEmpty then .idle
  else if compiled.isNoop then .handOut messages id
  else Rejecting.keepOrSettle .ack (messages.map compiled.apply)

end Transform

namespace Lookup

def transientCause : Except PublisherError CanonicalMessage → Option String
  | .error (.retryable cause) | .error (.connection cause) => some cause
  | .error (.nonRetryable _) | .ok _ => none

/-- `results` is what `enrich_batch` answers for the messages of the batch. -/
def verdict (results : List (Except PublisherError CanonicalMessage)) : Rejecting.Verdict :=
  if results.isEmpty then .idle
  else
    match results.findSome? transientCause with
    | some cause => .settle (List.replicate results.length .nack) (some (.connection cause))
    | none => Rejecting.keepOrSettle .ack results

end Lookup

namespace Aggregate

inductive Batch where
  /-- The states of the batch could not be loaded or stored. -/
  | failed (length : Nat) (cause : String)
  /-- One result for each message; `flush` is what waiting for the changed
  states to be stored returns, where there is a writer to wait for. -/
  | folded (results : List (Except String CanonicalMessage)) (flush : Option CommitResult)

def failed (onError : AggregateOnError) : MessageDisposition :=
  if onError = .fail then .nack else .ack

/-- A commit that waits for the writer gives its messages back if that fails. -/
def waitFor (flush : Option CommitResult) (commit : Dispositions → Dispositions)
    (dispositions : Dispositions) : Dispositions :=
  match flush with
  | some (.error _) => commit (List.replicate dispositions.length .nack)
  | some (.ok _) | none => commit dispositions

def verdict (onError : AggregateOnError) : Batch → Rejecting.Verdict
  | .failed length cause =>
    if length = 0 then .idle
    else .settle (List.replicate length .nack) (some (.connection cause))
  | .folded results flush =>
    if results.isEmpty then .idle
    else
      match Rejecting.keepOrSettle (failed onError) results with
      | .handOut messages commit => .handOut messages (waitFor flush commit)
      | other => other

end Aggregate

namespace Rejecting
variable {Batch : Type}

/-- As long as nothing was dropped, every received batch has its commit handed
out or called. -/
structure Tracks (s : State) : Prop where
  placed : s.dropped = false → ∀ j < s.received,
    (∃ delivery ∈ s.waiting, delivery.batch = j) ∨ CommitCall.Ran s.log j
  ordered : CommitCall.AcksWait s.log

theorem initial_tracks : Tracks initial where
  placed := fun _ _ hLess => absurd hLess (Nat.not_lt_zero _)
  ordered := History.eachAfter_nil

def Verdict.acks : Verdict → Bool
  | .settle dispositions _ => dispositions.all fun d => decide (d = .ack)
  | .idle | .handOut _ _ => false

/-- A batch of which nothing is handed out is acknowledged while no handed-out
commit is outstanding and no earlier batch was dropped. -/
def Alone (verdict : Batch → Verdict) (s : State) : Action Batch → Prop
  | .read (.ok batch) => (verdict batch).acks = true → s.waiting = [] ∧ s.dropped = false
  | _ => True

theorem read_tracks {s : State} (h : Tracks s) (outcome : Nat → CommitResult) {v : Verdict}
    (hAlone : v.acks = true → s.waiting = [] ∧ s.dropped = false) : Tracks (s.read outcome v) := by
  cases v with
  | idle => exact { h with }
  | handOut messages commit =>
    refine ⟨fun hDropped j hLess => ?_, h.ordered⟩
    rcases Nat.lt_succ_iff_lt_or_eq.mp hLess with hOld | rfl
    · refine (h.placed hDropped j hOld).imp_left ?_
      rintro ⟨delivery, hMem, hBatch⟩
      exact ⟨delivery, mem_append_left _ hMem, hBatch⟩
    · exact .inl ⟨_, mem_concat_self, rfl⟩
  | settle dispositions error =>
    refine ⟨fun hDropped j hLess => ?_, .snoc h.ordered fun _ hAck j hLess => ?_⟩
    · rcases Nat.lt_succ_iff_lt_or_eq.mp hLess with hOld | rfl
      · exact (h.placed hDropped j hOld).imp_right fun hRan =>
          hRan.mono (subset_append_left _ _)
      · exact .inr (CommitCall.ran_snoc_self _ _)
    · obtain ⟨hWaiting, hDropped⟩ := hAlone hAck
      rcases h.placed hDropped j hLess with ⟨delivery, hMem, -⟩ | hRan
      · rw [hWaiting] at hMem
        cases hMem
      · exact hRan

theorem commit_tracks {s : State} (h : Tracks s) {index : Nat} {delivery : Delivery}
    (hDelivery : s.waiting[index]? = some delivery) (dispositions : Dispositions) : Tracks { s with
      waiting := s.waiting.eraseIdx index
      log := s.log ++ [⟨delivery.batch, false, dispositions⟩] } := by
  refine ⟨fun hDropped j hLess => ?_, h.ordered.snoc_handedOut rfl⟩
  rcases h.placed hDropped j hLess with ⟨other, hMem, hBatch⟩ | hRan
  · obtain ⟨hIdx, hGet⟩ := List.getElem?_eq_some_iff.mp hDelivery
    rw [← (getElem_cons_eraseIdx_perm hIdx).mem_iff, hGet, mem_cons] at hMem
    rcases hMem with rfl | hOther
    · exact .inr (hBatch ▸ CommitCall.ran_snoc_self _ _)
    · exact .inl ⟨other, hOther, hBatch⟩
  · exact .inr (hRan.mono (subset_append_left _ _))

variable {outcome : Nat → CommitResult} {verdict : Batch → Verdict}

theorem step_tracks (s : State)
    (a : Action Batch) (t : State) (h : Tracks s) (hAlone : Alone verdict s a)
    (hStep : step verdict outcome s a = some t) : Tracks t := by
  cases a with
  | read answer =>
    cases answer with
    | error error =>
      cases hStep
      exact { h with }
    | ok batch =>
      cases hStep
      exact read_tracks h outcome hAlone
  | commit index dispositions =>
    simp only [step] at hStep
    split at hStep
    next delivery hDelivery =>
      cases hStep
      exact commit_tracks h hDelivery _
    next => cases hStep
  | drop index =>
    simp only [step] at hStep
    split_ifs at hStep
    cases hStep
    exact ⟨fun hDropped => absurd hDropped Bool.true_eq_false.mp, h.ordered⟩
  | cancel =>
    cases hStep
    exact ⟨fun hDropped => absurd hDropped Bool.true_eq_false.mp, h.ordered⟩

theorem run_acksWait {actions : List (Action Batch)} {t : State}
    (hAlone : Machine.Guarded (step verdict outcome) (Alone verdict) initial actions)
    (hRun : run (step verdict outcome) initial actions = some t) : CommitCall.AcksWait t.log :=
  (invariant_of_guarded step_tracks initial_tracks hAlone hRun).ordered

end Rejecting

/-- In every run in which a batch is rejected as a whole only while nothing is
outstanding, its acknowledgement waits for all batches before it. -/
theorem rejected_acks_wait (outcome : Nat → CommitResult) : (∀ compiled actions s,
      Machine.Guarded (Rejecting.step (Transform.verdict compiled) outcome)
        (Rejecting.Alone (Transform.verdict compiled)) Rejecting.initial actions →
      run (Rejecting.step (Transform.verdict compiled) outcome)
        Rejecting.initial actions = some s → CommitCall.AcksWait s.log) ∧
    (∀ actions s, Machine.Guarded (Rejecting.step Lookup.verdict outcome)
      (Rejecting.Alone Lookup.verdict) Rejecting.initial actions →
      run (Rejecting.step Lookup.verdict outcome) Rejecting.initial actions = some s →
      CommitCall.AcksWait s.log) ∧
    (∀ onError actions s, Machine.Guarded (Rejecting.step (Aggregate.verdict onError) outcome)
        (Rejecting.Alone (Aggregate.verdict onError)) Rejecting.initial actions →
      run (Rejecting.step (Aggregate.verdict onError) outcome)
        Rejecting.initial actions = some s → CommitCall.AcksWait s.log) ∧
    (∀ onError actions s, Machine.Guarded (Unpack.step onError outcome) (Unpack.Alone onError)
        Unpack.initial actions → run (Unpack.step onError outcome) Unpack.initial actions = some s →
      CommitCall.AcksWait s.log) :=
  ⟨fun _ _ _ hAlone hRun => Rejecting.run_acksWait hAlone hRun,
    fun _ _ hAlone hRun => Rejecting.run_acksWait hAlone hRun,
    fun _ _ _ hAlone hRun => Rejecting.run_acksWait hAlone hRun,
    fun _ _ _ hAlone hRun => Unpack.run_acksWait hAlone hRun⟩

section Runs

def rejectEmpty : Transform.Compiled where
  isNoop := false
  transform message := (message, if message.payload.isEmpty then .error "no payload" else .ok ())
  handleFailure message error := (message, .error error)

def kept : CanonicalMessage := ⟨0, [1], ∅⟩

def rejected : CanonicalMessage := ⟨1, [], ∅⟩

/-- One batch is handed out and committed before the next one is rejected. -/
def oneByOne {Batch : Type} (first second : Batch) : List (Rejecting.Action Batch) :=
  [.read (.ok first), .commit 0 [.ack], .read (.ok second)]

theorem oneByOne_alone {Batch : Type} {verdict : Batch → Rejecting.Verdict}
    {outcome : Nat → CommitResult} {first second : Batch} {messages : List CanonicalMessage}
    {commit : Dispositions → Dispositions} (hFirst : verdict first = .handOut messages commit) :
    Machine.Guarded (Rejecting.step verdict outcome) (Rejecting.Alone verdict)
      Rejecting.initial (oneByOne first second) := by
  refine ⟨fun hAcks => ?_, fun s hRead =>
    ⟨trivial, fun t hCommit => ⟨fun _ => ?_, fun _ _ => trivial⟩⟩⟩
  · rw [hFirst] at hAcks
    cases hAcks
  · rw [Rejecting.step, hFirst] at hRead
    cases hRead
    cases hCommit
    exact ⟨rfl, rfl⟩

/-- A batch is rejected while the commit of the one before it is outstanding. -/
def readAhead {Batch : Type} (first second : Batch) : List (Rejecting.Action Batch) :=
  [.read (.ok first), .read (.ok second)]

def unpackOneByOne : List Unpack.Action :=
  [.read (.batch [.ok [kept]]), .drain 1, .call 0 [.ack], .commit 0, .read (.batch [.ok []])]

theorem unpackOneByOne_alone :
    Machine.Guarded (Unpack.step .drop fun _ => .ok ()) (Unpack.Alone .drop) Unpack.initial
      unpackOneByOne := by
  refine ⟨fun hEmpties => absurd hEmpties (by decide), fun _ hRead => ⟨trivial, fun _ hDrain =>
    ⟨trivial, fun _ hCall => ⟨trivial, fun _ hCommit => ⟨fun _ => ?_, fun _ _ => trivial⟩⟩⟩⟩⟩
  cases hRead
  cases hDrain
  cases hCall
  cases hCommit
  exact ⟨rfl, rfl, rfl⟩

theorem rejected_acks_wait_one_by_one :
    (∃ s, run (Rejecting.step (Transform.verdict rejectEmpty) fun _ => .ok ())
      Rejecting.initial (oneByOne [kept] [rejected]) = some s ∧
        s.log = [⟨0, false, [.ack]⟩, ⟨1, true, [.ack]⟩] ∧ CommitCall.AcksWait s.log) ∧
    (∃ s, run (Rejecting.step Lookup.verdict fun _ => .ok ()) Rejecting.initial
      (oneByOne [.ok kept] [.error (.nonRetryable "no match")]) = some s ∧
        s.log = [⟨0, false, [.ack]⟩, ⟨1, true, [.ack]⟩] ∧ CommitCall.AcksWait s.log) ∧
    (∃ s, run (Rejecting.step (Aggregate.verdict .drop) fun _ => .ok ())
      Rejecting.initial (oneByOne (.folded [.ok kept] none) (.folded [.error "no key"] none)) =
        some s ∧ s.log = [⟨0, false, [.ack]⟩, ⟨1, true, [.ack]⟩] ∧ CommitCall.AcksWait s.log) ∧
    (∃ s, run (Unpack.step .drop fun _ => .ok ()) Unpack.initial unpackOneByOne =
        some s ∧ s.log = [⟨0, false, [.ack]⟩, ⟨1, true, [.ack]⟩] ∧ CommitCall.AcksWait s.log) := by
  obtain ⟨hTransform, hLookup, hAggregate, hUnpack⟩ := rejected_acks_wait fun _ => .ok ()
  refine ⟨⟨_, rfl, rfl, hTransform rejectEmpty (oneByOne [kept] [rejected]) _ ?_ rfl⟩,
    ⟨_, rfl, rfl, hLookup (oneByOne [.ok kept] [.error (.nonRetryable "no match")]) _ ?_ rfl⟩,
    ⟨_, rfl, rfl, hAggregate .drop
      (oneByOne (.folded [.ok kept] none) (.folded [.error "no key"] none)) _ ?_ rfl⟩,
    exists_run (fun s => s.log = [⟨0, false, [.ack]⟩, ⟨1, true, [.ack]⟩])
      (by decide) fun s hRun hLog => ?_⟩
  · exact oneByOne_alone rfl
  · exact oneByOne_alone rfl
  · exact oneByOne_alone rfl
  · exact ⟨hLog, hUnpack .drop unpackOneByOne s unpackOneByOne_alone hRun⟩

theorem not_acksWait_of_ahead {log : List CommitCall} (hLog : log = [⟨1, true, [.ack]⟩]) :
    ¬ CommitCall.AcksWait log := by
  intro hWait
  obtain ⟨earlier, hMem, -⟩ := hWait [] ⟨1, true, [.ack]⟩ [] hLog rfl rfl 0 zero_lt_one
  cases hMem

/-- All four acknowledge a rejected batch ahead of the one before it. -/
theorem rejected_acks_overtake :
    (∃ s, run (Rejecting.step (Transform.verdict rejectEmpty) fun _ => .ok ())
      Rejecting.initial (readAhead [kept] [rejected]) = some s ∧ ¬ CommitCall.AcksWait s.log) ∧
    (∃ s, run (Rejecting.step Lookup.verdict fun _ => .ok ()) Rejecting.initial
      (readAhead [.ok kept] [.error (.nonRetryable "no match")]) = some s ∧
        ¬ CommitCall.AcksWait s.log) ∧
    (∃ s, run (Rejecting.step (Aggregate.verdict .drop) fun _ => .ok ())
      Rejecting.initial (readAhead (.folded [.ok kept] none) (.folded [.error "no key"] none)) =
        some s ∧ ¬ CommitCall.AcksWait s.log) ∧
    (∃ s, run (Unpack.step .drop fun _ => .ok ()) Unpack.initial
      [.read (.batch [.ok [kept]]), .drain 1, .read (.batch [.ok []])] = some s ∧
        ¬ CommitCall.AcksWait s.log) := by
  exact ⟨⟨_, rfl, not_acksWait_of_ahead rfl⟩, ⟨_, rfl, not_acksWait_of_ahead rfl⟩,
    ⟨_, rfl, not_acksWait_of_ahead rfl⟩, exists_run _ (by decide) fun _ _ => not_acksWait_of_ahead⟩

end Runs

end MqBridge
