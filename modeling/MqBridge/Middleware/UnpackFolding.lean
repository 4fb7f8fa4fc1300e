import MqBridge.Collections.Places
import MqBridge.Middleware.Unpack

/-! How the dispositions of unpacked messages fold into the commits of the
inner batches. A called commit takes the lock of one batch at a time, so the
recordings of several commits interleave message by message; everything else
is a step of the consumer. -/
namespace MqBridge.Unpack

open List Machine Function

theorem Slot.settle_nacked (entry : Slot) (disposition : MessageDisposition) :
    (entry.settle disposition).nacked = true ↔ entry.nacked = true ∨ disposition = .nack := by
  cases disposition with
  | ack | nack => simp [settle]
  | reply reply =>
    simp only [settle]
    split_ifs <;> simp

theorem Slot.taken_nacked (entry : Slot) : entry.taken.nacked = entry.nacked := by
  rw [taken]
  split_ifs <;> rfl

namespace HeldBatch

/-- The counters and marks of a batch are those of the dispositions that its
slots got so far. -/
structure Counts (held : HeldBatch) (sizes : List Nat) (got : Nat → Dispositions) : Prop where
  length : held.slots.length = sizes.length
  slot : ∀ i entry size, held.slots[i]? = some entry → sizes[i]? = some size →
    entry.outstanding + (got i).length = size ∧ (entry.nacked = true ↔ .nack ∈ got i)
  unresolved : held.unresolved = held.slots.countP fun slot => decide (0 < slot.outstanding)

/-- Between two recordings the commit is there as long as some message has no
disposition. -/
structure Reflects (held : HeldBatch) (sizes : List Nat) (got : Nat → Dispositions) : Prop
    extends Counts held sizes got where
  kept : held.commit = true ↔ 0 < held.unresolved

def adding (got : Nat → Dispositions) (slot : Nat) (disposition : MessageDisposition) :
    Nat → Dispositions :=
  fun i => got i ++ if i = slot then [disposition] else []

def AllSettled (sizes : List Nat) (got : Nat → Dispositions) : Prop :=
  ∀ i size, sizes[i]? = some size → (got i).length = size

/-- One disposition for each slot, negative if any message of it was nacked. -/
structure Answers (dispositions : Dispositions) (sizes : List Nat) (got : Nat → Dispositions) :
    Prop where
  length : dispositions.length = sizes.length
  nack : ∀ i < sizes.length, dispositions[i]? = some .nack ↔ .nack ∈ got i

section Reflects
variable {held : HeldBatch} {sizes : List Nat} {got : Nat → Dispositions}

theorem Reflects.commit_eq_false_iff (h : held.Reflects sizes got) :
    held.commit = false ↔ AllSettled sizes got := by
  rw [← Bool.not_eq_true, h.kept, h.unresolved, countP_pos_iff]
  constructor
  · intro hNone i size hSize
    have hIdx : i < held.slots.length := by
      rw [h.length]
      exact (List.getElem?_eq_some_iff.mp hSize).1
    obtain ⟨hCount, -⟩ := h.slot i _ size (getElem?_eq_getElem hIdx) hSize
    have hZero : ¬0 < held.slots[i].outstanding := fun hPos =>
      hNone ⟨_, getElem_mem hIdx, decide_eq_true hPos⟩
    omega
  · rintro hAll ⟨entry, hMem, hPos⟩
    obtain ⟨i, hEntry⟩ := mem_iff_getElem?.mp hMem
    have hIdx : i < sizes.length := by
      rw [← h.length]
      exact (List.getElem?_eq_some_iff.mp hEntry).1
    have hSize := getElem?_eq_getElem hIdx
    obtain ⟨hCount, -⟩ := h.slot i entry _ hEntry hSize
    have hFull := hAll i _ hSize
    have hLeft := of_decide_eq_true hPos
    omega

/-- As long as a message is outstanding the commit is there. -/
theorem Reflects.commit_of_outstanding (h : held.Reflects sizes got) {slot : Nat}
    (hOpen : 0 < held.outstanding slot) : held.commit = true := by
  rw [h.kept, h.unresolved, countP_pos_iff]
  rw [outstanding] at hOpen
  cases hEntry : held.slots[slot]? with
  | none =>
    rw [hEntry] at hOpen
    cases hOpen
  | some entry =>
    rw [hEntry] at hOpen
    exact ⟨entry, mem_of_getElem? hEntry, decide_eq_true hOpen⟩

variable (h : held.Counts sizes got)

include h

/-- The dispositions that are taken answer for what was recorded. -/
theorem Counts.answers : Answers (held.slots.map Slot.disposition) sizes got := by
  refine ⟨by rw [length_map, h.length], fun i hIdx => ?_⟩
  have hSlot : i < held.slots.length := by rwa [h.length]
  obtain ⟨-, hNacked⟩ := h.slot i _ _ (getElem?_eq_getElem hSlot)
    (getElem?_eq_getElem hIdx)
  rw [getElem?_map, getElem?_eq_getElem hSlot, Option.map_some, ← hNacked, Slot.disposition]
  split_ifs with hNack
  · exact ⟨fun _ => hNack, fun _ => rfl⟩
  · refine ⟨fun hSame => ?_, fun hTrue => absurd hTrue hNack⟩
    cases hReply : held.slots[i].reply with
    | none | some =>
      rw [hReply] at hSame
      cases hSame

theorem Counts.record {slot : Nat}
    (hOpen : 0 < held.outstanding slot) (disposition : MessageDisposition) :
    (held.record slot disposition).Counts sizes (adding got slot disposition) := by
  rcases held.record_cases slot disposition with ⟨hZero, -⟩ | ⟨entry, hEntry, hPos, hRecord⟩
  · exact absurd hZero (ne_of_gt hOpen)
  refine ⟨?_, ?_, held.record_unresolved slot disposition h.unresolved⟩
  · rw [hRecord, length_set]
    exact h.length
  · intro i found size hFound hSize
    rw [hRecord, getElem?_set] at hFound
    rw [adding]
    split_ifs at hFound with hSlot hIdx
    · subst hSlot
      obtain ⟨hCount, hNacked⟩ := h.slot slot entry size hEntry hSize
      cases hFound
      rw [if_pos rfl, Slot.settle_outstanding, Slot.settle_nacked, hNacked, length_append,
        mem_append, length_singleton, mem_singleton]
      exact ⟨by omega, or_congr_right eq_comm⟩
    · rw [if_neg (Ne.symm hSlot), append_nil]
      exact h.slot i found size hFound hSize

/-- Right after a recording, the commit stays or is taken with its answer. -/
theorem Counts.takeIfComplete (hCommit : held.commit = true) :
    held.takeIfComplete.2.Reflects sizes got ∧
      ((held.takeIfComplete.2.commit = true ∧ held.takeIfComplete.1 = none) ∨
        (held.takeIfComplete.2.commit = false ∧
          ∃ dispositions, held.takeIfComplete.1 = some dispositions ∧
            Answers dispositions sizes got)) := by
  rw [HeldBatch.takeIfComplete]
  split_ifs with hOpen
  · exact ⟨⟨h, fun _ => hOpen, fun _ => hCommit⟩, .inl ⟨hCommit, rfl⟩⟩
  · refine ⟨⟨⟨?_, ?_, ?_⟩, ?_⟩, .inr ⟨rfl, _, rfl, h.answers⟩⟩
    · rw [length_map]
      exact h.length
    · intro i entry size hEntry hSize
      rw [getElem?_map] at hEntry
      obtain ⟨before, hBefore, rfl⟩ := Option.map_eq_some_iff.mp hEntry
      rw [Slot.taken_outstanding, Slot.taken_nacked]
      exact h.slot i before size hBefore hSize
    · simpa [comp_def] using h.unresolved
    · exact ⟨fun hTaken => absurd hTaken Bool.false_ne_true, fun hLeft => absurd hLeft hOpen⟩

end Reflects

end HeldBatch

namespace Folding

open HeldBatch (AllSettled Answers adding)

structure Recording where
  owners : List (Nat × Nat)
  dispositions : Dispositions
  ready : List CommitCall

structure State where
  consumer : Unpack.State
  recordings : List Recording
  /-- The messages that were unpacked from each envelope of a batch. -/
  unpacked : Nat → List (List CanonicalMessage)
  /-- Every disposition recorded so far, with the slot of its message. -/
  recorded : List ((Nat × Nat) × MessageDisposition)
  /-- Calls of inner commits that a failed or dropped commit did not get to. -/
  lost : List CommitCall

def initial : State := ⟨Unpack.initial, [], fun _ => [], [], []⟩

inductive Action where
  /-- A step of the consumer other than a call of a handed-out commit. -/
  | consumer (action : Unpack.Action)
  /-- A handed-out commit is called. -/
  | call (index : Nat) (dispositions : Dispositions)
  /-- A called commit records the disposition of its next message. -/
  | record (index : Nat)
  /-- A called commit has recorded everything and turns to its inner commits. -/
  | finish (index : Nat)

def unpackedBy (onError : InputErrorPolicy) (s : State) :
    Unpack.Action → Nat → List (List CanonicalMessage)
  | .read (.batch (first :: rest)) =>
    match unpackAll onError (first :: rest) with
    | .ok unpacked => update s.unpacked s.consumer.received unpacked
    | .error _ => s.unpacked
  | _ => s.unpacked

/-- The calls that are given up: those behind an inner commit that fails, or
all that a dropped commit had left. -/
def lostBy (outcome : Nat → CommitResult) (s : Unpack.State) : Unpack.Action → List CommitCall
  | .commit index =>
    match s.tasks[index]? with
    | some (call :: rest) =>
      match outcome call.batch with
      | .ok _ => []
      | .error _ => rest
    | _ => []
  | .abort index => (s.tasks[index]?).getD []
  | _ => []

def State.consume (s : State) (onError : InputErrorPolicy) (outcome : Nat → CommitResult)
    (action : Unpack.Action) (next : Unpack.State) : State :=
  { s with
    consumer := next
    unpacked := unpackedBy onError s action
    lost := s.lost ++ lostBy outcome s.consumer action }

/-- A handed-out commit is called: it has all of its messages to record. -/
def State.call (s : State) (index : Nat) (owners : List (Nat × Nat))
    (dispositions : Dispositions) : State :=
  { s with
    consumer := { s.consumer with waiting := s.consumer.waiting.eraseIdx index }
    recordings := s.recordings ++ [⟨owners, dispositions, []⟩] }

/-- One round of the loop of the commit. A missing disposition is an
acknowledgement. -/
def State.record (s : State) (index : Nat) (owner : Nat × Nat) (rest : List (Nat × Nat))
    (dispositions : Dispositions) (ready : List CommitCall) : State :=
  let disposition := dispositions.headD .ack
  let taken := ((s.consumer.held owner.1).record owner.2 disposition).takeIfComplete
  { s with
    consumer := { s.consumer with held := update s.consumer.held owner.1 taken.2 }
    recordings := s.recordings.set index ⟨rest, dispositions.tail,
      ready ++ (taken.1.map (CommitCall.mk owner.1 false)).toList⟩
    recorded := s.recorded ++ [(owner, disposition)] }

def State.finish (s : State) (index : Nat) (ready : List CommitCall) : State :=
  { s with
    consumer := { s.consumer with tasks := s.consumer.tasks ++ [ready] }
    recordings := s.recordings.eraseIdx index }

/-- Recordings of several commits interleave. -/
def step (onError : InputErrorPolicy) (outcome : Nat → CommitResult) (s : State) :
    Action → Option State
  | .consumer (.call _ _) => none
  | .consumer action =>
    (Unpack.step onError outcome s.consumer action).map
      (s.consume onError outcome action)
  | .call index dispositions =>
    match s.consumer.waiting[index]? with
    | some owners => some (s.call index owners dispositions)
    | none => none
  | .record index =>
    match s.recordings[index]? with
    | some ⟨owner :: rest, dispositions, ready⟩ =>
      some (s.record index owner rest dispositions ready)
    | _ => none
  | .finish index =>
    match s.recordings[index]? with
    | some ⟨[], _, ready⟩ => some (s.finish index ready)
    | _ => none

section Equations
variable {onError : InputErrorPolicy} {outcome : Nat → CommitResult} {s : State} {index : Nat}
  {dispositions : Dispositions} {ready : List CommitCall}

/-- Steps of the consumer but its calls of handed-out commits. -/
theorem step_consumer {action : Unpack.Action} {t : State} :
    step onError outcome s (.consumer action) = some t ↔
      (∀ index dispositions, action ≠ .call index dispositions) ∧
        ∃ next, Unpack.step onError outcome s.consumer action = some next ∧
          s.consume onError outcome action next = t := by
  cases action with
  | call index dispositions =>
    exact ⟨nofun, fun h => absurd rfl (h.1 index dispositions)⟩
  | _ => exact Option.map_eq_some_iff.trans (and_iff_right nofun).symm

end Equations

/-! ### A commit that is not interrupted -/

section Uninterrupted
variable {onError : InputErrorPolicy} {outcome : Nat → CommitResult} {s : State}

variable {dispositions : Dispositions}

theorem run_records {index : Nat} {owners : List (Nat × Nat)}
    {ready : List CommitCall}
    (hRecording : s.recordings[index]? = some ⟨owners, dispositions, ready⟩) :
    ∃ t left, run (step onError outcome) s (List.replicate owners.length (.record index)) =
        some t ∧
      t.consumer =
        { s.consumer with held := (settleOwners s.consumer.held owners dispositions).1 } ∧
      t.recordings = s.recordings.set index
        ⟨[], left, ready ++ (settleOwners s.consumer.held owners dispositions).2⟩ := by
  obtain ⟨hLess, hGet⟩ := List.getElem?_eq_some_iff.mp hRecording
  induction owners generalizing s dispositions ready with
  | nil =>
    refine ⟨s, dispositions, rfl, rfl, ?_⟩
    rw [settleOwners, append_nil, ← hGet, set_getElem_self]
  | cons owner rest ih =>
    have hNext : (s.record index owner rest dispositions ready).recordings[index]? = some _ :=
      getElem?_set_self hLess
    obtain ⟨hLater, hSame⟩ := List.getElem?_eq_some_iff.mp hNext
    obtain ⟨t, left, hRun, hConsumer, hRecordings⟩ := ih hNext hLater hSame
    refine ⟨t, left, ?_, hConsumer, ?_⟩
    · rw [length_cons, replicate_succ, run_cons_eq_some]
      exact ⟨_, by simp only [step, hRecording], hRun⟩
    · rw [hRecordings, State.record, set_set, settleOwners, append_assoc]

/-- Recording all messages of a commit without interruption is the call of the
consumer. -/
theorem run_call (hIdle : s.recordings = []) {index : Nat} {next : Unpack.State}
    (hNext : Unpack.step onError outcome s.consumer (.call index dispositions) = some next) :
    ∃ actions t, run (step onError outcome) s actions = some t ∧ t.consumer = next ∧
      t.recordings = [] := by
  simp only [Unpack.step] at hNext
  split at hNext
  next owners hOwners =>
    cases hNext
    have hCalled : (s.call index owners dispositions).recordings =
        [⟨owners, dispositions, []⟩] := by
      rw [State.call, hIdle, nil_append]
    obtain ⟨t, left, hRecords, hHeld, hRecorded⟩ : ∃ t left, run (step onError outcome)
        (s.call index owners dispositions) (replicate owners.length (.record 0)) =
          some t ∧ _ :=
      run_records (by rw [hCalled]; rfl)
    rw [hCalled] at hRecorded
    refine ⟨.call index dispositions :: (replicate owners.length (.record 0) ++ [.finish 0]),
      t.finish 0 (settleOwners s.consumer.held owners dispositions).2, ?_, ?_, ?_⟩
    · rw [run_cons_eq_some]
      refine ⟨_, by simp only [step, hOwners], run_append_eq_some.mpr ⟨t, hRecords, ?_⟩⟩
      rw [run_cons_eq_some]
      exact ⟨_, by simp only [step, hRecorded]; rfl, rfl⟩
    · rw [State.finish, hHeld]
      rfl
    · rw [State.finish, hRecorded]
      rfl
  next => cases hNext

/-- So every step of the consumer, in which commits are never interrupted, is
a run here. -/
theorem run_action (hIdle : s.recordings = []) {action : Unpack.Action} {next : Unpack.State}
    (hNext : Unpack.step onError outcome s.consumer action = some next) :
    ∃ actions t, run (step onError outcome) s actions = some t ∧ t.consumer = next ∧
      t.recordings = [] := by
  by_cases hCall : ∀ index dispositions, action ≠ .call index dispositions
  · exact ⟨[.consumer action], _, run_cons_eq_some.mpr
      ⟨_, step_consumer.mpr ⟨hCall, next, hNext, rfl⟩, rfl⟩, rfl, hIdle⟩
  · push Not at hCall
    obtain ⟨index, dispositions, rfl⟩ := hCall
    exact run_call hIdle hNext

end Uninterrupted

def State.owners (s : State) : List (Nat × Nat) :=
  s.consumer.owners ++ s.recordings.flatMap Recording.owners

/-- Every call of an inner commit that was put together: still to be made,
made, or lost. -/
def State.calls (s : State) : List CommitCall :=
  s.recordings.flatMap Recording.ready ++ s.consumer.tasks.flatten ++ s.lost ++ s.consumer.log

def gotOf (recorded : List ((Nat × Nat) × MessageDisposition)) (batch slot : Nat) :
    Dispositions :=
  (recorded.filter fun entry => decide (entry.1 = (batch, slot))).map Prod.snd

def State.got (s : State) : Nat → Nat → Dispositions := gotOf s.recorded

def State.sizes (s : State) (batch : Nat) : List Nat := (s.unpacked batch).map List.length

def State.callsOf (s : State) (j : Nat) : List CommitCall :=
  s.calls.filter fun call => decide (call.batch = j)

/-- What holds of every batch at every moment. One that holds no message is
never held; the calls of any other are the one that is taken with its last
disposition. Until something is dropped, what is outstanding has its owner. -/
structure Folds (s : State) (j : Nat) : Prop where
  fresh :
    s.consumer.received ≤ j → s.unpacked j = [] ∧ (∀ slot, s.got j slot = []) ∧ s.callsOf j = []
  unheld :
    (s.unpacked j).flatten = [] → s.consumer.held j = ⟨false, [], 0⟩ ∧ (s.callsOf j).length ≤ 1 ∧
    ∀ call ∈ s.callsOf j, call ∈ s.consumer.log
  owned : ∀ slot, s.owners.count (j, slot) ≤ (s.consumer.held j).outstanding slot
  reflects : (s.unpacked j).flatten ≠ [] → (s.consumer.held j).Reflects (s.sizes j) (s.got j)
  once : (s.unpacked j).flatten ≠ [] → (s.callsOf j).length = if (s.consumer.held j).commit then
    0 else 1
  answers : (s.unpacked j).flatten ≠ [] → ∀ call ∈ s.callsOf j, call.emptied = false ∧
    Answers call.dispositions (s.sizes j) (s.got j)
  kept : s.consumer.dropped = false →
    (∀ slot, (s.consumer.held j).outstanding slot ≤ s.owners.count (j, slot)) ∧
      (∀ call ∈ s.lost, call.batch ≠ j) ∧
      (j < s.consumer.received → (s.unpacked j).flatten = [] → s.callsOf j ≠ [])

theorem initial_folds (j : Nat) : Folds initial j where
  fresh _ := ⟨rfl, fun _ => rfl, rfl⟩
  unheld _ := ⟨rfl, Nat.zero_le 1, nofun⟩
  owned _ := Nat.le_refl 0
  reflects hSome := absurd rfl hSome
  once hSome := absurd rfl hSome
  answers hSome := absurd rfl hSome
  kept _ := ⟨fun _ => Nat.le_refl 0, nofun, nofun⟩

section Step
variable {s t : State} {j : Nat}

/-- What a step leaves alone that is not about the batch. -/
structure Keeps (s t : State) (j : Nat) : Prop where
  held : t.consumer.held j = s.consumer.held j
  unpacked : t.unpacked j = s.unpacked j
  got : t.got j = s.got j
  calls : (t.callsOf j).Perm (s.callsOf j)
  log : s.consumer.log ⊆ t.consumer.log
  received : s.consumer.received ≤ t.consumer.received
  owners : ∀ slot, t.owners.count (j, slot) ≤ s.owners.count (j, slot)
  kept : t.consumer.dropped = false → s.consumer.dropped = false ∧
    (∀ slot, s.owners.count (j, slot) ≤ t.owners.count (j, slot)) ∧ t.lost = s.lost ∧
      (j < t.consumer.received → j < s.consumer.received)

theorem Folds.frame (h : Folds s j) (hKeeps : Keeps s t j) : Folds t j := by
  refine ⟨fun hLe => ?_, ?_, fun slot => ?_, ?_, ?_, ?_, fun hDropped => ?_⟩
  · obtain ⟨hUnpacked, hGot, hCalls⟩ := h.fresh (hKeeps.received.trans hLe)
    rw [hKeeps.got]
    exact ⟨hKeeps.unpacked.trans hUnpacked, hGot, (hKeeps.calls.trans (.of_eq hCalls)).eq_nil⟩
  · rw [hKeeps.unpacked, hKeeps.held, hKeeps.calls.length_eq]
    intro hFlat
    obtain ⟨hHeld, hOnce, hLog⟩ := h.unheld hFlat
    exact ⟨hHeld, hOnce, fun call hMem => hKeeps.log (hLog call (hKeeps.calls.mem_iff.mp hMem))⟩
  · rw [hKeeps.held]
    exact (hKeeps.owners slot).trans (h.owned slot)
  · rw [State.sizes, hKeeps.unpacked, hKeeps.held, hKeeps.got]
    exact h.reflects
  · rw [hKeeps.unpacked, hKeeps.held, hKeeps.calls.length_eq]
    exact h.once
  · rw [State.sizes, hKeeps.unpacked, hKeeps.got]
    exact fun hSome call hMem => h.answers hSome call (hKeeps.calls.mem_iff.mp hMem)
  · obtain ⟨hBefore, hOwners, hLost, hRecv⟩ := hKeeps.kept hDropped
    obtain ⟨hCovered, hGone, hCalled⟩ := h.kept hBefore
    rw [hKeeps.held, hKeeps.unpacked, hLost]
    refine ⟨fun slot => (hCovered slot).trans (hOwners slot), hGone, fun hLess hFlat hNone => ?_⟩
    exact hCalled (hRecv hLess) hFlat (hNone ▸ hKeeps.calls).symm.eq_nil

/-- A step that only moves messages and calls around, or drops messages. -/
theorem Folds.move (h : ∀ j, Folds s j) (hHeld : t.consumer.held = s.consumer.held)
    (hUnpacked : t.unpacked = s.unpacked) (hRecorded : t.recorded = s.recorded)
    (hCalls : t.calls.Perm s.calls) (hLog : s.consumer.log ⊆ t.consumer.log)
    (hMoved : t.consumer.dropped = true ∧ s.consumer.received ≤ t.consumer.received ∧
        (∀ p, t.owners.count p ≤ s.owners.count p) ∨
      t.consumer.dropped = s.consumer.dropped ∧ t.consumer.received = s.consumer.received ∧
        t.lost = s.lost ∧ ∀ p, t.owners.count p = s.owners.count p) : ∀ j, Folds t j := by
  intro j
  have hGot : t.got j = s.got j := by rw [State.got, State.got, hRecorded]
  rcases hMoved with ⟨hDropped, hRecv, hOwners⟩ | ⟨hDropped, hRecv, hLost, hOwners⟩
  · refine (h j).frame ⟨congrFun hHeld j, congrFun hUnpacked j, hGot, hCalls.filter _, hLog,
      hRecv, fun _ => hOwners _, fun hKept => ?_⟩
    rw [hDropped] at hKept
    cases hKept
  · refine (h j).frame ⟨congrFun hHeld j, congrFun hUnpacked j, hGot, hCalls.filter _, hLog,
      hRecv.ge, fun _ => (hOwners _).le, fun hKept => ?_⟩
    exact ⟨hDropped ▸ hKept, fun _ => (hOwners _).ge, hLost, hRecv ▸ id⟩

theorem callsOf_perm {called : List CommitCall} (hCalls : t.calls.Perm (called ++ s.calls))
    (j : Nat) :
    (t.callsOf j).Perm ((called.filter fun call => decide (call.batch = j)) ++ s.callsOf j) := by
  rw [State.callsOf, State.callsOf, ← filter_append]
  exact hCalls.filter _

variable {unpacked : List (List CanonicalMessage)}

/-- An expanded batch that nothing was recorded for. -/
theorem heldOf_reflects (hSome : (unpacked.map List.length).sum ≠ 0) {got : Nat → Dispositions}
    (hNone : ∀ slot, got slot = []) :
    (heldOf (slotsOf unpacked)).Reflects (unpacked.map List.length) got := by
  have hCounted := heldOf_counted hSome
  refine ⟨⟨?_, ?_, hCounted.unresolved⟩, hCounted.kept, fun _ => rfl⟩
  · rw [heldOf, slotsOf, length_map, length_map]
  · intro i entry size hEntry hSize
    rw [heldOf, slotsOf, getElem?_map] at hEntry
    rw [getElem?_map] at hSize
    obtain ⟨messages, hMsgs, rfl⟩ := Option.map_eq_some_iff.mp hEntry
    rw [hMsgs] at hSize
    cases hSize
    rw [hNone]
    simp

theorem count_owners (batch slot first : Nat) (unpacked : List (List CanonicalMessage)) :
    (((unpacked.zipIdx first).flatMap fun messages =>
      messages.1.map fun message => Pending.mk message batch messages.2).map Pending.owner).count
        (batch, slot) =
      if first ≤ slot then (unpacked[slot - first]?.map List.length).getD 0 else 0 := by
  induction unpacked generalizing first with
  | nil => simp
  | cons messages rest ih =>
    have hFirst : ((messages.map fun message => .mk message batch first).map
        Pending.owner).count (batch, slot) = if slot = first then messages.length else 0 := by
      have hSame : ((batch, first) == (batch, slot)) = decide (slot = first) := by
        rw [Bool.eq_iff_iff, beq_iff_eq, decide_eq_true_iff, Prod.mk.injEq]
        exact ⟨fun h => h.2.symm, fun h => ⟨rfl, h.symm⟩⟩
      rw [map_map, comp_def]
      simp only [Pending.owner, map_const', count_replicate, hSame,
        decide_eq_true_iff]
    rw [zipIdx_cons, flatMap_cons, map_append, count_append, ih, hFirst]
    rcases lt_trichotomy slot first with hLess | rfl | hMore
    · rw [if_neg (by omega), if_neg (by omega), if_neg (by omega)]
    · rw [if_pos rfl, if_neg (by omega), if_pos (le_refl _), Nat.sub_self]
      rfl
    · rw [if_neg (by omega), if_pos (by omega), if_pos (by omega),
        show slot - first = slot - (first + 1) + 1 by omega, getElem?_cons_succ, zero_add]

/-- Every message of a slot is pending once. -/
theorem count_pendingOf (batch slot : Nat) (unpacked : List (List CanonicalMessage)) :
    ((pendingOf batch unpacked).map Pending.owner).count (batch, slot) =
      (heldOf (slotsOf unpacked)).outstanding slot := by
  rw [pendingOf, count_owners, HeldBatch.outstanding, heldOf,
    slotsOf, getElem?_map, Option.map_map]
  rfl

theorem count_pendingOf_of_ne {batch : Nat} {p : Nat × Nat} (hOther : p.1 ≠ batch)
    (unpacked : List (List CanonicalMessage)) :
    ((pendingOf batch unpacked).map Pending.owner).count p = 0 := by
  refine count_eq_zero.mpr fun hMem => ?_
  obtain ⟨pending, hPend, rfl⟩ := mem_map.mp hMem
  obtain ⟨messages, -, hMsg⟩ := mem_flatMap.mp hPend
  obtain ⟨message, -, rfl⟩ := mem_map.mp hMsg
  exact hOther rfl

theorem flatten_eq_nil_iff_sum : unpacked.flatten = [] ↔ (unpacked.map List.length).sum = 0 := by
  rw [← length_flatten, length_eq_zero_iff]

theorem pendingOf_eq_nil (hFlat : unpacked.flatten = []) (batch : Nat) :
    pendingOf batch unpacked = [] := by
  refine flatMap_eq_nil_iff.mpr fun messages hMem => ?_
  rw [flatten_eq_nil_iff.mp hFlat _ (fst_mem_of_mem_zipIdx hMem)]
  rfl

/-- What a step does that receives the next batch: either it holds messages
and is held, or its commit is called at once. -/
structure Receives (s t : State) (messages : List (List CanonicalMessage))
    (made : List CommitCall) : Prop where
  received : t.consumer.received = s.consumer.received + 1
  dropped : t.consumer.dropped = s.consumer.dropped
  lost : t.lost = s.lost
  unpacked : t.unpacked = update s.unpacked s.consumer.received messages
  recorded : t.recorded = s.recorded
  held : t.consumer.held = update s.consumer.held s.consumer.received
    (if messages.flatten = [] then ⟨false, [], 0⟩ else heldOf (slotsOf messages))
  owners : ∀ p, t.owners.count p = s.owners.count p +
    ((pendingOf s.consumer.received messages).map Pending.owner).count p
  calls : t.calls.Perm (made ++ s.calls)
  log : s.consumer.log ⊆ t.consumer.log
  called : if messages.flatten = [] then
      ∃ call ∈ t.consumer.log, made = [call] ∧ call.batch = s.consumer.received else made = []

section Receive
variable {called : List CommitCall}

theorem Receives.got (hReceives : Receives s t unpacked called) (j : Nat) : t.got j = s.got j := by
  rw [State.got, State.got, hReceives.recorded]

/-- Nothing is known of the batch before it is received. -/
theorem Folds.count_fresh (h : Folds s s.consumer.received)
    (hReceives : Receives s t unpacked called)
    (slot : Nat) : t.owners.count (s.consumer.received, slot) =
      ((pendingOf s.consumer.received unpacked).map Pending.owner).count
        (s.consumer.received, slot) := by
  have hFlat : (s.unpacked s.consumer.received).flatten = [] := by
    rw [(h.fresh (le_refl _)).1]
    rfl
  have hLe := h.owned slot
  rw [(h.unheld hFlat).1] at hLe
  rw [hReceives.owners, Nat.le_zero.mp hLe, zero_add]

/-- A batch without messages is called at once. -/
theorem Folds.receive_empty (h : Folds s s.consumer.received)
    (hReceives : Receives s t unpacked called)
    (hFlat : unpacked.flatten = []) : Folds t s.consumer.received := by
  have hRecv := hReceives.received
  have hHeld := (congrFun hReceives.held s.consumer.received).trans (update_self ..)
  have hCalled := hReceives.called
  rw [if_pos hFlat] at hHeld hCalled
  obtain ⟨call, hMem, rfl, hBatch⟩ := hCalled
  have hPerm := callsOf_perm hReceives.calls s.consumer.received
  rw [(h.fresh (le_refl _)).2.2,
    filter_eq_self.mpr fun _ hOnly => decide_eq_true (mem_singleton.mp hOnly ▸ hBatch)] at hPerm
  have hNone : (t.unpacked s.consumer.received).flatten = [] := by
    rw [hReceives.unpacked, update_self, hFlat]
  refine ⟨fun hLe => ?_, fun _ => ⟨hHeld, hPerm.length_eq.le, fun other hOther => ?_⟩, fun slot =>
    ?_,
    absurd hNone, absurd hNone, absurd hNone, fun hKept => ⟨fun slot => ?_, ?_, fun _ _ hNil => ?_⟩⟩
  · omega
  · rw [mem_singleton.mp (hPerm.mem_iff.mp hOther)]
    exact hMem
  · rw [h.count_fresh hReceives, pendingOf_eq_nil hFlat]
    exact Nat.zero_le _
  · rw [hHeld]
    exact Nat.zero_le _
  · rw [hReceives.lost]
    exact (h.kept (hReceives.dropped ▸ hKept)).2.1
  · rw [hNil] at hPerm
    exact absurd hPerm.symm.eq_nil (cons_ne_nil _ _)

/-- A batch with messages is held. -/
theorem Folds.receive_held (h : Folds s s.consumer.received)
    (hReceives : Receives s t unpacked called)
    (hFlat : unpacked.flatten ≠ []) : Folds t s.consumer.received := by
  have hRecv := hReceives.received
  have hHeld := (congrFun hReceives.held s.consumer.received).trans (update_self ..)
  have hCalled := hReceives.called
  rw [if_neg hFlat] at hHeld hCalled
  obtain ⟨-, hNew, hUncalled⟩ := h.fresh (le_refl _)
  have hPerm := callsOf_perm hReceives.calls s.consumer.received
  rw [hUncalled, hCalled] at hPerm
  have hNil : t.callsOf s.consumer.received = [] := hPerm.eq_nil
  have hUnpacked :
      t.unpacked s.consumer.received = unpacked := by rw [hReceives.unpacked, update_self]
  have hCount (slot : Nat) : t.owners.count (s.consumer.received, slot) =
      (t.consumer.held s.consumer.received).outstanding slot := by
    rw [h.count_fresh hReceives, hHeld, count_pendingOf]
  refine ⟨fun hLe => ?_, fun hNone => absurd (hUnpacked ▸ hNone) hFlat, fun slot =>
    (hCount slot).le,
    fun _ => ?_, fun _ => ?_, fun _ => ?_, fun hKept => ⟨fun slot => (hCount slot).ge, ?_,
      fun _ hNone => absurd (hUnpacked ▸ hNone) hFlat⟩⟩
  · omega
  · rw [hHeld, State.sizes, hUnpacked, hReceives.got]
    exact heldOf_reflects (mt flatten_eq_nil_iff_sum.mpr hFlat) hNew
  · rw [hNil, hHeld]
    rfl
  · rw [hNil]
    exact nofun
  · rw [hReceives.lost]
    exact (h.kept (hReceives.dropped ▸ hKept)).2.1

theorem Folds.receive_other (h : Folds s j) (hReceives : Receives s t unpacked called)
    (hOther : j ≠ s.consumer.received) : Folds t j := by
  have hRecv := hReceives.received
  have hCalled := hReceives.called
  have hElsewhere : (called.filter fun call => decide (call.batch = j)) = [] := by
    split_ifs at hCalled
    · obtain ⟨call, -, rfl, hBatch⟩ := hCalled
      exact filter_cons_of_neg (by rw [hBatch, decide_eq_true_eq]; exact Ne.symm hOther)
    · rw [hCalled, filter_nil]
  have hCount (slot : Nat) : t.owners.count (j, slot) = s.owners.count (j, slot) := by
    rw [hReceives.owners, count_pendingOf_of_ne hOther, add_zero]
  have hPerm := callsOf_perm hReceives.calls j
  rw [hElsewhere] at hPerm
  refine h.frame ⟨?_, ?_, hReceives.got j, hPerm, hReceives.log, by omega, fun slot =>
    (hCount slot).le, fun hKept => ?_⟩
  · rw [hReceives.held, update_of_ne hOther]
  · rw [hReceives.unpacked, update_of_ne hOther]
  · exact ⟨hReceives.dropped ▸ hKept, fun slot => (hCount slot).ge, hReceives.lost,
      fun hLess => by omega⟩

theorem Folds.receive (h : ∀ j, Folds s j) (hReceives : Receives s t unpacked called) (j : Nat) :
    Folds t j := by
  by_cases hSame : j = s.consumer.received
  · subst hSame
    by_cases hFlat : unpacked.flatten = []
    · exact (h _).receive_empty hReceives hFlat
    · exact (h _).receive_held hReceives hFlat
  · exact (h j).receive_other hReceives hSame

end Receive

theorem got_snoc (recorded : List ((Nat × Nat) × MessageDisposition)) (batch slot j : Nat)
    (disposition : MessageDisposition) : gotOf (recorded ++ [((batch, slot), disposition)]) j =
      if j = batch then adding (gotOf recorded batch) slot disposition else gotOf recorded j := by
  funext i
  rw [gotOf, filter_append, map_append, ← gotOf]
  by_cases hBatch : j = batch
  · subst hBatch
    by_cases hSlot : i = slot
    · simp [adding, hSlot]
    · simp [adding, hSlot, Ne.symm hSlot]
  · simp [hBatch, Ne.symm hBatch]

/-- What a step does that records the disposition of one message. -/
structure Records (s t : State) (batch slot : Nat) (disposition : MessageDisposition)
    (taken : Option Dispositions × HeldBatch) : Prop where
  record : ((s.consumer.held batch).record slot disposition).takeIfComplete = taken
  consumer : t.consumer = { s.consumer with held := update s.consumer.held batch taken.2 }
  unpacked : t.unpacked = s.unpacked
  lost : t.lost = s.lost
  recorded : t.recorded = s.recorded ++ [((batch, slot), disposition)]
  owners : s.owners.Perm ((batch, slot) :: t.owners)
  calls : t.calls.Perm ((taken.1.map (CommitCall.mk batch false)).toList ++ s.calls)

section Record
variable {batch slot : Nat} {disposition : MessageDisposition}
    {taken : Option Dispositions × HeldBatch}

theorem Records.got (hRecords : Records s t batch slot disposition taken) (j : Nat) :
    t.got j = if j = batch then adding (s.got batch) slot disposition else s.got j := by
  rw [State.got, hRecords.recorded, got_snoc]
  rfl

theorem Records.count (hRecords : Records s t batch slot disposition taken) (j i : Nat) :
    s.owners.count (j, i) = t.owners.count (j, i) + if j = batch ∧ i = slot then 1 else 0 := by
  rw [hRecords.owners.count_eq, count_cons]
  simp only [beq_iff_eq, Prod.mk.injEq, @eq_comm Nat batch, @eq_comm Nat slot]

/-- A batch that a message is recorded for holds messages and was not called. -/
theorem Folds.of_records (h : Folds s batch) (hRecords : Records s t batch slot disposition taken) :
    0 < (s.consumer.held batch).outstanding slot ∧ (s.unpacked batch).flatten ≠ [] ∧
      (s.consumer.held batch).commit = true ∧ s.callsOf batch = [] := by
  have hOpen : 0 < (s.consumer.held batch).outstanding slot := by
    refine lt_of_lt_of_le ?_ (h.owned slot)
    rw [hRecords.count, if_pos ⟨rfl, rfl⟩]
    exact Nat.succ_pos _
  have hSome : (s.unpacked batch).flatten ≠ [] := fun hFlat => by
    rw [(h.unheld hFlat).1] at hOpen
    exact absurd hOpen (lt_irrefl 0)
  have hCommit := (h.reflects hSome).commit_of_outstanding hOpen
  have hNone := h.once hSome
  rw [if_pos hCommit, length_eq_zero_iff] at hNone
  exact ⟨hOpen, hSome, hCommit, hNone⟩

/-- The commit of the batch is called when the last disposition is in. -/
theorem Folds.called (h : Folds s batch) (hRecords : Records s t batch slot disposition taken) :
    taken.2.Reflects (t.sizes batch) (t.got batch) ∧
      (t.callsOf batch).length = (if taken.2.commit then 0 else 1) ∧ ∀ call ∈ t.callsOf batch,
        call.emptied = false ∧ Answers call.dispositions (t.sizes batch) (t.got batch) := by
  obtain ⟨hOpen, hSome, hCommit, hUncalled⟩ := h.of_records hRecords
  obtain ⟨hNext, hCases⟩ := ((h.reflects hSome).toCounts.record hOpen disposition).takeIfComplete
    ((HeldBatch.record_commit _ slot disposition).trans hCommit)
  rw [hRecords.record] at hNext hCases
  have hPerm := callsOf_perm hRecords.calls batch
  rw [hUncalled] at hPerm
  rw [State.sizes, hRecords.unpacked, hRecords.got, if_pos rfl]
  refine ⟨hNext, ?_⟩
  rcases hCases with ⟨hKept, hNone⟩ | ⟨hGone, dispositions, hDispositions, hAnswers⟩
  · rw [hNone] at hPerm
    rw [hPerm.eq_nil, hKept]
    exact ⟨rfl, nofun⟩
  · rw [hDispositions, filter_eq_self.mpr fun _ hOnly =>
      decide_eq_true (mem_singleton.mp hOnly ▸ rfl)] at hPerm
    rw [hGone]
    refine ⟨hPerm.length_eq, fun call hMem => ?_⟩
    rw [mem_singleton.mp (hPerm.mem_iff.mp hMem)]
    exact ⟨rfl, hAnswers⟩

/-- The batch that the message is of. -/
theorem Folds.record_own (h : Folds s batch) (hRecords : Records s t batch slot disposition taken) :
    Folds t batch := by
  obtain ⟨hOpen, hSome, -, -⟩ := h.of_records hRecords
  obtain ⟨hReflects, hOnce, hAnswers⟩ := h.called hRecords
  have hHeld : t.consumer.held batch = taken.2 := by
    rw [hRecords.consumer]
    exact update_self ..
  have hLeft (i : Nat) : (t.consumer.held batch).outstanding i =
      (s.consumer.held batch).outstanding i - if i = slot then 1 else 0 := by
    rw [hHeld, ← hRecords.record, HeldBatch.takeIfComplete_outstanding,
      HeldBatch.record_outstanding]
  have hCount (i : Nat) : s.owners.count (batch, i) = t.owners.count (batch, i) + if i = slot then
      1 else 0 := by
    rw [hRecords.count]
    simp only [true_and]
  refine ⟨fun hLe => ?_, fun hFlat => ?_, fun i => ?_, fun _ => hHeld ▸ hReflects, fun _ =>
    hHeld ▸ hOnce, fun _ => hAnswers, fun hKept => ?_⟩
  · rw [hRecords.consumer] at hLe
    rw [(h.fresh hLe).1] at hSome
    exact absurd rfl hSome
  · rw [hRecords.unpacked] at hFlat
    exact absurd hFlat hSome
  · have hBefore := h.owned i
    rw [hCount] at hBefore
    rw [hLeft]
    omega
  · rw [hRecords.consumer] at hKept
    obtain ⟨hCovered, hGone, -⟩ := h.kept hKept
    refine ⟨fun i => ?_, hRecords.lost ▸ hGone, fun _ hFlat =>
      absurd (hRecords.unpacked ▸ hFlat) hSome⟩
    have hBefore := hCovered i
    rw [hCount] at hBefore
    rw [hLeft]
    omega

/-- Every other batch. -/
theorem Folds.record_other (h : Folds s j) (hRecords : Records s t batch slot disposition taken)
    (hOther : j ≠ batch) : Folds t j := by
  have hCount (i : Nat) : s.owners.count (j, i) = t.owners.count (j, i) := by
    rw [hRecords.count, if_neg fun hPair => hOther hPair.1, add_zero]
  have hPerm := callsOf_perm hRecords.calls j
  have hElsewhere : (((taken.1.map (CommitCall.mk batch false)).toList).filter fun call =>
      decide (call.batch = j)) = [] := by
    cases taken.1 with
    | none => rfl
    | some dispositions =>
      exact filter_cons_of_neg (by rw [decide_eq_true_eq]; exact Ne.symm hOther)
  have hGot := hRecords.got j
  rw [hElsewhere] at hPerm
  rw [if_neg hOther] at hGot
  have hConsumer := hRecords.consumer
  refine h.frame ⟨?_, congrFun hRecords.unpacked j, hGot, hPerm, ?_, ?_, fun i => (hCount i).ge,
    fun hKept => ?_⟩
  · rw [hConsumer]
    exact update_of_ne hOther ..
  · rw [hConsumer]
    exact .refl _
  · rw [hConsumer]
  · rw [hConsumer] at hKept ⊢
    exact ⟨hKept, fun i => (hCount i).le, hRecords.lost, id⟩

/-- A step that records the disposition of one message. -/
theorem Folds.record (h : ∀ j, Folds s j) (hRecords : Records s t batch slot disposition taken)
    (j : Nat) : Folds t j := by
  by_cases hSame : j = batch
  · subst hSame
    exact (h j).record_own hRecords
  · exact (h j).record_other hRecords hSame

end Record

/-- The entry of a list, and what stands around it. -/
theorem flatMap_perm {α β : Type} (f : α → List β) {list : List α} {i : Nat} {a : α}
    (hGet : list[i]? = some a) : (list.flatMap f).Perm (f a ++ (list.eraseIdx i).flatMap f) := by
  obtain ⟨hLess, rfl⟩ := List.getElem?_eq_some_iff.mp hGet
  exact ((getElem_cons_eraseIdx_perm hLess).flatMap_right f).symm

theorem flatMap_set_perm {α β : Type} (f : α → List β) {list : List α} {i : Nat} {a : α}
    (hGet : list[i]? = some a) (b : α) :
    ((list.set i b).flatMap f).Perm (f b ++ (list.eraseIdx i).flatMap f) :=
  (set_perm_cons_eraseIdx (List.getElem?_eq_some_iff.mp hGet).1 b).flatMap_right f

variable {index : Nat}

section

variable (h : ∀ j, Folds s j)

include h

theorem call_folds {owners : List (Nat × Nat)}
    (hOwners : s.consumer.waiting[index]? = some owners) (dispositions : Dispositions) :
    ∀ j, Folds (s.call index owners dispositions) j := by
  refine .move h rfl rfl rfl (by simp [State.call, State.calls]) (.refl _)
    (.inr ⟨rfl, rfl, rfl, fun p => ?_⟩)
  have hPerm := (flatMap_perm id hOwners).count_eq p
  simp only [State.call, State.owners, Unpack.State.owners, count_append,
    flatMap_append, flatMap_singleton, flatMap_id, id_eq] at hPerm ⊢
  omega

variable {dispositions : Dispositions} {ready : List CommitCall}

theorem record_folds {owner : Nat × Nat} {rest : List (Nat × Nat)}
    (hRecording : s.recordings[index]? = some ⟨owner :: rest, dispositions, ready⟩) :
    ∀ j, Folds (s.record index owner rest dispositions ready) j := by
  refine .record h ⟨rfl, rfl, rfl, rfl, rfl, perm_iff_count.mpr fun p => ?_,
    perm_iff_count.mpr fun call => ?_⟩
  · have hBefore := (flatMap_perm Recording.owners hRecording).count_eq p
    simp only [State.record, State.owners, Unpack.State.owners, count_append, count_cons]
      at hBefore ⊢
    rw [(flatMap_set_perm Recording.owners hRecording _).count_eq, count_append]
    simp only [Prod.mk.eta]
    omega
  · have hBefore := (flatMap_perm Recording.ready hRecording).count_eq call
    simp only [State.record, State.calls, count_append] at hBefore ⊢
    rw [(flatMap_set_perm Recording.ready hRecording _).count_eq, count_append, count_append]
    omega

theorem finish_folds (hRecording : s.recordings[index]? = some ⟨[], dispositions, ready⟩) :
    ∀ j, Folds (s.finish index ready) j := by
  refine .move h rfl rfl rfl (perm_iff_count.mpr fun call => ?_) (.refl _)
    (.inr ⟨rfl, rfl, rfl, fun p => ?_⟩)
  · have hPerm := (flatMap_perm Recording.ready hRecording).count_eq call
    simp only [State.finish, State.calls, count_append, flatten_append, flatten_singleton]
      at hPerm ⊢
    omega
  · have hPerm := (flatMap_perm Recording.owners hRecording).count_eq p
    simp only [State.finish, State.owners, count_append, Unpack.State.owners, count_nil] at hPerm ⊢
    omega

theorem refill_folds (onError : InputErrorPolicy) (outcome : Nat → CommitResult)
    (first : Except String (List CanonicalMessage))
    (rest : List (Except String (List CanonicalMessage))) : ∀ j, Folds { s with
      consumer := s.consumer.refill onError outcome (first :: rest)
      unpacked := unpackedBy onError s (.read (.batch (first :: rest))) } j := by
  rw [State.refill, unpackedBy]
  cases unpackAll onError (first :: rest) with
  | error error =>
    exact .move h rfl rfl rfl (.refl _) (.refl _)
      (.inl ⟨rfl, Nat.le_succ _, fun _ => le_refl _⟩)
  | ok unpacked =>
    simp only
    split_ifs with hSum
    · have hFlat := flatten_eq_nil_iff_sum.mpr hSum
      have hFree := ((h s.consumer.received).unheld (by rw [((h _).fresh (le_refl _)).1]; rfl)).1
      refine .receive h
        (?_ : Receives s _ unpacked [⟨s.consumer.received, true, replicate unpacked.length .ack⟩])
      refine ⟨rfl, rfl, rfl, rfl, rfl, ?_, fun p => ?_, perm_iff_count.mpr fun call => ?_,
        subset_append_left _ _, ?_⟩
      · rw [if_pos hFlat, ← hFree, update_eq_self]
      · rw [pendingOf_eq_nil hFlat]
        rfl
      · simp only [State.calls, count_append]
        omega
      · rw [if_pos hFlat]
        exact ⟨_, mem_concat_self, rfl, rfl⟩
    · have hFlat := fun hNone => hSum (flatten_eq_nil_iff_sum.mp hNone)
      refine .receive h ⟨rfl, rfl, rfl, rfl, rfl, ?_, fun p => ?_, .refl ([] ++ _), .refl _,
        if_neg hFlat ▸ rfl⟩
      · rw [if_neg hFlat]
      · simp only [State.owners, Unpack.State.owners, map_append, count_append]
        omega

end

/-- A handed-out commit is about messages of one inner batch, because the queue
is refilled only when it is empty. -/
structure Single (s : State) : Prop where
  pending : ∃ j, ∀ pending ∈ s.consumer.pending, pending.batch = j
  waiting : ∀ owners ∈ s.consumer.waiting, ∃ j, ∀ owner ∈ owners, owner.1 = j
  recordings : ∀ recording ∈ s.recordings, ∃ j, (∀ owner ∈ recording.owners, owner.1 = j) ∧
    ∀ call ∈ recording.ready, call.batch = j
  tasks : ∀ task ∈ s.consumer.tasks, ∃ j, ∀ call ∈ task, call.batch = j

/-- The invariant of a run. -/
def Sound (s : State) : Prop := (∀ j, Folds s j) ∧ Single s

theorem initial_sound : Sound initial := ⟨initial_folds, ⟨0, nofun⟩, nofun, nofun, nofun⟩

theorem refill_single (h : Single s) (hPend : s.consumer.pending = [])
    (onError : InputErrorPolicy) (outcome : Nat → CommitResult)
    (envelopes : List (Except String (List CanonicalMessage)))
    (unpacked : Nat → List (List CanonicalMessage)) : Single { s with
      consumer := s.consumer.refill onError outcome envelopes
      unpacked := unpacked } := by
  rw [State.refill]
  cases unpackAll onError envelopes with
  | error error => exact { h with }
  | ok unpacked =>
    simp only
    split_ifs
    · exact { h with }
    · refine { h with pending := ⟨s.consumer.received, fun pending hMem => ?_⟩ }
      rw [hPend] at hMem
      obtain ⟨messages, -, hMsg⟩ := mem_flatMap.mp hMem
      obtain ⟨message, -, rfl⟩ := mem_map.mp hMsg
      rfl

/-- Pending messages are handed out with one commit. -/
theorem drain_sound (h : Sound s) (maxMessages : Nat)
    (returned : List (Except ConsumerError (List CanonicalMessage))) :
    Sound { s with
      consumer := { s.consumer with
        pending := s.consumer.pending.drop maxMessages
        waiting := s.consumer.waiting ++ [(s.consumer.pending.take maxMessages).map Pending.owner]
        returned := returned } } := by
  obtain ⟨h, hSingle⟩ := h
  constructor
  · refine .move h rfl rfl rfl (.refl _) (.refl _) (.inr ⟨rfl, rfl, rfl, fun p => ?_⟩)
    have hSplit : (s.consumer.pending.map Pending.owner).count p =
        ((s.consumer.pending.take maxMessages).map Pending.owner).count p +
          ((s.consumer.pending.drop maxMessages).map Pending.owner).count p := by
      rw [← count_append, ← map_append, take_append_drop]
    simp only [State.owners, Unpack.State.owners, count_append, flatten_append, flatten_singleton]
    omega
  · obtain ⟨j, hPend⟩ := hSingle.pending
    refine { hSingle with
      pending := ⟨j, fun pending hMem => hPend _ (mem_of_mem_drop hMem)⟩
      waiting := Places.forall_mem_snoc hSingle.waiting ⟨j, fun owner hMem => ?_⟩ }
    obtain ⟨pending, hTaken, rfl⟩ := mem_map.mp hMem
    exact hPend pending (mem_of_mem_take hTaken)

/-- A called commit has run its first inner commit, and goes on with the rest
or gives it up. -/
theorem commit_sound (h : Sound s) {call : CommitCall} {rest left lost : List CommitCall}
    {dropped : Bool}
    (hTask : s.consumer.tasks[index]? = some (call :: rest)) (hRest : rest = left ++ lost)
    (hDropped : dropped = true ∨ dropped = s.consumer.dropped ∧ lost = []) : Sound { s with
      consumer := { s.consumer with
        log := s.consumer.log ++ [call]
        tasks := s.consumer.tasks.set index left
        dropped := dropped }
      lost := s.lost ++ lost } := by
  obtain ⟨h, hSingle⟩ := h
  obtain ⟨j, hBatch⟩ := hSingle.tasks _ (mem_of_getElem? hTask)
  have hLeft : ∀ c ∈ left, c.batch = j := fun c hMem =>
    hBatch c (mem_cons_of_mem _ (hRest ▸ mem_append_left _ hMem))
  refine ⟨.move h rfl rfl rfl (perm_iff_count.mpr fun c => ?_) (subset_append_left _ _) ?_,
    { hSingle with tasks := Places.forall_mem_set hSingle.tasks ⟨j, hLeft⟩ index }⟩
  · have hBefore := (flatMap_perm id hTask).count_eq c
    have hAfter := (flatMap_set_perm id hTask left).count_eq c
    simp only [State.calls, count_append, flatMap_id, id_eq, hRest, count_cons, count_nil]
      at hBefore hAfter ⊢
    omega
  · rcases hDropped with hDropped | ⟨hDropped, hLost⟩
    · exact .inl ⟨hDropped, le_refl _, fun _ => le_refl _⟩
    · exact .inr ⟨hDropped, rfl, by rw [hLost, append_nil], fun _ => rfl⟩

/-- A commit that is dropped gives up the calls it had left. -/
theorem abort_sound (h : Sound s) {task : List CommitCall}
    (hTask : s.consumer.tasks[index]? = some task) : Sound { s with
      consumer := { s.consumer with tasks := s.consumer.tasks.set index [], dropped := true }
      lost := s.lost ++ task } := by
  obtain ⟨h, hSingle⟩ := h
  refine ⟨.move h rfl rfl rfl (perm_iff_count.mpr fun c => ?_) (.refl _)
    (.inl ⟨rfl, le_refl _, fun _ => le_refl _⟩), { hSingle with
      tasks :=
        Places.forall_mem_set hSingle.tasks ⟨0, fun _ hMem => absurd hMem not_mem_nil⟩ index }⟩
  have hBefore := (flatMap_perm id hTask).count_eq c
  have hAfter := (flatMap_set_perm id hTask []).count_eq c
  simp only [State.calls, count_append, flatMap_id, id_eq, count_nil] at hBefore hAfter ⊢
  omega

variable {outcome : Nat → CommitResult} {onError : InputErrorPolicy} {action : Unpack.Action}

theorem consumer_sound (h : Sound s) {next : Unpack.State}
    (hNext : Unpack.step onError outcome s.consumer action = some next)
    (hCall : ∀ index dispositions, action ≠ .call index dispositions) :
    Sound (s.consume onError outcome action next) := by
  obtain ⟨h, hSingle⟩ := h
  rw [State.consume]
  cases action with simp only [Unpack.step] at hNext
  | read answer =>
    simp only [lostBy, append_nil]
    split_ifs at hNext with hPend
    cases answer with
    | error error =>
      cases hNext
      exact ⟨.move h rfl rfl rfl (.refl _) (.refl _) (.inr ⟨rfl, rfl, rfl, fun _ => rfl⟩),
        { hSingle with }⟩
    | batch envelopes =>
      cases envelopes with
      | nil =>
        cases hNext
        exact ⟨.move h rfl rfl rfl (.refl _) (.refl _) (.inr ⟨rfl, rfl, rfl, fun _ => rfl⟩),
          { hSingle with }⟩
      | cons first rest =>
        cases hNext
        exact ⟨refill_folds h onError outcome first rest,
          refill_single hSingle (isEmpty_iff.mp hPend) onError outcome _ _⟩
  | drain maxMessages =>
    split_ifs at hNext
    cases hNext
    simp only [lostBy, append_nil, unpackedBy]
    exact drain_sound ⟨h, hSingle⟩ maxMessages _
  | call index dispositions => exact absurd rfl (hCall index dispositions)
  | commit index =>
    split at hNext
    next call rest hTask =>
      simp only [lostBy, hTask, unpackedBy]
      cases hOutcome : outcome call.batch with
      | ok _ =>
        simp only [hOutcome] at hNext
        cases hNext
        exact commit_sound ⟨h, hSingle⟩ hTask (append_nil _).symm (.inr ⟨rfl, rfl⟩)
      | error _ =>
        simp only [hOutcome] at hNext
        cases hNext
        refine commit_sound ⟨h, hSingle⟩ hTask (nil_append _).symm ?_
        cases rest with
        | nil => exact .inr ⟨Bool.or_false _, rfl⟩
        | cons => exact .inl (Bool.or_true _)
    next => cases hNext
  | drop index =>
    split_ifs at hNext with hIdx
    cases hNext
    refine ⟨.move h rfl rfl rfl (by simp [State.calls, lostBy]) (.refl _)
      (.inl ⟨rfl, le_refl _, fun p => ?_⟩),
      { hSingle with waiting := fun owners hMem => hSingle.waiting _ (mem_of_mem_eraseIdx hMem) }⟩
    have hPerm := (flatMap_perm id (getElem?_eq_getElem hIdx)).count_eq p
    simp only [State.owners, Unpack.State.owners, count_append, flatMap_id] at hPerm ⊢
    omega
  | abort index =>
    split at hNext
    next call rest hTask =>
      cases hNext
      simp only [lostBy, hTask, unpackedBy, Option.getD_some]
      exact abort_sound ⟨h, hSingle⟩ hTask
    next => cases hNext
  | cancel =>
    split_ifs at hNext
    cases hNext
    exact ⟨.move h rfl rfl rfl (by simp [State.calls, lostBy]) (.refl _)
      (.inl ⟨rfl, Nat.le_succ _, fun _ => le_refl _⟩), { hSingle with }⟩

theorem step_sound (s : State) (a : Action) (t : State) (h : Sound s)
    (hStep : step onError outcome s a = some t) : Sound t := by
  cases a with simp only [step] at hStep
  | consumer action =>
    obtain ⟨hCall, next, hNext, rfl⟩ := step_consumer.mp hStep
    exact consumer_sound h hNext hCall
  | call index dispositions =>
    split at hStep
    next owners hOwners =>
      cases hStep
      obtain ⟨h, hSingle⟩ := h
      obtain ⟨j, hBatch⟩ := hSingle.waiting _ (mem_of_getElem? hOwners)
      exact ⟨call_folds h hOwners dispositions, { hSingle with
        waiting := fun owners hMem => hSingle.waiting _ (mem_of_mem_eraseIdx hMem)
        recordings := Places.forall_mem_snoc hSingle.recordings ⟨j, hBatch, nofun⟩ }⟩
    next => cases hStep
  | record index =>
    split at hStep
    next owner rest dispositions ready hRecording =>
      cases hStep
      obtain ⟨h, hSingle⟩ := h
      obtain ⟨j, hOwners, hReady⟩ := hSingle.recordings _ (mem_of_getElem? hRecording)
      refine ⟨record_folds h hRecording, { hSingle with
        recordings := Places.forall_mem_set hSingle.recordings
          ⟨j, fun owner hMem => hOwners owner (mem_cons_of_mem _ hMem), fun call hMem =>
            ?_⟩ index }⟩
      rcases mem_append.mp hMem with hOld | hNew
      · exact hReady call hOld
      · obtain ⟨taken, -, rfl⟩ := Option.map_eq_some_iff.mp (Option.mem_toList.mp hNew)
        exact hOwners owner (mem_cons_self ..)
    next => cases hStep
  | finish index =>
    split at hStep
    next dispositions ready hRecording =>
      cases hStep
      obtain ⟨h, hSingle⟩ := h
      obtain ⟨j, -, hReady⟩ := hSingle.recordings _ (mem_of_getElem? hRecording)
      exact ⟨finish_folds h hRecording, { hSingle with
        recordings := fun recording hMem => hSingle.recordings _ (mem_of_mem_eraseIdx hMem)
        tasks := Places.forall_mem_snoc hSingle.tasks ⟨j, hReady⟩ }⟩
    next => cases hStep

/-- The commit of a batch is called at most once. -/
theorem Folds.length_le (h : Folds s j) : (s.callsOf j).length ≤ 1 := by
  by_cases hFlat : (s.unpacked j).flatten = []
  · exact (h.unheld hFlat).2.1
  · rw [h.once hFlat]
    split_ifs
    · exact Nat.zero_le 1
    · exact le_refl 1

theorem flatten_sublist_calls (s : State) : s.consumer.tasks.flatten.Sublist s.calls :=
  (sublist_append_right _ _).trans ((sublist_append_left _ _).trans (sublist_append_left _ _))

/-- A called commit has at most one inner commit to run. -/
theorem Sound.task_length (h : Sound s) {task : List CommitCall} (hTask : task ∈ s.consumer.tasks) :
    task.length ≤ 1 := by
  obtain ⟨j, hBatch⟩ := h.2.tasks task hTask
  have hSub := ((sublist_flatten_of_mem hTask).trans (flatten_sublist_calls s)).filter
    fun call => decide (call.batch = j)
  rw [filter_eq_self.mpr fun call hMem => decide_eq_true (hBatch call hMem)] at hSub
  exact hSub.length_le.trans (h.1 j).length_le

/-- Nothing is given up behind a failed inner commit. -/
theorem step_lost (s : State) (a : Action) (t : State) (h : Sound s ∧ s.lost = [])
    (hAbort : ∀ index, a ≠ .consumer (.abort index))
    (hStep : step onError outcome s a = some t) : Sound t ∧ t.lost = [] := by
  obtain ⟨hSound, hLost⟩ := h
  refine ⟨step_sound s a t hSound hStep, ?_⟩
  cases a with
  | consumer action =>
    obtain ⟨-, next, -, rfl⟩ := step_consumer.mp hStep
    rw [State.consume, hLost]
    cases action with
    | abort index => exact absurd rfl (hAbort index)
    | commit index =>
      rw [lostBy]
      cases hTask : s.consumer.tasks[index]? with
      | none => rfl
      | some task =>
        have hLen := hSound.task_length (mem_of_getElem? hTask)
        cases task with
        | nil => rfl
        | cons call rest =>
          rw [length_cons] at hLen
          have hRest : rest = [] := length_eq_zero_iff.mp (by omega)
          simp only [hRest]
          split <;> rfl
    | _ => rfl
  | call index dispositions | record index | finish index =>
    simp only [step] at hStep
    split at hStep <;> cases hStep
    exact hLost

end Step

/-- What becomes of the commit of a batch that holds messages. -/
structure Folded (s : State) (j : Nat) : Prop where
  /-- The commit is invoked at most once. -/
  once : s.consumer.log.countP (fun call => decide (call.batch = j)) ≤ 1
  /-- It is not invoked before every message has its disposition. -/
  settled : CommitCall.Ran s.consumer.log j → AllSettled (s.sizes j) (s.got j)
  /-- Once they all have one it was invoked, unless the handed-out commit that
  recorded the last of them is still running, or was dropped while it ran. -/
  invoked : AllSettled (s.sizes j) (s.got j) → CommitCall.Ran s.consumer.log j ∨
    CommitCall.Ran (s.recordings.flatMap Recording.ready ++ s.consumer.tasks.flatten) j ∨
    CommitCall.Ran s.lost j
  /-- It is invoked with one disposition for each physical message. -/
  answers : ∀ call ∈ s.consumer.log, call.batch = j →
    Answers call.dispositions (s.sizes j) (s.got j)

theorem Folds.folded {s : State} {j : Nat} (h : Folds s j) (hSome : (s.unpacked j).flatten ≠ []) :
    Folded s j := by
  have hOnce := h.once hSome
  have hSettled := (h.reflects hSome).commit_eq_false_iff
  have hLog : ∀ call ∈ s.consumer.log, call.batch = j → call ∈ s.callsOf j :=
    fun call hMem hBatch =>
    mem_filter.mpr ⟨mem_append_right _ hMem, decide_eq_true hBatch⟩
  refine ⟨?_, ?_, ?_, fun call hMem hBatch => (h.answers hSome call (hLog call hMem hBatch)).2⟩
  · rw [countP_eq_length_filter]
    exact (((sublist_append_right _ _).filter _).length_le).trans h.length_le
  · rintro ⟨call, hMem, hBatch⟩
    rw [← hSettled]
    by_contra hKept
    rw [Bool.not_eq_false] at hKept
    rw [if_pos hKept] at hOnce
    exact not_mem_nil (length_eq_zero_iff.mp hOnce ▸ hLog call hMem hBatch)
  · intro hAll
    rw [hSettled.mpr hAll] at hOnce
    obtain ⟨call, hCalls⟩ := length_eq_one_iff.mp hOnce
    obtain ⟨hMem, hHere⟩ := mem_filter.mp (hCalls ▸ mem_cons_self : call ∈ s.callsOf j)
    have hBatch := of_decide_eq_true hHere
    rcases mem_append.mp hMem with hEarlier | hMade
    · rcases mem_append.mp hEarlier with hRunning | hGiven
      · exact .inr (.inl ⟨call, hRunning, hBatch⟩)
      · exact .inr (.inr ⟨call, hGiven, hBatch⟩)
    · exact .inl ⟨call, hMade, hBatch⟩

/-- In every interleaving, the commit of an inner batch that holds messages is
invoked once, when its last message has a disposition, with what the messages
of each envelope amount to. Nothing but dropping a called commit prevents it. -/
theorem unpack_folds {onError : InputErrorPolicy} {outcome : Nat → CommitResult}
    {actions : List Action} {t : State}
    (hRun : run (step onError outcome) initial actions = some t) :
    (∀ j, (t.unpacked j).flatten ≠ [] → Folded t j) ∧
      ((∀ index, Action.consumer (.abort index) ∉ actions) → t.lost = []) := by
  refine ⟨fun j hSome => ?_, fun hAbort => ?_⟩
  · exact ((invariant_of_run step_sound initial_sound hRun).1 j).folded hSome
  · have hGuarded : Machine.Guarded (step onError outcome)
        (fun _ a => ∀ index, a ≠ .consumer (.abort index)) initial actions :=
      guarded_of_forall fun a hMem index hSame => hAbort index (hSame ▸ hMem)
    exact (invariant_of_guarded step_lost ⟨initial_sound, rfl⟩ hGuarded hRun).2

def interleaved : List Action :=
  let message : CanonicalMessage := ⟨1, [], ∅⟩
  [.consumer (.read (.batch [.ok [message, message], .ok [message]])), .consumer (.drain 1),
    .consumer (.drain 5), .call 1 [.ack, .nack], .record 0, .call 0 [.ack], .record 1, .record 0,
    .finish 1, .finish 0, .consumer (.commit 1)]

theorem unpack_folds_interleaved :
    ∃ t, run (step .fail fun _ => .ok ()) initial interleaved = some t ∧
      t.consumer.log = [⟨0, false, [.ack, .nack]⟩] ∧
      (∀ j, (t.unpacked j).flatten ≠ [] → Folded t j) ∧
      ((∀ index, Action.consumer (.abort index) ∉ interleaved) → t.lost = []) := by
  refine exists_run (fun t => t.consumer.log = [⟨0, false, [.ack, .nack]⟩])
    (by decide) fun t hRun hLog => ?_
  exact ⟨hLog, unpack_folds hRun⟩

section Idle
variable {s : State} {j : Nat}

/-- Once nothing is outstanding, the commit of a batch has run. -/
theorem Folds.ran_of_idle (h : Folds s j) (hRecv : j < s.consumer.received)
    (hIdle : s.recordings = [])
    (hPend : s.consumer.pending = []) (hWaiting : s.consumer.waiting = [])
    (hTasks : s.consumer.tasks.flatten = []) (hDropped : s.consumer.dropped = false) :
    CommitCall.Ran s.consumer.log j := by
  obtain ⟨hCovered, hGone, hCalled⟩ := h.kept hDropped
  have hNone : s.callsOf j ≠ [] := by
    by_cases hFlat : (s.unpacked j).flatten = []
    · exact hCalled hRecv hFlat
    intro hNil
    have hOnce := h.once hFlat
    have hReflects := h.reflects hFlat
    have hCommit : (s.consumer.held j).commit = true := by
      by_contra hTaken
      rw [if_neg hTaken, hNil] at hOnce
      cases hOnce
    obtain ⟨slot, hOpen⟩ :=
      HeldBatch.Counted.exists_outstanding ⟨hReflects.unresolved, hReflects.kept.mp⟩ hCommit
    have hOwned := hCovered slot
    simp only [State.owners, Unpack.State.owners, hIdle, hPend, hWaiting, flatMap_nil, map_nil,
      flatten_nil, append_nil, count_nil] at hOwned
    omega
  obtain ⟨call, hMem⟩ := exists_mem_of_ne_nil _ hNone
  obtain ⟨hCall, hBatch⟩ := mem_filter.mp hMem
  rw [State.calls, hIdle, hTasks] at hCall
  rcases mem_append.mp hCall with hLost | hLog
  · exact absurd (of_decide_eq_true hBatch) (hGone call hLost)
  · exact ⟨call, hLog, of_decide_eq_true hBatch⟩

/-- A handed-out commit never runs that of an emptied batch. -/
theorem Folds.handedOut {call : CommitCall} (h : Folds s call.batch)
    (hCall : call ∈ s.consumer.tasks.flatten) : call.emptied = false := by
  have hHere : decide (call.batch = call.batch) = true := decide_eq_true rfl
  by_cases hFlat : (s.unpacked call.batch).flatten = []
  · obtain ⟨-, hOnce, hLog⟩ := h.unheld hFlat
    have hMem : call ∈ s.callsOf call.batch :=
      mem_filter.mpr ⟨(flatten_sublist_calls s).subset hCall, hHere⟩
    have hTwice : ([call] ++ [call]).Sublist s.calls :=
      ((singleton_sublist.mpr hCall).trans
        ((sublist_append_right _ _).trans (sublist_append_left _ _))).append
        (singleton_sublist.mpr (hLog call hMem))
    have hTwo := (hTwice.filter fun other => decide (other.batch = call.batch)).length_le
    rw [filter_eq_self.mpr fun other hOther => by
      rw [(mem_append.mp hOther).elim mem_singleton.mp mem_singleton.mp, hHere]] at hTwo
    exact absurd (hTwo.trans hOnce) (Nat.not_le_of_lt Nat.one_lt_two)
  · exact (h.answers hFlat call (mem_filter.mpr ⟨(flatten_sublist_calls s).subset hCall, hHere⟩)).1

end Idle

end Folding

/-- What holds between two steps of the consumer. -/
def Tracked (s : State) : Prop :=
  CommitCall.AcksWait s.log ∧ ∃ t :
    Folding.State, t.consumer = s ∧ t.recordings = [] ∧ Folding.Sound t

variable {outcome : Nat → CommitResult} {onError : InputErrorPolicy}

theorem step_tracked (s : State) (a : Action)
    (next : State) (h : Tracked s) (hAlone : Alone onError s a)
    (hStep : step onError outcome s a = some next) : Tracked next := by
  obtain ⟨hWait, t, rfl, hIdle, hSound⟩ := h
  obtain ⟨actions, t', hRun, hConsumer, hRest⟩ := Folding.run_action hIdle hStep
  refine ⟨?_, t', hConsumer, hRest, invariant_of_run Folding.step_sound hSound hRun⟩
  rcases step_log hStep
    with hLog | ⟨first, rest, dispositions, rfl, hEmpties, hPend, hLog⟩ | ⟨call, hCall, hLog⟩
  · rw [hLog]
    exact hWait
  · obtain ⟨hWaiting, hTasks, hDropped⟩ := hAlone hEmpties
    rw [hLog]
    refine hWait.snoc fun _ _ j hLess => ?_
    exact (hSound.1 j).ran_of_idle hLess hIdle hPend hWaiting hTasks hDropped
  · rw [hLog]
    exact hWait.snoc_handedOut ((hSound.1 call.batch).handedOut hCall)

/-- In every run that empties batches only while nothing is outstanding, they
are acknowledged after all batches before them. -/
theorem run_acksWait {actions : List Action} {t : State}
    (hAlone : Machine.Guarded (step onError outcome) (Alone onError) initial actions)
    (hRun : Machine.run (step onError outcome) initial actions = some t) :
    CommitCall.AcksWait t.log := by
  have hInitial : Tracked initial :=
    ⟨History.eachAfter_nil, Folding.initial, rfl, rfl, Folding.initial_sound⟩
  exact (invariant_of_guarded step_tracked hInitial hAlone hRun).1

end MqBridge.Unpack
