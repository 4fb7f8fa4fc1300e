import Mathlib.Algebra.BigOperators.Group.List.Basic
import Mathlib.Algebra.GroupWithZero.Nat
import Mathlib.Data.List.Count
import Mathlib.Data.List.Perm.Basic
import Mathlib.Logic.Function.Basic
import MqBridge.Consumer
import MqBridge.Machine.Run

/-! The unpack consumer. An inner batch of envelopes is expanded onto a queue
of logical messages, which are handed out in batches of any size; the inner
batch is held open until each of its messages has a disposition, and is then
committed once.

What `unpack` makes of the payload of each envelope is part of the answer of
the inner consumer. What the commit of an inner batch returns is an arbitrary
function of its number. -/
namespace MqBridge.Unpack

open List Function

/-- One physical message's share of an inner batch's commit. -/
structure Slot where
  total : Nat
  outstanding : Nat
  nacked : Bool
  reply : Option CanonicalMessage
  deriving DecidableEq

/-- An inner batch held open; `commit` tells whether its commit is still there. -/
structure HeldBatch where
  commit : Bool
  slots : List Slot
  unresolved : Nat
  deriving DecidableEq

/-- Folds one disposition into the slot. A reply only reaches an envelope
with a single message. -/
def Slot.settle (entry : Slot) (disposition : MessageDisposition) : Slot :=
  let entry := { entry with outstanding := entry.outstanding - 1 }
  match disposition with
  | .nack => { entry with nacked := true }
  | .reply reply => if entry.total = 1 then { entry with reply := some reply } else entry
  | .ack => entry

def HeldBatch.record (held : HeldBatch) (slot : Nat) (disposition : MessageDisposition) :
    HeldBatch :=
  match held.slots[slot]? with
  | none => held
  | some entry =>
    if entry.outstanding = 0 then held
    else
      let settled := entry.settle disposition
      { held with
        slots := held.slots.set slot settled
        unresolved := if settled.outstanding = 0 then held.unresolved - 1 else held.unresolved }

def Slot.disposition (entry : Slot) : MessageDisposition :=
  if entry.nacked then .nack
  else
    match entry.reply with
    | some reply => .reply reply
    | none => .ack

/-- The slot after its disposition was taken: a reply is moved out. -/
def Slot.taken (entry : Slot) : Slot :=
  if entry.nacked then entry else { entry with reply := none }

/-- One disposition for each physical message, once nothing is outstanding. -/
def HeldBatch.takeIfComplete (held : HeldBatch) : Option Dispositions × HeldBatch :=
  if 0 < held.unresolved then (none, held)
  else if held.commit then
    (some (held.slots.map Slot.disposition),
      { held with commit := false, slots := held.slots.map Slot.taken })
  else (none, held)

structure Pending where
  message : CanonicalMessage
  batch : Nat
  slot : Nat
  deriving DecidableEq

def Pending.owner (p : Pending) : Nat × Nat := (p.batch, p.slot)

/-- The messages of each envelope, or the error of a call that cannot drop
the first envelope it cannot read. -/
def unpackAll (onError : InputErrorPolicy) :
    List (Except String (List CanonicalMessage)) →
      Except ConsumerError (List (List CanonicalMessage))
  | [] => .ok []
  | .ok messages :: rest => (unpackAll onError rest).map fun unpacked => messages :: unpacked
  | .error error :: rest =>
    if onError = .drop then (unpackAll onError rest).map fun unpacked => [] :: unpacked
    else .error (.permanent error)

def slotsOf (unpacked : List (List CanonicalMessage)) : List Slot :=
  unpacked.map fun messages => ⟨messages.length, messages.length, false, none⟩

def heldOf (slots : List Slot) : HeldBatch :=
  ⟨true, slots, slots.countP fun slot => decide (0 < slot.outstanding)⟩

def pendingOf (batch : Nat) (unpacked : List (List CanonicalMessage)) : List Pending :=
  unpacked.zipIdx.flatMap fun messages =>
    messages.1.map fun message => ⟨message, batch, messages.2⟩

/-- The first part of a handed-out commit, under the locks of the batches:
each disposition is recorded, and what is complete is taken. A missing
disposition is an acknowledgement. -/
def settleOwners (held : Nat → HeldBatch) :
    List (Nat × Nat) → Dispositions → (Nat → HeldBatch) × List CommitCall
  | [], _ => (held, [])
  | (batch, slot) :: rest, dispositions =>
    let taken := ((held batch).record slot (dispositions.headD .ack)).takeIfComplete
    let later := settleOwners (update held batch taken.2) rest dispositions.tail
    (later.1, (taken.1.map (CommitCall.mk batch false)).toList ++ later.2)

structure State where
  held : Nat → HeldBatch
  pending : List Pending
  received : Nat
  /-- The owners of the messages of each handed-out commit that was not called. -/
  waiting : List (List (Nat × Nat))
  /-- The inner commits that each called commit has yet to run. -/
  tasks : List (List CommitCall)
  /-- Some commit was dropped without being called, or a batch was. -/
  dropped : Bool
  log : List CommitCall
  /-- What the calls of `receive_batch` returned. -/
  returned : List (Except ConsumerError (List CanonicalMessage))

def initial : State :=
  ⟨fun _ => ⟨false, [], 0⟩, [], 0, [], [], false, [], []⟩

inductive Answer where
  | error (error : ConsumerError)
  /-- A batch of envelopes, with what `unpack` makes of each. -/
  | batch (envelopes : List (Except String (List CanonicalMessage)))

inductive Action where
  /-- The loop of `receive_batch` reads an inner batch. -/
  | read (answer : Answer)
  /-- `receive_batch` hands out what is pending. -/
  | drain (maxMessages : Nat)
  /-- A handed-out commit is called. -/
  | call (index : Nat) (dispositions : Dispositions)
  /-- A called commit runs its next inner commit. -/
  | commit (index : Nat)
  /-- A handed-out commit is dropped without being called. -/
  | drop (index : Nat)
  /-- A called commit is dropped with inner commits left to run. -/
  | abort (index : Nat)
  /-- A receive is dropped with an inner batch in its hands. -/
  | cancel

def State.refill (s : State) (onError : InputErrorPolicy) (outcome : Nat → CommitResult)
    (envelopes : List (Except String (List CanonicalMessage))) : State :=
  match unpackAll onError envelopes with
  | .error error =>
    { s with
      received := s.received + 1
      dropped := true
      returned := s.returned ++ [.error error] }
  | .ok unpacked =>
    if (unpacked.map List.length).sum = 0 then
      { s with
        received := s.received + 1
        log := s.log ++ [⟨s.received, true, List.replicate unpacked.length .ack⟩]
        returned := s.returned ++
          match outcome s.received with
          | .ok _ => []
          | .error cause => [.error (.connection cause)] }
    else
      { s with
        received := s.received + 1
        held := update s.held s.received (heldOf (slotsOf unpacked))
        pending := s.pending ++ pendingOf s.received unpacked }

/-- One step. A call for no messages returns an empty batch and is not a step. -/
def step (onError : InputErrorPolicy) (outcome : Nat → CommitResult) (s : State) :
    Action → Option State
  | .read answer =>
    if s.pending.isEmpty then
      match answer with
      | .error error => some { s with returned := s.returned ++ [.error error] }
      | .batch [] => some { s with returned := s.returned ++ [.ok []] }
      | .batch (first :: rest) => some (s.refill onError outcome (first :: rest))
    else none
  | .drain maxMessages =>
    if s.pending.isEmpty || decide (maxMessages = 0) then none
    else
      some { s with
        pending := s.pending.drop maxMessages
        waiting := s.waiting ++ [(s.pending.take maxMessages).map Pending.owner]
        returned := s.returned ++ [.ok ((s.pending.take maxMessages).map Pending.message)] }
  | .call index dispositions =>
    match s.waiting[index]? with
    | some owners =>
      let settled := settleOwners s.held owners dispositions
      some { s with
        waiting := s.waiting.eraseIdx index
        held := settled.1
        tasks := s.tasks ++ [settled.2] }
    | none => none
  | .commit index =>
    match s.tasks[index]? with
    | some (call :: rest) =>
      match outcome call.batch with
      | .ok _ => some { s with log := s.log ++ [call], tasks := s.tasks.set index rest }
      | .error _ =>
        some { s with
          log := s.log ++ [call]
          tasks := s.tasks.set index []
          dropped := s.dropped || !rest.isEmpty }
    | _ => none
  | .drop index =>
    if index < s.waiting.length then
      some { s with waiting := s.waiting.eraseIdx index, dropped := true }
    else none
  | .abort index =>
    match s.tasks[index]? with
    | some (_ :: _) => some { s with tasks := s.tasks.set index [], dropped := true }
    | _ => none
  | .cancel =>
    if s.pending.isEmpty then some { s with received := s.received + 1, dropped := true }
    else none

namespace HeldBatch

def outstanding (held : HeldBatch) (slot : Nat) : Nat :=
  (held.slots[slot]?.map Slot.outstanding).getD 0

/-- The counter of unresolved slots is right, and the commit is there only
as long as some slot is unresolved. -/
structure Counted (held : HeldBatch) : Prop where
  unresolved : held.unresolved = held.slots.countP fun slot => decide (0 < slot.outstanding)
  kept : held.commit = true → 0 < held.unresolved

end HeldBatch

@[simp] theorem Slot.settle_outstanding (entry : Slot) (disposition : MessageDisposition) :
    (entry.settle disposition).outstanding = entry.outstanding - 1 := by
  cases disposition with
  | ack | nack => rfl
  | reply reply =>
    simp only [Slot.settle]
    split_ifs <;> rfl

@[simp] theorem Slot.taken_outstanding (entry : Slot) :
    entry.taken.outstanding = entry.outstanding := by
  rw [Slot.taken]
  split_ifs <;> rfl

namespace HeldBatch
variable (held : HeldBatch)

variable (slot : Nat) (disposition : MessageDisposition)

/-- A disposition for a resolved slot is ignored; any other is settled. -/
theorem record_cases :
    (held.outstanding slot = 0 ∧ held.record slot disposition = held) ∨
      ∃ entry, held.slots[slot]? = some entry ∧ 0 < entry.outstanding ∧
        held.record slot disposition = { held with
          slots := held.slots.set slot (entry.settle disposition)
          unresolved := if entry.outstanding - 1 = 0 then held.unresolved - 1
            else held.unresolved } := by
  simp only [record, outstanding]
  cases hEntry : held.slots[slot]? with
  | none => exact .inl ⟨rfl, rfl⟩
  | some entry =>
    by_cases hZero : entry.outstanding = 0
    · exact .inl ⟨hZero, if_pos hZero⟩
    · refine .inr ⟨entry, rfl, Nat.pos_of_ne_zero hZero, ?_⟩
      simp only [hZero, if_false, Slot.settle_outstanding]

/-- One disposition takes one message off its slot, if any is left. -/
theorem record_outstanding (i : Nat) :
    (held.record slot disposition).outstanding i =
      held.outstanding i - if i = slot then 1 else 0 := by
  rcases held.record_cases slot disposition with ⟨hZero, hRecord⟩ | ⟨entry, hEntry, -, hRecord⟩
  · rw [hRecord]
    split_ifs with hSame
    · rw [hSame, hZero]
    · rfl
  · obtain ⟨hLess, hGet⟩ := List.getElem?_eq_some_iff.mp hEntry
    rw [hRecord, outstanding, outstanding, getElem?_set]
    by_cases hSame : slot = i
    · subst hSame
      simp [hLess, hGet]
    · rw [if_neg hSame, if_neg (Ne.symm hSame), Nat.sub_zero]

@[simp] theorem record_commit :
    (held.record slot disposition).commit = held.commit := by
  rcases held.record_cases slot disposition with ⟨-, hRecord⟩ | ⟨entry, -, -, hRecord⟩
  · rw [hRecord]
  · rw [hRecord]

theorem record_unresolved
    (h : held.unresolved = held.slots.countP fun slot => decide (0 < slot.outstanding)) :
    (held.record slot disposition).unresolved =
      (held.record slot disposition).slots.countP fun slot => decide (0 < slot.outstanding) := by
  rcases held.record_cases slot disposition with ⟨-, hRecord⟩ | ⟨entry, hEntry, hPos, hRecord⟩
  · rw [hRecord]
    exact h
  · obtain ⟨hLess, hGet⟩ := List.getElem?_eq_some_iff.mp hEntry
    have hSome : 0 < held.slots.countP fun slot => decide (0 < slot.outstanding) :=
      countP_pos_iff.mpr ⟨entry, mem_of_getElem? hEntry, decide_eq_true hPos⟩
    rw [hRecord, countP_set hLess, hGet, h, decide_eq_true hPos, Slot.settle_outstanding]
    by_cases hLast : entry.outstanding - 1 = 0
    · simp [hLast]
    · simp only [hLast, if_false, if_true, Nat.pos_of_ne_zero hLast, decide_true]
      omega

theorem takeIfComplete_outstanding (i : Nat) :
    held.takeIfComplete.2.outstanding i = held.outstanding i := by
  rw [takeIfComplete]
  split_ifs
  · rfl
  · simp [outstanding, comp_def]
  · rfl

theorem Counted.exists_outstanding {held : HeldBatch} (h : held.Counted)
    (hCommit : held.commit = true) : ∃ slot, 0 < held.outstanding slot := by
  have hPos := h.kept hCommit
  rw [h.unresolved] at hPos
  obtain ⟨entry, hMem, hEntry⟩ := countP_pos_iff.mp hPos
  obtain ⟨slot, hLess, hGet⟩ := mem_iff_getElem.mp hMem
  refine ⟨slot, ?_⟩
  rw [outstanding, getElem?_eq_getElem hLess, hGet]
  exact of_decide_eq_true hEntry

end HeldBatch

/-- An expanded batch is counted. -/
theorem heldOf_counted {unpacked : List (List CanonicalMessage)}
    (hSome : (unpacked.map List.length).sum ≠ 0) : (heldOf (slotsOf unpacked)).Counted := by
  refine ⟨rfl, fun _ => ?_⟩
  obtain ⟨length, hMem, hLen⟩ : ∃ n ∈ unpacked.map length, n ≠ 0 := by
    by_contra hNone
    push Not at hNone
    exact hSome (sum_eq_zero hNone)
  obtain ⟨messages, hMsgs, rfl⟩ := mem_map.mp hMem
  refine countP_pos_iff.mpr ⟨_, mem_map_of_mem hMsgs, ?_⟩
  exact decide_eq_true (Nat.pos_of_ne_zero hLen)

def State.owners (s : State) : List (Nat × Nat) :=
  s.pending.map Pending.owner ++ s.waiting.flatten

def empties (onError : InputErrorPolicy)
    (envelopes : List (Except String (List CanonicalMessage))) : Bool :=
  match unpackAll onError envelopes with
  | .ok unpacked => decide ((unpacked.map List.length).sum = 0)
  | .error _ => false

/-- An emptied batch is read while no handed-out commit is outstanding and no
earlier batch was dropped. -/
def Alone (onError : InputErrorPolicy) (s : State) : Action → Prop
  | .read (.batch (first :: rest)) => empties onError (first :: rest) = true →
      s.waiting = [] ∧ s.tasks.flatten = [] ∧ s.dropped = false
  | _ => True

/-- The commits that are called: of an emptied batch that was just read, and of those that a called
commit has to run. -/
theorem step_log {onError : InputErrorPolicy} {outcome : Nat → CommitResult} {s next : State}
    {a : Action} (hStep : step onError outcome s a = some next) : next.log = s.log ∨
      (∃ first rest dispositions, a = .read (.batch (first :: rest)) ∧
        empties onError (first :: rest) = true ∧
        s.pending = [] ∧ next.log = s.log ++ [⟨s.received, true, dispositions⟩]) ∨
      ∃ call ∈ s.tasks.flatten, next.log = s.log ++ [call] := by
  cases a with simp only [step] at hStep
  | read answer =>
    split_ifs at hStep with hPend
    cases answer with
    | error error =>
      cases hStep
      exact .inl rfl
    | batch envelopes =>
      cases envelopes with
      | nil =>
        cases hStep
        exact .inl rfl
      | cons first rest =>
        cases hStep
        rw [State.refill]
        cases hUnpack : unpackAll onError (first :: rest) with
        | error error => exact .inl rfl
        | ok unpacked =>
          simp only
          split_ifs with hSum
          · refine .inr (.inl ⟨first, rest, _, rfl, ?_, isEmpty_iff.mp hPend, rfl⟩)
            rw [empties, hUnpack]
            exact decide_eq_true hSum
          · exact .inl rfl
  | commit index =>
    split at hStep
    next call rest hTask =>
      have hCall : call ∈ s.tasks.flatten :=
        mem_flatten.mpr ⟨_, mem_of_getElem? hTask, mem_cons_self⟩
      split at hStep <;> cases hStep <;> exact .inr (.inr ⟨call, hCall, rfl⟩)
    next => cases hStep
  | drain maxMessages | drop index | cancel =>
    split_ifs at hStep
    cases hStep
    exact .inl rfl
  | call index dispositions | abort index =>
    split at hStep <;> cases hStep
    exact .inl rfl

end MqBridge.Unpack
