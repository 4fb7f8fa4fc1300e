import Mathlib.Data.List.Pairwise
import MqBridge.Consumer
import MqBridge.Machine.Run

/-! Change capture from a replication slot of Postgres. The rows of a committed transaction wait
until they are handed out. The confirmed position is cumulative. It moves with acknowledged
batches, and with commits without rows and keepalives while nothing waits for an acknowledgement. -/
namespace MqBridge.PostgresCdc

open List Option Machine

inductive ReplicationEvent (M : Type) where
  | begin
  /-- The rows that a record stages, and the error that its decoding may end with. -/
  | xLogData (staged : List M) (failed : Option String)
  | commit (endLsn : Nat)
  | keepAlive (walEnd : Nat)
  | message
  /-- Any other event, as it prints. -/
  | other (text : String)

inductive Arrival (M : Type) where
  | event (event : ReplicationEvent M)
  /-- The stream is closed, or stopped at the position it was asked to stop at. -/
  | ended
  | failed (error : ConsumerError)

structure Row (M : Type) where
  message : M
  /-- The end of its transaction, as in the metadata `postgres.lsn`. -/
  lsn : Nat
  ordinal : Nat
  /-- The position that an acknowledgement of the row confirms. -/
  confirms : Nat
deriving DecidableEq

/-- A running `receive_batch`. The budget counts the events that may still fill the batch up. -/
structure Call where
  maxMessages : Nat
  eventBudget : Nat

/-- The stream is what the server will send. A running `confirm_when_idle` has its position and
whether it saw all rows confirmed; a running commit has the position that it confirms. -/
structure Consumer (M : Type) where
  stream : List (Arrival M)
  exitOnEmpty : Bool
  txBuffer : List M
  ready : List (Row M)
  handedOut : Nat
  inTransaction : Bool
  tripped : Bool
  confirmed : Nat
  applied : Nat
  checkpoint : Option (List Nat)
  ended : Bool
  deferredError : Option ConsumerError
  call : Option Call
  confirming : Option (Nat × Bool)
  committing : Option Nat
  outstanding : List (List (Row M))
  answers : List (Except ConsumerError (List (Row M)))
  /-- Every row that was settled with a Nack. -/
  refused : List (Row M)

def nackError : ConsumerError :=
  .connection
    "postgres_cdc: a change was nacked; reconnecting to replay from the confirmed position"

/-- The rows of a transaction share its end, so only the last one may confirm it. -/
def confirmLsn (ordinal rows endLsn : Nat) : Nat := if ordinal + 1 = rows then endLsn else 0

def committedRows {M : Type} (rows : List M) (endLsn : Nat) : List (Row M) :=
  rows.zipIdx.map fun (message, ordinal) =>
    ⟨message, endLsn, ordinal, confirmLsn ordinal rows.length endLsn⟩

/-- The position that the dispositions confirm, and whether a row was refused. Nothing after the
first row that was not acknowledged counts. -/
def confirmedBy (target : Nat) : Dispositions → List Nat → Nat × Bool
  | _, [] => (target, false)
  | [], _ :: _ => (target, false)
  | .nack :: _, _ :: _ => (target, true)
  | .ack :: dispositions, lsn :: lsns =>
    confirmedBy (if 0 < lsn then lsn else target) dispositions lsns
  | .reply _ :: dispositions, lsn :: lsns =>
    confirmedBy (if 0 < lsn then lsn else target) dispositions lsns

def nackedRows {M : Type} (rows : List (Row M)) (dispositions : Dispositions) : List (Row M) :=
  ((rows.zip dispositions).filter fun settled => settled.2 = .nack).map Prod.fst

inductive Action where
  | receiveBatch (maxMessages : Nat)
  | recv
  | nackWakes
  | drainTimeout
  | handOut
  | confirmIdle
  | commit (index : Nat) (dispositions : Dispositions)
  | finishCommit

/-- A batch is committed only when every batch received before it has been. -/
def Action.InOrder : Action → Prop
  | .commit index _ => index = 0
  | _ => True

namespace Consumer

variable {M : Type}

def new (start : Option Nat) (stream : List (Arrival M)) (exitOnEmpty : Bool)
    (checkpoint : Option (List Nat)) : Consumer M where
  stream := stream
  exitOnEmpty := exitOnEmpty
  txBuffer := []
  ready := []
  handedOut := 0
  inTransaction := false
  tripped := false
  confirmed := start.getD 0
  applied := 0
  checkpoint := checkpoint
  ended := false
  deferredError := none
  call := none
  confirming := none
  committing := none
  outstanding := []
  answers := []
  refused := []

/-- The own part of the idle test; the confirmed position is compared in a step of its own. -/
def confirmWhenIdle (s : Consumer M) (lsn : Nat) : Consumer M :=
  if s.inTransaction = false ∧ s.txBuffer.isEmpty ∧ s.ready.isEmpty ∧ s.tripped = false then
    { s with confirming := some (lsn, false) }
  else s

def handleEvent (s : Consumer M) : ReplicationEvent M → Consumer M × Option String
  | .begin => ({ s with txBuffer := [], inTransaction := true }, none)
  | .commit endLsn =>
    let closed := { s with inTransaction := false }
    if s.txBuffer.isEmpty then (closed.confirmWhenIdle endLsn, none)
    else ({ closed with txBuffer := [], ready := s.ready ++ committedRows s.txBuffer endLsn }, none)
  | .xLogData staged failed => ({ s with txBuffer := s.txBuffer ++ staged }, failed)
  | .keepAlive walEnd => (s.confirmWhenIdle walEnd, none)
  | .message => (s, none)
  | .other text => (s, some ("postgres_cdc: unhandled replication event " ++ text))

def answer (s : Consumer M) (result : Except ConsumerError (List (Row M))) : Consumer M :=
  { s with call := none, answers := s.answers ++ [result] }

def pump (s : Consumer M) : Arrival M → Consumer M
  | .ended => { s with ended := true }.answer (.error .endOfStream)
  | .failed error => s.answer (.error error)
  | .event event =>
    match s.handleEvent event with
    | (s, none) => s
    | (s, some cause) => s.answer (.error (.connection cause))

/-- An event that arrived already and may fill the batch up. No budget is left when the stream ends.
-/
def topUp (s : Consumer M) (call : Call) : Arrival M → Consumer M
  | .ended => { s with ended := true, call := some { call with eventBudget := 0 } }
  | .failed error => { s with deferredError := some error }
  | .event event =>
    match { s with call := some { call with eventBudget := call.eventBudget - 1 } }.handleEvent
      event with
    | (s, none) => s
    | (s, some cause) => { s with deferredError := some (.connection cause) }

def receiveBatch (s : Consumer M) (maxMessages : Nat) : Consumer M :=
  if maxMessages = 0 then s.answer (.ok [])
  else if s.tripped then s.answer (.error nackError)
  else
    match s.ready, s.deferredError with
    | [], some error =>
      { s with applied := s.confirmed, deferredError := none }.answer (.error error)
    | _, _ =>
      { s with applied := s.confirmed, call := some ⟨maxMessages, max (maxMessages * 4) 64⟩ }

def recv (s : Consumer M) (call : Call) : Option (Consumer M) :=
  if s.ready.isEmpty then
    if s.ended then some (s.answer (.error .endOfStream))
    else
      match s.stream with
      | [] => none
      | arrival :: rest => some ({ s with stream := rest }.pump arrival)
  else if s.deferredError = none ∧ s.ready.length < call.maxMessages ∧ 0 < call.eventBudget then
    match s.stream with
    | [] => none
    | arrival :: rest => some ({ s with stream := rest }.topUp call arrival)
  else none

def handOut (s : Consumer M) (maxMessages : Nat) : Consumer M :=
  let rows := s.ready.take maxMessages
  { s with
    ready := s.ready.drop maxMessages
    handedOut := rows.foldl (fun handedOut (row : Row M) => max handedOut row.confirms) s.handedOut
    outstanding := s.outstanding ++ [rows] }.answer (.ok rows)

def commit (s : Consumer M) (index : Nat) (rows : List (Row M)) (dispositions : Dispositions) :
    Consumer M :=
  let settled := { s with
    outstanding := s.outstanding.eraseIdx index
    refused := s.refused ++ nackedRows rows dispositions }
  if s.tripped then settled
  else
    let (target, refused) := confirmedBy 0 dispositions (rows.map Row.confirms)
    { settled with tripped := refused, committing := if 0 < target then some target else none }

/-- The second step of `confirm_when_idle` compares, the third one writes. -/
def confirmIdle (s : Consumer M) (lsn : Nat) (idle : Bool) : Consumer M :=
  if idle then
    { s with confirmed := max s.confirmed lsn, applied := max s.confirmed lsn, confirming := none }
  else { s with confirming := if s.handedOut ≤ s.confirmed then some (lsn, true) else none }

/-- One step of the call, of a commit or of the idle confirmation. -/
def step (s : Consumer M) : Action → Option (Consumer M)
  | .receiveBatch maxMessages => if s.call.isNone then some (s.receiveBatch maxMessages) else none
  | .recv => if s.confirming.isNone then s.call.bind s.recv else none
  | .nackWakes =>
    if s.call.isSome ∧ s.confirming.isNone ∧ s.ready.isEmpty ∧ s.ended = false ∧ s.tripped then
      some (s.answer (.error nackError))
    else none
  | .drainTimeout =>
    if s.call.isSome ∧ s.confirming.isNone ∧ s.ready.isEmpty ∧ s.ended = false ∧ s.exitOnEmpty then
      some (s.answer (.ok []))
    else none
  | .handOut =>
    if s.confirming.isNone ∧ s.ready ≠ [] then s.call.map fun call => s.handOut call.maxMessages
    else none
  | .confirmIdle => s.confirming.map fun (lsn, idle) => s.confirmIdle lsn idle
  | .commit index dispositions =>
    match s.committing, s.outstanding[index]? with
    | none, some rows =>
      if dispositions.length = rows.length then some (s.commit index rows dispositions) else none
    | _, _ => none
  | .finishCommit =>
    s.committing.map fun target => { s with
      confirmed := max s.confirmed target, committing := none
      checkpoint := s.checkpoint.map (· ++ [target]) }

def unacknowledged (s : Consumer M) : List (Row M) :=
  s.refused ++ (s.outstanding.flatten ++ s.ready)

end Consumer

/-- Every commit ends above all positions that the server sent before it. -/
def Served {M : Type} (floor : Nat) : List (Arrival M) → Prop
  | [] => True
  | .event (.commit endLsn) :: rest => floor < endLsn ∧ Served endLsn rest
  | .event (.keepAlive walEnd) :: rest => Served (max floor walEnd) rest
  | _ :: rest => Served floor rest

/-! ### Rows that wait -/

variable {M : Type}

/-- A row either confirms the end of its transaction, or one of the same transaction follows it. -/
def Closed : List (Row M) → Prop
  | [] => True
  | row :: rest => (row.confirms = row.lsn ∨ ∃ other ∈ rest, other.lsn = row.lsn) ∧ Closed rest

theorem Closed.append {rows more : List (Row M)} (hRows : Closed rows) (hMore : Closed more) :
    Closed (rows ++ more) := by
  induction rows with
  | nil => exact hMore
  | cons row rest ih =>
    obtain ⟨hRow, hRest⟩ := hRows
    exact ⟨hRow.imp_right fun ⟨other, hMem, hSame⟩ => ⟨other, mem_append_left _ hMem, hSame⟩,
      ih hRest⟩

theorem Closed.of_append {rows more : List (Row M)} (hClosed : Closed (rows ++ more)) :
    Closed more := by
  induction rows with
  | nil => exact hClosed
  | cons row rest ih => exact ih hClosed.2

theorem closed_committedRows (rows : List M) (endLsn : Nat) :
    Closed (committedRows rows endLsn) := by
  have hFrom : ∀ (rest : List M) (first : Nat), first + rest.length = rows.length →
      Closed ((rest.zipIdx first).map fun (message, ordinal) =>
        (⟨message, endLsn, ordinal, confirmLsn ordinal rows.length endLsn⟩ : Row M)) := by
    intro rest
    induction rest with
    | nil => exact fun _ _ => trivial
    | cons message rest ih =>
      intro first hLen
      rw [length_cons] at hLen
      refine ⟨?_, ih (first + 1) (by omega)⟩
      cases rest with
      | nil => exact .inl (if_pos hLen)
      | cons next rest => exact .inr ⟨_, mem_cons_self .., rfl⟩
  exact hFrom rows 0 (zero_add _)

variable {endLsn : Nat} {row : Row M}

/-- Inside a transaction only the last row confirms something. -/
theorem pairwise_committedRows (rows : List M) (hEnd : 0 < endLsn) :
    (committedRows rows endLsn).Pairwise fun row later => row.confirms < later.lsn := by
  rw [committedRows, pairwise_map]
  refine (pairwise_iff_getElem.mpr ?_)
  intro i j hI hJ hLess
  simp only [length_zipIdx] at hI hJ
  simp only [getElem_zipIdx, confirmLsn]
  split <;> omega

theorem le_foldl_confirms (rows : List (Row M)) (handedOut : Nat) :
    handedOut ≤ rows.foldl (fun handedOut row => max handedOut row.confirms) handedOut ∧
      ∀ row ∈ rows, row.confirms ≤ rows.foldl
        (fun handedOut row => max handedOut row.confirms) handedOut := by
  induction rows generalizing handedOut with
  | nil => simp
  | cons row rest ih =>
    obtain ⟨hFrom, hRest⟩ := ih (max handedOut row.confirms)
    rw [foldl_cons, forall_mem_cons]
    exact ⟨by omega, by omega, hRest⟩

/-- The end of a row that is handed out is reached, or rows of its transaction still wait. -/
theorem Closed.handed {rows rest : List (Row M)} (hClosed : Closed (rows ++ rest)) (handedOut : Nat)
    (hMem : row ∈ rows) :
    row.lsn ≤ rows.foldl (fun handedOut row => max handedOut row.confirms) handedOut ∨
      ∃ other ∈ rest, other.lsn = row.lsn := by
  induction rows generalizing handedOut row with
  | nil => cases hMem
  | cons first rows ih =>
    obtain ⟨hFirst, hRest⟩ := hClosed
    have hLater {row : Row M} (hMem : row ∈ rows) := ih hRest (max handedOut first.confirms) hMem
    rcases mem_cons.mp hMem with rfl | hMem
    · rcases hFirst with hEnd | ⟨other, hOther, hSame⟩
      · exact .inl (hEnd ▸ (le_foldl_confirms (row :: rows) handedOut).2 row (mem_cons_self ..))
      · rw [← hSame]
        exact (mem_append.mp hOther).elim hLater fun hOther => .inr ⟨other, hOther, rfl⟩
    · exact hLater hMem

/-! ### What a commit confirms -/

variable {dispositions : Dispositions} {target floor : Nat}

theorem confirmedBy_le {lsns : List Nat} (hTarget : target ≤ floor)
    (hLsns : ∀ lsn ∈ lsns, lsn ≤ floor) : (confirmedBy target dispositions lsns).1 ≤ floor := by
  fun_induction confirmedBy target dispositions lsns with
  | case1 | case2 | case3 => exact hTarget
  | case4 target dispositions lsn lsns ih | case5 target _ dispositions lsn lsns ih =>
    obtain ⟨hLsn, hLsns⟩ := forall_mem_cons.mp hLsns
    exact ih (by split <;> assumption) hLsns

variable {rows : List (Row M)}

theorem mem_of_mem_nackedRows (hMem : row ∈ nackedRows rows dispositions) : row ∈ rows := by
  obtain ⟨⟨_, _⟩, hSettled, rfl⟩ := mem_map.mp hMem
  exact (of_mem_zip (mem_of_mem_filter hSettled)).1

/-- What is confirmed is below the end of every row that is refused or comes later. -/
theorem confirmedBy_below {rows later : List (Row M)} (dispositions : Dispositions)
    (hOrdered : (rows ++ later).Pairwise fun row later => row.confirms < later.lsn)
    (hTarget : ∀ row ∈ rows ++ later, target < row.lsn) :
    ∀ row ∈ nackedRows rows dispositions ++ later,
      (confirmedBy target dispositions (rows.map Row.confirms)).1 < row.lsn := by
  induction rows generalizing dispositions target with
  | nil => simpa [nackedRows, confirmedBy] using hTarget
  | cons row rows ih =>
    obtain ⟨hRow, hOrdered⟩ := pairwise_cons.mp hOrdered
    have hNext : ∀ other ∈ rows ++ later, (if 0 < row.confirms then row.confirms else target) <
        other.lsn := by
      intro other hMem
      split
      · exact hRow other hMem
      · exact hTarget other (mem_cons_of_mem _ hMem)
    cases dispositions with
    | nil => exact fun other hMem => hTarget other (mem_append_right _ hMem)
    | cons disposition dispositions =>
      cases disposition with
      | nack =>
        intro other hMem
        exact hTarget other ((mem_append.mp hMem).elim
          (fun hMem => mem_append_left _ (mem_of_mem_nackedRows hMem)) (mem_append_right _))
      | ack | reply => exact ih dispositions hOrdered hNext

theorem confirmedBy_refused (target : Nat)
    (hNacked : nackedRows rows dispositions ≠ []) :
    (confirmedBy target dispositions (rows.map Row.confirms)).2 = true := by
  induction rows generalizing dispositions target with
  | nil => exact absurd rfl hNacked
  | cons row rows ih =>
    cases dispositions with
    | nil => exact absurd rfl hNacked
    | cons disposition dispositions =>
      cases disposition with
      | nack => rfl
      | ack | reply => exact ih _ hNacked

/-! ### The invariant -/

/-- Nothing that is or may become the confirmed position reaches the end of a transaction with an
unacknowledged row. The floor is the greatest position that the server has sent; a frozen position
is the confirmed one since a row was refused. -/
structure Sound (floor : Nat) (frozen : Option Nat) (s : Consumer M) : Prop where
  served : Served floor s.stream
  confirmed_le : s.confirmed ≤ floor
  committing_le : ∀ target ∈ s.committing, target ≤ floor
  confirming_le : ∀ idle ∈ s.confirming, idle.1 ≤ floor
  rows_le : ∀ row ∈ s.outstanding.flatten ++ s.ready, row.confirms ≤ floor
  ordered : (s.outstanding.flatten ++ s.ready).Pairwise fun row later => row.confirms < later.lsn
  confirmed_lt : ∀ row ∈ s.unacknowledged, s.confirmed < row.lsn
  committing_lt : ∀ target ∈ s.committing, ∀ row ∈ s.unacknowledged, target < row.lsn
  closed : Closed s.ready
  handed : ∀ row ∈ s.refused ++ s.outstanding.flatten,
    row.lsn ≤ s.handedOut ∨ ∃ other ∈ s.ready, other.lsn = row.lsn
  latched : s.refused ≠ [] → s.tripped = true
  kept : ∀ lsn ∈ frozen, s.confirmed = lsn ∧ s.committing = none ∧ s.refused ≠ []
  idle : ∀ idle ∈ s.confirming, s.ready = [] ∧ (idle.2 = true → s.unacknowledged = [])

namespace Sound

variable {floor lsn : Nat} {frozen : Option Nat} {s t : Consumer M}

theorem confirmWhenIdle (hSound : Sound floor frozen s) (hLsn : lsn ≤ floor) :
    Sound floor frozen (s.confirmWhenIdle lsn) := by
  rw [Consumer.confirmWhenIdle]
  split
  · next hIdle =>
    refine { hSound with confirming_le := ?_, idle := ?_ }
    · rintro _ ⟨⟩
      exact hLsn
    · rintro _ ⟨⟩
      exact ⟨isEmpty_iff.mp hIdle.2.2.1, nofun⟩
  · exact hSound

variable {rest : List (Arrival M)}

variable (hSound : Sound floor frozen s)

include hSound

/-- The floor moves with the positions of the stream. -/
theorem raise {higher : Nat} (hHigher : floor ≤ higher)
    (hServed : Served higher rest) : Sound higher frozen { s with stream := rest } :=
  { hSound with
    served := hServed
    confirmed_le := hSound.confirmed_le.trans hHigher
    committing_le := fun _ hMem => (hSound.committing_le _ hMem).trans hHigher
    confirming_le := fun _ hMem => (hSound.confirming_le _ hMem).trans hHigher
    rows_le := fun _ hMem => (hSound.rows_le _ hMem).trans hHigher }

/-- A transaction with rows is committed. -/
theorem committed (hIdle : s.confirming = none) (hEnd : floor < endLsn)
    (hServed : Served endLsn rest) (rows : List M) : Sound endLsn frozen { s with
      stream := rest, inTransaction := false, txBuffer := [], ready :=
        s.ready ++ committedRows rows endLsn } := by
  have hRaised := hSound.raise hEnd.le hServed
  have hNew : ∀ row ∈ committedRows rows endLsn, row.lsn = endLsn ∧ row.confirms ≤ endLsn := by
    intro row hMem
    obtain ⟨⟨message, ordinal⟩, -, rfl⟩ := mem_map.mp hMem
    refine ⟨rfl, ?_⟩
    dsimp only [confirmLsn]
    split <;> omega
  refine { hRaised with
    rows_le := ?_, ordered := ?_, confirmed_lt := ?_, committing_lt := ?_, closed := ?_, handed :=
      ?_, idle := ?_ }
  · have := hRaised.rows_le
    grind
  · rw [← append_assoc, pairwise_append]
    refine ⟨hSound.ordered, pairwise_committedRows rows (Nat.zero_lt_of_lt hEnd), ?_⟩
    intro row hRow later hLater
    rw [(hNew later hLater).1]
    exact lt_of_le_of_lt (hSound.rows_le row hRow) hEnd
  · have := hSound.confirmed_lt
    have := hSound.confirmed_le
    grind [Consumer.unacknowledged]
  · have := hSound.committing_lt
    have := hSound.committing_le
    grind [Consumer.unacknowledged]
  · exact hSound.closed.append (closed_committedRows rows endLsn)
  · have := hSound.handed
    grind
  · intro idle hMem
    rw [hIdle] at hMem
    cases hMem

/-- One event of the stream. -/
theorem handleEvent (hIdle : s.confirming = none) {event : ReplicationEvent M}
    (hServed : Served floor (.event event :: rest)) :
    ∃ higher, Sound higher frozen ({ s with stream := rest }.handleEvent event).1 := by
  cases event with
  | begin | xLogData => exact ⟨floor, { hSound.raise le_rfl hServed with }⟩
  | keepAlive walEnd =>
    exact ⟨max floor walEnd,
      (hSound.raise (le_max_left ..) hServed).confirmWhenIdle (le_max_right ..)⟩
  | commit endLsn =>
    obtain ⟨hEnd, hServed⟩ := hServed
    refine ⟨endLsn, ?_⟩
    rw [Consumer.handleEvent]
    split
    · have hClosed : Sound endLsn frozen { s with stream := rest, inTransaction := false } :=
        { hSound.raise hEnd.le hServed with }
      exact hClosed.confirmWhenIdle le_rfl
    · exact hSound.committed hIdle hEnd hServed s.txBuffer
  | message | other => exact ⟨floor, hSound.raise le_rfl hServed⟩

theorem answer (result : Except ConsumerError (List (Row M))) :
    Sound floor frozen (s.answer result) := { hSound with }

section

variable (hIdle : s.confirming = none)

include hIdle

theorem pump {arrival : Arrival M}
    (hServed : Served floor (arrival :: rest)) :
    ∃ higher, Sound higher frozen ({ s with stream := rest }.pump arrival) := by
  cases arrival with
  | ended =>
    have hEnded : Sound floor frozen { s with stream := rest, ended := true } :=
      { hSound.raise le_rfl hServed with }
    exact ⟨floor, hEnded.answer _⟩
  | failed error =>
    have hRead : Sound floor frozen { s with stream := rest } := hSound.raise le_rfl hServed
    exact ⟨floor, hRead.answer _⟩
  | event event =>
    obtain ⟨higher, hHandled⟩ := hSound.handleEvent hIdle hServed
    refine ⟨higher, ?_⟩
    rw [Consumer.pump]
    generalize ({ s with stream := rest } : Consumer M).handleEvent event = handled at hHandled
    obtain ⟨u, _ | cause⟩ := handled
    · exact hHandled
    · exact hHandled.answer _

theorem topUp (call : Call) {arrival : Arrival M}
    (hServed : Served floor (arrival :: rest)) :
    ∃ higher, Sound higher frozen ({ s with stream := rest }.topUp call arrival) := by
  cases arrival with
  | ended | failed => exact ⟨floor, { hSound.raise le_rfl hServed with }⟩
  | event event =>
    have hSpent : Sound floor frozen
        { s with call := some { call with eventBudget := call.eventBudget - 1 } } :=
      { hSound with }
    obtain ⟨higher, hHandled⟩ := hSpent.handleEvent hIdle hServed
    refine ⟨higher, ?_⟩
    rw [Consumer.topUp]
    split
    · next hEvent =>
      rw [hEvent] at hHandled
      exact hHandled
    · next hEvent =>
      rw [hEvent] at hHandled
      exact { hHandled with }

theorem handOut (maxMessages : Nat) :
    Sound floor frozen (s.handOut maxMessages) := by
  obtain ⟨rows, rest, hRows, hRest, hReady⟩ : ∃ rows rest, s.ready.take maxMessages = rows ∧
      s.ready.drop maxMessages = rest ∧ s.ready = rows ++ rest :=
        ⟨_, _, rfl, rfl, (take_append_drop ..).symm⟩
  rw [Consumer.handOut, hRows, hRest]
  have hQueue : (s.outstanding ++ [rows]).flatten ++ rest = s.outstanding.flatten ++ s.ready := by
    rw [hReady]
    simp
  have hClosed : Closed (rows ++ rest) := hReady ▸ hSound.closed
  apply answer
  refine { hSound with
    rows_le := ?_, ordered := ?_, confirmed_lt := ?_, committing_lt := ?_, closed :=
      hClosed.of_append,
    handed := ?_, idle := ?_ }
  · simpa only [hQueue] using hSound.rows_le
  · simpa only [hQueue] using hSound.ordered
  · simpa only [Consumer.unacknowledged, hQueue] using hSound.confirmed_lt
  · simpa only [Consumer.unacknowledged, hQueue] using hSound.committing_lt
  · have hHanded := hSound.handed
    have hFrom := (le_foldl_confirms rows s.handedOut).1
    have hTaken {row : Row M} (hMem : row ∈ rows) := hClosed.handed s.handedOut hMem
    grind
  · intro idle hMem
    rw [hIdle] at hMem
    cases hMem

end

/-- When the confirmed position has reached everything that was handed out, no row is
unacknowledged. -/
theorem unacknowledged_eq_nil (hReady : s.ready = []) (hReached : s.handedOut ≤ s.confirmed) :
    s.unacknowledged = [] := by
  have hHanded := hSound.handed
  have hBelow := hSound.confirmed_lt
  rw [Consumer.unacknowledged, hReady, append_nil] at hBelow ⊢
  refine eq_nil_iff_forall_not_mem.mpr fun row hMem => ?_
  have hLess := hBelow row hMem
  rcases hHanded row hMem with hEnd | ⟨other, hOther, -⟩
  · omega
  · rw [hReady] at hOther
    cases hOther

theorem confirmIdle {idle : Bool} (hIdle : s.confirming = some (lsn, idle)) :
    Sound floor frozen (s.confirmIdle lsn idle) := by
  obtain ⟨hReady, hNone⟩ := hSound.idle _ hIdle
  have hLsn := hSound.confirming_le _ hIdle
  rw [Consumer.confirmIdle]
  split
  · next hSeen =>
    have hEmpty := hNone hSeen
    refine { hSound with
      confirmed_le := max_le hSound.confirmed_le hLsn, confirming_le := nofun, confirmed_lt :=
        ?_, kept := ?_, idle := nofun }
    · intro row hMem
      exact absurd (hEmpty ▸ hMem : row ∈ []) not_mem_nil
    · exact fun lsn hMem => absurd (append_eq_nil_iff.mp hEmpty).1 (hSound.kept lsn hMem).2.2
  · refine { hSound with confirming_le := ?_, idle := ?_ }
    · grind
    · have := hSound.unacknowledged_eq_nil hReady
      grind [Consumer.unacknowledged]

variable {rest : List (List (Row M))}

/-- Settled rows leave the queue; the refused ones stay unacknowledged. -/
theorem settle (hFree : s.committing = none)
    (hHead : s.outstanding = rows :: rest) (dispositions : Dispositions) (tripped : Bool)
    (hTripped : s.refused ++ nackedRows rows dispositions ≠ [] → tripped = true) :
    Sound floor frozen { s with
      outstanding := rest, refused := s.refused ++ nackedRows rows dispositions, tripped :=
        tripped } := by
  have hNacked {row : Row M} (hMem : row ∈ nackedRows rows dispositions) :=
    mem_of_mem_nackedRows hMem
  have hQueue :
      s.outstanding.flatten ++ s.ready = rows ++ (rest.flatten ++ s.ready) := by simp [hHead]
  have hLeft : (s.refused ++ nackedRows rows dispositions) ++
      (rest.flatten ++ s.ready) ⊆ s.unacknowledged := by
    intro row hMem
    rw [Consumer.unacknowledged]
    grind
  refine { hSound with
    rows_le := ?_, ordered := ?_, confirmed_lt :=
      fun row hMem => hSound.confirmed_lt row (hLeft hMem),
    committing_lt := fun target hMem => by simp [hFree] at hMem, handed := ?_, latched := hTripped,
    kept := fun lsn hMem =>
      (hSound.kept lsn hMem).imp_right (.imp_right fun h => append_ne_nil_of_left_ne_nil h _),
    idle := fun idle hMem => (hSound.idle idle hMem).imp_right fun hNone hSeen => ?_ }
  · have hRows := hQueue ▸ hSound.rows_le
    exact (forall_mem_append.mp hRows).2
  · have hOrdered := hQueue ▸ hSound.ordered
    exact (pairwise_append.mp hOrdered).2.1
  · have hHanded := hSound.handed
    grind
  · exact eq_nil_of_subset_nil (hNone hSeen ▸ hLeft)

theorem commit (hFree : s.committing = none) (hHead : s.outstanding = rows :: rest)
    (dispositions : Dispositions) : Sound floor frozen (s.commit 0 rows dispositions) := by
  have hErase : s.outstanding.eraseIdx 0 = rest := by rw [hHead, eraseIdx_cons_zero]
  have hQueue :
      s.outstanding.flatten ++ s.ready = rows ++ (rest.flatten ++ s.ready) := by simp [hHead]
  rw [Consumer.commit, hErase]
  split
  · next hTripped =>
      exact { hSound.settle hFree hHead dispositions s.tripped fun _ => hTripped with }
  · next hOpen =>
    have hNone : s.refused = [] := by
      by_contra hRefused
      exact hOpen (hSound.latched hRefused)
    have hRefused : s.refused ++ nackedRows rows dispositions ≠ [] →
        (confirmedBy 0 dispositions (rows.map Row.confirms)).2 = true := by
      rw [hNone]
      exact confirmedBy_refused 0
    have hPos : ∀ row ∈ rows ++ (rest.flatten ++ s.ready), 0 < row.lsn := by
      intro row hMem
      have hBelow := hSound.confirmed_lt row (mem_append_right _ (hQueue ▸ hMem))
      omega
    have hBelow := confirmedBy_below dispositions (hQueue ▸ hSound.ordered) hPos
    have hLe : (confirmedBy 0 dispositions (rows.map Row.confirms)).1 ≤ floor := by
      refine confirmedBy_le (Nat.zero_le _)
        (forall_mem_map.mpr fun row hMem => hSound.rows_le row ?_)
      rw [hQueue]
      exact mem_append_left _ hMem
    refine { hSound.settle hFree hHead dispositions _ hRefused with
      committing_le := ?_, committing_lt := ?_, kept :=
        fun lsn hMem => absurd hNone (hSound.kept lsn hMem).2.2 }
    · intro target hTarget
      grind
    · intro target hTarget row hMem
      have := hBelow row (by simpa [Consumer.unacknowledged, hNone] using hMem)
      grind

theorem finishCommit (hTarget : s.committing = some target) :
    Sound floor frozen { s with
      confirmed := max s.confirmed target, committing := none, checkpoint :=
        s.checkpoint.map (· ++ [target]) } :=
  { hSound with
    confirmed_le := max_le hSound.confirmed_le (hSound.committing_le _ hTarget)
    committing_le := nofun
    confirmed_lt := fun row hMem =>
      max_lt (hSound.confirmed_lt row hMem) (hSound.committing_lt _ hTarget row hMem)
    committing_lt := nofun
    kept :=
      fun lsn hMem => absurd (hTarget.symm.trans (hSound.kept lsn hMem).2.1) (some_ne_none _) }

theorem recv (hIdle : s.confirming = none) {call : Call} (hRecv : s.recv call = some t) :
    ∃ higher, Sound higher frozen t := by
  rw [Consumer.recv] at hRecv
  have hServed := hSound.served
  split at hRecv
  · split at hRecv
    · cases hRecv
      exact ⟨floor, hSound.answer _⟩
    · split at hRecv
      · cases hRecv
      · next hStream =>
        cases hRecv
        exact hSound.pump hIdle (hStream ▸ hServed)
  · split at hRecv
    · split at hRecv
      · cases hRecv
      · next hStream =>
        cases hRecv
        exact hSound.topUp hIdle call (hStream ▸ hServed)
    · cases hRecv

theorem receiveBatch (maxMessages : Nat) : Sound floor frozen (s.receiveBatch maxMessages) := by
  rw [Consumer.receiveBatch]
  split
  · exact hSound.answer _
  · split
    · exact hSound.answer _
    · split
      · exact { hSound with }
      · exact { hSound with }

theorem step {action : Action} (hOrder : action.InOrder) (hStep : s.step action = some t) :
    ∃ higher, Sound higher frozen t := by
  cases action with
  | receiveBatch maxMessages =>
    obtain ⟨-, ⟨⟩⟩ := ite_none_right_eq_some.mp hStep
    exact ⟨floor, hSound.receiveBatch maxMessages⟩
  | recv =>
    obtain ⟨hIdle, hCall⟩ := ite_none_right_eq_some.mp hStep
    obtain ⟨call, -, hRecv⟩ := bind_eq_some_iff.mp hCall
    exact hSound.recv (isNone_iff_eq_none.mp hIdle) hRecv
  | nackWakes | drainTimeout =>
    obtain ⟨-, ⟨⟩⟩ := ite_none_right_eq_some.mp hStep
    exact ⟨floor, hSound.answer _⟩
  | handOut =>
    obtain ⟨⟨hIdle, -⟩, hCall⟩ := ite_none_right_eq_some.mp hStep
    obtain ⟨call, -, rfl⟩ := map_eq_some_iff.mp hCall
    exact ⟨floor, hSound.handOut (isNone_iff_eq_none.mp hIdle) _⟩
  | confirmIdle =>
    obtain ⟨⟨lsn, idle⟩, hIdle, rfl⟩ := map_eq_some_iff.mp hStep
    exact ⟨floor, hSound.confirmIdle hIdle⟩
  | commit index dispositions =>
    cases (hOrder : index = 0)
    rw [Consumer.step] at hStep
    split at hStep
    · next hFree hHead =>
      obtain ⟨-, ⟨⟩⟩ := ite_none_right_eq_some.mp hStep
      obtain ⟨rest, hHead⟩ := head?_eq_some_iff.mp (head?_eq_getElem? ▸ hHead)
      exact ⟨floor, hSound.commit hFree hHead dispositions⟩
    · cases hStep
  | finishCommit =>
    obtain ⟨target, hTarget, rfl⟩ := map_eq_some_iff.mp hStep
    exact ⟨floor, hSound.finishCommit hTarget⟩

end Sound

variable {stream : List (Arrival M)}

theorem served_commit {endLsn : Nat} (hServed : Served floor stream)
    (hMem : .event (.commit endLsn) ∈ stream) : floor < endLsn := by
  fun_induction Served floor stream with
  | case1 => cases hMem
  | case2 | case3 | case4 => grind

theorem sound_new {start : Option Nat} (hServed : Served (start.getD 0) stream)
    (exitOnEmpty : Bool) (checkpoint : Option (List Nat)) :
    Sound (start.getD 0) none (Consumer.new start stream exitOnEmpty checkpoint) where
  served := hServed
  confirmed_le := le_rfl
  committing_le := nofun
  confirming_le := nofun
  rows_le := nofun
  ordered := .nil
  confirmed_lt := nofun
  committing_lt := nofun
  closed := trivial
  handed := nofun
  latched := fun h => absurd rfl h
  kept := nofun
  idle := nofun

/-- Every state of a run in receive order is sound. -/
theorem sound_run {frozen : Option Nat} {s t : Consumer M} (hSound : ∃ floor, Sound floor frozen s)
    {actions : List Action} (hOrder : ∀ action ∈ actions, action.InOrder)
    (hRun : run Consumer.step s actions = some t) : ∃ floor, Sound floor frozen t := by
  have hStep : ∀ (s : Consumer M) action t, (∃ floor, Sound floor frozen s) → action.InOrder →
      Consumer.step s action = some t → ∃ floor, Sound floor frozen t := by
    intro s action t hSound hFirst hStep
    obtain ⟨_, hSound⟩ := hSound
    exact hSound.step hFirst hStep
  exact invariant_of_guarded hStep hSound (guarded_of_forall hOrder) hRun

/-- While commits run in receive order, the confirmed position is below the end of every transaction
with a row that was received and not acknowledged, and below every commit still to come, so also
below the end of the transaction that is open. After a Nack it stays as it is. -/
theorem Consumer.confirmed_below_unacknowledged {start : Option Nat} {stream : List (Arrival M)}
    (hServed : Served (start.getD 0) stream) (exitOnEmpty : Bool) (checkpoint : Option (List Nat))
    {actions : List Action} (hOrder : ∀ action ∈ actions, action.InOrder) {s : Consumer M}
    (hRun : run step (new start stream exitOnEmpty checkpoint) actions = some s) :
    (∀ row ∈ s.unacknowledged, s.confirmed < row.lsn) ∧
      (∀ endLsn, .event (.commit endLsn) ∈ s.stream → s.confirmed < endLsn) ∧
      ∀ more t, (∀ action ∈ more, action.InOrder) → run step s more = some t →
        s.refused ≠ [] → s.committing = none → t.confirmed = s.confirmed := by
  obtain ⟨floor, hSound⟩ := sound_run ⟨_, sound_new hServed exitOnEmpty checkpoint⟩ hOrder hRun
  refine ⟨hSound.confirmed_lt, fun endLsn hMem => ?_, fun more t hMore hRun hRefused hFree => ?_⟩
  · exact lt_of_le_of_lt hSound.confirmed_le (served_commit hSound.served hMem)
  · have hKept :
        ∀ lsn ∈ some s.confirmed, s.confirmed = lsn ∧ s.committing = none ∧ s.refused ≠ [] :=
      fun lsn hMem => ⟨some.inj hMem, hFree, hRefused⟩
    obtain ⟨_, hLater⟩ := sound_run ⟨floor, { hSound with kept := hKept }⟩ hMore hRun
    exact (hLater.kept _ rfl).1

def halved : List (Arrival Nat) :=
  [.event .begin, .event (.xLogData [1, 2] none), .event (.commit 10), .event (.keepAlive 12)]

def halvedRun : List Action :=
  [.receiveBatch 1, .recv, .recv, .recv, .handOut, .receiveBatch 1, .handOut, .commit 0 [.ack],
    .receiveBatch 1, .recv, .confirmIdle, .commit 0 [.nack]]

theorem Consumer.confirmed_below_unacknowledged_halved :
    ∃ s, run step (new (some 5) halved false none) halvedRun = some s ∧
      s.unacknowledged.map Row.lsn = [10] ∧ s.confirmed = 5 ∧
        ∀ row ∈ s.unacknowledged, s.confirmed < row.lsn :=
  ⟨_, rfl, rfl, rfl,
    (confirmed_below_unacknowledged (by simp [Served, halved] : Served ((some 5).getD 0) halved)
    false none (by simp [halvedRun, Action.InOrder] : ∀ action ∈ halvedRun, action.InOrder) rfl).1⟩

/-- A commit that overtakes one that never runs confirms the rows of both. -/
theorem Consumer.overtaken_confirmed : ∃ s : Consumer Nat, run step
        (new none [.event (.xLogData [1] none), .event (.commit 10), .event (.xLogData [2] none),
          .event (.commit 20)] false none)
        [.receiveBatch 1, .recv, .recv, .handOut, .receiveBatch 1, .recv, .recv, .handOut,
          .commit 1 [.ack], .finishCommit] = some s ∧
      s.unacknowledged.map Row.lsn = [10] ∧ s.confirmed = 20 :=
  ⟨_, rfl, rfl, rfl⟩

end MqBridge.PostgresCdc
