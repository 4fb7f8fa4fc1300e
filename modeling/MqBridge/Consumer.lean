import MqBridge.Message
import MqBridge.Machine.Run

/-! What a consumer answers: batches with a commit, or errors. -/
namespace MqBridge

/-- What a batch commit is called with, one for each message of the batch. -/
abbrev Dispositions := List MessageDisposition

abbrev CommitResult := Except String Unit

inductive ConsumerError where
  /-- A transport-level error that should trigger a reconnect. -/
  | connection (cause : String)
  /-- The requested events were already garbage-collected. -/
  | gap (requested base : Nat)
  | endOfStream
  /-- The message cannot be processed and must not be read again. -/
  | permanent (cause : String)
  deriving DecidableEq

def anyNack (dispositions : Dispositions) : Bool :=
  dispositions.any fun d => decide (d = .nack)

inductive InputErrorPolicy where
  | fail
  | drop
  deriving DecidableEq

/-- A call of the commit of an inner batch. The batches that hold messages
are numbered in the order they are received; `emptied` marks a call that the
middleware makes itself, for a batch of which it hands out no message. -/
structure CommitCall where
  batch : Nat
  emptied : Bool
  dispositions : Dispositions
  deriving DecidableEq

namespace CommitCall

def allAck (call : CommitCall) : Bool :=
  call.dispositions.all fun d => decide (d = .ack)

def Ran (log : List CommitCall) (batch : Nat) : Prop := ∃ call ∈ log, call.batch = batch

/-- A batch of which no message is handed out is acknowledged only after the
commits of all batches received before it were called. -/
def AcksWait (log : List CommitCall) : Prop :=
  History.EachAfter
    (fun pre call => call.emptied = true → call.allAck = true → ∀ j < call.batch, Ran pre j) log

theorem Ran.mono {log more : List CommitCall} {batch : Nat} (h : Ran log batch)
    (hMore : log ⊆ more) : Ran more batch := by
  obtain ⟨call, hMem, hBatch⟩ := h
  exact ⟨call, hMore hMem, hBatch⟩

theorem ran_snoc_self (log : List CommitCall) (call : CommitCall) :
    Ran (log ++ [call]) call.batch :=
  ⟨call, List.mem_append_right _ (List.mem_singleton_self call), rfl⟩

/-- The calls of handed-out commits are free. -/
theorem AcksWait.snoc_handedOut {log : List CommitCall} (h : AcksWait log) {call : CommitCall}
    (hCall : call.emptied = false) : AcksWait (log ++ [call]) := by
  refine .snoc h fun hEmptied => ?_
  rw [hCall] at hEmptied
  cases hEmptied

end CommitCall

end MqBridge
