import MqBridge.Publisher

/-! The retry publisher. Each attempt sends what is left of the batch, keeps
the failures that another attempt cannot help, and goes on with the rest.
The pause between two attempts changes no message and is left out. -/
namespace MqBridge.Retry

open List Function

def retryAttemptKey : String := "mq_bridge.retry.attempt"

structure RetryMiddleware where
  maxAttempts : Nat

def tagAttempt (attempt : Nat) (message : CanonicalMessage) : CanonicalMessage :=
  { message with
    metadata :=
      if 1 < attempt then message.metadata.insert retryAttemptKey (toString attempt)
      else message.metadata.erase retryAttemptKey }

def isRetryable : PublisherError → Bool
  | .retryable _ => true
  | .nonRetryable _ | .connection _ => false

/-- The local variables of `send_batch` that survive an attempt. -/
structure Progress where
  currentMessages : List CanonicalMessage
  allResponses : List CanonicalMessage
  allFailed : List Failure
  partialProgress : Bool

namespace Progress

def start (messages : List CanonicalMessage) : Progress := ⟨messages, [], [], false⟩

def collected (p : Progress) : SentBatch :=
  .partly (if p.allResponses.isEmpty then none else some p.allResponses) p.allFailed

/-- What stays behind when an attempt hands the batch over. The final attempt
moves it instead of copying it, unless a failure of that attempt still has to
name the remaining messages. -/
def keep (config : RetryMiddleware) (attempt : Nat) (p : Progress) : Progress :=
  if decide (config.maxAttempts ≤ attempt) && !p.partialProgress then
    { p with currentMessages := [] }
  else p

theorem keep_allFailed (config : RetryMiddleware) (attempt : Nat) (p : Progress) :
    (p.keep config attempt).allFailed = p.allFailed := by
  unfold keep
  split_ifs <;> rfl

theorem keep_of_partialProgress {config : RetryMiddleware} {attempt : Nat} {p : Progress}
    (h : (p.keep config attempt).partialProgress = true) : p.keep config attempt = p := by
  unfold keep at h ⊢
  split_ifs at h ⊢ with hLast
  · rw [Bool.and_eq_true, Bool.not_eq_true'] at hLast
    simp [hLast.2] at h
  · rfl

theorem keep_of_more {config : RetryMiddleware} {attempt : Nat} (p : Progress)
    (more : attempt < config.maxAttempts) : p.keep config attempt = p := by
  have hLast : ¬config.maxAttempts ≤ attempt := by omega
  simp [keep, hLast]

end Progress

/-- An attempt ends the call or leaves a remainder for a further attempt,
which exists only below the configured number. -/
inductive Outcome (config : RetryMiddleware) (attempt : Nat) where
  | done (result : SendResult)
  | again (more : attempt < config.maxAttempts) (progress : Progress)

def remainderError (config : RetryMiddleware) : PublisherError → PublisherError
  | .nonRetryable cause => .nonRetryable (PublisherError.nonRetryable cause).toText
  | .connection cause => .connection (PublisherError.connection cause).toText
  | .retryable cause =>
    .retryable ("Retries exhausted after " ++ toString config.maxAttempts ++ " attempts: " ++
      (PublisherError.retryable cause).toText)

def exhaustedFailure (failure : Failure) : Failure :=
  (failure.1, .retryable ("Retries exhausted: " ++ failure.2.toText))

def afterAnswer (config : RetryMiddleware) (attempt : Nat) (p : Progress) :
    SendResult → Outcome config attempt
  | .ok .ack =>
    .done (.ok (if p.allResponses.isEmpty && p.allFailed.isEmpty then .ack else p.collected))
  | .ok (.partly responses failed) =>
    let retryable := failed.filter fun f => isRetryable f.2
    let nonRetryable := failed.filter fun f => !isRetryable f.2
    let p := { p with
      allResponses := p.allResponses ++ responses.getD []
      allFailed := p.allFailed ++ nonRetryable }
    if retryable.isEmpty then .done (.ok p.collected)
    else if more : attempt < config.maxAttempts then
      .again more { p with
        currentMessages := retryable.map Prod.fst
        partialProgress := true }
    else
      .done (.ok { p with
        allFailed := p.allFailed ++ retryable.map exhaustedFailure }.collected)
  | .error e =>
    if p.partialProgress && (decide (config.maxAttempts ≤ attempt) || !isRetryable e) then
      .done (.ok { p with
        allFailed :=
          p.allFailed ++ p.currentMessages.map fun m => (m, remainderError config e) }.collected)
    else if !isRetryable e then .done (.error e)
    else if more : attempt < config.maxAttempts then .again more p
    else .done (.error (remainderError config e))

def sendBatchLoop {σ : Type} (config : RetryMiddleware) (inner : Publisher σ) (attempts : Nat)
    (p : Progress) (s : σ) : SendResult × σ :=
  let attempt := attempts + 1
  let out := inner (p.currentMessages.map (tagAttempt attempt)) s
  match afterAnswer config attempt (p.keep config attempt) out.1 with
  | .done result => (result, out.2)
  | .again _more rest => sendBatchLoop config inner attempt rest out.2
termination_by config.maxAttempts - attempts

def sendBatch {σ : Type} (config : RetryMiddleware) (inner : Publisher σ) : Publisher σ :=
  fun messages s => sendBatchLoop config inner 0 (.start messages) s

def untag (message : CanonicalMessage) : CanonicalMessage :=
  { message with metadata := message.metadata.erase retryAttemptKey }

/-- Messages counted up to their attempt number. -/
def untagged (messages : Multiset CanonicalMessage) : Multiset CanonicalMessage :=
  messages.map untag

/-- What a call settled for good: delivered, or failed for a reason that
another attempt cannot help. -/
def settled (c : Call) : Multiset CanonicalMessage :=
  c.delivered + c.failedWith fun e => !isRetryable e

theorem untag_tagAttempt (attempt : Nat) (message : CanonicalMessage) :
    untag (tagAttempt attempt message) = untag message := by
  simp only [untag, tagAttempt, CanonicalMessage.mk.injEq, true_and]
  apply Finmap.ext_lookup
  intro key
  split_ifs <;> simp only [Metadata.lookup_erase, Metadata.lookup_insert] <;> split_ifs <;> rfl

@[simp] theorem untagged_add (a b : Multiset CanonicalMessage) :
    untagged (a + b) = untagged a + untagged b :=
  Multiset.map_add untag a b

variable {c : Call}

/-- A call splits what it was sent into what it settled and what it reported
as worth another attempt. -/
theorem settled_add_retryable (hCall : (c.failed : Multiset CanonicalMessage) ≤ c.sent) :
    settled c + (c.failedWith isRetryable : Multiset CanonicalMessage) = c.sent := by
  have hSplit := c.failedWith_add_not isRetryable
  rw [settled, add_assoc, add_comm (c.failedWith _ : Multiset CanonicalMessage), hSplit]
  exact tsub_add_cancel_of_le hCall

def deliveredBy (calls : List Call) : Multiset CanonicalMessage :=
  (calls.map Call.delivered).sum

/-- No copy that the earlier call settled is among those sent by the later. -/
def SendsOnlyTheRest (earlier later : Call) : Prop :=
  untagged (settled earlier) + untagged later.sent ≤ untagged earlier.sent

end MqBridge.Retry
