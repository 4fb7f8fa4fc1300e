import MqBridge.Support.Text
import MqBridge.Middleware.RetryOutcome

/-! The dead-letter publisher, and its use around the retry publisher. What
can be sent again stays with the route; what failed for good, or has used up
its retries, is tagged with the reason and sent to the dead-letter queue. -/
namespace MqBridge.DeadLetter

open List
open Retry

def dlqErrorKey : String := "mq_bridge.dlq.error"

def dlqRouteKey : String := "mq_bridge.dlq.route"

def dlqTimestampKey : String := "mq_bridge.dlq.timestamp_ms"

def tagDlqFailureAt (error routeName nowMs : String) (message : CanonicalMessage) :
    CanonicalMessage :=
  { message with
    metadata := ((message.metadata.insert dlqErrorKey error).insert dlqRouteKey routeName).insert
      dlqTimestampKey nowMs }

def isNonRetryable : PublisherError → Bool
  | .nonRetryable _ => true
  | .retryable cause => Text.contains cause "Retries exhausted"
  | .connection _ => false

/-- The error of one message that has used up its retries. Unlike for a whole
batch, the text that is searched has the class in front. -/
def isExhausted (e : PublisherError) : Bool :=
  isRetryable e && Text.contains e.toText "Retries exhausted"

def deadLetters (failed : List Failure) : List Failure :=
  let retryable := failed.filter fun f => f.2.isTransient
  let nonRetryable := failed.filter fun f => !f.2.isTransient
  nonRetryable ++ retryable.filter fun f => isExhausted f.2

def stillRetryable (failed : List Failure) : List Failure :=
  let retryable := failed.filter fun f => f.2.isTransient
  retryable.filter fun f => !isExhausted f.2

/-- Both publishers act on one world, which also has the clock. -/
structure DlqPublisher (ω : Type) where
  inner : Publisher ω
  dlqPublisher : Publisher ω
  routeName : String
  nowMs : ω → String

namespace DlqPublisher

variable {ω : Type}

/-- The match on the answer of the dead-letter publisher. The number beside
the world counts the messages it has accepted. -/
def sendToDlq (self : DlqPublisher ω) (messages : List CanonicalMessage) (accepted : SentBatch)
    (rejected : List Failure → SentBatch) (failed : PublisherError → PublisherError)
    (s : ω × Nat) : SendResult × ω × Nat :=
  let out := self.dlqPublisher messages s.1
  match out.1 with
  | .ok .ack => (.ok accepted, out.2, s.2 + messages.length)
  | .ok (.partly _ dlqFailed) =>
    (.ok (rejected dlqFailed), out.2, s.2 + (messages.length - dlqFailed.length))
  | .error (.connection cause) => (.error (.connection cause), out.2, s.2)
  | .error dlqError => (.error (failed dlqError), out.2, s.2)

def sendBatch (self : DlqPublisher ω) : Publisher (ω × Nat) := fun messages s =>
  let out := self.inner messages s.1
  match out.1 with
  | .ok .ack => (.ok .ack, out.2, s.2)
  | .ok (.partly responses failed) =>
    if failed.isEmpty then (.ok (.partly responses failed), out.2, s.2)
    else
      let finalFailed := stillRetryable failed
      if (deadLetters failed).isEmpty then (.ok (.partly responses finalFailed), out.2, s.2)
      else
        let messagesToDlq := (deadLetters failed).map fun f =>
          tagDlqFailureAt f.2.toText self.routeName (self.nowMs out.2) f.1
        self.sendToDlq messagesToDlq (.partly responses finalFailed)
          (fun dlqFailed => .partly responses (finalFailed ++ dlqFailed))
          (fun dlqError =>
            .retryable ("Primary send had non-retryable errors, but sending to DLQ also failed: " ++
              dlqError.toText))
          (out.2, s.2)
  | .error e =>
    if isNonRetryable e then
      self.sendToDlq (messages.map (tagDlqFailureAt e.toText self.routeName (self.nowMs out.2)))
        .ack (fun dlqFailed => .partly none dlqFailed)
        (fun dlqError => .nonRetryable ("Primary send failed: '" ++ e.toText ++
          "'. DLQ send also failed: " ++ dlqError.toText))
        (out.2, s.2)
    else (.error e, out.2, s.2)

end DlqPublisher

/-- Forget what was written into the metadata on the way to the queue. -/
def strip (message : CanonicalMessage) : CanonicalMessage :=
  { message with
    metadata := ((message.metadata.erase dlqErrorKey).erase dlqRouteKey).erase dlqTimestampKey }

/-- Messages counted up to what retry and dead-letter write into them. -/
def plain (messages : Multiset CanonicalMessage) : Multiset CanonicalMessage :=
  (untagged messages).map strip

@[simp] theorem plain_add (a b : Multiset CanonicalMessage) :
    plain (a + b) = plain a + plain b := by
  rw [plain, untagged_add, Multiset.map_add]
  rfl

theorem strip_untag_tagDlqFailureAt (error routeName nowMs : String) (message : CanonicalMessage) :
    strip (untag (tagDlqFailureAt error routeName nowMs message)) = strip (untag message) := by
  simp only [strip, untag, tagDlqFailureAt, CanonicalMessage.mk.injEq, true_and]
  apply Finmap.ext_lookup
  intro key
  simp only [Metadata.lookup_erase, Metadata.lookup_insert]
  split_ifs <;> rfl

def sentBy (calls : List Call) : Multiset CanonicalMessage :=
  (calls.map fun c => (c.sent : Multiset CanonicalMessage)).sum

/-- The answer gives up a retryable failure only with exhausted retries. -/
def MarkedAnswer : SendResult → Prop
  | .ok sent => ∀ f ∈ sent.failures, Marked f.2
  | .error e => Marked e

theorem isNonRetryable_of_marked {e : PublisherError} (hMarked : Marked e) :
    isNonRetryable e = true ↔ e.errorClass ≠ .connection := by
  cases e with
  | retryable cause =>
    obtain ⟨rest, rfl⟩ := hMarked
    exact iff_of_true (Text.contains_of_eq "" rest (by rw [String.empty_append])) nofun
  | nonRetryable cause => exact iff_of_true rfl nofun
  | connection cause => exact iff_of_false nofun fun hNe => hNe rfl

theorem isExhausted_of_marked {e : PublisherError} (hMarked : Marked e) :
    isExhausted e = isRetryable e := by
  cases e with
  | retryable cause =>
    obtain ⟨rest, rfl⟩ := hMarked
    exact Bool.and_eq_true_iff.mpr
      ⟨rfl, Text.contains_of_eq "retryable error: " rest (by rw [String.append_assoc]; rfl)⟩
  | nonRetryable | connection => rfl

/-- Of marked failures, exactly the connection failures stay with the route. -/
theorem partition_of_marked {failed : List Failure} (hMarked : ∀ f ∈ failed, Marked f.2) :
    (deadLetters failed : Multiset Failure) =
        (failed : Multiset Failure).filter (fun f => f.2.errorClass ≠ .connection) ∧
      (stillRetryable failed : Multiset Failure) =
        (failed : Multiset Failure).filter (fun f => ¬ f.2.errorClass ≠ .connection) := by
  have hFinal : (failed.filter fun f => !f.2.isTransient) =
      failed.filter fun f => f.2.errorClass = .nonRetryable :=
    filter_congr fun f _ => by cases f.2 <;> rfl
  have hExhausted : ((failed.filter fun f => f.2.isTransient).filter fun f => isExhausted f.2) =
      failed.filter fun f => f.2.errorClass = .retryable := by
    rw [filter_filter]
    refine filter_congr fun f hMem => ?_
    rw [isExhausted_of_marked (hMarked f hMem)]
    cases f.2 <;> rfl
  have hStill : ((failed.filter fun f => f.2.isTransient).filter fun f => !isExhausted f.2) =
      failed.filter fun f => ¬ f.2.errorClass ≠ .connection := by
    rw [filter_filter]
    refine filter_congr fun f hMem => ?_
    rw [isExhausted_of_marked (hMarked f hMem)]
    cases f.2 <;> rfl
  simp only [deadLetters, stillRetryable]
  rw [hFinal, hExhausted, hStill, ← Multiset.coe_add, ← Multiset.filter_coe,
    ← Multiset.filter_coe, Multiset.filter_add_filter]
  refine ⟨?_, rfl⟩
  have hBoth : (failed : Multiset Failure).filter
      (fun f => f.2.errorClass = .nonRetryable ∧ f.2.errorClass = .retryable) = 0 :=
    Multiset.filter_eq_nil.mpr fun f _ hBoth => by cases hBoth.1.symm.trans hBoth.2
  rw [hBoth, add_zero]
  refine Multiset.filter_congr fun f _ => ?_
  cases f.2.errorClass <;> simp

section Handled

variable {ω : Type} {inner dlq : Publisher ω} {routeName : String} {nowMs : ω × List Call → String}

abbrev recordedDlq (inner dlq : Publisher ω) (routeName : String) (nowMs : ω × List Call → String) :
    DlqPublisher (ω × List Call) :=
  ⟨inner.beside, dlq.recorded, routeName, nowMs⟩

/-- What the dead-letter queue answers is taken over, and what it accepted is
counted. -/
theorem sendToDlq_spec (hDlq : dlq.FailsWithinBatch) (messages : List CanonicalMessage)
    (accepted : SentBatch) (rejected : List Failure → SentBatch)
    (failed : PublisherError → PublisherError) (w : ω) (count : Nat) :
    let c : Call := ⟨messages, (dlq messages w).1⟩
    let out := (recordedDlq inner dlq routeName nowMs).sendToDlq messages accepted rejected failed
      ((w, []), count)
    out.2.1 = ((dlq messages w).2, [c]) ∧ out.2.2 = count + c.delivered.card ∧
      ∀ sent, out.1 = .ok sent → sent = accepted ∧ c.failures = [] ∨
        sent = rejected c.failures := by
  intro c out
  have hCard : c.delivered.card = messages.length - c.failed.length :=
    Multiset.card_sub (Publisher.recorded_call_failed_le hDlq messages w)
  have hFailed : c.failed.length = c.failures.length := by rw [← c.map_failures, length_map]
  rw [hCard, hFailed]
  simp only [out, c, DlqPublisher.sendToDlq, Publisher.recorded]
  cases hAnswer : (dlq messages w).1 with
  | ok answer =>
    cases answer with
    | ack =>
      refine ⟨rfl, rfl, fun sent hOk => .inl ⟨?_, rfl⟩⟩
      cases hOk
      rfl
    | partly responses dlqFailed =>
      refine ⟨rfl, rfl, fun sent hOk => .inr ?_⟩
      cases hOk
      rfl
  | error e =>
    have hNone : count = count + (messages.length - (messages.map fun m => (m, e)).length) := by
      rw [length_map, Nat.sub_self, add_zero]
    cases e with
    | connection | retryable | nonRetryable => exact ⟨rfl, hNone, fun sent hOk => by cases hOk⟩

/-- The failures an answer reports, dealt with: those of a class other than
connection are sent to the dead-letter queue, the rest is listed. -/
structure Handled (failures : List Failure) (result : SendResult) (calls : List Call)
    (accepted : Nat) : Prop where
  sent : plain (sentBy calls) =
    plain (((failures : Multiset Failure).filter fun f =>
      f.2.errorClass ≠ .connection).map Prod.fst)
  balance : ∀ sent, result = .ok sent →
    plain (failures.map Prod.fst) = plain (deliveredBy calls) + plain sent.failedMessages
  counted : accepted = (deliveredBy calls).card

variable {result : SendResult} {failures : List Failure}

/-- No dead-lettering: the listed failures are all, and of connections. -/
theorem Handled.none (hConnection : ∀ f ∈ failures, f.2.errorClass = .connection)
    (hListed : ∀ sent, result = .ok sent → (sent.failures : Multiset Failure) = failures) :
    Handled failures result [] 0 where
  sent := by
    have hFilter :
        ((failures : Multiset Failure).filter fun f => f.2.errorClass ≠ .connection) = 0 :=
      Multiset.filter_eq_nil.mpr fun f hMem hNe => hNe (hConnection f hMem)
    rw [hFilter]
    rfl
  balance := fun sent hOk => by
    rw [← Multiset.map_coe, ← hListed sent hOk, Multiset.map_coe, sent.map_failures]
    simp [deliveredBy, plain, untagged]
  counted := rfl

/-- One call with the failures that are given up; the others are listed with
those that the queue rejects. -/
theorem Handled.call {given still : List Failure} {c : Call}
    (hSplit : (given : Multiset Failure) + still = failures) (hGiven : (given : Multiset Failure) =
      (failures : Multiset Failure).filter fun f => f.2.errorClass ≠ .connection)
    (hSent : plain c.sent = plain (given.map Prod.fst : List CanonicalMessage))
    (hCall : (c.failed : Multiset CanonicalMessage) ≤ c.sent)
    (hListed : ∀ sent, result = .ok sent → sent.failures = still ++ c.failures) :
    Handled failures result [c] c.delivered.card where
  sent := by
    rw [← hGiven, Multiset.map_coe, ← hSent]
    simp [sentBy]
  balance := fun sent hOk => by
    have hBoth : plain c.sent = plain c.delivered + plain c.failed := by
      rw [← plain_add, Call.delivered, tsub_add_cancel_of_le hCall]
    rw [← Multiset.map_coe, ← hSplit, Multiset.map_add, Multiset.map_coe, plain_add,
      ← hSent, hBoth, ← sent.map_failures, hListed sent hOk, map_append, c.map_failures,
        ← Multiset.coe_add, plain_add]
    simp only [deliveredBy, map_singleton, sum_singleton]
    abel
  counted := by simp [deliveredBy]

/-- The state after the failures of an answer were dealt with: the world is
the one the inner publisher left, or what the queue made of it. -/
structure Dealt (dlq : Publisher ω) (w : ω) (count : Nat) (failures : List Failure)
    (out : SendResult × (ω × List Call) × Nat) : Prop where
  handled : ∃ accepted, out.2.2 = count + accepted ∧ Handled failures out.1 out.2.1.2 accepted
  world : out.2.1.1 = w ∨ ∃ messages, out.2.1.1 = (dlq messages w).2

theorem Dealt.none {w : ω} {count : Nat}
    (hConnection : ∀ f ∈ failures, f.2.errorClass = .connection)
    (hListed : ∀ sent, result = .ok sent → (sent.failures : Multiset Failure) = failures) :
    Dealt dlq w count failures (result, (w, []), count) :=
  ⟨⟨0, rfl, Handled.none hConnection hListed⟩, .inl rfl⟩

theorem Dealt.call (hDlq : dlq.FailsWithinBatch) {w : ω} {count : Nat}
    {given still : List Failure} {messages : List CanonicalMessage} {accepted : SentBatch}
    {rejected : List Failure → SentBatch} {failed : PublisherError → PublisherError}
    (hSplit : (given : Multiset Failure) + still = failures) (hGiven : (given : Multiset Failure) =
      (failures : Multiset Failure).filter fun f => f.2.errorClass ≠ .connection)
    (hSent : plain messages = plain (given.map Prod.fst : List CanonicalMessage))
    (hAccepted : accepted.failures = still)
    (hRejected : ∀ more, (rejected more).failures = still ++ more) :
    Dealt dlq w count failures ((recordedDlq inner dlq routeName nowMs).sendToDlq messages accepted
      rejected failed ((w, []), count)) := by
  obtain ⟨hState, hCount, hListed⟩ := @sendToDlq_spec ω inner dlq routeName nowMs hDlq messages
    accepted rejected failed w count
  refine ⟨⟨_, hCount, ?_⟩, .inr ⟨messages, congrArg Prod.fst hState⟩⟩
  rw [hState]
  refine .call hSplit hGiven hSent (Publisher.recorded_call_failed_le hDlq messages w)
    fun sent hOk => ?_
  rcases hListed sent hOk with ⟨rfl, hNone⟩ | rfl
  · rw [hNone, append_nil, hAccepted]
  · exact hRejected _

/-- `send_batch` around a publisher that marks exhausted retries. -/
theorem sendBatch_dealt (hDlq : dlq.FailsWithinBatch) (messages : List CanonicalMessage) (w : ω)
    (count : Nat) (hMarked : MarkedAnswer (inner messages w).1) :
    Dealt dlq (inner messages w).2 count (Call.mk messages (inner messages w).1).failures
      ((recordedDlq inner dlq routeName nowMs).sendBatch messages ((w, []), count)) := by
  simp only [DlqPublisher.sendBatch, Publisher.beside, Call.failures]
  cases hAnswer : (inner messages w).1 with
  | ok answer =>
    rw [hAnswer] at hMarked
    cases answer with
    | ack =>
      refine .none (fun f hMem => absurd hMem not_mem_nil) fun sent hOk => ?_
      cases hOk
      rfl
    | partly responses failed =>
      have hFailed : ∀ f ∈ failed, Marked f.2 := hMarked
      obtain ⟨hGiven, hStill⟩ := partition_of_marked hFailed
      have hSplit : (deadLetters failed : Multiset Failure) + stillRetryable failed = failed := by
        rw [hGiven, hStill, Multiset.filter_add_not]
      simp only [SentBatch.failures]
      split_ifs with hEmpty hNone
      · rw [List.isEmpty_iff] at hEmpty
        subst hEmpty
        refine .none (fun f hMem => absurd hMem not_mem_nil) fun sent hOk => ?_
        cases hOk
        rfl
      · rw [List.isEmpty_iff] at hNone
        rw [hNone] at hGiven hSplit
        refine .none (fun f hMem => ?_) fun sent hOk => ?_
        · by_contra hNe
          exact Multiset.filter_eq_nil.mp hGiven.symm f hMem hNe
        · cases hOk
          rw [← hSplit]
          rfl
      · refine .call hDlq hSplit hGiven ?_ rfl fun _ => rfl
        simp [plain, untagged, Function.comp_def, strip_untag_tagDlqFailureAt]
  | error e =>
    rw [hAnswer] at hMarked
    simp only
    split_ifs with hPermanent
    · have hClass := (isNonRetryable_of_marked hMarked).mp hPermanent
      have hSplit : ((messages.map fun m => (m, e) : List Failure) : Multiset Failure) +
          ([] : List Failure) = (messages.map fun m => (m, e) : List Failure) := add_zero _
      refine .call hDlq hSplit ?_ ?_ rfl fun _ => rfl
      · refine (Multiset.filter_eq_self.mpr fun f hMem => ?_).symm
        obtain ⟨m, -, rfl⟩ := mem_map.mp hMem
        exact hClass
      · simp [plain, untagged, Function.comp_def, strip_untag_tagDlqFailureAt]
    · have hClass : e.errorClass = .connection :=
        not_not.mp fun hNe => hPermanent ((isNonRetryable_of_marked hMarked).mpr hNe)
      refine .none (fun f hMem => ?_) fun sent hOk => by cases hOk
      obtain ⟨m, -, rfl⟩ := mem_map.mp hMem
      exact hClass

end Handled

section System

variable {σ : Type}

/-- Dead-letter around retry around a sink, with a record of the calls to the
sink and of those to the dead-letter queue. -/
def aroundRetry (config : RetryMiddleware) (sink dlq : Publisher σ) (routeName : String)
    (nowMs : σ → String) : DlqPublisher ((σ × List Call) × List Call) :=
  recordedDlq (Retry.sendBatch config sink.recorded) dlq.beside routeName fun s => nowMs s.1.1

/-- Where the messages of a batch are, after the calls that were made. -/
structure Accounts (config : RetryMiddleware) (batch : List CanonicalMessage) (result : SendResult)
    (sinkCalls dlqCalls : List Call) : Prop where
  resends : Resends batch sinkCalls
  balance : ∀ sent, result = .ok sent → plain batch =
    plain (deliveredBy sinkCalls) + plain (deliveredBy dlqCalls) + plain sent.failedMessages
  deadLettered : plain (sentBy dlqCalls) =
    plain (((lastFailures sinkCalls).filter fun f => f.2.errorClass ≠ .connection).map Prod.fst)
  exhausted : ∀ f ∈ lastFailures sinkCalls, f.2.errorClass = .retryable →
    config.maxAttempts ≤ sinkCalls.length

/-- The messages of failures of some classes depend only on the classes. -/
theorem plain_filter_classes (select : ErrorClass → Prop) [DecidablePred select]
    (failures : Multiset Failure) :
    plain ((failures.filter fun f => select f.2.errorClass).map Prod.fst) =
      (((classes failures).filter fun f => select f.2).map Prod.fst).map strip := by
  rw [plain, untagged, classes, Multiset.filter_map, Multiset.map_map, Multiset.map_map,
    Multiset.map_map, Multiset.map_map]
  rfl

/-- Retry inside dead-letter loses nothing. An answer splits the batch into
what the sink took, what the dead-letter queue took and what is listed as
failed; the queue is sent exactly the messages whose last failure at the sink
was not one of the connection, and such a failure is retryable only after all
attempts. The text of an error decides nothing here that its class does not. -/
theorem sendBatch_loses_nothing (config : RetryMiddleware) (sink dlq : Publisher σ)
    (hSink : sink.FailsWithinBatch) (hDlq : dlq.FailsWithinBatch) (routeName : String)
    (nowMs : σ → String) (batch : List CanonicalMessage) (s : σ) (count : Nat) :
    let out := (aroundRetry config sink dlq routeName nowMs).sendBatch batch (((s, []), []), count)
    Accounts config batch out.1 out.2.1.1.2 out.2.1.2 ∧
      out.2.2 = count + (deliveredBy out.2.1.2).card := by
  intro out
  obtain ⟨c, calls, hCalls, -, hFailed, hAnswered⟩ := @sendBatchLoop_answered σ config sink hSink 0
    (.start batch) (s, [])
  let answer := sendBatch config sink.recorded batch (s, [])
  have hMade : answer.2.2 = c :: calls := hCalls
  -- the answer lists the last failures, with their classes
  have hMarked : MarkedAnswer answer.1 ∧
      classes (Call.mk batch answer.1).failures = classes (lastFailures (c :: calls)) := by
    cases hRes : answer.1 with
    | ok sent =>
      obtain ⟨hClasses, hMarked⟩ := hAnswered.listed sent hRes
      refine ⟨fun f hMem => (hMarked f hMem).resolve_left not_mem_nil, ?_⟩
      rw [Call.failures, hClasses]
      simp [Progress.start, classes]
    | error e =>
      obtain ⟨-, hMarked, hClasses⟩ := hAnswered.whole e hRes
      refine ⟨hMarked, ?_⟩
      rw [Call.failures, classes_map_same, hClasses]
      rfl
  have hBeside : (dlq.beside : Publisher (σ × List Call)).FailsWithinBatch :=
    fun batch s => hDlq batch s.1
  obtain ⟨⟨accepted, hCount, hHandled⟩, hWorld⟩ : Dealt dlq.beside answer.2 count
      (Call.mk batch answer.1).failures out := sendBatch_dealt hBeside batch (s, []) count hMarked.1
  have hSinkCalls : out.2.1.1.2 = c :: calls := by
    rcases hWorld with hSame | ⟨messages, hSent⟩
    · rw [hSame, hMade]
    · rw [hSent]
      exact hMade
  refine ⟨?_, by rw [hCount, hHandled.counted]⟩
  rw [hSinkCalls]
  refine ⟨hAnswered.resends, fun sent hOk => ?_, ?_, fun f hMem hClass => ?_⟩
  · have hLast : plain ((lastFailures (c :: calls)).map Prod.fst) =
        plain ((Call.mk batch answer.1).failures.map Prod.fst : List CanonicalMessage) := by
      rw [plain, ← map_fst_classes, ← hMarked.2, map_fst_classes]
      rfl
    have hBatch := congrArg (Multiset.map strip) (hAnswered.resends.balance hFailed)
    rw [Multiset.map_add] at hBatch
    calc plain batch
        = plain (deliveredBy (c :: calls)) + plain ((lastFailures (c :: calls)).map Prod.fst) :=
          hBatch
      _ = _ := by rw [hLast, hHandled.balance sent hOk, add_assoc]
  · rw [hHandled.sent, plain_filter_classes (· ≠ .connection),
      plain_filter_classes (· ≠ .connection), hMarked.2]
  · have hLast := hAnswered.exhausted f hMem (isRetryable_iff.mpr hClass)
    rwa [zero_add] at hLast

end System

def refusal : Nat → PublisherError
  | 1 => .nonRetryable "bad"
  | 2 => .connection "lost"
  | _ => .retryable "busy"

def refusing : Publisher Nat := fun batch calls =>
  (.ok (.partly none
    ((batch.filter fun m => m.messageId ≤ 3).map fun m => (m, refusal m.messageId))), calls + 1)

def accepting : Publisher Nat := fun _ calls => (.ok .ack, calls)

theorem refusing_failsWithinBatch : refusing.FailsWithinBatch := by
  intro batch calls responses failed hAnswer
  cases hAnswer
  simp only [map_map, Function.comp_def, map_id']
  exact filter_sublist.subperm

theorem accepting_failsWithinBatch : accepting.FailsWithinBatch := by
  intro batch calls responses failed hAnswer
  cases hAnswer

theorem sendBatch_loses_nothing_refusing :
    let batch : List CanonicalMessage := [⟨1, [], ∅⟩, ⟨2, [], ∅⟩, ⟨3, [], ∅⟩, ⟨4, [], ∅⟩]
    let out := (aroundRetry ⟨2⟩ refusing accepting "orders" fun _ => "0").sendBatch batch
      (((0, []), []), 0)
    refusing.FailsWithinBatch ∧ accepting.FailsWithinBatch ∧
      (out.1.toOption.map fun sent => sent.failedMessages.map CanonicalMessage.messageId) =
        some [2] ∧
      out.2.2 = 2 ∧ Accounts ⟨2⟩ batch out.1 out.2.1.1.2 out.2.1.2 := by
  intro batch out
  have hExhausted : isExhausted (exhaustedFailure (⟨3, [], ∅⟩, .retryable "busy")).2 = true :=
    isExhausted_of_marked (marked_exhaustedFailure _)
  have hLost : isExhausted (.connection "lost") = false := rfl
  have hEnd : (out.1.toOption.map fun sent => sent.failedMessages.map CanonicalMessage.messageId,
      out.2.2) = (some [2], 2) := by
    simp only [exhaustedFailure] at hExhausted
    simp [out, batch, aroundRetry, DlqPublisher.sendBatch, DlqPublisher.sendToDlq, Retry.sendBatch,
      sendBatchLoop, afterAnswer, Progress.start, Progress.keep, Progress.collected, tagAttempt,
      Publisher.recorded, Publisher.beside, refusing, refusal, accepting, isRetryable,
      exhaustedFailure, deadLetters, stillRetryable, PublisherError.isTransient,
      SentBatch.failedMessages, Except.toOption, hExhausted, hLost]
  obtain ⟨hListed, hCount⟩ := Prod.mk.inj hEnd
  exact ⟨refusing_failsWithinBatch, accepting_failsWithinBatch, hListed, hCount,
    (sendBatch_loses_nothing ⟨2⟩ refusing accepting refusing_failsWithinBatch
      accepting_failsWithinBatch "orders" (fun _ => "0") batch 0 0).1⟩

end MqBridge.DeadLetter
