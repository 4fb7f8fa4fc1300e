import Mathlib.Tactic.Abel
import Mathlib.Tactic.GCongr
import MqBridge.Middleware.Retry

/-! What the answer of the retry publisher says about the calls it made: the
class of each reported failure is that of the last call that had the message,
a message is given up as retryable only after the last attempt, and no copy is
lost or settled twice. -/
namespace MqBridge.Retry

open List Function

/-- A retryable error says that the retries are exhausted. -/
def Marked : PublisherError → Prop
  | .retryable cause => ∃ rest, cause = "Retries exhausted" ++ rest
  | .nonRetryable _ | .connection _ => True

/-- The last failure of each copy: one that another attempt cannot help is
final in the call that reports it, any other only in the last call. -/
def lastFailures : List Call → Multiset Failure
  | [] => 0
  | [c] => (c.failures : Multiset Failure)
  | c :: d :: rest =>
    ((c.failures.filter fun f => !isRetryable f.2 : List Failure) : Multiset Failure) +
      lastFailures (d :: rest)

/-- The first call sends the batch, and every other one exactly what the call
before it reported as worth another attempt. -/
def Resends : List CanonicalMessage → List Call → Prop
  | _, [] => True
  | batch, c :: rest => untagged c.sent = untagged batch ∧ Resends (c.failedWith isRetryable) rest

/-- Failures up to the attempt number and the text of the cause. -/
def classes (failures : Multiset Failure) : Multiset (CanonicalMessage × ErrorClass) :=
  failures.map fun f => (untag f.1, f.2.errorClass)

@[simp] theorem classes_add (a b : Multiset Failure) : classes (a + b) = classes a + classes b :=
  Multiset.map_add _ a b

theorem classes_map_same (messages : List CanonicalMessage) (e : PublisherError) :
    classes (messages.map fun m => (m, e) : List Failure) =
      (untagged messages).map fun m => (m, e.errorClass) := by
  simp [classes, untagged, comp_def]

theorem map_fst_classes (failures : Multiset Failure) :
    (classes failures).map Prod.fst = untagged (failures.map Prod.fst) := by
  simp [classes, untagged]

variable {e : PublisherError}

theorem isRetryable_iff : isRetryable e = true ↔ e.errorClass = .retryable := by
  cases e <;> simp [isRetryable, PublisherError.errorClass]

theorem remainderError_errorClass (config : RetryMiddleware) (e : PublisherError) :
    (remainderError config e).errorClass = e.errorClass := by
  cases e <;> rfl

theorem marked_remainderError (config : RetryMiddleware) (e : PublisherError) :
    Marked (remainderError config e) := by
  cases e with
  | retryable cause =>
    refine ⟨" after " ++ toString config.maxAttempts ++ " attempts: " ++
      (PublisherError.retryable cause).toText, ?_⟩
    rfl
  | nonRetryable | connection => trivial

theorem marked_exhaustedFailure (failure : Failure) : Marked (exhaustedFailure failure).2 :=
  ⟨": " ++ failure.2.toText, by rw [← String.append_assoc]; rfl⟩

variable {calls : List Call}

theorem Resends.congr {first second : List CanonicalMessage}
    (h : Resends first calls) (hSame : untagged first = untagged second) :
    Resends second calls := by
  cases calls with
  | nil => trivial
  | cons c rest => exact ⟨h.1.trans hSame, h.2⟩

/-- What one call was sent is delivered, failed for good, or worth another
attempt. -/
theorem untagged_sent {c : Call} (hCall : (c.failed : Multiset CanonicalMessage) ≤ c.sent) :
    untagged c.sent = untagged c.delivered + untagged c.failed := by
  rw [← untagged_add, Call.delivered, tsub_add_cancel_of_le hCall]

variable {batch : List CanonicalMessage}

/-- Every copy of the batch is delivered by one call or has a last failure. -/
theorem Resends.balance {c : Call} (h : Resends batch (c :: calls))
    (hCalls : ∀ d ∈ c :: calls, (d.failed : Multiset CanonicalMessage) ≤ d.sent) :
    untagged batch = untagged (deliveredBy (c :: calls)) +
      untagged ((lastFailures (c :: calls)).map Prod.fst) := by
  have hSent := untagged_sent (hCalls c (mem_cons_self ..))
  induction calls generalizing batch c with
  | nil =>
    rw [← h.1, hSent]
    simp [deliveredBy, lastFailures, c.map_failures]
  | cons d rest ih =>
    have hRest := ih h.2 (fun other hMem => hCalls other (mem_cons_of_mem _ hMem))
      (untagged_sent (hCalls d (mem_cons_of_mem _ (mem_cons_self ..))))
    have hSplit := congrArg untagged (c.failedWith_add_not isRetryable)
    rw [untagged_add] at hSplit
    rw [← h.1, hSent, ← hSplit, hRest, lastFailures, Multiset.map_add, Multiset.map_coe,
      c.map_filter_failures fun e => !isRetryable e]
    simp only [deliveredBy, map_cons, sum_cons, untagged_add]
    abel

/-- What a call settled is not sent again, since each call sends a part of the rest of the one
before. -/
theorem Resends.sendsOnlyTheRest (h : Resends batch calls)
    (hCalls : ∀ c ∈ calls, (c.failed : Multiset CanonicalMessage) ≤ c.sent) :
    calls.Pairwise SendsOnlyTheRest ∧ ∀ c ∈ calls, untagged c.sent ≤ untagged batch := by
  induction calls generalizing batch with
  | nil => exact ⟨.nil, nofun⟩
  | cons c rest ih =>
    obtain ⟨hCall, hCalls⟩ := forall_mem_cons.mp hCalls
    obtain ⟨hOrdered, hPart⟩ := ih h.2 hCalls
    have hSplit := congrArg untagged (settled_add_retryable hCall)
    rw [untagged_add] at hSplit
    refine ⟨pairwise_cons.mpr ⟨fun d hMem => ?_, hOrdered⟩,
      forall_mem_cons.mpr ⟨h.1.le, fun d hMem => ?_⟩⟩
    · rw [SendsOnlyTheRest, ← hSplit]
      gcongr
      exact hPart d hMem
    · rw [← h.1, ← hSplit]
      exact (hPart d hMem).trans (Multiset.le_add_left _ _)

section Attempt

variable {config : RetryMiddleware} {attempt : Nat} {p : Progress} {c : Call}

theorem marked_of_not_retryable (hClass : isRetryable e = false) : Marked e := by
  cases e with
  | retryable cause => cases hClass
  | nonRetryable | connection => trivial

theorem classes_filter_add_not (failures : List Failure) (select : PublisherError → Bool) :
    classes (failures.filter fun f => select f.2 : List Failure) +
      classes (failures.filter fun f => !select f.2 : List Failure) = classes failures := by
  rw [← classes_add]
  exact congrArg classes
    (Multiset.coe_eq_coe.mpr (filter_append_perm (fun f : Failure => select f.2) _))

theorem classes_exhausted (failures : List Failure) (hAll : ∀ f ∈ failures, isRetryable f.2) :
    classes (failures.map exhaustedFailure : List Failure) = classes failures := by
  simp only [classes, Multiset.map_coe, map_map]
  refine congrArg _ (map_congr_left fun f hMem => ?_)
  rw [isRetryable_iff.mp (hAll f hMem)]
  rfl

/-- An attempt that ends with an answer adds the failures of its call, with
their classes; the retryable ones are marked and this was the last attempt. -/
theorem afterAnswer_answered {sent : SentBatch}
    (hKept : p.partialProgress = true → untagged p.currentMessages = untagged c.sent)
    (hDone : afterAnswer config attempt p c.answer = .done (.ok sent)) :
    classes sent.failures = classes p.allFailed + classes c.failures ∧
      (∀ f ∈ c.failures, isRetryable f.2 → config.maxAttempts ≤ attempt) ∧
      ∀ f ∈ sent.failures, f ∈ p.allFailed ∨ Marked f.2 := by
  obtain ⟨outgoing, answer⟩ := c
  cases answer with
  | error e =>
    simp only [afterAnswer] at hDone
    split_ifs at hDone with hPartial hRetry hMore
    · obtain ⟨hProgress, hEnd⟩ := Bool.and_eq_true_iff.mp hPartial
      cases hDone
      simp only [Progress.collected, SentBatch.failures, Call.failures]
      refine ⟨?_, fun f hMem hRetryable => ?_, fun f hMem => ?_⟩
      · rw [← Multiset.coe_add, classes_add, classes_map_same, classes_map_same,
          remainderError_errorClass, hKept hProgress]
      · obtain ⟨m, -, rfl⟩ := mem_map.mp hMem
        simpa [show isRetryable e = true from hRetryable] using hEnd
      · rcases mem_append.mp hMem with hOld | hNew
        · exact .inl hOld
        · obtain ⟨m, -, rfl⟩ := mem_map.mp hNew
          exact .inr (marked_remainderError config e)
    all_goals cases hDone
  | ok batch =>
    cases batch with
    | ack =>
      have hSent : sent.failures = p.allFailed := by
        simp only [afterAnswer, Outcome.done.injEq, Except.ok.injEq] at hDone
        split_ifs at hDone with hEmpty
        · rw [Bool.and_eq_true, List.isEmpty_iff, List.isEmpty_iff] at hEmpty
          rw [← hDone, hEmpty.2, SentBatch.failures]
        · rw [← hDone, Progress.collected, SentBatch.failures]
      rw [hSent]
      refine ⟨?_, fun f hMem => absurd hMem not_mem_nil, fun f => .inl⟩
      simp [Call.failures, SentBatch.failures, classes]
    | partly responses failed =>
      have hRetryable : ∀ f ∈ failed.filter fun f => isRetryable f.2, isRetryable f.2 :=
        fun f hMem => (mem_filter.mp hMem).2
      have hFinal : ∀ f ∈ failed.filter fun f => !isRetryable f.2, Marked f.2 := fun f hMem =>
        marked_of_not_retryable (by simpa using (mem_filter.mp hMem).2)
      simp only [afterAnswer] at hDone
      simp only [Call.failures, SentBatch.failures]
      rw [← classes_filter_add_not failed isRetryable]
      split_ifs at hDone with hNone hMore
      · cases hDone
        rw [List.isEmpty_iff] at hNone
        simp only [Progress.collected, hNone]
        refine ⟨?_, fun f hMem hClass => ?_, fun f hMem => ?_⟩
        · simp [classes]
        · have hIn : f ∈ failed.filter fun f => isRetryable f.2 := mem_filter.mpr ⟨hMem, hClass⟩
          rw [hNone] at hIn
          exact absurd hIn not_mem_nil
        · exact (mem_append.mp hMem).imp_right (hFinal f)
      · cases hDone
        simp only [Progress.collected]
        refine ⟨?_, fun f _ _ => Nat.le_of_not_lt hMore, fun f hMem => ?_⟩
        · rw [← Multiset.coe_add, ← Multiset.coe_add, classes_add, classes_add,
            classes_exhausted _ hRetryable]
          abel
        · rcases mem_append.mp hMem with hOld | hNew
          · exact (mem_append.mp hOld).imp_right (hFinal f)
          · obtain ⟨g, -, rfl⟩ := mem_map.mp hNew
            exact .inr (marked_exhaustedFailure g)

/-- A whole-call error is that of the last call, and only if no call before it
delivered anything. -/
theorem afterAnswer_failed (hDone : afterAnswer config attempt p c.answer = .done (.error e)) :
    p.partialProgress = false ∧ Marked e ∧
      ∃ cause, c.answer = .error cause ∧ e.errorClass = cause.errorClass ∧
        (isRetryable cause → config.maxAttempts ≤ attempt) := by
  obtain ⟨outgoing, answer⟩ := c
  cases answer with
  | ok batch =>
    cases batch with
    | ack => cases hDone
    | partly responses failed =>
      simp only [afterAnswer] at hDone
      split_ifs at hDone
      all_goals cases hDone
  | error cause =>
    simp only [afterAnswer] at hDone
    split_ifs at hDone with hPartial hFinal hMore
    all_goals cases hDone
    · simp only [Bool.and_eq_true, Bool.or_eq_true, not_and, not_or] at hPartial
      refine ⟨?_, marked_of_not_retryable (by simpa using hFinal), _, rfl, rfl, fun hClass => ?_⟩
      · exact Bool.eq_false_iff.mpr fun hProgress => (hPartial hProgress).2 hFinal
      · simp [hClass] at hFinal
    · simp only [Bool.and_eq_true, Bool.or_eq_true, not_and, not_or, decide_eq_true_eq] at hPartial
      refine ⟨?_, marked_remainderError config cause, cause, rfl,
        remainderError_errorClass config cause, fun _ => Nat.le_of_not_lt hMore⟩
      exact Bool.eq_false_iff.mpr fun hProgress => (hPartial hProgress).1 (Nat.le_of_not_lt hMore)

/-- An attempt that goes on keeps exactly the messages worth another attempt. It has
collected the failures that are final, and none without partial progress. -/
theorem afterAnswer_resends {rest : Progress} {more : attempt < config.maxAttempts}
    (hKept : untagged p.currentMessages = untagged c.sent)
    (hAgain : afterAnswer config attempt p c.answer = .again more rest) :
    untagged rest.currentMessages = untagged (c.failedWith isRetryable) ∧
      classes rest.allFailed = classes p.allFailed +
        classes (c.failures.filter fun f => !isRetryable f.2 : List Failure) ∧
      (∀ f ∈ rest.allFailed, f ∈ p.allFailed ∨ Marked f.2) ∧
      (rest.partialProgress = false → rest = p ∧ (c.failures.filter fun f => !isRetryable f.2) =
        []) := by
  obtain ⟨outgoing, answer⟩ := c
  cases answer with
  | error e =>
    simp only [afterAnswer] at hAgain
    split_ifs at hAgain with hPartial hFinal
    cases hAgain
    have hNone :
        ((Call.mk outgoing (.error e)).failures.filter fun f => !isRetryable f.2) = [] := by
      refine filter_eq_nil_iff.mpr fun f hMem => ?_
      obtain ⟨m, -, rfl⟩ := mem_map.mp hMem
      exact hFinal
    refine ⟨?_, ?_, fun f => .inl, fun _ => ⟨rfl, hNone⟩⟩
    · simp only [Bool.not_eq_true'] at hFinal
      simpa [Call.failedWith, hFinal] using hKept
    · rw [hNone]
      simp [classes]
  | ok batch =>
    cases batch with
    | ack => cases hAgain
    | partly responses failed =>
      simp only [afterAnswer] at hAgain
      split_ifs at hAgain
      cases hAgain
      simp only [Call.failures, SentBatch.failures]
      refine ⟨?_, by rw [← Multiset.coe_add, classes_add], fun f hMem => ?_, fun hProgress => ?_⟩
      · simp [Call.failedWith]
      · refine (mem_append.mp hMem).imp_right fun hNew => ?_
        exact marked_of_not_retryable (by simpa using (mem_filter.mp hNew).2)
      · cases hProgress

end Attempt

structure Answered (config : RetryMiddleware) (p : Progress) (attempts : Nat) (calls : List Call)
    (result : SendResult) : Prop where
  resends : Resends p.currentMessages calls
  listed : ∀ sent, result = .ok sent →
    classes sent.failures = classes p.allFailed + classes (lastFailures calls) ∧
      ∀ f ∈ sent.failures, f ∈ p.allFailed ∨ Marked f.2
  whole : ∀ e, result = .error e → p.partialProgress = false ∧ Marked e ∧
    classes (lastFailures calls) = (untagged p.currentMessages).map fun m => (m, e.errorClass)
  exhausted : ∀ f ∈ lastFailures calls, isRetryable f.2 →
    config.maxAttempts ≤ attempts + calls.length

section Loop

variable {config : RetryMiddleware} {p : Progress} {attempts : Nat} {c : Call} {result : SendResult}

variable (hSent : untagged c.sent = untagged p.currentMessages)

include hSent

/-- The attempt that ends the loop. -/
theorem Answered.last
    (hDone : afterAnswer config (attempts + 1) (p.keep config (attempts + 1)) c.answer =
      .done result) : Answered config p attempts [c] result := by
  cases result with
  | ok sent =>
    obtain ⟨hClasses, hLast, hMarked⟩ := afterAnswer_answered
      (fun h => by rw [Progress.keep_of_partialProgress h, hSent]) hDone
    rw [Progress.keep_allFailed] at hClasses hMarked
    refine ⟨⟨hSent, trivial⟩, fun other hOk => ?_, fun e hError => ?_, hLast⟩
    · cases hOk
      exact ⟨hClasses, hMarked⟩
    · cases hError
  | error e =>
    obtain ⟨hProgress, hMarked, cause, hAnswer, hClass, hLast⟩ := afterAnswer_failed hDone
    have hFailures : c.failures = c.sent.map fun m => (m, cause) := by rw [Call.failures, hAnswer]
    refine ⟨⟨hSent, trivial⟩, fun other hOk => ?_, fun other hError => ?_, fun f hMem hRetryable =>
      ?_⟩
    · cases hOk
    · cases hError
      refine ⟨?_, hMarked, ?_⟩
      · rw [Progress.keep] at hProgress
        split_ifs at hProgress <;> exact hProgress
      · rw [lastFailures, hFailures, classes_map_same, hSent, hClass]
    · rw [lastFailures, hFailures] at hMem
      obtain ⟨m, -, rfl⟩ := mem_map.mp hMem
      exact hLast hRetryable

/-- An attempt in front of a loop that answers. -/
theorem Answered.again {rest : Progress} {more : attempts + 1 < config.maxAttempts} {d : Call}
    (hAgain : afterAnswer config (attempts + 1) p c.answer = .again more rest)
    (h : Answered config rest (attempts + 1) (d :: calls) result) :
    Answered config p attempts (c :: d :: calls) result := by
  obtain ⟨hRest, hFailed, hMarked, hWhole⟩ := afterAnswer_resends hSent.symm hAgain
  refine ⟨⟨hSent, h.resends.congr hRest⟩, fun sent hOk => ?_,
    fun e hError => ?_, fun f hMem hRetryable => ?_⟩
  · obtain ⟨hClasses, hRest⟩ := h.listed sent hOk
    refine ⟨?_, fun f hMem => ?_⟩
    · rw [hClasses, hFailed, lastFailures, classes_add, add_assoc]
    · exact (hRest f hMem).elim (hMarked f) .inr
  · obtain ⟨hProgress, hMark, hClasses⟩ := h.whole e hError
    obtain ⟨rfl, hNone⟩ := hWhole hProgress
    refine ⟨hProgress, hMark, ?_⟩
    rw [lastFailures, hNone, Multiset.coe_nil, zero_add, hClasses]
  · rw [lastFailures, Multiset.mem_add] at hMem
    rcases hMem with hFinal | hLater
    · have hNot := (mem_filter.mp (Multiset.mem_coe.mp hFinal)).2
      rw [hRetryable] at hNot
      cases hNot
    · have hLast := h.exhausted f hLater hRetryable
      simp only [length_cons] at hLast ⊢
      omega

end Loop

/-- The calls of a whole loop, added to those made before. -/
theorem sendBatchLoop_answered {σ : Type} {config : RetryMiddleware} {inner : Publisher σ}
    (hInner : inner.FailsWithinBatch) {attempts : Nat} {p : Progress} {s : σ × List Call} :
    ∃ c calls, (sendBatchLoop config inner.recorded attempts p s).2.2 = s.2 ++ c :: calls ∧
      (c :: calls).length ≤ max 1 (config.maxAttempts - attempts) ∧
      (∀ d ∈ c :: calls, (d.failed : Multiset CanonicalMessage) ≤ d.sent) ∧
      Answered config p attempts (c :: calls)
        (sendBatchLoop config inner.recorded attempts p s).1 := by
  induction hLeft : config.maxAttempts - attempts using Nat.strong_induction_on
    generalizing attempts p s with
  | _ left ih =>
    let outgoing := p.currentMessages.map (tagAttempt (attempts + 1))
    let c : Call := ⟨outgoing, (inner outgoing s.1).1⟩
    have hSent : untagged c.sent = untagged p.currentMessages := by
      simp [c, outgoing, untagged, Function.comp_def, untag_tagAttempt]
    have hCall : (c.failed : Multiset CanonicalMessage) ≤ c.sent :=
      Publisher.recorded_call_failed_le hInner outgoing s.1
    rw [sendBatchLoop]
    simp only [Publisher.recorded]
    split
    next result hDone =>
        refine ⟨c, [], rfl, le_max_left _ _, fun d hMem => ?_, .last hSent hDone⟩
        rw [mem_singleton.mp hMem]
        exact hCall
    next more rest hAgain =>
        rw [p.keep_of_more more] at hAgain
        obtain ⟨d, calls, hCalls, hCount, hFailed, hAnswered⟩ :=
          @ih _ (by omega) (attempts + 1) rest
          ((inner outgoing s.1).2, s.2 ++ [c]) rfl
        refine ⟨c, d :: calls, by rw [hCalls, append_assoc]; rfl, ?_, fun e hMem => ?_,
          .again hSent hAgain hAnswered⟩
        · simp only [length_cons] at hCount ⊢
          omega
        · rcases mem_cons.mp hMem with rfl | hMem
          · exact hCall
          · exact hFailed e hMem

/-- Retry accounting. The number of inner calls is bounded; an answer splits
the batch into what some call did not report failed and what is listed as
failed; and a copy that a call settled is never sent by a later call. -/
theorem sendBatch_accounts {σ : Type} (config : RetryMiddleware) (inner : Publisher σ)
    (hInner : inner.FailsWithinBatch) (batch : List CanonicalMessage) (s : σ) :
    let out := sendBatch config inner.recorded batch (s, [])
    let calls := out.2.2
    calls.length ≤ max 1 config.maxAttempts ∧
      (∀ sent, out.1 = .ok sent →
        untagged batch = untagged (deliveredBy calls) + untagged sent.failedMessages) ∧
      calls.Pairwise SendsOnlyTheRest := by
  obtain ⟨c, calls, hCalls, hCount, hFailed, hAnswered⟩ :=
    @sendBatchLoop_answered σ config inner hInner 0
    (.start batch) (s, [])
  simp only [sendBatch, hCalls]
  refine ⟨hCount, fun sent hOk => ?_, (hAnswered.resends.sendsOnlyTheRest hFailed).1⟩
  have hListed := congrArg (Multiset.map Prod.fst) (hAnswered.listed sent hOk).1
  rw [Multiset.map_add, map_fst_classes, map_fst_classes, map_fst_classes, Multiset.map_coe,
    sent.map_failures]
    at hListed
  have hBalance : untagged batch = _ := hAnswered.resends.balance hFailed
  rw [hBalance, hListed]
  simp [Progress.start, untagged]

def busyOnce : Publisher Nat := fun batch calls =>
  (if calls = 0 then .ok (.partly none (batch.tail.map fun m => (m, .retryable "busy")))
    else .ok .ack, calls + 1)

theorem busyOnce_failsWithinBatch : busyOnce.FailsWithinBatch := by
  intro batch calls responses failed h
  simp only [busyOnce] at h
  split_ifs at h
  · cases h
    simp only [map_map, comp_def, map_id']
    exact (tail_sublist batch).subperm
  · cases h

theorem sendBatch_accounts_busyOnce :
    let batch : List CanonicalMessage := [⟨1, [1], ∅⟩, ⟨2, [2], ∅⟩]
    let out := sendBatch ⟨3⟩ busyOnce.recorded batch (0, [])
    busyOnce.FailsWithinBatch ∧ out.1 = .ok .ack ∧ out.2.2.length ≤ max 1 3 ∧
      (∀ sent, out.1 = .ok sent →
        untagged batch = untagged (deliveredBy out.2.2) + untagged sent.failedMessages) ∧
      out.2.2.Pairwise SendsOnlyTheRest := by
  refine ⟨busyOnce_failsWithinBatch, ?_,
    sendBatch_accounts ⟨3⟩ busyOnce busyOnce_failsWithinBatch _ 0⟩
  simp [sendBatch, sendBatchLoop, Publisher.recorded, busyOnce, afterAnswer, Progress.start,
    Progress.keep, isRetryable]

end MqBridge.Retry
