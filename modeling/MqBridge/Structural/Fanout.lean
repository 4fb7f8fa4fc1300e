import MqBridge.Collections.IndexedMerge
import MqBridge.Structural.Destination

/-! The fan-out publisher. Every destination gets the whole batch; `join_all`
hands the answers back in list order, whatever order they arrived in. Failures
are merged by message id and by the occurrence of that id in the list of one
destination, so equal slots of two destinations are taken for one message. -/
namespace MqBridge.Structural.Fanout

open List Function

open IndexedMerge

structure FanoutPublisher where
  publishers : List Destination

/-- Which of two errors for one message wins: the one that keeps it from
being dropped. -/
def recoverability : PublisherError → Nat
  | .nonRetryable _ => 0
  | .retryable _ => 1
  | .connection _ => 2

/-- The error of a listed message gives way to a more recoverable one. -/
def keepRecoverable (old new : Failure) : Failure :=
  if recoverability old.2 < recoverability new.2 then (old.1, new.2) else old

/-- Message id and occurrence within one destination's list. -/
abbrev Slot := Nat × Nat

/-- The loop over one destination's failures; `seen` counts the ids so far. -/
def addFailed (seen : Nat → Nat) (failed : Table Slot Failure) :
    List Failure → Table Slot Failure
  | [] => failed
  | failure :: rest =>
    let id := failure.1.messageId
    let occurrence := seen id
    addFailed (update seen id (occurrence + 1))
      (failed.insert keepRecoverable ((id, occurrence), failure)) rest

/-- What the loop over the answers collects. `failed` is the list with its
map `failed_at`, `responded` the set of ids that have a reply. -/
structure Merge where
  failed : Table Slot Failure
  responses : List CanonicalMessage
  responded : List Nat

def Merge.empty : Merge := ⟨Table.empty, [], []⟩

/-- The first reply per message wins; the others are dropped with a warning. -/
def Merge.addResponse (merge : Merge) (response : CanonicalMessage) : Merge :=
  if response.messageId ∈ merge.responded then merge
  else { merge with
    responses := merge.responses ++ [response]
    responded := response.messageId :: merge.responded }

def Merge.addPartial (merge : Merge) (responses : Option (List CanonicalMessage))
    (failed : List Failure) : Merge :=
  (responses.getD []).foldl Merge.addResponse
    { merge with failed := addFailed (fun _ => 0) merge.failed failed }

def mergeResults (merge : Merge) : List SendResult → SendResult
  | [] => .ok (.ofParts merge.responses merge.failed.items)
  | .error e :: _ => .error e
  | .ok .ack :: rest => mergeResults merge rest
  | .ok (.partly responses failed) :: rest => mergeResults (merge.addPartial responses failed) rest

def FanoutPublisher.sendBatch (p : FanoutPublisher) (messages : List CanonicalMessage) :
    SendResult :=
  if messages.isEmpty then .ok .ack
  else mergeResults .empty (p.publishers.map fun publisher => publisher messages)

def ofId (id : Nat) (failed : List Failure) : List Failure :=
  failed.filter fun failure => decide (failure.1.messageId = id)

def slots (seen : Nat → Nat) : List Failure → List (Slot × Failure)
  | [] => []
  | failure :: rest =>
    let id := failure.1.messageId
    ((id, seen id), failure) :: slots (update seen id (seen id + 1)) rest

theorem addFailed_eq (seen : Nat → Nat) (table : Table Slot Failure) (failed : List Failure) :
    addFailed seen table failed = table.insertAll keepRecoverable (slots seen failed) := by
  induction failed generalizing seen table with
  | nil => rfl
  | cons failure rest ih => exact ih _ _

/-- A slot holds the failure with that number among those of its id. -/
theorem valuesOf_slots (seen : Nat → Nat) (failed : List Failure) (id occurrence : Nat) :
    valuesOf (slots seen failed) (id, seen id + occurrence) =
        (ofId id failed)[occurrence]?.toList ∧
      ∀ earlier, earlier < seen id → valuesOf (slots seen failed) (id, earlier) = [] := by
  induction failed generalizing seen occurrence with
  | nil => simp [slots, valuesOf, ofId]
  | cons failure rest ih =>
    obtain ⟨own, hOwn⟩ : ∃ own, failure.1.messageId = own := ⟨_, rfl⟩
    have hCons : ∀ slot, valuesOf (slots seen (failure :: rest)) slot =
        valuesOf [((own, seen own), failure)] slot ++
          valuesOf (slots (update seen own (seen own + 1)) rest) slot := by
      intro slot
      rw [← valuesOf_append, ← hOwn]
      rfl
    have hLater := ih (update seen own (seen own + 1))
    simp only [hCons, valuesOf_singleton, Prod.mk.injEq]
    by_cases hId : own = id
    · subst hId
      have hFirst : ofId own (failure :: rest) = failure :: ofId own rest := by simp [ofId, hOwn]
      rw [update_self] at hLater
      constructor
      · rw [hFirst]
        cases occurrence with
        | zero => simp [(hLater 0).2 (seen own) (Nat.lt_succ_self _)]
        | succ occurrence =>
          rw [if_neg (by omega), nil_append, getElem?_cons_succ, ← (hLater occurrence).1]
          congr 2
          omega
      · intro earlier hEarlier
        rw [if_neg (by omega), (hLater 0).2 earlier (Nat.lt_succ_of_lt hEarlier), nil_append]
    · have hSkip : ofId id (failure :: rest) = ofId id rest := by simp [ofId, hOwn, hId]
      rw [update_of_ne (symm hId)] at hLater
      simp only [hId, hSkip]
      exact hLater occurrence

def atSlot (legs : List (List Failure)) (slot : Slot) : List Failure :=
  legs.flatMap fun failed => (ofId slot.1 failed)[slot.2]?.toList

theorem valuesOf_legs (legs : List (List Failure)) (slot : Slot) :
    valuesOf (legs.flatMap (slots fun _ => 0)) slot = atSlot legs slot := by
  rw [valuesOf_flatMap]
  congr 1
  funext failed
  have hSlot := (valuesOf_slots (fun _ => 0) failed slot.1 slot.2).1
  rwa [zero_add] at hSlot

variable {failure : Failure} {slot : Slot}

section Slots

variable {legs : List (List Failure)}

theorem mem_atSlot : failure ∈ atSlot legs slot ↔
      ∃ failed ∈ legs, (ofId slot.1 failed)[slot.2]? = some failure := by
  simp [atSlot]

theorem messageId_of_head {m : CanonicalMessage}
    (h : (atSlot legs slot).head?.map Prod.fst = some m) : m.messageId = slot.1 := by
  obtain ⟨first, hFirst, rfl⟩ := Option.map_eq_some_iff.mp h
  obtain ⟨failed, -, hAt⟩ := mem_atSlot.mp (mem_of_mem_head? hFirst)
  simpa using (mem_filter.mp (mem_of_getElem? hAt)).2

/-- A listed failure has a slot. -/
theorem exists_slot {failed : List Failure} (hLeg : failed ∈ legs)
    (h : failure ∈ failed) :
    ∃ occurrence, (ofId failure.1.messageId failed)[occurrence]? = some failure ∧
      failure ∈ atSlot legs (failure.1.messageId, occurrence) := by
  have hMem : failure ∈ ofId failure.1.messageId failed := by simp [ofId, h]
  obtain ⟨occurrence, hAt⟩ := mem_iff_getElem?.mp hMem
  exact ⟨occurrence, hAt, mem_atSlot.mpr ⟨failed, hLeg, hAt⟩⟩

end Slots

variable (merge : Merge)

theorem addResponses_failed (responses : List CanonicalMessage) :
    (responses.foldl Merge.addResponse merge).failed = merge.failed := by
  induction responses generalizing merge with
  | nil => rfl
  | cons response rest ih =>
    rw [foldl_cons, ih]
    unfold Merge.addResponse
    split_ifs <;> rfl

theorem mergeResults_error {results : List SendResult} {e : PublisherError}
    (h : firstError results = some e) : mergeResults merge results = .error e := by
  induction results generalizing merge with
  | nil => cases h
  | cons result rest ih =>
    cases result with
    | error e' =>
      cases h
      rfl
    | ok batch => cases batch <;> exact ih _ h

/-- Without a whole-call error the failures are those of one merge over the
slots of all destinations, whatever the replies are. -/
theorem mergeResults_ok {results : List SendResult} (h : firstError results = none) :
    ∃ responses, mergeResults merge results =
      .ok (.ofParts responses (merge.failed.insertAll keepRecoverable
        ((results.map listed).flatMap (slots fun _ => 0))).items) := by
  induction results generalizing merge with
  | nil => exact ⟨merge.responses, rfl⟩
  | cons result rest ih =>
    cases result with
    | error e => cases h
    | ok batch =>
      cases batch with
      | ack => exact ih merge h
      | partly responses failed =>
        obtain ⟨collected, hRest⟩ := ih (merge.addPartial responses failed) h
        refine ⟨collected, hRest.trans ?_⟩
        rw [Merge.addPartial, addResponses_failed, addFailed_eq, Table.insertAll, Table.insertAll,
          ← foldl_append]
        rfl

variable {failures : List Failure} {merged : Failure}

/-- The merged failure of a slot: the message of the first destination that
has one there, with the first of the most recoverable errors of the slot. -/
theorem combined_keepRecoverable (h : combined keepRecoverable failures = some merged) :
    (failures.head?.map Prod.fst = some merged.1) ∧
      ∃ before failure after, failures = before ++ failure :: after ∧ failure.2 = merged.2 ∧
        (∀ f ∈ before, recoverability f.2 < recoverability merged.2) ∧
        ∀ f ∈ after, recoverability f.2 ≤ recoverability merged.2 := by
  induction failures using reverseRecOn generalizing merged with
  | nil => cases h
  | append_singleton failures last ih =>
    rw [combined_snoc, Option.some.injEq] at h
    cases hPrior : combined keepRecoverable failures with
    | none =>
      rw [combined_eq_none] at hPrior
      subst hPrior
      subst h
      exact ⟨rfl, [], last, [], rfl, rfl, by simp, by simp⟩
    | some prior =>
      obtain ⟨hHead, before, failure, after, rfl, hError, hBefore, hAfter⟩ := ih hPrior
      have hFirst : (before ++ failure :: after ++ [last]).head? =
          (before ++ failure :: after).head? := by cases before <;> rfl
      rw [hPrior] at h
      simp only [keepRecoverable] at h
      split_ifs at h with hMore
      · subst h
        refine ⟨by rw [hFirst, hHead], before ++ failure :: after, last, [], rfl, rfl, ?_, by simp⟩
        intro f hf
        rcases mem_append.mp hf with hf | hf
        · exact (hBefore f hf).trans hMore
        · rcases mem_cons.mp hf with rfl | hf
          · rwa [hError]
          · exact (hAfter f hf).trans_lt hMore
      · subst h
        exact ⟨by rw [hFirst, hHead], before, failure, after ++ [last], by simp, hError, hBefore,
          Places.forall_mem_snoc hAfter (Nat.le_of_not_lt hMore)⟩

/-- No error of a slot is more recoverable than the merged one. -/
theorem combined_le (h : combined keepRecoverable failures = some merged) :
    ∀ f ∈ failures, recoverability f.2 ≤ recoverability merged.2 := by
  obtain ⟨-, before, failure, after, rfl, hError, hBefore, hAfter⟩ := combined_keepRecoverable h
  intro f hf
  rcases mem_append.mp hf with hf | hf
  · exact (hBefore f hf).le
  · rcases mem_cons.mp hf with rfl | hf
    · rw [hError]
    · exact hAfter f hf

theorem exists_combined {m : CanonicalMessage} (h : failures.head?.map Prod.fst = some m) :
    ∃ e, combined keepRecoverable failures = some (m, e) := by
  cases hMerged : combined keepRecoverable failures with
  | none =>
    rw [combined_eq_none.mp hMerged] at h
    cases h
  | some merged =>
    obtain rfl := Option.some.inj ((combined_keepRecoverable hMerged).1.symm.trans h)
    exact ⟨merged.2, rfl⟩

theorem isTransient_iff (e : PublisherError) : e.isTransient = true ↔ 1 ≤ recoverability e := by
  cases e <;> simp [PublisherError.isTransient, recoverability]

/-- The merged error of a slot is curable if some error of the slot is. -/
theorem combined_isTransient (h : combined keepRecoverable failures = some merged) :
    merged.2.isTransient = true ↔ ∃ f ∈ failures, f.2.isTransient = true := by
  constructor
  · obtain ⟨-, before, failure, after, rfl, hError, -⟩ := combined_keepRecoverable h
    intro hMerged
    exact ⟨failure, by simp, hError ▸ hMerged⟩
  · rintro ⟨f, hf, hTransient⟩
    rw [isTransient_iff] at hTransient ⊢
    exact hTransient.trans (combined_le h f hf)

/-- `m` is the message of a slot at which some destination reports a curable
error. Only the destinations' lists matter, not their merge. -/
def OwnsTransientSlot (legs : List (List Failure)) (m : CanonicalMessage) : Prop :=
  ∃ occurrence, (atSlot legs (m.messageId, occurrence)).head?.map Prod.fst = some m ∧
    ∃ f ∈ atSlot legs (m.messageId, occurrence), f.2.isTransient = true

/-- The merged list and its table over the slots of all destinations. -/
def mergedFailures (legs : List (List Failure)) : List Failure :=
  (Table.empty.insertAll keepRecoverable (legs.flatMap (slots fun _ => 0))).items

theorem mem_mergedFailures {legs : List (List Failure)} : failure ∈ mergedFailures legs ↔
      ∃ slot, combined keepRecoverable (atSlot legs slot) = some failure := by
  obtain ⟨keys, hHolds⟩ := insertAll_holds keepRecoverable (legs.flatMap (slots fun _ => 0))
  rw [mergedFailures, hHolds.mem_items]
  simp only [valuesOf_legs]

theorem mergedFailures_transient (legs : List (List Failure)) (m : CanonicalMessage) :
    (∃ e, (m, e) ∈ mergedFailures legs ∧ e.isTransient = true) ↔ OwnsTransientSlot legs m := by
  simp only [mem_mergedFailures]
  constructor
  · rintro ⟨e, ⟨slot, hMerged⟩, hTransient⟩
    obtain ⟨hHead, -⟩ := combined_keepRecoverable hMerged
    have hSlot : slot = (m.messageId, slot.2) := Prod.ext (messageId_of_head hHead).symm rfl
    rw [hSlot] at hMerged hHead
    exact ⟨slot.2, hHead, (combined_isTransient hMerged).mp hTransient⟩
  · rintro ⟨occurrence, hHead, f, hf, hTransient⟩
    obtain ⟨e, hMerged⟩ := exists_combined hHead
    exact ⟨e, ⟨_, hMerged⟩, (combined_isTransient hMerged).mpr ⟨f, hf, hTransient⟩⟩

namespace FanoutPublisher

def results (p : FanoutPublisher) (messages : List CanonicalMessage) : List SendResult :=
  p.publishers.map fun publisher => publisher messages

def legs (p : FanoutPublisher) (messages : List CanonicalMessage) : List (List Failure) :=
  (p.results messages).map listed

variable {messages : List CanonicalMessage} {p : FanoutPublisher}

theorem sendBatch_error {e : PublisherError} (hMsgs : messages ≠ [])
    (h : firstError (p.results messages) = some e) : p.sendBatch messages = .error e := by
  rw [sendBatch, if_neg (by simpa using hMsgs)]
  exact mergeResults_error .empty h

theorem sendBatch_ok (hMsgs : messages ≠ []) (h : firstError (p.results messages) = none) :
    ∃ sent, p.sendBatch messages = .ok sent ∧ sent.failures = mergedFailures (p.legs messages) := by
  obtain ⟨responses, hMerge⟩ := mergeResults_ok .empty h
  refine ⟨_, ?_, SentBatch.failures_ofParts responses _⟩
  rw [sendBatch, if_neg (by simpa using hMsgs)]
  exact hMerge

def Transient (p : FanoutPublisher) (messages : List CanonicalMessage) (m : CanonicalMessage) :
    Prop :=
  ∃ result ∈ p.results messages, ReportsTransient messages m result

/-- The answers under which no curable failure is lost. A whole-call error
that decides for the batch must be curable unless nothing else is at stake;
without one, every message with a curable failure must own a slot for it. -/
def MergeKeepsTransient (p : FanoutPublisher) (messages : List CanonicalMessage) : Prop :=
  match firstError (p.results messages) with
  | some e => e.isTransient = true ∨ ∀ m ∈ messages, ¬p.Transient messages m
  | none => ∀ m ∈ messages, p.Transient messages m → OwnsTransientSlot (p.legs messages) m

theorem sendBatch_keepsTransient_iff (p : FanoutPublisher) (messages : List CanonicalMessage) :
    (∀ m ∈ messages, p.Transient messages m → KeepsTransient m (p.sendBatch messages)) ↔
      p.MergeKeepsTransient messages := by
  by_cases hMsgs : messages = []
  · subst hMsgs
    unfold MergeKeepsTransient
    cases firstError (p.results []) <;> simp
  cases hError : firstError (p.results messages) with
  | some e =>
    simp only [MergeKeepsTransient, hError, sendBatch_error hMsgs hError]
    exact forall_curable_iff
  | none =>
    obtain ⟨sent, hSent, hFailed⟩ := sendBatch_ok hMsgs hError
    simp only [MergeKeepsTransient, hError, hSent, KeepsTransient, hFailed,
      mergedFailures_transient]

end FanoutPublisher

/-- `e` is an error some destination gave for `m`, and none gave a more
recoverable one. -/
def BestError (legs : List (List Failure)) (m : CanonicalMessage) (e : PublisherError) : Prop :=
  (∃ failed ∈ legs, (m, e) ∈ failed) ∧
    ∀ failed ∈ legs, ∀ e', (m, e') ∈ failed → recoverability e' ≤ recoverability e

def Listed (legs : List (List Failure)) (m : CanonicalMessage) : Prop :=
  ∃ failed ∈ legs, ∃ e, (m, e) ∈ failed

/-- Every listed message appears once, with its best error; no other appears. -/
def MergedApart (legs : List (List Failure)) (out : List Failure) : Prop :=
  ∀ m, (Listed legs m → (out.map Prod.fst).count m = 1 ∧ ∀ e, (m, e) ∈ out → BestError legs m e) ∧
    (¬Listed legs m → m ∉ out.map Prod.fst)

/-- The first error of a list that no other exceeds. -/
def strongest (failures : List Failure) : Option PublisherError :=
  (failures.find? fun f =>
    failures.all fun g => decide (recoverability g.2 ≤ recoverability f.2)).map Prod.snd

/-- The message of a slot is the one that the first destination with a
failure there lists. -/
def owner (legs : List (List Failure)) (slot : Slot) : Option CanonicalMessage :=
  (atSlot legs slot).head?.map Prod.fst

/-- Every listed message owns exactly one slot, and the strongest error that
the destinations report at this slot is a best error of the message itself. -/
def SlotsApart (legs : List (List Failure)) : Prop :=
  ∀ m, Listed legs m → ∃ occurrence,
    (∀ other, owner legs (m.messageId, other) = some m ↔ other = occurrence) ∧
    ∃ e, strongest (atSlot legs (m.messageId, occurrence)) = some e ∧ BestError legs m e

/-- Destinations that list failures with the same number for an id list the
same message there. -/
def Aligned (legs : List (List Failure)) : Prop :=
  ∀ a ∈ legs, ∀ b ∈ legs, ∀ (slot : Slot) (f g : Failure),
    (ofId slot.1 a)[slot.2]? = some f → (ofId slot.1 b)[slot.2]? = some g → f.1 = g.1

theorem combined_eq_some_iff : combined keepRecoverable failures = some merged ↔
      failures.head?.map Prod.fst = some merged.1 ∧ strongest failures = some merged.2 := by
  have hForward : ∀ merged, combined keepRecoverable failures = some merged →
      failures.head?.map Prod.fst = some merged.1 ∧ strongest failures = some merged.2 := by
    intro merged h
    obtain ⟨hHead, before, failure, after, rfl, hError, hBefore, -⟩ := combined_keepRecoverable h
    refine ⟨hHead, ?_⟩
    rw [strongest, Option.map_eq_some_iff]
    refine ⟨failure, find?_eq_some_iff_append.mpr ⟨?_, before, after, rfl, ?_⟩, hError⟩
    · simp only [all_eq_true, decide_eq_true_eq, hError]
      exact combined_le h
    · intro f hf
      simp only [Bool.not_eq_true', all_eq_false, decide_eq_true_eq, not_le]
      exact ⟨failure, by simp, hError ▸ hBefore f hf⟩
  constructor
  · exact hForward merged
  · rintro ⟨hHead, hStrongest⟩
    obtain ⟨e, hOther⟩ := exists_combined hHead
    rw [hOther, Option.some.injEq]
    exact Prod.ext rfl (Option.some.inj ((hForward _ hOther).2.symm.trans hStrongest))

/-- A message is listed once by the merge if it owns exactly one slot. -/
theorem count_mergedFailures_eq_one (legs : List (List Failure)) (m : CanonicalMessage) :
    ((mergedFailures legs).map Prod.fst).count m = 1 ↔
      ∃ occurrence, ∀ other, owner legs (m.messageId, other) = some m ↔ other = occurrence := by
  obtain ⟨keys, hHolds⟩ := insertAll_holds keepRecoverable (legs.flatMap (slots fun _ => 0))
  have hOwns : ∀ slot, (∃ value, combined keepRecoverable
      (valuesOf (legs.flatMap (slots fun _ => 0)) slot) = some value ∧ (value.1 == m) = true) ↔
      owner legs slot = some m := by
    intro slot
    rw [valuesOf_legs]
    constructor
    · rintro ⟨value, hVal, hMsg⟩
      rw [owner, (combined_eq_some_iff.mp hVal).1, eq_of_beq hMsg]
    · intro hOwner
      obtain ⟨e, hVal⟩ := exists_combined hOwner
      exact ⟨_, hVal, beq_self_eq_true m⟩
  have hSlot : ∀ slot, owner legs slot = some m → slot = (m.messageId, slot.2) := fun slot hOwner =>
    Prod.ext (messageId_of_head hOwner).symm rfl
  rw [count, countP_map, mergedFailures]
  change countP (fun f : Failure => f.1 == m) _ = 1 ↔ _
  rw [hHolds.countP_items_eq_one]
  simp only [hOwns]
  constructor
  · rintro ⟨slot, hUnique⟩
    have hOwned := hSlot slot ((hUnique slot).mpr rfl)
    refine ⟨slot.2, fun other => ?_⟩
    rw [hUnique, hOwned, Prod.mk.injEq, and_iff_right rfl]
  · rintro ⟨occurrence, hUnique⟩
    refine ⟨(m.messageId, occurrence), fun slot => ?_⟩
    constructor
    · intro hOwner
      have hThis := hSlot slot hOwner
      rw [hThis] at hOwner
      rw [hThis, (hUnique slot.2).mp hOwner]
    · rintro rfl
      exact (hUnique occurrence).mpr rfl

variable {legs : List (List Failure)}

theorem listed_of_mem_atSlot (h : failure ∈ atSlot legs slot) : Listed legs failure.1 := by
  obtain ⟨failed, hLeg, hAt⟩ := mem_atSlot.mp h
  exact ⟨failed, hLeg, failure.2, (mem_filter.mp (mem_of_getElem? hAt)).1⟩

/-- The exact condition for the merge to keep messages apart. -/
theorem mergedApart_iff (legs : List (List Failure)) :
    MergedApart legs (mergedFailures legs) ↔ SlotsApart legs := by
  constructor
  · intro h m hm
    obtain ⟨hCount, hBest⟩ := (h m).1 hm
    obtain ⟨occurrence, hUnique⟩ := (count_mergedFailures_eq_one legs m).mp hCount
    obtain ⟨e, hMerged⟩ := exists_combined ((hUnique occurrence).mpr rfl)
    refine ⟨occurrence, hUnique, e, (combined_eq_some_iff.mp hMerged).2, hBest e ?_⟩
    exact mem_mergedFailures.mpr ⟨_, hMerged⟩
  · intro h m
    constructor
    · intro hm
      obtain ⟨occurrence, hUnique, e, hStrongest, hBest⟩ := h m hm
      refine ⟨(count_mergedFailures_eq_one legs m).mpr ⟨occurrence, hUnique⟩, ?_⟩
      intro e' hMem
      obtain ⟨slot, hMerged⟩ := mem_mergedFailures.mp hMem
      obtain ⟨hHead, hError⟩ := combined_eq_some_iff.mp hMerged
      obtain ⟨id, other⟩ := slot
      obtain rfl := messageId_of_head hHead
      obtain rfl := (hUnique other).mp hHead
      have hSame : e' = e := Option.some.inj (hError.symm.trans hStrongest)
      rwa [hSame]
    · intro hm hMem
      obtain ⟨failure, hFailure, rfl⟩ := mem_map.mp hMem
      obtain ⟨slot, hMerged⟩ := mem_mergedFailures.mp hFailure
      obtain ⟨first, hFirst, hMsg⟩ :=
        Option.map_eq_some_iff.mp (combined_eq_some_iff.mp hMerged).1
      have hListed := listed_of_mem_atSlot (mem_of_mem_head? hFirst)
      rw [hMsg] at hListed
      exact hm hListed

/-- In aligned lists no destination numbers a message higher than another one
does, as long as none lists it twice. -/
theorem Aligned.occurrence_le (h : Aligned legs)
    (hNodup : ∀ failed ∈ legs, (failed.map Prod.fst).Nodup) {a b : List Failure}
    (ha : a ∈ legs) (hb : b ∈ legs) {id i j : Nat} {f g : Failure}
    (hf : (ofId id a)[i]? = some f) (hg : (ofId id b)[j]? = some g) (hSame : f.1 = g.1) :
    j ≤ i := by
  apply Nat.le_of_not_lt
  intro hLt
  obtain ⟨hBound, rfl⟩ := List.getElem?_eq_some_iff.mp hg
  -- The list with the higher number has an entry at the smaller one as well.
  have hSlot := h a ha b hb (id, i) f _ hf (getElem?_eq_getElem (hLt.trans hBound))
  have hSub : ((ofId id b).map Prod.fst).Nodup := (filter_sublist.map Prod.fst).nodup (hNodup b hb)
  exact pairwise_iff_getElem.mp (pairwise_map.mp hSub) i j _ hBound hLt (hSlot.symm.trans hSame)

/-- Aligned lists share slots only for one and the same message. -/
theorem Aligned.slotsApart (h : Aligned legs)
    (hNodup : ∀ failed ∈ legs, (failed.map Prod.fst).Nodup) : SlotsApart legs := by
  rintro m ⟨failed, hLeg, e, he⟩
  obtain ⟨occurrence, hAt, hSlot⟩ := exists_slot hLeg he
  have hAll : ∀ f ∈ atSlot legs (m.messageId, occurrence), f.1 = m := by
    intro f hf
    obtain ⟨other, hOther, hf⟩ := mem_atSlot.mp hf
    exact h other hOther failed hLeg _ f (m, e) hf hAt
  have hHead : (atSlot legs (m.messageId, occurrence)).head?.map Prod.fst = some m := by
    rw [head?_eq_some_head (ne_nil_of_mem hSlot)]
    exact congrArg some (hAll _ (head_mem _))
  obtain ⟨merged, hMerged⟩ := exists_combined hHead
  have hSame :
      ∀ {leg other : _} {f : Failure}, leg ∈ legs → (ofId m.messageId leg)[other]? = some f →
      f.1 = m → other = occurrence := fun hIn hf hOwner =>
    le_antisymm (h.occurrence_le hNodup hLeg hIn hAt hf hOwner.symm)
      (h.occurrence_le hNodup hIn hLeg hf hAt hOwner)
  refine ⟨occurrence, fun other => ?_, merged, (combined_eq_some_iff.mp hMerged).2, ?_, ?_⟩
  · constructor
    · intro hOther
      obtain ⟨f, hf, hOwner⟩ := Option.map_eq_some_iff.mp hOther
      obtain ⟨leg, hIn, hf⟩ := mem_atSlot.mp (mem_of_mem_head? hf)
      exact hSame hIn hf hOwner
    · rintro rfl
      exact hHead
  · obtain ⟨-, before, failure, after, hSplit, hError, -, -⟩ := combined_keepRecoverable hMerged
    have hMem : failure ∈ atSlot legs (m.messageId, occurrence) := by rw [hSplit]; simp
    obtain ⟨leg, hIn, hf⟩ := mem_atSlot.mp hMem
    refine ⟨leg, hIn, ?_⟩
    obtain rfl : failure = (m, merged) := Prod.ext (hAll failure hMem) hError
    exact (mem_filter.mp (mem_of_getElem? hf)).1
  · intro leg hIn e' he'
    obtain ⟨other, hOther, hMem⟩ := exists_slot hIn he'
    obtain rfl := hSame hIn hOther rfl
    exact combined_le hMerged _ hMem

/-- The answers contain no whole-call error, and each destination lists
messages of the batch in batch order. -/
def FanoutPublisher.ListsInOrder (p : FanoutPublisher) (batch : List CanonicalMessage) : Prop :=
  ∀ result ∈ p.results batch, ∃ sent, result = .ok sent ∧ (sent.failures.map Prod.fst).Sublist batch

/-- The fan-out answers, and its merge keeps the messages of the batch apart. -/
def FanoutPublisher.KeepsApart (p : FanoutPublisher) (batch : List CanonicalMessage) : Prop :=
  ∃ sent, p.sendBatch batch = .ok sent ∧ MergedApart (p.legs batch) sent.failures

variable {batch : List CanonicalMessage} {p : FanoutPublisher}

theorem FanoutPublisher.legs_sublist
    (h : p.ListsInOrder batch) {failed : List Failure} (hLeg : failed ∈ p.legs batch) :
    (failed.map Prod.fst).Sublist batch := by
  obtain ⟨result, hRes, rfl⟩ := mem_map.mp hLeg
  obtain ⟨sent, rfl, hSub⟩ := h result hRes
  exact hSub

theorem firstError_none_of_ok {results : List SendResult}
    (h : ∀ result ∈ results, ∃ sent, result = .ok sent) : firstError results = none := by
  cases hError : firstError results with
  | none => rfl
  | some e =>
    obtain ⟨sent, hSent⟩ := h _ (firstError_mem hError)
    cases hSent

/-- Without a whole-call error the answer is the merge over the slots, for an
empty batch as well. -/
theorem FanoutPublisher.sendBatch_merged (h : p.ListsInOrder batch) :
    ∃ sent, p.sendBatch batch = .ok sent ∧
      (MergedApart (p.legs batch) sent.failures ↔
        MergedApart (p.legs batch) (mergedFailures (p.legs batch))) := by
  by_cases hEmpty : batch = []
  · subst hEmpty
    have hNone : ∀ m, ¬Listed (p.legs []) m := by
      rintro m ⟨failed, hLeg, e, he⟩
      have hMem := (legs_sublist h hLeg).subset (mem_map.mpr ⟨(m, e), he, rfl⟩)
      cases hMem
    refine ⟨.ack, rfl, ?_⟩
    rw [mergedApart_iff]
    constructor
    · intro _ m hm
      exact False.elim (hNone m hm)
    · intro _ m
      exact ⟨fun hm => False.elim (hNone m hm), fun _ => not_mem_nil⟩
  · have hOk : firstError (p.results batch) = none := by
      apply firstError_none_of_ok
      intro result hRes
      obtain ⟨sent, hSent, -⟩ := h result hRes
      exact ⟨sent, hSent⟩
    obtain ⟨sent, hSent, hFailed⟩ := sendBatch_ok hEmpty hOk
    exact ⟨sent, hSent, by rw [hFailed]⟩

/-- For a batch of different messages, the fan-out keeps the failures apart
exactly if every listed message owns one slot with an error of its own. This
is so whenever the destinations number the failures of an id alike. -/
theorem FanoutPublisher.keepsApart_iff (p : FanoutPublisher) (batch : List CanonicalMessage)
    (hBatch : batch.Nodup) (hLists : p.ListsInOrder batch) :
    (p.KeepsApart batch ↔ SlotsApart (p.legs batch)) ∧
      (Aligned (p.legs batch) → p.KeepsApart batch) := by
  obtain ⟨sent, hSent, hMerge⟩ := sendBatch_merged hLists
  have hIff : p.KeepsApart batch ↔ SlotsApart (p.legs batch) := by
    rw [← mergedApart_iff, ← hMerge]
    constructor
    · rintro ⟨sent', hSent', hApart⟩
      rw [hSent] at hSent'
      cases hSent'
      exact hApart
    · intro hApart
      exact ⟨sent, hSent, hApart⟩
  refine ⟨hIff, fun hAligned => hIff.mpr (hAligned.slotsApart ?_)⟩
  intro failed hLeg
  exact (legs_sublist hLists hLeg).nodup hBatch

theorem FanoutPublisher.listsInOrder_pair {a b : SentBatch}
    (ha : (a.failures.map Prod.fst).Sublist batch) (hb : (b.failures.map Prod.fst).Sublist batch) :
    ListsInOrder ⟨[fun _ => .ok a, fun _ => .ok b]⟩ batch := by
  intro result hRes
  simp only [results, map_cons, map_nil, mem_cons, not_mem_nil, or_false] at hRes
  rcases hRes with rfl | rfl
  · exact ⟨a, rfl, ha⟩
  · exact ⟨b, rfl, hb⟩

/-- Two messages of one id, each failing at another destination, are listed
as one: the second is reported delivered. -/
theorem FanoutPublisher.not_keepsApart_same_id : let one : CanonicalMessage := ⟨7, [1], ∅⟩
    let two : CanonicalMessage := ⟨7, [2], ∅⟩
    let p : FanoutPublisher := ⟨[fun _ => .ok (.partly none [(one, .retryable "down")]),
      fun _ => .ok (.partly none [(two, .retryable "down")])]⟩
    [one, two].Nodup ∧ p.ListsInOrder [one, two] ∧ ¬p.KeepsApart [one, two] := by
  intro one two p
  refine ⟨by decide, listsInOrder_pair (by decide) (by decide), ?_⟩
  rintro ⟨sent, hSent, hApart⟩
  cases hSent
  obtain ⟨hCount, -⟩ :=
    (hApart two).1 ⟨[(two, .retryable "down")], by simp [legs, results, p, listed,
    SentBatch.failures], _, by simp; rfl⟩
  exact absurd hCount (by decide)

theorem FanoutPublisher.keepsApart_two_errors : let one : CanonicalMessage := ⟨7, [1], ∅⟩
    let two : CanonicalMessage := ⟨7, [2], ∅⟩
    let p : FanoutPublisher :=
      ⟨[fun _ => .ok (.partly none [(one, .nonRetryable "bad"), (two, .retryable "busy")]),
        fun _ => .ok (.partly none [(one, .connection "gone"), (two, .nonRetryable "bad")])]⟩
    [one, two].Nodup ∧ p.ListsInOrder [one, two] ∧ p.KeepsApart [one, two] := by
  intro one two p
  have hNodup : [one, two].Nodup := by decide
  have hLists : p.ListsInOrder [one, two] := listsInOrder_pair (by decide) (by decide)
  refine ⟨hNodup, hLists, (keepsApart_iff p [one, two] hNodup hLists).2 ?_⟩
  rintro a ha b hb ⟨id, occurrence⟩ f g hf hg
  simp only [legs, results, p, map_cons, map_nil, listed, SentBatch.failures, mem_cons, not_mem_nil,
    or_false] at ha hb
  have hMsgs : (ofId id a).map Prod.fst = (ofId id b).map Prod.fst := by
    by_cases hId : 7 = id
    all_goals rcases ha with rfl | rfl <;> rcases hb with rfl | rfl <;> simp [ofId, hId, one, two]
  have hf' : ((ofId id a).map Prod.fst)[occurrence]? = some f.1 := by rw [getElem?_map, hf]; rfl
  have hg' : ((ofId id b).map Prod.fst)[occurrence]? = some g.1 := by rw [getElem?_map, hg]; rfl
  rw [hMsgs, hg'] at hf'
  exact (Option.some.inj hf').symm

end MqBridge.Structural.Fanout
