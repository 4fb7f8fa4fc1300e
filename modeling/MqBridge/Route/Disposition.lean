import Mathlib.Logic.Function.Basic
import MqBridge.Message
import MqBridge.Collections.InsertionMap

/-! How the route turns the answer to a batch into one disposition for each
of its messages. There are three paths: nothing to report, a batch of one
message, and a general path that looks failures and replies up by id. -/
namespace MqBridge.Route

open List

/-- A failed message goes back to the source. Only a permanent failure that
no dead-letter queue waits for is acknowledged, which drops the message. -/
def failureDisposition (hasDlqMiddleware : Bool) : PublisherError → MessageDisposition
  | .nonRetryable _ => if hasDlqMiddleware then .nack else .ack
  | .retryable _ | .connection _ => .nack

def failedIds (failed : List Failure) : Nat → Option PublisherError :=
  LastOf.collect (fun failure => failure.1.messageId) Prod.snd failed

def responseMap (responses : List CanonicalMessage) : Nat → Option CanonicalMessage :=
  LastOf.collect CanonicalMessage.messageId id responses

/-- The loop of the general path. A reply is used once. -/
def disposeEach (hasDlqMiddleware : Bool) (failed : Nat → Option PublisherError)
    (replies : Nat → Option CanonicalMessage) : List Nat → List MessageDisposition
  | [] => []
  | id :: rest =>
    match failed id with
    | some error =>
      failureDisposition hasDlqMiddleware error ::
        disposeEach hasDlqMiddleware failed replies rest
    | none =>
      match replies id with
      | some response =>
        .reply response ::
          disposeEach hasDlqMiddleware failed (Function.update replies id none) rest
      | none => .ack :: disposeEach hasDlqMiddleware failed replies rest

/-- `map_responses_to_dispositions`. The ids in `requestIds` expect a reply;
one that gets none is only warned about. -/
def mapResponsesToDispositions (messageIds : List Nat) (responses : Option (List CanonicalMessage))
    (failed : List Failure) (requestIds : List Nat) (hasDlqMiddleware : Bool) :
    List MessageDisposition :=
  if responses.isNone && failed.isEmpty && (messageIds.isEmpty || requestIds.isEmpty) then
    List.replicate messageIds.length .ack
  else if messageIds.length = 1 then
    match failed with
    | (_, error) :: _ => [failureDisposition hasDlqMiddleware error]
    | [] =>
      match responses.bind List.getLast? with
      | some response => [.reply response]
      | none => [.ack]
  else
    disposeEach hasDlqMiddleware (failedIds failed) (responseMap (responses.getD [])) messageIds

theorem disposeEach_length (hasDlqMiddleware : Bool) (failed : Nat → Option PublisherError)
    (replies : Nat → Option CanonicalMessage) (ids : List Nat) :
    (disposeEach hasDlqMiddleware failed replies ids).length = ids.length := by
  induction ids generalizing replies with
  | nil => rfl
  | cons id rest ih =>
    rw [disposeEach]
    split
    · rw [length_cons, ih, length_cons]
    · split
      · rw [length_cons, ih, length_cons]
      · rw [length_cons, ih, length_cons]

/-- A failed id decides for its position, whatever replies there are. -/
theorem disposeEach_failed {hasDlqMiddleware : Bool} {failed : Nat → Option PublisherError}
    (replies : Nat → Option CanonicalMessage) {ids : List Nat} {position id : Nat}
    {error : PublisherError} (hId : ids[position]? = some id) (hFailed : failed id = some error) :
    (disposeEach hasDlqMiddleware failed replies ids)[position]? =
      some (failureDisposition hasDlqMiddleware error) := by
  induction ids generalizing replies position with
  | nil => cases hId
  | cons first rest ih =>
    cases position with
    | zero =>
      cases hId
      simp [disposeEach, hFailed]
    | succ position =>
      rw [disposeEach]
      split
      · rw [getElem?_cons_succ, ih _ hId]
      · split
        · rw [getElem?_cons_succ, ih _ hId]
        · rw [getElem?_cons_succ, ih _ hId]

/-- The entry of the failure list that decides for a message: the first entry
in a batch of one, the last one with its id otherwise. -/
def decisive (messages : List CanonicalMessage) (failed : List Failure) (m : CanonicalMessage) :
    Option PublisherError :=
  if messages.length = 1 then failed.head?.map Prod.snd
  else (failed.filter fun f => decide (f.1.messageId = m.messageId)).getLast?.map Prod.snd

section Batch
variable (messages : List CanonicalMessage) (responses : Option (List CanonicalMessage))
  (failed : List Failure) (requestIds : List Nat) (hasDlqMiddleware : Bool)

def dispositions : List MessageDisposition :=
  mapResponsesToDispositions (messages.map CanonicalMessage.messageId) responses failed requestIds
    hasDlqMiddleware

theorem dispositions_length :
    (dispositions messages responses failed requestIds hasDlqMiddleware).length =
      messages.length := by
  unfold dispositions mapResponsesToDispositions
  split_ifs with hNothing hOne
  · rw [length_replicate, length_map]
  · rw [length_map] at hOne
    rw [hOne]
    split
    · rfl
    · split <;> rfl
  · rw [disposeEach_length, length_map]

variable {messages failed}

/-- Every position with a failed message is decided by one entry. -/
theorem dispositions_of_failed {position : Nat} {m : CanonicalMessage} {e : PublisherError}
    (hPos : messages[position]? = some m) (hFailed : (m, e) ∈ failed) :
    ∃ error, decisive messages failed m = some error ∧
      (dispositions messages responses failed requestIds hasDlqMiddleware)[position]? =
        some (failureDisposition hasDlqMiddleware error) := by
  have hSome : failed ≠ [] := ne_nil_of_mem hFailed
  have hEmpty : failed.isEmpty = false := by simpa using hSome
  unfold dispositions mapResponsesToDispositions decisive
  simp only [hEmpty, Bool.and_false, Bool.false_and, Bool.false_eq_true, if_false, length_map]
  split_ifs with hOne
  · obtain ⟨first, rest, rfl⟩ := exists_cons_of_ne_nil hSome
    have hZero : position = 0 := by
      have hBound := (List.getElem?_eq_some_iff.mp hPos).1
      omega
    subst hZero
    exact ⟨first.2, rfl, rfl⟩
  · have hMem : (m, e) ∈ failed.filter fun f => decide (f.1.messageId = m.messageId) := by
      simp [hFailed]
    obtain ⟨last, hLast⟩ : ∃ last, (failed.filter fun f =>
        decide (f.1.messageId = m.messageId)).getLast? = some last :=
      ⟨_, getLast?_eq_some_getLast (ne_nil_of_mem hMem)⟩
    have hId : (messages.map CanonicalMessage.messageId)[position]? = some m.messageId := by
      rw [getElem?_map, hPos]
      rfl
    have hEntry : failedIds failed m.messageId = some last.2 :=
      (LastOf.collect_eq failed m.messageId).trans (congrArg (Option.map Prod.snd) hLast)
    exact ⟨last.2, by rw [hLast]; rfl, disposeEach_failed _ hId hEntry⟩

end Batch

theorem failureDisposition_eq_nack {hasDlqMiddleware : Bool} {error : PublisherError} :
    failureDisposition hasDlqMiddleware error = .nack ↔
      error.isTransient = true ∨ hasDlqMiddleware = true := by
  cases error <;> cases hasDlqMiddleware <;> simp [failureDisposition, PublisherError.isTransient]

/-- One disposition for each message, and a message that must be delivered
again, for a curable failure or for the dead-letter queue, is not
acknowledged. -/
def NacksFailures (messages : List CanonicalMessage) (failed : List Failure)
    (hasDlqMiddleware : Bool) (out : List MessageDisposition) : Prop :=
  out.length = messages.length ∧
    ∀ (position : Nat) (m : CanonicalMessage) (e : PublisherError),
      messages[position]? = some m → (m, e) ∈ failed →
        e.isTransient = true ∨ hasDlqMiddleware = true → out[position]? = some .nack

/-- With a dead-letter queue every failure is handed back. Without one, the
entry that decides for a message with a curable failure must be curable. -/
def DecisiveIsTransient (messages : List CanonicalMessage) (failed : List Failure)
    (hasDlqMiddleware : Bool) : Prop :=
  hasDlqMiddleware = true ∨ ∀ m e, (m, e) ∈ failed → e.isTransient = true →
    ∀ error, decisive messages failed m = some error → error.isTransient = true

/-- The dispositions of a partial answer whose failures are messages of the
batch never acknowledge a curable failure, exactly under that condition. -/
theorem dispositions_nack_iff (messages : List CanonicalMessage)
    (responses : Option (List CanonicalMessage)) (failed : List Failure) (requestIds : List Nat)
    (hasDlqMiddleware : Bool) (hBatch : ∀ f ∈ failed, f.1 ∈ messages) :
    NacksFailures messages failed hasDlqMiddleware
        (dispositions messages responses failed requestIds hasDlqMiddleware) ↔
      DecisiveIsTransient messages failed hasDlqMiddleware := by
  constructor
  · rintro ⟨-, hNack⟩
    by_cases hDlq : hasDlqMiddleware = true
    · exact .inl hDlq
    refine .inr fun m e hFailed hTransient error hDecisive => ?_
    obtain ⟨position, hPos⟩ := mem_iff_getElem?.mp (hBatch _ hFailed)
    obtain ⟨error', hDecisive', hOut⟩ := dispositions_of_failed responses requestIds
      hasDlqMiddleware hPos hFailed
    obtain rfl := Option.some.inj (hDecisive.symm.trans hDecisive')
    have hThis := hNack position m e hPos hFailed (.inl hTransient)
    rw [hOut, Option.some.injEq, failureDisposition_eq_nack] at hThis
    exact hThis.resolve_right hDlq
  · intro hCondition
    refine ⟨dispositions_length .., fun position m e hPos hFailed hMust => ?_⟩
    obtain ⟨error, hDecisive, hOut⟩ := dispositions_of_failed responses requestIds
      hasDlqMiddleware hPos hFailed
    rw [hOut, Option.some.injEq, failureDisposition_eq_nack]
    rcases hCondition with hDlq | hCurable
    · exact .inr hDlq
    · rcases hMust with hTransient | hDlq
      · exact .inl (hCurable m e hFailed hTransient error hDecisive)
      · exact .inr hDlq

theorem dispositions_nack_two_failures : let one : CanonicalMessage := ⟨1, [1], ∅⟩
    let two : CanonicalMessage := ⟨2, [2], ∅⟩
    let failed : List Failure := [(one, .connection "gone"), (two, .nonRetryable "bad")]
    (∀ f ∈ failed, f.1 ∈ [one, two]) ∧
      dispositions [one, two] none failed [] false = [.nack, .ack] ∧
      NacksFailures [one, two] failed false (dispositions [one, two] none failed [] false) := by
  intro one two failed
  have hBatch : ∀ f ∈ failed, f.1 ∈ [one, two] := by decide
  refine ⟨hBatch, by decide, (dispositions_nack_iff [one, two] none failed [] false hBatch).mpr ?_⟩
  refine .inr fun m e hFailed hTransient error hDecisive => ?_
  rcases mem_cons.mp hFailed with hFirst | hRest
  · cases hFirst
    have hVal : decisive [one, two] failed one = some (.connection "gone") := by decide
    cases hVal.symm.trans hDecisive
    rfl
  · cases mem_singleton.mp hRest
    cases hTransient

/-- Two messages of one id: the permanent failure of the second acknowledges
the first, which failed for a curable reason. -/
theorem dispositions_ack_same_id : let one : CanonicalMessage := ⟨7, [1], ∅⟩
    let two : CanonicalMessage := ⟨7, [2], ∅⟩
    let failed : List Failure := [(one, .retryable "busy"), (two, .nonRetryable "bad")]
    (∀ f ∈ failed, f.1 ∈ [one, two]) ∧
      ¬NacksFailures [one, two] failed false (dispositions [one, two] none failed [] false) := by
  intro one two failed
  refine ⟨by decide, ?_⟩
  rintro ⟨-, hNack⟩
  have hFirst := hNack 0 one (.retryable "busy") rfl (by simp [failed]) (.inl rfl)
  cases hFirst

end MqBridge.Route
