import Mathlib.Algebra.GroupWithZero.Nat
import Mathlib.Data.List.Forall2
import Mathlib.Data.List.Nodup
import Mathlib.Data.List.Range
import MqBridge.Collections.Places
import MqBridge.Middleware.Buffer

/-! What buffered publishing guarantees. The queue keeps the order of arrival
and loses no message of a caller that waits; a result goes to the one message
of its batch that has the id; and a timer or a start of a flush is there
whenever messages wait and none is being sent. -/
namespace MqBridge.Buffer

open List Machine Function

section TakeBatch

variable {isClosed : Entry → Bool} {maxMessages : Nat}

theorem takeBatchLoop_spec (entries : List Entry) {pending batch rest : List Entry}
    (hIds : (entries.map Entry.messageId).Nodup)
    (hTake : takeBatchLoop isClosed maxMessages entries pending = (batch, rest)) :
    ∃ passed, pending = passed ++ rest ∧
      batch = entries ++ passed.filter (fun entry => !isClosed entry) ∧
      (batch.map Entry.messageId).Nodup ∧
      (batch = [] → 0 < maxMessages → rest = []) := by
  induction pending generalizing entries with
  | nil =>
    cases hTake
    exact ⟨[], rfl, (append_nil _).symm, hIds, fun _ _ => rfl⟩
  | cons front pending ih =>
    rw [takeBatchLoop] at hTake
    split_ifs at hTake with hFull hClosed hSeen
    · cases hTake
      refine ⟨[], rfl, (append_nil _).symm, hIds, fun hNone hMax => ?_⟩
      rw [hNone] at hFull
      exact absurd hFull (not_le.mpr hMax)
    · obtain ⟨passed, rfl, hBatch, hNodup, hRest⟩ := ih _ hIds hTake
      refine ⟨front :: passed, rfl, ?_, hNodup, hRest⟩
      rw [hBatch, filter_cons_of_neg (by simp [hClosed])]
    · cases hTake
      refine ⟨[], rfl, (append_nil _).symm, hIds, fun hNone => ?_⟩
      rw [hNone] at hSeen
      exact absurd hSeen not_mem_nil
    · have hNext : ((entries ++ [front]).map Entry.messageId).Nodup := by
        rw [map_append]
        exact Places.nodup_snoc hIds hSeen
      obtain ⟨passed, rfl, hBatch, hNodup, hRest⟩ := ih _ hNext hTake
      refine ⟨front :: passed, rfl, ?_, hNodup, hRest⟩
      rw [hBatch, filter_cons_of_pos (by simp [hClosed]), append_assoc]
      rfl

theorem takeBatch_spec {pending batch rest : List Entry} (hMax : 0 < maxMessages)
    (hTake : takeBatch isClosed pending maxMessages = (batch, rest)) :
    ∃ passed, pending = passed ++ rest ∧ batch = passed.filter (fun entry => !isClosed entry) ∧
      (batch.map Entry.messageId).Nodup ∧ (batch = [] → rest = []) := by
  obtain ⟨passed, hPend, hBatch, hNodup, hRest⟩ :=
    takeBatchLoop_spec [] nodup_nil hTake
  exact ⟨passed, hPend, hBatch, hNodup, fun hNone => hRest hNone hMax⟩

end TakeBatch

/-- The result of a message, as the inner publisher reports it for its id. -/
inductive Reflects (id : Nat) : SendResult → EntryResult → Prop where
  | ack : Reflects id (.ok .ack) (.ok .ack)
  | failed {responses : Option (List CanonicalMessage)} {failed : List Failure}
      {message : CanonicalMessage} {error : PublisherError} (hFailed : (message, error) ∈ failed)
      (hId : message.messageId = id) : Reflects id (.ok (.partly responses failed)) (.error error)
  | response {responses : List CanonicalMessage} {failed : List Failure}
      {response : CanonicalMessage} (hNone : ∀ failure ∈ failed, failure.1.messageId ≠ id)
      (hResponse : response ∈ responses) (hId : response.messageId = id) :
      Reflects id (.ok (.partly (some responses) failed)) (.ok (.response response))
  | accepted {responses : Option (List CanonicalMessage)} {failed : List Failure}
      (hNone : ∀ failure ∈ failed, failure.1.messageId ≠ id)
      (hSilent : ∀ response ∈ responses.getD [], response.messageId ≠ id) :
      Reflects id (.ok (.partly responses failed)) (.ok .ack)
  | error (error : PublisherError) :
      Reflects id (.error error) (.error (rebuildError error error.toText))

section Distribute

def resultOf (failed : Nat → Option PublisherError) (responses : Nat → Option CanonicalMessage)
    (id : Nat) : EntryResult :=
  match failed id with
  | some error => .error error
  | none =>
    match responses id with
    | some response => .ok (.response response)
    | none => .ok .ack

variable (failed : Nat → Option PublisherError) (responses : Nat → Option CanonicalMessage)

theorem resultOf_update {entry : Entry} {rest : List Entry}
    (hNew : entry.messageId ∉ rest.map Entry.messageId) (error : Option PublisherError)
    (response : Option CanonicalMessage) :
    (rest.map fun other => (other.number, resultOf (update failed entry.messageId error)
      (update responses entry.messageId response) other.messageId)) =
    rest.map fun other => (other.number, resultOf failed responses other.messageId) := by
  refine map_congr_left fun other hMem => ?_
  have hNe : other.messageId ≠ entry.messageId := fun hSame =>
    hNew (hSame ▸ mem_map_of_mem hMem)
  rw [resultOf, resultOf, update_of_ne hNe, update_of_ne hNe]

/-- The entries of a batch have different ids, so that what one takes out of
the maps is nothing another would find there. -/
theorem distributeEach_eq {entries : List Entry}
    (hIds : (entries.map Entry.messageId).Nodup) : distributeEach failed responses entries =
      entries.map fun entry => (entry.number, resultOf failed responses entry.messageId) := by
  induction entries generalizing failed responses with
  | nil => rfl
  | cons entry rest ih =>
    rw [map_cons, nodup_cons] at hIds
    obtain ⟨hNew, hIds⟩ := hIds
    rw [distributeEach, map_cons]
    split
    case h_1 error hFailed =>
      have hSame := resultOf_update failed responses hNew
        (some (rebuildError error error.toText)) (responses entry.messageId)
      rw [update_eq_self] at hSame
      rw [ih _ _ hIds, hSame, resultOf, hFailed]
    case h_2 hFailed =>
      split
      case h_1 response hResponse =>
        have hSame := resultOf_update failed responses hNew
          (failed entry.messageId) none
        rw [update_eq_self] at hSame
        rw [ih _ _ hIds, hSame, resultOf, hFailed, hResponse]
      case h_2 hResponse => rw [ih _ _ hIds, resultOf, hFailed, hResponse]

theorem reflects_resultOf (responses : Option (List CanonicalMessage)) (failed : List Failure)
    (id : Nat) : Reflects id (.ok (.partly responses failed))
      (resultOf (failedMap failed) (responseMap (responses.getD [])) id) := by
  unfold resultOf
  split
  case h_1 error hError =>
    obtain ⟨⟨message, _⟩, hFailed, hId, rfl⟩ := LastOf.exists_of_collect hError
    exact .failed hFailed hId
  case h_2 hNone =>
    have hFailed := LastOf.ne_of_collect hNone
    split
    case h_1 response hSome =>
      obtain ⟨_, hResponse, hId, rfl⟩ := LastOf.exists_of_collect hSome
      cases responses with
      | none => cases hResponse
      | some responses => exact .response hFailed hResponse hId
    case h_2 hSilent => exact .accepted hFailed (LastOf.ne_of_collect hSilent)

/-- Every entry of a batch gets one result, which is its own. -/
theorem distribute_spec {entries : List Entry} (hIds : (entries.map Entry.messageId).Nodup)
    (result : SendResult) : ∃ own : Entry → EntryResult,
      distributeBatchResults entries result = entries.map (fun entry => (entry.number, own entry)) ∧
      ∀ entry, Reflects entry.messageId result (own entry) := by
  rcases result with error | ⟨⟩ | ⟨responses, failed⟩
  · exact ⟨_, rfl, fun _ => .error error⟩
  · exact ⟨_, rfl, fun _ => .ack⟩
  · exact ⟨_, distributeEach_eq _ _ hIds, fun entry => reflects_resultOf responses failed _⟩

end Distribute

/-- The reply of a call is made of the results of its own messages. -/
def State.Answered (s : State) (caller : Caller) (reply : Reply) : Prop :=
  ∃ results, List.Forall₂
    (fun entry result => (entry.number, result) ∈ s.answers) caller.entries results ∧
    caller.reply results = some reply

/-- No message is lost or sent twice, and replies are in order. -/
structure Keeps (s : State) : Prop where
  numbered : s.arrived.map Entry.number = List.range s.arrived.length
  order : (s.sent.flatten ++ s.pending).Sublist s.arrived
  sent : s.sent = s.results.map Prod.fst ++
    (s.flights.filter fun flight => !flight.distributed).map Flight.entries
  ids : ∀ batch ∈ s.sent, (batch.map Entry.messageId).Nodup
  alone : s.flights.length ≤ 1
  running : s.flushInProgress = !s.flights.isEmpty
  kept : ∀ entry ∈ s.arrived, entry ∈ s.sent.flatten ∨ entry ∈ s.pending ∨ s.isClosed entry = true
  owners : ∀ (i : Nat) (caller : Caller), s.callers[i]? = some caller →
    ∀ entry ∈ caller.entries, entry.caller = i ∧ entry ∈ s.arrived
  callers : ∀ entry ∈ s.arrived, entry.caller < s.callers.length
  asked : ∀ caller ∈ s.callers, caller.isBatch = false → caller.entries ≠ []
  replies : ∀ caller ∈ s.callers, ∀ reply, caller.status = .answered reply → s.Answered caller reply
  waiters : s.flushWaiters ≠ [] → s.pending ≠ [] ∨ s.flights ≠ []

/-- Messages that wait while none is being sent have a timer that will be
heeded, or a flush about to start. -/
def State.Wakes (s : State) : Prop :=
  s.pending ≠ [] → s.flights = [] → s.timerGeneration ∈ s.timers ∨ 0 < s.starts

theorem keeps_new : Keeps new where
  numbered := rfl
  order := List.Sublist.refl _
  sent := rfl
  ids := nofun
  alone := Nat.zero_le _
  running := rfl
  kept := nofun
  owners := nofun
  callers := nofun
  asked := nofun
  replies := nofun
  waiters := nofun

theorem State.wakes_spawnTimer (s : State) : s.spawnTimer.Wakes :=
  fun _ _ => .inl mem_concat_self

theorem State.wakes_tryStartFlush (s : State) : s.tryStartFlush.Wakes :=
  fun _ _ => .inr (Nat.succ_pos _)

namespace Keeps

variable {core : BufferCore} {s : State}

section

variable (h : Keeps s)

include h

theorem idle_iff : s.flushInProgress = false ↔ s.flights = [] := by
  rw [h.running, Bool.not_eq_false', List.isEmpty_iff]

theorem quiet_iff :
    (s.pending.isEmpty && !s.flushInProgress) = true ↔ s.pending = [] ∧ s.flights = [] := by
  rw [Bool.and_eq_true, List.isEmpty_iff, Bool.not_eq_true', h.idle_iff]

theorem spawnTimer : Keeps s.spawnTimer := { h with }

theorem tryStartFlush : Keeps s.tryStartFlush := { h with }

end

theorem numbers_entriesOf (s : State) (messages : List CanonicalMessage) :
    (s.entriesOf messages).map Entry.number =
      (List.range messages.length).map (s.arrived.length + ·) := by
  rw [State.entriesOf, map_map, range_eq_range', ← zipIdx_map_snd 0 messages, map_map]
  rfl

variable {messages : List CanonicalMessage}

theorem caller_of_mem_entriesOf {entry : Entry}
    (hMem : entry ∈ s.entriesOf messages) : entry.caller = s.callers.length := by
  obtain ⟨place, -, rfl⟩ := mem_map.mp hMem
  rfl

/-- The entries of a new call come last. -/
theorem push (h : Keeps s) (isBatch : Bool) (messages : List CanonicalMessage) (status : Status)
    (hAsked : isBatch = false → messages ≠ []) (hReply : ∀ reply, status = .answered reply →
      s.Answered ⟨isBatch, s.entriesOf messages, status⟩ reply) :
    Keeps { s with
      pending := s.pending ++ s.entriesOf messages
      arrived := s.arrived ++ s.entriesOf messages
      callers := s.callers ++ [⟨isBatch, s.entriesOf messages, status⟩] } := by
  refine { h with
    numbered := ?numbered
    order := ?order
    kept := ?kept
    owners := ?owners
    callers := ?callers
    asked := ?asked
    replies := Places.forall_mem_snoc h.replies hReply
    waiters := ?waiters }
  case numbered =>
    rw [map_append, h.numbered, numbers_entriesOf, length_append, range_add]
    simp [State.entriesOf]
  case order =>
    rw [← append_assoc]
    exact h.order.append (.refl _)
  case kept =>
    refine forall_mem_append.mpr ⟨fun entry hMem => ?_, fun entry hMem => ?_⟩
    · rcases h.kept entry hMem with hSent | hPend | hClosed
      · exact .inl hSent
      · exact .inr (.inl (mem_append_left _ hPend))
      · refine .inr (.inr ?_)
        rw [State.isClosed] at hClosed ⊢
        rwa [getElem?_append_left (h.callers entry hMem)]
    · exact .inr (.inl (mem_append_right _ hMem))
  case owners =>
    intro i caller hCaller entry hMem
    rcases Places.getElem?_snoc_eq_some.mp hCaller with hOld | ⟨rfl, rfl⟩
    · obtain ⟨hOwner, hArrived⟩ := h.owners i caller hOld entry hMem
      exact ⟨hOwner, mem_append_left _ hArrived⟩
    · exact ⟨caller_of_mem_entriesOf hMem, mem_append_right _ hMem⟩
  case callers =>
    rw [length_append]
    refine forall_mem_append.mpr ⟨fun entry hMem => ?_, fun entry hMem => ?_⟩
    · exact Nat.lt_succ_of_lt (h.callers entry hMem)
    · rw [caller_of_mem_entriesOf hMem]
      exact Nat.lt_succ_self _
  case asked =>
    refine Places.forall_mem_snoc h.asked fun hSingle hNone => hAsked hSingle ?_
    simpa [State.entriesOf] using hNone
  case waiters =>
    intro hWaiters
    exact (h.waiters hWaiters).imp_left fun hPend => append_ne_nil_of_left_ne_nil hPend _

theorem enqueueMessages (h : Keeps s) (hWakes : s.Wakes) (isBatch : Bool)
    (hMsgs : messages ≠ []) :
    Keeps (s.enqueueMessages core isBatch messages) ∧
      (s.enqueueMessages core isBatch messages).Wakes := by
  have hPushed := h.push isBatch messages .waiting (fun _ => hMsgs) nofun
  unfold State.enqueueMessages
  simp only
  split_ifs with hFull hFirst
  · exact ⟨hPushed.tryStartFlush, State.wakes_tryStartFlush _⟩
  · exact ⟨hPushed.spawnTimer, State.wakes_spawnTimer _⟩
  · rw [h.quiet_iff] at hFirst
    exact ⟨hPushed, fun _ hFlights => hWakes (fun hEmpty => hFirst ⟨hEmpty, hFlights⟩) hFlights⟩

variable {index : Nat}

variable (h : Keeps s)

include h

/-- A call that waits gets another status. -/
theorem setStatus {caller : Caller}
    (hCaller : s.callers[index]? = some caller) (hWait : caller.status = .waiting)
    (status : Status) (hReply : ∀ reply, status = .answered reply → s.Answered caller reply) :
    Keeps { s with callers := s.callers.set index { caller with status := status } } := by
  refine { h with kept := ?_, owners := ?_, callers := ?_, asked := ?_, replies := ?_ }
  · intro entry hMem
    refine (h.kept entry hMem).imp_right fun hRest => hRest.imp_right fun hClosed => ?_
    have hOther : entry.caller ≠ index := by
      intro hSame
      rw [State.isClosed, hSame, hCaller] at hClosed
      simp [hWait] at hClosed
    rw [State.isClosed] at hClosed ⊢
    rwa [getElem?_set_ne hOther.symm]
  · intro i other hOther entry hMem
    rcases (Places.getElem?_set_eq_some hCaller).mp hOther with ⟨rfl, rfl⟩ | ⟨-, hOther⟩
    · exact h.owners i caller hCaller entry hMem
    · exact h.owners i other hOther entry hMem
  · rw [length_set]
    exact h.callers
  · refine Places.forall_mem_set h.asked ?_ index
    exact h.asked caller (mem_of_getElem? hCaller)
  · refine Places.forall_mem_set h.replies ?_ index
    exact hReply

theorem startFlush : Keeps (s.startFlush core) ∧ (s.startFlush core).Wakes := by
  unfold State.startFlush
  split
  case isTrue hBusy =>
    refine ⟨h, fun hPend hFlights => ?_⟩
    rw [h.idle_iff.mpr hFlights, Bool.false_or, List.isEmpty_iff] at hBusy
    exact absurd hBusy hPend
  case isFalse hFree =>
    have hIdle : s.flights = [] := h.idle_iff.mp (by simp_all)
    rcases hTake : takeBatch s.isClosed s.pending core.maxMessages with ⟨batch, rest⟩
    obtain ⟨passed, hPend, hBatch, hIds, hRest⟩ := takeBatch_spec core.positive hTake
    have hKept : ∀ entry ∈ s.arrived,
        entry ∈ s.sent.flatten ++ batch ∨ entry ∈ rest ∨ s.isClosed entry = true := by
      intro entry hMem
      rcases h.kept entry hMem with hSent | hWaits | hClosed
      · exact .inl (mem_append_left _ hSent)
      · rw [hPend, mem_append] at hWaits
        rcases hWaits with hPassed | hRest
        · cases hClosed : s.isClosed entry with
          | true => exact .inr (.inr rfl)
          | false =>
            rw [hBatch]
            exact .inl (mem_append_right _ (mem_filter.mpr ⟨hPassed, by rw [hClosed]; rfl⟩))
        · exact .inr (.inl hRest)
      · exact .inr (.inr hClosed)
    have hOrder : (s.sent.flatten ++ (batch ++ rest)).Sublist s.arrived := by
      refine trans ?_ h.order
      rw [hPend, hBatch]
      exact (Sublist.refl _).append (filter_sublist.append (.refl _))
    by_cases hNone : batch = []
    · -- every caller of a waiting message has given up
      subst hNone
      have hRest := hRest rfl
      subst hRest
      rw [append_nil] at hKept
      exact ⟨{ h with order := hOrder, kept := hKept, waiters := nofun }, nofun⟩
    · have hSome : batch.isEmpty = false := by simpa using hNone
      simp only [hSome, Bool.false_eq_true, if_false, hIdle]
      refine ⟨{ h with order := ?_, sent := ?_, ids :=
        Places.forall_mem_snoc h.ids hIds, alone := le_refl 1,
                       running := rfl, kept :=
                         ?_, waiters := fun _ => .inr (cons_ne_nil _ _) }, nofun⟩
      · rw [flatten_append, flatten_singleton, append_assoc]
        exact hOrder
      · have hSent := h.sent
        rw [hIdle] at hSent
        rw [hSent]
        simp
      · rw [flatten_append, flatten_singleton]
        exact hKept

variable {flight : Flight}

variable (hFlight : s.flights[index]? = some flight)

include hFlight

/-- There is only one flight, if any. -/
theorem flights_eq : index = 0 ∧ s.flights = [flight] := by
  obtain ⟨hLt, hGet⟩ := List.getElem?_eq_some_iff.mp hFlight
  have hAlone := h.alone
  obtain ⟨only, hOnly⟩ := length_eq_one_iff.mp (by omega : s.flights.length = 1)
  have hIdx : index = 0 := by omega
  subst hIdx
  simp only [hOnly] at hGet
  exact ⟨rfl, hGet ▸ hOnly⟩

theorem distribute (hOpen : flight.distributed = false) (result : SendResult) :
    Keeps { s with
      flights := s.flights.set index { flight with distributed := true }
      results := s.results ++ [(flight.entries, result)] } := by
  obtain ⟨rfl, hFlights⟩ := h.flights_eq hFlight
  have hSent := h.sent
  refine { h with sent := ?_, alone := ?_, running := ?_, replies := ?_, waiters := ?_ }
  · rw [hSent, hFlights]
    simp [hOpen]
  · rw [length_set]
    exact h.alone
  · exact h.running.trans (by rw [hFlights]; rfl)
  · intro caller hMem reply hStatus
    obtain ⟨results, hResults, hReply⟩ := h.replies caller hMem reply hStatus
    refine ⟨results, hResults.imp fun entry result hAnswer => ?_, hReply⟩
    rw [State.answers, flatMap_append]
    exact mem_append_left _ hAnswer
  · intro hWaiters
    rw [hFlights]
    exact .inr (cons_ne_nil _ _)

theorem reset (hDone : flight.distributed = true) :
    Keeps (s.reset core index) ∧ (s.reset core index).Wakes := by
  obtain ⟨rfl, hFlights⟩ := h.flights_eq hFlight
  have hErased : s.flights.eraseIdx 0 = [] := by rw [hFlights]; rfl
  have hSent : s.sent = s.results.map Prod.fst ++ [] := by
    rw [h.sent, hFlights]
    simp [hDone]
  unfold State.reset
  simp only [hErased]
  split
  case isTrue hEmpty =>
    refine ⟨{ h with sent := hSent, alone := Nat.zero_le _, running := rfl, waiters := nofun }, ?_⟩
    exact fun hPend => absurd (isEmpty_iff.mp hEmpty) hPend
  case isFalse hMore =>
    have hNext : Keeps { s with flushInProgress := false, flights := [] } := by
      refine { h with
        sent := hSent
        alone := Nat.zero_le _
        running := rfl
        waiters := fun _ => .inl ?_ }
      exact fun hEmpty => hMore (isEmpty_iff.mpr hEmpty)
    split
    · exact ⟨hNext.tryStartFlush, State.wakes_tryStartFlush _⟩
    · exact ⟨hNext.spawnTimer, State.wakes_spawnTimer _⟩

end Keeps

theorem exists_mapM {A B : Type} {f : A → Option B} {list : List A}
    (h : ∀ a ∈ list, ∃ b, f a = some b) : ∃ results, list.mapM f = some results := by
  induction list with
  | nil => exact ⟨[], rfl⟩
  | cons first rest ih =>
    obtain ⟨b, hFirst⟩ := h first mem_cons_self
    obtain ⟨results, hRest⟩ := ih fun a hMem => h a (mem_cons_of_mem _ hMem)
    exact ⟨b :: results, by simp [hFirst, hRest]⟩

variable {core : BufferCore} {s t : State}

theorem step_keeps {action : Action} (h : Keeps s) (hWakes : s.Wakes)
    (hStep : step core s action = some t) : Keeps t ∧ t.Wakes := by
  cases action with
    simp only [step, Option.bind_eq_bind, Option.bind_eq_some_iff, Option.ite_none_left_eq_some,
      Option.ite_none_right_eq_some, Option.some.injEq] at hStep
  | send message =>
    subst hStep
    exact h.enqueueMessages hWakes false (cons_ne_nil _ _)
  | sendBatch messages =>
    split at hStep
    · cases hStep
      have hEmpty := h.push true [] (.answered (.batch (.ok .ack))) nofun fun reply hReply => by
        cases hReply
        exact ⟨[], .nil, rfl⟩
      refine ⟨?_, hWakes⟩
      simpa only [State.entriesOf, zipIdx_nil, map_nil, append_nil] using hEmpty
    case isFalse hSome =>
      cases hStep
      exact h.enqueueMessages hWakes true fun hNone => hSome (isEmpty_iff.mpr hNone)
  | collect index =>
    obtain ⟨caller, hCaller, hWait, results, hResults, reply, hReply, rfl⟩ := hStep
    refine ⟨h.setStatus hCaller hWait _ fun other hOther => ?_, hWakes⟩
    cases hOther
    refine ⟨results, (Places.forall₂_of_mapM hResults).imp fun entry result hLookup => ?_, hReply⟩
    obtain ⟨before, after, hSplit, -⟩ := lookup_eq_some_iff.mp hLookup
    have hMem : (entry.number, result) ∈ s.answers := hSplit ▸ mem_append_right _ mem_cons_self
    exact hMem
  | giveUp index =>
    obtain ⟨caller, hCaller, hWait, rfl⟩ := hStep
    exact ⟨h.setStatus hCaller hWait _ nofun, hWakes⟩
  | flush id =>
    obtain ⟨-, hStep⟩ := hStep
    split_ifs at hStep with hNothing
    · cases hStep
      exact ⟨{ h with }, hWakes⟩
    · cases hStep
      refine ⟨{ h with waiters := fun _ => ?_ }, State.wakes_tryStartFlush _⟩
      rw [h.quiet_iff] at hNothing
      exact not_and_or.mp hNothing
  | onTimer generation =>
    obtain ⟨-, hStep⟩ := hStep
    split_ifs at hStep with hHeeded
    · cases hStep
      exact ⟨{ h with }, State.wakes_tryStartFlush _⟩
    · cases hStep
      refine ⟨{ h with }, fun hPend hFlights => (hWakes hPend hFlights).imp_left fun hLive =>
        ?_⟩
      refine (mem_erase_of_ne fun hSame => hHeeded ?_).mpr hLive
      have hSame : s.timerGeneration = generation := hSame
      have hPend : s.pending ≠ [] := hPend
      simp [hSame, hPend, h.idle_iff.mpr hFlights]
  | maybeFlush =>
    obtain ⟨-, rfl⟩ := hStep
    exact Keeps.startFlush { h with }
  | distribute index result =>
    obtain ⟨flight, hFlight, hOpen, rfl⟩ := hStep
    refine ⟨h.distribute hFlight (Bool.eq_false_of_not_eq_true hOpen) result, fun _ hNone => ?_⟩
    have hLen := congrArg length hNone
    rw [length_set, (h.flights_eq hFlight).2] at hLen
    cases hLen
  | reset index =>
    obtain ⟨flight, hFlight, hDone, rfl⟩ := hStep
    exact h.reset hFlight hDone

def State.work (s : State) : Nat :=
  4 * s.pending.length + 2 * s.timers.length + s.starts +
    (s.flights.map fun flight => if flight.distributed then 3 else 4).sum

theorem startFlush_work (core : BufferCore) (s : State) : (s.startFlush core).work ≤ s.work := by
  unfold State.startFlush
  split
  · exact le_refl _
  · rcases hTake : takeBatch s.isClosed s.pending core.maxMessages with ⟨batch, rest⟩
    obtain ⟨passed, hPend, hBatch, -, -⟩ := takeBatch_spec core.positive hTake
    have hLen : s.pending.length = passed.length + rest.length := by
      rw [hPend, length_append]
    dsimp only
    split
    · simp only [State.work]
      omega
    case isFalse hSome =>
      have hPassed : passed.length ≠ 0 := by
        intro hNone
        rw [length_eq_zero_iff.mp hNone] at hBatch
        exact hSome (hBatch ▸ rfl)
      simp only [State.work, map_append, map_singleton, sum_append,
        sum_singleton, Bool.false_eq_true, if_false]
      omega

theorem step_work {action : Action} (h : Keeps s)
    (hTask : action.IsTask) (hStep : step core s action = some t) : t.work < s.work := by
  cases action with
    simp only [step, Option.bind_eq_bind, Option.bind_eq_some_iff, Option.ite_none_left_eq_some,
      Option.ite_none_right_eq_some, Option.some.injEq] at hStep
  | send | sendBatch | collect | giveUp | flush => cases hTask
  | onTimer generation =>
    obtain ⟨hTimer, hStep⟩ := hStep
    have hLen := length_erase_of_mem hTimer
    have hPos := length_pos_of_mem hTimer
    split_ifs at hStep
    · cases hStep
      simp only [State.work, State.tryStartFlush]
      omega
    · cases hStep
      simp only [State.work]
      omega
  | maybeFlush =>
    obtain ⟨hStarts, rfl⟩ := hStep
    refine lt_of_le_of_lt (startFlush_work core _) ?_
    simp only [State.work]
    omega
  | distribute index result =>
    obtain ⟨flight, hFlight, hOpen, rfl⟩ := hStep
    obtain ⟨rfl, hFlights⟩ := h.flights_eq hFlight
    simp [State.work, hFlights, hOpen]
  | reset index =>
    obtain ⟨flight, hFlight, hDone, rfl⟩ := hStep
    obtain ⟨rfl, hFlights⟩ := h.flights_eq hFlight
    simp only [State.reset]
    split_ifs <;>
    · simp only [State.work, State.tryStartFlush, State.spawnTimer, hFlights, hDone,
        eraseIdx_cons_zero, length_append, length_singleton, map_cons, sum_cons, if_true]
      omega

theorem run_work {tasks : List Action} (h : Keeps s)
    (hWakes : s.Wakes) (hTasks : ∀ action ∈ tasks, action.IsTask)
    (hRun : run (step core) s tasks = some t) : tasks.length + t.work ≤ s.work := by
  induction tasks generalizing s with
  | nil =>
    cases hRun
    exact (zero_add _).le
  | cons action rest ih =>
    obtain ⟨next, hStep, hRest⟩ := run_cons_eq_some.mp hRun
    have hLess := step_work h (hTasks action mem_cons_self) hStep
    obtain ⟨hKeeps, hWakes⟩ := step_keeps h hWakes hStep
    have hLater := ih hKeeps hWakes (fun other hMem => hTasks other (mem_cons_of_mem _ hMem)) hRest
    rw [length_cons]
    omega

namespace Keeps

variable {core : BufferCore} {s : State}

variable (h : Keeps s)

include h

theorem ids_of_mem_results {batch : List Entry} {result : SendResult}
    (hMem : (batch, result) ∈ s.results) : batch ∈ s.sent ∧ (batch.map Entry.messageId).Nodup := by
  have hSent : batch ∈ s.sent := by
    rw [h.sent]
    exact mem_append_left _ (mem_map_of_mem hMem)
  exact ⟨hSent, h.ids batch hSent⟩

/-- A message is answered at most once. -/
theorem nodup_answers : (s.answers.map Prod.fst).Nodup := by
  have hNumbers : s.answers.map Prod.fst = (s.results.map Prod.fst).flatten.map Entry.number := by
    rw [State.answers, map_flatMap, map_flatten, map_map]
    refine flatMap_congr fun entry hMem => ?_
    obtain ⟨own, hOwn, -⟩ := distribute_spec (h.ids_of_mem_results hMem).2 entry.2
    rw [hOwn, map_map]
    rfl
  have hSub :
      ((s.results.map Prod.fst).flatten.map Entry.number).Sublist (s.arrived.map Entry.number) := by
    refine .map _ (trans ?_ h.order)
    rw [h.sent, flatten_append, append_assoc]
    exact sublist_append_left _ _
  rw [hNumbers]
  refine .sublist hSub ?_
  rw [h.numbered]
  exact nodup_range

/-- A result is what the inner publisher has reported for the id of its message. -/
theorem own {number : Nat} {result : EntryResult} (hMem : (number, result) ∈ s.answers) :
    ∃ entry batch inner, entry.number = number ∧ entry ∈ s.arrived ∧ entry ∈ batch ∧
      (batch, inner) ∈ s.results ∧ (batch.map Entry.messageId).Nodup ∧
      Reflects entry.messageId inner result := by
  obtain ⟨⟨batch, inner⟩, hRes, hMem⟩ := mem_flatMap.mp hMem
  obtain ⟨hSent, hIds⟩ := h.ids_of_mem_results hRes
  obtain ⟨own, hOwn, hReflects⟩ := distribute_spec hIds inner
  rw [hOwn] at hMem
  obtain ⟨entry, hEntry, hPair⟩ := mem_map.mp hMem
  cases hPair
  have hArrived : entry ∈ s.arrived :=
    h.order.subset (mem_append_left _ (mem_flatten.mpr ⟨batch, hSent, hEntry⟩))
  exact ⟨entry, batch, inner, rfl, hArrived, hEntry, hRes, hIds, hReflects entry⟩

/-- A message of a call that waits is in the queue, being sent, or answered. -/
theorem whereabouts {caller : Caller} (hCaller : caller ∈ s.callers)
    (hWait : caller.status = .waiting) {entry : Entry} (hEntry : entry ∈ caller.entries) :
    entry ∈ s.pending ∨
      (∃ flight ∈ s.flights, flight.distributed = false ∧ entry ∈ flight.entries) ∨
      ∃ result, (entry.number, result) ∈ s.answers := by
  obtain ⟨i, hAt⟩ := getElem?_of_mem hCaller
  obtain ⟨hOwner, hArrived⟩ := h.owners i caller hAt entry hEntry
  rcases h.kept entry hArrived with hSent | hPend | hClosed
  · obtain ⟨batch, hBatch, hMem⟩ := mem_flatten.mp hSent
    rw [h.sent, mem_append] at hBatch
    rcases hBatch with hDone | hFlying
    · obtain ⟨⟨_, inner⟩, hRes, rfl⟩ := mem_map.mp hDone
      obtain ⟨own, hOwn, -⟩ := distribute_spec (h.ids_of_mem_results hRes).2 inner
      refine .inr (.inr ⟨own entry, mem_flatMap.mpr ⟨_, hRes, ?_⟩⟩)
      rw [hOwn]
      exact mem_map_of_mem hMem
    · obtain ⟨flight, hFlight, rfl⟩ := mem_map.mp hFlying
      rw [mem_filter, Bool.not_eq_true'] at hFlight
      exact .inr (.inl ⟨flight, hFlight.1, hFlight.2, hMem⟩)
  · exact .inl hPend
  · rw [State.isClosed, hOwner, hAt] at hClosed
    simp [hWait] at hClosed

/-- A call that waits and has all its results can return. -/
theorem collect_enabled {i : Nat} {caller : Caller} (hCaller : s.callers[i]? = some caller)
    (hWait : caller.status = .waiting)
    (hResults : ∀ entry ∈ caller.entries, ∃ result, (entry.number, result) ∈ s.answers) :
    ∃ t, step core s (.collect i) = some t := by
  have hLookups :
      ∀ entry ∈ caller.entries, ∃ result, s.answers.lookup entry.number = some result := by
    intro entry hEntry
    obtain ⟨result, hMem⟩ := hResults entry hEntry
    refine Option.ne_none_iff_exists'.mp fun hNone => ?_
    simpa using lookup_eq_none_iff.mp hNone _ hMem
  obtain ⟨results, hMapM⟩ := exists_mapM hLookups
  have hReply : ∃ reply, caller.reply results = some reply := by
    rw [Caller.reply]
    split
    · exact ⟨_, rfl⟩
    case isFalse hSingle =>
      have hLen := (Places.forall₂_of_mapM hMapM).length_eq
      have hEntries :=
        h.asked caller (mem_of_getElem? hCaller) (Bool.eq_false_of_not_eq_true hSingle)
      have hSome : results ≠ [] := by
        rintro rfl
        exact hEntries (length_eq_zero_iff.mp hLen)
      exact ⟨_, by rw [getLast?_eq_some_getLast hSome]; rfl⟩
  obtain ⟨reply, hReply⟩ := hReply
  simp [step, hCaller, hWait, hMapM, hReply]

end Keeps

/-- What callers can rely on, in a state that was reached. -/
structure Delivers (core : BufferCore) (s : State) : Prop where
  /-- Messages are sent in the order of their arrival, none of them twice. -/
  order : s.sent.flatten.Sublist s.arrived
  numbered : s.arrived.map Entry.number = List.range s.arrived.length
  alone : s.flights.length ≤ 1
  once : (s.answers.map Prod.fst).Nodup
  own : ∀ number result, (number, result) ∈ s.answers → ∃ entry batch inner,
    entry.number = number ∧ entry ∈ s.arrived ∧ entry ∈ batch ∧ (batch, inner) ∈ s.results ∧
    (batch.map Entry.messageId).Nodup ∧ Reflects entry.messageId inner result
  replies : ∀ caller ∈ s.callers, ∀ reply, caller.status = .answered reply → s.Answered caller reply
  whereabouts : ∀ caller ∈ s.callers, caller.status = .waiting → ∀ entry ∈ caller.entries,
    entry ∈ s.pending ∨
      (∃ flight ∈ s.flights, flight.distributed = false ∧ entry ∈ flight.entries) ∨
      ∃ result, (entry.number, result) ∈ s.answers
  wakes : s.pending ≠ [] → s.flushInProgress = false → s.timerGeneration ∈ s.timers ∨ 0 < s.starts
  /-- The tasks come to an end. -/
  ends : ∀ tasks t, (∀ action ∈ tasks, action.IsTask) → run (step core) s tasks = some t →
    tasks.length ≤ s.work
  /-- When no task is left, no `flush` waits and every call can return. -/
  returns : (∀ action, action.IsTask → step core s action = none) → s.flushWaiters = [] ∧
    ∀ (i : Nat) (caller : Caller), s.callers[i]? = some caller → caller.status = .waiting →
      ∃ t, step core s (.collect i) = some t

theorem nothing_left {s : State} (hWakes : s.Wakes)
    (hStuck : ∀ action, action.IsTask → step core s action = none) :
    s.pending = [] ∧ s.flights = [] := by
  have hTimers : s.timers = [] := by
    refine eq_nil_iff_forall_not_mem.mpr fun generation hMem => ?_
    have hNone := hStuck (.onTimer generation) trivial
    simp only [step, if_pos hMem] at hNone
    split at hNone <;> cases hNone
  have hStarts : s.starts = 0 := by
    by_contra hSome
    have hNone := hStuck .maybeFlush trivial
    simp [step, hSome] at hNone
  have hFlights : s.flights = [] := by
    refine eq_nil_iff_forall_not_mem.mpr fun flight hMem => ?_
    obtain ⟨index, hFlight⟩ := getElem?_of_mem hMem
    cases hDone : flight.distributed with
    | false => simpa [step, hFlight, hDone] using hStuck (.distribute index (.ok .ack)) trivial
    | true => simpa [step, hFlight, hDone] using hStuck (.reset index) trivial
  refine ⟨?_, hFlights⟩
  by_contra hPend
  rcases hWakes hPend hFlights with hTimer | hStart
  · rw [hTimers] at hTimer
    exact not_mem_nil hTimer
  · omega

theorem delivers_of_keeps {s : State} (h : Keeps s) (hWakes : s.Wakes) : Delivers core s where
  order := (sublist_append_left _ _).trans h.order
  numbered := h.numbered
  alone := h.alone
  once := h.nodup_answers
  own _ _ hMem := h.own hMem
  replies := h.replies
  whereabouts _ hCaller hWait _ hEntry := h.whereabouts hCaller hWait hEntry
  wakes hPend hIdle := hWakes hPend (h.idle_iff.mp hIdle)
  ends _ _ hTasks hRun := (Nat.le_add_right _ _).trans (run_work h hWakes hTasks hRun)
  returns hStuck := by
    obtain ⟨hPend, hFlights⟩ := nothing_left hWakes hStuck
    constructor
    · by_contra hWaiters
      rcases h.waiters hWaiters with hSome | hSome
      · exact hSome hPend
      · exact hSome hFlights
    · intro i caller hCaller hWait
      refine h.collect_enabled hCaller hWait fun entry hEntry => ?_
      rcases h.whereabouts (mem_of_getElem? hCaller) hWait hEntry
        with hMem | ⟨flight, hMem, -⟩ | hRes
      · rw [hPend] at hMem
        cases hMem
      · rw [hFlights] at hMem
        cases hMem
      · exact hRes

/-- Whatever calls are made, timers run out and the inner publisher answers. -/
theorem buffer_delivers (core : BufferCore) {actions : List Action} {state : State}
    (hRun : run (step core) new actions = some state) : Delivers core state := by
  have h : Keeps state ∧ state.Wakes :=
    invariant_of_run (fun _ _ _ h => step_keeps h.1 h.2) ⟨keeps_new, nofun⟩ hRun
  exact delivers_of_keeps h.1 h.2

/-- Two calls send messages with one id, the third waits behind them. They are
sent one after the other, and each gets the result of its own batch. -/
theorem buffer_delivers_repeated_id : ∃ state, run (step ⟨2, by decide⟩) new
        [.send ⟨7, [1], ∅⟩, .send ⟨7, [2], ∅⟩, .maybeFlush, .sendBatch [⟨8, [3], ∅⟩],
          .distribute 0 (.ok (.partly none [(⟨7, [1], ∅⟩, .retryable "busy")])), .reset 0,
            .maybeFlush,
          .distribute 0 (.ok .ack), .collect 0, .collect 1, .collect 2] = some state ∧
      state.callers.map Caller.status =
        [.answered (.sent (.error (.retryable "busy"))), .answered (.sent (.ok .ack)),
          .answered (.batch (.ok .ack))] ∧
      Delivers ⟨2, by decide⟩ state := by
  refine exists_run (fun state => state.callers.map Caller.status =
    [.answered (.sent (.error (.retryable "busy"))), .answered (.sent (.ok .ack)),
      .answered (.batch (.ok .ack))]) (by decide) fun state hRun hCallers => ?_
  exact ⟨hCallers, buffer_delivers _ hRun⟩

end MqBridge.Buffer
