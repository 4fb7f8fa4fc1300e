import MqBridge.Structural.Fanout

/-! The switch publisher. Each message goes to the destination its routing
rule resolves to; messages for one destination travel in one call. The groups
live in a hash map, so the order in which their answers are looked at is not
determined by the batch. -/
namespace MqBridge.Structural.Switch

open List

open IndexedMerge

abbrev Identity := Nat

inductive Routing where
  /-- Exact match on a metadata value. -/
  | lookup (metadataKey : String) (cases : String → Option Identity)
  /-- Ordered expression predicates, first match wins. A predicate that
  cannot read a message answers with the text of its error. -/
  | predicate (cases : List ((CanonicalMessage → Except String Bool) × Identity))

structure SwitchPublisher where
  routing : Routing
  default : Option Identity
  destination : Identity → Destination

/-- The predicate loop of `get_publisher`; `none` if no case matched. -/
def firstMatch (message : CanonicalMessage) :
    List ((CanonicalMessage → Except String Bool) × Identity) →
      Except PublisherError (Option Identity)
  | [] => .ok none
  | (filter, publisher) :: rest =>
    match filter message with
    | .error cause => .error (.nonRetryable cause)
    | .ok true => .ok (some publisher)
    | .ok false => firstMatch message rest

def SwitchPublisher.getPublisher (s : SwitchPublisher) (message : CanonicalMessage) :
    Except PublisherError (Option Identity) :=
  match s.routing with
  | .lookup metadataKey cases =>
    .ok (((message.metadata.lookup metadataKey).bind cases).or s.default)
  | .predicate cases => (firstMatch message cases).map fun found => found.or s.default

/-- The order in which a hash map hands out its values. Nothing is known of
it beyond that every value comes out once. -/
structure IterationOrder (α : Type) where
  arrange : List α → List α
  perm : ∀ values, (arrange values).Perm values

abbrev Group := Identity × List CanonicalMessage

def joinGroups (old new : Group) : Group := (old.1, old.2 ++ new.2)

/-- The loop over the batch: messages by destination, and those whose routing
failed. Dropped messages are only counted. -/
def SwitchPublisher.routeAll (s : SwitchPublisher) (groups : Table Identity Group)
    (failedRouting : List Failure) : List CanonicalMessage → Table Identity Group × List Failure
  | [] => (groups, failedRouting)
  | message :: rest =>
    match s.getPublisher message with
    | .ok (some publisher) =>
      s.routeAll (groups.insert joinGroups (publisher, (publisher, [message]))) failedRouting rest
    | .ok none => s.routeAll groups failedRouting rest
    | .error e => s.routeAll groups (failedRouting ++ [(message, e)]) rest

def collect (responses : List CanonicalMessage) (failed : List Failure) :
    List SendResult → SendResult
  | [] => .ok (.ofParts responses failed)
  | .ok .ack :: rest => collect responses failed rest
  | .ok (.partly more childFailed) :: rest =>
    collect (responses ++ more.getD []) (failed ++ childFailed) rest
  | .error e :: _ => .error e

namespace SwitchPublisher

def groups (s : SwitchPublisher) (order : IterationOrder Group)
    (messages : List CanonicalMessage) : List Group :=
  order.arrange (s.routeAll Table.empty [] messages).1.items

def results (s : SwitchPublisher) (order : IterationOrder Group)
    (messages : List CanonicalMessage) : List SendResult :=
  (s.groups order messages).map fun group => s.destination group.1 group.2

def sendBatch (s : SwitchPublisher) (order : IterationOrder Group)
    (messages : List CanonicalMessage) : SendResult :=
  if messages.isEmpty then .ok .ack
  else collect [] (s.routeAll Table.empty [] messages).2 (s.results order messages)

end SwitchPublisher

variable (responses : List CanonicalMessage) (failed : List Failure)

theorem collect_error {results : List SendResult} {e : PublisherError}
    (h : firstError results = some e) : collect responses failed results = .error e := by
  induction results generalizing responses failed with
  | nil => cases h
  | cons result rest ih =>
    cases result with
    | error e' =>
      cases h
      rfl
    | ok batch => cases batch <;> exact ih _ _ h

theorem collect_ok {results : List SendResult} (h : firstError results = none) :
    ∃ all, collect responses failed results =
      .ok (.ofParts all (failed ++ results.flatMap listed)) := by
  induction results generalizing responses failed with
  | nil => exact ⟨responses, by rw [flatMap_nil, append_nil]; rfl⟩
  | cons result rest ih =>
    cases result with
    | error e => cases h
    | ok batch =>
      cases batch with
      | ack => exact ih responses failed h
      | partly more childFailed =>
        obtain ⟨all, hRest⟩ := ih (responses ++ more.getD []) (failed ++ childFailed) h
        refine ⟨all, hRest.trans ?_⟩
        rw [append_assoc]
        rfl

namespace SwitchPublisher

def Transient (s : SwitchPublisher) (order : IterationOrder Group)
    (messages : List CanonicalMessage) (m : CanonicalMessage) : Prop :=
  ∃ group ∈ s.groups order messages, m ∈ group.2 ∧
    ReportsTransient group.2 m (s.destination group.1 group.2)

/-- The first whole-call error in the order of the map, if there is one, is
curable, or there is no curable failure that it could hide. -/
def OrderKeepsTransient (s : SwitchPublisher) (order : IterationOrder Group)
    (messages : List CanonicalMessage) : Prop :=
  ∀ e, firstError (s.results order messages) = some e →
    e.isTransient = true ∨ ∀ m ∈ messages, ¬s.Transient order messages m

theorem sendBatch_keepsTransient_iff (s : SwitchPublisher) (order : IterationOrder Group)
    (messages : List CanonicalMessage) : (∀ m ∈ messages, s.Transient order messages m →
        KeepsTransient m (s.sendBatch order messages)) ↔
      s.OrderKeepsTransient order messages := by
  by_cases hMsgs : messages = []
  · subst hMsgs
    simp [OrderKeepsTransient]
  have hSend : s.sendBatch order messages =
      collect [] (s.routeAll .empty [] messages).2 (s.results order messages) := by
    rw [sendBatch, if_neg (by simpa using hMsgs)]
  cases hError : firstError (s.results order messages) with
  | some e =>
    rw [hSend, collect_error _ _ hError]
    simp only [OrderKeepsTransient, hError, Option.some.injEq, forall_eq']
    exact forall_curable_iff
  | none =>
    have hKeep : s.OrderKeepsTransient order messages := by
      intro e he
      rw [hError] at he
      cases he
    refine ⟨fun _ => hKeep, fun _ => ?_⟩
    rintro m - ⟨group, hGroup, -, hReport⟩
    obtain ⟨all, hCollect⟩ := collect_ok [] (s.routeAll .empty [] messages).2 hError
    rw [hSend, hCollect, KeepsTransient, SentBatch.failures_ofParts]
    have hRes : s.destination group.1 group.2 ∈ s.results order messages :=
      mem_map.mpr ⟨group, hGroup, rfl⟩
    obtain ⟨batch, hBatch⟩ := firstError_eq_none hError hRes
    rw [hBatch] at hReport hRes
    obtain ⟨e, hListed, hCurable⟩ := hReport
    refine ⟨e, mem_append_right _ (mem_flatMap.mpr ⟨_, hRes, ?_⟩), hCurable⟩
    exact hListed

end SwitchPublisher

open Fanout in
/-- When a publisher with several destinations never gives up a message that
some destination failed for a curable reason. -/
theorem composite_keepsTransient_iff (p : FanoutPublisher) (s : SwitchPublisher)
    (order : IterationOrder Group) (messages : List CanonicalMessage) :
    ((∀ m ∈ messages, p.Transient messages m → KeepsTransient m (p.sendBatch messages)) ↔
      p.MergeKeepsTransient messages) ∧
    ((∀ m ∈ messages, s.Transient order messages m →
      KeepsTransient m (s.sendBatch order messages)) ↔ s.OrderKeepsTransient order messages) :=
  ⟨p.sendBatch_keepsTransient_iff messages, s.sendBatch_keepsTransient_iff order messages⟩

open Fanout in
/-- A permanent whole-call error of one destination decides for a message
that another destination failed for a curable reason. -/
theorem composite_not_keepsTransient : let one : CanonicalMessage := ⟨1, [1], ∅⟩
    let two : CanonicalMessage := ⟨2, [2], ∅⟩
    let bad : Destination := fun _ => .error (.nonRetryable "bad")
    let busy : Destination := fun _ => .error (.retryable "busy")
    let p : FanoutPublisher := ⟨[bad, busy]⟩
    let s : SwitchPublisher :=
      ⟨.predicate [(fun m => .ok (decide (m.messageId = 1)), 0)], some 1,
        fun identity => if identity = 0 then bad else busy⟩
    let order : IterationOrder Group := ⟨id, List.Perm.refl⟩
    (p.Transient [one] one ∧ ¬KeepsTransient one (p.sendBatch [one])) ∧
      (s.Transient order [one, two] two ∧ ¬KeepsTransient two (s.sendBatch order [one, two])) := by
  intro one two bad busy p s order
  refine ⟨⟨⟨.error (.retryable "busy"), by simp [FanoutPublisher.results, p, busy], rfl, by simp⟩,
    ?_⟩, ⟨(1, [two]), ?_, by simp, rfl, by simp⟩, ?_⟩
  · exact Bool.false_ne_true
  · have hGroups : s.groups order [one, two] = [(0, [one]), (1, [two])] := rfl
    rw [hGroups]
    simp
  · exact Bool.false_ne_true

end MqBridge.Structural.Switch
