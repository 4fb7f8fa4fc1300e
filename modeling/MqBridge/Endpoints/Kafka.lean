import MqBridge.Collections.InsertionMap
import MqBridge.Collections.Places
import MqBridge.Consumer
import MqBridge.Machine.Run
import MqBridge.Support.Text

/-! The Kafka consumer. The broker keeps one offset for each partition, and what is
stored covers every record before it. So a consumer that was told of one nack never
stores anything again: its reads fail, and the route reconnects. -/
namespace MqBridge.Kafka

open List hiding lookup

open InsertionMap Machine

structure Record where
  topic : String
  partition : Int
  offset : Int
  message : CanonicalMessage
  deriving DecidableEq

structure Prefetched where
  message : CanonicalMessage
  topic : String
  partition : Int
  offset : Int
  deriving DecidableEq

def Prefetched.place (item : Prefetched) : String × Int := (item.topic, item.partition)

def prefetchedRecord (raw : Record) : Prefetched :=
  ⟨raw.message, raw.topic, raw.partition, raw.offset + 1⟩

inductive PrefetchError where
  | endOfStream
  | connection (cause : String)
  deriving DecidableEq

def terminalToConsumerError : PrefetchError → ConsumerError
  | .endOfStream => .endOfStream
  | .connection cause => .connection cause

/-- The offset to store for each partition that a batch has records of. -/
abbrev BatchOffsets := List ((String × Int) × Int)

def recordOffset (offsets : BatchOffsets) (topic : String) (partition offset : Int) :
    BatchOffsets :=
  insert (topic, partition) offset offsets

abbrev ReplyInfo := Option String × Option String

def replyInfo (message : CanonicalMessage) : ReplyInfo :=
  (message.metadata.lookup "reply_to", message.metadata.lookup "correlation_id")

structure BatchParts where
  items : List Prefetched
  offsets : BatchOffsets
  replyInfos : List ReplyInfo
  /-- The stream ended or failed behind the records. -/
  terminal : Option PrefetchError

def BatchParts.push (parts : BatchParts) (item : Prefetched) : BatchParts :=
  { parts with
    items := parts.items ++ [item]
    offsets := recordOffset parts.offsets item.topic item.partition item.offset
    replyInfos := parts.replyInfos ++ [replyInfo item.message] }

def assembleLoop (maxMessages : Nat) :
    List (Except PrefetchError Prefetched) → BatchParts →
      BatchParts × List (Except PrefetchError Prefetched)
  | [], parts => (parts, [])
  | .error terminal :: rest, parts => ({ parts with terminal := some terminal }, rest)
  | .ok item :: rest, parts =>
    let parts := parts.push item
    if parts.items.length < maxMessages then assembleLoop maxMessages rest parts else (parts, rest)

def assembleBatch (waiting : List (Except PrefetchError Prefetched)) (maxMessages : Nat) :
    BatchParts × List (Except PrefetchError Prefetched) :=
  assembleLoop maxMessages waiting ⟨[], [], [], none⟩

/-- What was handed out and waits for its commit. The program does not see the number. -/
structure Delivery where
  number : Nat
  /-- `receive` hands out one message, with a commit of its own. -/
  single : Bool
  items : List Prefetched
  offsets : BatchOffsets
  replyInfos : List ReplyInfo

inductive Event where
  | delivered (number : Nat) (items : List Prefetched)
  /-- A batch without messages: the source is drained. -/
  | drained
  | failed (error : ConsumerError)
  | committed (number : Nat) (dispositions : Dispositions)
  | replied (topic : String) (correlationId : Option String) (payload : List UInt8)
  /-- Offsets were handed to the broker. -/
  | stored (number : Nat) (offsets : BatchOffsets)

inductive Call where
  | receive
  | receiveBatch (maxMessages : Nat)

structure Consumer where
  topic : String
  topics : List String
  exitOnEmpty : Bool
  /-- Replies can be sent. -/
  producer : Bool
  channel : List (Except PrefetchError Prefetched)
  pendingTerminal : Option PrefetchError
  /-- The latch that a nack trips. -/
  tripped : Bool
  call : Option Call
  outstanding : List Delivery
  delivered : Nat
  /-- The offsets that the broker has for the group. -/
  stored : String × Int → Option Int
  log : List Event

def Consumer.new (topic : String) (topics : List String) (exitOnEmpty producer : Bool)
    (stored : String × Int → Option Int) : Consumer :=
  ⟨topic, topics, exitOnEmpty, producer, [], none, false, none, [], 0, stored, []⟩

def isTopicPattern (topic : String) : Bool :=
  (topic.toList.dropWhile Text.isWhitespace).head? = some '^'

def nackError : ConsumerError :=
  .connection "Kafka batch was nacked; reconnecting to replay from the last committed offset"

def patternError (topic : String) : ConsumerError :=
  .permanent ("A Kafka drain needs explicit topics; '" ++ topic ++
    "' contains a pattern, whose topics it cannot know")

namespace Consumer

def emit (s : Consumer) (event : Event) : Consumer := { s with log := s.log ++ [event] }

def fail (s : Consumer) (error : ConsumerError) : Consumer :=
  { s with call := none }.emit (.failed error)

def handOut (s : Consumer) (single : Bool) (parts : BatchParts) : Consumer :=
  let delivery : Delivery := ⟨s.delivered, single, parts.items, parts.offsets, parts.replyInfos⟩
  { s with
    call := none
    delivered := s.delivered + 1
    outstanding := s.outstanding ++ [delivery] }.emit (.delivered s.delivered parts.items)

/-- A call begins. The latch is asked once; later it wakes the call. -/
def begin (s : Consumer) (call : Call) : Option Consumer :=
  if s.call.isSome then none
  else if s.tripped then some (s.fail nackError)
  else
    match call with
    | .receive => some { s with call := some .receive }
    | .receiveBatch maxMessages =>
      if s.exitOnEmpty ∧ s.topics.any isTopicPattern then some (s.fail (patternError s.topic))
      else
        match s.pendingTerminal with
        | some terminal =>
          some ({ s with pendingTerminal := none }.fail (terminalToConsumerError terminal))
        | none => some { s with call := some (.receiveBatch maxMessages) }

/-- The first record, or what ended the stream, reaches the call. -/
def arrive (s : Consumer) : Option Consumer :=
  match s.call, s.channel with
  | some .receive, .ok item :: rest =>
    some ({ s with channel := rest }.handOut true (BatchParts.push ⟨[], [], [], none⟩ item))
  | some .receive, .error terminal :: rest =>
    some ({ s with channel := rest }.fail (terminalToConsumerError terminal))
  | some (.receiveBatch maxMessages), first :: rest =>
    let (parts, left) := assembleBatch (first :: rest) maxMessages
    match parts.terminal with
    | some terminal =>
      if parts.items = [] then
        some ({ s with channel := left }.fail (terminalToConsumerError terminal))
      else some ({ s with channel := left, pendingTerminal := some terminal }.handOut false parts)
    | none => some ({ s with channel := left }.handOut false parts)
  | _, _ => none

/-- A drain ends: every partition was read to its end, or the wait for them was
given up with an error. -/
def endDrain (s : Consumer) (stalled : Option String) : Option Consumer :=
  match s.call with
  | some (.receiveBatch _) =>
    if s.exitOnEmpty then
      match stalled with
      | none => some ({ s with call := none }.emit .drained)
      | some cause => some (s.fail (.connection cause))
    else none
  | some .receive | none => none

def wake (s : Consumer) : Option Consumer :=
  if s.call.isSome ∧ s.tripped then some (s.fail nackError) else none

/-- One reply. A reply that cannot be sent is logged, and the commit goes on. -/
def reply (s : Consumer) (info : ReplyInfo) (disposition : MessageDisposition) : Consumer :=
  match disposition, info.1 with
  | .reply response, some topic =>
    if s.producer then s.emit (.replied topic info.2 response.payload) else s
  | _, _ => s

def handleReplies (s : Consumer) (infos : List ReplyInfo) (dispositions : Dispositions) :
    Consumer :=
  (infos.zip dispositions).foldl (fun s (info, disposition) => s.reply info disposition) s

def storeOffsets (s : Consumer) (delivery : Delivery) (accepted : Bool) : Consumer :=
  if accepted then
    { s with stored := fun place =>
      (InsertionMap.lookup place delivery.offsets).or (s.stored place) }.emit
      (.stored delivery.number delivery.offsets)
  else s

def commitBatch (s : Consumer) (delivery : Delivery) (dispositions : Dispositions)
    (accepted : Bool) : Consumer :=
  let s := s.handleReplies delivery.replyInfos dispositions
  let s := if anyNack dispositions then { s with tripped := true } else s
  if s.tripped = false ∧ 0 < delivery.items.length then s.storeOffsets delivery accepted else s

def commitSingle (s : Consumer) (delivery : Delivery) (disposition : MessageDisposition)
    (accepted : Bool) : Consumer :=
  if disposition = .nack then { s with tripped := true }
  else if s.tripped then s
  else (s.handleReplies delivery.replyInfos [disposition]).storeOffsets delivery accepted

def commit (s : Consumer) (dispositions : Dispositions) (accepted : Bool) : Option Consumer :=
  match s.outstanding with
  | [] => none
  | delivery :: later =>
    let s := { s with outstanding := later }.emit (.committed delivery.number dispositions)
    if delivery.single then
      match dispositions with
      | [disposition] => some (s.commitSingle delivery disposition accepted)
      | _ => none
    else some (s.commitBatch delivery dispositions accepted)

end Consumer

/-- The calls of a consumer, and what the broker does. -/
inductive Action where
  /-- The prefetch task puts a record, or the end of its stream, into the channel. -/
  | prefetch (item : Except PrefetchError Record)
  | call (call : Call)
  | arrive
  | endDrain (stalled : Option String)
  | wake
  | commit (dispositions : Dispositions) (accepted : Bool)
  /-- The oldest delivery is dropped without a commit. -/
  | abandon

def Consumer.step (s : Consumer) : Action → Option Consumer
  | .prefetch item => some { s with channel := s.channel ++ [item.map prefetchedRecord] }
  | .call call => s.begin call
  | .arrive => s.arrive
  | .endDrain stalled => s.endDrain stalled
  | .wake => s.wake
  | .commit dispositions accepted => s.commit dispositions accepted
  | .abandon =>
    if s.outstanding = [] then none else some { s with outstanding := s.outstanding.tail }

/-! ### What is stored -/

def offsetsOf (items : List Prefetched) : BatchOffsets :=
  insertAll [] (items.map fun item => (item.place, item.offset))

def Event.isFree : Event → Bool
  | .delivered .. | .drained | .failed _ | .replied .. => true
  | .committed .. | .stored .. => false

structure Consistent (start : String × Int → Option Int) (log : List Event)
    (outstanding : List Delivery)
    (delivered : Nat) (tripped : Bool) (stored : String × Int → Option Int) : Prop where
  /-- Deliveries are committed in the order of their numbers. -/
  ordered : (outstanding.map Delivery.number).Pairwise (· < ·)
  waiting : ∀ d ∈ outstanding, d.number < delivered ∧ .delivered d.number d.items ∈ log ∧
    d.offsets = offsetsOf d.items
  settled : ∀ n ds, .committed n ds ∈ log → n < delivered ∧ ∀ d ∈ outstanding, n < d.number
  latched : ∀ n ds, .committed n ds ∈ log → anyNack ds = true → tripped = true
  stores : ∀ n offsets, .stored n offsets ∈ log →
    (∃ ds, .committed n ds ∈ log) ∧ (∀ j ds, .committed j ds ∈ log → anyNack ds = true → n < j) ∧
      ∃ items, .delivered n items ∈ log ∧ offsets = offsetsOf items
  order : History.EachAfter (fun pre e => ∀ n offsets, e = .stored n offsets →
    ∀ j ds, .committed j ds ∈ pre → anyNack ds = false) log
  source : ∀ place, stored place = start place ∨
    ∃ n offsets, .stored n offsets ∈ log ∧ (InsertionMap.lookup place offsets).isSome ∧
      stored place = InsertionMap.lookup place offsets

section Consistent

variable {start stored : String × Int → Option Int} {log : List Event} {outstanding : List Delivery}
  {delivered : Nat}
  {tripped : Bool}

section

variable (h : Consistent start log outstanding delivered tripped stored)

include h

/-- What an event has to meet. A commit with a nack trips the latch, behind all that is stored;
offsets are stored while no nack was seen, those of a batch that is committed. -/
theorem Consistent.snoc {event : Event} {latch : Bool} {now : String × Int → Option Int}
    (hCommit : ∀ n ds, event = .committed n ds → (n < delivered ∧ ∀ d ∈ outstanding, n < d.number) ∧
      (anyNack ds = true → latch = true ∧ ∀ m offsets, .stored m offsets ∈ log → m < n))
    (hStore : ∀ n offsets, event = .stored n offsets → tripped = false ∧
      (∃ ds, .committed n ds ∈ log) ∧ ∃ items, .delivered n items ∈ log ∧ offsets = offsetsOf items)
    (hLatch : tripped = true → latch = true)
    (hNow : ∀ place, now place = stored place ∨ ∃ n offsets, event = .stored n offsets ∧
      (lookup place offsets).isSome ∧ now place = lookup place offsets) :
    Consistent start (log ++ [event]) outstanding delivered latch now := by
  have hOld {e : Event} (hMem : e ∈ log) : e ∈ log ++ [event] := mem_append_left _ hMem
  have hCases {e : Event} (hMem : e ∈ log ++ [event]) : e ∈ log ∨ event = e :=
    (mem_append.mp hMem).imp_right fun hNew => (mem_singleton.mp hNew).symm
  have hNacks (hTripped : tripped = false) {j : Nat} {js : Dispositions}
      (hMem : .committed j js ∈ log) :
      anyNack js = false := by
    cases hNack : anyNack js with
    | false => rfl
    | true => exact absurd (h.latched j js hMem hNack) (Bool.eq_false_iff.mp hTripped)
  constructor
  · exact h.ordered
  · intro d hMem
    obtain ⟨hNumber, hLog, hOffsets⟩ := h.waiting d hMem
    exact ⟨hNumber, hOld hLog, hOffsets⟩
  · exact fun n ds hMem => (hCases hMem).elim (h.settled n ds) fun hNew => (hCommit n ds hNew).1
  · intro n ds hMem hNack
    rcases hCases hMem with hMem | hNew
    · exact hLatch (h.latched n ds hMem hNack)
    · exact ((hCommit n ds hNew).2 hNack).1
  · intro n offsets hMem
    rcases hCases hMem with hMem | rfl
    · obtain ⟨⟨ds, hDone⟩, hBefore, items, hItems, hSame⟩ := h.stores n offsets hMem
      refine ⟨⟨ds, hOld hDone⟩, fun j js hLater hNack => ?_, items, hOld hItems, hSame⟩
      rcases hCases hLater with hLater | hNew
      · exact hBefore j js hLater hNack
      · exact ((hCommit j js hNew).2 hNack).2 n offsets hMem
    · obtain ⟨hTripped, ⟨ds, hDone⟩, items, hItems, hSame⟩ := hStore n offsets rfl
      refine ⟨⟨ds, hOld hDone⟩, fun j js hMem hNack => ?_, items, hOld hItems, hSame⟩
      rw [hNacks hTripped ((hCases hMem).resolve_right nofun)] at hNack
      cases hNack
  · exact h.order.snoc fun n offsets hNew _ _ => hNacks (hStore n offsets hNew).1
  · intro place
    rcases hNow place with hSame | ⟨n, offsets, rfl, hSome⟩
    · rw [hSame]
      apply (h.source place).imp_right
      rintro ⟨n, offsets, hMem, hSome⟩
      exact ⟨n, offsets, hOld hMem, hSome⟩
    · exact .inr ⟨n, offsets, mem_concat_self, hSome⟩

theorem Consistent.emit {event : Event}
    (hFree : event.isFree = true) :
    Consistent start (log ++ [event]) outstanding delivered tripped stored := by
  refine h.snoc ?_ ?_ id fun _ => .inl rfl
  · rintro n ds rfl
    cases hFree
  · rintro n offsets rfl
    cases hFree

theorem Consistent.emitAll {events : List Event}
    (hFree : ∀ e ∈ events, e.isFree = true) :
    Consistent start (log ++ events) outstanding delivered tripped stored := by
  induction events generalizing log with
  | nil => rwa [append_nil]
  | cons e events ih =>
    obtain ⟨hFirst, hOthers⟩ := forall_mem_cons.mp hFree
    rw [append_cons]
    exact ih (h.emit hFirst) hOthers

/-- What was handed out waits for its commit. -/
theorem Consistent.wait {items : List Prefetched}
    (hLog : .delivered delivered items ∈ log) (single : Bool) (infos : List ReplyInfo) :
    Consistent start log (outstanding ++ [⟨delivered, single, items, offsetsOf items, infos⟩])
      (delivered + 1) tripped stored where
  __ := h
  ordered := by
    rw [map_append]
    refine Places.pairwise_snoc h.ordered fun n hN => ?_
    obtain ⟨d, hMem, rfl⟩ := mem_map.mp hN
    exact (h.waiting d hMem).1
  waiting := by
    refine Places.forall_mem_snoc (fun d hMem => ?_) ⟨Nat.lt_succ_self _, hLog, rfl⟩
    exact (h.waiting d hMem).imp_left fun hNumber => hNumber.trans (Nat.lt_succ_self _)
  settled := by
    intro n ds hMem
    obtain ⟨hNumber, hLater⟩ := h.settled n ds hMem
    exact ⟨hNumber.trans (Nat.lt_succ_self _), Places.forall_mem_snoc hLater hNumber⟩

end

theorem Consistent.abandon {d : Delivery}
    (h : Consistent start log (d :: outstanding) delivered tripped stored) :
    Consistent start log outstanding delivered tripped stored where
  __ := h
  ordered := (pairwise_cons.mp h.ordered).2
  waiting := fun e hMem => h.waiting e (mem_cons_of_mem _ hMem)
  settled := fun n ds hMem => (h.settled n ds hMem).imp_right fun hLater e hE =>
    hLater e (mem_cons_of_mem _ hE)

/-- A commit begins. One with a nack trips the latch. -/
theorem Consistent.commit {d : Delivery}
    (h : Consistent start log (d :: outstanding) delivered tripped stored) (ds : Dispositions) :
    Consistent start (log ++ [.committed d.number ds]) outstanding delivered
      (tripped || anyNack ds) stored := by
  have hFirst := (pairwise_cons.mp h.ordered).1
  refine h.abandon.snoc ?_ nofun (fun hTripped => by rw [hTripped, Bool.true_or]) fun _ => .inl rfl
  rintro n es ⟨⟩
  refine ⟨⟨(h.waiting d mem_cons_self).1, fun e hE => hFirst _ (mem_map_of_mem hE)⟩, fun hNack =>
    ⟨?_, fun m offsets hMem => ?_⟩⟩
  · rw [hNack, Bool.or_true]
  · -- what is stored was committed before
    obtain ⟨⟨es, hDone⟩, -⟩ := h.stores m offsets hMem
    exact (h.settled m es hDone).2 d mem_cons_self

/-- While no nack was seen, the offsets of a committed batch are stored. -/
theorem Consistent.store (h : Consistent start log outstanding delivered false stored) {n : Nat}
    {ds : Dispositions}
    (hCommit : .committed n ds ∈ log) {items : List Prefetched}
    (hItems : .delivered n items ∈ log) :
    Consistent start (log ++ [.stored n (offsetsOf items)]) outstanding delivered false
      fun place => (lookup place (offsetsOf items)).or (stored place) := by
  refine h.snoc nofun ?_ id fun place => ?_
  · rintro m offsets ⟨⟩
    exact ⟨rfl, ⟨ds, hCommit⟩, items, hItems, rfl⟩
  · cases hPlace : lookup place (offsetsOf items) with
    | some offset => exact .inr ⟨n, offsetsOf items, rfl, by rw [hPlace]; rfl, by rw [hPlace]; rfl⟩
    | none => exact .inl rfl

end Consistent

theorem offsetsOf_push (items : List Prefetched) (item : Prefetched) :
    offsetsOf (items ++ [item]) =
      recordOffset (offsetsOf items) item.topic item.partition item.offset := by
  simp only [offsetsOf, insertAll, map_append, foldl_append]
  rfl

/-- A partition that the batch has records of gets the offset behind the last of them. -/
theorem lookup_offsetsOf (place : String × Int) (items : List Prefetched) :
    lookup place (offsetsOf items) =
      (items.filter fun item => decide (item.place = place)).getLast?.map Prefetched.offset := by
  induction items using reverseRecOn with
  | nil => rfl
  | append_singleton items item ih =>
    rw [offsetsOf_push, recordOffset, lookup_insert, ih]
    by_cases hPlace : item.place = place
    · simp [hPlace, show (item.topic, item.partition) = place from hPlace]
    · simp [hPlace, show (item.topic, item.partition) ≠ place from hPlace]

theorem assembleLoop_offsets (maxMessages : Nat) {waiting : List (Except PrefetchError Prefetched)}
    {parts : BatchParts} (hParts : parts.offsets = offsetsOf parts.items) :
    (assembleLoop maxMessages waiting parts).1.offsets =
      offsetsOf (assembleLoop maxMessages waiting parts).1.items := by
  induction waiting generalizing parts with
  | nil => exact hParts
  | cons first rest ih =>
    cases first with
    | error terminal => exact hParts
    | ok item =>
      have hPush : (parts.push item).offsets = offsetsOf (parts.push item).items := by
        rw [BatchParts.push, hParts]
        exact (offsetsOf_push parts.items item).symm
      rw [assembleLoop]
      split_ifs
      · exact ih hPush
      · exact hPush

namespace Consumer

variable {start : String × Int → Option Int} {s t : Consumer}

/-- The invariant of a run. -/
def Sound (start : String × Int → Option Int) (s : Consumer) : Prop :=
  Consistent start s.log s.outstanding s.delivered s.tripped s.stored

section

variable (h : s.Sound start)

include h

theorem Sound.emit {event : Event} (hFree : event.isFree = true) : (s.emit event).Sound start :=
  Consistent.emit h hFree

theorem Sound.fail (error : ConsumerError) : (s.fail error).Sound start :=
  Consistent.emit h rfl

theorem Sound.handOut (single : Bool) {parts : BatchParts}
    (hParts : parts.offsets = offsetsOf parts.items) : (s.handOut single parts).Sound start := by
  have hLog : Consistent start (s.log ++ [.delivered s.delivered parts.items]) s.outstanding
      s.delivered s.tripped s.stored :=
    h.emit rfl
  have hWait := hLog.wait mem_concat_self single parts.replyInfos
  rw [← hParts] at hWait
  exact hWait

theorem Sound.begin {call : Call} (hStep : s.begin call = some t) : t.Sound start := by
  unfold Consumer.begin at hStep
  split at hStep
  · cases hStep
  split at hStep
  · cases hStep
    exact h.fail nackError
  cases call with dsimp only at hStep
  | receive =>
    cases hStep
    exact h
  | receiveBatch maxMessages =>
    split_ifs at hStep
    · cases hStep
      exact h.fail (patternError s.topic)
    · cases hTerminal : s.pendingTerminal with
      | none =>
        rw [hTerminal] at hStep
        cases hStep
        exact h
      | some terminal =>
        rw [hTerminal] at hStep
        cases hStep
        exact fail h (terminalToConsumerError terminal)

theorem Sound.arrive (hStep : s.arrive = some t) : t.Sound start := by
  unfold Consumer.arrive at hStep
  split at hStep
  next item rest hCall hChan =>
    cases hStep
    exact handOut h true rfl
  next terminal rest hCall hChan =>
    cases hStep
    exact fail h (terminalToConsumerError terminal)
  next maxMessages first rest hCall hChan =>
    have hParts : (assembleBatch (first :: rest) maxMessages).1.offsets =
        offsetsOf (assembleBatch (first :: rest) maxMessages).1.items :=
          assembleLoop_offsets maxMessages rfl
    generalize assembleBatch (first :: rest) maxMessages = assembled at hStep hParts
    obtain ⟨parts, left⟩ := assembled
    dsimp only at hStep hParts
    cases hTerminal : parts.terminal with
    | none =>
      rw [hTerminal] at hStep
      cases hStep
      exact handOut h false hParts
    | some terminal =>
      rw [hTerminal] at hStep
      split_ifs at hStep
      · cases hStep
        exact fail h (terminalToConsumerError terminal)
      · cases hStep
        exact handOut h false hParts
  next => cases hStep

theorem Sound.endDrain {stalled : Option String} (hStep : s.endDrain stalled = some t) :
    t.Sound start := by
  unfold Consumer.endDrain at hStep
  split at hStep
  next =>
    split_ifs at hStep
    cases stalled with
    | none =>
      cases hStep
      exact emit h rfl
    | some cause =>
      cases hStep
      exact h.fail (.connection cause)
  next => cases hStep
  next => cases hStep

end

/-- Replies change nothing but the log. -/
theorem handleReplies_eq (s : Consumer) (infos : List ReplyInfo) (dispositions : Dispositions) :
    ∃ events, (∀ e ∈ events, e.isFree = true) ∧
      s.handleReplies infos dispositions = { s with log := s.log ++ events } := by
  unfold handleReplies
  generalize infos.zip dispositions = pairs
  induction pairs generalizing s with
  | nil => exact ⟨[], forall_mem_nil _, by rw [append_nil]; rfl⟩
  | cons pair pairs ih =>
    obtain ⟨first, hFirst, hOne⟩ : ∃ events, (∀ e ∈ events, e.isFree = true) ∧
        s.reply pair.1 pair.2 = { s with log := s.log ++ events } := by
      unfold reply
      split
      next response topic _ _ =>
        split_ifs
        · exact ⟨[.replied topic pair.1.2 response.payload], forall_mem_singleton.mpr rfl, rfl⟩
        · exact ⟨[], forall_mem_nil _, by rw [append_nil]⟩
      next => exact ⟨[], forall_mem_nil _, by rw [append_nil]⟩
    obtain ⟨others, hOthers, hRest⟩ := ih (s.reply pair.1 pair.2)
    refine ⟨first ++ others, forall_mem_append.mpr ⟨hFirst, hOthers⟩, ?_⟩
    rw [foldl_cons, hRest, hOne]
    rw [append_assoc]

section

variable (h : s.Sound start)

include h

theorem Sound.storeOffsets (hTripped : s.tripped = false) {d : Delivery} {ds : Dispositions}
    (hCommit : .committed d.number ds ∈ s.log) (hItems : .delivered d.number d.items ∈ s.log)
    (hOffsets : d.offsets = offsetsOf d.items) (accepted : Bool) :
    (s.storeOffsets d accepted).Sound start := by
  unfold Consumer.storeOffsets
  split_ifs
  · unfold Sound at h ⊢
    rw [hTripped] at h
    have hStore := h.store hCommit hItems
    rw [← hOffsets, ← hTripped] at hStore
    exact hStore
  · exact h

/-- The commit of the oldest delivery. -/
theorem Sound.commit {dispositions : Dispositions} {accepted : Bool}
    (hStep : s.commit dispositions accepted = some t) : t.Sound start := by
  unfold Consumer.commit at hStep
  cases hOutst : s.outstanding with
  | nil =>
    rw [hOutst] at hStep
    cases hStep
  | cons d later =>
    rw [hOutst] at hStep
    unfold Sound at h
    rw [hOutst] at h
    obtain ⟨-, hItems, hOffsets⟩ := h.waiting d mem_cons_self
    -- what is known after any replies
    have hReplied {events : List Event} (hFree : ∀ e ∈ events, e.isFree = true) :
        Consistent start (s.log ++ [.committed d.number dispositions] ++ events) later s.delivered
          (s.tripped || anyNack dispositions) s.stored := (h.commit dispositions).emitAll hFree
    have hMem {events : List Event} :
        .committed d.number dispositions ∈ s.log ++ [.committed d.number dispositions] ++
          events := by simp
    have hKept {events : List Event} :
        .delivered d.number d.items ∈ s.log ++ [.committed d.number dispositions] ++
          events := by simp [hItems]
    dsimp only at hStep
    split_ifs at hStep with hSingle
    · split at hStep
      next disposition =>
        cases hStep
        unfold commitSingle
        have hNone := hReplied (forall_mem_nil _)
        rw [append_nil] at hNone
        have hSame (hAck : disposition ≠ .nack) :
            (s.tripped || anyNack [disposition]) = s.tripped := by
          simp [anyNack, hAck]
        split_ifs with hNack hTripped
        · have hTrip : (s.tripped || anyNack [disposition]) = true := by simp [anyNack, hNack]
          rw [hTrip] at hNone
          exact hNone
        · rw [hSame hNack] at hNone
          exact hNone
        · obtain ⟨events, hFree, hEq⟩ := handleReplies_eq
            ({ s with outstanding := later }.emit (.committed d.number [disposition])) d.replyInfos
              [disposition]
          rw [hEq]
          have hDone := hReplied hFree
          rw [hSame hNack] at hDone
          apply storeOffsets _ _ hMem hKept hOffsets accepted
          · exact hDone
          · exact Bool.eq_false_of_not_eq_true hTripped
      next => cases hStep
    · cases hStep
      unfold commitBatch
      obtain ⟨events, hFree, hEq⟩ := handleReplies_eq
        ({ s with outstanding := later }.emit (.committed d.number dispositions)) d.replyInfos
          dispositions
      have hDone := hReplied hFree
      rw [hEq]
      cases hNack : anyNack dispositions with
      | true =>
        rw [hNack, Bool.or_true] at hDone
        exact hDone
      | false =>
        rw [hNack, Bool.or_false] at hDone
        simp only [Bool.false_eq_true, if_false]
        split_ifs with hStore
        · apply storeOffsets _ _ hMem hKept hOffsets accepted
          · exact hDone
          · exact hStore.1
        · exact hDone

theorem Sound.step {action : Action} (hStep : s.step action = some t) : t.Sound start := by
  cases action with
  | prefetch item =>
    cases hStep
    exact h
  | call call => exact h.begin hStep
  | arrive => exact h.arrive hStep
  | endDrain stalled => exact h.endDrain hStep
  | wake =>
    unfold Consumer.step wake at hStep
    dsimp only at hStep
    split_ifs at hStep
    cases hStep
    exact h.fail nackError
  | commit dispositions accepted => exact h.commit hStep
  | abandon =>
    unfold Consumer.step at hStep
    split_ifs at hStep with hNone
    cases hStep
    cases hOutst : s.outstanding with
    | nil => exact absurd hOutst hNone
    | cons d later =>
      unfold Sound at h
      rw [hOutst] at h
      simpa [Sound] using h.abandon

end

theorem Sound.run {topic : String} {topics : List String} {exitOnEmpty producer : Bool}
    {actions : List Action}
    (hRun : run Consumer.step (new topic topics exitOnEmpty producer start) actions = some t) :
    t.Sound start := by
  refine invariant_of_run (fun s action t h hStep => step h hStep) ?_ hRun
  constructor
  · exact .nil
  · exact forall_mem_nil _
  iterate 3
    intro _ _ hMem
    cases hMem
  · exact History.eachAfter_nil
  · exact fun place => .inl rfl

/-- No offset is stored past a nack: what a batch stores are the offsets behind its
last records, batches that are committed with a nack come after every batch that
stored something, and once a nack was seen nothing is stored. -/
theorem stores_nothing_past_nack {topic : String} {topics : List String}
    {exitOnEmpty producer : Bool} {actions : List Action}
    (hRun : run step (new topic topics exitOnEmpty producer start) actions = some t) :
    (∀ n offsets, .stored n offsets ∈ t.log →
      (∀ j ds, .committed j ds ∈ t.log → anyNack ds = true → n < j) ∧
        ∃ items, .delivered n items ∈ t.log ∧ ∀ place, InsertionMap.lookup place offsets =
          (items.filter fun item => decide (item.place = place)).getLast?.map Prefetched.offset) ∧
    (∀ place, t.stored place = start place ∨
      ∃ n offsets, .stored n offsets ∈ t.log ∧ (InsertionMap.lookup place offsets).isSome ∧
        t.stored place = InsertionMap.lookup place offsets) ∧
    History.EachAfter (fun pre e => ∀ n offsets, e = .stored n offsets →
      ∀ j ds, .committed j ds ∈ pre → anyNack ds = false) t.log := by
  have hSound := Sound.run hRun
  refine ⟨fun n offsets hMem => ?_, hSound.source, hSound.order⟩
  obtain ⟨-, hBefore, items, hItems, rfl⟩ := hSound.stores n offsets hMem
  exact ⟨hBefore, items, hItems, fun place => lookup_offsetsOf place items⟩

def nackedRun : List Action :=
  [.prefetch (.ok ⟨"t", 0, 4, ⟨1, [], ∅⟩⟩), .call (.receiveBatch 1), .arrive,
    .prefetch (.ok ⟨"t", 0, 5, ⟨2, [], ∅⟩⟩), .call .receive, .arrive, .commit [.ack] true,
      .commit [.nack] true,
    .call (.receiveBatch 1)]

theorem stores_nothing_past_nack_run :
    ∃ t, run step (new "t" ["t"] false true fun _ => none) nackedRun = some t ∧
      t.stored ("t", 0) = some 5 ∧
      ∀ n offsets, .stored n offsets ∈ t.log → ∀ j ds, .committed j ds ∈ t.log → anyNack ds = true →
        n < j := by
  refine exists_run (fun t => t.stored ("t", 0) = some 5) (by decide) fun t hRun hStored =>
    ⟨hStored, ?_⟩
  exact fun n offsets hMem => ((stores_nothing_past_nack hRun).1 n offsets hMem).1

end Consumer

end MqBridge.Kafka
