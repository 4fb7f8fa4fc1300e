import Mathlib.Algebra.BigOperators.Group.List.Basic
import Mathlib.Algebra.GroupWithZero.Nat
import MqBridge.Endpoints.File.Queue

/-! When a file consumer says that its file is drained. The reader sends a marker
when a pass has read nothing, and `receive_batch` returns it as a batch without
messages, on which a route with `exit_on_empty` ends as a success. -/
namespace MqBridge.File

open List Machine

/-- The consumer that reads on at the end of a file, from where it begins. -/
structure Tail where
  header : Bool
  file : List Record
  position : Nat
  headerPending : Bool
  signaledEof : Bool
  receiver : Receiver
  log : List Event

def Tail.new (header : Bool) (contents : List (Option CanonicalMessage)) : Tail :=
  ⟨header, placed 0 contents, 0, header, false, .new, []⟩

def tailBatchSize : Nat := 1024

/-- Once the marker, when a pass has read nothing. -/
def Tail.mark (s : Tail) (nothing : Bool) : Tail :=
  if nothing = true ∧ s.signaledEof = false then
    { s with receiver := s.receiver.send [], signaledEof := true }
  else s

def Tail.send (s : Tail) (batch : List Entry) : Tail :=
  if batch = [] then s else { s with receiver := s.receiver.send batch, signaledEof := false }

/-- What a pass sends after the records it has taken, and why it stopped, if it
was not for their number. -/
def Tail.finish (s : Tail) (batch : List Entry) (nothing : Bool) : Option Stop → Tail
  | some (.openQuote reason) =>
    let sent := s.send batch
    { sent with receiver := { sent.receiver with closed := true, decodeError := some reason } }
  | some .heldBack => s.send batch
  | some .endOfFile | some .error | none => (s.send batch).mark nothing

/-- A closed channel ends the thread of the reader. -/
def Tail.pass (s : Tail) (sight : Sight) : Option Tail :=
  if s.receiver.closed then none
  else
    match sight.records s.position s.file with
    | none => some s
    | some (records, stop) =>
      let taken := records.take tailBatchSize
      let stop := if records.length < tailBatchSize then some stop else none
      let read : Tail :=
        { s with
          position := s.position + taken.length
          headerPending := unreadAfter s.headerPending taken
          log := if stop = some .endOfFile then s.log ++ [.reached (entries s.header s.file)] else
            s.log }
      some (read.finish (entries s.headerPending taken) taken.isEmpty stop)

def Tail.answer (s : Tail) (receiver : Receiver) : Option Answer → Tail
  | some (.batch batch) => { s with receiver, log := s.log ++ [.returned batch receiver.buffer] }
  | some (.error _) | none => { s with receiver }

/-- A commit stores an offset and touches nothing that is read here. -/
def Tail.step (s : Tail) : Action → Option Tail
  | .append contents => some { s with file := s.file ++ placed s.file.length contents }
  | .pass sight => s.pass sight
  | .call maxMessages =>
    (s.receiver.call maxMessages).map fun (answer, receiver) => s.answer receiver answer
  | .resume => s.receiver.resume.map fun (answer, receiver) => s.answer receiver (some answer)
  | .commit _ => some s

inductive ConsumerBackend where
  | tail (consumer : Tail)
  | queue (consumer : Queue)

namespace ConsumerBackend

def new (delete header : Bool) (contents : List (Option CanonicalMessage)) : ConsumerBackend :=
  if delete then .queue (.new header contents) else .tail (.new header contents)

def step : ConsumerBackend → Action → Option ConsumerBackend
  | .tail consumer, action => (consumer.step action).map .tail
  | .queue consumer, action => (consumer.step action).map .queue

def log : ConsumerBackend → List Event
  | .tail consumer => consumer.log
  | .queue consumer => consumer.log

def receiver : ConsumerBackend → Receiver
  | .tail consumer => consumer.receiver
  | .queue consumer => consumer.receiver

/-- The messages that a commit puts back are not overtaken by a marker that is about
to be returned; a prompt one is not in the channel either. -/
def KeepsMarker (prompt : Bool) (dispositions : Dispositions) : ConsumerBackend → Prop
  | .tail _ => True
  | .queue consumer =>
    consumer.receiver.pendingEof = true ∨ prompt = true ∧ [] ∈ consumer.receiver.channel →
      MessageDisposition.nack ∉ dispositions

/-- A marker is sent only when no message waits to be handed out. -/
def MarksEmpty (consumer : ConsumerBackend) (sight : Sight) : Prop :=
  ∀ next ∈ consumer.step (.pass sight),
    next.receiver.channel = consumer.receiver.channel ++ [[]] →
      consumer.receiver.channel = [] ∧ consumer.receiver.buffer = []

/-- No read fails, at least one message is asked for, and no nack is committed
while the marker is about to be returned. Where the reader is prompt, the marker
does not wait behind messages. -/
def Clean (prompt : Bool) (consumer : ConsumerBackend) : Action → Prop
  | .pass sight => (∀ after, sight ≠ .fails after) ∧ (prompt = true → consumer.MarksEmpty sight)
  | .call maxMessages => 0 < maxMessages
  | .commit dispositions => consumer.KeepsMarker prompt dispositions
  | .append _ | .resume => True

instance decidableKeepsMarker (prompt : Bool) (dispositions : Dispositions) :
    (consumer : ConsumerBackend) → Decidable (consumer.KeepsMarker prompt dispositions)
  | .tail _ => inferInstanceAs (Decidable True)
  | .queue consumer =>
    inferInstanceAs (Decidable (consumer.receiver.pendingEof = true ∨
      prompt = true ∧ [] ∈ consumer.receiver.channel → MessageDisposition.nack ∉ dispositions))

instance decidableMarksEmpty (consumer : ConsumerBackend) (sight : Sight) :
    Decidable (consumer.MarksEmpty sight) :=
  inferInstanceAs (Decidable (∀ next ∈ consumer.step (.pass sight), _ → _))

instance decidableReadable : (sight : Sight) → Decidable (∀ after, sight ≠ .fails after)
  | .fails after => .isFalse fun hClean => hClean after rfl
  | .openFails | .whole | .heldBack | .openQuote _ => .isTrue fun _ => Sight.noConfusion

instance decidableClean (prompt : Bool) (consumer : ConsumerBackend) :
    (action : Action) → Decidable (consumer.Clean prompt action)
  | .pass sight =>
    inferInstanceAs (Decidable ((∀ after, sight ≠ .fails after) ∧
      (prompt = true → consumer.MarksEmpty sight)))
  | .call maxMessages => inferInstanceAs (Decidable (0 < maxMessages))
  | .commit dispositions => inferInstanceAs (Decidable (consumer.KeepsMarker prompt dispositions))
  | .append _ | .resume => .isTrue trivial

end ConsumerBackend

def HandedOut (log : List Event) (e : Entry) : Prop :=
  ∃ batch buffer, .returned batch buffer ∈ log ∧ e ∈ batch

/-- The reader met the end of the file, with exactly the messages of `P` before it. -/
def Ended (log : List Event) (P : Entry → Prop) : Prop :=
  ∃ rows, .reached rows ∈ log ∧ ∀ e, e ∈ rows ↔ P e

/-- The same, since the last batch that was returned with messages. -/
def EndedSince (log : List Event) (P : Entry → Prop) : Prop :=
  ∃ before rows later, log = before ++ .reached rows :: later ∧
    (∀ batch buffer, .returned batch buffer ∈ later → batch = []) ∧ ∀ e, e ∈ rows ↔ P e

/-- A batch without messages is returned with nothing in the buffer, and only if
the reader met an end of the file up to which everything was handed out, and
nothing beyond it was. A prompt reader met it since the last batch with messages. -/
def Drained (prompt : Bool) (log : List Event) : Event → Prop
  | .returned batch buffer =>
    batch = [] → buffer = [] ∧ Ended log (HandedOut log) ∧
      (prompt = true → EndedSince log (HandedOut log))
  | .reached _ | .committed _ | .deleted _ => True

section Log

variable {log more : List Event} {P Q : Entry → Prop}

theorem HandedOut.mono {e : Entry} (h : HandedOut log e) : HandedOut (log ++ more) e := by
  obtain ⟨batch, buffer, hMem, hBatch⟩ := h
  exact ⟨batch, buffer, mem_append_left _ hMem, hBatch⟩

theorem handedOut_snoc (log : List Event) (event : Event) (e : Entry) :
    HandedOut (log ++ [event]) e ↔ HandedOut log e ∨ ∃ batch buffer, .returned batch buffer =
      event ∧ e ∈ batch := by
  simp [HandedOut, or_and_right, exists_or]

theorem Ended.mono (h : Ended log P) (hSame : ∀ e, P e ↔ Q e) : Ended (log ++ more) Q := by
  obtain ⟨rows, hMem, hRows⟩ := h
  exact ⟨rows, mem_append_left _ hMem, fun e => (hRows e).trans (hSame e)⟩

theorem EndedSince.snoc (h : EndedSince log P) {event : Event}
    (hSilent : ∀ batch buffer, .returned batch buffer = event → batch = [])
    (hSame : ∀ e, P e ↔ Q e) : EndedSince (log ++ [event]) Q := by
  obtain ⟨before, rows, later, rfl, hLater, hRows⟩ := h
  refine ⟨before, rows, later ++ [event], by simp, fun batch buffer hMem => ?_,
    fun e => (hRows e).trans (hSame e)⟩
  rcases mem_append.mp hMem with hOld | hNew
  · exact hLater batch buffer hOld
  · exact hSilent batch buffer (mem_singleton.mp hNew)

end Log

/-- No marker waits behind messages, and the end that one stands for was met after
the last batch with messages was returned. -/
def Prompt (receiver : Receiver) (log : List Event) : Prop :=
  receiver.pendingEof = false ∧
    ([] ∈ receiver.channel → receiver.buffer = [] ∧ EndedSince log (HandedOut log) ∧
      ∃ rest, receiver.channel = [] :: rest ∧ [] ∉ rest)

/-- The end of the file was met just now, behind all that was read. -/
def JustEnded (log : List Event) (read : List Entry) : Prop :=
  ∃ before rows, log = before ++ [.reached rows] ∧ ∀ e, e ∈ rows ↔ e ∈ read

/-- What the receiver still has to hand out of all that was read, with the ends
that its markers stand for. -/
structure Traced (prompt : Bool) (receiver : Receiver) (events : List Event) (read : List Entry) :
    Prop where
  all : ∀ e, e ∈ read ↔ HandedOut events e ∨ e ∈ receiver.held
  marker : History.EachAfter (fun front batch => batch = [] →
    Ended events fun e => HandedOut events e ∨
      e ∈ receiver.buffer ++ front.flatten) receiver.channel
  pending : receiver.pendingEof = true → receiver.buffer = [] ∧ Ended events (HandedOut events)
  waits : ∀ maxMessages, receiver.waiting = some maxMessages → 0 < maxMessages ∧
    receiver.pendingEof = false
  log : History.EachAfter (Drained prompt) events
  since : prompt = true → Prompt receiver events

namespace Traced

variable {prompt : Bool} {receiver after : Receiver} {log : List Event} {read : List Entry}
  {maxMessages : Nat}

theorem new : Traced prompt .new [] [] := by
  refine ⟨fun e => ?_, History.eachAfter_nil, fun h => absurd h (by decide),
    fun maxMessages h => absurd h (by simp [Receiver.new]), History.eachAfter_nil,
    fun _ => ⟨rfl, nofun⟩⟩
  simp [HandedOut, Receiver.new, Receiver.held]

section

variable (h : Traced prompt receiver log read)

include h

/-- Events that hand out nothing. -/
theorem silent {event : Event} (hDrained : Drained prompt log event)
    (hSilent : ∀ batch buffer, .returned batch buffer = event → batch = []) :
    Traced prompt receiver (log ++ [event]) read := by
  have hSame (e : Entry) : HandedOut log e ↔ HandedOut (log ++ [event]) e := by
    rw [handedOut_snoc]
    constructor
    · exact .inl
    · rintro (h | ⟨batch, buffer, hEvent, hMem⟩)
      · exact h
      · rw [hSilent batch buffer hEvent] at hMem
        cases hMem
  refine ⟨fun e => ?_, h.marker.imp fun front batch _ hMarker hNone => ?_, fun hPend => ?_,
    h.waits, h.log.snoc hDrained, fun hPrompt => ⟨(h.since hPrompt).1, fun hMem => ?_⟩⟩
  · rw [h.all, hSame]
  · exact (hMarker hNone).mono fun e => by rw [hSame]
  · exact ⟨(h.pending hPend).1, (h.pending hPend).2.mono hSame⟩
  · obtain ⟨hBuf, hSince, hFirst⟩ := (h.since hPrompt).2 hMem
    exact ⟨hBuf, hSince.snoc hSilent hSame, hFirst⟩

theorem deleted (records : List Record) :
    Traced prompt receiver (log ++ records.map .deleted) read := by
  induction records generalizing log with
  | nil => simpa using h
  | cons record rest ih =>
    have hOne : Traced prompt receiver (log ++ [.deleted record]) read :=
      h.silent trivial fun _ _ hEvent => by cases hEvent
    simpa using ih hOne

theorem send {batch : List Entry} (hBatch : batch ≠ []) :
    Traced prompt (receiver.send batch) log (read ++ batch) := by
  refine ⟨fun e => ?_, h.marker.snoc fun hNone => absurd hNone hBatch, h.pending, h.waits, h.log,
    fun hPrompt => ⟨(h.since hPrompt).1, fun hMem => ?_⟩⟩
  · rw [mem_append, h.all]
    simp [Receiver.send, Receiver.held, or_assoc]
  · have hOld : [] ∈ receiver.channel :=
      (mem_append.mp hMem).resolve_right fun hNew => hBatch (mem_singleton.mp hNew).symm
    obtain ⟨hBuf, hSince, rest, hChan, hRest⟩ := (h.since hPrompt).2 hOld
    refine ⟨hBuf, hSince, rest ++ [batch], congrArg (· ++ [batch]) hChan, fun hLater => ?_⟩
    exact (mem_append.mp hLater).elim hRest fun hNew => hBatch (mem_singleton.mp hNew).symm

/-- The marker is sent when all of the file was read. -/
theorem mark (hEnded : JustEnded log read)
    (hEmpty : prompt = true → receiver.channel = [] ∧ receiver.buffer = []) :
    Traced prompt (receiver.send []) log read := by
  obtain ⟨before, rows, rfl, hRows⟩ := hEnded
  refine ⟨fun e => ?_, h.marker.snoc fun _ => ?_, h.pending, h.waits, h.log,
    fun hPrompt => ⟨(h.since hPrompt).1, fun _ => ?_⟩⟩
  · rw [h.all]
    simp [Receiver.send, Receiver.held]
  · exact ⟨rows, mem_concat_self, fun e => (hRows e).trans (h.all e)⟩
  · obtain ⟨hChan, hBuf⟩ := hEmpty hPrompt
    refine ⟨hBuf, ⟨before, rows, [], rfl, fun _ _ hMem => absurd hMem not_mem_nil,
      fun e => (hRows e).trans ((h.all e).trans ?_)⟩,
      [], by simp [Receiver.send, hChan], not_mem_nil⟩
    simp [Receiver.held, hChan, hBuf]

theorem notMem_tail (hPrompt : prompt = true) {batch : List Entry} {rest : List (List Entry)}
    (hChan : receiver.channel = batch :: rest) : [] ∉ rest := by
  intro hMem
  obtain ⟨-, -, later, hFirst, hLater⟩ :=
    (h.since hPrompt).2 (by rw [hChan]; exact mem_cons_of_mem _ hMem)
  rw [hChan] at hFirst
  exact hLater ((cons.inj hFirst).2 ▸ hMem)

/-- The first batch of the channel comes to the buffer. -/
theorem pop {batch : List Entry} {rest : List (List Entry)}
    (hChan : receiver.channel = batch :: rest) (hPend : receiver.pendingEof = false) :
    Traced prompt
      { receiver with channel := rest, buffer := receiver.buffer ++ batch } log read := by
  refine ⟨fun e => ?_, fun front next later hRest hNone => ?_, fun h => ?_, h.waits, h.log,
    fun hPrompt => ⟨hPend, fun hMem => absurd hMem ?_⟩⟩
  · rw [h.all]
    simp [Receiver.held, hChan]
  · have hMarker :=
      h.marker (batch :: front) next later (by rw [hChan, cons_append, ← hRest]) hNone
    simpa using hMarker
  · rw [hPend] at h
    cases h
  · exact h.notMem_tail hPrompt hChan

theorem serve (hMarker : prompt = true → [] ∉ receiver.channel)
    (hEmpty : (receiver.serve maxMessages).1 = [] →
      (receiver.serve maxMessages).2.buffer = [] ∧ Ended log (HandedOut log) ∧
        (prompt = true → EndedSince log (HandedOut log))) :
    Traced prompt (receiver.serve maxMessages).2
      (log ++ [.returned (receiver.serve maxMessages).1 (receiver.serve maxMessages).2.buffer])
        read := by
  have hHeld := serve_held receiver maxMessages
  obtain ⟨front, hBuf, hChan⟩ := serve_spec receiver maxMessages
  have hWait : (receiver.serve maxMessages).2.waiting = none := rfl
  generalize (receiver.serve maxMessages).1 = batch, (receiver.serve maxMessages).2 = after at *
  have hSame (e : Entry) :
      HandedOut (log ++ [.returned batch after.buffer]) e ↔ HandedOut log e ∨ e ∈ batch := by
    simp [handedOut_snoc]
  have hMoved (more : List Entry) (e : Entry) :
      (HandedOut log e ∨ e ∈ receiver.buffer ++ (front.flatten ++ more)) ↔
      HandedOut (log ++ [.returned batch after.buffer]) e ∨ e ∈ after.buffer ++ more := by
    rw [hSame, ← append_assoc, ← hBuf]
    simp [or_assoc]
  refine ⟨fun e => ?_, fun later next rest hLater hNone => ?_, fun hPend => ?_, ?_,
    h.log.snoc hEmpty, fun hPrompt => ?_⟩
  · rw [h.all, hSame, ← hHeld, mem_append, or_assoc]
  · rcases hChan with ⟨-, hFront⟩ | ⟨-, hFront, -⟩
    · have hMarker :=
        h.marker (front ++ later) next rest (by rw [hFront, hLater, append_assoc]) hNone
      exact hMarker.mono fun e => by rw [flatten_append, hMoved]
    · have hMarker := h.marker (front ++ [] :: later) next rest (by rw [hFront, hLater]; simp) hNone
      exact hMarker.mono fun e => by rw [flatten_append, flatten_cons, nil_append, hMoved]
  · rcases hChan with ⟨hNo, -⟩ | ⟨-, hFront, hNone⟩
    · rw [hNo] at hPend
      cases hPend
    · refine ⟨hNone, (h.marker front [] _ hFront rfl).mono fun e => ?_⟩
      have hMove := hMoved [] e
      rwa [append_nil, append_nil, hNone, mem_nil_iff, or_false, ← hNone] at hMove
  · intro maxMessages hSome
    rw [hWait] at hSome
    cases hSome
  · have hNone := hMarker hPrompt
    rcases hChan with ⟨hNo, hFront⟩ | ⟨-, hFront, -⟩
    · refine ⟨hNo, fun hMem => absurd ?_ hNone⟩
      rw [hFront]
      exact mem_append_right _ hMem
    · rw [hFront] at hNone
      exact absurd (mem_append_right _ mem_cons_self) hNone

end

/-- With at least one message asked for, nothing is served only from nothing. -/
theorem serve_eq_nil (hMax : 0 < maxMessages) (hNone : (receiver.serve maxMessages).1 = []) :
    receiver.buffer = [] ∧ (receiver.serve maxMessages).2.buffer = [] := by
  obtain ⟨front, hBuf, -⟩ := serve_spec receiver maxMessages
  have hFilled : (fill maxMessages receiver.channel receiver.buffer).2.1 = [] :=
    (take_eq_nil_iff.mp hNone).resolve_left (by omega)
  have hAfter : (receiver.serve maxMessages).2.buffer = [] := by
    change drop maxMessages (fill maxMessages receiver.channel receiver.buffer).2.1 = []
    rw [hFilled, drop_nil]
  rw [hNone, hAfter] at hBuf
  exact ⟨(append_eq_nil_iff.mp hBuf.symm).1, hAfter⟩

def returned (after : Receiver) : Option Answer → List Event
  | some (.batch batch) => [.returned batch after.buffer]
  | some (.error _) | none => []

variable (h : Traced prompt receiver log read)

include h

theorem call {answer : Option Answer} (hMax : 0 < maxMessages)
    (hCall : receiver.call maxMessages = some (answer, after)) :
    Traced prompt after (log ++ returned after answer) read := by
  rw [Receiver.call] at hCall
  split_ifs at hCall with hWait hPend hEmpty
  · cases hCall
    obtain ⟨hBuf, hEnded⟩ := h.pending hPend
    have hCleared : Traced prompt { receiver with pendingEof := false } log read :=
      ⟨h.all, h.marker, fun hNo => absurd hNo (by simp),
        fun n hSome => ⟨(h.waits n hSome).1, rfl⟩, h.log, fun hPrompt => ⟨rfl, (h.since hPrompt).2⟩⟩
    have hLate (hPrompt : prompt = true) : EndedSince log (HandedOut log) := by
      cases (h.since hPrompt).1.symm.trans hPend
    refine hCleared.silent (fun _ => ⟨hBuf, hEnded, hLate⟩) fun batch buffer hEvent => ?_
    cases hEvent
    rfl
  · cases hCall
    rw [returned, append_nil]
    refine { h with waits := fun n hSome => ?_ }
    cases hSome
    exact ⟨hMax, by simpa using hPend⟩
  · cases hCall
    refine h.serve (fun hPrompt hMem => ?_) fun hNone => absurd (serve_eq_nil hMax hNone).1 hEmpty
    exact hEmpty ((h.since hPrompt).2 hMem).1

theorem resume {answer : Answer}
    (hResume : receiver.resume = some (answer, after)) :
    Traced prompt after (log ++ returned after (some answer)) read := by
  rw [Receiver.resume] at hResume
  split at hResume
  · cases hResume
  · next maxMessages batch rest hWait hChan =>
      cases hResume
      obtain ⟨hMax, hPend⟩ := h.waits maxMessages hWait
      refine (h.pop hChan hPend).serve
        (fun hPrompt => h.notMem_tail hPrompt hChan) fun hNone => ?_
      obtain ⟨hBuf, hAfter⟩ := serve_eq_nil hMax hNone
      -- what came first was the marker, and nothing was in the buffer
      obtain ⟨hOld, rfl⟩ := append_eq_nil_iff.mp hBuf
      obtain ⟨rows, hMem, hRows⟩ := h.marker [] [] rest hChan rfl
      refine ⟨hAfter, ⟨rows, hMem, fun e => (hRows e).trans (by simp [hOld])⟩, fun hPrompt => ?_⟩
      exact ((h.since hPrompt).2 (by rw [hChan]; exact mem_cons_self)).2.1
  · split_ifs at hResume
    cases hResume
    rw [returned, append_nil]
    exact { h with waits := fun n hSome => absurd hSome.symm (Option.some_ne_none n) }

/-- Messages that were handed out come back. -/
theorem putBack {nacked : List Entry} (hNacked : ∀ e ∈ nacked, HandedOut log e)
    (hPend : receiver.pendingEof = true ∨ prompt = true ∧ [] ∈ receiver.channel → nacked = []) :
    Traced prompt { receiver with buffer := nacked ++ receiver.buffer } log read := by
  have hSame (e : Entry) (more : List Entry) :
      (HandedOut log e ∨ e ∈ receiver.buffer ++ more) ↔
        HandedOut log e ∨ e ∈ (nacked ++ receiver.buffer) ++ more := by
    rw [append_assoc, mem_append (s := nacked)]
    constructor
    · exact .imp_right .inr
    · rintro (h | hBack | hMem)
      · exact .inl h
      · exact .inl (hNacked e hBack)
      · exact .inr hMem
  refine ⟨fun e => (h.all e).trans (hSame e _), h.marker.imp fun front batch _ hMarker hNone => ?_,
    fun hSet => ?_, h.waits, h.log, fun hPrompt => ⟨(h.since hPrompt).1, fun hMem => ?_⟩⟩
  · obtain ⟨rows, hMem, hRows⟩ := hMarker hNone
    exact ⟨rows, hMem, fun e => (hRows e).trans (hSame e _)⟩
  · obtain ⟨hBuf, hEnded⟩ := h.pending hSet
    exact ⟨by rw [hPend (.inl hSet), hBuf]; rfl, hEnded⟩
  · obtain ⟨hBuf, hSince⟩ := (h.since hPrompt).2 hMem
    exact ⟨by rw [hPend (.inr ⟨hPrompt, hMem⟩), hBuf]; rfl, hSince⟩

end Traced

section Tail

variable {prompt : Bool} {s t : Tail}

/-- What was read are the messages of the records before the position. -/
structure Tail.Reads (prompt : Bool) (s : Tail) : Prop where
  position : s.position ≤ s.file.length
  pending : s.headerPending = unreadAfter s.header (s.file.take s.position)
  traced : Traced prompt s.receiver s.log (entries s.header (s.file.take s.position))

theorem Tail.reads_new (header : Bool) (contents : List (Option CanonicalMessage)) :
    (Tail.new header contents).Reads prompt :=
  ⟨Nat.zero_le _, rfl, .new⟩

theorem Tail.send_traced {read : List Entry} (h : Traced prompt s.receiver s.log read)
    (batch : List Entry) :
    Traced prompt (s.send batch).receiver (s.send batch).log (read ++ batch) ∧ (s.send batch).log =
      s.log := by
  rw [send]
  split_ifs with hBatch
  · rw [hBatch, append_nil]
    exact ⟨h, rfl⟩
  · exact ⟨h.send hBatch, rfl⟩

/-- The marker is sent only after the end of the file was met. -/
theorem Tail.finish_traced {read batch : List Entry} {nothing : Bool} {stop : Option Stop}
    (h : Traced prompt s.receiver s.log read) (hClean : stop ≠ some .error)
    (hNothing : nothing = true → batch = [] ∧ stop ≠ none)
    (hEnd : nothing = true → stop = some .endOfFile → JustEnded s.log read)
    (hPrompt : prompt = true →
      (s.finish batch nothing stop).receiver.channel = s.receiver.channel ++ [[]] →
        s.receiver.channel = [] ∧ s.receiver.buffer = []) :
    Traced prompt (s.finish batch nothing stop).receiver (s.finish batch nothing stop).log
      (read ++ batch) := by
  obtain ⟨hSent, -⟩ := send_traced h batch
  have hMark (hMarked : nothing = true → stop = some .endOfFile) :
      Traced prompt ((s.send batch).mark nothing).receiver ((s.send batch).mark nothing).log
        (read ++ batch) := by
    rw [mark]
    split_ifs with hSend
    · obtain ⟨hNone, -⟩ := hNothing hSend.1
      have hSame : s.send batch = s := by rw [send, if_pos hNone]
      rw [hSame] at hSend hSent ⊢
      refine hSent.mark ?_ fun hOn => hPrompt hOn ?_
      · rw [hNone, append_nil]
        exact hEnd hSend.1 (hMarked hSend.1)
      · rw [hMarked hSend.1, finish, hSame, mark, if_pos hSend]
        rfl
    · exact hSent
  rcases stop with _ | _ | _ | ⟨reason⟩ | _
  · exact hMark fun hSet => absurd rfl (hNothing hSet).2
  · exact hMark fun _ => rfl
  · exact hSent
  · exact { hSent with }
  · exact absurd rfl hClean

theorem Tail.finish_fixed (s : Tail) (batch : List Entry) (nothing : Bool) (stop : Option Stop) :
    (s.finish batch nothing stop).header = s.header ∧ (s.finish batch nothing stop).file = s.file ∧
      (s.finish batch nothing stop).position = s.position ∧
      (s.finish batch nothing stop).headerPending = s.headerPending := by
  rcases stop with _ | _ | _ | ⟨reason⟩ | _ <;> simp only [finish, mark, send] <;>
    split_ifs <;> exact ⟨rfl, rfl, rfl, rfl⟩

variable (h : s.Reads prompt)

include h

theorem Tail.Reads.pass {sight : Sight}
    (hClean : (ConsumerBackend.tail s).Clean prompt (.pass sight))
    (hPass : s.pass sight = some t) : t.Reads prompt := by
  obtain ⟨hReadable, hPrompt⟩ := hClean
  replace hPrompt (hOn : prompt = true) :=
    hPrompt hOn (.tail t) (Option.map_eq_some_iff.mpr ⟨t, hPass, rfl⟩)
  rw [Tail.pass] at hPass
  split_ifs at hPass with hClosed
  split at hPass
  · cases hPass
    exact h
  next records stop hRecords =>
  cases hPass
  obtain ⟨hidden, hUnread⟩ := Sight.records_split hRecords
  have hPosition := h.position
  obtain ⟨taken, hTaken⟩ : ∃ taken, records.take tailBatchSize = taken := ⟨_, rfl⟩
  have hTake : s.file.take (s.position + taken.length) = s.file.take s.position ++ taken := by
    have hPre : taken <+: s.file.drop s.position := by
      rw [hUnread, ← hTaken]
      exact IsPrefix.trans ⟨_, take_append_drop ..⟩ (prefix_append _ _)
    rw [take_add, ← prefix_iff_eq_take.mp hPre]
  have hLen : s.position + taken.length ≤ s.file.length := by
    have hSame := congrArg length hUnread
    rw [length_drop, length_append] at hSame
    have hLe : taken.length ≤ records.length := by
      rw [← hTaken]
      exact length_take_le' ..
    omega
  rw [hTaken] at hPrompt ⊢
  obtain ⟨stopped, hStopped⟩ :
      ∃ stopped, (if records.length < tailBatchSize then some stop else none) = stopped := ⟨_, rfl⟩
  rw [hStopped] at hPrompt ⊢
  obtain ⟨hHeader, hFile, hPos, hPend⟩ := finish_fixed
    { s with
      position := s.position + taken.length
      headerPending := unreadAfter s.headerPending taken
      log := if stopped = some .endOfFile then s.log ++ [.reached (entries s.header s.file)] else
        s.log }
    (entries s.headerPending taken) taken.isEmpty stopped
  refine ⟨?_, ?_, ?_⟩
  · rw [hPos, hFile]
    exact hLen
  · rw [hPend, hHeader, hFile, hPos, hTake, unreadAfter_append, ← h.pending]
  rw [hHeader, hFile, hPos, hTake, entries_append, ← h.pending]
  have hNone : taken.isEmpty = true → records = [] := by
    intro hNothing
    rw [← hTaken, List.isEmpty_iff, take_eq_nil_iff] at hNothing
    exact hNothing.resolve_left (by decide)
  refine finish_traced ?_ ?_ ?_ ?_ hPrompt
  · split_ifs with hEnd
    · exact h.traced.silent trivial fun _ _ hEvent => by cases hEvent
    · exact h.traced
  · rw [← hStopped]
    split_ifs
    · exact fun hError => Sight.stop_ne_error hReadable hRecords (Option.some.inj hError)
    · exact (Option.some_ne_none _).symm
  · intro hNothing
    refine ⟨by rw [isEmpty_iff.mp hNothing]; rfl, ?_⟩
    rw [← hStopped, hNone hNothing]
    exact Option.some_ne_none _
  · intro hNothing hEnd
    rw [hNone hNothing] at hRecords hStopped
    obtain rfl : stop = .endOfFile := Option.some.inj (hStopped.trans hEnd)
    -- nothing follows the position, so everything was read
    have hAll : s.file.take s.position = s.file :=
      take_of_length_le (drop_eq_nil_iff.mp (Sight.records_whole hRecords))
    exact ⟨s.log, entries s.header s.file, if_pos hEnd, fun e => by rw [hAll]⟩

theorem Tail.Reads.answer {receiver : Receiver} {answer : Option Answer}
    (hTraced : Traced prompt receiver (s.log ++ Traced.returned receiver answer)
      (entries s.header (s.file.take s.position))) :
    (s.answer receiver answer).Reads prompt := by
  rcases answer with _ | ⟨batch⟩ | ⟨cause⟩
  · rw [Traced.returned, append_nil] at hTraced
    exact { h with traced := hTraced }
  · exact { h with traced := hTraced }
  · rw [Traced.returned, append_nil] at hTraced
    exact { h with traced := hTraced }

theorem Tail.Reads.step {action : Action} (hClean : (ConsumerBackend.tail s).Clean prompt action)
    (hStep : s.step action = some t) : t.Reads prompt := by
  cases action with
  | append contents =>
    cases hStep
    have hTake :
        (s.file ++ placed s.file.length contents).take s.position = s.file.take s.position :=
      take_append_of_le_length h.position
    refine ⟨?_, ?_, ?_⟩
    · simpa using Nat.le_add_right_of_le h.position
    · exact h.pending.trans (by rw [hTake])
    · rw [hTake]
      exact h.traced
  | pass sight => exact h.pass hClean hStep
  | call maxMessages =>
    obtain ⟨⟨answer, receiver⟩, hCall, rfl⟩ := Option.map_eq_some_iff.mp hStep
    exact h.answer (h.traced.call hClean hCall)
  | resume =>
    obtain ⟨⟨answer, receiver⟩, hResume, rfl⟩ := Option.map_eq_some_iff.mp hStep
    exact h.answer (h.traced.resume hResume)
  | commit dispositions =>
    cases hStep
    exact h

end Tail

section Counted

def totalLines (extraLines : List (Nat × Nat)) : Nat := (extraLines.map Prod.snd).sum

theorem totalLines_insert (id count : Nat) (extraLines : List (Nat × Nat)) :
    totalLines (InsertionMap.insert id count extraLines) ≤ totalLines extraLines + count := by
  induction extraLines with
  | nil => simp [InsertionMap.insert, totalLines]
  | cons entry rest ih =>
    rw [InsertionMap.insert]
    split_ifs <;> simp only [totalLines, map_cons, sum_cons] at ih ⊢ <;> omega

theorem totalLines_remove (id : Nat) (extraLines : List (Nat × Nat)) :
    (InsertionMap.lookup id extraLines).getD 0 + totalLines (InsertionMap.remove id extraLines) ≤
      totalLines extraLines := by
  induction extraLines with
  | nil => exact le_refl 0
  | cons entry rest ih =>
    rw [InsertionMap.lookup, InsertionMap.remove_cons]
    split_ifs <;> simp only [totalLines, map_cons, sum_cons, Option.getD_some] at ih ⊢ <;> omega

/-- A commit takes no more records than are counted for its messages. -/
theorem countLines_total (extraLines : List (Nat × Nat)) (lead : List Entry) :
    (countLines extraLines lead).1 + totalLines (countLines extraLines lead).2 ≤
      lead.length + totalLines extraLines := by
  induction lead generalizing extraLines with
  | nil => simp [countLines]
  | cons entry rest ih =>
    have hRest := ih (InsertionMap.remove entry.message.messageId extraLines)
    have hTaken := totalLines_remove entry.message.messageId extraLines
    simp only [countLines, length_cons]
    omega

end Counted

section Queue

variable {prompt : Bool} {s t : Queue} {p : Pass} {record : Record}
    {past kept body dangling rest : List Record}

def Queue.load (s : Queue) : Nat := s.outstanding.flatten.length + s.receiver.held.length

/-- What was read are the messages of `past`, and the records in memory are
enough for those that a commit takes. -/
structure Queue.Reads (prompt : Bool) (s : Queue) (past kept body unread : List Record) : Prop where
  layout : s.Layout past kept body unread
  lines : body.length = s.linesInMemory
  enough : s.load + totalLines s.extraLines ≤ s.linesInMemory
  traced : Traced prompt s.receiver s.log (entries s.header past)
  handedOut : ∀ e ∈ s.outstanding.flatten, HandedOut s.log e

/-- The same during a pass that has read `read` before. -/
structure Pass.Reads (prompt : Bool) (p : Pass) (read : List Entry)
    (past kept body dangling rest : List Record) : Prop where
  reading : p.Reading past kept body dangling rest
  rows : entries p.queue.header past = read ++ p.batch
  batch : 0 < p.linesRead ↔ p.batch ≠ []
  enough : p.queue.load + p.batch.length + totalLines p.queue.extraLines ≤
    p.queue.linesInMemory + p.linesRead
  traced : Traced prompt p.queue.receiver p.queue.log read
  handedOut : ∀ e ∈ p.queue.outstanding.flatten, HandedOut p.queue.log e

variable {read : List Entry}

theorem Pass.Reads.take (h : p.Reads prompt read past kept body dangling (record :: rest)) :
    ∃ past kept body dangling, (p.take record).Reads prompt read past kept body dangling rest := by
  rcases h.reading.take
    with ⟨entry, rfl, hTake, hOwn, hReading⟩ | ⟨hTake, rfl, rfl, rfl, hSame, hReading⟩ |
      ⟨hTake, -, rfl, rfl, hLog, hSame, hReading⟩ | ⟨hTake, hReading⟩
  all_goals rw [hTake]
  · refine ⟨_, _, _, _, ⟨hReading, ?_, ?_, ?_, h.traced, h.handedOut⟩⟩
    · change entries p.queue.header _ = read ++ (p.batch ++ [entry])
      rw [hOwn, h.rows, append_assoc]
      rfl
    · refine ⟨fun _ => append_ne_nil_of_right_ne_nil _ (cons_ne_nil _ _), fun _ => ?_⟩
      change 0 < p.linesRead + (1 + p.blanks)
      omega
    · have hEnough := h.enough
      have hInsert := totalLines_insert entry.message.messageId p.blanks p.queue.extraLines
      simp only [row, Queue.load] at hEnough ⊢
      split_ifs <;> simp only [length_append, length_singleton] <;> omega
  · exact ⟨_, _, _, _, { h with reading := hReading, rows := hSame.trans h.rows }⟩
  · refine ⟨_, _, _, _, ⟨hReading, hSame.trans h.rows, h.batch, h.enough, ?_, ?_⟩⟩
    · rw [hLog]
      exact h.traced.silent trivial fun _ _ hEvent => by cases hEvent
    · exact fun e hMem => (h.handedOut e hMem).mono
  · exact ⟨_, _, _, _, { h with reading := hReading }⟩

/-- A pass that does not fill its batch has read all records it was given. -/
theorem Pass.Reads.scan {records : List Record}
    (h : p.Reads prompt read past kept body dangling (records ++ rest)) :
    ∃ past kept body dangling later, (p.scan records).1.Reads prompt read past kept body dangling
      later ∧
      ((p.scan records).2 = true → later = rest) ∧
        ((p.scan records).2 = false → (p.scan records).1.batch ≠ []) := by
  induction records generalizing p past kept body dangling with
  | nil => exact ⟨_, _, _, _, _, h, fun _ => rfl, fun hNo => absurd hNo (by simp [scan])⟩
  | cons record records ih =>
    rw [scan]
    split_ifs with hRoom
    · obtain ⟨past, kept, body, dangling, hNext⟩ := h.take
      exact ih hNext
    · refine ⟨_, _, _, _, _, h, fun hYes => absurd hYes (by simp), fun _ hNone => hRoom ?_⟩
      rw [hNone]
      decide

/-- The marker is sent only after the end of the file was met. -/
theorem Pass.Reads.finish {heldBack : Bool} (h : p.Reads prompt read past kept body dangling rest)
    (hEnd : p.batch = [] → heldBack = false → JustEnded p.queue.log read)
    (hPrompt : prompt = true →
      (p.finish heldBack).receiver.channel = p.queue.receiver.channel ++ [[]] →
        p.queue.receiver.channel = [] ∧ p.queue.receiver.buffer = []) :
    (p.finish heldBack).Reads prompt past kept body (dangling ++ rest) := by
  obtain ⟨⟨hLayout, hLines, -, -, -⟩, hRows, hBatch, hEnough, hTraced, hHandedOut⟩ := h
  have hSameLayout : ∀ signaledEof linesInMemory receiver,
      ({ p.queue with signaledEof, linesInMemory, receiver } : Queue).Layout past kept body
        (dangling ++ rest) :=
    fun _ _ _ => { hLayout with }
  rw [Pass.finish] at hPrompt ⊢
  split_ifs at hPrompt ⊢ with hSome hQuiet
  · refine ⟨hSameLayout .., hLines, ?_, ?_, hHandedOut⟩
    · simp only [Queue.load, Receiver.held, Receiver.send, flatten_append, flatten_singleton,
        length_append] at hEnough ⊢
      omega
    · rw [hRows]
      exact hTraced.send (hBatch.mp hSome)
  all_goals
    have hNone : p.batch = [] := by
      by_contra hThere
      exact hSome (hBatch.mpr hThere)
    have hNothing : p.linesRead = 0 := by omega
    rw [hNone, append_nil] at hRows
    rw [hNone, hNothing] at hEnough
    rw [hNothing] at hLines
  · exact ⟨hLayout, hLines, hEnough, hRows ▸ hTraced, hHandedOut⟩
  · refine ⟨hSameLayout .., hLines, ?_, ?_, hHandedOut⟩
    · simpa [Queue.load, Receiver.held, Receiver.send] using hEnough
    · rw [hRows]
      refine hTraced.mark (hEnd hNone ?_) fun hOn => hPrompt hOn rfl
      simpa using (not_or.mp hQuiet).1

variable {unread : List Record}

section

variable (h : s.Reads prompt past kept body unread)

include h

theorem Queue.Reads.pass {sight : Sight}
    (hClean : (ConsumerBackend.queue s).Clean prompt (.pass sight)) :
    ∃ past kept body unread, (s.pass sight).Reads prompt past kept body unread := by
  obtain ⟨hReadable, hPrompt⟩ := hClean
  replace hPrompt (hOn : prompt = true) := hPrompt hOn (.queue (s.pass sight)) rfl
  simp only [ConsumerBackend.receiver] at hPrompt
  rw [Queue.pass] at hPrompt ⊢
  split
  · exact ⟨_, _, _, _, h⟩
  next records stop hRecords =>
  obtain ⟨hidden, hUnread⟩ := Sight.records_split hRecords
  rw [hRecords] at hPrompt
  have hStart : (Pass.mk s [] 0 0).Reads prompt (entries s.header past) past kept body []
      (records ++ hidden) := by
    rw [← hUnread, h.layout.drop_skipped h.lines]
    exact ⟨⟨h.layout, h.lines, rfl, by simp, fun _ => rfl⟩, (append_nil _).symm, by simp, h.enough,
      h.traced, h.handedOut⟩
  obtain ⟨past', kept', body', dangling, later, hScan, hAll, hFull⟩ := hStart.scan
  obtain ⟨hHeader, hHistory⟩ := Prod.mk.inj (Pass.scan_fixed ⟨s, [], 0, 0⟩ records)
  have hReceiver := Pass.scan_receiver ⟨s, [], 0, 0⟩ records
  rcases hRes : Pass.scan ⟨s, [], 0, 0⟩ records with ⟨p, ended⟩
  rw [hRes] at hScan hAll hFull hHeader hHistory hReceiver
  dsimp only at hScan hAll hFull hHeader hHistory hReceiver hPrompt ⊢
  rw [hRes, ← hReceiver] at hPrompt
  by_cases hEnd : ended = true ∧ stop = .endOfFile
  · obtain ⟨rfl, rfl⟩ := hEnd
    obtain rfl : later = [] := by
      rw [hAll rfl]
      exact append_right_eq_self.mp (hUnread.symm.trans (Sight.records_whole hRecords))
    obtain ⟨⟨hLayout, hLines, hBlanks, hBlank, hFresh⟩, hRows, hBatch, hEnough, hTraced,
      hHandedOut⟩ := hScan
    have hLogged : ({ p with queue :=
          { p.queue with log := p.queue.log ++ [.reached (entries s.header s.history)] } } :
            Pass).Reads prompt
        (entries s.header past) past' kept' body' dangling [] :=
      ⟨⟨{ hLayout with }, hLines, hBlanks, hBlank, hFresh⟩, hRows, hBatch, hEnough,
        hTraced.silent trivial (fun _ _ hEvent => by cases hEvent), fun e hMem =>
          (hHandedOut e hMem).mono⟩
    refine ⟨past', kept', body', dangling ++ [], hLogged.finish (fun hNone _ => ?_) hPrompt⟩
    -- all that was read before is all there is in the file
    have hWhole : entries s.header s.history = entries s.header past := by
      rw [← hHistory, hLayout.history, append_nil, entries_append, entries_blanks hBlank,
        append_nil, ← hHeader, hRows, hNone, append_nil, hHeader]
    exact ⟨_, _, rfl, fun e => by rw [hWhole]⟩
  · rw [if_neg hEnd] at hPrompt ⊢
    refine ⟨past', kept', body', dangling ++ later, hScan.finish (fun hNone hQuiet => ?_) hPrompt⟩
    have hEnded : ended = true := by
      by_contra hNot
      exact hFull (by simpa using hNot) hNone
    exact absurd ⟨hEnded, fun hStop => hEnd ⟨hEnded, hStop⟩, Sight.stop_ne_error hReadable hRecords⟩
      (of_decide_eq_false hQuiet)

theorem Queue.Reads.answer {receiver : Receiver}
    {answer : Option Answer}
    (hHeld : (answer.map Answer.messages).getD [] ++ receiver.held = s.receiver.held)
    (hTraced : Traced prompt receiver (s.log ++ Traced.returned receiver answer)
      (entries s.header past)) :
    (s.answer receiver answer).Reads prompt past kept body unread := by
  obtain ⟨hLayout, hLines, hEnough, -, hHandedOut⟩ := h
  have hSameLayout : ∀ receiver outstanding log,
      ({ s with receiver, outstanding, log } : Queue).Layout past kept body unread :=
    fun _ _ _ => { hLayout with }
  rw [load, ← hHeld, length_append] at hEnough
  rcases answer with _ | ⟨batch⟩ | ⟨cause⟩
  · rw [Traced.returned, append_nil] at hTraced
    refine ⟨hSameLayout .., hLines, ?_, hTraced, hHandedOut⟩
    simpa [load, Queue.answer] using hEnough
  · refine ⟨hSameLayout .., hLines, ?_, hTraced, fun e hMem => ?_⟩
    · simp only [load, Queue.answer, flatten_append, flatten_singleton, length_append]
      simp only [Option.map_some, Answer.messages, Option.getD_some] at hEnough
      omega
    · rw [Queue.answer, flatten_append, flatten_singleton, mem_append] at hMem
      rcases hMem with hMem | hMem
      · exact (hHandedOut e hMem).mono
      · exact ⟨batch, receiver.buffer, by simp [Queue.answer], hMem⟩
  · rw [Traced.returned, append_nil] at hTraced
    refine ⟨hSameLayout .., hLines, ?_, hTraced, hHandedOut⟩
    simpa [load, Queue.answer, Answer.messages] using hEnough

theorem Queue.Reads.commit {dispositions : Dispositions}
    (hMarker : (ConsumerBackend.queue s).Clean prompt (.commit dispositions))
    (hCommit : s.commit dispositions = some t) : ∃ body, t.Reads prompt past kept body unread := by
  obtain ⟨lead, nacked, later, acks, others, hOutst, -, -, -, hNack, rfl⟩ :=
    commit_cases hCommit
  obtain ⟨hLayout, hLines, hEnough, hTraced, hHandedOut⟩ := h
  have hCount := countLines_total s.extraLines lead
  have hLoad : s.load = lead.length + (s.settled lead nacked later dispositions).load := by
    simp only [load, hOutst, settled, removeLines, Receiver.held, flatten_cons, length_append]
    omega
  -- the records that are counted are in memory
  obtain ⟨front, back, rfl, hFront⟩ : ∃ front back, body = front ++ back ∧
      front.length = (countLines s.extraLines lead).1 := by
    refine ⟨body.take _, body.drop _, (take_append_drop (countLines s.extraLines lead).1 body).symm,
      ?_⟩
    rw [length_take]
    omega
  obtain ⟨hLayout', hLog⟩ := hLayout.settled hFront nacked later dispositions
  have hBack : ∀ e ∈ nacked, HandedOut s.log e := by
    intro e hMem
    refine hHandedOut e ?_
    rw [hOutst]
    simp [hMem]
  have hReturned : Traced prompt { s.receiver with buffer := nacked ++ s.receiver.buffer }
      (s.log ++ [.committed ((lead ++ nacked).zip dispositions)]) (entries s.header past) := by
    refine (hTraced.putBack hBack fun hPend =>
      ?_).silent trivial fun _ _ hEvent => by cases hEvent
    by_contra hSome
    exact hMarker hPend (hNack hSome)
  refine ⟨back, ⟨hLayout', ?_, ?_, ?_, ?_⟩⟩
  · rw [length_append] at hLines
    change back.length = s.linesInMemory - (countLines s.extraLines lead).1
    omega
  · change (s.settled lead nacked later dispositions).load + totalLines
      (countLines s.extraLines lead).2 ≤
      s.linesInMemory - (countLines s.extraLines lead).1
    omega
  · rw [hLog]
    exact hReturned.deleted front
  · intro e hMem
    rw [hLog, append_assoc]
    refine (hHandedOut e ?_).mono
    rw [hOutst]
    exact mem_append_right _ hMem

end

theorem Queue.reads_new (header : Bool) (contents : List (Option CanonicalMessage)) :
    (Queue.new header contents).Reads prompt [] [] [] (placed 0 contents) :=
  ⟨⟨rfl, rfl, rfl, rfl, fun _ => ⟨rfl, rfl⟩⟩, rfl, Nat.le_refl 0, .new, by simp [Queue.new]⟩

theorem Queue.Reads.step {action : Action} (h : s.Reads prompt past kept body unread)
    (hClean : (ConsumerBackend.queue s).Clean prompt action) (hStep : s.step action = some t) :
    ∃ past kept body unread, t.Reads prompt past kept body unread := by
  cases action with
  | append contents =>
    cases hStep
    obtain ⟨hLayout, hLines, hEnough, hTraced, hHandedOut⟩ := h
    refine ⟨past, kept, body, unread ++ placed s.history.length contents,
      ⟨{ hLayout with history := ?_, file := ?_ }, hLines, hEnough, hTraced, hHandedOut⟩⟩
    · simp [hLayout.history]
    · simp [hLayout.file]
  | pass sight =>
    cases hStep
    exact h.pass hClean
  | call maxMessages =>
    obtain ⟨⟨answer, receiver⟩, hCall, rfl⟩ := Option.map_eq_some_iff.mp hStep
    exact ⟨_, _, _, _, h.answer (call_held hCall) (h.traced.call hClean hCall)⟩
  | resume =>
    obtain ⟨⟨answer, receiver⟩, hResume, rfl⟩ := Option.map_eq_some_iff.mp hStep
    exact ⟨_, _, _, _, h.answer (resume_held hResume) (h.traced.resume hResume)⟩
  | commit dispositions =>
    obtain ⟨body, hReads⟩ := h.commit hClean hStep
    exact ⟨_, _, _, _, hReads⟩

end Queue

namespace ConsumerBackend

variable {prompt : Bool}

def Reads (prompt : Bool) : ConsumerBackend → Prop
  | .tail consumer => consumer.Reads prompt
  | .queue consumer => ∃ past kept body unread, consumer.Reads prompt past kept body unread

theorem reads_new (delete header : Bool) (contents : List (Option CanonicalMessage)) :
    (new delete header contents).Reads prompt := by
  cases delete with
  | false => exact Tail.reads_new header contents
  | true => exact ⟨_, _, _, _, Queue.reads_new header contents⟩

theorem Reads.step {c d : ConsumerBackend} {action : Action} (h : c.Reads prompt)
    (hClean : c.Clean prompt action) (hStep : c.step action = some d) : d.Reads prompt := by
  cases c with
  | tail consumer =>
    obtain ⟨after, hAfter, rfl⟩ := Option.map_eq_some_iff.mp hStep
    exact Tail.Reads.step h hClean hAfter
  | queue consumer =>
    obtain ⟨after, hAfter, rfl⟩ := Option.map_eq_some_iff.mp hStep
    obtain ⟨past, kept, body, unread, hReads⟩ := h
    exact hReads.step hClean hAfter

theorem Reads.drained {c : ConsumerBackend} (h : c.Reads prompt) :
    History.EachAfter (Drained prompt) c.log := by
  cases c with
  | tail consumer => exact h.traced.log
  | queue consumer =>
    obtain ⟨past, kept, body, unread, hReads⟩ := h
    exact hReads.traced.log

end ConsumerBackend

/-- A batch without messages is returned only when the reader met an end of the
file up to which all messages were handed out, and no others were, with nothing in
the buffer: for runs without read errors, in which at least one message is asked
for and no nack is committed while the marker waits to be returned. If the reader
never sends the marker behind messages that wait, and no nack is committed while it
is on its way, it met that end since the last batch with messages. -/
theorem empty_batch_drained {prompt delete header : Bool}
    {contents : List (Option CanonicalMessage)} {actions : List Action} {c : ConsumerBackend}
    (hClean : Machine.Guarded ConsumerBackend.step (ConsumerBackend.Clean prompt)
      (.new delete header contents) actions)
    (hRun : run ConsumerBackend.step (.new delete header contents) actions = some c) :
    History.EachAfter (Drained prompt) c.log := by
  have hReads : c.Reads prompt := invariant_of_guarded (fun _ _ _ => .step)
    (ConsumerBackend.reads_new delete header contents) hClean hRun
  exact hReads.drained

/-- A message that is read, handed out and acknowledged, and then the marker, from
the deleting consumer. -/
theorem empty_batch_drained_queue :
    ∃ c, run ConsumerBackend.step (.new true false [some ⟨1, [], ∅⟩, none])
        [.pass .whole, .pass .openFails, .call 2, .resume, .pass .whole, .commit [.ack], .call 2,
          .resume] = some c ∧
      History.EachAfter (Drained true) c.log ∧ .returned [] [] ∈ c.log := by
  refine exists_run (fun c => .returned [] [] ∈ c.log) ⟨_, rfl, by decide⟩ fun c hRun hMarker => ?_
  exact ⟨empty_batch_drained (by decide) hRun, hMarker⟩

/-- A pass of the tail reader in which the first read fails sends the marker, with
a record unread. -/
theorem read_error_returns_marker :
    ∃ c, run ConsumerBackend.step (.new false false [some ⟨1, [], ∅⟩])
        [.pass (.fails 0), .call 1, .resume] = some c ∧ c.log = [.returned [] []] ∧
      ¬ History.EachAfter (Drained false) c.log := by
  refine ⟨_, rfl, rfl, fun hEach => ?_⟩
  obtain ⟨-, ⟨rows, hMem, -⟩, -⟩ := hEach [] (.returned [] []) [] rfl rfl
  cases hMem

/-- A nack that is committed while the marker waits to be returned: the next
batch is empty although its message is back in the buffer. -/
example :
    (run ConsumerBackend.step (.new true false [some ⟨1, [], ∅⟩])
        [.pass .whole, .pass .whole, .call 2, .resume, .commit [.nack], .call 2]).map
      (fun c => c.log.getLast?) = some (some (.returned [] [⟨0, ⟨1, [], ∅⟩⟩])) := by
  rfl

/-- A marker that waits behind a message: the reader met the end of the file before
the batch with the message was returned, and not since. -/
example :
    (run ConsumerBackend.step (.new false false [some ⟨1, [], ∅⟩])
        [.pass .whole, .pass .whole, .call 2, .resume, .call 2]).map (fun c => c.log.drop 2) =
      some [.returned [⟨0, ⟨1, [], ∅⟩⟩] [], .returned [] []] := by
  rfl

end MqBridge.File
