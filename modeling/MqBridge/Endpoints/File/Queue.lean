import Mathlib.Data.List.TakeWhile
import MqBridge.Collections.InsertionMap
import MqBridge.Collections.Places
import MqBridge.Endpoints.File.Receiver
import MqBridge.Machine.Run

/-! The file consumer that deletes what it has delivered. A thread reads ahead of
the consumer, and a commit removes from the front of the file as many records as
it acknowledges. A reader pass, a commit and a removal hold the lock of the file,
so each is one step. -/
namespace MqBridge.File

open List InsertionMap

/-- The consumer, its reader and its file. `header` is set for a CSV file with
column names. The program does not see `history`, all records the file ever
had, and `log`. -/
structure Queue where
  header : Bool
  file : List Record
  linesInMemory : Nat
  /-- The blank records in front of a message, by its id. -/
  extraLines : List (Nat × Nat)
  keptHeader : Nat
  headerPending : Bool
  signaledEof : Bool
  receiver : Receiver
  /-- The batches that are handed out and not committed, the oldest first. -/
  outstanding : List (List Entry)
  history : List Record
  log : List Event

def Queue.new (header : Bool) (contents : List (Option CanonicalMessage)) : Queue where
  header := header
  file := placed 0 contents
  linesInMemory := 0
  extraLines := []
  keptHeader := 0
  headerPending := header
  signaledEof := false
  receiver := .new
  outstanding := []
  history := placed 0 contents
  log := []

def Queue.removeLines (s : Queue) (count : Nat) : Queue :=
  { s with
    file := s.file.take s.keptHeader ++ s.file.drop (s.keptHeader + count)
    log := s.log ++ ((s.file.drop s.keptHeader).take count).map .deleted }

structure Pass where
  queue : Queue
  batch : List Entry
  linesRead : Nat
  blanks : Nat

def Pass.take (p : Pass) (record : Record) : Pass :=
  let s := p.queue
  match parseMessage s.headerPending record with
  | (some entry, unread) =>
    { queue :=
        { s with
          headerPending := unread
          extraLines :=
            if 0 < p.blanks then insert entry.message.messageId p.blanks s.extraLines
            else s.extraLines }
      batch := p.batch ++ [entry]
      linesRead := p.linesRead + (1 + p.blanks)
      blanks := 0 }
  | (none, unread) =>
    if record.message.isSome then
      { p with queue := { s with headerPending := unread, keptHeader := 1 } }
    else if s.linesInMemory = 0 ∧ p.linesRead = 0 ∧ p.blanks = 0 then
      -- nothing that is not acknowledged precedes it
      { p with queue := s.removeLines 1 }
    else { p with blanks := p.blanks + 1 }

def queueBatchSize : Nat := 128

def Pass.scan (p : Pass) : List Record → Pass × Bool
  | [] => (p, true)
  | record :: rest =>
    if p.batch.length < queueBatchSize then (p.take record).scan rest else (p, false)

/-- What a pass sends when it has read: a batch, nothing while a record is held
back, and else once the marker. -/
def Pass.finish (p : Pass) (heldBack : Bool) : Queue :=
  let s := p.queue
  if 0 < p.linesRead then
    { s with
      linesInMemory := s.linesInMemory + p.linesRead
      receiver := s.receiver.send p.batch
      signaledEof := false }
  else if heldBack ∨ s.signaledEof then s
  else { s with receiver := s.receiver.send [], signaledEof := true }

def Queue.pass (s : Queue) (sight : Sight) : Queue :=
  match sight.records (s.keptHeader + s.linesInMemory) s.file with
  | none => s
  | some (records, stop) =>
    let (p, ended) := (Pass.mk s [] 0 0).scan records
    let p :=
      if ended ∧ stop = .endOfFile then
        { p with queue :=
          { p.queue with log := p.queue.log ++ [.reached (entries s.header s.history)] } }
      else p
    p.finish (decide (ended ∧ stop ≠ .endOfFile ∧ stop ≠ .error))

/-- How many records the messages are in the file, blank ones before them included. -/
def countLines (extraLines : List (Nat × Nat)) : List Entry → Nat × List (Nat × Nat)
  | [] => (0, extraLines)
  | entry :: rest =>
    let id := entry.message.messageId
    let (lines, left) := countLines (remove id extraLines) rest
    (1 + (InsertionMap.lookup id extraLines).getD 0 + lines, left)

/-- The commit of the oldest batch: everything from the first nack on goes back
to the buffer, and what is acknowledged before it is removed. -/
def Queue.commit (s : Queue) (dispositions : Dispositions) : Option Queue :=
  match s.outstanding with
  | [] => none
  | batch :: later =>
    if dispositions.length = batch.length then
      let leadingAcks := (dispositions.takeWhile fun d => decide (d ≠ .nack)).length
      let (lines, extraLines) := countLines s.extraLines (batch.take leadingAcks)
      let released : Queue :=
        { s with
          outstanding := later
          receiver := { s.receiver with buffer := batch.drop leadingAcks ++ s.receiver.buffer }
          log := s.log ++ [.committed (batch.zip dispositions)] }
      some
        { released.removeLines lines with
          extraLines := extraLines
          linesInMemory := s.linesInMemory - lines }
    else none

def Queue.answer (s : Queue) (receiver : Receiver) : Option Answer → Queue
  | some (.batch batch) =>
    { s with
      receiver := receiver
      outstanding := s.outstanding ++ [batch]
      log := s.log ++ [.returned batch receiver.buffer] }
  | some (.error _) | none => { s with receiver := receiver }

def Queue.step (s : Queue) : Action → Option Queue
  | .append contents =>
    some
      { s with
        file := s.file ++ placed s.history.length contents
        history := s.history ++ placed s.history.length contents }
  | .pass sight => some (s.pass sight)
  | .call maxMessages =>
    (s.receiver.call maxMessages).map fun (answer, receiver) => s.answer receiver answer
  | .resume => s.receiver.resume.map fun (answer, receiver) => s.answer receiver (some answer)
  | .commit dispositions => s.commit dispositions

/-- The file is the kept header, the records that are in memory and those that
are not read. -/
structure Queue.Layout (s : Queue) (past kept body unread : List Record) : Prop where
  history : s.history = past ++ unread
  file : s.file = kept ++ (body ++ unread)
  keptHeader : kept.length = s.keptHeader
  pending : s.headerPending = unreadAfter s.header past
  fresh : s.headerPending = true → kept = [] ∧ body = []

/-- How far a pass has come: `rest` is still to be read, and the blank records
`dangling` before it wait for a message. -/
structure Pass.Reading (p : Pass) (past kept body dangling rest : List Record) : Prop where
  layout : p.queue.Layout past kept body (dangling ++ rest)
  lines : body.length = p.queue.linesInMemory + p.linesRead
  blanks : dangling.length = p.blanks
  blank : ∀ r ∈ dangling, r.message = none
  fresh : p.queue.headerPending = true → dangling = []

def Entry.record (entry : Entry) : Record := ⟨entry.place, some entry.message⟩

section Reading

variable {p : Pass} {record : Record} {past kept body dangling rest : List Record}

def Pass.row (p : Pass) (entry : Entry) : Pass where
  queue :=
    { p.queue with
      extraLines :=
        if 0 < p.blanks then insert entry.message.messageId p.blanks p.queue.extraLines
        else p.queue.extraLines }
  batch := p.batch ++ [entry]
  linesRead := p.linesRead + (1 + p.blanks)
  blanks := 0

def Pass.named (p : Pass) : Pass :=
  { p with queue := { p.queue with headerPending := false, keptHeader := 1 } }

/-- The records that a pass skips are those that were read. -/
theorem Queue.Layout.drop_skipped {s : Queue} {unread : List Record}
    (h : s.Layout past kept body unread)
    (hLines : body.length = s.linesInMemory) :
    s.file.drop (s.keptHeader + s.linesInMemory) = unread := by
  rw [h.file, ← h.keptHeader, ← hLines, ← append_assoc]
  exact drop_left' (by simp)

/-- What a record does to a pass: it has a message, or the column names, or it is
a blank one that is removed at once or stays for the next message. -/
theorem Pass.Reading.take (h : p.Reading past kept body dangling (record :: rest)) :
    (∃ entry, record = entry.record ∧ p.take record = p.row entry ∧
      (∀ more, entries p.queue.header (past ++ (dangling ++ record :: more)) =
        entries p.queue.header past ++ entry :: entries false more) ∧
      (p.row entry).Reading (past ++ (dangling ++ [record])) kept (body ++ (dangling ++ [record]))
        [] rest) ∨ (p.take record = p.named ∧ kept = [] ∧ body = [] ∧ dangling = [] ∧
      entries p.queue.header (past ++ [record]) = entries p.queue.header past ∧
        p.named.Reading (past ++ [record]) [record] [] [] rest) ∨
    (p.take record = { p with queue := p.queue.removeLines 1 } ∧ record.message = none ∧
      body = [] ∧ dangling = [] ∧ (p.queue.removeLines 1).log = p.queue.log ++ [.deleted record] ∧
      entries p.queue.header (past ++ [record]) = entries p.queue.header past ∧
      ({ p with queue := p.queue.removeLines 1 } : Pass).Reading (past ++ [record]) kept []
        [] rest) ∨ (p.take record = { p with blanks := p.blanks + 1 } ∧
      ({ p with blanks := p.blanks + 1 } : Pass).Reading past kept body
        (dangling ++ [record]) rest) := by
  obtain ⟨place, message⟩ := record
  have hLayout := h.layout
  have hLines := h.lines
  have hBlanks := h.blanks
  have hRead := hLayout.pending
  cases message with
  | some message =>
    cases hPend : p.queue.headerPending with rw [hPend] at hRead
    | false =>
      refine .inl ⟨⟨place, message⟩, rfl, ?_, fun more => ?_, ?_⟩
      · simp [take, row, parseMessage, hPend]
      · simp [entries_append, entries_blanks h.blank, unreadAfter_blanks h.blank, ← hRead, entries,
          parseMessage]
      · constructor
        · refine ⟨?_, ?_, hLayout.keptHeader, ?_, ?_⟩
          · simp [row, hLayout.history]
          · simp [row, hLayout.file]
          · simp [row, unreadAfter_append, unreadAfter_blanks h.blank, ← hRead, unreadAfter,
            parseMessage, hPend]
          · simp [row, hPend]
        · simp only [row, length_append, length_singleton]
          omega
        · rfl
        · simp
        · intro _
          rfl
    | true =>
      obtain ⟨rfl, rfl⟩ := hLayout.fresh hPend
      obtain rfl := h.fresh hPend
      refine .inr (.inl ⟨?_, rfl, rfl, rfl, ?_, ?_⟩)
      · simp [take, named, parseMessage, hPend]
      · simp [entries_append, ← hRead, entries, parseMessage]
      · constructor
        · refine ⟨?_, ?_, rfl, ?_, ?_⟩
          · simpa [named] using hLayout.history
          · simpa [named] using hLayout.file
          · simp [named, unreadAfter_append, ← hRead, unreadAfter, parseMessage]
          · simp [named]
        · exact hLines
        · exact hBlanks
        · simp
        · intro _
          rfl
  | none =>
    by_cases hFront : p.queue.linesInMemory = 0 ∧ p.linesRead = 0 ∧ p.blanks = 0
    · obtain rfl : body = [] := eq_nil_of_length_eq_zero (by omega)
      obtain rfl : dangling = [] := eq_nil_of_length_eq_zero (by omega)
      refine .inr (.inr (.inl ⟨?_, rfl, rfl, rfl, ?_, ?_, ?_⟩))
      · simp [take, parseMessage, hFront]
      · simp [Queue.removeLines, hLayout.file, ← hLayout.keptHeader]
      · simp [entries_append, entries, parseMessage]
      · constructor
        · refine ⟨?_, ?_, hLayout.keptHeader, ?_, hLayout.fresh⟩
          · simpa [Queue.removeLines] using hLayout.history
          · simp [Queue.removeLines, hLayout.file, ← hLayout.keptHeader]
          · simp [Queue.removeLines, hLayout.pending, unreadAfter_append, unreadAfter, parseMessage]
        · simpa [Queue.removeLines] using hLines
        · exact hBlanks
        · simp
        · intro _
          rfl
    · refine .inr (.inr (.inr ⟨?_, ?_⟩))
      · simp [take, parseMessage, hFront]
      · constructor
        · simpa using hLayout
        · exact hLines
        · simp [hBlanks]
        · exact Places.forall_mem_snoc h.blank rfl
        · intro hPend
          -- while the names are unread nothing is in memory, and the record would be removed
          obtain rfl := h.fresh hPend
          obtain ⟨-, rfl⟩ := hLayout.fresh hPend
          exact absurd ⟨by simp at hLines; omega, by simp at hLines; omega, hBlanks.symm⟩ hFront

end Reading

section Fixed

/-- What does not change under a pass: the setting and the records it starts with. -/
def Queue.fixed (s : Queue) : Bool × List Record := (s.header, s.history)

theorem Pass.take_fixed (p : Pass) (record : Record) :
    (p.take record).queue.fixed = p.queue.fixed := by
  rw [take]
  rcases parseMessage p.queue.headerPending record with ⟨_ | entry, unread⟩
  · split_ifs <;> rfl
  · rfl

theorem Pass.scan_fixed (p : Pass) (records : List Record) :
    (p.scan records).1.queue.fixed = p.queue.fixed := by
  induction records generalizing p with
  | nil => rfl
  | cons record rest ih =>
    rw [scan]
    split_ifs
    · exact (ih _).trans (take_fixed p record)
    · rfl

theorem Pass.scan_receiver (p : Pass) (records : List Record) :
    (p.scan records).1.queue.receiver = p.queue.receiver := by
  induction records generalizing p with
  | nil => rfl
  | cons record rest ih =>
    rw [scan]
    split_ifs
    · refine (ih _).trans ?_
      rw [take]
      rcases parseMessage p.queue.headerPending record with ⟨_ | entry, unread⟩
      · split_ifs <;> rfl
      · rfl
    · rfl

theorem Queue.pass_fixed (s : Queue) (sight : Sight) : (s.pass sight).fixed = s.fixed := by
  rw [pass]
  split
  · rfl
  · next records stop _ =>
      rw [← Pass.scan_fixed ⟨s, [], 0, 0⟩ records]
      dsimp only [Pass.finish]
      split_ifs <;> rfl

end Fixed

/-- A batch whose first messages `lead` are acknowledged and whose others are not
is committed. -/
def Queue.settled (s : Queue) (lead nacked : List Entry) (later : List (List Entry))
    (dispositions : Dispositions) : Queue :=
  let released : Queue :=
    { s with
      outstanding := later
      receiver := { s.receiver with buffer := nacked ++ s.receiver.buffer }
      log := s.log ++ [.committed ((lead ++ nacked).zip dispositions)] }
  { released.removeLines (countLines s.extraLines lead).1 with
    extraLines := (countLines s.extraLines lead).2
    linesInMemory := s.linesInMemory - (countLines s.extraLines lead).1 }

/-- A commit removes the first records that are in memory. -/
theorem Queue.Layout.settled {s : Queue} {past kept front back unread : List Record}
    {lead : List Entry}
    (h : s.Layout past kept (front ++ back) unread)
    (hCount : front.length = (countLines s.extraLines lead).1)
    (nacked : List Entry) (later : List (List Entry)) (dispositions : Dispositions) :
    (s.settled lead nacked later dispositions).Layout past kept back unread ∧
      (s.settled lead nacked later dispositions).log =
        s.log ++ [.committed ((lead ++ nacked).zip dispositions)] ++ front.map .deleted := by
  refine ⟨{ h with file := ?_, fresh := fun hPend => ?_ }, ?_⟩
  · simp [Queue.settled, removeLines, h.file, ← h.keptHeader, ← hCount]
  · obtain ⟨hKept, hBody⟩ := h.fresh hPend
    exact ⟨hKept, (append_eq_nil_iff.mp hBody).2⟩
  · simp [Queue.settled, removeLines, h.file, ← h.keptHeader, ← hCount]

theorem Queue.commit_cases {s t : Queue} {dispositions : Dispositions}
    (hCommit : s.commit dispositions = some t) :
    ∃ lead nacked later acks rest, s.outstanding = (lead ++ nacked) :: later ∧
      dispositions = acks ++ rest ∧ lead.length = acks.length ∧ (∀ d ∈ acks, d ≠ .nack) ∧
      (nacked ≠ [] → .nack ∈ dispositions) ∧ t = s.settled lead nacked later dispositions := by
  rw [commit] at hCommit
  split at hCommit
  · cases hCommit
  next batch later hOutst =>
  split_ifs at hCommit with hLen
  obtain ⟨acks, hAcks⟩ : ∃ acks, (dispositions.takeWhile fun d => decide (d ≠ .nack)) = acks :=
    ⟨_, rfl⟩
  have hSplit : acks ++ (dispositions.dropWhile fun d => decide (d ≠ .nack)) = dispositions := by
    rw [← hAcks]
    exact takeWhile_append_dropWhile
  have hLe : acks.length ≤ batch.length := by
    rw [← hLen, ← hSplit]
    simp
  have hBatch := take_append_drop acks.length batch
  refine ⟨batch.take acks.length, batch.drop acks.length, later, acks, _, ?_, hSplit.symm, ?_, ?_,
    ?_, ?_⟩
  · rw [hBatch, hOutst]
  · simpa using hLe
  · intro d hMem
    rw [← hAcks] at hMem
    simpa using mem_takeWhile_imp hMem
  · intro hSome
    by_contra hNone
    -- without a nack all dispositions are taken
    have hAll : acks = dispositions := by
      rw [← hAcks]
      refine takeWhile_eq_self_iff.mpr fun d hMem => decide_eq_true ?_
      rintro rfl
      exact hNone hMem
    exact hSome (drop_eq_nil_of_le (by rw [hAll, hLen]))
  · rw [hAcks] at hCommit
    rw [settled, hBatch]
    exact (Option.some.inj hCommit).symm

end MqBridge.File
