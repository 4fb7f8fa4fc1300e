import MqBridge.Endpoints.File.Queue

/-! What the deleting file consumer removes from its file. A commit counts
records from the front, so it removes those of its own messages only as long as
the messages in memory lie in the file in the order in which they are committed. -/
namespace MqBridge.File

open InsertionMap Option Machine
open List hiding lookup insert

/-- What the messages of a record's place last went through. -/
inductive Delivery where
  | never
  | handedOut
  | committed (disposition : MessageDisposition)
  deriving DecidableEq

def Delivery.after (place : Nat) (delivery : Delivery) : Event → Delivery
  | .returned batch _ => if place ∈ batch.map Entry.place then .handedOut else delivery
  | .committed batch =>
    ((batch.find? fun item => item.1.place = place).map fun item => .committed item.2).getD delivery
  | .reached _ | .deleted _ => delivery

def latest (log : List Event) (place : Nat) : Delivery := log.foldl (Delivery.after place) .never

/-- A record that is deleted is blank, or the latest delivery of its message was
committed and not with a nack. -/
def Acknowledged (log : List Event) : Event → Prop
  | .deleted record =>
    record.message ≠ none → ∃ d, d ≠ .nack ∧ latest log record.place = .committed d
  | .reached _ | .returned _ _ | .committed _ => True

/-- A nack is committed only when no later batch is handed out. -/
def Queue.NackAlone (s : Queue) : Action → Prop
  | .commit dispositions => MessageDisposition.nack ∈ dispositions → s.outstanding.tail.flatten = []
  | .append _ | .pass _ | .call _ | .resume => True

instance Queue.decidableNackAlone (s : Queue) : (a : Action) → Decidable (s.NackAlone a)
  | .commit dispositions =>
    inferInstanceAs
      (Decidable (MessageDisposition.nack ∈ dispositions → s.outstanding.tail.flatten = []))
  | .append _ | .pass _ | .call _ | .resume => .isTrue trivial

/-- Blank records can be told apart by the ids of the messages after them. -/
def Queue.Distinct (s : Queue) : Prop :=
  ((entries s.header s.history).map fun e => e.message.messageId).Nodup ∨
    ∀ record ∈ s.history, record.message ≠ none

/-- The messages in memory, in the order in which they are committed. -/
def Queue.items (s : Queue) : List Entry := s.outstanding.flatten ++ s.receiver.held

/-- The records of the messages, each after as many blank ones as are counted
for it. -/
inductive Laid (extraLines : List (Nat × Nat)) : List Entry → List Record → Prop
  | nil : Laid extraLines [] []
  | cons {entry : Entry} {items : List Entry} {blanks body : List Record}
      (hBlank : ∀ r ∈ blanks, r.message = none)
      (hCount : (lookup entry.message.messageId extraLines).getD 0 = blanks.length)
      (hRest : Laid extraLines items body) :
      Laid extraLines (entry :: items) (blanks ++ entry.record :: body)

section Laid

variable {extraLines others : List (Nat × Nat)} {items lead : List Entry} {body : List Record}

theorem Laid.congr (h : Laid extraLines items body)
    (hSame : ∀ e ∈ items, lookup e.message.messageId others =
      lookup e.message.messageId extraLines) : Laid others items body := by
  induction h with
  | nil => exact .nil
  | cons hBlank hCount _ ih =>
    obtain ⟨hEntry, hItems⟩ := forall_mem_cons.mp hSame
    exact .cons hBlank (hEntry ▸ hCount) (ih hItems)

theorem Laid.snoc {entry : Entry} {blanks : List Record} (h : Laid extraLines items body)
    (hBlank : ∀ r ∈ blanks, r.message = none)
    (hCount : (lookup entry.message.messageId extraLines).getD 0 = blanks.length) :
    Laid extraLines (items ++ [entry]) (body ++ (blanks ++ [entry.record])) := by
  induction h with
  | nil => exact .cons hBlank hCount .nil
  | cons hBlank' hCount' _ ih =>
    rw [append_assoc]
    exact .cons hBlank' hCount' ih

/-- Either no two messages have the same id, or no blank records are counted. -/
def Apart (extraLines : List (Nat × Nat)) (items : List Entry) : Prop :=
  (items.map fun e => e.message.messageId).Nodup ∨ extraLines = []

/-- What a commit counts for the messages at the front are their records. -/
theorem Laid.split (hApart : Apart extraLines (lead ++ items))
    (h : Laid extraLines (lead ++ items) body) :
    ∃ front back, body = front ++ back ∧ front.length = (countLines extraLines lead).1 ∧
      (∀ r ∈ front, r.message ≠ none → ∃ e ∈ lead, e.place = r.place) ∧
      Laid (countLines extraLines lead).2 items back := by
  induction lead generalizing extraLines body with
  | nil => exact ⟨[], body, rfl, rfl, by simp, h⟩
  | cons entry lead ih =>
    rcases h with _ | ⟨hBlank, hCount, hRest⟩
    rename_i blanks body
    -- the count of another message stays when that of this one is taken
    have hOthers : Laid (remove entry.message.messageId extraLines) (lead ++ items) body := by
      refine hRest.congr fun e hMem => ?_
      rw [lookup_remove]
      split_ifs with hSame
      · rcases hApart with hNodup | rfl
        · refine absurd ?_ (nodup_cons.mp hNodup).1
          exact mem_map.mpr ⟨e, hMem, hSame.symm⟩
        · rfl
      · rfl
    have hApart' : Apart (remove entry.message.messageId extraLines) (lead ++ items) :=
      hApart.imp (fun hNodup => (nodup_cons.mp hNodup).2) fun hNone => by rw [hNone]; rfl
    obtain ⟨front, back, rfl, hLen, hFront, hBack⟩ := ih hApart' hOthers
    refine ⟨blanks ++ entry.record :: front, back, by simp, ?_, ?_, hBack⟩
    · simp only [countLines, length_append, length_cons]
      omega
    · intro r hMem hMsg
      rcases mem_append.mp hMem with hMem | hMem
      · exact absurd (hBlank r hMem) hMsg
      · rcases mem_cons.mp hMem with rfl | hMem
        · exact ⟨entry, mem_cons_self, rfl⟩
        · obtain ⟨e, hLead, hPlace⟩ := hFront r hMem hMsg
          exact ⟨e, mem_cons_of_mem _ hLead, hPlace⟩

end Laid

section Log

variable {log : List Event}

@[simp] theorem latest_deleted (log : List Event) (record : Record) :
    latest (log ++ [.deleted record]) = latest log := by
  funext place
  simp [latest, Delivery.after]

theorem eachAfter_deleted {records : List Record} (hLog : History.EachAfter Acknowledged log)
    (hRecords : ∀ r ∈ records, Acknowledged log (.deleted r)) :
    History.EachAfter Acknowledged (log ++ records.map .deleted) := by
  induction records generalizing log with
  | nil => simpa using hLog
  | cons record rest ih =>
    obtain ⟨hRecord, hRest⟩ := forall_mem_cons.mp hRecords
    have hNext := ih (hLog.snoc hRecord) (by simpa [Acknowledged] using hRest)
    simpa using hNext

/-- The messages before the first nack of a batch are committed, and not with a
nack. -/
theorem latest_committed {lead others : List Entry} {acks rest : Dispositions} {e : Entry}
    (hLen : lead.length = acks.length) (hAcks : ∀ d ∈ acks, d ≠ .nack) (hMem : e ∈ lead) :
    ∃ d, d ≠ .nack ∧
      latest (log ++ [.committed ((lead ++ others).zip (acks ++ rest))]) e.place =
        .committed d := by
  have hFst : (lead.zip acks).map Prod.fst = lead := map_fst_zip hLen.le
  rw [← hFst] at hMem
  obtain ⟨item, hItem, rfl⟩ := mem_map.mp hMem
  -- the first one that is found may be another delivery of the record, but it is not later
  obtain ⟨found, hFound⟩ := isSome_iff_exists.mp
    ((find?_isSome
      (p := fun other : Entry × MessageDisposition => other.1.place = item.1.place)).mpr
      ⟨item, hItem, by simp⟩)
  refine ⟨found.2, hAcks _ (of_mem_zip (mem_of_find?_eq_some hFound)).2, ?_⟩
  simp [latest, Delivery.after, zip_append hLen, hFound]

end Log

section Counted

variable {extraLines : List (Nat × Nat)} (lead : List Entry)

theorem lookup_countLines (id : Nat) : lookup id (countLines extraLines lead).2 =
      if id ∈ lead.map (fun e => e.message.messageId) then none else lookup id extraLines := by
  induction lead generalizing extraLines with
  | nil => simp [countLines]
  | cons entry rest ih =>
    rw [countLines]
    rw [ih, lookup_remove]
    by_cases hSame : entry.message.messageId = id
    · simp [hSame]
    · simp [hSame, Ne.symm hSame]

theorem countLines_nil : (countLines [] lead).2 = [] := by
  induction lead with
  | nil => rfl
  | cons entry rest ih => exact ih

end Counted

/-- The messages lie in the file in their order, and `done` are those that were
committed. -/
structure Counted (s : Queue) (items : List Entry) (past body : List Record) (done : List Entry) :
    Prop where
  read : entries s.header past = done ++ items
  laid : Laid s.extraLines items body
  known : ∀ id, lookup id s.extraLines ≠ none → id ∈ items.map fun e => e.message.messageId
  plain : (∀ record ∈ s.history, record.message ≠ none) → s.extraLines = []
  log : History.EachAfter Acknowledged s.log

structure Queue.Orderly (s : Queue) (past kept body unread : List Record) (done : List Entry) : Prop
    extends Counted s s.items past body done where
  layout : s.Layout past kept body unread
  lines : body.length = s.linesInMemory

/-- The same during a pass, for the messages in memory and those it has read. -/
structure Pass.Orderly (p : Pass) (past kept body dangling rest : List Record) (done : List Entry) :
    Prop extends Counted p.queue (p.queue.items ++ p.batch) past body done where
  reading : p.Reading past kept body dangling rest
  count : p.batch.length ≤ p.linesRead

section Pass

variable {p : Pass} {record : Record} {past kept body dangling rest : List Record}
    {done : List Entry}

section

variable (hDist : p.queue.Distinct)

include hDist

/-- The blank records before a new message are counted for it, which changes no
other count. -/
theorem Pass.Orderly.row {entry : Entry}
    (h : p.Orderly past kept body dangling (entry.record :: rest) done)
    (hOwn : ∀ more, entries p.queue.header (past ++ (dangling ++ entry.record :: more)) =
      entries p.queue.header past ++ entry :: entries false more)
    (hReading : (p.row entry).Reading (past ++ (dangling ++ [entry.record])) kept
      (body ++ (dangling ++ [entry.record])) [] rest) :
    (p.row entry).Orderly (past ++ (dangling ++ [entry.record])) kept
      (body ++ (dangling ++ [entry.record])) [] rest done := by
  have hBlanks := h.reading.blanks
  have hBlank := h.reading.blank
  have hDangling : (∀ record ∈ p.queue.history, record.message ≠ none) → p.blanks = 0 := by
    intro hPlain
    rw [← hBlanks, length_eq_zero_iff, eq_nil_iff_forall_not_mem]
    intro record hMem
    refine hPlain record ?_ (hBlank record hMem)
    simp [h.reading.layout.history, hMem]
  have hNew : (∀ e ∈ p.queue.items ++ p.batch, entry.message.messageId ≠ e.message.messageId) ∨
      p.blanks = 0 ∧ p.queue.extraLines = [] := by
    rcases hDist with hNodup | hPlain
    · left
      intro e hMem hSame
      rw [h.reading.layout.history, hOwn, h.read, map_append, nodup_append] at hNodup
      refine hNodup.2.2 _ (mem_map_of_mem (mem_append_right _ hMem)) _ ?_ hSame.symm
      exact mem_cons_self
    · exact .inr ⟨hDangling hPlain, h.plain hPlain⟩
  have hLookup (id : Nat) : lookup id (p.row entry).queue.extraLines =
      if 0 < p.blanks ∧ entry.message.messageId = id then some p.blanks
      else lookup id p.queue.extraLines := by
    simp only [Pass.row]
    split_ifs with hSome hBoth hBoth
    · rw [lookup_insert, if_pos hBoth.2]
    · rw [lookup_insert, if_neg fun hSame => hBoth ⟨hSome, hSame⟩]
    · exact absurd hBoth.1 hSome
    · rfl
  have hItems :
      (p.row entry).queue.items ++ (p.row entry).batch = (p.queue.items ++ p.batch) ++ [entry] := by
    simp [Pass.row, Queue.items]
  refine ⟨⟨?_, ?_, ?_, ?_, h.log⟩, hReading, ?_⟩
  · rw [hItems]
    change entries p.queue.header _ = _
    simpa [entries, h.read] using hOwn []
  · rw [hItems]
    refine (h.laid.congr fun e hMem => ?_).snoc hBlank ?_
    · rw [hLookup, if_neg]
      rintro ⟨hSome, hSame⟩
      rcases hNew with hNew | ⟨hNone, -⟩
      · exact hNew e hMem hSame
      · omega
    · rw [hLookup, hBlanks]
      by_cases hSome : 0 < p.blanks
      · simp [hSome]
      · have hAbsent : lookup entry.message.messageId p.queue.extraLines = none := by
          rcases hNew with hNew | ⟨-, hNone⟩
          · by_contra hThere
            obtain ⟨e, hMem, hSame⟩ := mem_map.mp (h.known _ hThere)
            exact hNew e hMem hSame.symm
          · rw [hNone]
            rfl
        simp [hSome, hAbsent]
        omega
  · intro id hThere
    rw [hItems, map_append, mem_append]
    rw [hLookup] at hThere
    split_ifs at hThere with hBoth
    · exact .inr (by simp [hBoth.2])
    · exact .inl (h.known id hThere)
  · intro hPlain
    have hNone := hDangling hPlain
    simp only [Pass.row, hNone]
    exact h.plain hPlain
  · have hCount := h.count
    simp only [Pass.row, length_append, length_singleton]
    omega

theorem Pass.Orderly.take
    (h : p.Orderly past kept body dangling (record :: rest) done) : (p.take record).queue.Distinct ∧
      ∃ past kept body dangling, (p.take record).Orderly past kept body dangling rest done := by
  rcases h.reading.take
    with ⟨entry, rfl, hTake, hOwn, hReading⟩ | ⟨hTake, rfl, rfl, rfl, hSame, hReading⟩ |
      ⟨hTake, hNone, rfl, rfl, hLog, hSame, hReading⟩ | ⟨hTake, hReading⟩
  all_goals rw [hTake]
  · exact ⟨hDist, _, _, _, _, h.row hDist hOwn hReading⟩
  · exact ⟨hDist, _, _, _, _, { h with reading := hReading, read := hSame.trans h.read }⟩
  · refine ⟨hDist, _, _, _, _,
      { h with reading := hReading, read := hSame.trans h.read, log := ?_ }⟩
    rw [hLog]
    exact h.log.snoc fun hMsg => absurd hNone hMsg
  · exact ⟨hDist, _, _, _, _, { h with reading := hReading }⟩

theorem Pass.Orderly.scan {records : List Record}
    (h : p.Orderly past kept body dangling (records ++ rest) done) :
    ∃ past kept body dangling rest, (p.scan records).1.Orderly past kept body dangling rest
      done := by
  induction records generalizing p past kept body dangling with
  | nil => exact ⟨_, _, _, _, _, h⟩
  | cons record records ih =>
    rw [scan]
    split_ifs with hRoom
    · obtain ⟨hDistinct', past, kept, body, dangling, hNext⟩ := h.take hDist
      exact ih hDistinct' hNext
    · exact ⟨_, _, _, _, _, h⟩

end

/-- Messages may move between the channel, the buffer and the batches that are
handed out, as long as their order stays. -/
theorem Queue.Orderly.moved {s : Queue} {unread : List Record}
    (h : s.Orderly past kept body unread done)
    {receiver : Receiver} {outstanding : List (List Entry)} {log : List Event} (signaledEof : Bool)
    (hItems : outstanding.flatten ++ receiver.held = s.items)
    (hLog : History.EachAfter Acknowledged log) :
    ({ s with receiver, outstanding, log, signaledEof } : Queue).Orderly past kept body unread
      done := by
  have hCounted := h.toCounted
  rw [← hItems] at hCounted
  exact ⟨{ hCounted with log := hLog }, { h.layout with }, h.lines⟩

theorem Pass.Orderly.finish (h : p.Orderly past kept body dangling rest done) (heldBack : Bool) :
    (p.finish heldBack).Orderly past kept body (dangling ++ rest) done := by
  obtain ⟨hCounted, ⟨hLayout, hLines, -, -, -⟩, hCount⟩ := h
  rw [Pass.finish]
  split_ifs with hSome hQuiet
  · have hItems : p.queue.outstanding.flatten ++ (p.queue.receiver.send p.batch).held =
        p.queue.items ++ p.batch := by
      simp [Queue.items, Receiver.held, Receiver.send]
    rw [← hItems] at hCounted
    exact ⟨{ hCounted with }, { hLayout with }, hLines⟩
  all_goals
    have hNothing : p.linesRead = 0 := by omega
    have hBatch : p.batch = [] := eq_nil_of_length_eq_zero (by omega)
    rw [hBatch, append_nil] at hCounted
    rw [hNothing] at hLines
    have hSame : p.queue.Orderly past kept body (dangling ++ rest) done :=
      ⟨hCounted, hLayout, hLines⟩
  · exact hSame
  · exact hSame.moved true (by simp [Queue.items, Receiver.held, Receiver.send]) hCounted.log

end Pass

section Run

variable {s t : Queue}

def Queue.Safe (s : Queue) : Prop :=
  s.Distinct → ∃ past kept body unread done, s.Orderly past kept body unread done

theorem Queue.safe_new (header : Bool) (contents : List (Option CanonicalMessage)) :
    (Queue.new header contents).Safe := by
  intro _
  refine ⟨[], [], [], _, [], ⟨⟨rfl, .nil, ?_, fun _ => rfl, History.eachAfter_nil⟩,
    ⟨rfl, rfl, rfl, rfl, fun _ => ⟨rfl, rfl⟩⟩, rfl⟩⟩
  intro id hThere
  exact absurd rfl hThere

variable {past kept body unread : List Record} {done : List Entry}

theorem Queue.Orderly.pass (hDist : s.Distinct)
    (h : s.Orderly past kept body unread done) (sight : Sight) :
    ∃ past kept body unread done, (s.pass sight).Orderly past kept body unread done := by
  rw [Queue.pass]
  split
  · exact ⟨_, _, _, _, _, h⟩
  · next records stop hRecords =>
      obtain ⟨hidden, hUnread⟩ := Sight.records_split hRecords
      have hStart : (Pass.mk s [] 0 0).Orderly past kept body [] (records ++ hidden) done := by
        rw [← hUnread, h.layout.drop_skipped h.lines]
        refine ⟨?_, ⟨h.layout, h.lines, rfl, by simp, fun _ => rfl⟩, le_refl 0⟩
        simpa using h.toCounted
      obtain ⟨past, kept, body, dangling, rest, hScan⟩ := hStart.scan hDist
      refine ⟨past, kept, body, dangling ++ rest, done, Pass.Orderly.finish ?_ _⟩
      split_ifs with hEnd
      · obtain ⟨hCounted, hReading, hCount⟩ := hScan
        exact ⟨{ hCounted with log := hCounted.log.snoc trivial },
          { hReading with layout := { hReading.layout with } }, hCount⟩
      · exact hScan

theorem Queue.Orderly.answer
    (h : s.Orderly past kept body unread done) {receiver : Receiver} {answer : Option Answer}
    (hHeld : (answer.map Answer.messages).getD [] ++ receiver.held = s.receiver.held) :
    (s.answer receiver answer).Orderly past kept body unread done := by
  rcases answer with _ | ⟨batch⟩ | ⟨cause⟩
  · exact h.moved _ (congrArg _ hHeld) h.log
  · refine h.moved _ ?_ (h.log.snoc trivial)
    rw [items, ← hHeld]
    simp [Answer.messages]
  · exact h.moved _ (congrArg _ hHeld) h.log

theorem Queue.Orderly.apart (hDist : s.Distinct)
    (h : s.Orderly past kept body unread done) : Apart s.extraLines s.items := by
  rcases hDist with hNodup | hPlain
  · left
    rw [h.layout.history, entries_append, h.read, append_assoc, map_append, map_append] at hNodup
    exact (nodup_append.mp (nodup_append.mp hNodup).2.1).1
  · exact .inr (h.plain hPlain)

/-- The messages before the first nack leave the front. Without later batches
the others go back to where they were. -/
theorem Queue.Orderly.commit
    {dispositions : Dispositions} (hDist : s.Distinct)
    (h : s.Orderly past kept body unread done)
    (hAlone : s.NackAlone (.commit dispositions)) (hCommit : s.commit dispositions = some t) :
    ∃ past kept body unread done, t.Orderly past kept body unread done := by
  obtain ⟨lead, nacked, later, acks, others, hOutst, hSplit, hLen, hAcks, hNack, rfl⟩ :=
    commit_cases hCommit
  have hItems : s.items = lead ++ (s.settled lead nacked later dispositions).items := by
    have hNoLater : nacked ≠ [] → later.flatten = [] := by
      intro hSome
      have hTail := hAlone (hNack hSome)
      rwa [hOutst] at hTail
    rcases eq_or_ne nacked [] with rfl | hSome
    · simp [items, settled, removeLines, hOutst]
    · simp [items, settled, removeLines, Receiver.held, hOutst, hNoLater hSome]
  have hApart := h.apart hDist
  have hLaid := h.laid
  rw [hItems] at hApart hLaid
  obtain ⟨front, back, rfl, hCount, hFront, hBack⟩ := hLaid.split hApart
  obtain ⟨hLayout, hDeleted⟩ := h.layout.settled hCount nacked later dispositions
  refine ⟨past, kept, back, unread, done ++ lead, ⟨⟨?_, hBack, ?_, ?_, ?_⟩, hLayout, ?_⟩⟩
  · rw [append_assoc, ← hItems]
    exact h.read
  · intro id hThere
    change lookup id (countLines s.extraLines lead).2 ≠ none at hThere
    rw [lookup_countLines] at hThere
    split_ifs at hThere with hLead
    · exact absurd rfl hThere
    · have hKnown := h.known id hThere
      rw [hItems, map_append, mem_append] at hKnown
      exact hKnown.resolve_left hLead
  · intro hPlain
    change (countLines s.extraLines lead).2 = []
    rw [h.plain hPlain, countLines_nil]
  · rw [hDeleted]
    refine eachAfter_deleted (h.log.snoc trivial) fun r hMem hMsg => ?_
    obtain ⟨e, hLead, hPlace⟩ := hFront r hMem hMsg
    rw [← hPlace, hSplit]
    exact latest_committed hLen hAcks hLead
  · have hLines := h.lines
    rw [length_append] at hLines
    change back.length = s.linesInMemory - (countLines s.extraLines lead).1
    omega

theorem Queue.Distinct.of_append {more : List Record}
    (h : ({ s with file := s.file ++ more, history :=
      s.history ++ more } : Queue).Distinct) : s.Distinct := by
  rcases h with hNodup | hPlain
  · left
    rw [entries_append, map_append] at hNodup
    exact (nodup_append.mp hNodup).1
  · exact .inr fun record hMem => hPlain record (mem_append_left _ hMem)

theorem Queue.Safe.step {action : Action} (h : s.Safe) (hAlone : s.NackAlone action)
    (hStep : s.step action = some t) : t.Safe := by
  intro hDist
  cases action with
  | append contents =>
    cases hStep
    obtain ⟨past, kept, body, unread, done, hOrderly⟩ := h hDist.of_append
    obtain ⟨hCounted, hLayout, hLines⟩ := hOrderly
    refine ⟨past, kept, body, unread ++ placed s.history.length contents, done,
      ⟨{ hCounted with plain :=
        fun hAll => hCounted.plain fun r hMem => hAll r (mem_append_left _ hMem) },
        { hLayout with history := ?_, file := ?_ }, hLines⟩⟩
    · simp [hLayout.history]
    · simp [hLayout.file]
  | pass sight =>
    cases hStep
    obtain ⟨hHeader, hHistory⟩ := Prod.mk.inj (pass_fixed s sight)
    rw [Queue.Distinct, hHeader, hHistory] at hDist
    obtain ⟨past, kept, body, unread, done, hOrderly⟩ := h hDist
    exact hOrderly.pass hDist sight
  | call maxMessages =>
    obtain ⟨⟨answer, receiver⟩, hCall, rfl⟩ := map_eq_some_iff.mp hStep
    have hSame : s.Distinct := by rcases answer with _ | ⟨batch⟩ | ⟨cause⟩ <;> exact hDist
    obtain ⟨past, kept, body, unread, done, hOrderly⟩ := h hSame
    exact ⟨_, _, _, _, _, hOrderly.answer (call_held hCall)⟩
  | resume =>
    obtain ⟨⟨answer, receiver⟩, hResume, rfl⟩ := map_eq_some_iff.mp hStep
    have hSame : s.Distinct := by rcases answer with ⟨batch⟩ | ⟨cause⟩ <;> exact hDist
    obtain ⟨past, kept, body, unread, done, hOrderly⟩ := h hSame
    exact ⟨_, _, _, _, _, hOrderly.answer (resume_held hResume)⟩
  | commit dispositions =>
    have hSame : s.Distinct := by
      obtain ⟨lead, nacked, later, acks, rest, -, -, -, -, -, rfl⟩ := commit_cases hStep
      exact hDist
    obtain ⟨past, kept, body, unread, done, hOrderly⟩ := h hSame
    exact hOrderly.commit hSame hAlone hStep

end Run

/-- Every record that is deleted is blank, or its message's latest delivery was
committed with an ack or a reply: for runs in which a nack is committed only while
no later batch is handed out, and files in which blank records are counted for one
message each. -/
theorem deletes_only_acknowledged {header : Bool} {contents : List (Option CanonicalMessage)}
    {actions : List Action} {s : Queue}
    (hAlone : Machine.Guarded Queue.step Queue.NackAlone (Queue.new header contents) actions)
    (hRun : run Queue.step (Queue.new header contents) actions = some s) (hDist : s.Distinct) :
    History.EachAfter Acknowledged s.log := by
  have hSafe : s.Safe := invariant_of_guarded
    (fun _ _ _ => .step) (Queue.safe_new header contents) hAlone hRun
  obtain ⟨past, kept, body, unread, done, hOrderly⟩ := hSafe hDist
  exact hOrderly.log

def numbered (id : Nat) : CanonicalMessage := ⟨id, [], ∅⟩

/-- A file whose messages are handed out in one batch, with the second of them
not acknowledged. -/
theorem deletes_only_acknowledged_first :
    ∃ s, run Queue.step (Queue.new false [some (numbered 1), none, some (numbered 2)])
        [.pass .whole, .call 2, .resume, .commit [.ack, .nack]] = some s ∧
      History.EachAfter Acknowledged s.log ∧ s.file = [⟨1, none⟩, ⟨2, some (numbered 2)⟩] := by
  refine exists_run (fun s => s.file = [⟨1, none⟩, ⟨2, some (numbered 2)⟩] ∧
    ((entries s.header s.history).map fun e => e.message.messageId).Nodup)
      ⟨_, rfl, rfl, by decide⟩ ?_
  rintro s hRun ⟨hFile, hNodup⟩
  exact ⟨deletes_only_acknowledged (by decide) hRun (.inl hNodup), hFile⟩

/-- Two batches are handed out. The first is committed with a nack, and then the
commit of the second deletes the record of the first. -/
theorem nacked_record_deleted :
    ∃ s, run Queue.step (Queue.new false [some (numbered 1), some (numbered 2)])
        [.pass .whole, .call 1, .resume, .call 1, .commit [.nack], .commit [.ack]] = some s ∧
      s.Distinct ∧ s.file = [⟨1, some (numbered 2)⟩] ∧ ¬ History.EachAfter Acknowledged s.log := by
  refine ⟨_, rfl, .inl (by decide), rfl, ?_⟩
  intro hEach
  obtain ⟨d, hAck, hLatest⟩ :=
    hEach (_ :: _ :: _ :: _ :: _ :: []) (.deleted ⟨0, some (numbered 1)⟩) [] rfl
    (some_ne_none _)
  cases hLatest
  exact hAck rfl

/-- An id that two messages share moves the blank records before the second of
them to the first, whose commit deletes the record of another message. -/
example :
    (run Queue.step
      (Queue.new false [some (numbered 7), some (numbered 8), none, none, some (numbered 7)])
        [.pass .whole, .call 1, .resume, .commit [.ack]]).map Queue.file =
      some [⟨3, none⟩, ⟨4, some (numbered 7)⟩] := by
  rfl

end MqBridge.File
