import MqBridge.Endpoints.File.CsvDecode
import MqBridge.Endpoints.File.Receiver
import MqBridge.Endpoints.FileTail

/-! The reading task of a group that resumes at a stored offset. The offset says
which record comes next, but not what the reader knew about the file by then: the
columns of a CSV file and its separator are taken from the record that is read
first. -/
namespace MqBridge.File

open List

open Text Delimited CsvQuoteState

/-! ### The reading task -/

structure TailTask where
  format : FileFormat
  dialect : CsvDialect
  delimiter : List UInt8
  /-- Messages are stamped with the offset behind their record. -/
  withOffset : Bool
  /-- How formats other than CSV are parsed. -/
  parse : List UInt8 → Option Decoded

structure TailState where
  position : Nat
  found : Option UInt8
  header : Option CsvHeader
  /-- The task has given up. -/
  closed : Bool

def stripLeadingBom (format : FileFormat) (position : Nat) (record : List UInt8) : List UInt8 :=
  if position = 0 ∧ format ≠ .csv then stripBom record else record

def popReturn (delimiter record : List UInt8) : List UInt8 :=
  if delimiter = [0x0a] ∧ record.getLast? = some 0x0d then record.dropLast else record

/-- If the delimiter is longer than what is left of a record, the difference
wraps, and nothing is cut. -/
def truncateDelimiter (delimiter record : List UInt8) : List UInt8 :=
  if record.length < delimiter.length then record
  else record.take (record.length - delimiter.length)

inductive NextRecord where
  | endOfFile
  /-- The record may not be complete yet. -/
  | withheld
  /-- The file ends inside a quoted field. -/
  | unclosed
  /-- The file ends after a record without a delimiter. -/
  | last (span : RecordSpan)
  | next (span : RecordSpan)

namespace TailTask

def start (task : TailTask) (offset : Nat) : TailState :=
  ⟨offset, none, if task.format = .csv then some (.new task.dialect none) else none, false⟩

/-- Nothing more is written to a complete file. -/
def nextRecord (task : TailTask) (file : List UInt8) (complete : Bool) (position : Nat)
    (found : Option UInt8) : NextRecord × Option UInt8 :=
  let read := readRecord task.format task.dialect task.delimiter found (file.drop position)
  let after := position + read.record.length
  let record := stripLeadingBom task.format position read.record
  let next :=
    if read.record = [] then .endOfFile
    else if read.openQuote then if complete then .unclosed else .withheld
    else if endsIn task.delimiter read.record then
      .next ⟨popReturn task.delimiter (truncateDelimiter task.delimiter record), after⟩
    else if complete then .last ⟨popReturn task.delimiter record, after⟩
    else .withheld
  (next, read.found)

structure Batch where
  spans : List RecordSpan
  position : Nat
  found : Option UInt8
  fatal : Bool

def takeRecords (task : TailTask) (file : List UInt8) (complete : Bool) :
    Nat → Nat → Option UInt8 → Batch
  | 0, position, found => ⟨[], position, found, false⟩
  | limit + 1, position, found =>
    match task.nextRecord file complete position found with
    | (.next span, found) =>
      let batch := task.takeRecords file complete limit span.position found
      { batch with spans := span :: batch.spans }
    | (.last span, found) => ⟨[span], span.position, found, false⟩
    | (.unclosed, found) => ⟨[], position, found, true⟩
    | (.withheld, found) | (.endOfFile, found) => ⟨[], position, found, false⟩

def batchSize : Nat := 1024

def round (task : TailTask) (file : List UInt8) (complete : Bool) (state : TailState) :
    TailState × List Decoded :=
  if state.closed then (state, [])
  else
    let batch := task.takeRecords file complete batchSize state.position state.found
    let decoded :=
      decodeRecords task.parse task.withOffset task.format batch.found state.header batch.spans
    (⟨batch.position, batch.found, decoded.1, batch.fatal⟩, decoded.2)

def rounds (task : TailTask) (file : List UInt8) : List Bool → TailState → TailState × List Decoded
  | [], state => (state, [])
  | complete :: rest, state =>
    let first := task.round file complete state
    let others := task.rounds file rest first.1
    (others.1, first.2 ++ others.2)

def emitted (task : TailTask) (file : List UInt8) (offset : Nat) (known : List Bool) :
    List Decoded :=
  (task.rounds file known (task.start offset)).2

def recordsFrom (task : TailTask) (file : List UInt8) (complete : Bool) :
    Nat → Nat → Option UInt8 → List RecordSpan
  | 0, _, _ => []
  | fuel + 1, position, found =>
    match task.nextRecord file complete position found with
    | (.next span, found) => span :: task.recordsFrom file complete fuel span.position found
    | (.last span, _) => [span]
    | _ => []

def records (task : TailTask) (file : List UInt8) (complete : Bool) : List RecordSpan :=
  task.recordsFrom file complete (file.length + 1) 0 none

/-- The first bytes from an offset on, on which an automatic separator is settled. -/
def firstChunk (task : TailTask) (file : List UInt8) (offset : Nat) : List UInt8 :=
  (readUntilBytes task.delimiter [] (file.drop offset)).1

end TailTask

/-! ### What is left of a file -/

namespace TailTask

structure Accepted (task : TailTask) : Prop where
  ascii : ∀ quote ∈ task.dialect.quote, quote.toNat < 128
  delimiter : task.delimiter ≠ []

/-- A separator that no further record changes. -/
def Settled (task : TailTask) (found : Option UInt8) : Prop :=
  task.format = .csv → ∀ chunk, task.dialect.settle found chunk = found

def settledAt (task : TailTask) (file : List UInt8) (offset : Nat) : Option UInt8 :=
  if task.format = .csv then task.dialect.settle none (task.firstChunk file offset) else none

/-- The records from a position on, as they will be read. -/
inductive Streams (task : TailTask) (file : List UInt8) (complete : Bool) (found : Option UInt8) :
    Nat → List RecordSpan → Prop
  | next {position : Nat} {span : RecordSpan} {rest : List RecordSpan}
      (hNext : (task.nextRecord file complete position found).1 = .next span)
      (hRest : Streams task file complete found span.position rest) :
      Streams task file complete found position (span :: rest)
  | last {position : Nat} {span : RecordSpan}
      (hLast : (task.nextRecord file complete position found).1 = .last span) :
      Streams task file complete found position [span]
  | stop {position : Nat}
      (hNext : ∀ span, (task.nextRecord file complete position found).1 ≠ .next span)
      (hLast : ∀ span, (task.nextRecord file complete position found).1 ≠ .last span) :
      Streams task file complete found position []

section Streams

variable {task : TailTask} {file : List UInt8} {complete : Bool} {found : Option UInt8}

theorem nextRecord_found (hSettled : task.Settled found) (known : Bool) (position : Nat) :
    (task.nextRecord file known position found).2 = found := by
  have hRead :
      (readRecord task.format task.dialect task.delimiter found (file.drop position)).found = _ :=
    readRecord_found ..
  rw [nextRecord]
  rw [hRead]
  by_cases hFormat : task.format = .csv
  · rw [if_pos hFormat]
    exact hSettled hFormat _
  · rw [if_neg hFormat]

/-- What the task knows about the separator at its first record makes no difference. -/
theorem nextRecord_settledAt (known : Bool) (offset : Nat) :
    task.nextRecord file known offset (task.settledAt file offset) =
      task.nextRecord file known offset none := by
  rw [settledAt]
  split_ifs with hFormat
  · have hSame : readRecord .csv task.dialect task.delimiter _ (file.drop offset) =
        readRecord .csv task.dialect task.delimiter none (file.drop offset) := readRecord_settle ..
    rw [nextRecord, nextRecord, hFormat, firstChunk, hSame]
  · rfl

theorem settled_settledAt (task : TailTask) (file : List UInt8) (offset : Nat) :
    task.Settled (task.settledAt file offset) := by
  intro hFormat chunk
  rw [settledAt, if_pos hFormat, settle_settle]

/-- Knowing less about the file, the task reads the same records or waits. -/
theorem nextRecord_known {known : Bool} (hKnown : known = true → complete = true) (position : Nat)
    (hRead : (task.nextRecord file known position found).1 ≠ .withheld) :
    (task.nextRecord file complete position found).1 =
      (task.nextRecord file known position found).1 := by
  cases known with
  | true => rw [hKnown rfl]
  | false =>
    revert hRead
    rw [nextRecord, nextRecord]
    split_ifs <;> simp_all

variable {position : Nat} {spans : List RecordSpan}

theorem Streams.unique {others : List RecordSpan}
    (hSpans : Streams task file complete found position spans)
    (hOthers : Streams task file complete found position others) : spans = others := by
  induction hSpans generalizing others with
  | next hNext _ ih =>
    cases hOthers with
    | next hNext' hRest' =>
      cases hNext.symm.trans hNext'
      rw [ih hRest']
    | last hLast' => cases hNext.symm.trans hLast'
    | stop hNext' _ => exact absurd hNext (hNext' _)
  | last hLast =>
    cases hOthers with
    | next hNext' _ => cases hLast.symm.trans hNext'
    | last hLast' =>
      cases hLast.symm.trans hLast'
      rfl
    | stop _ hLast' => exact absurd hLast (hLast' _)
  | stop hNext hLast =>
    cases hOthers with
    | next hNext' _ => exact absurd hNext' (hNext _)
    | last hLast' => exact absurd hLast' (hLast _)
    | stop => rfl

variable (hTask : task.Accepted)

include hTask

variable {span : RecordSpan}

/-- Every record ends further on, inside the file; after one without a delimiter
nothing is left. -/
theorem nextRecord_position (hInside : position ≤ file.length) :
    ((task.nextRecord file complete position found).1 = .next span →
      position < span.position ∧ span.position ≤ file.length) ∧
    ((task.nextRecord file complete position found).1 = .last span →
      position < span.position ∧ span.position = file.length) := by
  obtain ⟨hSplit, hRest⟩ :=
    readRecord_split task.format task.dialect found (file.drop position) hTask.ascii
    hTask.delimiter
  rw [nextRecord]
  generalize readRecord task.format task.dialect task.delimiter found (file.drop position) =
    read at hSplit hRest
  have hLen := congrArg length hSplit
  rw [length_append, length_drop] at hLen
  constructor
  · intro hNext
    split_ifs at hNext with hNone
    cases hNext
    have hPos := length_pos_iff.mpr hNone
    dsimp only
    omega
  · intro hLast
    split_ifs at hLast with hNone _ _ hEnds
    cases hLast
    have hPos := length_pos_iff.mpr hNone
    have hEnd : read.rest = [] := by
      by_contra hLeft
      exact hEnds (hRest hLeft)
    rw [hEnd, length_nil] at hLen
    dsimp only
    omega

theorem streams_end (hEnd : file.length ≤ position) :
    Streams task file complete found position [] := by
  obtain ⟨hSplit, -⟩ :=
    readRecord_split task.format task.dialect found (file.drop position) hTask.ascii
    hTask.delimiter
  have hNil : (readRecord task.format task.dialect task.delimiter found
      (file.drop position)).record = [] := by
    rw [drop_eq_nil_of_le hEnd] at hSplit ⊢
    exact (append_eq_nil_iff.mp hSplit).1
  have hNext : (task.nextRecord file complete position found).1 = .endOfFile := by
    exact if_pos hNil
  refine .stop (fun span hSome => ?_) fun span hSome => ?_
  · cases hNext.symm.trans hSome
  · cases hNext.symm.trans hSome

theorem streams_recordsFrom (hSettled : task.Settled found) {fuel position : Nat}
    (hInside : position ≤ file.length) (hFuel : file.length - position < fuel) :
    Streams task file complete found position
      (task.recordsFrom file complete fuel position found) := by
  induction fuel generalizing position with
  | zero => exact absurd hFuel (Nat.not_lt_zero _)
  | succ fuel ih =>
    have hFound : (task.nextRecord file complete position found).2 = found :=
      nextRecord_found hSettled _ _
    rw [recordsFrom]
    rcases hNext : task.nextRecord file complete position found with ⟨next, after⟩
    rw [hNext] at hFound
    obtain rfl : after = found := hFound
    have hFirst : (task.nextRecord file complete position after).1 = next := by rw [hNext]
    cases next with
    | next span =>
      obtain ⟨hLess, hLe⟩ := (nextRecord_position hTask hInside).1 hFirst
      exact .next hFirst (ih hLe (by omega))
    | last span => exact .last hFirst
    | endOfFile | withheld | unclosed => exact .stop (by simp [hFirst]) (by simp [hFirst])

section

variable (hInside : position ≤ file.length)

include hInside

/-- After some of the records, the others are left. -/
theorem Streams.split {before after : List RecordSpan}
    (hAll : Streams task file complete found position (before ++ span :: after)) :
    Streams task file complete found span.position after := by
  induction before generalizing position with
  | nil =>
    cases hAll with
    | next hNext hRest => exact hRest
    | last hLast => exact streams_end hTask ((nextRecord_position hTask hInside).2 hLast).2.ge
  | cons first before ih =>
    rw [cons_append] at hAll
    generalize hList : before ++ span :: after = list at hAll
    cases hAll with
    | next hNext hRest =>
      rw [← hList] at hRest
      exact ih ((nextRecord_position hTask hInside).1 hNext).2 hRest
    | last hLast => simp at hList

variable (hSpans : Streams task file complete found position spans)

include hSpans

theorem Streams.position_le (hMem : span ∈ spans) : span.position ≤ file.length := by
  induction hSpans with
  | next hNext _ ih =>
    have hLe := ((nextRecord_position hTask hInside).1 hNext).2
    rcases mem_cons.mp hMem with rfl | hMem
    · exact hLe
    · exact ih hLe hMem
  | last hLast =>
    cases mem_singleton.mp hMem
    exact ((nextRecord_position hTask hInside).2 hLast).2.le
  | stop => cases hMem

theorem Streams.length_le : spans.length ≤ file.length - position := by
  induction hSpans with
  | next hNext _ ih =>
    obtain ⟨hLess, hLe⟩ := (nextRecord_position hTask hInside).1 hNext
    rw [length_cons]
    omega
  | last hLast =>
    obtain ⟨hLess, hSame⟩ := (nextRecord_position hTask hInside).2 hLast
    rw [length_singleton]
    omega
  | stop => exact Nat.zero_le _

end

variable {total : List RecordSpan}

/-- What one batch takes from the records that are left. -/
theorem takeRecords_spec (hSettled : task.Settled found) {known : Bool}
    (hKnown : known = true → complete = true)
    (limit : Nat) (hInside : position ≤ file.length)
    (hTotal : Streams task file complete found position total) :
    let batch := task.takeRecords file known limit position found
    ∃ rest, total = batch.spans ++ rest ∧ Streams task file complete found batch.position rest ∧
      batch.position ≤ file.length ∧ batch.found = found ∧ (batch.fatal = true → rest = []) ∧
      (known = complete → 0 < limit → total ≠ [] → batch.spans ≠ []) := by
  induction limit generalizing position total with
  | zero =>
    exact ⟨total, rfl, hTotal, hInside, rfl, fun hFatal => absurd hFatal Bool.false_ne_true,
      fun _ hLimit => absurd hLimit (lt_irrefl 0)⟩
  | succ limit ih =>
    have hFound : (task.nextRecord file known position found).2 = found :=
      nextRecord_found hSettled _ _
    have hSame : _ → (task.nextRecord file complete position found).1 =
        (task.nextRecord file known position found).1 :=
      nextRecord_known hKnown position
    rw [takeRecords]
    rcases hNext : task.nextRecord file known position found with ⟨next, after⟩
    rw [hNext] at hFound hSame
    obtain rfl : after = found := hFound
    cases next with
    | next span =>
      have hFirst := hSame NextRecord.noConfusion
      obtain ⟨-, hLe⟩ := (nextRecord_position hTask hInside).1 hFirst
      cases hTotal with
      | next hNext' hRest =>
        cases hFirst.symm.trans hNext'
        obtain ⟨rest, hSplit, hLeft⟩ := ih hLe hRest
        refine ⟨rest, congrArg (span :: ·) hSplit, hLeft.1, hLeft.2.1, hLeft.2.2.1, hLeft.2.2.2.1,
          ?_⟩
        exact fun _ _ _ => cons_ne_nil _ _
      | last hLast => cases hFirst.symm.trans hLast
      | stop hNone _ => exact absurd hFirst (hNone span)
    | last span =>
      have hFirst := hSame NextRecord.noConfusion
      obtain ⟨-, hEnd⟩ := (nextRecord_position hTask hInside).2 hFirst
      obtain rfl := hTotal.unique (.last hFirst)
      exact ⟨[], rfl, streams_end hTask hEnd.ge, hEnd.le, rfl, fun _ => rfl, fun _ _ _ =>
        cons_ne_nil _ _⟩
    | unclosed =>
      have hFirst := hSame NextRecord.noConfusion
      obtain rfl := hTotal.unique (.stop (by simp [hFirst]) (by simp [hFirst]))
      exact ⟨[], rfl, hTotal, hInside, rfl, fun _ => rfl, fun _ _ => absurd rfl⟩
    | endOfFile | withheld =>
      refine ⟨total, rfl, hTotal, hInside, rfl, fun hFatal => absurd hFatal Bool.false_ne_true, ?_⟩
      intro hComplete _ hSome
      subst hComplete
      exact absurd (hTotal.unique (.stop (by simp [hNext]) (by simp [hNext]))) hSome

/-- The rounds send the messages of the records from where they begin, and of
all of them if enough rounds know what there is to know about the file. -/
theorem rounds_spec (hSettled : task.Settled found) {known : List Bool}
    (hKnown : ∀ k ∈ known, k = true → complete = true) {state : TailState}
    (hFound : state.found = found) (hInside : state.position ≤ file.length)
    (hTotal : Streams task file complete found state.position total)
    (hClosed : state.closed = true → total = []) : ∃ spans rest, total = spans ++ rest ∧
      (task.rounds file known state).2 =
        (decodeRecords task.parse task.withOffset task.format found state.header spans).2 ∧
      (total.length ≤ known.count complete → rest = []) := by
  induction known generalizing state total with
  | nil =>
    refine ⟨[], total, rfl, ?_, fun hCount => length_eq_zero_iff.mp (Nat.le_zero.mp hCount)⟩
    rw [decodeRecords_nil]
    rfl
  | cons k known ih =>
    obtain ⟨hFirst, hOthers⟩ := forall_mem_cons.mp hKnown
    rw [rounds, round]
    by_cases hState : state.closed = true
    · rw [if_pos hState]
      obtain ⟨spans, rest, hSplit, hSent, hAll⟩ := ih hOthers hFound hInside hTotal hClosed
      exact ⟨spans, rest, hSplit, hSent, fun _ =>
        (append_eq_nil_iff.mp (hSplit.symm.trans (hClosed hState))).2⟩
    · rw [if_neg hState, hFound]
      obtain ⟨left, hSplit, hLeft, hLe, hSame, hFatal, hProgress⟩ :=
        takeRecords_spec hTask hSettled hFirst batchSize hInside hTotal
      generalize task.takeRecords file k batchSize state.position found =
        batch at hSplit hLeft hLe hSame hFatal hProgress
      let header := (decodeRecords task.parse task.withOffset task.format batch.found state.header
        batch.spans).1
      have hNext : (TailState.mk batch.position batch.found header batch.fatal).found = found :=
        hSame
      obtain ⟨spans, rest, hRest, hSent, hAll⟩ := ih hOthers hNext hLe hLeft hFatal
      refine ⟨batch.spans ++ spans, rest, ?_, ?_, ?_⟩
      · rw [hSplit, hRest, append_assoc]
      · rw [decodeRecords_append, ← hSame]
        rw [← hSame] at hSent
        exact congrArg _ hSent
      · intro hCount
        apply hAll
        rw [hSplit, length_append, count_cons] at hCount
        by_cases hNone : total = []
        · rw [hNone] at hSplit
          rw [(append_eq_nil_iff.mp hSplit.symm).2]
          exact Nat.zero_le _
        · split_ifs at hCount with hComplete
          · have hSome := length_pos_iff.mpr (hProgress (beq_iff_eq.mp hComplete) (by decide) hNone)
            omega
          · omega

end Streams

/-! ### Resuming -/

/-- A reader goes on for long enough with what it is told about the file. -/
structure Watches (file : List UInt8) (complete : Bool) (known : List Bool) : Prop where
  told : ∀ k ∈ known, k = true → complete = true
  enough : file.length < known.count complete

/-- A guess of the separator at the position is the one at the beginning of the
file; at the end of the file there is nothing to guess. -/
def SameSeparator (task : TailTask) (file : List UInt8) (position : Nat) : Prop :=
  file.drop position ≠ [] →
    task.dialect.settle none (task.firstChunk file position) =
      task.dialect.settle none (task.firstChunk file 0)

def Blank (spans : List RecordSpan) : Prop := ∀ span ∈ spans, span.bytes = []

/-- The first record that is not blank has no byte-order mark. -/
def Unmarked (spans : List RecordSpan) : Prop :=
  ∀ span ∈ (spans.dropWhile fun span => span.bytes = []).head?, ¬ utf8Bom <+: span.bytes

section Resume

variable {task : TailTask} {file : List UInt8} {complete : Bool}

theorem rounds_settledAt (offset : Nat) (known : List Bool) :
    (task.rounds file known { task.start offset with found := task.settledAt file offset }).2 =
      task.emitted file offset known := by
  rw [emitted]
  cases known with
  | nil => rfl
  | cons k known =>
    have hTake : task.takeRecords file k batchSize offset (task.settledAt file offset) =
        task.takeRecords file k batchSize offset none := by
      rw [batchSize, takeRecords, takeRecords, nextRecord_settledAt]
    rw [rounds, round, start]
    rw [hTake]
    rfl

theorem recordsFrom_settledAt (fuel offset : Nat) :
    task.recordsFrom file complete fuel offset (task.settledAt file offset) =
      task.recordsFrom file complete fuel offset none := by
  cases fuel with
  | zero => rfl
  | succ fuel => rw [recordsFrom, recordsFrom, nextRecord_settledAt]

theorem emitted_spec (hTask : task.Accepted) {known : List Bool}
    (hKnown : Watches file complete known) {offset : Nat}
    (hInside : offset ≤ file.length) {total : List RecordSpan}
    (hTotal : Streams task file complete (task.settledAt file offset) offset total) :
    task.emitted file offset known =
      (decodeRecords task.parse task.withOffset task.format (task.settledAt file offset)
        (task.start offset).header total).2 := by
  have hState : ({ task.start offset with found := task.settledAt file offset } : TailState).found =
      task.settledAt file offset := rfl
  obtain ⟨spans, rest, hSplit, hSent, hAll⟩ :=
    rounds_spec hTask (settled_settledAt task file offset) hKnown.told hState
    hInside hTotal fun hClosed => absurd hClosed Bool.false_ne_true
  have hLen := hTotal.length_le hTask hInside
  have hEnough := hKnown.enough
  rw [hAll (by omega), append_nil] at hSplit
  rw [← rounds_settledAt, hSent, hSplit]

/-- Blank records are skipped. -/
theorem filterMap_dropWhile_blank (header : CsvHeader) (spans : List RecordSpan) :
    (spans.dropWhile fun span => decide (span.bytes = [])).filterMap
        (decodeOne task.parse task.withOffset (some header)) =
      spans.filterMap (decodeOne task.parse task.withOffset (some header)) := by
  induction spans with
  | nil => rfl
  | cons span spans ih =>
    by_cases hBlank : span.bytes = []
    · have hNone : decodeOne task.parse task.withOffset (some header) span = none := by
        rw [decodeOne, decodeCsvRow, if_pos hBlank]
        rfl
      rw [dropWhile_cons_of_pos (by simpa using hBlank), ih, filterMap_cons_none hNone]
    · rw [dropWhile_cons_of_neg (by simpa using hBlank)]

theorem exists_first {spans : List RecordSpan} (hSome : ¬ Blank spans) : ∃ first rest,
    spans.dropWhile (fun span => decide (span.bytes = [])) = first :: rest := by
  refine exists_cons_of_ne_nil fun hNone => hSome fun span hMem => ?_
  exact of_decide_eq_true (dropWhile_eq_nil_iff.mp hNone span hMem)

section Decode

variable (hFormat : task.format = .csv) {found : Option UInt8} {spans : List RecordSpan}

include hFormat

theorem decode_blank (hBlank : Blank spans) :
    decodeRecords task.parse task.withOffset task.format found (some (.new task.dialect none))
      spans = (some (.new task.dialect none), []) := by
  have hNone : spans.dropWhile (fun span => decide (span.bytes = [])) = [] :=
    dropWhile_eq_nil_iff.mpr fun span hMem => decide_eq_true (hBlank span hMem)
  simp only [decodeRecords, if_pos hFormat, pendingCsvDialect, CsvHeader.new, hNone]

/-- The first record that is not blank settles the columns for the later ones. -/
theorem decode_first {first : RecordSpan} {rest : List RecordSpan}
    (hFirst : spans.dropWhile (fun span => decide (span.bytes = [])) = first :: rest) :
    let settled := CsvHeader.establish task.dialect found (fromUtf8Lossy first.bytes)
    decodeRecords task.parse task.withOffset task.format found (some (.new task.dialect none))
      spans = (some settled.1,
        (if settled.2 then
          (decodeOne task.parse task.withOffset (some settled.1)
            { first with bytes := stripBom first.bytes }).toList else []) ++
        rest.filterMap (decodeOne task.parse task.withOffset (some settled.1))) := by
  simp only [decodeRecords, if_pos hFormat, pendingCsvDialect, CsvHeader.new, hFirst]

/-- Without a header the columns are known, and the first record is a row, too. -/
theorem decode_plain (hSrc : task.dialect.checkSource = .ok ()) (hSettled : task.Settled found)
    (hHeader : task.dialect.header = false) (hMark : Unmarked spans) (hSome : ¬ Blank spans)
    (record : List UInt8) :
    (decodeRecords task.parse task.withOffset task.format found (some (.new task.dialect none))
      spans).2 = spans.filterMap (decodeOne task.parse task.withOffset
        (some (CsvHeader.establish task.dialect found record).1)) := by
  obtain ⟨next, rest, hNext⟩ := exists_first hSome
  have hEstablish : CsvHeader.establish task.dialect found record =
      CsvHeader.establish task.dialect found (fromUtf8Lossy next.bytes) := by
    cases hCols : task.dialect.columns with
    | none =>
      rw [CsvDialect.checkSource, hHeader, hCols] at hSrc
      cases hSrc
    | some columns => simp only [CsvHeader.establish, hCols, hSettled hFormat]
  have hData : (CsvHeader.establish task.dialect found (fromUtf8Lossy next.bytes)).2 = true := by
    rw [CsvHeader.establish, hHeader]
    rfl
  have hBom : ¬ utf8Bom <+: next.bytes := hMark next (by rw [hNext]; rfl)
  rw [decode_first hFormat hNext, if_pos hData, stripBom_of_not hBom, hEstablish,
    ← filterMap_dropWhile_blank _ spans, hNext]
  generalize CsvHeader.establish task.dialect found (fromUtf8Lossy next.bytes) = settled
  cases hOne : decodeOne task.parse task.withOffset (some settled.1) next with
  | none =>
    rw [filterMap_cons_none hOne]
    rfl
  | some message =>
    rw [filterMap_cons_some hOne]
    rfl

/-- Records are decoded alike with and without those before them if and only if
no columns were settled by then, or nothing is left to decode, or the first record
is a row like the others. -/
theorem decode_after_iff (hSrc : task.dialect.checkSource = .ok ())
    (hSettled : task.Settled found) {before after : List RecordSpan}
    (hMark : task.dialect.header = false → ¬ Blank before → Unmarked after) :
    let decode := decodeRecords task.parse task.withOffset task.format found
    ((decode (decode (some (.new task.dialect none)) before).1 after).2.map Decoded.payload =
        (decode (some (.new task.dialect none)) after).2.map Decoded.payload) ↔
      Blank before ∨ Blank after ∨ task.dialect.header = false := by
  intro decode
  by_cases hBefore : Blank before
  · refine iff_of_true ?_ (.inl hBefore)
    simp only [decode, decode_blank hFormat hBefore]
  obtain ⟨first, others, hFirst⟩ := exists_first hBefore
  have hLater (record : List UInt8) :
      (decode (some (CsvHeader.establish task.dialect found record).1) after).2 =
        after.filterMap (decodeOne task.parse task.withOffset
          (some (CsvHeader.establish task.dialect found record).1)) := by
    simp only [decode, decodeRecords, if_pos hFormat, pendingCsvDialect, CsvHeader.establish]
  have hWith : (decode (some (.new task.dialect none)) before).1 = some _ :=
    congrArg Prod.fst (decode_first hFormat hFirst)
  rw [hWith, hLater]
  by_cases hAfter : Blank after
  · refine iff_of_true ?_ (.inr (.inl hAfter))
    have hNone : (after.filterMap (decodeOne task.parse task.withOffset (some
        (CsvHeader.establish task.dialect found (fromUtf8Lossy first.bytes)).1))) = [] := by
      rw [← length_eq_zero_iff, length_rows, countP_eq_zero]
      exact fun span hMem => by simp [hAfter span hMem]
    simp only [decode, decode_blank hFormat hAfter, hNone]
  cases hHeader : task.dialect.header with
  | true =>
    -- the reader that begins here takes one of the rows for the header
    refine iff_of_false (fun hSame => ?_) (by simp [hBefore, hAfter])
    have hLen := congrArg length hSame
    obtain ⟨row, hMem, hRow⟩ : ∃ row ∈ after, row.bytes ≠ [] := by simpa [Blank] using hAfter
    have hPos : 0 < after.countP fun span => decide (span.bytes ≠ []) :=
      countP_pos_iff.mpr ⟨row, hMem, decide_eq_true hRow⟩
    simp only [decode, length_map, hFormat] at hLen
    rw [length_rows, length_decodeRecords _ _ hHeader] at hLen
    omega
  | false =>
    refine iff_of_true (congrArg (map Decoded.payload) ?_) (.inr (.inr rfl))
    exact (decode_plain hFormat hSrc hSettled hHeader (hMark hHeader hBefore) hAfter _).symm

end Decode

theorem accepted {setting : Option String}
    (hDelim : parseDelimiter setting = .ok task.delimiter)
    {config : CsvConfig}
    (hDialect : CsvDialect.forFormat task.format config task.delimiter = .ok task.dialect) :
    task.Accepted := by
  refine ⟨?_, parseDelimiter_ne_nil hDelim⟩
  rw [CsvDialect.forFormat] at hDialect
  split_ifs at hDialect with hFormat
  · obtain ⟨hQuote, -⟩ := CsvDialect.fromConfig_spec hDialect
    exact fun quote hMem => (quoteOf_spec hQuote quote hMem).1
  · have hDefault := Except.ok.inj hDialect
    rw [← hDefault]
    rintro quote ⟨⟩
    decide

/-- A reader that resumes behind a record sends the payloads that a reader from
the beginning sends after that record, if and only if the file is not a CSV file,
or the reader has learned no columns by then, or nothing but blank records is left,
or the columns are configured. -/
theorem resumed_reader_continues_iff {setting : Option String}
    (hDelim : parseDelimiter setting = .ok task.delimiter) {config : CsvConfig}
    (hDialect : CsvDialect.forFormat task.format config task.delimiter = .ok task.dialect)
    (hSrc : task.dialect.checkSource = .ok ()) {before after : List RecordSpan}
    {span : RecordSpan} (hRecords : task.records file complete = before ++ span :: after)
    {known resumed : List Bool} (hKnown : Watches file complete known)
    (hResumed : Watches file complete resumed)
    (hSep : task.format = .csv → task.SameSeparator file span.position)
    (hMark : task.format = .csv → task.dialect.header = false → ¬ Blank (before ++ [span]) →
      Unmarked after) :
    (task.emitted file 0 known).map Decoded.payload =
        ((decodeRecords task.parse task.withOffset task.format (task.settledAt file 0)
          (task.start 0).header (before ++ [span])).2 ++
            task.emitted file span.position resumed).map Decoded.payload ↔
      (task.format = .csv →
        Blank (before ++ [span]) ∨ Blank after ∨ task.dialect.header = false) := by
  have hTask := accepted hDelim hDialect
  have hAll :
      Streams task file complete (task.settledAt file 0) 0 (task.records file complete) := by
    rw [records, ← recordsFrom_settledAt]
    exact streams_recordsFrom hTask (settled_settledAt task file 0) (Nat.zero_le _) (by omega)
  have hFirst := emitted_spec hTask hKnown (Nat.zero_le _) hAll
  rw [hRecords] at hAll hFirst
  have hLeft := hAll.split hTask (Nat.zero_le _)
  have hInside : span.position ≤ file.length := hAll.position_le hTask (Nat.zero_le _) (by simp)
  rw [hFirst, append_cons, decodeRecords_append, map_append, map_append, append_right_inj]
  by_cases hFormat : task.format = .csv
  · have hStart (offset : Nat) : (task.start offset).header = some (.new task.dialect none) :=
      if_pos hFormat
    have hRest : task.emitted file span.position resumed =
        (decodeRecords task.parse task.withOffset task.format (task.settledAt file 0)
          (some (.new task.dialect none)) after).2 := by
      by_cases hEnd : file.drop span.position = []
      · have hNone := hLeft.unique (streams_end hTask (drop_eq_nil_iff.mp hEnd))
        rw [emitted_spec hTask hResumed hInside (streams_end hTask (drop_eq_nil_iff.mp hEnd)),
          hNone, decodeRecords_nil, decodeRecords_nil]
      · have hSame : task.settledAt file span.position = task.settledAt file 0 := by
          rw [settledAt, settledAt, if_pos hFormat, if_pos hFormat, hSep hFormat hEnd]
        rw [← hSame] at hLeft
        rw [emitted_spec hTask hResumed hInside hLeft, hSame, hStart]
    rw [hStart, hRest, forall_prop_of_true hFormat]
    exact decode_after_iff hFormat hSrc (settled_settledAt task file 0) (hMark hFormat)
  · refine iff_of_true ?_ fun hCsv => absurd hCsv hFormat
    have hStart (offset : Nat) : (task.start offset).header = none := if_neg hFormat
    have hSettled (offset : Nat) : task.settledAt file offset = none := if_neg hFormat
    have hHeader (spans : List RecordSpan) :
        (decodeRecords task.parse task.withOffset task.format none none spans).1 = none := by
      rw [decodeRecords, if_neg hFormat]
    rw [hSettled] at hLeft
    rw [← hSettled span.position] at hLeft
    rw [emitted_spec hTask hResumed hInside hLeft, hStart, hStart, hSettled, hSettled, hHeader]

end Resume

def columnsConfig : CsvConfig := ⟨none, none, some false, ["k"], .flatten, .warn⟩

def columnsTask : TailTask := ⟨.csv,
    { CsvDialect.default with header := false, columns := some ["k"] }, [0x0a], true, fun _ => none⟩

/-- The first of two rows was read before. -/
theorem resumed_reader_continues_columns :
    (columnsTask.emitted (bytesOf "1\n2\n") 0 (List.replicate 5 true)).map Decoded.payload =
      ((decodeRecords columnsTask.parse columnsTask.withOffset columnsTask.format
        (columnsTask.settledAt (bytesOf "1\n2\n") 0) (columnsTask.start 0).header
        ([] ++ [⟨[0x31], 2⟩])).2 ++
          columnsTask.emitted (bytesOf "1\n2\n") 2
            (List.replicate 5 true)).map Decoded.payload := by
  have hKnown : Watches (bytesOf "1\n2\n") true (List.replicate 5 true) :=
    ⟨fun _ _ _ => rfl, by decide⟩
  have hDialect : CsvDialect.forFormat columnsTask.format columnsConfig columnsTask.delimiter =
      .ok columnsTask.dialect := by decide
  have hRecords : columnsTask.records (bytesOf "1\n2\n") true =
      [] ++ ⟨[0x31], 2⟩ :: [⟨[0x32], 4⟩] := by decide +kernel
  have hMark : Unmarked [⟨[0x32], 4⟩] := by
    rintro span ⟨⟩
    decide
  have hDelim : parseDelimiter none = .ok columnsTask.delimiter := rfl
  exact (resumed_reader_continues_iff hDelim hDialect rfl hRecords hKnown hKnown
    (fun _ _ => rfl) fun _ _ _ => hMark).mpr fun _ => .inr (.inr rfl)

def headerTask : TailTask := ⟨.csv, .default, [0x0a], true, fun _ => none⟩

/-- Behind the first row, the second one is taken for the header, and it is lost. -/
theorem resumed_reader_takes_row_for_header : parseDelimiter none = .ok headerTask.delimiter ∧
      CsvDialect.forFormat headerTask.format defaultConfig headerTask.delimiter =
        .ok headerTask.dialect ∧ headerTask.dialect.checkSource = .ok () ∧
      headerTask.records (bytesOf "a\n1\n2\n") true = [⟨[0x61], 2⟩, ⟨[0x31], 4⟩, ⟨[0x32], 6⟩] ∧
      (headerTask.emitted (bytesOf "a\n1\n2\n") 0 (List.replicate 7 true)).map Decoded.payload =
        [bytesOf "\x7b\"a\":\"1\"\x7d", bytesOf "\x7b\"a\":\"2\"\x7d"] ∧
      (headerTask.emitted (bytesOf "a\n1\n2\n") 4 (List.replicate 7 true)).map Decoded.payload =
        [] := by
  decide +kernel

end TailTask

/-! ### Readers of decoded records

The consumer of a group and the one that drains a file are stated over decoded
records. What they hand out is what the reading task decodes. -/

section Decoded

variable {parse : List UInt8 → Option Decoded} (id : Nat)

def delivered (decoded : Decoded) : CanonicalMessage := ⟨id, decoded.payload, decoded.metadata⟩

/-- The consumer of a group stamps a message with the offset that the task does. -/
theorem tail_eq_decoded {header : Option CsvHeader} {spans : List RecordSpan} {position : Nat}
    {records : List FileTail.Record}
    (hSame : Forall₂ (fun span record =>
      record.message = (decodeOne parse false header span).map (delivered id)) spans records)
    (hEnds : spans.map RecordSpan.position = (FileTail.extents position records).map Prod.snd) :
    (FileTail.tail position records).map FileTail.Tailed.message =
      (spans.filterMap (decodeOne parse true header)).map (delivered id) := by
  have hStamped (span : RecordSpan) : decodeOne parse true header span =
      (decodeOne parse false header span).map fun decoded => { decoded with
        metadata := decoded.metadata.insert "file_offset" (toString span.position) } := by
    simp [decodeOne]
  induction hSame generalizing position with
  | nil => rfl
  | @cons span record spans records hFirst _ ih =>
    rw [FileTail.extents, map_cons, map_cons, cons.injEq] at hEnds
    rw [FileTail.tail, hFirst, filterMap_cons, hStamped, hEnds.1]
    cases decodeOne parse false header span with
    | none => exact ih hEnds.2
    | some decoded => exact congrArg (_ :: ·) (ih hEnds.2)

section Entries

variable {withOffset : Bool} {header : CsvHeader} {spans : List RecordSpan} {records : List Record}
  (hSame : Forall₂ (fun span record => record.message =
    (decodeOne parse withOffset (some header) span).map (delivered id)) spans records)

include hSame

theorem entries_false_eq_decoded : (entries false records).map Entry.message =
      (spans.filterMap (decodeOne parse withOffset (some header))).map (delivered id) := by
  induction hSame with
  | nil => rfl
  | @cons span record spans records hFirst _ ih =>
    rw [entries, filterMap_cons, parseMessage, hFirst]
    cases decodeOne parse withOffset (some header) span with
    | none => exact ih
    | some decoded => exact congrArg (_ :: ·) ih

/-- The consumer that drains a CSV file leaves out the row with the columns. -/
theorem entries_eq_decoded {dialect : CsvDialect} {found : Option UInt8} {waiting : CsvHeader}
    (hPend : waiting.unread = some dialect)
    (hCols : ∀ first rest, (spans.dropWhile fun span => span.bytes = []) = first :: rest →
      CsvHeader.establish dialect found (fromUtf8Lossy first.bytes) = (header, false)) :
    (entries true records).map Entry.message =
      (decodeRecords parse withOffset .csv found (some waiting) spans).2.map (delivered id) := by
  rw [decodeRecords, if_pos rfl, pendingCsvDialect, hPend]
  induction hSame with
  | nil => rfl
  | @cons span record spans records hFirst hRest ih =>
    rw [entries, parseMessage, hFirst, decodeOne, decodeCsvRow]
    by_cases hBlank : span.bytes = []
    · have hDrop : ((span :: spans).dropWhile fun span => span.bytes = []) =
          spans.dropWhile fun span => span.bytes = [] :=
        dropWhile_cons_of_pos (decide_eq_true hBlank)
      rw [hDrop] at hCols ⊢
      rw [if_pos hBlank]
      exact ih hCols
    · have hDrop : ((span :: spans).dropWhile fun span => span.bytes = []) = span :: spans :=
        dropWhile_cons_of_neg (by simpa using hBlank)
      rw [hDrop, if_neg hBlank]
      dsimp only
      rw [hCols span spans hDrop]
      exact entries_false_eq_decoded id hRest

end Entries

end Decoded

end MqBridge.File
