import Mathlib.Algebra.BigOperators.Group.List.Basic
import Mathlib.Algebra.GroupWithZero.Nat
import Mathlib.Data.List.TakeWhile
import MqBridge.Consumer
import MqBridge.Machine.Run
import MqBridge.Support.Text

/-! The file consumer of a group. A reader hands out the records of the file
from the stored offset on, and the commit of a batch stores how far the group
has come. Batches are committed in the order they are received.

A record is known by its length with the delimiter, and by the message that this
reader decodes it to, if it is one. A reader that is opened again reads the same
records, but it may decode them to something else: it takes the header of a CSV
file from the first record that it reads. -/
namespace MqBridge.FileTail

open List Option Machine

open Text

/-- A record as one reader sees it. A blank line, or what it takes for a CSV
header, carries no message. -/
structure Record where
  length : Nat
  positive : 0 < length
  message : Option CanonicalMessage

def storedOffset (content : Option (List UInt8)) : Nat :=
  ((content.bind decodeUtf8).bind fun text =>
    parseUnsigned (String.ofList (trim text.toList))).elim 0 UInt64.toNat

/-- Where the reader begins: at the stored offset, or at the end of the file
if there is none and it was asked to. A file that is shorter was truncated. -/
def startPosition (content : Option (List UInt8)) (readFromTail : Bool) (fileLength : Nat) : Nat :=
  let stored := storedOffset content
  let initial := if stored = 0 ∧ readFromTail = true then fileLength else stored
  if fileLength < initial then 0 else initial

structure Tailed where
  start : Nat
  stop : Nat
  message : CanonicalMessage
  deriving DecidableEq

/-- The messages of the records, each stamped with the offset just past it. -/
def tail (position : Nat) : List Record → List Tailed
  | [] => []
  | record :: rest =>
    let stop := position + record.length
    match record.message with
    | none => tail stop rest
    | some message =>
      ⟨position, stop, { message with
          metadata := message.metadata.insert "file_offset"
            (String.ofList (Nat.toDigits 10 stop)) }⟩ :: tail stop rest

/-- Where the records begin and end. -/
def extents (position : Nat) : List Record → List (Nat × Nat)
  | [] => []
  | record :: rest =>
    (position, position + record.length) :: extents (position + record.length) rest

def fileOffset (message : CanonicalMessage) : Option Nat :=
  ((message.metadata.lookup "file_offset").bind parseUnsigned).map UInt64.toNat

/-- The offset stops before the first nack. -/
def maxOffset (dispositions : Dispositions) (messages : List CanonicalMessage) : Option Nat :=
  (((dispositions.zip messages).takeWhile fun entry => decide (entry.1 ≠ .nack)).filterMap
    fun entry => fileOffset entry.2).max?

/-- Writes the offset in place, with a fixed width. -/
def writeOffset (content : List UInt8) (offset : Nat) : List UInt8 :=
  let text := bytesOf (padded 20 (Nat.toDigits 10 offset))
  text ++ content.drop text.length

structure State where
  /-- What is not handed out yet. -/
  rest : List Tailed
  /-- The batches whose commit has not run, the oldest first. -/
  waiting : List (List Tailed)
  offsetFile : List UInt8
  /-- Every message that was committed with a Nack. -/
  nacked : List Tailed
  /-- A commit has stored an offset after one that contained a Nack. -/
  passed : Bool

inductive Action where
  /-- A batch of any size is handed out. -/
  | receive (count : Nat)
  /-- The oldest batch is committed. -/
  | commit (dispositions : Dispositions)

def nackedOf (dispositions : Dispositions) (batch : List Tailed) : List Tailed :=
  ((dispositions.zip batch).filter fun entry => decide (entry.1 = .nack)).map Prod.snd

/-- Batches are committed in the order of their receipt. -/
def step (s : State) : Action → Option State
  | .receive count =>
    some { s with rest := s.rest.drop count, waiting := s.waiting ++ [s.rest.take count] }
  | .commit dispositions =>
    match s.waiting with
    | [] => none
    | batch :: later =>
      let stored := maxOffset dispositions (batch.map Tailed.message)
      some
        { s with
          waiting := later
          offsetFile := stored.elim s.offsetFile (writeOffset s.offsetFile)
          nacked := s.nacked ++ nackedOf dispositions batch
          passed := s.passed || (!s.nacked.isEmpty && stored.isSome) }

structure Opened where
  content : Option (List UInt8)
  readFromTail : Bool
  fileLength : Nat
  records : List Record

def Opened.start (opened : Opened) : Nat :=
  startPosition opened.content opened.readFromTail opened.fileLength

def total (records : List Record) : Nat := (records.map Record.length).sum

/-- The offset file has no more than an offset in it, the file was not
truncated below that, and positions fit into 64 bits. -/
structure Opened.Intact (opened : Opened) : Prop where
  short : (opened.content.getD []).length ≤ 20
  stored : storedOffset opened.content ≤ opened.fileLength
  size : opened.start + total opened.records < 2 ^ 64

def Opened.new (opened : Opened) : State :=
  ⟨tail opened.start opened.records, [], opened.content.getD [], [], false⟩

section Tail

variable {position : Nat} {records : List Record}

theorem total_cons (record : Record) (rest : List Record) :
    total (record :: rest) = record.length + total rest := by
  simp [total]

theorem tail_append (position : Nat) (before after : List Record) :
    tail position (before ++ after) =
      tail position before ++ tail (position + total before) after := by
  induction before generalizing position with
  | nil => rfl
  | cons record rest ih =>
    rw [total_cons, ← add_assoc]
    cases hMsg : record.message <;> simp [tail, hMsg, ih]

variable {entry : Tailed}

/-- The first record's own message, or one of a later record. -/
theorem mem_tail_cons {record : Record} {rest : List Record}
    (hMem : entry ∈ tail position (record :: rest)) :
    (entry.start = position ∧ entry.stop = position + record.length ∧
        entry.message.metadata.lookup "file_offset" =
          some (String.ofList (Nat.toDigits 10 entry.stop))) ∨
      entry ∈ tail (position + record.length) rest := by
  rw [tail] at hMem
  cases hMsg : record.message with
  | none =>
    rw [hMsg] at hMem
    exact .inr hMem
  | some message =>
    rw [hMsg] at hMem
    rcases mem_cons.mp hMem with rfl | hMem
    · exact .inl ⟨rfl, rfl, Finmap.lookup_insert _⟩
    · exact .inr hMem

/-- A message lies in the file where its record does. -/
theorem bounds_of_mem_tail (hMem : entry ∈ tail position records) :
    position ≤ entry.start ∧ entry.start < entry.stop ∧ entry.stop ≤ position + total records := by
  induction records generalizing position with
  | nil => cases hMem
  | cons record rest ih =>
    have hPos := record.positive
    rw [total_cons]
    obtain ⟨hStart, hStop, -⟩ | hMem := mem_tail_cons hMem
    · omega
    · have hLater := ih hMem
      omega

theorem pairwise_tail (position : Nat) (records : List Record) :
    (tail position records).Pairwise fun a b => a.stop ≤ b.start := by
  induction records generalizing position with
  | nil => exact .nil
  | cons record rest ih =>
    rw [tail]
    cases record.message with
    | none => exact ih _
    | some message => exact .cons (fun entry hMem => (bounds_of_mem_tail hMem).1) (ih _)

/-- The offset of a message is one where the reader can begin. -/
theorem split_of_mem_tail (hMem : entry ∈ tail position records) :
    ∃ before after, records = before ++ after ∧ entry.stop = position + total before := by
  induction records generalizing position with
  | nil => cases hMem
  | cons record rest ih =>
    obtain ⟨-, hStop, -⟩ | hMem := mem_tail_cons hMem
    · exact ⟨[record], rest, rfl, by simp [total, hStop]⟩
    · obtain ⟨before, after, rfl, hStop⟩ := ih hMem
      exact ⟨record :: before, after, rfl, by rw [hStop, total_cons, add_assoc]⟩

theorem extent_of_mem_tail (hMem : entry ∈ tail position records) :
    (entry.start, entry.stop) ∈ extents position records := by
  induction records generalizing position with
  | nil => cases hMem
  | cons record rest ih =>
    obtain ⟨hStart, hStop, -⟩ | hMem := mem_tail_cons hMem
    · rw [hStart, hStop]
      exact mem_cons_self
    · exact mem_cons_of_mem _ (ih hMem)

theorem fileOffset_of_mem_tail (hSize : position + total records < 2 ^ 64)
    (hMem : entry ∈ tail position records) : fileOffset entry.message = some entry.stop := by
  have hStop := (bounds_of_mem_tail hMem).2.2
  suffices hStamp : entry.message.metadata.lookup "file_offset" =
      some (.ofList (Nat.toDigits 10 entry.stop)) by
    have hLt : entry.stop < 2 ^ 64 := by omega
    rw [fileOffset, hStamp, bind_some, parseUnsigned_repr hLt, map_some,
      UInt64.toNat_ofNat_of_lt' hLt]
  clear hStop hSize
  induction records generalizing position with
  | nil => cases hMem
  | cons record rest ih =>
    obtain ⟨-, -, hStamp⟩ | hMem := mem_tail_cons hMem
    · exact hStamp
    · exact ih hMem

end Tail

section OffsetFile

variable {offset : Nat}

theorem length_bytesOf_padded (hLt : offset < 2 ^ 64) :
    (bytesOf (padded 20 (Nat.toDigits 10 offset))).length = 20 := by
  rw [length_bytesOf fun c => isDigit_of_mem_padded]
  exact length_padded (by decide) (hLt.trans (by decide))

theorem storedOffset_padded (hLt : offset < 2 ^ 64) :
    storedOffset (some (bytesOf (padded 20 (Nat.toDigits 10 offset)))) = offset := by
  have hTrim : trim (padded 20 (Nat.toDigits 10 offset)).toList =
      (padded 20 (Nat.toDigits 10 offset)).toList :=
    trim_of_forall fun c hMem => isWhitespace_of_isDigit (isDigit_of_mem_padded hMem)
  rw [storedOffset, bind_some, decodeUtf8_bytesOf, bind_some, hTrim, String.ofList_toList,
    parseUnsigned_padded hLt]
  exact UInt64.toNat_ofNat_of_lt' hLt

end OffsetFile

variable (dispositions : Dispositions) (batch : List Tailed)

/-- A commit with fewer dispositions than messages settles only the first. -/
theorem snd_zip_sublist :
    ((dispositions.zip batch).map Prod.snd).Sublist batch := by
  induction dispositions generalizing batch with
  | nil => exact nil_sublist _
  | cons disposition rest ih =>
    cases batch with
    | nil => exact nil_sublist _
    | cons entry batch => exact (ih batch).cons_cons entry

theorem nackedOf_sublist :
    (nackedOf dispositions batch).Sublist batch :=
  (filter_sublist.map _).trans (snd_zip_sublist dispositions batch)

/-- An offset that is stored is the end of a message before the first nack. -/
theorem maxOffset_spec {dispositions : Dispositions} {batch : List Tailed} {offset : Nat}
    (hOffsets : ∀ entry ∈ batch, fileOffset entry.message = some entry.stop)
    (hOrder : batch.Pairwise fun a b => a.stop ≤ b.start)
    (hMax : maxOffset dispositions (batch.map Tailed.message) = some offset) :
    ∃ entry ∈ batch, entry.stop = offset ∧
      ∀ nacked ∈ nackedOf dispositions batch, offset ≤ nacked.start := by
  have hMem := (max?_eq_some_iff.mp hMax).1
  rw [zip_map_right, takeWhile_map, filterMap_map] at hMem
  obtain ⟨⟨disposition, entry⟩, hFirst, hOffset⟩ := mem_filterMap.mp hMem
  have hBatch : entry ∈ batch := (snd_zip_sublist dispositions batch).subset
    (mem_map_of_mem ((takeWhile_sublist _).subset hFirst))
  have hStop : entry.stop = offset := by
    have hKnown := hOffsets entry hBatch
    exact some.inj (hKnown.symm.trans hOffset)
  refine ⟨entry, hBatch, hStop, fun nacked hNacked => ?_⟩
  -- a nacked message is not among those before the first nack
  obtain ⟨⟨other, _⟩, hPair, rfl⟩ := mem_map.mp hNacked
  rw [mem_filter] at hPair
  have hPairs : (dispositions.zip batch).Pairwise fun a b => a.2.stop ≤ b.2.start :=
    pairwise_map.mp (hOrder.sublist (snd_zip_sublist dispositions batch))
  have hSplit := takeWhile_append_dropWhile
    (p := (fun entry => decide (entry.1 ≠ .nack)) ∘ Prod.map id Tailed.message)
      (l := dispositions.zip batch)
  rw [← hSplit, mem_append] at hPair
  rw [← hSplit] at hPairs
  rcases hPair with ⟨hBefore | hAfter, hNack⟩
  · have hKept := mem_takeWhile_imp hBefore
    simp [hNack] at hKept
  · rw [← hStop]
    exact (pairwise_append.mp hPairs).2.2 _ hFirst _ hAfter

/-- What the consumer has done so far. The messages that are not committed are
the last ones, and the stored offset is not past any of them. -/
structure Sound (opened : Opened) (done : List Tailed) (s : State) : Prop where
  open_ : tail opened.start opened.records = done ++ (s.waiting.flatten ++ s.rest)
  short : s.offsetFile.length ≤ 20
  stored : storedOffset (some s.offsetFile) = storedOffset opened.content ∨
    ∃ entry ∈ done, storedOffset (some s.offsetFile) = entry.stop
  ahead : ∀ entry ∈ s.waiting.flatten ++ s.rest, storedOffset (some s.offsetFile) ≤ entry.start
  nacked : s.nacked.Sublist done
  held : s.passed = false → ∀ entry ∈ s.nacked, storedOffset (some s.offsetFile) ≤ entry.start
  lost : s.passed = true → ∃ first, s.nacked.head? = some first ∧
    first.start < storedOffset (some s.offsetFile)

section Sound

variable {opened : Opened} {done : List Tailed} {s t : State}

theorem Opened.Intact.stored_le_start (h : opened.Intact) :
    storedOffset opened.content ≤ opened.start := by
  have hStored := h.stored
  rw [start, startPosition]
  split_ifs <;> omega

theorem Opened.Intact.sound_new (h : opened.Intact) : Sound opened [] opened.new := by
  have hSame : storedOffset (some (opened.content.getD [])) = storedOffset opened.content := by
    cases opened.content <;> rfl
  refine ⟨rfl, h.short, .inl hSame, fun entry hMem => ?_, .refl _, fun _ => nofun, nofun⟩
  exact (hSame.trans_le h.stored_le_start).trans (bounds_of_mem_tail hMem).1

section

variable (h : Sound opened done s)

include h

theorem Sound.receive (count : Nat) : Sound opened done
      { s with rest := s.rest.drop count, waiting := s.waiting ++ [s.rest.take count] } := by
  have hSame : (s.waiting ++ [s.rest.take count]).flatten ++ s.rest.drop count =
      s.waiting.flatten ++ s.rest := by
    rw [flatten_append, flatten_singleton, append_assoc, take_append_drop]
  refine { h with open_ := hSame ▸ h.open_, ahead := hSame ▸ h.ahead }

/-- What is not committed lies behind what is. -/
theorem Sound.stop_le {before after : Tailed} (hBefore : before ∈ done)
    (hAfter : after ∈ s.waiting.flatten ++ s.rest) : before.stop ≤ after.start := by
  have hOrder := pairwise_tail opened.start opened.records
  rw [h.open_] at hOrder
  exact (pairwise_append.mp hOrder).2.2 _ hBefore _ hAfter

theorem Sound.mem_open {entry : Tailed}
    (hMem : entry ∈ done ∨ entry ∈ s.waiting.flatten ++ s.rest) :
    entry ∈ tail opened.start opened.records := by
  rw [h.open_]
  exact mem_append.mpr hMem

end

section Commit

variable {batch nacked : List Tailed} {later : List (List Tailed)}

theorem uncommitted_eq (hWait : s.waiting = batch :: later) :
    s.waiting.flatten ++ s.rest = batch ++ (later.flatten ++ s.rest) := by
  rw [hWait, flatten_cons, append_assoc]

theorem Sound.keep (h : Sound opened done s) (hWait : s.waiting = batch :: later)
    (hNacked : nacked.Sublist batch) :
    Sound opened (done ++ batch) { s with waiting := later, nacked := s.nacked ++ nacked } := by
  have hAhead := h.ahead
  rw [uncommitted_eq hWait] at hAhead
  constructor
  case open_ => rw [h.open_, uncommitted_eq hWait, append_assoc]
  case short => exact h.short
  case stored =>
    exact h.stored.imp_right fun ⟨entry, hMem, hStop⟩ => ⟨entry, mem_append_left _ hMem, hStop⟩
  case ahead => exact fun entry hMem => hAhead entry (mem_append_right _ hMem)
  case nacked => exact h.nacked.append hNacked
  case held =>
    intro hHeld
    rw [forall_mem_append]
    exact ⟨h.held hHeld, fun entry hMem => hAhead entry (mem_append_left _ (hNacked.subset hMem))⟩
  case lost =>
    intro hLost
    obtain ⟨first, hFirst, hLess⟩ := h.lost hLost
    exact ⟨first, by rw [head?_append, hFirst]; rfl, hLess⟩

theorem Sound.store (hIntact : opened.Intact) (h : Sound opened done s)
    (hWait : s.waiting = batch :: later) (hNacked : nacked.Sublist batch) {entry : Tailed}
    (hEntry : entry ∈ batch) (hBefore : ∀ other ∈ nacked, entry.stop ≤ other.start) :
    Sound opened (done ++ batch)
      { s with
        waiting := later
        offsetFile := writeOffset s.offsetFile entry.stop
        nacked := s.nacked ++ nacked
        passed := s.passed || !s.nacked.isEmpty } := by
  have hUncommitted : entry ∈ s.waiting.flatten ++ s.rest := by
    rw [uncommitted_eq hWait]
    exact mem_append_left _ hEntry
  obtain ⟨-, hLen, hEnd⟩ := bounds_of_mem_tail (h.mem_open (.inr hUncommitted))
  have hLt : entry.stop < 2 ^ 64 := lt_of_le_of_lt hEnd hIntact.size
  have hOpen : tail opened.start opened.records = (done ++ batch) ++ (later.flatten ++ s.rest) := by
    rw [h.open_, uncommitted_eq hWait, append_assoc]
  -- what was in the file is overwritten
  rw [writeOffset, length_bytesOf_padded hLt, drop_eq_nil_of_le h.short, append_nil]
  constructor
  case open_ => exact hOpen
  case short => exact (length_bytesOf_padded hLt).le
  case stored => exact .inr ⟨entry, mem_append_right _ hEntry, storedOffset_padded hLt⟩
  case nacked => exact h.nacked.append hNacked
  all_goals simp only [storedOffset_padded hLt]
  case ahead =>
    intro after hMem
    have hOrder := pairwise_tail opened.start opened.records
    rw [hOpen] at hOrder
    exact (pairwise_append.mp hOrder).2.2 _ (mem_append_right _ hEntry) _ hMem
  case held =>
    -- nothing was nacked before this batch
    intro hHeld
    simp only [Bool.or_eq_false_iff, Bool.not_eq_false', List.isEmpty_iff] at hHeld
    rw [hHeld.2]
    exact hBefore
  case lost =>
    intro hLost
    have hSome : s.nacked ≠ [] := by
      intro hNone
      simp only [hNone, isEmpty_nil, Bool.not_true, Bool.or_false] at hLost
      obtain ⟨first, hFirst, -⟩ := h.lost hLost
      rw [hNone] at hFirst
      cases hFirst
    obtain ⟨first, others, hCons⟩ := exists_cons_of_ne_nil hSome
    have hFirst : first ∈ done := h.nacked.subset (hCons ▸ mem_cons_self)
    have hStop := h.stop_le hFirst hUncommitted
    have hBounds := bounds_of_mem_tail (h.mem_open (.inl hFirst))
    exact ⟨first, by rw [hCons]; rfl, by omega⟩

theorem Sound.commit (hIntact : opened.Intact) (h : Sound opened done s)
    (hWait : s.waiting = batch :: later) (dispositions : Dispositions)
    (hStep : step s (.commit dispositions) = some t) : Sound opened (done ++ batch) t := by
  have hNacked := nackedOf_sublist dispositions batch
  simp only [step, hWait] at hStep
  cases hMax : maxOffset dispositions (batch.map Tailed.message) with
  | none =>
    simp only [hMax, isSome_none, Bool.and_false, Bool.or_false] at hStep
    cases hStep
    exact h.keep hWait hNacked
  | some offset =>
    have hMem : ∀ entry ∈ batch, entry ∈ tail opened.start opened.records := by
      intro entry hEntry
      apply h.mem_open
      rw [uncommitted_eq hWait]
      exact .inr (mem_append_left _ hEntry)
    have hOrder : batch.Pairwise fun a b => a.stop ≤ b.start := by
      have hAll := pairwise_tail opened.start opened.records
      rw [h.open_, uncommitted_eq hWait] at hAll
      exact hAll.sublist ((sublist_append_left ..).trans (sublist_append_right ..))
    obtain ⟨entry, hEntry, rfl, hBefore⟩ := maxOffset_spec
      (fun entry hEntry => fileOffset_of_mem_tail hIntact.size (hMem entry hEntry)) hOrder hMax
    simp only [hMax, isSome_some, Bool.and_true] at hStep
    cases hStep
    exact h.store hIntact hWait hNacked hEntry hBefore

end Commit

section

variable (hIntact : opened.Intact)

include hIntact

theorem step_sound {action : Action} (h : ∃ done, Sound opened done s)
    (hStep : step s action = some t) : ∃ done, Sound opened done t := by
  obtain ⟨done, h⟩ := h
  cases action with
  | receive count =>
    cases hStep
    exact ⟨done, h.receive count⟩
  | commit dispositions =>
    cases hWait : s.waiting with
    | nil =>
      simp only [step, hWait] at hStep
      cases hStep
    | cons batch later => exact ⟨done ++ batch, h.commit hIntact hWait dispositions hStep⟩

theorem run_sound {actions : List Action}
    (hRun : run step opened.new actions = some s) : ∃ done, Sound opened done s :=
  invariant_of_run (fun _ _ _ h hStep => step_sound hIntact h hStep) ⟨[], hIntact.sound_new⟩ hRun

/-- The stored offset is where one of the records begins. -/
theorem Sound.split (h : Sound opened done s)
    (hKept : opened.readFromTail = false ∨ storedOffset (some s.offsetFile) ≠ 0) :
    ∃ before after, opened.records = before ++ after ∧
      storedOffset (some s.offsetFile) = opened.start + total before := by
  rcases h.stored with hStored | ⟨entry, hMem, hStored⟩
  · have hLen := hIntact.stored
    refine ⟨[], opened.records, rfl, ?_⟩
    rw [hStored] at hKept ⊢
    rw [Opened.start, startPosition]
    rcases hKept with hHead | hSome
    · simp [hHead, total, hLen]
    · simp [hSome, total, hLen]
  · rw [hStored]
    exact split_of_mem_tail (h.mem_open (.inl hMem))

end

/-- A consumer that is opened again begins at the stored offset. -/
theorem startPosition_eq {content : Option (List UInt8)} {readFromTail : Bool} {fileLength : Nat}
    (hKept : readFromTail = false ∨ storedOffset content ≠ 0)
    (hLen : storedOffset content ≤ fileLength) :
    startPosition content readFromTail fileLength = storedOffset content := by
  have hInitial : ¬(storedOffset content = 0 ∧ readFromTail = true) := by
    rintro ⟨hZero, hTail⟩
    rcases hKept with hHead | hSome
    · exact Bool.false_ne_true (hHead.symm.trans hTail)
    · exact hSome hZero
  rw [startPosition, if_neg hInitial, if_neg (not_lt.mpr hLen)]

theorem Sound.mem_tail (h : Sound opened done s) (hPassed : s.passed = false)
    {before after : List Record} (hRecords : opened.records = before ++ after)
    (hStored : storedOffset (some s.offsetFile) = opened.start + total before) {entry : Tailed}
    (hNacked : entry ∈ s.nacked) : entry ∈ tail (opened.start + total before) after := by
  have hMem := h.mem_open (.inl (h.nacked.subset hNacked))
  rw [hRecords, tail_append] at hMem
  rcases mem_append.mp hMem with hBefore | hAfter
  · have hBounds := bounds_of_mem_tail hBefore
    have hHeld := h.held hPassed entry hNacked
    omega
  · exact hAfter

/-- The stored offset stays at or before the first nacked record exactly as
long as no commit after that nack has stored an offset. A consumer that is
opened again then begins where a record does, and every nacked record is among
those it reads. -/
theorem offset_stops_at_nack {opened : Opened} {actions : List Action} {s : State} {first : Tailed}
    (hIntact : opened.Intact) (hRun : run step opened.new actions = some s)
    (hFirst : s.nacked.head? = some first) :
    (storedOffset (some s.offsetFile) ≤ first.start ↔ s.passed = false) ∧
      (s.passed = false → (opened.readFromTail = false ∨ storedOffset (some s.offsetFile) ≠ 0) →
        ∀ fileLength, storedOffset (some s.offsetFile) ≤ fileLength →
          ∃ before after, opened.records = before ++ after ∧
            startPosition (some s.offsetFile) opened.readFromTail fileLength =
              opened.start + total before ∧ ∀ entry ∈ s.nacked,
              (entry.start, entry.stop) ∈ extents (opened.start + total before) after) := by
  obtain ⟨done, h⟩ := run_sound hIntact hRun
  constructor
  · constructor
    · intro hLe
      rw [← Bool.not_eq_true]
      intro hLost
      obtain ⟨other, hOther, hLess⟩ := h.lost hLost
      cases hFirst.symm.trans hOther
      omega
    · exact fun hHeld => h.held hHeld first (mem_of_head? hFirst)
  · intro hHeld hKept fileLength hLen
    obtain ⟨before, after, hRecords, hStored⟩ := h.split hIntact hKept
    refine ⟨before, after, hRecords, ?_, fun entry hMem => ?_⟩
    · rw [startPosition_eq hKept hLen, hStored]
    · exact extent_of_mem_tail (h.mem_tail hHeld hRecords hStored hMem)

end Sound

def twoRecords : Opened where
  content := none
  readFromTail := false
  fileLength := 4
  records := [⟨2, by decide, some ⟨0, [49], ∅⟩⟩, ⟨2, by decide, some ⟨1, [50], ∅⟩⟩]

theorem twoRecords_intact : twoRecords.Intact := by
  constructor <;> decide

/-- The second of two messages is nacked, and read again. -/
theorem offset_stops_at_nack_second :
    ∃ s, run step twoRecords.new [.receive 2, .commit [.ack, .nack]] = some s ∧
      s.nacked.map Tailed.start = [2] ∧ s.passed = false ∧ storedOffset (some s.offsetFile) ≤ 2 ∧
      ∃ before after, twoRecords.records = before ++ after ∧
        startPosition (some s.offsetFile) false 4 = twoRecords.start + total before ∧
        ∀ entry ∈ s.nacked,
          (entry.start, entry.stop) ∈ extents (twoRecords.start + total before) after := by
  refine exists_run (fun s => s.nacked.map Tailed.start = [2] ∧ s.passed = false) (by decide) ?_
  rintro s hRun ⟨hNacked, hPassed⟩
  obtain ⟨first, hFirst, hStart⟩ : ∃ first, s.nacked.head? = some first ∧ first.start = 2 := by
    obtain ⟨first, others, hCons, hStart, -⟩ := map_eq_cons_iff.mp hNacked
    exact ⟨first, by rw [hCons]; rfl, hStart⟩
  obtain ⟨hOffset, hReopened⟩ := offset_stops_at_nack twoRecords_intact hRun hFirst
  have hStored := hOffset.mpr hPassed
  rw [hStart] at hStored
  exact ⟨hNacked, hPassed, hStored, hReopened hPassed (.inl rfl) 4 (hStored.trans (by decide))⟩

/-- The first message is nacked and the second acknowledged, in a batch of its
own. The offset is stored behind both, and the first is never read again. -/
theorem offset_passes_nack :
    ∃ s, run step twoRecords.new [.receive 1, .commit [.nack], .receive 1, .commit [.ack]] =
      some s ∧ s.nacked.map Tailed.start = [0] ∧ storedOffset (some s.offsetFile) = 4 ∧
      startPosition (some s.offsetFile) false 4 = 4 := by
  refine exists_run (fun s => s.nacked.map Tailed.start = [0] ∧
    s.offsetFile = bytesOf (padded 20 (Nat.toDigits 10 4))) (by decide) ?_
  rintro s - ⟨hNacked, hFile⟩
  have hStored : storedOffset (some s.offsetFile) = 4 := by
    rw [hFile, storedOffset_padded (by decide)]
  refine ⟨hNacked, hStored, ?_⟩
  rw [startPosition_eq (.inl rfl) hStored.le, hStored]

end MqBridge.FileTail
