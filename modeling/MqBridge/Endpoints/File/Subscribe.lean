import Mathlib.Algebra.BigOperators.Group.List.Basic
import Mathlib.Algebra.GroupWithZero.Nat
import Mathlib.Data.List.TakeWhile
import MqBridge.Endpoints.File.Receiver
import MqBridge.EventStore.Store
import MqBridge.Machine.Run

/-! The event store behind subscribers of a file that is deleted as they
acknowledge it. A task reads the records into the store. The collection of
acknowledged events calls back, and the callback cuts as many records from the
front of the file.

The task holds the lock of the file only until it has found its place, and the
lock of the line count until its pass ends. So a callback can replace the file
under a pass, which reads on in the old one, and then waits with the count. -/
namespace MqBridge.File

open List Machine

open EventStore (Store Contiguous)

structure Reader where
  /-- What the file it has opened has behind the records it has read. -/
  rest : List Record
  batch : List Entry
  /-- The open file is still the one that publishers append to. -/
  current : Bool
  deriving DecidableEq

structure FileStore where
  file : List Record
  linesInMemory : Nat
  store : Store
  reader : Option Reader
  /-- The numbers of events that callbacks were called for and have not removed. -/
  dropped : List Nat
  /-- The callback that has the lock of the file has removed so many records. -/
  removing : Option Nat
  /-- All records the file ever had, which the program does not see. -/
  history : List Record
  deriving DecidableEq

def retention : EventStore.RetentionPolicy :=
  { EventStore.RetentionPolicy.default with gcInterval := 0, maxCount := none, maxAge := none }

def maxUnreadLines : Nat := 10000

def feedBatchSize : Nat := 128

namespace FileStore

def new (contents : List (Option CanonicalMessage)) (now : Nat) : FileStore where
  file := placed 0 contents
  linesInMemory := 0
  store := .new retention now
  reader := none
  dropped := []
  removing := none
  history := placed 0 contents

inductive Action where
  | append (contents : List (Option CanonicalMessage))
  /-- A pass begins: it skips the records that are in memory. -/
  | openFile
  /-- It comes to a record. -/
  | read (timestamp : Nat)
  /-- It ends, at the end of the file, at a record that is not complete or
  because a read failed. -/
  | close (timestamp : Nat)
  /-- A subscriber at a position of its own receives. -/
  | receive (id : String) (position maxMessages now : Nat)
  | ack (id : String) (offset now gcNow : Nat)
  /-- A callback gets the lock of the file. -/
  | removeLines (index : Nat)
  /-- The callback gets the lock of the line count and ends. -/
  | settle
  deriving DecidableEq

def appendTo (store : Store) (batch : List Entry) (timestamp : Nat) : Store :=
  (store.appendBatch (batch.map Entry.message) timestamp).1

def deliver (store : Store) (id : String) (position maxMessages now : Nat) : Store :=
  let registered := store.registerSubscriber id now
  match registered.getEventsSince position maxMessages with
  | .error _ => registered
  | .ok events =>
    { registered with
      delivered :=
        (events.getLast?.map fun e => max registered.delivered e.offset).getD registered.delivered }

def readRecord (s : FileStore) (r : Reader) (timestamp : Nat) : Option FileStore :=
  match r.rest with
  | [] => none
  | record :: rest =>
    if s.store.unread < maxUnreadLines then
      let batch := r.batch ++ (parseMessage false record).1.toList
      let full := decide (feedBatchSize ≤ batch.length)
      some
        { s with
          linesInMemory := s.linesInMemory + 1
          store := if full then appendTo s.store batch timestamp else s.store
          reader := some ⟨rest, if full then [] else batch, r.current⟩ }
    else none

/-- The reader, its callbacks and the subscribers take turns. -/
def step (s : FileStore) : Action → Option FileStore
  | .append contents =>
    let records := placed s.history.length contents
    some
      { s with
        file := s.file ++ records
        history := s.history ++ records
        reader := s.reader.map fun r => if r.current then { r with rest := r.rest ++ records } else
          r }
  | .openFile =>
    if s.reader = none ∧ s.removing = none then
      some { s with reader := some ⟨s.file.drop s.linesInMemory, [], true⟩ }
    else none
  | .read timestamp => s.reader.bind fun r => s.readRecord r timestamp
  | .close timestamp =>
    s.reader.map fun r => { s with store := appendTo s.store r.batch timestamp, reader := none }
  | .receive id position maxMessages now =>
    some { s with store := deliver s.store id position maxMessages now }
  | .ack id offset now gcNow =>
    let (store, removed) := s.store.ack id offset now gcNow
    some { s with store, dropped :=
      if removed = [] then s.dropped else s.dropped ++ [removed.length] }
  | .removeLines index =>
    match s.removing, s.dropped[index]? with
    | none, some count =>
      some
        { s with
          file := s.file.drop count
          dropped := s.dropped.eraseIdx index
          removing := some count
          reader := s.reader.map fun r => { r with current := false } }
    | _, _ => none
  | .settle =>
    match s.reader, s.removing with
    | none, some count => some { s with linesInMemory := s.linesInMemory - count, removing := none }
    | _, _ => none

def Awaited (s : FileStore) : Prop := s.dropped = [] ∧ s.removing = none

end FileStore

def rows (records : List Record) : List Entry := entries false records

section Rows

variable (records : List Record)

theorem unreadAfter_false : unreadAfter false records = false := by
  induction records with
  | nil => rfl
  | cons record rest ih =>
    cases hMsg : record.message <;> simpa [unreadAfter, parseMessage, hMsg] using ih

@[simp] theorem rows_append (before after : List Record) :
    rows (before ++ after) = rows before ++ rows after := by
  rw [rows, entries_append, unreadAfter_false]
  rfl

theorem length_rows_le : (rows records).length ≤ records.length := by
  induction records with
  | nil => exact le_refl 0
  | cons record rest ih =>
    rw [rows] at ih
    cases hMsg : record.message <;> simp [rows, entries, parseMessage, hMsg] <;> omega

theorem rows_drop {records : List Record} (hRows : ∀ r ∈ records, r.message ≠ none) (count : Nat) :
    rows (records.drop count) = (rows records).drop count ∧ (rows records).length =
      records.length := by
  induction records generalizing count with
  | nil => simp [rows, entries]
  | cons record rest ih =>
    obtain ⟨hRecord, hRest⟩ := forall_mem_cons.mp hRows
    obtain ⟨message, hMsg⟩ := Option.ne_none_iff_exists'.mp hRecord
    have hCons : rows (record :: rest) = ⟨record.place, message⟩ :: rows rest := by
      simp [rows, entries, parseMessage, hMsg]
    cases count with
    | zero => simpa [hCons] using (ih hRest 0).2
    | succ count => simpa [hCons] using ih hRest count

theorem places_rows :
    ((rows records).map Entry.place).Sublist (records.map Record.place) := by
  induction records with
  | nil => exact .slnil
  | cons record rest ih =>
    cases hMsg : record.message with
    | none => simpa [rows, entries, parseMessage, hMsg] using ih.cons record.place
    | some message => simpa [rows, entries, parseMessage, hMsg] using ih

/-- No blank record is followed by one with a message. -/
def BlanksLast (records : List Record) : Prop :=
  ∀ r ∈ records.dropWhile (fun r => r.message.isSome), r.message = none

instance decidableBlanksLast (records : List Record) : Decidable (BlanksLast records) :=
  inferInstanceAs
    (Decidable (∀ r ∈ records.dropWhile (fun r => r.message.isSome), r.message = none))

/-- Then as many records are cut off as messages. -/
theorem BlanksLast.rows_drop {records : List Record} (h : BlanksLast records) {count : Nat}
    (hCount : count ≤ (rows records).length) :
    rows (records.drop count) = (rows records).drop count := by
  have hSplit := takeWhile_append_dropWhile (p := fun r : Record => r.message.isSome) (l := records)
  have hLead : ∀ r ∈ records.takeWhile (fun r => r.message.isSome), r.message ≠ none := by
    intro r hMem
    simpa [Option.isSome_iff_ne_none] using mem_takeWhile_imp hMem
  have hBlank : rows (records.dropWhile fun r => r.message.isSome) = [] := entries_blanks h false
  obtain ⟨hDrop, hLen⟩ := File.rows_drop hLead count
  rw [← hSplit, rows_append, hBlank, append_nil] at hCount ⊢
  rw [drop_append_of_le_length (by omega), rows_append, hBlank, append_nil, hDrop]

end Rows

namespace FileStore

def batchOf (reader : Option Reader) : List Entry := reader.elim [] Reader.batch

/-- So many records were read, and so many were cut off the file. The messages
that were read are those that were collected, those that are stored and those
of the batch under way. -/
structure Tracks (s : FileStore) (read removed : Nat) (collected held : List Entry) : Prop where
  places : s.history.map Record.place = List.range s.history.length
  file : s.file = s.history.drop removed
  known : read ≤ s.history.length
  lines : s.linesInMemory + removed = read + s.removing.getD 0
  policy : s.store.policy = retention
  contiguous : Contiguous s.store
  rows : rows (s.history.take read) = collected ++ (held ++ batchOf s.reader)
  stored : held.map Entry.message = s.store.events.map EventStore.StoredEvent.message
  base : collected.length + 1 = s.store.baseOffset
  dropped : removed + s.dropped.sum = collected.length
  reader : ∀ r, s.reader = some r → r.rest <+: s.history.drop read ∧
    (r.current = true → r.rest = s.history.drop read)

def Tracked (s : FileStore) : Prop :=
  ∃ read removed collected held, s.Tracks read removed collected held

section Tracks

variable {s t : FileStore} {read removed : Nat} {collected held : List Entry}

theorem placed_places (next : Nat) (contents : List (Option CanonicalMessage)) :
    (placed next contents).map Record.place = List.range' next contents.length ∧
      (placed next contents).length = contents.length := by
  refine ⟨?_, length_mapIdx⟩
  apply ext_getElem
  · simp [placed]
  · intro i hLeft hRight
    simp [placed]

theorem tracks_new (contents : List (Option CanonicalMessage)) (now : Nat) :
    (new contents now).Tracks 0 0 [] [] := by
  obtain ⟨hPlaces, hLen⟩ := placed_places 0 contents
  refine ⟨?_, rfl, Nat.zero_le _, rfl, rfl, EventStore.new_contiguous .., rfl, rfl, rfl, rfl, ?_⟩
  · change (placed 0 contents).map Record.place = range (placed 0 contents).length
    rw [hPlaces, hLen, range_eq_range']
  · intro r hReader
    cases hReader

/-- Fewer records were cut off than read. -/
theorem Tracks.removed_le (h : s.Tracks read removed collected held) :
    removed ≤ collected.length ∧ removed ≤ read := by
  have hRows := length_rows_le (s.history.take read)
  have hDropped := h.dropped
  rw [h.rows, length_append, length_take] at hRows
  omega

/-- Records that are appended can be read later. -/
theorem Tracks.append (h : s.Tracks read removed collected held)
    (contents : List (Option CanonicalMessage))
    (hStep : s.step (.append contents) = some t) : t.Tracks read removed collected held := by
  cases hStep
  obtain ⟨hPlaces, hLen⟩ := placed_places s.history.length contents
  have hRemoved : removed ≤ s.history.length := h.removed_le.2.trans h.known
  refine { h with places := ?_, file := ?_, known := ?_, rows := ?_, reader := ?_ }
  · rw [map_append, h.places, hPlaces, length_append, hLen, range_eq_range',
      range_eq_range', ← range'_append_1, zero_add]
  · rw [h.file, drop_append_of_le_length hRemoved]
  · simpa using Nat.le_add_right_of_le h.known
  · rw [take_append_of_le_length h.known, h.rows]
    cases s.reader with
    | none => rfl
    | some r => cases hCur : r.current <;> simp [batchOf, hCur]
  · intro r hReader
    rw [drop_append_of_le_length h.known]
    obtain ⟨old, hOld, rfl⟩ := Option.map_eq_some_iff.mp hReader
    obtain ⟨hPre, hCur⟩ := h.reader old hOld
    split_ifs with hSame
    · have hRest := hCur hSame
      exact ⟨by rw [hRest], fun _ => by rw [hRest]⟩
    · exact ⟨hPre.trans (prefix_append ..), fun hYes => absurd hYes hSame⟩

/-- A store without a largest count only grows when messages are appended. -/
theorem appendTo_spec {store : Store} (hPolicy : store.policy = retention)
    (hContig : Contiguous store) (batch : List Entry) (timestamp : Nat) :
    (appendTo store batch timestamp).policy = retention ∧
      Contiguous (appendTo store batch timestamp) ∧
      (appendTo store batch timestamp).baseOffset = store.baseOffset ∧
      (appendTo store batch timestamp).events.map EventStore.StoredEvent.message =
        store.events.map EventStore.StoredEvent.message ++ batch.map Entry.message := by
  rw [appendTo, Store.appendBatch]
  split_ifs with hEmpty
  · have hNone : batch = [] := by simpa using hEmpty
    simp [hPolicy, hContig, hNone]
  · have hPushed := EventStore.push_contiguous hContig (batch.map Entry.message) timestamp
    refine ⟨?_, hPushed, ?_, ?_⟩
    all_goals simp [Store.push, Store.enforceMaxCount, hPolicy, retention, Function.comp_def]

section

variable (h : s.Tracks read removed collected held)

include h

theorem Tracks.openFile (hStep : s.step .openFile = some t) :
    t.Tracks read removed collected held := by
  rw [step] at hStep
  split_ifs at hStep with hFree
  cases hStep
  obtain ⟨hReader, hRemoving⟩ := hFree
  have hLines := h.lines
  have hRows := h.rows
  rw [hRemoving, Option.getD_none, add_zero] at hLines
  rw [hReader] at hRows
  have hRest : s.file.drop s.linesInMemory = s.history.drop read := by
    rw [h.file, drop_drop, add_comm, hLines]
  refine { h with rows := hRows, reader := ?_ }
  rintro r ⟨⟩
  exact ⟨by rw [hRest], fun _ => hRest⟩

/-- A batch comes from the pass to the store. -/
theorem Tracks.store {batch : List Entry}
    (hBatch : batchOf s.reader = batch) {reader : Option Reader} (hEmpty : batchOf reader = [])
    (hReader : ∀ r, reader = some r → r.rest <+: s.history.drop read ∧
      (r.current = true → r.rest = s.history.drop read)) (timestamp : Nat) :
    ({ s with store := appendTo s.store batch timestamp, reader } : FileStore).Tracks read removed
      collected (held ++ batch) := by
  obtain ⟨hPolicy, hContig, hBase, hEvents⟩ :=
    appendTo_spec h.policy h.contiguous batch timestamp
  refine ⟨h.places, h.file, h.known, h.lines, hPolicy, hContig, ?_, ?_, ?_, h.dropped, hReader⟩
  · rw [h.rows, hBatch, hEmpty, append_nil]
  · rw [hEvents, map_append, h.stored]
  · exact h.base.trans hBase.symm

/-- The next record is read, before the batch is stored. -/
theorem Tracks.take {r : Reader} {record : Record} {rest : List Record}
    (hReader : s.reader = some r) (hRest : r.rest = record :: rest) :
    ({ s with
        linesInMemory := s.linesInMemory + 1
        reader := some ⟨rest, r.batch ++ (parseMessage false record).1.toList, r.current⟩ } :
          FileStore).Tracks
      (read + 1) removed collected held := by
  obtain ⟨hPre, hCur⟩ := h.reader r hReader
  rw [hRest] at hPre hCur
  obtain ⟨later, hLater⟩ := hPre
  have hDrop : s.history.drop (read + 1) = rest ++ later := by
    rw [← drop_drop, ← hLater]
    rfl
  have hTake : s.history.take (read + 1) = s.history.take read ++ [record] := by
    rw [take_add, ← hLater]
    rfl
  have hLen := congrArg length hLater
  have hRows := h.rows
  have hLines := h.lines
  rw [hReader] at hRows
  simp only [length_append, length_cons, length_drop] at hLen
  refine { h with known := ?_, lines := ?_, rows := ?_, reader := ?_ }
  · dsimp only
    omega
  · dsimp only
    omega
  · rw [hTake, rows_append, hRows]
    simp [batchOf, File.rows, entries]
  · rintro r' ⟨⟩
    rw [hDrop]
    refine ⟨prefix_append .., fun hYes => ?_⟩
    have hWhole := hLater.trans (hCur hYes).symm
    rw [append_right_eq_self] at hWhole
    rw [hWhole, append_nil]

theorem Tracks.readRecord {timestamp : Nat}
    (hStep : s.step (.read timestamp) = some t) : t.Tracked := by
  obtain ⟨r, hReader, hRead⟩ := Option.bind_eq_some_iff.mp hStep
  rw [FileStore.readRecord] at hRead
  split at hRead
  · cases hRead
  next record rest hRest =>
  split_ifs at hRead with hRoom
  cases hRead
  have hTaken := h.take hReader hRest
  by_cases hFull : feedBatchSize ≤ (r.batch ++ (parseMessage false record).1.toList).length
  · simp only [hFull]
    exact ⟨_, _, _, _, hTaken.store rfl rfl (fun r' hSame => by
      obtain ⟨hPre, hCur⟩ := hTaken.reader _ rfl
      cases hSame
      exact ⟨hPre, hCur⟩) timestamp⟩
  · simp only [hFull]
    exact ⟨_, _, _, _, hTaken⟩

end

theorem deliver_spec {store : Store} (hContig : Contiguous store) (id : String)
    (position maxMessages now : Nat) : Contiguous (deliver store id position maxMessages now) ∧
      (deliver store id position maxMessages now).events = store.events ∧
      (deliver store id position maxMessages now).baseOffset = store.baseOffset ∧
      (deliver store id position maxMessages now).policy = store.policy := by
  have hRegistered := EventStore.registerSubscriber_contiguous hContig id now
  have hSame : (store.registerSubscriber id now).events = store.events ∧
      (store.registerSubscriber id now).baseOffset = store.baseOffset ∧
      (store.registerSubscriber id now).policy = store.policy := by
    rw [Store.registerSubscriber]
    split_ifs <;> exact ⟨rfl, rfl, rfl⟩
  rw [deliver]
  split
  · exact ⟨hRegistered, hSame⟩
  · exact ⟨{ hRegistered with }, hSame⟩

variable (h : s.Tracks read removed collected held)

include h

/-- What the collection takes is dropped: the callback owes as many records. -/
theorem Tracks.ack {id : String} {offset now gcNow : Nat}
    (hStep : s.step (.ack id offset now gcNow) = some t) : t.Tracked := by
  have hContig := EventStore.ack_contiguous h.contiguous id offset now gcNow
  obtain ⟨hEvents, hBase, hPolicy, hCount⟩ := EventStore.ack_events s.store id offset now gcNow
  rw [step] at hStep
  rcases hRes : s.store.ack id offset now gcNow with ⟨store, gone⟩
  rw [hRes] at hContig hEvents hBase hPolicy hCount hStep
  obtain rfl := Option.some.inj hStep
  dsimp only at hContig hEvents hBase hPolicy hCount
  have hLen := congrArg length h.stored
  simp only [length_map] at hLen
  refine ⟨read, removed, collected ++ held.take gone.length, held.drop gone.length,
    ⟨h.places, h.file, h.known, h.lines, hPolicy.trans h.policy, hContig, ?_,
      ?_, ?_, ?_, h.reader⟩⟩
  · rw [h.rows, append_assoc, ← append_assoc (held.take _), take_append_drop]
  · rw [map_drop, h.stored, hEvents, map_drop]
  · have hOld := h.base
    rw [length_append, length_take]
    dsimp only
    omega
  · have hOld := h.dropped
    rw [length_append, length_take, min_eq_left (by omega)]
    split_ifs with hNone
    · rw [hNone]
      omega
    · rw [sum_append, sum_singleton]
      omega

theorem Tracks.removeLines {index : Nat}
    (hStep : s.step (.removeLines index) = some t) : t.Tracked := by
  rw [step] at hStep
  split at hStep
  · next count hRemoving hCount =>
      cases hStep
      obtain ⟨hIdx, hGet⟩ := List.getElem?_eq_some_iff.mp hCount
      have hSum := CommMonoid.add_sum_eraseIdx hIdx
      have hDropped := h.dropped
      have hLines := h.lines
      rw [hRemoving, Option.getD_none] at hLines
      refine ⟨read, removed + count, collected, held, { h with
        file := ?_, lines := ?_, rows := ?_, dropped := ?_, reader := ?_ }⟩
      · rw [h.file, drop_drop]
      · dsimp only
        rw [Option.getD_some]
        omega
      · rw [h.rows]
        cases s.reader <;> rfl
      · dsimp only
        omega
      · intro r hReader
        obtain ⟨old, hOld, rfl⟩ := Option.map_eq_some_iff.mp hReader
        exact ⟨(h.reader old hOld).1, fun hCur => absurd hCur (by simp)⟩
  · cases hStep

theorem Tracks.settle (hStep : s.step .settle = some t) :
    t.Tracks read removed collected held := by
  rw [step] at hStep
  split at hStep
  · next count hReader hRemoving =>
      cases hStep
      have hRemoved := h.removed_le
      have hLines := h.lines
      rw [hRemoving, Option.getD_some] at hLines
      refine { h with lines := ?_ }
      dsimp only
      rw [Option.getD_none]
      omega
  · cases hStep

theorem Tracks.step {action : Action} (hStep : s.step action = some t) : t.Tracked := by
  cases action with
  | append contents => exact ⟨_, _, _, _, h.append contents hStep⟩
  | openFile => exact ⟨_, _, _, _, h.openFile hStep⟩
  | read timestamp => exact h.readRecord hStep
  | close timestamp =>
    obtain ⟨r, hReader, rfl⟩ := Option.map_eq_some_iff.mp hStep
    have hBatch : batchOf s.reader = r.batch := by rw [hReader]; rfl
    exact ⟨_, _, _, _, h.store hBatch rfl (fun r' hNone => by cases hNone) timestamp⟩
  | receive id position maxMessages now =>
    cases hStep
    obtain ⟨hContig, hEvents, hBase, hPolicy⟩ :=
      deliver_spec h.contiguous id position maxMessages now
    exact ⟨_, _, _, _, { h with
      policy := hPolicy.trans h.policy
      contiguous := hContig
      stored := h.stored.trans (by rw [hEvents])
      base := h.base.trans hBase.symm }⟩
  | ack id offset now gcNow => exact h.ack hStep
  | removeLines index => exact h.removeLines hStep
  | settle => exact ⟨_, _, _, _, h.settle hStep⟩

end Tracks

variable {contents : List (Option CanonicalMessage)}

theorem tracked_of_run {now : Nat} {actions : List Action}
    {s : FileStore} (hRun : run step (new contents now) actions = some s) : s.Tracked := by
  have hNew : (new contents now).Tracked := ⟨_, _, _, _, tracks_new contents now⟩
  apply invariant_of_run _ hNew hRun
  rintro s action t ⟨read, removed, collected, held, h⟩ hStep
  exact h.step hStep

/-- When no acknowledgement is under way, the file begins with the records of
the events that the store holds, and those that are not stored yet follow: for
files in which no blank record is followed by one with a message. What was
collected is not in the file any more. -/
theorem file_keeps_unacknowledged {now : Nat} {actions : List Action}
    {s : FileStore} (hRun : run step (new contents now) actions = some s)
    (hBlanks : BlanksLast s.history)
    (hAwaited : s.Awaited) : rows s.file = (rows s.history).drop (s.store.baseOffset - 1) ∧
      s.store.events.map EventStore.StoredEvent.message =
        (((rows s.history).take (s.store.nextOffset - 1)).drop (s.store.baseOffset - 1)).map
          Entry.message ∧
      ∀ e ∈ (rows s.history).take (s.store.baseOffset - 1), e ∉ rows s.file := by
  obtain ⟨read, removed, collected, held, h⟩ := tracked_of_run hRun
  obtain ⟨hDropped, -⟩ := hAwaited
  -- all that was collected is cut off
  have hBase := h.base
  have hSum := h.dropped
  have hNext := h.contiguous.next
  have hLen := congrArg length h.stored
  rw [hDropped, sum_nil] at hSum
  simp only [length_map] at hLen
  have hRows : rows s.history =
      collected ++ (held ++ (batchOf s.reader ++ rows (s.history.drop read))) := by
    rw [← take_append_drop read s.history, rows_append, h.rows]
    simp
  have hCollected : s.store.baseOffset - 1 = collected.length := by omega
  have hHeld : s.store.nextOffset - 1 = collected.length + held.length := by omega
  have hFile : rows s.file = (rows s.history).drop collected.length := by
    rw [h.file, ← hSum]
    apply hBlanks.rows_drop
    rw [hRows, length_append]
    omega
  refine ⟨?_, ?_, ?_⟩
  · rw [hCollected, hFile]
  · have hTake : (rows s.history).take (collected.length + held.length) = collected ++ held := by
      rw [hRows, ← append_assoc]
      exact take_left' length_append
    rw [hHeld, hCollected, ← h.stored, hTake, drop_left]
  · intro e hOld hNew
    rw [hCollected] at hOld
    rw [hFile] at hNew
    have hNodup : ((rows s.history).map Entry.place).Nodup := by
      refine (places_rows s.history).nodup ?_
      rw [h.places]
      exact nodup_range
    rw [← take_append_drop collected.length (rows s.history), map_append, nodup_append] at hNodup
    exact hNodup.2.2 _ (mem_map_of_mem hOld) _ (mem_map_of_mem hNew) rfl

/-- Two records and a blank one; the first is acknowledged and cut off. -/
theorem file_keeps_unacknowledged_second :
    ∃ s, run step (new [some ⟨1, [], ∅⟩, some ⟨2, [], ∅⟩, none] 0)
        [.openFile, .read 0, .read 0, .read 0, .close 0, .receive "a" 0 10 0, .ack "a" 1 0 0,
          .removeLines 0, .settle] = some s ∧
      s.file = [⟨1, some ⟨2, [], ∅⟩⟩, ⟨2, none⟩] ∧
      s.store.events.map EventStore.StoredEvent.message =
        (((rows s.history).take (s.store.nextOffset - 1)).drop (s.store.baseOffset - 1)).map
          Entry.message ∧
      ∀ e ∈ (rows s.history).take (s.store.baseOffset - 1), e ∉ rows s.file := by
  refine exists_run (fun s => s.file = [⟨1, some ⟨2, [], ∅⟩⟩, ⟨2, none⟩] ∧ BlanksLast s.history ∧
    s.Awaited)
    ⟨_, rfl, rfl, by decide, rfl, rfl⟩ ?_
  rintro s hRun ⟨hFile, hBlanks, hAwaited⟩
  exact ⟨hFile, (file_keeps_unacknowledged hRun hBlanks hAwaited).2⟩

/-- A blank record between two others: when both are acknowledged and collected,
the second is still in the file. -/
theorem acknowledged_record_stays : ∃ s, run step (new [some ⟨1, [], ∅⟩, none, some ⟨2, [], ∅⟩] 0)
        [.openFile, .read 0, .read 0, .read 0, .close 0, .receive "a" 0 10 0, .ack "a" 2 0 0,
          .removeLines 0, .settle] = some s ∧
      s.Awaited ∧ s.store.events = [] ∧ s.store.baseOffset = 3 ∧
      rows s.file =
        [⟨2, ⟨2, [], ∅⟩⟩] ∧ rows s.file ≠ (rows s.history).drop (s.store.baseOffset - 1) := by
  refine ⟨_, rfl, ⟨rfl, rfl⟩, rfl, rfl, rfl, ?_⟩
  decide

end FileStore

end MqBridge.File
