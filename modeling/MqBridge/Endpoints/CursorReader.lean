import Mathlib.Data.List.Sort
import Mathlib.Data.String.Basic
import Mathlib.Data.Sum.Order
import MqBridge.Consumer
import MqBridge.Machine.Rewind
import MqBridge.Machine.Run

/-! Readers that page through a table in the order of one column. The position is
the column's value in the last row that was read. It moves ahead with each page, and
back to the last acknowledged row when a row is refused. -/
namespace MqBridge.CursorReader

open List Option Machine Rewind

structure Row (C : Type) where
  cursor : C
  payload : List UInt8
deriving DecidableEq

abbrev Message := List UInt8 × List (String × String)

inductive Target where
  | runPosition
  | checkpoint
deriving DecidableEq

/-- What readers of different databases do not share. -/
structure Source (C : Type) where
  cursorColumn : String
  /-- Where the position is saved. -/
  targets : List Target
  /-- The metadata of a row's message, from its value and the value of the row
  before it in the page. -/
  stamp : C → Option C → Except ConsumerError (List (String × String))

inductive SqlCursor where
  | int (value : Int)
  | text (value : String)
deriving DecidableEq

def stampSourcePosition (table cursorColumn : String) (cursor : SqlCursor)
    (previous : Option SqlCursor) : Except ConsumerError (List (String × String)) :=
  match cursor with
  | .text _ =>
    .error (.permanent ("source_metadata requires cursor_column '" ++ cursorColumn ++
      "' to be an integer, but it read as text. Point it at an integer key column, " ++
      "or CAST one in a view."))
  | .int value =>
    if value < 0 then
      .error (.permanent ("source_metadata requires cursor_column '" ++ cursorColumn ++
        "' to be non-negative; got " ++ toString value ++ "."))
    else if previous = some cursor then
      .error (.permanent ("source_metadata requires cursor_column '" ++ cursorColumn ++
        "' to be unique, but value " ++ toString value ++
        " repeats. Both rows would name the same output record and one would be dropped."))
    else .ok [("mqb.src.sqlx_table", table), ("mqb.src.sqlx_cursor", toString value)]

/-- The position of a run is kept only where there is no checkpoint. -/
def sqlxCursorReader (table cursorColumn : String) (checkpoint inRun sourceMetadata : Bool) :
    Source SqlCursor where
  cursorColumn := cursorColumn
  targets := if checkpoint then [.checkpoint] else if inRun then [.runPosition] else []
  stamp := if sourceMetadata then stampSourcePosition table cursorColumn else fun _ _ => .ok []

inductive ChCursor where
  | int (value : Int)
  | uint (value : Nat)
  | text (value : String)
deriving DecidableEq

def clickHouseCursorReader (cursorColumn : String) (checkpoint : Bool) : Source ChCursor where
  cursorColumn := cursorColumn
  targets := if checkpoint then [.checkpoint] else []
  stamp := fun _ _ => .ok []

section Reader

variable {C : Type} [LinearOrder C]

def after (last : Option C) (cursor : C) : Bool := last.all fun value => decide (value < cursor)

/-- `SELECT … WHERE col > last ORDER BY col ASC LIMIT limit`. -/
def fetchPage (table : List (Row C)) (last : Option C) (limit : Nat) : List (Row C) :=
  (table.filter fun row => after last row.cursor).take limit

/-- How many of the rows are left when the ones at the end with the value of the
next row are taken away. -/
def emitLen (fetched : List (Row C)) (peek : C) : Nat → Nat
  | 0 => 0
  | len + 1 =>
    if fetched[len]?.map Row.cursor = some peek then emitLen fetched peek len else len + 1

/-- The rows of a page that are handed out. One row more than the page was fetched. -/
def emitted (maxMessages : Nat) (fetched : List (Row C)) : List (Row C) :=
  match fetched[maxMessages]? with
  | none => fetched
  | some peek => fetched.take (emitLen fetched peek.cursor maxMessages)

def tooLargeGroup (cursorColumn : String) (maxMessages : Nat) : ConsumerError :=
  .permanent ("cursor_column '" ++ cursorColumn ++
    "' has a group of equal values larger than batch_size (" ++
    toString maxMessages ++
      "); cannot page without skipping rows. Increase batch_size above the size of the " ++
    "largest equal-value group.")

def messagesOf (source : Source C) (previous : Option C) :
    List (Row C) → Except ConsumerError (List Message)
  | [] => .ok []
  | row :: rest =>
    match source.stamp row.cursor previous with
    | .error error => .error error
    | .ok metadata => (messagesOf source (some row.cursor) rest).map ((row.payload, metadata) :: ·)

/-- The shared position and the batches, a running `receive_batch` with its size, and
what was saved and received. The position is the value of the last row. -/
structure Reader (C : Type) extends Rewind.Reader (Option C) where
  call : Option Nat
  saves : List (Target × C)
  received : List (Except ConsumerError (List Message))

def offset (table : List (Row C)) (last : Option C) : Nat :=
  (table.filter fun row => !after last row.cursor).length

namespace Reader

def new (last : Option C) : Reader C := ⟨⟨last, 0, none, [], []⟩, none, [], []⟩

def finish (s : Reader C) (result : Except ConsumerError (List Message)) : Reader C :=
  { s with request := none, call := none, received := s.received ++ [result] }

def receiveBatch (s : Reader C) (maxMessages : Nat) : Option (Reader C) :=
  if s.call.isSome then none
  else if maxMessages = 0 then some (s.finish (.ok []))
  else some { s with call := some maxMessages }

def sendRequest (s : Reader C) : Option (Reader C) :=
  if s.call.isSome ∧ s.request.isNone then some { s with request := some (s.position, s.epoch) }
  else none

/-- The page arrives. It is requested again if the position was moved back meanwhile. -/
def answer (source : Source C) (table : List (Row C)) (s : Reader C) : Option (Reader C) :=
  match s.call, s.request with
  | some maxMessages, some (last, epoch) =>
    let fetched := fetchPage table last (maxMessages + 1)
    if fetched = [] then some (s.finish (.ok []))
    else
      let rows := emitted maxMessages fetched
      if rows = [] then some (s.finish (.error (tooLargeGroup source.cursorColumn maxMessages)))
      else
        match messagesOf source none rows with
        | .error error => some (s.finish (.error error))
        | .ok messages =>
          if s.epoch ≠ epoch then some { s with request := none }
          else
            let reader :=
              s.handOut (offset table last) last (rows.map fun row => some (some row.cursor))
            some ({ s with toReader := reader }.finish (.ok messages))
  | _, _ => none

def isAck : MessageDisposition → Bool
  | .ack | .reply _ => true
  | .nack => false

def commit (source : Source C) (s : Reader C) (dispositions : Dispositions) : Option (Reader C) :=
  match s.batches with
  | [] => none
  | batch :: rest =>
    if dispositions.length ≠ batch.positions.length then none
    else
      let answers := dispositions.map isAck
      let saved := if s.epoch = batch.epoch then batch.boundary (leading answers) else none
      some { s with
        toReader := s.toReader.commit batch rest answers
        saves := s.saves ++ saved.toList.flatMap fun cursor => source.targets.map fun target =>
          (target, cursor) }

def drop (s : Reader C) : Option (Reader C) :=
  match s.batches with
  | [] => none
  | batch :: rest => some { s with toReader := s.toReader.drop batch rest }

end Reader

inductive Action where
  | receive (maxMessages : Nat)
  | request
  | answer
  /-- The call of `receive_batch` is given up. -/
  | cancel
  | commit (dispositions : Dispositions)
  | drop
deriving DecidableEq

/-- One step of the reader or of a commit. -/
def step (source : Source C) (table : List (Row C)) (s : Reader C) : Action → Option (Reader C)
  | .receive maxMessages => s.receiveBatch maxMessages
  | .request => s.sendRequest
  | .answer => s.answer source table
  | .cancel => some { s with request := none, call := none }
  | .commit dispositions => s.commit source dispositions
  | .drop => s.drop

/-- The first row that is not acknowledged has the value of the row before it. -/
def CutsGroup (batch : Rewind.Batch (Option C)) (acked : Nat) : Prop :=
  0 < acked ∧ acked < batch.positions.length ∧ batch.positions[acked - 1]? = batch.positions[acked]?

instance (batch : Rewind.Batch (Option C)) (acked : Nat) : Decidable (CutsGroup batch acked) :=
  inferInstanceAs (Decidable (_ ∧ _ ∧ _))

/-- A commit does not stop between two rows of equal value. -/
def keepsGroups (s : Reader C) : Action → Prop
  | .commit dispositions =>
    ∀ batch ∈ s.batches.head?, ¬ CutsGroup batch (leading (dispositions.map Reader.isAck))
  | _ => True

instance (s : Reader C) : (action : Action) → Decidable (keepsGroups s action)
  | .commit dispositions =>
    inferInstanceAs (Decidable (∀ batch ∈ s.batches.head?,
      ¬ CutsGroup batch (leading (dispositions.map Reader.isAck))))
  | .receive _ | .request | .answer | .cancel | .drop => isTrue trivial

abbrev Sorted (table : List (Row C)) : Prop :=
  table.Pairwise fun row next => row.cursor ≤ next.cursor

section Table

variable {table : List (Row C)} {last : Option C}

theorem after_mono {cursor next : C} (hAfter : after last cursor = true) (hLe : cursor ≤ next) :
    after last next = true := by
  cases last with
  | none => rfl
  | some value => exact decide_eq_true (lt_of_lt_of_le (of_decide_eq_true hAfter) hLe)

variable {row : Row C}

theorem offset_cons_of_after (hSorted : Sorted (row :: table))
    (hAfter : after last row.cursor = true) : offset (row :: table) last = 0 := by
  rw [offset, filter_eq_nil_iff.mpr, length_nil]
  rw [forall_mem_cons]
  refine ⟨by simp [hAfter], fun other hMem => ?_⟩
  simp [after_mono hAfter ((pairwise_cons.mp hSorted).1 other hMem)]

theorem offset_cons_of_not_after (hAfter : ¬ after last row.cursor = true) :
    offset (row :: table) last = offset table last + 1 := by
  rw [offset, filter_cons_of_pos (by simpa using hAfter)]
  rfl

theorem offset_le (last : Option C) : offset table last ≤ table.length := length_filter_le _ _

section

variable (hSorted : Sorted table)

include hSorted

/-- A row is after a position if and only if its number is. -/
theorem after_iff (last : Option C) {i : Nat} (hRow : table[i]? = some row) :
    after last row.cursor = true ↔ offset table last ≤ i := by
  induction table generalizing i with
  | nil => cases hRow
  | cons first table ih =>
    obtain ⟨hFirst, hRest⟩ := pairwise_cons.mp hSorted
    by_cases hAfter : after last first.cursor = true
    · rw [offset_cons_of_after hSorted hAfter]
      refine ⟨fun _ => Nat.zero_le _, fun _ => ?_⟩
      rcases mem_cons.mp (mem_of_getElem? hRow) with rfl | hMem
      · exact hAfter
      · exact after_mono hAfter (hFirst row hMem)
    · rw [offset_cons_of_not_after hAfter]
      cases i with
      | zero =>
        cases hRow
        simp [hAfter]
      | succ i => rw [ih hRest hRow, Nat.succ_le_succ_iff]

/-- The rows after a position are the rows from its number on. -/
theorem filter_after (last : Option C) :
    (table.filter fun row => after last row.cursor) = table.drop (offset table last) := by
  induction table with
  | nil => rfl
  | cons row table ih =>
    obtain ⟨hFirst, hRest⟩ := pairwise_cons.mp hSorted
    by_cases hAfter : after last row.cursor = true
    · rw [offset_cons_of_after hSorted hAfter, drop_zero, filter_eq_self, forall_mem_cons]
      exact ⟨hAfter, fun other hMem => after_mono hAfter (hFirst other hMem)⟩
    · rw [offset_cons_of_not_after hAfter, drop_succ_cons, ← ih hRest]
      exact filter_cons_of_neg hAfter

/-- The number after a row that the next row's value differs from. -/
theorem offset_cursor {i : Nat} (hRow : table[i]? = some row)
    (hNext : ∀ next, table[i + 1]? = some next → next.cursor ≠ row.cursor) :
    offset table (some row.cursor) = i + 1 := by
  apply le_antisymm
  · by_contra hMore
    have hLen : i + 1 < table.length := lt_of_lt_of_le (Nat.lt_of_not_le hMore) (offset_le _)
    have hGet := getElem?_eq_getElem hLen
    have hNot := mt (after_iff hSorted (some row.cursor) hGet).mp hMore
    obtain ⟨hLt, rfl⟩ := List.getElem?_eq_some_iff.mp hRow
    have hLe := pairwise_iff_getElem.mp hSorted i (i + 1) hLt hLen (Nat.lt_succ_self i)
    exact hNot (decide_eq_true (lt_of_le_of_ne hLe (hNext _ hGet).symm))
  · apply Nat.lt_of_not_le
    rw [← after_iff hSorted _ hRow]
    simp [after]

end

theorem emitLen_spec (fetched : List (Row C)) (peek : C) (len : Nat) :
    emitLen fetched peek len ≤ len ∧
      (∀ kept, emitLen fetched peek len = kept + 1 → fetched[kept]?.map Row.cursor ≠ some peek) ∧
      ∀ i, emitLen fetched peek len ≤ i → i < len → fetched[i]?.map Row.cursor = some peek := by
  induction len with
  | zero => exact ⟨le_refl _, nofun, fun i _ hLt => absurd hLt (Nat.not_lt_zero i)⟩
  | succ len ih =>
    obtain ⟨hLe, hKept, hCut⟩ := ih
    rw [emitLen]
    split_ifs with hSame
    · refine ⟨hLe.trans (Nat.le_succ len), hKept, fun i hFrom hLt => ?_⟩
      rcases Nat.lt_succ_iff_lt_or_eq.mp hLt with hLt | rfl
      · exact hCut i hFrom hLt
      · exact hSame
    · refine ⟨le_refl _, fun kept hEq => ?_, fun i hFrom hLt => by omega⟩
      cases hEq
      exact hSame

/-- What is handed out is the beginning of the rest of the table, and the row after
it has another value than its last row. -/
theorem emitted_spec {maxMessages : Nat} (rest : List (Row C)) {rows : List (Row C)}
    (hRows : emitted maxMessages (rest.take (maxMessages + 1)) = rows) :
    rows = rest.take rows.length ∧
      ∀ kept, rows.length = kept + 1 → ∀ next, rest[kept + 1]? = some next →
        rest[kept]?.map Row.cursor ≠ some next.cursor := by
  rw [emitted] at hRows
  cases hPeek : (rest.take (maxMessages + 1))[maxMessages]? with
  | none =>
    rw [hPeek] at hRows
    have hShort : rest.length ≤ maxMessages := by
      have hLen := getElem?_eq_none_iff.mp hPeek
      rw [length_take] at hLen
      omega
    rw [take_of_length_le (hShort.trans (Nat.le_succ _))] at hRows
    subst hRows
    refine ⟨take_length.symm, fun kept hLen next hNext => ?_⟩
    rw [← hLen, getElem?_length] at hNext
    cases hNext
  | some peek =>
    rw [hPeek] at hRows
    dsimp only at hRows
    obtain ⟨hLe, hKept, hCut⟩ := emitLen_spec (rest.take (maxMessages + 1)) peek.cursor maxMessages
    generalize emitLen (rest.take (maxMessages + 1)) peek.cursor maxMessages =
      len at hRows hLe hKept hCut
    have hFull : maxMessages < rest.length := by
      obtain ⟨hLt, -⟩ := List.getElem?_eq_some_iff.mp hPeek
      rw [length_take] at hLt
      omega
    have hRows : rows = rest.take len := by
      rw [← hRows, take_take, min_eq_left (hLe.trans (Nat.le_succ _))]
    have hLen : rows.length = len := by
      rw [hRows, length_take, min_eq_left (hLe.trans hFull.le)]
    refine ⟨hLen ▸ hRows, fun kept hSucc next hNext => ?_⟩
    have hLast := hKept kept (hLen ▸ hSucc)
    rw [getElem?_take_of_lt (by omega)] at hPeek hLast
    have hSame : next.cursor = peek.cursor := by
      rcases lt_or_eq_of_le hLe with hLess | hEq
      · have hCursor := hCut (kept + 1) (by omega) (by omega)
        rw [getElem?_take_of_lt (by omega), hNext] at hCursor
        exact some.inj hCursor
      · rw [← hSucc, hLen, hEq, hPeek] at hNext
        rw [some.inj hNext]
    rw [hSame]
    exact hLast

/-- A batch is a piece of the table that ends with a group of equal values. -/
structure Holds (table : List (Row C)) (batch : Rewind.Batch (Option C)) : Prop where
  stop_le : batch.stop ≤ table.length
  rows : ∀ i row, i < batch.positions.length → table[batch.first + i]? = some row →
    batch.positions[i]? = some (some (some row.cursor))
  ends : ∀ kept row next, batch.positions.length = kept + 1 → table[batch.first + kept]? =
    some row →
    table[batch.first + kept + 1]? = some next → next.cursor ≠ row.cursor

/-- The number of the boundary, if it does not divide a group. -/
theorem Holds.offset_reached (hSorted : Sorted table) {batch : Rewind.Batch (Option C)}
    (hHolds : Holds table batch)
    {acked : Nat} (hLe : acked ≤ batch.positions.length) (hGroups : ¬ CutsGroup batch acked)
    (hReached : batch.reached acked = some last) : offset table last = batch.first + acked := by
  obtain ⟨kept, rfl, hKept⟩ := Batch.getElem?_of_reached hLe hReached
  have hStop := hHolds.stop_le
  rw [Batch.stop] at hStop
  have hRow : table[batch.first + kept]? = some _ := getElem?_eq_getElem (by omega)
  have hHere := hHolds.rows kept _ hLe hRow
  obtain rfl : some _ = last := some.inj (some.inj (hHere.symm.trans hKept))
  apply offset_cursor hSorted hRow
  intro next hNext hSame
  rcases lt_or_eq_of_le hLe with hLess | hEq
  · have hThere := hHolds.rows (kept + 1) next hLess hNext
    rw [hSame, ← hHere] at hThere
    exact hGroups ⟨Nat.succ_pos kept, hLess, hThere.symm⟩
  · exact hHolds.ends kept _ next hEq.symm hRow hNext hSame

theorem holds_emitted (hSorted : Sorted table) {maxMessages : Nat} (epoch : Nat)
    {rows : List (Row C)}
    (hRows : emitted maxMessages (fetchPage table last (maxMessages + 1)) = rows) :
    Holds table ⟨offset table last, rows.map fun row => some (some row.cursor), last, epoch⟩ := by
  rw [fetchPage, filter_after hSorted] at hRows
  obtain ⟨hTake, hEnds⟩ := emitted_spec _ hRows
  have hLen : rows.length ≤ table.length - offset table last := by
    rw [hTake, ← length_drop]
    exact length_take_le' _ _
  have hFrom : offset table last ≤ table.length := offset_le last
  refine ⟨?_, ?_, ?_⟩
  · rw [Batch.stop, length_map]
    dsimp only
    omega
  · intro i row hLess hRow
    rw [length_map] at hLess
    rw [getElem?_map, hTake, getElem?_take_of_lt hLess, getElem?_drop, hRow]
    rfl
  · intro kept row next hKept hRow hNext hSame
    rw [length_map] at hKept
    apply hEnds kept hKept next
    · rw [getElem?_drop]
      exact hNext
    · rw [getElem?_drop, hRow, map_some, hSame]

end Table

namespace Reader

variable {source : Source C} {table : List (Row C)} {first : Nat} {s t : Reader C}

/-- Everything that is saved is done with. -/
structure Sound (table : List (Row C)) (first : Nat) (s : Reader C) : Prop where
  reader : ∃ base, Rewind.Sound (offset table) (Holds table) first base s.toReader ∧
    ∀ save ∈ s.saves, offset table (some save.2) ≤ base
  settled : ∀ entry ∈ s.history, entry.1 < table.length

namespace Sound

theorem new (last : Option C) : Sound table (offset table last) (Reader.new last) :=
  ⟨⟨_, Rewind.Sound.new _, nofun⟩, nofun⟩

theorem leave (hSound : Sound table first s) (call : Option Nat)
    (received : List (Except ConsumerError (List Message))) :
    Sound table first { s with request := none, call := call, received := received } := by
  obtain ⟨base, hReader, hSaves⟩ := hSound.reader
  exact { hSound with reader := ⟨base, hReader.leave, hSaves⟩ }

theorem handOut (hSorted : Sorted table) (hSound : Sound table first s) {maxMessages : Nat}
    {rows : List (Row C)}
    (hSome : rows ≠ [])
    (hRows : emitted maxMessages (fetchPage table s.position (maxMessages + 1)) = rows) :
    Sound table first { s with
      toReader := s.handOut (offset table s.position) s.position
        (rows.map fun row => some (some row.cursor)) } := by
  have hHolds := holds_emitted hSorted s.epoch hRows
  obtain ⟨base, hReader, hSaves⟩ := hSound.reader
  have hReached : (rows.map fun row => some (some row.cursor)).getLast?.join =
      some (some (rows.getLast hSome).cursor) := by
    rw [getLast?_map, getLast?_eq_getLast_of_ne_nil hSome]
    rfl
  have hOffset :=
    hHolds.offset_reached hSorted (le_refl _) (fun hCut => absurd hCut.2.1 (lt_irrefl _))
    ((Batch.reached_length _).trans hReached)
  exact { hSound with reader := ⟨base, hReader.handOut hReached hOffset hHolds, hSaves⟩ }

theorem answer (hSorted : Sorted table) (hSound : Sound table first s)
    (hStep : s.answer source table = some t) : Sound table first t := by
  rw [Reader.answer] at hStep
  split at hStep
  · rename_i maxMessages last epoch hCall hRequest
    dsimp only at hStep
    split at hStep
    · cases hStep
      exact hSound.leave _ _
    split at hStep
    · cases hStep
      exact hSound.leave _ _
    rename_i hSome
    split at hStep
    · cases hStep
      exact hSound.leave _ _
    split at hStep
    · cases hStep
      exact hSound.leave _ _
    · rename_i hEpoch
      cases hStep
      obtain ⟨base, hReader, -⟩ := hSound.reader
      obtain rfl : epoch = s.epoch := (not_not.mp hEpoch).symm
      obtain rfl : last = s.position := (hReader.request _ hRequest).2 rfl
      exact (hSound.handOut hSorted hSome rfl).leave _ _
  · cases hStep

/-- What is recorded for a batch is about rows of the table. -/
theorem settled_snoc (hSound : Sound table first s) {batch : Rewind.Batch (Option C)}
    (hMem : batch ∈ s.batches)
    {answers : List Bool} (hLen : answers.length = batch.positions.length) :
    ∀ entry ∈ s.history ++ entries batch.first answers, entry.1 < table.length := by
  refine forall_mem_append.mpr ⟨hSound.settled, fun entry hEntry => ?_⟩
  obtain ⟨-, hGet⟩ := mem_entries.mp hEntry
  have hLt := (List.getElem?_eq_some_iff.mp hGet).1
  obtain ⟨base, hReader, -⟩ := hSound.reader
  have hStop := (hReader.before batch hMem).2.stop_le
  rw [Batch.stop] at hStop
  omega

theorem commit (hSorted : Sorted table) (hSound : Sound table first s) {dispositions : Dispositions}
    (hGroups : keepsGroups s (.commit dispositions))
    (hStep : s.commit source dispositions = some t) : Sound table first t := by
  rw [Reader.commit] at hStep
  split at hStep
  · cases hStep
  rename_i batch rest hHead
  split at hStep
  · cases hStep
  rename_i hLen
  cases hStep
  have hMem : batch ∈ s.batches := hHead ▸ mem_cons_self
  have hAnswers : (dispositions.map isAck).length = batch.positions.length := by
    rw [length_map]
    exact not_not.mp hLen
  have hLeading := hAnswers ▸ leading_le (dispositions.map isAck)
  obtain ⟨base, hReader, hSaves⟩ := hSound.reader
  obtain ⟨higher, hBase, hNext, hBoundary⟩ := hReader.commit hHead hAnswers fun _ =>
    (hReader.before batch hMem).2.offset_reached hSorted hLeading
      (hGroups batch (by rw [hHead]; rfl))
  refine ⟨⟨higher, hNext, ?_⟩, ?_⟩
  · refine forall_mem_append.mpr
      ⟨fun save hSave => (hSaves save hSave).trans hBase, fun save hSave => ?_⟩
    obtain ⟨cursor, hCursor, hTarget⟩ := mem_flatMap.mp hSave
    obtain ⟨target, -, rfl⟩ := mem_map.mp hTarget
    split_ifs at hCursor with hEpoch
    · rw [← mem_toList.mp hCursor]
      exact hBoundary hEpoch
    · cases hCursor
  · rw [Rewind.Reader.commit]
    split_ifs <;> exact hSound.settled_snoc hMem hAnswers

theorem drop (hSound : Sound table first s) (hStep : s.drop = some t) : Sound table first t := by
  rw [Reader.drop] at hStep
  split at hStep
  · cases hStep
  rename_i batch rest hHead
  cases hStep
  obtain ⟨base, hReader, hSaves⟩ := hSound.reader
  refine ⟨⟨base, hReader.drop hHead, hSaves⟩, ?_⟩
  rw [Rewind.Reader.drop]
  split_ifs <;> exact hSound.settled_snoc (hHead ▸ mem_cons_self) length_replicate

theorem step (hSorted : Sorted table) (hSound : Sound table first s) {action : Action}
    (hGroups : keepsGroups s action) (hStep : CursorReader.step source table s action = some t) :
    Sound table first t := by
  cases action with
  | receive maxMessages =>
    rw [CursorReader.step, receiveBatch] at hStep
    split_ifs at hStep
    · cases hStep
      exact hSound.leave _ _
    · cases hStep
      exact { hSound with }
  | request =>
    obtain ⟨-, ⟨⟩⟩ := ite_none_right_eq_some.mp hStep
    obtain ⟨base, hReader, hSaves⟩ := hSound.reader
    exact { hSound with reader := ⟨base, hReader.ask, hSaves⟩ }
  | answer => exact hSound.answer hSorted hStep
  | cancel =>
    cases hStep
    exact hSound.leave _ _
  | commit dispositions => exact hSound.commit hSorted hGroups hStep
  | drop => exact hSound.drop hStep

theorem run (hSorted : Sorted table) {last : Option C} {actions : List Action}
    (hGroups : Machine.Guarded (CursorReader.step source table) keepsGroups
      (Reader.new last) actions)
    (hRun : run (CursorReader.step source table) (Reader.new last) actions = some s) :
    Sound table (offset table last) s :=
  invariant_of_guarded (fun _ _ _ hSound hGuard hStep => Sound.step hSorted hSound hGuard hStep)
    (Sound.new last) hGroups hRun

end Sound

/-- A saved value passes only acknowledged rows, of those that were not acknowledged
before the run. A row that was refused and not acknowledged since is after the
position, or handed out again. -/
theorem never_passes_unacknowledged (hSorted : Sorted table) {last : Option C}
    {actions : List Action}
    (hGroups : Machine.Guarded (step source table) keepsGroups (Reader.new last) actions)
    (hRun : run (step source table) (Reader.new last) actions = some s) :
    (∀ save ∈ s.saves, ∀ i row, table[i]? = some row → after last row.cursor = true →
      row.cursor ≤ save.2 → Rewind.Acknowledged s.history i) ∧
      ∀ i, Rewind.Refused s.history i →
        (∃ row, table[i]? = some row ∧ after s.position row.cursor = true) ∨
          ∃ batch ∈ s.batches, batch.epoch = s.epoch ∧ batch.first ≤ i ∧ i < batch.stop := by
  have hSound := Sound.run hSorted hGroups hRun
  obtain ⟨base, hReader, hSaves⟩ := hSound.reader
  constructor
  · intro save hMem i row hRow hAfter hLe
    apply hReader.acknowledged i ((after_iff hSorted last hRow).mp hAfter)
    have hPassed : ¬ offset table (some save.2) ≤ i := by
      rw [← after_iff hSorted _ hRow]
      simpa [after] using hLe
    exact lt_of_lt_of_le (Nat.lt_of_not_le hPassed) (hSaves save hMem)
  · intro i hRefused
    have hLt : i < table.length := by
      obtain ⟨before, later, hHistory, -⟩ := hRefused
      exact hSound.settled (i, false) (hHistory ▸ mem_append_right _ mem_cons_self)
    refine (hReader.refused_later hRefused).imp_left fun hPos => ?_
    have hRow := getElem?_eq_getElem hLt
    exact ⟨_, hRow, (after_iff hSorted _ hRow).mpr hPos⟩

end Reader

end Reader

/-- Integers before texts, and each kind in its own order. -/
def SqlCursor.key : SqlCursor → ℤ ⊕ₗ String
  | .int value => toLex (.inl value)
  | .text value => toLex (.inr value)

theorem SqlCursor.key_injective : Function.Injective SqlCursor.key := by
  rintro (a | a) (b | b) hKey
  all_goals simp_all [key]

instance : LinearOrder SqlCursor := LinearOrder.lift' SqlCursor.key SqlCursor.key_injective

def ChCursor.key : ChCursor → ℤ ⊕ₗ ℕ ⊕ₗ String
  | .int value => toLex (.inl value)
  | .uint value => toLex (.inr (toLex (.inl value)))
  | .text value => toLex (.inr (toLex (.inr value)))

theorem ChCursor.key_injective : Function.Injective ChCursor.key := by
  rintro (a | a | a) (b | b | b) hKey
  all_goals simp_all [key]

instance : LinearOrder ChCursor := LinearOrder.lift' ChCursor.key ChCursor.key_injective

namespace Reader

def rowsOf (values : List Int) : List (Row SqlCursor) := values.map fun value => ⟨.int value, []⟩

def idSource : Source SqlCursor := sqlxCursorReader "t" "id" true false false

def chSource : Source ChCursor := clickHouseCursorReader "id" true

def chRows : List (Row ChCursor) := [1, 2, 3].map fun value => ⟨.uint value, []⟩

def refusedOnce : List Action :=
  [.receive 2, .request, .answer, .receive 2, .request, .answer, .commit [.ack, .nack],
    .commit [.ack], .receive 2, .request, .answer, .commit [.ack, .ack]]

def groupCut : List Action := [.receive 2, .request, .answer, .commit [.ack, .nack]]

/-- A row is refused, read again and acknowledged, by the readers of both databases. -/
theorem never_passes_unacknowledged_refusedOnce :
    (∃ s, run (step idSource (rowsOf [1, 2, 3])) (Reader.new none) refusedOnce = some s ∧
      s.saves = [(.checkpoint, .int 1), (.checkpoint, .int 3)] ∧
      ∀ save ∈ s.saves, ∀ i row, (rowsOf [1, 2, 3])[i]? = some row →
        after none row.cursor = true → row.cursor ≤ save.2 → Rewind.Acknowledged s.history i) ∧
    ∃ s, run (step chSource chRows) (Reader.new none) refusedOnce = some s ∧
      s.saves = [(.checkpoint, .uint 1), (.checkpoint, .uint 3)] ∧
      ∀ save ∈ s.saves, ∀ i row, chRows[i]? = some row →
        after none row.cursor = true → row.cursor ≤ save.2 → Rewind.Acknowledged s.history i := by
  have hSql : Machine.Guarded (step idSource (rowsOf [1, 2, 3])) keepsGroups (Reader.new none)
      refusedOnce := by decide
  have hCh : Machine.Guarded (step chSource chRows) keepsGroups (Reader.new none) refusedOnce := by
    decide
  exact ⟨⟨_, rfl, by decide, (never_passes_unacknowledged (by decide) hSql rfl).1⟩,
    ⟨_, rfl, by decide, (never_passes_unacknowledged (by decide) hCh rfl).1⟩⟩

/-- The second of two rows with the same value is refused. Its value is saved, and
the row is neither after the position nor handed out. -/
theorem group_cut_saved :
    ∃ s, run (step idSource (rowsOf [1, 1])) (Reader.new none) groupCut = some s ∧
      s.saves = [(.checkpoint, .int 1)] ∧ s.history = [(0, true), (1, false)] ∧
      (rowsOf [1, 1])[1]? = some ⟨.int 1, []⟩ ∧ s.position = some (.int 1) ∧ s.batches = [] := by
  exact ⟨_, rfl, by decide, by decide, rfl, by decide, by decide⟩

end Reader

end MqBridge.CursorReader
