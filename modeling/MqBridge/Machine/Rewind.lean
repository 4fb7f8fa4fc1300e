import Mathlib.Data.List.Basic
import Mathlib.Data.List.Range
import Mathlib.Data.List.TakeWhile

/-! A reader of numbered items that moves ahead as it reads and back when an item is
refused. Its batches are settled in the order in which they were read. A batch that
was read before the reader last moved back is stale: its items are read again, so it
neither confirms anything nor moves the reader. -/
namespace Rewind

open List

variable {P : Type}

/-- A batch that is handed out and not settled. A position may be known only after some
of its items. -/
structure Batch (P : Type) where
  first : Nat
  positions : List (Option P)
  before : P
  epoch : Nat
deriving DecidableEq

namespace Batch

def stop (batch : Batch P) : Nat := batch.first + batch.positions.length

def reached (batch : Batch P) (acked : Nat) : Option P := (batch.positions.take acked).getLast?.join

/-- Where the reader goes on when so many items are acknowledged. -/
def boundary (batch : Batch P) (acked : Nat) : P := (batch.reached acked).getD batch.before

theorem reached_length (batch : Batch P) :
    batch.reached batch.positions.length = batch.positions.getLast?.join := by
  rw [reached, take_length]

theorem getElem?_of_reached {batch : Batch P} {acked : Nat} {p : P}
    (hLe : acked ≤ batch.positions.length)
    (hReached : batch.reached acked = some p) :
    ∃ kept, acked = kept + 1 ∧ batch.positions[kept]? = some (some p) := by
  rw [reached, Option.join_eq_some_iff, getLast?_eq_getElem?, length_take, min_eq_left hLe]
    at hReached
  cases acked with
  | zero => cases hReached
  | succ kept =>
    rw [Nat.add_sub_cancel, getElem?_take_of_lt (Nat.lt_succ_self kept)] at hReached
    exact ⟨kept, rfl, hReached⟩

end Batch

structure Reader (P : Type) where
  position : P
  /-- How often the reader moved back. -/
  epoch : Nat
  /-- The position and the epoch of a request that is not answered. -/
  request : Option (P × Nat)
  batches : List (Batch P)
  /-- Every settled item and whether it was acknowledged, the oldest first. -/
  history : List (Nat × Bool)

def Acknowledged (history : List (Nat × Bool)) (item : Nat) : Prop := (item, true) ∈ history

/-- Refused and not acknowledged since. -/
def Refused (history : List (Nat × Bool)) (item : Nat) : Prop :=
  ∃ before after, history = before ++ (item, false) :: after ∧ (item, true) ∉ after

def entries (start : Nat) (answers : List Bool) : List (Nat × Bool) :=
  (List.range' start answers.length).zip answers

/-- How many items are acknowledged before the first one that is not. -/
def leading (answers : List Bool) : Nat := (answers.takeWhile id).length

namespace Reader

def handOut (r : Reader P) (first : Nat) (before : P) (found : List (Option P)) : Reader P :=
  { r with
    position := found.getLast?.join.getD r.position
    request := none
    batches := r.batches ++ [⟨first, found, before, r.epoch⟩] }

def settle (r : Reader P) (batch : Batch P) (rest : List (Batch P)) (answers : List Bool) :
    Reader P :=
  { r with batches := rest, history := r.history ++ entries batch.first answers }

def rewind (r : Reader P) (back : P) : Reader P := { r with position := back, epoch := r.epoch + 1 }

/-- The oldest batch is settled. The reader moves back to the first item that is not
acknowledged, as far as its position is known. -/
def commit (r : Reader P) (batch : Batch P) (rest : List (Batch P)) (answers : List Bool) :
    Reader P :=
  if r.epoch = batch.epoch ∧ leading answers < batch.positions.length then
    (r.settle batch rest answers).rewind (batch.boundary (leading answers))
  else r.settle batch rest answers

/-- The oldest batch is never settled: all its items are refused. -/
def drop (r : Reader P) (batch : Batch P) (rest : List (Batch P)) : Reader P :=
  let settled := r.settle batch rest (List.replicate batch.positions.length false)
  if r.epoch = batch.epoch then settled.rewind batch.before else settled

end Reader

theorem mem_entries {start item : Nat} {answers : List Bool} {answer : Bool} :
    (item, answer) ∈ entries start answers ↔ start ≤ item ∧ answers[item - start]? =
      some answer := by
  induction answers generalizing start with
  | nil => simp [entries]
  | cons first answers ih =>
    have hCons : entries start (first :: answers) = (start, first) :: entries (start + 1) answers :=
      rfl
    rw [hCons, mem_cons, ih, Prod.mk.injEq]
    rcases lt_trichotomy item start with hLess | rfl | hMore
    · omega
    · simp [eq_comm]
    · obtain ⟨gap, rfl⟩ := Nat.exists_eq_add_of_lt hMore
      have hShift : start + gap + 1 - start = (start + gap + 1 - (start + 1)) + 1 := by omega
      rw [hShift]
      constructor
      · rintro (hSame | hLater)
        · omega
        · exact ⟨by omega, hLater.2⟩
      · intro hLater
        exact .inr ⟨by omega, hLater.2⟩

theorem leading_le (answers : List Bool) : leading answers ≤ answers.length :=
  (takeWhile_sublist id).length_le

theorem getElem?_of_lt_leading {answers : List Bool} {i : Nat} (hLt : i < leading answers) :
    answers[i]? = some true := by
  rw [← takeWhile_append_dropWhile (l := answers), getElem?_append_left hLt,
    getElem?_eq_getElem hLt]
  exact congrArg some (mem_takeWhile_imp (l := answers) (getElem_mem hLt))

theorem refused_append {history more : List (Nat × Bool)} {item : Nat}
    (hRefused : Refused (history ++ more) item) :
    (item, false) ∈ more ∨ Refused history item ∧ (item, true) ∉ more := by
  obtain ⟨before, after, hSplit, hSince⟩ := hRefused
  rcases append_eq_append_iff.mp hSplit with ⟨between, -, hMore⟩ | ⟨between, hBefore, hAfter⟩
  · left
    rw [hMore]
    exact mem_append_right _ mem_cons_self
  · cases between with
    | nil =>
      left
      rw [nil_append] at hAfter
      rw [← hAfter]
      exact mem_cons_self
    | cons entry between =>
      obtain ⟨hEntry, hRest⟩ := cons.inj hAfter
      subst hEntry hRest
      exact .inr ⟨⟨before, between, hBefore, fun hMem => hSince (mem_append_left _ hMem)⟩,
        fun hMem => hSince (mem_append_right _ hMem)⟩

/-- The batches of one epoch follow one another without a gap. -/
def Tiles (epoch : Nat) : Nat → List (Batch P) → Nat → Prop
  | start, [], stop => start = stop
  | start, batch :: rest, stop =>
    batch.epoch = epoch ∧ batch.first = start ∧ Tiles epoch batch.stop rest stop

variable {batches : List (Batch P)}

theorem Tiles.first_le {epoch start stop : Nat} (hTiles : Tiles epoch start batches stop) :
    ∀ batch ∈ batches, start ≤ batch.first ∧ batch.epoch = epoch := by
  induction batches generalizing start with
  | nil => exact nofun
  | cons first batches ih =>
    obtain ⟨hEpoch, rfl, hRest⟩ := hTiles
    rw [forall_mem_cons]
    refine ⟨⟨le_refl _, hEpoch⟩, fun batch hMem => ?_⟩
    obtain ⟨hLater, hSame⟩ := ih hRest batch hMem
    exact ⟨(Nat.le_add_right _ _).trans hLater, hSame⟩

theorem Tiles.snoc {epoch start stop : Nat} (hTiles : Tiles epoch start batches stop)
    {next : Batch P} (hEpoch : next.epoch = epoch) (hFirst : next.first = stop) :
    Tiles epoch start (batches ++ [next]) next.stop := by
  induction batches generalizing start with
  | nil =>
    cases hTiles
    exact ⟨hEpoch, hFirst, rfl⟩
  | cons first batches ih =>
    obtain ⟨hSame, hStart, hRest⟩ := hTiles
    exact ⟨hSame, hStart, ih hRest⟩

theorem Tiles.exists_mem {epoch start stop item : Nat}
    (hTiles : Tiles epoch start batches stop) (hStart : start ≤ item) (hStop : item < stop) :
    ∃ batch ∈ batches, batch.epoch = epoch ∧ batch.first ≤ item ∧ item < batch.stop := by
  induction batches generalizing start with
  | nil =>
    cases hTiles
    omega
  | cons first batches ih =>
    obtain ⟨hEpoch, rfl, hRest⟩ := hTiles
    by_cases hHere : item < first.stop
    · exact ⟨first, mem_cons_self, hEpoch, hStart, hHere⟩
    · obtain ⟨batch, hMem, hIn⟩ := ih hRest (Nat.le_of_not_lt hHere)
      exact ⟨batch, mem_cons_of_mem _ hMem, hIn⟩

/-- Everything from `first` up to `base` is acknowledged and done with; `offset` counts
the items before a position. What lies between `base` and the position is in the
batches of the current epoch, and stale batches wait only before them. Of its batches
the reader's user knows `Holds`. -/
structure Sound (offset : P → Nat) (Holds : Batch P → Prop) (first base : Nat) (r : Reader P) :
    Prop where
  first_le : first ≤ base
  queue : ∃ stale current, r.batches = stale ++ current ∧
    (∀ batch ∈ stale, batch.epoch < r.epoch ∧ base ≤ batch.first) ∧
      Tiles r.epoch base current (offset r.position)
  acknowledged : ∀ item, first ≤ item → item < base → Acknowledged r.history item
  refused : ∀ item, Refused r.history item → base ≤ item
  before : ∀ batch ∈ r.batches, offset batch.before = batch.first ∧ Holds batch
  request : ∀ page ∈ r.request, page.2 ≤ r.epoch ∧ (page.2 = r.epoch → page.1 = r.position)

namespace Sound

variable {offset : P → Nat} {Holds : Batch P → Prop} {first base : Nat} {r : Reader P}
    {batch : Batch P} {rest : List (Batch P)}
  {answers : List Bool}

theorem new (position : P) :
    Sound offset Holds (offset position) (offset position) ⟨position, 0, none, [], []⟩ where
  first_le := Nat.le_refl _
  queue := ⟨[], [], rfl, nofun, rfl⟩
  acknowledged := fun item hFirst hBase => absurd hBase (Nat.not_lt.mpr hFirst)
  refused := by
    rintro item ⟨before, after, hSplit, -⟩
    cases before <;> cases hSplit
  before := nofun
  request := nofun

variable (hSound : Sound offset Holds first base r)

include hSound

theorem ask :
    Sound offset Holds first base { r with request := some (r.position, r.epoch) } :=
  { hSound with
    request := by
      rintro page ⟨⟩
      exact ⟨le_refl _, fun _ => rfl⟩ }

theorem leave : Sound offset Holds first base { r with request := none } :=
  { hSound with request := nofun }

/-- The reader moves over positions without an item between them. -/
theorem advance {next : P} (hNext : offset next = offset r.position) :
    Sound offset Holds first base { r with position := next, request := none } :=
  { hSound with queue := hNext ▸ hSound.queue, request := nofun }

theorem handOut {found : List (Option P)} {last : P}
    (hLast : found.getLast?.join = some last)
    (hOffset : offset last = offset r.position + found.length)
    (hHolds : Holds ⟨offset r.position, found, r.position, r.epoch⟩) :
    Sound offset Holds first base (r.handOut (offset r.position) r.position found) := by
  obtain ⟨stale, current, hQueue, hStale, hTiles⟩ := hSound.queue
  refine { hSound with
    queue := ⟨stale, current ++ [⟨offset r.position, found, r.position, r.epoch⟩], ?_, hStale, ?_⟩,
    before := ?_, request := nofun }
  · rw [Reader.handOut, hQueue, append_assoc]
  · rw [Reader.handOut, hLast, Option.getD_some, hOffset]
    exact hTiles.snoc rfl rfl
  · exact forall_mem_append.mpr ⟨hSound.before, forall_mem_singleton.mpr ⟨rfl, hHolds⟩⟩

/-- A stale batch moves nothing. -/
theorem settle_stale (hHead : r.batches = batch :: rest)
    (hEpoch : r.epoch ≠ batch.epoch) (answers : List Bool) :
    Sound offset Holds first base (r.settle batch rest answers) := by
  obtain ⟨stale, current, hQueue, hStale, hTiles⟩ := hSound.queue
  cases stale with
  | nil =>
    rw [hHead, nil_append] at hQueue
    rw [← hQueue] at hTiles
    exact absurd hTiles.1.symm hEpoch
  | cons other stale =>
    obtain ⟨rfl, rfl⟩ := cons.inj (hHead.symm.trans hQueue)
    obtain ⟨hOther, hOthers⟩ := forall_mem_cons.mp hStale
    refine { hSound with queue :=
      ⟨stale, current, rfl, hOthers, hTiles⟩, acknowledged := ?_, refused := ?_, before := ?_ }
    · intro item hFirst hBase
      exact mem_append_left _ (hSound.acknowledged item hFirst hBase)
    · intro item hRefused
      rcases refused_append hRefused with hMem | ⟨hOld, -⟩
      · exact hOther.2.trans (mem_entries.mp hMem).1
      · exact hSound.refused item hOld
    · exact fun other hMem => hSound.before other (hHead ▸ mem_cons_of_mem _ hMem)

/-- The oldest batch begins at the base, unless it is stale. -/
theorem head_current (hHead : r.batches = batch :: rest)
    (hEpoch : r.epoch = batch.epoch) : Tiles r.epoch base (batch :: rest) (offset r.position) := by
  obtain ⟨stale, current, hQueue, hStale, hTiles⟩ := hSound.queue
  cases stale with
  | nil =>
    rw [hHead] at hQueue
    exact hQueue ▸ hTiles
  | cons other stale =>
    obtain ⟨rfl, -⟩ := cons.inj (hHead.symm.trans hQueue)
    exact absurd hEpoch.symm (hStale batch mem_cons_self).1.ne

/-- What is recorded for the oldest batch, up to the first item that is not acknowledged. -/
theorem settled_history {back : Nat} (hBack : back ≤ base + leading answers) :
    (∀ item, first ≤ item → item < back → Acknowledged (r.history ++ entries base answers) item) ∧
      ∀ item, Refused (r.history ++ entries base answers) item → back ≤ item := by
  have hLeading {item : Nat} (hBase : base ≤ item) (hItem : item < back) :
      (item, true) ∈ entries base answers :=
    mem_entries.mpr ⟨hBase, getElem?_of_lt_leading (by omega)⟩
  constructor
  · intro item hFirst hItem
    by_cases hBase : item < base
    · exact mem_append_left _ (hSound.acknowledged item hFirst hBase)
    · exact mem_append_right _ (hLeading (Nat.le_of_not_lt hBase) hItem)
  · intro item hRefused
    by_contra hItem
    rcases refused_append hRefused with hMem | ⟨hOld, hNot⟩
    · obtain ⟨hBase, hFalse⟩ := mem_entries.mp hMem
      rw [getElem?_of_lt_leading (by omega)] at hFalse
      cases hFalse
    · exact hNot (hLeading (hSound.refused item hOld) (Nat.lt_of_not_le hItem))

section

variable (hHead : r.batches = batch :: rest)

include hHead

theorem confirm (hEpoch : r.epoch = batch.epoch)
    (hAll : batch.positions.length ≤ leading answers) :
    Sound offset Holds first batch.stop (r.settle batch rest answers) := by
  obtain ⟨-, rfl, hRest⟩ := hSound.head_current hHead hEpoch
  obtain ⟨hAcknowledged, hRefused⟩ := hSound.settled_history (Nat.add_le_add_left hAll batch.first)
  exact { hSound with
    first_le := hSound.first_le.trans (Nat.le_add_right _ _), queue :=
      ⟨[], rest, rfl, nofun, hRest⟩,
    acknowledged := hAcknowledged, refused := hRefused,
    before := fun other hMem => hSound.before other (hHead ▸ mem_cons_of_mem _ hMem) }

/-- The reader moves back, at most to the first item that is not acknowledged. -/
theorem rewind (hEpoch : r.epoch = batch.epoch)
    {back : P} (hFirst : batch.first ≤ offset back)
    (hBack : offset back ≤ batch.first + leading answers)
    (hStop : offset back ≤ batch.stop) :
    Sound offset Holds first (offset back) ((r.settle batch rest answers).rewind back) := by
  obtain ⟨-, rfl, hRest⟩ := hSound.head_current hHead hEpoch
  obtain ⟨hAcknowledged, hRefused⟩ := hSound.settled_history hBack
  refine { hSound with
    first_le := hSound.first_le.trans hFirst, queue := ⟨rest, [], (append_nil rest).symm, ?_, rfl⟩,
    acknowledged := hAcknowledged, refused := hRefused,
    before := fun other hMem => hSound.before other (hHead ▸ mem_cons_of_mem _ hMem), request :=
      ?_ }
  · intro later hMem
    obtain ⟨hLater, hSame⟩ := hRest.first_le later hMem
    exact ⟨hSame ▸ Nat.lt_succ_self _, hStop.trans hLater⟩
  · intro page hPage
    have hOld := (hSound.request page hPage).1
    exact ⟨hOld.trans (Nat.le_succ _), fun hNew => absurd hNew (Nat.lt_succ_of_le hOld).ne⟩

/-- The base after a commit. The boundary is behind it, unless the batch is stale. -/
theorem commit (hLen : answers.length = batch.positions.length)
    (hReached : ∀ p, batch.reached (leading answers) = some p →
      offset p = batch.first + leading answers) :
    ∃ higher, base ≤ higher ∧ Sound offset Holds first higher (r.commit batch rest answers) ∧
      (r.epoch = batch.epoch → offset (batch.boundary (leading answers)) ≤ higher) := by
  have hLeading : leading answers ≤ batch.positions.length := hLen ▸ leading_le answers
  have hBefore := (hSound.before batch (hHead ▸ mem_cons_self)).1
  have hBoundary : batch.first ≤ offset (batch.boundary (leading answers)) ∧
      offset (batch.boundary (leading answers)) ≤ batch.first + leading answers := by
    rw [Batch.boundary]
    cases hEnd : batch.reached (leading answers) with
    | none => exact ⟨hBefore.ge, hBefore ▸ Nat.le_add_right _ _⟩
    | some p => exact ⟨hReached p hEnd ▸ Nat.le_add_right _ _, (hReached p hEnd).le⟩
  have hStop := hBoundary.2.trans (Nat.add_le_add_left hLeading batch.first)
  rw [Reader.commit]
  by_cases hEpoch : r.epoch = batch.epoch
  · obtain ⟨-, rfl, -⟩ := hSound.head_current hHead hEpoch
    split_ifs with hMoves
    · exact ⟨_, hBoundary.1, hSound.rewind hHead hEpoch hBoundary.1 hBoundary.2 hStop, fun _ =>
        le_refl _⟩
    · have hAll := Nat.le_of_not_lt fun hLess => hMoves ⟨hEpoch, hLess⟩
      exact ⟨batch.stop, Nat.le_add_right _ _, hSound.confirm hHead hEpoch hAll, fun _ => hStop⟩
  · rw [if_neg fun hMoves => hEpoch hMoves.1]
    exact ⟨base, le_refl _, hSound.settle_stale hHead hEpoch answers, fun hSame =>
      absurd hSame hEpoch⟩

theorem drop :
    Sound offset Holds first base (r.drop batch rest) := by
  have hBefore := (hSound.before batch (hHead ▸ mem_cons_self)).1
  rw [Reader.drop]
  split_ifs with hEpoch
  · obtain ⟨-, rfl, -⟩ := hSound.head_current hHead hEpoch
    rw [← hBefore] at hSound ⊢
    exact hSound.rewind hHead hEpoch hBefore.ge (hBefore ▸ Nat.le_add_right _ _)
      (hBefore ▸ Nat.le_add_right _ _)
  · exact hSound.settle_stale hHead hEpoch _

end

theorem base_eq (hNone : r.batches = []) : base = offset r.position := by
  obtain ⟨stale, current, hQueue, -, hTiles⟩ := hSound.queue
  rw [hNone] at hQueue
  obtain ⟨-, rfl⟩ := append_eq_nil_iff.mp hQueue.symm
  exact hTiles

/-- A refused item is read again, or was read again and is not settled. -/
theorem refused_later {item : Nat} (hRefused : Refused r.history item) :
    offset r.position ≤ item ∨ ∃ batch ∈ r.batches, batch.epoch = r.epoch ∧ batch.first ≤ item ∧
      item < batch.stop := by
  obtain ⟨stale, current, hQueue, -, hTiles⟩ := hSound.queue
  by_cases hPos : offset r.position ≤ item
  · exact .inl hPos
  · obtain ⟨batch, hMem, hIn⟩ :=
      hTiles.exists_mem (hSound.refused item hRefused) (Nat.lt_of_not_le hPos)
    exact .inr ⟨batch, hQueue ▸ mem_append_right _ hMem, hIn⟩

end Sound

end Rewind
