import Mathlib.Data.Finset.Card
import Mathlib.Data.List.Nodup
import MqBridge.Collections.Places
import MqBridge.Consumer

/-! The acknowledgement tracker of the weak join. It holds the commit of every
source batch until each of its messages is settled by the join it went into.
The batches at the front that are settled are let go of; the others are found
by their distance from the first one that is left. -/
namespace MqBridge.WeakJoin

open List Places

/-- A buffered message's place in the source batch it came from. -/
structure Slot where
  seq : Nat
  idx : Nat
  deriving DecidableEq

/-- `commit` says whether the commit is still there. -/
structure InnerBatch where
  commit : Bool
  dispositions : Dispositions
  remaining : Nat

abbrev DueCommits := List (Nat × Dispositions)

structure AckTracker where
  base : Nat
  batches : List InnerBatch

namespace AckTracker

def new : AckTracker := ⟨0, []⟩

def register (tracker : AckTracker) (len : Nat) : AckTracker × Nat :=
  ({ tracker with batches := tracker.batches ++ [⟨true, List.replicate len .ack, len⟩] },
    tracker.base + tracker.batches.length)

/-- Settles one message. There is no result if a subtraction would go below
zero or an index were out of range. -/
def settle (ordered : Bool) (tracker : AckTracker) (slot : Slot)
    (disposition : MessageDisposition) : Option (AckTracker × DueCommits) :=
  if slot.seq < tracker.base then none
  else
    match tracker.batches[slot.seq - tracker.base]? with
    | none => some (tracker, [])
    | some batch =>
      if batch.dispositions.length ≤ slot.idx ∨ batch.remaining = 0 then none
      else
        let batch :=
          { batch with
            dispositions := batch.dispositions.set slot.idx disposition
            remaining := batch.remaining - 1 }
        let put := fun batch =>
          { tracker with batches := tracker.batches.set (slot.seq - tracker.base) batch }
        if !ordered && batch.remaining = 0 && batch.commit then
          some (put { batch with commit := false, dispositions := [] },
            [(slot.seq, batch.dispositions)])
        else some (put batch, [])

def settleAll (ordered : Bool) (tracker : AckTracker) :
    List (Slot × MessageDisposition) → Option (AckTracker × DueCommits)
  | [] => some (tracker, [])
  | (slot, disposition) :: rest =>
    (tracker.settle ordered slot disposition).bind fun (tracker, due) =>
      (tracker.settleAll ordered rest).map fun (tracker, later) => (tracker, due ++ later)

/-- The loop of `pop_due`: settled batches whose commit is gone are dropped. -/
def popDueFrom (base : Nat) : List InnerBatch → Option (Nat × Dispositions) × AckTracker
  | [] => (none, ⟨base, []⟩)
  | batch :: rest =>
    if batch.remaining = 0 then
      if batch.commit then (some (base, batch.dispositions), ⟨base + 1, rest⟩)
      else popDueFrom (base + 1) rest
    else (none, ⟨base, batch :: rest⟩)

def popDue (tracker : AckTracker) : Option (Nat × Dispositions) × AckTracker :=
  popDueFrom tracker.base tracker.batches

/-- The calls of `pop_due` of an unordered source. Every call takes a batch,
so that there are no more calls than batches. -/
def popAll : Nat → AckTracker → DueCommits × AckTracker
  | 0, tracker => ([], tracker)
  | fuel + 1, tracker =>
    match tracker.popDue with
    | (none, tracker) => ([], tracker)
    | (some due, tracker) =>
      let (later, tracker) := popAll fuel tracker
      (due :: later, tracker)

end AckTracker

def settledOf (settled : List (Slot × MessageDisposition)) (seq : Nat) : List Nat :=
  (settled.filter fun entry => entry.1.seq = seq).map fun entry => entry.1.idx

/-- The dispositions are those with which the messages of the batch were
settled, and none is missing. -/
def Answers (size : Nat) (settled : List (Slot × MessageDisposition)) (seq : Nat)
    (dispositions : Dispositions) : Prop :=
  dispositions.length = size ∧
    ∀ idx < size, ∃ disposition, dispositions[idx]? = some disposition ∧
      (⟨seq, idx⟩, disposition) ∈ settled

variable {dispositions : Dispositions} {size seq : Nat}

theorem Answers.mono {settled more : List (Slot × MessageDisposition)}
    (h : Answers size settled seq dispositions) :
    Answers size (settled ++ more) seq dispositions := by
  refine ⟨h.1, fun idx hLt => ?_⟩
  obtain ⟨disposition, hGet, hMem⟩ := h.2 idx hLt
  exact ⟨disposition, hGet, mem_append_left _ hMem⟩

/-- Every message is settled at most once, and at a place that exists. -/
structure Settlement (sizes : List Nat) (settled : List (Slot × MessageDisposition)) : Prop where
  nodup : (settled.map Prod.fst).Nodup
  place : ∀ entry ∈ settled, ∃ size, sizes[entry.1.seq]? = some size ∧ entry.1.idx < size

section Settlement

variable {sizes : List Nat} {settled : List (Slot × MessageDisposition)} {seq size : Nat}
    {idx : Nat}

theorem mem_settledOf :
    idx ∈ settledOf settled seq ↔ ∃ disposition, (⟨seq, idx⟩, disposition) ∈ settled := by
  simp only [settledOf, mem_map, mem_filter, decide_eq_true_eq]
  constructor
  · rintro ⟨⟨⟨_, _⟩, disposition⟩, ⟨hMem, rfl⟩, rfl⟩
    exact ⟨disposition, hMem⟩
  · rintro ⟨disposition, hMem⟩
    exact ⟨(⟨seq, idx⟩, disposition), ⟨hMem, rfl⟩, rfl⟩

section

variable (h : Settlement sizes settled)

include h

theorem Settlement.nodup_settledOf : (settledOf settled seq).Nodup := by
  have hSlots : ((settled.filter fun entry => entry.1.seq = seq).map Prod.fst).Nodup :=
    h.nodup.sublist (filter_sublist.map _)
  rw [settledOf, nodup_map_iff_inj_on hSlots.of_map]
  intro a hA b hB hIdx
  refine inj_on_of_nodup_map hSlots hA hB ?_
  cases hSlot : a.1
  cases hOther : b.1
  simp_all

variable (hSize : sizes[seq]? = some size)

include hSize

theorem Settlement.lt_of_mem (hMem : idx ∈ settledOf settled seq) : idx < size := by
  obtain ⟨disposition, hEntry⟩ := mem_settledOf.mp hMem
  obtain ⟨found, hFound, hLt⟩ := h.place _ hEntry
  cases hSize.symm.trans hFound
  exact hLt

theorem Settlement.subset_range :
    (settledOf settled seq).toFinset ⊆ Finset.range size := fun _ hMem =>
  Finset.mem_range.mpr (h.lt_of_mem hSize (mem_toFinset.mp hMem))

theorem Settlement.length_le :
    (settledOf settled seq).length ≤ size := by
  rw [← toFinset_card_of_nodup h.nodup_settledOf]
  exact (Finset.card_le_card (h.subset_range hSize)).trans_eq (Finset.card_range size)

/-- As many as there are, so all of them. -/
theorem Settlement.mem_of_length (hAll : size ≤ (settledOf settled seq).length) (hLt : idx < size) :
    idx ∈ settledOf settled seq := by
  rw [← toFinset_card_of_nodup h.nodup_settledOf] at hAll
  have hSame := Finset.eq_of_subset_of_card_le (h.subset_range hSize)
    ((Finset.card_range size).trans_le hAll)
  exact mem_toFinset.mp (hSame ▸ mem_range.mpr hLt)

end

theorem settledOf_snoc (slot : Slot) (disposition : MessageDisposition) :
    settledOf (settled ++ [(slot, disposition)]) seq =
      settledOf settled seq ++ if slot.seq = seq then [slot.idx] else [] := by
  by_cases hSeq : slot.seq = seq <;> simp [settledOf, hSeq]

/-- The commit of a batch whose messages are all settled. -/
theorem Settlement.answers (h : Settlement sizes settled) (hSize : sizes[seq]? = some size)
    (hAll : size ≤ (settledOf settled seq).length) (hLength : dispositions.length = size)
    (hKnown : ∀ entry ∈ settled, entry.1.seq = seq → dispositions[entry.1.idx]? = some entry.2) :
    Answers size settled seq dispositions := by
  refine ⟨hLength, fun idx hLt => ?_⟩
  obtain ⟨disposition, hMem⟩ := mem_settledOf.mp (h.mem_of_length hSize hAll hLt)
  exact ⟨disposition, hKnown _ hMem rfl, hMem⟩

/-- One more message is settled. -/
theorem Settlement.snoc (h : Settlement sizes settled) {slot : Slot}
    (disposition : MessageDisposition)
    (hNew : slot ∉ settled.map Prod.fst) (hSize : sizes[slot.seq]? = some size)
    (hLt : slot.idx < size) : Settlement sizes (settled ++ [(slot, disposition)]) := by
  refine ⟨?_, forall_mem_snoc h.place ⟨size, hSize, hLt⟩⟩
  rw [map_append]
  exact nodup_snoc h.nodup hNew

end Settlement

/-- What a batch that is still tracked knows of its messages. -/
structure InnerBatch.Tracks (ordered : Bool) (size : Nat)
    (settled : List (Slot × MessageDisposition)) (seq : Nat) (batch : InnerBatch) : Prop where
  remaining : batch.remaining + (settledOf settled seq).length = size
  dispositions : batch.commit = true → batch.dispositions.length = size ∧
    ∀ entry ∈ settled, entry.1.seq = seq → batch.dispositions[entry.1.idx]? = some entry.2
  kept : ordered = true → batch.commit = true
  taken : ordered = false → (batch.commit = true ↔ batch.remaining ≠ 0)

/-- The tracker beside all messages that were settled and all commits that
have left it. -/
structure Tracks (ordered : Bool) (sizes : List Nat) (settled : List (Slot × MessageDisposition))
    (tracker : AckTracker) (gone : DueCommits) : Prop where
  settlement : Settlement sizes settled
  total : tracker.base + tracker.batches.length = sizes.length
  popped : ∀ seq < tracker.base, ∀ size, sizes[seq]? = some size →
    (settledOf settled seq).length = size
  batches : ∀ (k : Nat) (batch : InnerBatch), tracker.batches[k]? = some batch → ∀ size,
    sizes[tracker.base + k]? = some size → batch.Tracks ordered size settled (tracker.base + k)
  answers : ∀ entry ∈ gone, ∃ size, sizes[entry.1]? = some size ∧
    Answers size settled entry.1 entry.2
  once : (gone.map Prod.fst).Nodup
  left : ∀ entry ∈ gone, entry.1 < tracker.base ∨
    ∃ k batch, entry.1 = tracker.base + k ∧ tracker.batches[k]? = some batch ∧ batch.commit = false
  order : ordered = true → gone.map Prod.fst = List.range tracker.base

section Tracks

variable {ordered : Bool} {sizes : List Nat} {settled : List (Slot × MessageDisposition)}
  {tracker : AckTracker} {gone : DueCommits}

theorem tracks_new (ordered : Bool) : Tracks ordered [] [] .new [] :=
  ⟨⟨nodup_nil, nofun⟩, rfl, nofun, nofun, nofun, nodup_nil, nofun, fun _ => rfl⟩

theorem Tracks.register (h : Tracks ordered sizes settled tracker gone) {len : Nat}
    (hLen : 0 < len) : (tracker.register len).2 = sizes.length ∧
      Tracks ordered (sizes ++ [len]) settled (tracker.register len).1 gone := by
  have hNone : settledOf settled sizes.length = [] := by
    refine eq_nil_iff_forall_not_mem.mpr fun idx hMem => ?_
    obtain ⟨disposition, hEntry⟩ := mem_settledOf.mp hMem
    obtain ⟨size, hSize, -⟩ := h.settlement.place _ hEntry
    exact lt_irrefl _ (List.getElem?_eq_some_iff.mp hSize).1
  have hSizes : ∀ {seq size : Nat}, seq < sizes.length → (sizes ++ [len])[seq]? = some size →
      sizes[seq]? = some size := fun hLt hSize => by
    rwa [getElem?_append_left hLt] at hSize
  have hMore : ∀ {seq size : Nat}, sizes[seq]? = some size → (sizes ++ [len])[seq]? = some size :=
    fun hSize => getElem?_snoc_eq_some.mpr (.inl hSize)
  refine ⟨h.total, ⟨h.settlement.nodup, fun entry hMem => ?_⟩, ?_, fun seq hSeq size hSize => ?_,
    fun k batch hBatch size hSize => ?_, fun entry hMem => ?_, h.once, fun entry hMem => ?_,
      h.order⟩
  · obtain ⟨size, hSize, hLt⟩ := h.settlement.place entry hMem
    exact ⟨size, hMore hSize, hLt⟩
  · rw [AckTracker.register, length_append, length_append, ← h.total]
    rfl
  · have hLt : seq < sizes.length := h.total ▸ Nat.lt_add_right _ hSeq
    exact h.popped seq hSeq size (hSizes hLt hSize)
  · rcases getElem?_snoc_eq_some.mp hBatch with hOld | ⟨rfl, rfl⟩
    · have hLt : tracker.base + k < sizes.length :=
        h.total ▸ Nat.add_lt_add_left (List.getElem?_eq_some_iff.mp hOld).1 _
      exact h.batches k batch hOld size (hSizes hLt hSize)
    · have hSize : (sizes ++ [len])[tracker.base + tracker.batches.length]? = some size := hSize
      rw [h.total, getElem?_concat_length] at hSize
      cases hSize
      have hTotal : (tracker.register len).1.base + tracker.batches.length = sizes.length := h.total
      rw [hTotal]
      refine ⟨by rw [hNone]; rfl, fun _ => ⟨length_replicate, fun entry hMem hSeq => ?_⟩,
        fun _ => rfl, fun _ => ⟨fun _ => Nat.pos_iff_ne_zero.mp hLen, fun _ => rfl⟩⟩
      obtain ⟨⟨seq, idx⟩, disposition⟩ := entry
      have hIdx : idx ∈ settledOf settled sizes.length :=
        mem_settledOf.mpr ⟨disposition, hSeq ▸ hMem⟩
      rw [hNone] at hIdx
      exact absurd hIdx not_mem_nil
  · obtain ⟨size, hSize, hAnswers⟩ := h.answers entry hMem
    exact ⟨size, hMore hSize, hAnswers⟩
  · refine (h.left entry hMem).imp_right ?_
    rintro ⟨k, batch, hSeq, hBatch, hCommit⟩
    exact ⟨k, batch, hSeq, getElem?_snoc_eq_some.mpr (.inl hBatch), hCommit⟩

variable {batch : InnerBatch} {slot : Slot} {disposition : MessageDisposition}

/-- A batch none of whose messages is settled by `more`. -/
theorem InnerBatch.Tracks.elsewhere (h : batch.Tracks ordered size settled seq)
    (hSeq : slot.seq ≠ seq) : batch.Tracks ordered size (settled ++ [(slot, disposition)]) seq := by
  have hSame : settledOf (settled ++ [(slot, disposition)]) seq = settledOf settled seq := by
    rw [settledOf_snoc, if_neg hSeq, append_nil]
  refine ⟨hSame ▸ h.remaining, fun hCommit => ?_, h.kept, h.taken⟩
  obtain ⟨hLength, hKnown⟩ := h.dispositions hCommit
  exact ⟨hLength, forall_mem_snoc hKnown fun hEq => absurd hEq hSeq⟩

/-- The batch of the message that is settled. -/
theorem InnerBatch.Tracks.here (h : batch.Tracks ordered size settled slot.seq)
    (disposition : MessageDisposition)
    (hNew : slot ∉ settled.map Prod.fst) (hLt : slot.idx < size) (hRemaining : batch.remaining ≠ 0)
    (hCommit : batch.commit = true) :
    batch.remaining - 1 + (settledOf (settled ++ [(slot, disposition)]) slot.seq).length = size ∧
      (batch.dispositions.set slot.idx disposition).length = size ∧
      ∀ entry ∈ settled ++ [(slot, disposition)], entry.1.seq = slot.seq →
        (batch.dispositions.set slot.idx disposition)[entry.1.idx]? = some entry.2 := by
  obtain ⟨hLength, hKnown⟩ := h.dispositions hCommit
  refine ⟨?_, length_set.trans hLength, forall_mem_snoc (fun entry hMem hSeq => ?_) fun _ => ?_⟩
  · have hSum := h.remaining
    rw [settledOf_snoc, if_pos rfl, length_append, length_singleton]
    omega
  · have hNe : slot.idx ≠ entry.1.idx := by
      intro hIdx
      have hSlot : entry.1 = slot := by
        cases hEntry : entry.1
        cases slot
        simp_all
      exact hNew (hSlot ▸ mem_map_of_mem hMem)
    rw [getElem?_set_ne hNe]
    exact hKnown entry hMem hSeq
  · exact getElem?_set_self (hLength.symm ▸ hLt)

section

variable (h : Tracks ordered sizes settled tracker gone)

include h

/-- A commit that is still there has not left. -/
theorem Tracks.notMem_gone {k : Nat}
    (hBatch : tracker.batches[k]? = some batch) (hCommit : batch.commit = true) :
    tracker.base + k ∉ gone.map Prod.fst := by
  intro hGone
  obtain ⟨entry, hMem, hEntry⟩ := mem_map.mp hGone
  rcases h.left entry hMem with hBefore | ⟨j, found, hJ, hFound, hGone⟩
  · omega
  · obtain rfl : j = k := by omega
    cases hBatch.symm.trans hFound
    rw [hCommit] at hGone
    cases hGone

/-- The batch of the message that is settled is put back, with its commit or
without. -/
theorem Tracks.put {k : Nat} (hNew : slot ∉ settled.map Prod.fst)
    (hSize : sizes[slot.seq]? = some size) (hLt : slot.idx < size)
    (hSeq : slot.seq = tracker.base + k)
    {old : InnerBatch} (hOld : tracker.batches[k]? = some old) (batch : InnerBatch)
    (hBatch : batch.Tracks ordered size (settled ++ [(slot, disposition)]) slot.seq)
    (hCommit : old.commit = true) : Tracks ordered sizes (settled ++ [(slot, disposition)])
      { tracker with batches := tracker.batches.set k batch } gone := by
  have hSettlement := h.settlement.snoc disposition hNew hSize hLt
  constructor
  case settlement => exact hSettlement
  case total => exact (congrArg (tracker.base + ·) length_set).trans h.total
  case popped =>
    intro seq hBefore other hOther
    refine le_antisymm (hSettlement.length_le hOther) ?_
    rw [settledOf_snoc, length_append, h.popped seq hBefore other hOther]
    exact Nat.le_add_right _ _
  case batches =>
    intro j found hFound other hOther
    rcases (getElem?_set_eq_some hOld).mp hFound with ⟨rfl, rfl⟩ | ⟨hNe, hFound⟩
    · rw [← hSeq, hSize] at hOther
      cases hOther
      exact hSeq ▸ hBatch
    · refine (h.batches j found hFound other hOther).elsewhere fun hSame => hNe ?_
      exact (add_left_cancel (hSeq.symm.trans hSame)).symm
  case answers =>
    intro entry hMem
    obtain ⟨size, hSize, hAnswer⟩ := h.answers entry hMem
    exact ⟨size, hSize, hAnswer.mono⟩
  case once => exact h.once
  case left =>
    intro entry hMem
    refine (h.left entry hMem).imp_right ?_
    rintro ⟨j, found, hEntry, hFound, hGone⟩
    have hNe : j ≠ k := by
      rintro rfl
      exact h.notMem_gone hOld hCommit (hEntry ▸ mem_map_of_mem hMem)
    exact ⟨j, found, hEntry, (getElem?_set_eq_some hOld).mpr (.inr ⟨hNe, hFound⟩), hGone⟩
  case order => exact h.order

/-- The commit of an unordered batch is taken out. -/
theorem Tracks.take {k : Nat} (hBatch : tracker.batches[k]? = some batch)
    (hTaken : batch.commit = false) (hUnordered : ordered = false) (hNew : seq ∉ gone.map Prod.fst)
    (hSeq : seq = tracker.base + k) (hSize : sizes[seq]? = some size)
    (hAnswer : Answers size settled seq dispositions) :
    Tracks ordered sizes settled tracker (gone ++ [(seq, dispositions)]) where
  __ := h
  answers := forall_mem_snoc h.answers ⟨size, hSize, hAnswer⟩
  once := by
    rw [map_append]
    exact nodup_snoc h.once hNew
  left := forall_mem_snoc h.left (.inr ⟨k, batch, hSeq, hBatch, hTaken⟩)
  order hOrdered := by
    rw [hUnordered] at hOrdered
    cases hOrdered

/-- A message that is settled for the first time. Its batch is still tracked,
so no index is out of range and no subtraction goes below zero. -/
theorem Tracks.settle (disposition : MessageDisposition) (hNew : slot ∉ settled.map Prod.fst)
    (hSize : sizes[slot.seq]? = some size) (hLt : slot.idx < size) :
    ∃ tracker' due, tracker.settle ordered slot disposition = some (tracker', due) ∧
      Tracks ordered sizes (settled ++ [(slot, disposition)]) tracker' (gone ++ due) ∧
      (ordered = true → due = []) := by
  have hOpen : (settledOf settled slot.seq).length < size := by
    refine lt_of_not_ge fun hAll => ?_
    obtain ⟨old, hMem⟩ := mem_settledOf.mp (h.settlement.mem_of_length hSize hAll hLt)
    exact hNew (mem_map_of_mem hMem)
  have hBase : ¬ slot.seq < tracker.base := fun hSeq => hOpen.ne (h.popped _ hSeq size hSize)
  obtain ⟨k, hSeq⟩ := Nat.exists_eq_add_of_le (Nat.le_of_not_lt hBase)
  have hK : k < tracker.batches.length := by
    have hIn := (List.getElem?_eq_some_iff.mp hSize).1
    have hTotal := h.total
    omega
  obtain ⟨batch, hBatch⟩ : ∃ batch, tracker.batches[k]? = some batch := ⟨_, getElem?_eq_getElem hK⟩
  have hTracks : batch.Tracks ordered size settled slot.seq :=
    hSeq ▸ h.batches k batch hBatch size (hSeq ▸ hSize)
  have hRemaining : batch.remaining ≠ 0 := by
    have hSum := hTracks.remaining
    omega
  have hCommit : batch.commit = true := by
    cases hOrdered : ordered with
    | true => exact hTracks.kept hOrdered
    | false => exact (hTracks.taken hOrdered).mpr hRemaining
  obtain ⟨hSum, hLength, hKnown⟩ := hTracks.here disposition hNew hLt hRemaining hCommit
  have hDistance : slot.seq - tracker.base = k := by omega
  have hFits : ¬(batch.dispositions.length ≤ slot.idx ∨ batch.remaining = 0) := by
    rw [(hTracks.dispositions hCommit).1]
    omega
  rw [AckTracker.settle, if_neg hBase, hDistance, hBatch]
  simp only [if_neg hFits]
  by_cases hDue : (!ordered && decide (batch.remaining - 1 = 0) && batch.commit) = true
  · obtain ⟨⟨hUnordered, hZero⟩, -⟩ := by
      simpa only [Bool.and_eq_true, Bool.not_eq_true', decide_eq_true_eq] using hDue
    have hAnswer :=
      (h.settlement.snoc disposition hNew hSize hLt).answers hSize (by omega) hLength hKnown
    rw [if_pos hDue]
    refine ⟨_, _, rfl, ?_, fun hOrdered => ?_⟩
    · have hPut := h.put hNew hSize hLt hSeq hBatch ⟨false, [], batch.remaining - 1⟩
        ⟨hSum, fun hOpen => absurd hOpen Bool.false_ne_true, fun hOrdered => ?_, fun _ =>
          ?_⟩ hCommit
      · exact hPut.take ((getElem?_set_eq_some hBatch).mpr (.inl ⟨rfl, rfl⟩)) rfl hUnordered
          (hSeq ▸ h.notMem_gone hBatch hCommit) hSeq hSize hAnswer
      · rw [hUnordered] at hOrdered
        cases hOrdered
      · exact ⟨fun hOpen => absurd hOpen Bool.false_ne_true, absurd hZero⟩
    · rw [hUnordered] at hOrdered
      cases hOrdered
  · rw [if_neg hDue]
    refine ⟨_, _, rfl, ?_, fun _ => rfl⟩
    rw [append_nil]
    refine h.put hNew hSize hLt hSeq hBatch ⟨batch.commit, _, batch.remaining - 1⟩
      ⟨hSum, fun _ => ⟨hLength, hKnown⟩, fun _ => hCommit,
        fun hUnordered => ⟨fun _ hZero => hDue ?_, fun _ => hCommit⟩⟩ hCommit
    rw [hUnordered, hCommit, decide_eq_true hZero]
    rfl

end

/-- Due commits that never run. -/
theorem Tracks.forget {due : DueCommits} (h : Tracks ordered sizes settled tracker (gone ++ due))
    (hDue : ordered = true → due = []) : Tracks ordered sizes settled tracker gone where
  __ := h
  answers entry hMem := h.answers entry (mem_append_left _ hMem)
  once := h.once.sublist ((sublist_append_left gone due).map Prod.fst)
  left entry hMem := h.left entry (mem_append_left _ hMem)
  order hOrdered := by
    rw [← h.order hOrdered, hDue hOrdered, append_nil]

/-- Messages that are settled one after another. -/
theorem Tracks.settleAll (h : Tracks ordered sizes settled tracker gone)
    {entries : List (Slot × MessageDisposition)}
    (hNew : (settled.map Prod.fst ++ entries.map Prod.fst).Nodup)
    (hPlace : ∀ entry ∈ entries, ∃ size, sizes[entry.1.seq]? = some size ∧ entry.1.idx < size) :
    ∃ tracker' due, tracker.settleAll ordered entries = some (tracker', due) ∧
      Tracks ordered sizes (settled ++ entries) tracker' (gone ++ due) ∧
      (ordered = true → due = []) := by
  induction entries generalizing settled tracker gone with
  | nil => exact ⟨tracker, [], rfl, by simpa only [append_nil] using h, fun _ => rfl⟩
  | cons entry rest ih =>
    obtain ⟨slot, disposition⟩ := entry
    obtain ⟨size, hSize, hLt⟩ := hPlace _ mem_cons_self
    have hFirst : slot ∉ settled.map Prod.fst := fun hMem =>
      (nodup_append.mp hNew).2.2 slot hMem slot mem_cons_self rfl
    obtain ⟨middle, due, hSettle, hMiddle, hNone⟩ := h.settle disposition hFirst hSize hLt
    obtain ⟨last, later, hAll, hLast, hNoneLater⟩ := ih hMiddle (by simpa using hNew)
      fun entry hMem => hPlace entry (mem_cons_of_mem _ hMem)
    refine ⟨last, due ++ later, ?_, ?_, fun hOrdered => ?_⟩
    · simp only [AckTracker.settleAll, hSettle, hAll, Option.bind_some, Option.map_some]
    · simpa only [append_assoc, singleton_append] using hLast
    · rw [hNone hOrdered, hNoneLater hOrdered]
      rfl

/-- The batch in front leaves the tracker, with its commit if that is there. -/
theorem Tracks.popFront {base : Nat} {rest : List InnerBatch}
    (h : Tracks ordered sizes settled ⟨base, batch :: rest⟩ gone) (hZero : batch.remaining = 0) :
    Tracks ordered sizes settled ⟨base + 1, rest⟩
      (gone ++ if batch.commit then [(base, batch.dispositions)] else []) := by
  have hIn : base < sizes.length := by
    have hTotal := h.total
    simp only [length_cons] at hTotal
    omega
  obtain ⟨size, hSize⟩ : ∃ size, sizes[base]? = some size := ⟨_, getElem?_eq_getElem hIn⟩
  have hTracks := h.batches 0 batch rfl size hSize
  have hAll : (settledOf settled base).length = size := by
    have hSum := hTracks.remaining
    simp only [add_zero] at hSum
    omega
  have hLeft : ∀ entry ∈ gone, entry.1 < base + 1 ∨ ∃ k found, entry.1 = base + 1 + k ∧
      rest[k]? = some found ∧ found.commit = false := by
    intro entry hMem
    rcases h.left entry hMem with hBefore | ⟨k, found, hEntry, hFound, hGone⟩
    · exact .inl (Nat.lt_succ_of_lt hBefore)
    · cases k with
      | zero => exact .inl (hEntry ▸ Nat.lt_succ_self _)
      | succ k => exact .inr ⟨k, found, hEntry.trans (by dsimp only; omega), hFound, hGone⟩
  constructor
  case settlement => exact h.settlement
  case total =>
    have hTotal := h.total
    simp only [length_cons] at hTotal ⊢
    omega
  case popped =>
    intro seq hBefore other hOther
    rcases Nat.lt_succ_iff_lt_or_eq.mp hBefore with hLt | rfl
    · exact h.popped seq hLt other hOther
    · exact hAll.trans (Option.some.inj (hSize.symm.trans hOther))
  case batches =>
    intro k found hFound other hOther
    have hShift : base + 1 + k = base + (k + 1) := by omega
    exact hShift ▸ h.batches (k + 1) found hFound other (hShift ▸ hOther)
  case answers =>
    cases hCommit : batch.commit with
    | false => exact (append_nil gone).symm ▸ h.answers
    | true =>
      obtain ⟨hLength, hKnown⟩ := hTracks.dispositions hCommit
      exact forall_mem_snoc h.answers
        ⟨size, hSize, h.settlement.answers hSize hAll.ge hLength hKnown⟩
  case once =>
    cases hCommit : batch.commit with
    | false => exact (append_nil gone).symm ▸ h.once
    | true =>
      rw [map_append]
      exact nodup_snoc h.once (h.notMem_gone (k := 0) rfl hCommit)
  case left =>
    cases hCommit : batch.commit with
    | false => exact (append_nil gone).symm ▸ hLeft
    | true => exact forall_mem_snoc hLeft (.inl (Nat.lt_succ_self base))
  case order =>
    intro hOrdered
    rw [if_pos (hTracks.kept hOrdered), map_append, h.order hOrdered]
    exact range_succ.symm

variable (h : Tracks ordered sizes settled tracker gone)

include h

theorem Tracks.popDue :
    Tracks ordered sizes settled tracker.popDue.2 (gone ++ tracker.popDue.1.toList) := by
  obtain ⟨base, batches⟩ := tracker
  simp only [AckTracker.popDue]
  induction batches generalizing base with
  | nil => simpa only [AckTracker.popDueFrom, Option.toList_none, append_nil] using h
  | cons batch rest ih =>
    rw [AckTracker.popDueFrom]
    by_cases hZero : batch.remaining = 0
    · have hPopped := h.popFront hZero
      cases hCommit : batch.commit with
      | false =>
        simp only [hCommit, Bool.false_eq_true, if_false, append_nil] at hPopped
        simpa only [hZero, if_true, Bool.false_eq_true, if_false] using ih (base + 1) hPopped
      | true =>
        simp only [hCommit] at hPopped
        simpa only [hZero, if_true, Option.toList_some] using hPopped
    · simpa only [hZero, if_false, Option.toList_none, append_nil] using h

theorem Tracks.popAll (fuel : Nat) :
    Tracks ordered sizes settled (tracker.popAll fuel).2 (gone ++ (tracker.popAll fuel).1) := by
  induction fuel generalizing tracker gone with
  | zero => simpa only [AckTracker.popAll, append_nil] using h
  | succ fuel ih =>
    have hPopped := h.popDue
    rw [AckTracker.popAll]
    split
    case h_1 middle hDue =>
      simpa only [hDue, Option.toList_none] using hPopped
    case h_2 due middle hDue =>
      rw [hDue] at hPopped
      simpa only [Option.toList_some, append_assoc, singleton_append] using ih hPopped

end Tracks

end MqBridge.WeakJoin
