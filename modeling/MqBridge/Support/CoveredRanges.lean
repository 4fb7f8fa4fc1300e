import Mathlib.Data.List.Sort
import MqBridge.Collections.IntervalSet
import MqBridge.Collections.SortedMap
import MqBridge.Support.SourcePosition

/-! The source positions that an idempotent sink has already written, as
sorted lists of ranges, one list for each partition. -/
namespace MqBridge

open List

open Collections

def rangeLe (a b : UInt64 × UInt64) : Prop := toLex a ≤ toLex b

instance : DecidableRel rangeLe := fun a b => inferInstanceAs (Decidable (toLex a ≤ toLex b))

instance : Std.Total rangeLe := ⟨fun a b => le_total (toLex a) (toLex b)⟩

instance : IsTrans (UInt64 × UInt64) rangeLe := ⟨fun _ _ _ => le_trans⟩

structure CoveredRanges where
  ranges : SortedMap SourcePartition (List (UInt64 × UInt64))

namespace CoveredRanges

def new : CoveredRanges := ⟨SortedMap.empty⟩

def of (covered : CoveredRanges) (source : SourcePartition) : List (UInt64 × UInt64) :=
  (covered.ranges.lookup source).getD []

/-- Adds one range to a list and merges the ranges that overlap or touch. -/
def insertRange (ranges : List (UInt64 × UInt64)) (start last : UInt64) :
    List (UInt64 × UInt64) :=
  IntervalSet.coalesce ((ranges ++ [(start, last)]).insertionSort rangeLe)

/-- An empty range is refused and changes nothing. -/
def insert (covered : CoveredRanges) (source : SourcePartition) (start last : UInt64) :
    Except String CoveredRanges :=
  if last < start then
    .error ("invalid covered source-position range " ++ toString start ++ "..=" ++ toString last)
  else
    .ok ⟨covered.ranges.alter source fun ranges => insertRange (ranges.getD []) start last⟩

def insertAll (covered : CoveredRanges) :
    List (SourcePartition × UInt64 × UInt64) → Except String CoveredRanges
  | [] => .ok covered
  | (source, start, last) :: rest =>
    (covered.insert source start last).bind fun covered => covered.insertAll rest

def toList (covered : CoveredRanges) : List (SourcePartition × UInt64 × UInt64) :=
  covered.ranges.entries.flatMap fun entry => entry.2.map fun range => (entry.1, range)

def merge (covered other : CoveredRanges) : Except String CoveredRanges :=
  covered.insertAll other.toList

def contains (covered : CoveredRanges) (position : SourcePosition) : Bool :=
  match covered.ranges.lookup position.source with
  | some ranges => ranges.any fun range =>
    decide (range.1 ≤ position.offset) && decide (position.offset ≤ range.2)
  | none => false

theorem contains_iff {covered : CoveredRanges} {position : SourcePosition} :
    covered.contains position = true ↔
      IntervalSet.Covers (covered.of position.source) position.offset := by
  rw [contains, of, IntervalSet.Covers]
  cases covered.ranges.lookup position.source with
  | none | some => simp

def Normal (covered : CoveredRanges) : Prop :=
  ∀ source, IntervalSet.Normal (covered.of source)

theorem normal_new : new.Normal := fun _ => IntervalSet.normal_nil

theorem contains_new (position : SourcePosition) : new.contains position = false := rfl

theorem insertRange_spec {ranges : List (UInt64 × UInt64)} {start last : UInt64}
    (hNormal : IntervalSet.Normal ranges) (hRange : start ≤ last) :
    IntervalSet.Normal (insertRange ranges start last) ∧
      ∀ p, IntervalSet.Covers (insertRange ranges start last) p ↔
        IntervalSet.Covers ranges p ∨ (start ≤ p ∧ p ≤ last) := by
  have hPerm := perm_insertionSort rangeLe (ranges ++ [(start, last)])
  have hValid : ∀ r ∈ (ranges ++ [(start, last)]).insertionSort rangeLe, r.1 ≤ r.2 := by
    exact fun r hMem => Places.forall_mem_snoc hNormal.valid hRange r (hPerm.mem_iff.mp hMem)
  have hSorted := (pairwise_insertionSort rangeLe (ranges ++ [(start, last)])).imp
    fun {a b} (hLe : rangeLe a b) => Prod.Lex.monotone_fst a b hLe
  obtain ⟨hMerged, hCovers⟩ := IntervalSet.coalesce_spec hValid hSorted
  refine ⟨hMerged, fun p => ?_⟩
  rw [insertRange, hCovers p, IntervalSet.covers_perm hPerm, IntervalSet.covers_append,
    IntervalSet.covers_singleton]

def Holds (range : SourcePartition × UInt64 × UInt64) (position : SourcePosition) : Prop :=
  range.1 = position.source ∧ range.2.1 ≤ position.offset ∧ position.offset ≤ range.2.2

/-- One insertion adds exactly the positions of its range. -/
theorem insert_spec {covered : CoveredRanges} (hNormal : covered.Normal)
    (source : SourcePartition) {start last : UInt64} (hRange : start ≤ last) :
    ∃ inserted, covered.insert source start last = .ok inserted ∧ inserted.Normal ∧
      ∀ position, inserted.contains position = true ↔
        covered.contains position = true ∨ Holds (source, start, last) position := by
  obtain ⟨hMerged, hCovers⟩ := insertRange_spec (hNormal source) hRange
  have hOf : ∀ other, of ⟨covered.ranges.alter source fun ranges =>
      insertRange (ranges.getD []) start last⟩ other =
        if other = source then insertRange (covered.of source) start last
        else covered.of other := by
    intro other
    rw [of, SortedMap.lookup_alter]
    split_ifs <;> rfl
  refine ⟨_, if_neg (not_lt.mpr hRange), fun other => ?_, fun position => ?_⟩
  · rw [hOf]
    split_ifs
    · exact hMerged
    · exact hNormal other
  · rw [contains_iff, contains_iff, hOf, Holds]
    split_ifs with hSame
    · rw [hCovers, hSame]
      simp only [true_and]
    · simp only [Ne.symm hSame, false_and, or_false]

/-- The same for a list of ranges. -/
theorem insertAll_spec {covered : CoveredRanges} (hNormal : covered.Normal)
    {ranges : List (SourcePartition × UInt64 × UInt64)}
    (hRanges : ∀ range ∈ ranges, range.2.1 ≤ range.2.2) :
    ∃ inserted, covered.insertAll ranges = .ok inserted ∧ inserted.Normal ∧
      ∀ position, inserted.contains position = true ↔
        covered.contains position = true ∨ ∃ range ∈ ranges, Holds range position := by
  induction ranges generalizing covered with
  | nil => exact ⟨covered, rfl, hNormal, fun position => by simp⟩
  | cons range rest ih =>
    obtain ⟨source, start, last⟩ := range
    obtain ⟨next, hInsert, hNext, hFirst⟩ :=
      insert_spec hNormal source (hRanges _ (mem_cons_self ..))
    obtain ⟨inserted, hAll, hInserted, hLater⟩ :=
      ih hNext fun range hMem => hRanges range (mem_cons_of_mem _ hMem)
    refine ⟨inserted, ?_, hInserted, fun position => ?_⟩
    · rw [insertAll, hInsert]
      exact hAll
    · rw [hLater, hFirst, or_assoc]
      simp only [mem_cons, or_and_right, exists_or, exists_eq_left]

theorem mem_toList {covered : CoveredRanges} {range : SourcePartition × UInt64 × UInt64} :
    range ∈ covered.toList ↔ range.2 ∈ covered.of range.1 := by
  obtain ⟨source, range⟩ := range
  rw [toList, mem_flatMap, of]
  constructor
  · rintro ⟨⟨key, ranges⟩, hEntry, hMem⟩
    obtain ⟨found, hFound, hSame⟩ := mem_map.mp hMem
    cases hSame
    rw [SortedMap.mem_entries_iff.mp hEntry]
    exact hFound
  · intro hMem
    cases hLookup : covered.ranges.lookup source with
    | none =>
      rw [hLookup] at hMem
      cases hMem
    | some ranges =>
      rw [hLookup] at hMem
      exact ⟨(source, ranges), SortedMap.mem_entries_iff.mpr hLookup,
        mem_map.mpr ⟨range, hMem, rfl⟩⟩

/-- A merge adds exactly what the other set contains. -/
theorem merge_spec {covered other : CoveredRanges} (hNormal : covered.Normal)
    (hOther : other.Normal) : ∃ merged, covered.merge other = .ok merged ∧ merged.Normal ∧
      ∀ position, merged.contains position = true ↔
        covered.contains position = true ∨ other.contains position = true := by
  have hRanges : ∀ range ∈ other.toList, range.2.1 ≤ range.2.2 := fun range hMem =>
    (hOther range.1).valid range.2 (mem_toList.mp hMem)
  obtain ⟨merged, hMerge, hMerged, hContains⟩ := insertAll_spec hNormal hRanges
  refine ⟨merged, hMerge, hMerged, fun position => ?_⟩
  rw [hContains, (contains_iff : other.contains position = true ↔ _)]
  refine or_congr_right ⟨?_, ?_⟩
  · rintro ⟨⟨source, range⟩, hMem, hSrc, hIn⟩
    cases hSrc
    exact ⟨range, mem_toList.mp hMem, hIn⟩
  · rintro ⟨range, hMem, hIn⟩
    exact ⟨(position.source, range), mem_toList.mpr hMem, rfl, hIn⟩

/-- How a set comes about: from insertions of nonempty ranges and from merges
of sets that came about in the same way. -/
inductive Build where
  | new
  | insert (before : Build) (source : SourcePartition) (start last : UInt64)
      (nonempty : start ≤ last)
  | merge (before other : Build)

namespace Build

def covered : Build → Except String CoveredRanges
  | new => .ok CoveredRanges.new
  | insert before source start last _ =>
    before.covered.bind fun set => set.insert source start last
  | merge before other =>
    before.covered.bind fun set => other.covered.bind fun merged => set.merge merged

def inserted : Build → List (SourcePartition × UInt64 × UInt64)
  | new => []
  | insert before source start last _ => before.inserted ++ [(source, start, last)]
  | merge before other => before.inserted ++ other.inserted

theorem covered_spec (build : Build) : ∃ set, build.covered = .ok set ∧ set.Normal ∧
      ∀ position, set.contains position = true ↔
        ∃ range ∈ build.inserted, Holds range position := by
  induction build with
  | new =>
    refine ⟨.new, rfl, normal_new, fun position => ?_⟩
    simp [contains_new, inserted]
  | insert before source start last nonempty ih =>
    obtain ⟨set, hBefore, hNormal, hSet⟩ := ih
    obtain ⟨next, hInsert, hNext, hContains⟩ := insert_spec hNormal source nonempty
    refine ⟨next, ?_, hNext, fun position => ?_⟩
    · rw [covered, hBefore]
      exact hInsert
    · rw [hContains, hSet, inserted]
      simp only [mem_append, mem_singleton, or_and_right, exists_or, exists_eq_left]
  | merge before other ihBefore ihOther =>
    obtain ⟨set, hBefore, hNormal, hSet⟩ := ihBefore
    obtain ⟨second, hOther, hSecond, hOtherSet⟩ := ihOther
    obtain ⟨merged, hMerge, hMerged, hContains⟩ := merge_spec hNormal hSecond
    refine ⟨merged, ?_, hMerged, fun position => ?_⟩
    · rw [covered, hBefore, hOther]
      exact hMerge
    · rw [hContains, hSet, hOtherSet, inserted]
      simp only [mem_append, or_and_right, exists_or]

end Build

theorem succ_lt_iff {a b : UInt64} : Order.succ a < b ↔ a.toNat + 1 < b.toNat := by
  have hLt := b.toNat_lt
  have hMax : u64Max.toNat = 18446744073709551615 := rfl
  change saturatingSucc a < b ↔ _
  rw [UInt64.lt_iff_toNat_lt, saturatingSucc_toNat]
  omega

/-- A set contains exactly the positions of the ranges that went into it, and
its lists are sorted, disjoint and without neighbours. -/
theorem contains_exactly (build : Build) : ∃ set, build.covered = .ok set ∧
      (∀ position, set.contains position = true ↔ ∃ range ∈ build.inserted, Holds range position) ∧
      ∀ source, (∀ range ∈ set.of source, range.1 ≤ range.2) ∧
        (set.of source).Pairwise fun a b => a.2.toNat + 1 < b.1.toNat := by
  obtain ⟨set, hSet, hNormal, hContains⟩ := build.covered_spec
  refine ⟨set, hSet, hContains, fun source => ⟨(hNormal source).valid, ?_⟩⟩
  exact (hNormal source).apart.imp succ_lt_iff.mp

end CoveredRanges

end MqBridge
