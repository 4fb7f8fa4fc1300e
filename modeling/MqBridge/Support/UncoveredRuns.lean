import MqBridge.Support.CoveredRanges

/-! The runs of a batch that an idempotent sink still has to write: the
messages at uncovered positions, by partition and position, cut where the
positions are not consecutive. -/
namespace MqBridge

open List Option

open Collections SourcePosition SortedMap

structure SourceRun where
  source : SourcePartition
  start : UInt64
  last : UInt64
  messages : List CanonicalMessage

abbrev Grouped := SortedMap SourcePartition (SortedMap UInt64 CanonicalMessage)

namespace CoveredRanges

/-- The uncovered messages by partition and offset. A second message at a
position replaces the first. -/
def group (covered : CoveredRanges) : Grouped → List CanonicalMessage → Except String Grouped
  | grouped, [] => .ok grouped
  | grouped, message :: rest =>
    (SourcePosition.fromMessage message).bind fun position =>
      if covered.contains position then covered.group grouped rest
      else
        covered.group (grouped.alter position.source fun offsets =>
          (offsets.getD SortedMap.empty).alter position.offset fun _ => message) rest

/-- Cuts the messages of one partition into runs; `current` is the run that
may still grow. -/
def runsOf (source : SourcePartition) :
    Option SourceRun → List (UInt64 × CanonicalMessage) → List SourceRun
  | current, [] => current.toList
  | none, (offset, message) :: rest => runsOf source (some ⟨source, offset, offset, [message]⟩) rest
  | some run, (offset, message) :: rest =>
    if offset = saturatingSucc run.last then
      runsOf source
        (some { run with last := offset, messages := run.messages ++ [message] }) rest
    else run :: runsOf source (some ⟨source, offset, offset, [message]⟩) rest

def runs (grouped : Grouped) : List SourceRun :=
  grouped.entries.flatMap fun entry => runsOf entry.1 none entry.2.entries

def uncoveredRuns (covered : CoveredRanges) (messages : List CanonicalMessage) :
    Except String (List SourceRun) :=
  (covered.group SortedMap.empty messages).map runs

/-! ### Cutting sorted offsets into runs -/

structure IsRun (source : SourcePartition) (chunk : List (UInt64 × CanonicalMessage))
    (run : SourceRun) : Prop where
  source : run.source = source
  messages : run.messages = chunk.map Prod.snd
  offsets : chunk.map (fun entry => entry.1.toNat) = List.range' run.start.toNat chunk.length
  nonempty : 0 < chunk.length
  last : run.last.toNat + 1 = run.start.toNat + chunk.length

/-- The runs are the entries, cut at every gap. -/
inductive Tiles (source : SourcePartition) :
    List (UInt64 × CanonicalMessage) → List SourceRun → Prop
  | nil : Tiles source [] []
  | cons {chunk rest : List (UInt64 × CanonicalMessage)} {run : SourceRun}
      {runs : List SourceRun} (isRun : IsRun source chunk run)
      (gap : ∀ entry ∈ rest, run.last.toNat + 1 < entry.1.toNat)
      (tiles : Tiles source rest runs) : Tiles source (chunk ++ rest) (run :: runs)

theorem isRun_singleton (source : SourcePartition) (offset : UInt64) (message : CanonicalMessage) :
    IsRun source [(offset, message)] ⟨source, offset, offset, [message]⟩ :=
  ⟨rfl, rfl, rfl, Nat.zero_lt_one, rfl⟩

theorem eq_saturatingSucc_iff {a b : UInt64} (hLess : a < b) :
    b = saturatingSucc a ↔ b.toNat = a.toNat + 1 := by
  have hLt := b.toNat_lt
  have hMax : u64Max.toNat = 18446744073709551615 := rfl
  rw [UInt64.lt_iff_toNat_lt] at hLess
  rw [← UInt64.toNat_inj, saturatingSucc_toNat]
  omega

variable {source : SourcePartition} {run : SourceRun} {chunk : List (UInt64 × CanonicalMessage)}
    {offset : UInt64}

theorem IsRun.snoc (h : IsRun source chunk run)
    (hNext : offset.toNat = run.last.toNat + 1) (message : CanonicalMessage) :
    IsRun source (chunk ++ [(offset, message)])
      { run with last := offset, messages := run.messages ++ [message] } := by
  have hLast := h.last
  refine ⟨h.source, ?_, ?_, ?_, ?_⟩
  · rw [map_append, h.messages]
    rfl
  · rw [map_append, h.offsets, length_append, length_singleton, range'_1_concat]
    simp only [map_cons, map_nil]
    rw [hNext, hLast]
  · rw [length_append]
    exact Nat.succ_pos _
  · rw [length_append, length_singleton]
    simp only
    omega

theorem runsOf_some_tiles {chunk rest : List (UInt64 × CanonicalMessage)}
    (hRun : IsRun source chunk run)
    (hSorted : rest.Pairwise fun a b => a.1 < b.1) (hBehind : ∀ entry ∈ rest, run.last < entry.1) :
    Tiles source (chunk ++ rest) (runsOf source (some run) rest) := by
  induction rest generalizing chunk run with
  | nil => exact .cons hRun nofun .nil
  | cons entry rest ih =>
    obtain ⟨offset, message⟩ := entry
    obtain ⟨hFirst, hLater⟩ := pairwise_cons.mp hSorted
    have hOffset : run.last < offset := hBehind _ (mem_cons_self ..)
    rw [runsOf]
    split_ifs with hNext
    · rw [← singleton_append, ← append_assoc]
      exact ih (hRun.snoc ((eq_saturatingSucc_iff hOffset).mp hNext) message) hLater hFirst
    · refine .cons hRun (fun later hMem => ?_)
        (ih (isRun_singleton source offset message) hLater hFirst)
      have hGap : run.last.toNat + 1 < offset.toNat := by
        rw [eq_saturatingSucc_iff hOffset] at hNext
        rw [UInt64.lt_iff_toNat_lt] at hOffset
        omega
      rcases mem_cons.mp hMem with rfl | hRest
      · exact hGap
      · exact hGap.trans (UInt64.lt_iff_toNat_lt.mp (hFirst later hRest))

theorem runsOf_tiles (source : SourcePartition) {entries : List (UInt64 × CanonicalMessage)}
    (hSorted : entries.Pairwise fun a b => a.1 < b.1) :
    Tiles source entries (runsOf source none entries) := by
  cases entries with
  | nil => exact .nil
  | cons entry rest =>
    obtain ⟨offset, message⟩ := entry
    obtain ⟨hFirst, hLater⟩ := pairwise_cons.mp hSorted
    exact runsOf_some_tiles (isRun_singleton source offset message) hLater hFirst

variable {message : CanonicalMessage}

section

variable (h : IsRun source chunk run)

include h

/-- An entry of a run, at its place. -/
theorem IsRun.entry {i : Nat} {entry : UInt64 × CanonicalMessage}
    (hEntry : chunk[i]? = some entry) :
    i < chunk.length ∧ entry.1.toNat = run.start.toNat + i ∧ run.messages[i]? = some entry.2 := by
  obtain ⟨hIdx, -⟩ := List.getElem?_eq_some_iff.mp hEntry
  have hOffset := congrArg (fun offsets => offsets[i]?) h.offsets
  simp only [getElem?_map, hEntry, getElem?_range' hIdx] at hOffset
  refine ⟨hIdx, by simpa using hOffset, ?_⟩
  rw [h.messages, getElem?_map, hEntry, map_some]

/-- The offset of an entry is between the ends of its run, and says its place. -/
theorem IsRun.place (hMem : (offset, message) ∈ chunk) : run.start ≤ offset ∧ offset ≤ run.last ∧
      run.messages[offset.toNat - run.start.toNat]? = some message := by
  have hLast := h.last
  obtain ⟨i, hEntry⟩ := mem_iff_getElem?.mp hMem
  obtain ⟨hIdx, hOffset, hMsg⟩ := h.entry hEntry
  rw [UInt64.le_iff_toNat_le, UInt64.le_iff_toNat_le, hOffset, Nat.add_sub_cancel_left]
  exact ⟨by omega, by omega, hMsg⟩

theorem IsRun.exists_mem (hLow : run.start ≤ offset)
    (hHigh : offset ≤ run.last) : ∃ message, (offset, message) ∈ chunk := by
  have hLast := h.last
  rw [UInt64.le_iff_toNat_le] at hLow hHigh
  have hIdx : offset.toNat - run.start.toNat < chunk.length := by omega
  obtain ⟨⟨first, message⟩, hEntry⟩ :
      ∃ entry, chunk[offset.toNat - run.start.toNat]? = some entry :=
    ⟨_, getElem?_eq_getElem hIdx⟩
  have hOffset : first.toNat = _ := (h.entry hEntry).2.1
  obtain rfl : first = offset := UInt64.toNat_inj.mp (by omega)
  exact ⟨message, mem_of_getElem? hEntry⟩

end

section Tiles
variable {source : SourcePartition} {entries : List (UInt64 × CanonicalMessage)}
  {runs : List SourceRun}

theorem Tiles.exists_chunk (h : Tiles source entries runs) (hRun : run ∈ runs) :
    ∃ chunk, IsRun source chunk run ∧ chunk ⊆ entries := by
  induction h with
  | nil => cases hRun
  | @cons chunk rest first runs isRun gap tiles ih =>
    rcases mem_cons.mp hRun with rfl | hLater
    · exact ⟨chunk, isRun, subset_append_left _ _⟩
    · obtain ⟨found, hFound, hSub⟩ := ih hLater
      exact ⟨found, hFound, subset_append_of_subset_right _ hSub⟩

theorem IsRun.start_le_last (h : IsRun source chunk run) : run.start ≤ run.last := by
  have hLast := h.last
  have hPos := h.nonempty
  rw [UInt64.le_iff_toNat_le]
  omega

theorem Tiles.apart (h : Tiles source entries runs) :
    runs.Pairwise fun a b => a.last.toNat + 1 < b.start.toNat := by
  induction h with
  | nil => exact .nil
  | @cons chunk rest first runs isRun gap tiles ih =>
    refine pairwise_cons.mpr ⟨fun run hRun => ?_, ih⟩
    obtain ⟨found, hFound, hSub⟩ := tiles.exists_chunk hRun
    obtain ⟨message, hStart⟩ := hFound.exists_mem (le_refl _) hFound.start_le_last
    exact gap _ (hSub hStart)

theorem Tiles.exists_run (h : Tiles source entries runs) {entry : UInt64 × CanonicalMessage}
    (hEntry : entry ∈ entries) : ∃ run ∈ runs, ∃ chunk, IsRun source chunk run ∧ entry ∈ chunk := by
  induction h with
  | nil => cases hEntry
  | @cons chunk rest first runs isRun gap tiles ih =>
    rcases mem_append.mp hEntry with hFirst | hLater
    · exact ⟨first, mem_cons_self .., chunk, isRun, hFirst⟩
    · obtain ⟨run, hRun, hFound⟩ := ih hLater
      exact ⟨run, mem_cons_of_mem _ hRun, hFound⟩

end Tiles

/-! ### Grouping a batch -/

def messageAt (grouped : Grouped) (position : SourcePosition) : Option CanonicalMessage :=
  (grouped.lookup position.source).bind fun offsets => offsets.lookup position.offset

def lastAt (messages : List CanonicalMessage) (position : SourcePosition) :
    Option CanonicalMessage :=
  (messages.filter fun message =>
    decide (SourcePosition.fromMessage message = .ok position)).getLast?

theorem messageAt_alter (grouped : Grouped) (position other : SourcePosition)
    (message : CanonicalMessage) : messageAt (grouped.alter position.source fun offsets =>
      (offsets.getD empty).alter position.offset fun _ => message) other =
        if other = position then some message else messageAt grouped other := by
  obtain ⟨source, offset⟩ := position
  obtain ⟨otherSource, otherOffset⟩ := other
  simp only [messageAt, lookup_alter, SourcePosition.mk.injEq]
  by_cases hSrc : otherSource = source
  · subst hSrc
    simp only [if_true, bind_some, lookup_alter, true_and]
    split_ifs with hOffset
    · rfl
    · cases grouped.lookup otherSource <;> rfl
  · simp only [hSrc, if_false, false_and]

theorem lastAt_cons (message : CanonicalMessage) (rest : List CanonicalMessage)
    (position : SourcePosition) : lastAt (message :: rest) position = (lastAt rest position).or
      (if fromMessage message = .ok position then some message else none) := by
  rw [lastAt, filter_cons]
  split_ifs with hHere hIs hIs
  · rw [getLast?_cons, ← lastAt]
    cases lastAt rest position <;> rfl
  · exact absurd (of_decide_eq_true hHere) hIs
  · exact absurd (decide_eq_true hIs) hHere
  · rw [← lastAt, or_none]

variable {messages : List CanonicalMessage}

/-- Grouping keeps the last message of every uncovered position. -/
theorem group_spec (covered : CoveredRanges) (hPositions : ∀ message ∈ messages, ∃ position,
      fromMessage message = .ok position) (grouped : Grouped) :
    ∃ result, covered.group grouped messages = .ok result ∧
      ∀ position, messageAt result position =
        if covered.contains position then messageAt grouped position
        else (lastAt messages position).or (messageAt grouped position) := by
  induction messages generalizing grouped with
  | nil => exact ⟨grouped, rfl, fun position => by simp [lastAt]⟩
  | cons message rest ih =>
    obtain ⟨here, hHere⟩ := hPositions message (mem_cons_self ..)
    have hRest := fun m hMem => hPositions m (mem_cons_of_mem _ hMem)
    by_cases hCovered : covered.contains here = true
    · obtain ⟨result, hRes, hAt⟩ := ih hRest grouped
      refine ⟨result, ?_, fun position => ?_⟩
      · simp only [group, hHere, Except.bind, hCovered]
        exact hRes
      · rw [hAt, lastAt_cons, hHere]
        split_ifs with hPosition hSame
        · rfl
        · cases hSame
          exact absurd hCovered hPosition
        · rw [or_none]
    · obtain ⟨result, hRes, hAt⟩ := ih hRest (grouped.alter here.source fun offsets =>
        (offsets.getD empty).alter here.offset fun _ => message)
      refine ⟨result, ?_, fun position => ?_⟩
      · simp only [group, hHere, Except.bind, hCovered]
        exact hRes
      · rw [hAt, lastAt_cons, messageAt_alter, hHere]
        simp only [Except.ok.injEq]
        by_cases hSame : here = position
        · subst hSame
          simp only [if_neg hCovered, if_true, Option.or_assoc, some_or]
        · simp only [if_neg hSame, if_neg (Ne.symm hSame), or_none]

/-! ### The runs of a batch -/

def RunHolds (run : SourceRun) (position : SourcePosition) : Prop :=
  Holds (run.source, run.start, run.last) position

section Runs
variable {grouped : Grouped} {run : SourceRun}

/-- A run is cut out of the messages of its partition. -/
theorem exists_chunk_of_mem_runs (hRun : run ∈ runs grouped) :
    ∃ offsets chunk, grouped.lookup run.source = some offsets ∧ IsRun run.source chunk run ∧
      chunk ⊆ offsets.entries := by
  obtain ⟨⟨source, offsets⟩, hEntry, hMem⟩ := mem_flatMap.mp hRun
  obtain ⟨chunk, hChunk, hSub⟩ := (runsOf_tiles source offsets.sorted).exists_chunk hMem
  have hSrc : run.source = source := hChunk.source
  subst hSrc
  exact ⟨offsets, chunk, mem_entries_iff.mp hEntry, hChunk, hSub⟩

theorem start_le_last_of_mem_runs (hRun : run ∈ runs grouped) : run.start ≤ run.last := by
  obtain ⟨_, _, -, hChunk, -⟩ := exists_chunk_of_mem_runs hRun
  exact hChunk.start_le_last

theorem runs_apart (grouped : Grouped) : (runs grouped).Pairwise fun a b =>
    a.source = b.source → a.last.toNat + 1 < b.start.toNat := by
  rw [runs, pairwise_flatMap]
  refine ⟨fun entry _ => ?_, grouped.sorted.imp fun {a b} hKeys x hX y hY hSame => ?_⟩
  · refine (runsOf_tiles entry.1 entry.2.sorted).apart.imp ?_
    exact fun hApart _ => hApart
  · obtain ⟨_, hFirst, -⟩ := (runsOf_tiles a.1 a.2.sorted).exists_chunk hX
    obtain ⟨_, hSecond, -⟩ := (runsOf_tiles b.1 b.2.sorted).exists_chunk hY
    rw [hFirst.source, hSecond.source] at hSame
    exact absurd hSame hKeys.ne

variable {position : SourcePosition}

/-- Every message of the group is in some run, at the place of its position. -/
theorem exists_run_of_messageAt {message : CanonicalMessage}
    (hAt : messageAt grouped position = some message) :
    ∃ run ∈ runs grouped, RunHolds run position ∧
      run.messages[position.offset.toNat - run.start.toNat]? = some message := by
  obtain ⟨offsets, hLookup, hOffset⟩ := bind_eq_some_iff.mp hAt
  obtain ⟨run, hRun, chunk, hChunk, hMem⟩ :=
    (runsOf_tiles position.source offsets.sorted).exists_run
    (mem_entries_iff.mpr hOffset)
  obtain ⟨hLow, hHigh, hMsg⟩ := hChunk.place hMem
  refine ⟨run, mem_flatMap.mpr ⟨_, mem_entries_iff.mpr hLookup, hRun⟩, ?_, hMsg⟩
  exact ⟨hChunk.source, hLow, hHigh⟩

/-- Runs that are apart do not share a position. -/
theorem not_holds_of_apart {list : List SourceRun}
    (hApart : list.Pairwise fun a b => a.source = b.source → a.last.toNat + 1 < b.start.toNat)
    (hRun : run ∈ list) (hHolds : RunHolds run position) :
    ∃ before after, list = before ++ run :: after ∧
      ∀ other ∈ before ++ after, ¬RunHolds other position := by
  obtain ⟨before, after, rfl⟩ := append_of_mem hRun
  refine ⟨before, after, rfl, fun other hOther hAlso => ?_⟩
  obtain ⟨-, hBehind, hBefore⟩ := pairwise_append.mp hApart
  obtain ⟨hSrc, hLow, hHigh⟩ := hHolds
  obtain ⟨hOtherSource, hOtherLow, hOtherHigh⟩ := hAlso
  rw [UInt64.le_iff_toNat_le] at hLow hHigh hOtherLow hOtherHigh
  simp only at hSrc hOtherSource hLow hHigh hOtherLow hOtherHigh
  rcases mem_append.mp hOther with hFirst | hLater
  · have hGap := hBefore other hFirst run (mem_cons_self ..) (hOtherSource.trans hSrc.symm)
    omega
  · have hGap := (pairwise_cons.mp hBehind).1 other hLater (hSrc.trans hOtherSource.symm)
    omega

end Runs

structure ExactRuns (covered : CoveredRanges) (messages : List CanonicalMessage)
    (runs : List SourceRun) : Prop where
  /-- A run has one message for each of its positions, in their order. -/
  contiguous : ∀ run ∈ runs, run.start ≤ run.last ∧
    run.messages.length = run.last.toNat - run.start.toNat + 1 ∧
    ∀ i message, run.messages[i]? = some message → ∃ offset : UInt64,
      offset.toNat = run.start.toNat + i ∧
        SourcePosition.fromMessage message = .ok ⟨run.source, offset⟩
  /-- Two runs of one partition have a gap between them. -/
  apart : runs.Pairwise fun a b => a.source = b.source → a.last.toNat + 1 < b.start.toNat
  /-- No run could take in an uncovered position of the batch next to it. -/
  maximal : ∀ run ∈ runs, ∀ message ∈ messages, ∀ position,
    SourcePosition.fromMessage message = .ok position → covered.contains position = false →
    position.source = run.source →
      position.offset.toNat + 1 ≠ run.start.toNat ∧ position.offset.toNat ≠ run.last.toNat + 1
  /-- An uncovered position is in one run only, with its last message. -/
  once : ∀ position message, lastAt messages position = some message →
    covered.contains position = false → ∃ before run after, runs = before ++ run :: after ∧
      RunHolds run position ∧
      run.messages[position.offset.toNat - run.start.toNat]? = some message ∧
      ∀ other ∈ before ++ after, ¬RunHolds other position
  /-- A position of a run is one of the batch and was not covered. -/
  uncovered : ∀ run ∈ runs, ∀ position, RunHolds run position →
    covered.contains position = false ∧ ∃ message, lastAt messages position = some message

theorem lastAt_fromMessage {position : SourcePosition}
    (hLast : lastAt messages position = some message) :
    message ∈ messages ∧ fromMessage message = .ok position := by
  have hMem := mem_of_getLast? hLast
  rw [mem_filter] at hMem
  exact ⟨hMem.1, of_decide_eq_true hMem.2⟩

theorem exists_lastAt {position : SourcePosition} (hMem : message ∈ messages)
    (hPosition : fromMessage message = .ok position) :
    ∃ last, lastAt messages position = some last := by
  have hFilter : message ∈ messages.filter fun m =>
      decide (fromMessage m = .ok position) :=
    mem_filter.mpr ⟨hMem, decide_eq_true hPosition⟩
  exact ⟨_, getLast?_eq_some_getLast (ne_nil_of_mem hFilter)⟩

section Batch
variable {covered : CoveredRanges} {messages : List CanonicalMessage} {grouped : Grouped}

/-- Two runs of one partition are the same or have a gap between them. -/
theorem eq_or_apart {a b : SourceRun} (hA : a ∈ runs grouped) (hB : b ∈ runs grouped) :
    a.source = b.source →
      a = b ∨ a.last.toNat + 1 < b.start.toNat ∨ b.last.toNat + 1 < a.start.toNat := by
  refine Pairwise.forall_of_forall_of_flip (R := fun a b => a.source = b.source →
      a = b ∨ a.last.toNat + 1 < b.start.toNat ∨ b.last.toNat + 1 < a.start.toNat)
    (fun _ _ _ => .inl rfl) ((runs_apart grouped).imp fun hApart hSrc => ?_)
    ((runs_apart grouped).imp fun hApart hSrc => ?_) hA hB
  · exact .inr (.inl (hApart hSrc))
  · exact .inr (.inr (hApart hSrc.symm))

/-- The group holds the last message of every uncovered position of the batch. -/
def GroupOf (covered : CoveredRanges) (messages : List CanonicalMessage) (grouped : Grouped) :
    Prop :=
  ∀ position, messageAt grouped position =
    if covered.contains position then none else lastAt messages position

variable {position : SourcePosition}

section

variable (h : GroupOf covered messages grouped)

include h

theorem GroupOf.of_holds (hRun : run ∈ runs grouped) (hHolds : RunHolds run position) :
    covered.contains position = false ∧ ∃ message, lastAt messages position = some message := by
  obtain ⟨offsets, chunk, hLookup, hChunk, hSub⟩ := exists_chunk_of_mem_runs hRun
  obtain ⟨hSrc, hLow, hHigh⟩ := hHolds
  obtain ⟨message, hMem⟩ := hChunk.exists_mem hLow hHigh
  have hGroup : messageAt grouped position = some message := by
    rw [messageAt, ← hSrc, hLookup]
    exact mem_entries_iff.mp (hSub hMem)
  rw [h] at hGroup
  split_ifs at hGroup with hCovered
  exact ⟨Bool.eq_false_iff.mpr hCovered, message, hGroup⟩

theorem GroupOf.exists_run {message : CanonicalMessage}
    (hLast : lastAt messages position = some message)
    (hCovered : covered.contains position = false) : ∃ run ∈ runs grouped, RunHolds run position ∧
      run.messages[position.offset.toNat - run.start.toNat]? = some message := by
  refine exists_run_of_messageAt ?_
  rw [h, hCovered]
  exact hLast

theorem GroupOf.exactRuns : ExactRuns covered messages (runs grouped) where
  contiguous run hRun := by
    obtain ⟨offsets, chunk, hLookup, hChunk, hSub⟩ := exists_chunk_of_mem_runs hRun
    have hLast := hChunk.last
    have hPos := hChunk.nonempty
    have hLen : run.messages.length = chunk.length := by rw [hChunk.messages, length_map]
    refine ⟨hChunk.start_le_last, by omega, fun i message hMsg => ?_⟩
    rw [hChunk.messages, getElem?_map, map_eq_some_iff] at hMsg
    obtain ⟨⟨offset, message⟩, hEntry, rfl⟩ := hMsg
    have hGroup : messageAt grouped ⟨run.source, offset⟩ = some message := by
      rw [messageAt, hLookup]
      exact mem_entries_iff.mp (hSub (mem_of_getElem? hEntry))
    rw [h] at hGroup
    split_ifs at hGroup
    exact ⟨offset, (hChunk.entry hEntry).2.1, (lastAt_fromMessage hGroup).2⟩
  apart := runs_apart grouped
  maximal run hRun message hMem position hPosition hCovered hSrc := by
    -- the position would be in a run that is too close to this one
    obtain ⟨last, hLast⟩ := exists_lastAt hMem hPosition
    obtain ⟨other, hOther, ⟨hOtherSource, hLow, hHigh⟩, -⟩ := h.exists_run hLast hCovered
    have hOrder := UInt64.le_iff_toNat_le.mp (start_le_last_of_mem_runs hRun)
    rw [UInt64.le_iff_toNat_le] at hLow hHigh
    simp only at hOtherSource hLow hHigh
    rcases eq_or_apart hOther hRun (hOtherSource.trans hSrc) with rfl | hGap | hGap
    · omega
    · omega
    · omega
  once position message hLast hCovered := by
    obtain ⟨run, hRun, hHolds, hMsg⟩ := h.exists_run hLast hCovered
    obtain ⟨before, after, hSplit, hOthers⟩ := not_holds_of_apart (runs_apart grouped) hRun hHolds
    exact ⟨before, run, after, hSplit, hHolds, hMsg, hOthers⟩
  uncovered run hRun position hHolds := by
    exact h.of_holds hRun hHolds

/-- With every position of the batch covered there is nothing left to run. -/
theorem GroupOf.runs_eq_nil (hCovered : ∀ message ∈ messages, ∀ position,
      fromMessage message = .ok position → covered.contains position = true) :
    runs grouped = [] := by
  refine eq_nil_iff_forall_not_mem.mpr fun run hRun => ?_
  have hHolds : RunHolds run ⟨run.source, run.start⟩ :=
    ⟨rfl, le_refl _, start_le_last_of_mem_runs hRun⟩
  obtain ⟨hNot, message, hLast⟩ := h.of_holds hRun hHolds
  obtain ⟨hMem, hPosition⟩ := lastAt_fromMessage hLast
  rw [hCovered message hMem _ hPosition] at hNot
  cases hNot

end

theorem exists_groupOf (covered : CoveredRanges) (hPositions : ∀ message ∈ messages, ∃ position,
      fromMessage message = .ok position) :
    ∃ grouped, covered.uncoveredRuns messages = .ok (runs grouped) ∧
      GroupOf covered messages grouped := by
  obtain ⟨grouped, hGroup, hAt⟩ := covered.group_spec hPositions empty
  refine ⟨grouped, ?_, fun position => ?_⟩
  · rw [uncoveredRuns, hGroup]
    rfl
  · have hEmpty : messageAt empty position = none := by
      rfl
    rw [hAt, hEmpty, or_none]

theorem fromMessage_of_group {result : Grouped} (h : covered.group grouped messages = .ok result) :
    ∀ message ∈ messages, ∃ position, fromMessage message = .ok position := by
  induction messages generalizing grouped with
  | nil => nofun
  | cons message rest ih => cases hHere : fromMessage message <;> grind [group, Except.bind]

/-- The runs of a batch take every uncovered position of it once, and once
they are covered the same positions have no run left. -/
theorem uncoveredRuns_exact (build : Build) (messages : List CanonicalMessage)
    (hPositions : ∀ message ∈ messages, ∃ position, SourcePosition.fromMessage message =
      .ok position) : ∃ covered runs written, build.covered = .ok covered ∧
      covered.uncoveredRuns messages = .ok runs ∧ ExactRuns covered messages runs ∧
      covered.insertAll (runs.map fun run => (run.source, run.start, run.last)) = .ok written ∧
      ∀ again : List CanonicalMessage,
        (∀ message ∈ again, ∃ before ∈ messages,
          SourcePosition.fromMessage message = SourcePosition.fromMessage before) →
        written.uncoveredRuns again = .ok [] := by
  obtain ⟨covered, hBuild, hNormal, -⟩ := build.covered_spec
  obtain ⟨grouped, hRuns, hGroup⟩ := exists_groupOf covered hPositions
  have hExact := hGroup.exactRuns
  have hRanges : ∀ range ∈ (runs grouped).map fun run => (run.source, run.start, run.last),
      range.2.1 ≤ range.2.2 := by
    intro range hMem
    obtain ⟨run, hRun, rfl⟩ := mem_map.mp hMem
    exact (hExact.contiguous run hRun).1
  obtain ⟨written, hInsert, -, hWritten⟩ := insertAll_spec hNormal hRanges
  refine ⟨covered, runs grouped, written, hBuild, hRuns, hExact, hInsert, fun again hAgain => ?_⟩
  have hPositionsAgain : ∀ message ∈ again, ∃ position,
      fromMessage message = .ok position := by
    intro message hMem
    obtain ⟨before, hBefore, hSame⟩ := hAgain message hMem
    rw [hSame]
    exact hPositions before hBefore
  obtain ⟨regrouped, hRegrouped, hRegroup⟩ := exists_groupOf written hPositionsAgain
  rw [hRegrouped, hRegroup.runs_eq_nil]
  intro message hMem position hPosition
  obtain ⟨before, hBefore, hSame⟩ := hAgain message hMem
  rw [hSame] at hPosition
  rw [hWritten]
  by_cases hCovered : covered.contains position = true
  · exact .inl hCovered
  · obtain ⟨last, hLast⟩ := exists_lastAt hBefore hPosition
    obtain ⟨run, hRun, hHolds, -⟩ := hGroup.exists_run hLast (Bool.eq_false_iff.mpr hCovered)
    exact .inr ⟨_, mem_map.mpr ⟨run, hRun, rfl⟩, hHolds⟩

def kafkaMessage (id : Nat) (offset : String) : CanonicalMessage :=
  ⟨id, [], [⟨SourcePosition.topicKey, "orders"⟩, ⟨SourcePosition.partitionKey, "0"⟩,
    ⟨SourcePosition.offsetKey, offset⟩].toFinmap⟩

/-- Three messages at two neighbouring positions, one of them covered. -/
theorem uncoveredRuns_exact_kafka : ∃ covered runs written,
      (Build.new.insert ⟨"orders", 0⟩ 6 8 (by decide)).covered = .ok covered ∧
      covered.uncoveredRuns [kafkaMessage 1 "5", kafkaMessage 2 "6", kafkaMessage 3 "5"] =
        .ok runs ∧
      ExactRuns covered [kafkaMessage 1 "5", kafkaMessage 2 "6", kafkaMessage 3 "5"] runs ∧
      covered.insertAll (runs.map fun run => (run.source, run.start, run.last)) = .ok written ∧
      ∀ again : List CanonicalMessage,
        (∀ message ∈ again, ∃ before ∈ [kafkaMessage 1 "5", kafkaMessage 2 "6", kafkaMessage 3 "5"],
          SourcePosition.fromMessage message = SourcePosition.fromMessage before) →
        written.uncoveredRuns again = .ok [] := by
  refine uncoveredRuns_exact (Build.new.insert ⟨"orders", 0⟩ 6 8 (by decide)) _ ?_
  simp only [forall_mem_cons]
  refine ⟨⟨⟨⟨"orders", 0⟩, 5⟩, by decide⟩, ⟨⟨⟨"orders", 0⟩, 6⟩, by decide⟩,
    ⟨⟨⟨"orders", 0⟩, 5⟩, by decide⟩, nofun⟩

end Batch

/-- A sink, the parts it completed and the messages it acknowledged. -/
structure PartSink where
  covered : CoveredRanges
  parts : List SourceRun
  acked : List CanonicalMessage

namespace PartSink

/-- The parts of a batch are written in turn, each covered once it is complete.
The number is that of the parts a call can complete before it fails. -/
def sendBatchBySourcePosition (sink : PartSink) (call : List CanonicalMessage × Nat) : PartSink :=
  match sink.covered.uncoveredRuns call.1 with
  | .error _ => sink
  | .ok runs =>
    let complete := runs.take call.2
    match sink.covered.insertAll (complete.map fun run => (run.source, run.start, run.last)) with
    | .error _ => sink
    | .ok covered => ⟨covered, sink.parts ++ complete,
      sink.acked ++ if runs.length ≤ call.2 then call.1 else []⟩

/-- What was covered at the start and what each part holds. -/
def held (start : CoveredRanges) (sink : PartSink) : List (SourcePosition → Prop) :=
  (fun position => start.contains position = true) :: sink.parts.map RunHolds

structure Once (start : CoveredRanges) (sink : PartSink) : Prop where
  normal : sink.covered.Normal
  covers : ∀ position, sink.covered.contains position = true ↔ ∃ a ∈ sink.held start, a position
  apart : (sink.held start).Pairwise fun a b => ∀ position, a position → ¬b position
  acked : ∀ message ∈ sink.acked, ∃ position, fromMessage message = .ok position ∧
    sink.covered.contains position = true

theorem Once.send {start : CoveredRanges} {sink : PartSink} (h : Once start sink)
    (call : List CanonicalMessage × Nat) : Once start (sink.sendBatchBySourcePosition call) := by
  rw [sendBatchBySourcePosition]
  cases hGroup : sink.covered.group empty call.1 with
  | error =>
    rw [uncoveredRuns, hGroup]
    exact h
  | ok _ =>
    have hPositions := fromMessage_of_group hGroup
    obtain ⟨grouped, hRuns, hOf⟩ := exists_groupOf sink.covered hPositions
    have hRanges : ∀ range ∈ ((runs grouped).take call.2).map fun run =>
        (run.source, run.start, run.last), range.2.1 ≤ range.2.2 :=
      forall_mem_map.mpr fun run hRun => start_le_last_of_mem_runs (mem_of_mem_take hRun)
    obtain ⟨covered, hInsert, hNormal, hContains⟩ := insertAll_spec h.normal hRanges
    simp only [hRuns, hInsert]
    refine ⟨hNormal, fun position => ?_, ?_, fun message hMem => ?_⟩
    · rw [hContains, h.covers]
      simp only [held, map_append, ← cons_append, mem_append, or_and_right, exists_or, List.mem_map,
        exists_exists_and_eq_and, RunHolds]
    · rw [held, map_append, ← cons_append, pairwise_append, pairwise_map]
      refine ⟨h.apart, ((runs_apart _).sublist (take_sublist ..)).imp ?_, ?_⟩
      · rintro a b hGap position ⟨hSrc, -, hHigh⟩ ⟨hSame, hLow, -⟩
        have hGap := hGap (hSrc.trans hSame.symm)
        simp only [UInt64.le_iff_toNat_le] at hLow hHigh
        omega
      · -- what a new part holds was not covered
        refine fun a hA => forall_mem_map.mpr fun run hRun position hHeld hAlso => ?_
        have hCovered := (h.covers position).mpr ⟨a, hA, hHeld⟩
        rw [(hOf.of_holds (mem_of_mem_take hRun) hAlso).1] at hCovered
        cases hCovered
    · rcases mem_append.mp hMem with hOld | hMem
      · obtain ⟨position, hPosition, hCovered⟩ := h.acked message hOld
        exact ⟨position, hPosition, (hContains position).mpr (.inl hCovered)⟩
      · split_ifs at hMem with hAll
        · obtain ⟨position, hPosition⟩ := hPositions message hMem
          obtain ⟨_, hLast⟩ := exists_lastAt hMem hPosition
          refine ⟨position, hPosition,
            (hContains position).mpr (or_iff_not_imp_left.mpr fun hNot => ?_)⟩
          obtain ⟨run, hRun, hHolds, -⟩ := hOf.exists_run hLast (Bool.eq_false_iff.mpr hNot)
          rw [take_of_length_le hAll]
          exact ⟨_, mem_map_of_mem hRun, hHolds⟩
        · cases hMem

end PartSink

/-- However the batches overlap and wherever the calls fail, no position is in
two complete parts and none that was acknowledged is missing. -/
theorem parts_once (build : Build) : ∃ start, build.covered = .ok start ∧
    ∀ calls :
    List _, (calls.foldl PartSink.sendBatchBySourcePosition ⟨start, [], []⟩).Once start := by
  obtain ⟨start, hBuild, hNormal, -⟩ := build.covered_spec
  refine ⟨start, hBuild, fun calls => foldlRecOn calls _ ?_ fun _ h call _ => h.send call⟩
  exact ⟨hNormal, by simp [PartSink.held], pairwise_singleton .., nofun⟩

end CoveredRanges

end MqBridge
