import MqBridge.Support.CoveredRanges

/-! The names of the parts that an idempotent sink has finished. A name holds
the source range of its part, and after a restart the names are all the sink
has to tell which positions it has written. -/
namespace MqBridge

open List Option

open Text SourcePosition

def finalizedName (source : SourcePartition) (start last : UInt64) (extension : String) :
    Except String String :=
  if source.topic.isEmpty || source.topic.toList.contains '/' || source.partition < 0 ||
      extension.isEmpty || extension.toList.contains '/' || last < start then
    .error "invalid idempotent sink finalized name components"
  else
    .ok ("part-" ++ source.topic ++ "-" ++ padded 10 (Nat.toDigits 10 source.partition.toNat) ++
      "-" ++
      SourcePosition.paddedPosition start ++ "-" ++ SourcePosition.paddedPosition last ++ "." ++
        extension)

/-- The fields of a name, from the right: only the topic may hold dashes. -/
def parseFinalizedStem (stem : List Char) : Option (SourcePartition × UInt64 × UInt64) :=
  match rsplitn '-' 4 stem with
  | [last, start, partition, topic] => do
      let last ← parseUnsigned (String.ofList last)
      let start ← parseUnsigned (String.ofList start)
      let partition ← parseI32 (String.ofList partition)
      if topic.isEmpty || partition < 0 || last < start then none
      else some (⟨String.ofList topic, partition⟩, start, last)
  | _ => none

def parseFinalizedName (name extension : String) : Option (SourcePartition × UInt64 × UInt64) := do
  let rest ← name.toList.dropPrefix? "part-".toList
  let stem ← rest.dropSuffix? ("." ++ extension).toList
  parseFinalizedStem stem

/-- The covered ranges, from the names found in a listing. A name that is not
one of a part is left alone. -/
def recoverFinalizedRanges (names : List String) (extension : String) :
    Except String CoveredRanges :=
  CoveredRanges.new.insertAll (names.filterMap fun name => parseFinalizedName name extension)

/-- What is between the parts that all names of one extension share. -/
def finalizedStem (source : SourcePartition) (start last : UInt64) : List Char :=
  ((source.topic.toList ++ '-' :: (padded 10 (Nat.toDigits 10 source.partition.toNat)).toList) ++
    '-' :: (SourcePosition.paddedPosition start).toList) ++
      '-' :: (SourcePosition.paddedPosition last).toList

theorem dash_not_mem_padded {width n : Nat} : '-' ∉ (padded width (Nat.toDigits 10 n)).toList := by
  intro hMem
  have hDigit := isDigit_of_mem_padded hMem
  cases hDigit

section Positions

variable (position : UInt64)

theorem parseUnsigned_paddedPosition :
    parseUnsigned (paddedPosition position) = some position := by
  rw [paddedPosition, parseUnsigned_padded position.toNat_lt, UInt64.ofNat_toNat]

theorem length_paddedPosition : (paddedPosition position).toList.length = 20 :=
  length_padded (by decide) (lt_trans position.toNat_lt (by decide))

theorem dash_not_mem_paddedPosition : '-' ∉ (paddedPosition position).toList :=
  dash_not_mem_padded

end Positions

section Named

variable {source : SourcePartition} {start last : UInt64} {extension name : String}

theorem rsplitn_finalizedStem : rsplitn '-' 4 (finalizedStem source start last) =
    [(paddedPosition last).toList, (paddedPosition start).toList,
      (padded 10 (Nat.toDigits 10 source.partition.toNat)).toList, source.topic.toList] := by
  rw [finalizedStem, rsplitn, rsplitOnce_append _ (dash_not_mem_paddedPosition last)]
  simp only [rsplitn]
  rw [rsplitOnce_append _ (dash_not_mem_paddedPosition start)]
  simp only
  rw [rsplitOnce_append _ dash_not_mem_padded]

theorem parse_finalizedStem (hTopic : source.topic ≠ "") (hNonneg : 0 ≤ source.partition)
    (hPart : source.partition < 2 ^ 31) (hRange : start ≤ last) :
    parseFinalizedStem (finalizedStem source start last) = some (source, start, last) := by
  have hParsed : parseI32 (padded 10 (Nat.toDigits 10 source.partition.toNat)) =
      some source.partition := by
    rw [parseI32_padded (by omega), Int.toNat_of_nonneg hNonneg]
  have hNotEmpty : source.topic.toList.isEmpty = false := by
    rw [isEmpty_eq_false_iff]
    exact fun hNil => hTopic (String.toList_eq_nil_iff.mp hNil)
  rw [parseFinalizedStem, rsplitn_finalizedStem]
  simp only [String.ofList_toList, parseUnsigned_paddedPosition, hParsed, bind_eq_bind,
    bind_some, hNotEmpty, Bool.false_or, not_lt.mpr hNonneg, not_lt.mpr hRange, decide_false,
    Bool.false_eq_true, if_false]

theorem finalizedName_eq_ok (hName : finalizedName source start last extension = .ok name) :
    source.topic ≠ "" ∧ 0 ≤ source.partition ∧ start ≤ last ∧
      name.toList =
        "part-".toList ++ (finalizedStem source start last ++ ("." ++ extension).toList) := by
  rw [finalizedName] at hName
  split_ifs at hName with hInvalid
  cases hName
  simp only [Bool.or_eq_true, decide_eq_true_eq, not_or, String.isEmpty_iff] at hInvalid
  obtain ⟨⟨⟨⟨⟨hTopic, -⟩, hPart⟩, -⟩, -⟩, hRange⟩ := hInvalid
  refine ⟨hTopic, not_lt.mp hPart, not_lt.mp hRange, ?_⟩
  simp [finalizedStem]

/-- The name tells its range, whatever the topic looks like. -/
theorem parse_of_finalizedName (hPart : source.partition < 2 ^ 31)
    (hName : finalizedName source start last extension = .ok name) :
    parseFinalizedName name extension = some (source, start, last) := by
  obtain ⟨hTopic, hNonneg, hRange, hList⟩ := finalizedName_eq_ok hName
  have hRest : name.toList.dropPrefix? "part-".toList =
      some (finalizedStem source start last ++ ("." ++ extension).toList) :=
    dropPrefix?_eq_some_iff.mpr ⟨_, hList, beq_self_eq_true _⟩
  have hStem : (finalizedStem source start last ++ ("." ++ extension).toList).dropSuffix?
      ("." ++ extension).toList = some (finalizedStem source start last) :=
    dropSuffix?_eq_some_iff.mpr ⟨_, rfl, beq_self_eq_true _⟩
  simp only [parseFinalizedName, hRest, hStem, bind_eq_bind, bind_some]
  exact parse_finalizedStem hTopic hNonneg hPart hRange

/-- The numbers have a fixed width, so the names of one topic differ as soon
as the ranges do, even under different extensions. -/
theorem range_eq_of_finalizedName_eq {other : SourcePartition} {start' last' : UInt64}
    {extension' : String} (hTopic : other.topic = source.topic)
    (hPart : source.partition < 2 ^ 31) (hOther : other.partition < 2 ^ 31)
    (hName : finalizedName source start last extension = .ok name)
    (hSame : finalizedName other start' last' extension' = .ok name) :
    (other, start', last') = (source, start, last) := by
  obtain ⟨hGiven, hNonneg, hRange, hList⟩ := finalizedName_eq_ok hName
  obtain ⟨hGiven', hNonneg', hRange', hList'⟩ := finalizedName_eq_ok hSame
  have hTen : ∀ {n : Nat}, n < 2 ^ 31 → (padded 10 (Nat.toDigits 10 n)).toList.length = 10 :=
    fun hLt => length_padded (by decide) (lt_trans hLt (by decide))
  have hLen : (finalizedStem other start' last').length =
      (finalizedStem source start last).length := by
    simp only [finalizedStem, length_append, length_cons, hTopic, length_paddedPosition]
    rw [hTen (by omega), hTen (by omega)]
  have hRest := append_cancel_left (hList'.symm.trans hList)
  have hStem := (append_inj hRest hLen).1
  rw [← some_inj, ← parse_finalizedStem hGiven hNonneg hPart hRange,
    ← parse_finalizedStem hGiven' hNonneg' hOther hRange', hStem]

end Named

theorem le_of_parseFinalizedName {name extension : String}
    {range : SourcePartition × UInt64 × UInt64}
    (hParsed : parseFinalizedName name extension = some range) : range.2.1 ≤ range.2.2 := by
  simp only [parseFinalizedName, bind_eq_bind, bind_eq_some_iff] at hParsed
  obtain ⟨_, -, stem, -, hStem⟩ := hParsed
  rw [parseFinalizedStem] at hStem
  split at hStem
  next =>
    simp only [bind_eq_bind, bind_eq_some_iff] at hStem
    obtain ⟨last, -, start, -, partition, -, hFields⟩ := hStem
    split_ifs at hFields with hInvalid
    cases hFields
    rw [Bool.or_eq_true, decide_eq_true_eq, not_or] at hInvalid
    exact not_lt.mp hInvalid.2
  next => cases hStem

/-- Recovery finds the ranges that the names stand for, and no others. -/
theorem recoverFinalizedRanges_spec (names : List String) (extension : String) :
    ∃ covered, recoverFinalizedRanges names extension = .ok covered ∧
      ∀ position, covered.contains position = true ↔
        ∃ name ∈ names, ∃ range, parseFinalizedName name extension = some range ∧
          CoveredRanges.Holds range position := by
  have hRanges : ∀ range ∈ names.filterMap fun name => parseFinalizedName name extension,
      range.2.1 ≤ range.2.2 := by
    intro range hMem
    obtain ⟨name, -, hParsed⟩ := mem_filterMap.mp hMem
    exact le_of_parseFinalizedName hParsed
  obtain ⟨covered, hInserted, -, hContains⟩ :=
    CoveredRanges.insertAll_spec CoveredRanges.normal_new hRanges
  refine ⟨covered, hInserted, fun position => ?_⟩
  rw [hContains, CoveredRanges.contains_new]
  simp only [Bool.false_eq_true, false_or, mem_filterMap]
  constructor
  · rintro ⟨range, ⟨name, hMem, hParsed⟩, hHolds⟩
    exact ⟨name, hMem, range, hParsed, hHolds⟩
  · rintro ⟨name, hMem, range, hParsed, hHolds⟩
    exact ⟨range, ⟨name, hMem, hParsed⟩, hHolds⟩

/-- A name that was given is read back as the partition and the range it was
given for, a sink that finds it covers exactly these positions, and no other
range of the topic has it. -/
theorem finalizedName_round_trip {source : SourcePartition} {start last : UInt64}
    {extension name : String} (hPart : source.partition < 2 ^ 31)
    (hName : finalizedName source start last extension = .ok name) :
    parseFinalizedName name extension = some (source, start, last) ∧
      (∃ covered, recoverFinalizedRanges [name] extension = .ok covered ∧
        ∀ position, covered.contains position = true ↔
          CoveredRanges.Holds (source, start, last) position) ∧
      ∀ (other : SourcePartition) (start' last' : UInt64) (extension' : String),
        other.topic = source.topic → other.partition < 2 ^ 31 →
        finalizedName other start' last' extension' = .ok name →
        (other, start', last') = (source, start, last) := by
  have hParsed := parse_of_finalizedName hPart hName
  obtain ⟨covered, hRecovered, hContains⟩ := recoverFinalizedRanges_spec [name] extension
  refine ⟨hParsed, ⟨covered, hRecovered, fun position => ?_⟩, ?_⟩
  · rw [hContains]
    simp only [mem_singleton, exists_eq_left, hParsed, Option.some.injEq]
    exact exists_eq_left'
  · intro other start' last' extension' hTopic hOther hSame
    exact range_eq_of_finalizedName_eq hTopic hPart hOther hName hSame

theorem finalizedName_round_trip_dashes :
    let name := "part-a-1.2-0000000007-00000000000000000041-18446744073709551615.csv.gz"
    finalizedName ⟨"a-1.2", 7⟩ 41 u64Max "csv.gz" = .ok name ∧
      parseFinalizedName name "csv.gz" = some (⟨"a-1.2", 7⟩, 41, u64Max) := by
  have hName : finalizedName ⟨"a-1.2", 7⟩ 41 u64Max "csv.gz" =
      .ok "part-a-1.2-0000000007-00000000000000000041-18446744073709551615.csv.gz" := by decide
  exact ⟨hName, (finalizedName_round_trip (by decide) hName).1⟩

end MqBridge
