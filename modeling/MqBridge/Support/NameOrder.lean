import MqBridge.Machine.Outcome
import MqBridge.Support.FinalizedName

/-! The names of the parts of one source sort as the positions in it do, because
every number in a name is padded to one width. -/
namespace MqBridge

open List Text SourcePosition

/-- Digits of one length are in the order of their numbers, whatever follows them. -/
theorem lt_of_ofDigitChars_lt {ds es : List Char} (hLen : ds.length = es.length)
    (hDigits : ∀ c ∈ ds ++ es, c.isDigit = true) {i j : Nat}
    (hLess : Nat.ofDigitChars 10 ds i < Nat.ofDigitChars 10 es j) :
    i < j ∨ i = j ∧ ∀ x y, ds ++ x < es ++ y := by
  induction ds generalizing es i j with
  | nil =>
    obtain rfl := length_eq_zero_iff.mp hLen.symm
    exact .inl hLess
  | cons d ds ih =>
    obtain _ | ⟨e, es⟩ := es
    · cases hLen
    have hTail : ∀ c ∈ ds ++ es, c.isDigit = true := fun c hMem =>
      hDigits c (by simp only [mem_append] at hMem ⊢; tauto)
    have hRange : ∀ c : Char, c.isDigit = true → 48 ≤ c.toNat ∧ c.toNat ≤ 57 := fun c hDigit => by
      simpa [Char.isDigit, UInt32.le_iff_toNat_le] using hDigit
    have hd := hRange d (hDigits d (by simp))
    have he := hRange e (hDigits e (by simp))
    have hZero : '0'.toNat = 48 := rfl
    rw [Nat.ofDigitChars_cons, Nat.ofDigitChars_cons] at hLess
    rcases ih (Nat.succ.inj hLen) hTail hLess with hFirst | ⟨hSame, hRest⟩
    · by_cases hEq : i = j
      · refine .inr ⟨hEq, fun x y => cons_lt_cons_iff.mpr (.inl ?_)⟩
        exact UInt32.lt_iff_toNat_lt.mpr (show d.toNat < e.toNat by omega)
      · omega
    · refine .inr
        ⟨by omega, fun x y => cons_lt_cons_iff.mpr (.inr ⟨Char.toNat_inj.mp ?_, hRest x y⟩)⟩
      omega

theorem paddedPosition_lt {a b : UInt64} (hLess : a < b) (x y : List Char) :
    (paddedPosition a).toList ++ x < (paddedPosition b).toList ++ y := by
  have hVal : ∀ n : UInt64, .ofDigitChars 10 (paddedPosition n).toList 0 = n.toNat := fun n => by
    rw [paddedPosition, padded, String.toList_ofList, Nat.ofDigitChars_append,
      Nat.ofDigitChars_replicate_zero, mul_zero, Nat.ofDigitChars_ten_toDigits]
  have hDigits : ∀ c ∈ (paddedPosition a).toList ++ (paddedPosition b).toList, c.isDigit = true :=
    forall_mem_append.mpr ⟨fun _ => isDigit_of_mem_padded, fun _ => isDigit_of_mem_padded⟩
  have hLen := (length_paddedPosition a).trans (length_paddedPosition b).symm
  have hNumbers := (hVal a).trans_lt ((UInt64.lt_iff_toNat_lt.mp hLess).trans_eq (hVal b).symm)
  exact ((lt_of_ofDigitChars_lt hLen hDigits hNumbers).resolve_left (lt_irrefl 0)).2 x y

/-- A text with a number after each of the words. -/
def numbered (tail : List Char) : List String → List UInt64 → List Char
  | words :: rest, number :: numbers =>
    words.toList ++ ((paddedPosition number).toList ++ numbered tail rest numbers)
  | _, _ => tail

theorem numbered_lt (tail : List Char) {words : List String} {ns ms : List UInt64} (hLess : ns < ms)
    (hLen : ns.length = words.length) (hLength' : ms.length = words.length) :
    numbered tail words ns < numbered tail words ms := by
  induction words generalizing ns ms with
  | nil =>
    rw [length_eq_zero_iff.mp hLen, length_eq_zero_iff.mp hLength'] at hLess
    exact absurd hLess (lt_irrefl _)
  | cons first words ih =>
    obtain ⟨n, ns, rfl⟩ := exists_cons_of_length_eq_add_one hLen
    obtain ⟨m, ms, rfl⟩ := exists_cons_of_length_eq_add_one hLength'
    apply append_left_lt
    rcases cons_lt_cons_iff.mp hLess with hFirst | ⟨rfl, hRest⟩
    · exact paddedPosition_lt hFirst _ _
    · exact append_left_lt (ih hRest (Nat.succ.inj hLen) (Nat.succ.inj hLength'))

/-- The sources whose position is more than one number. -/
inductive Origin where
  | postgres
  | mongodb
  | file

namespace Origin

def nameKey : Origin → String
  | postgres => postgresSlotKey
  | mongodb => mongodbNamespaceKey
  | file => filePathKey

def position : Origin → CanonicalMessage → Except String SourcePosition
  | postgres => fromPostgresMessage
  | mongodb => fromMongodbMessage
  | file => fromFileMessage

/-- The position of a message as numbers. The snapshot comes before the changes. -/
def numbers (message : CanonicalMessage) : Origin → Except String (List UInt64)
  | postgres => do
    let lsn ← parseUnsignedPosition message postgresLsnKey
    let ordinal ← parseUnsignedPosition message postgresOrdinalKey
    .ok [lsn, ordinal]
  | mongodb =>
    if SourcePosition.contains message mongodbSnapshotIndexKey then do
      let index ← parseUnsignedPosition message mongodbSnapshotIndexKey
      .ok [0, index]
    else do
      let clusterTime ← parseUnsignedPosition message mongodbClusterTimeKey
      let ordinal ← parseUnsignedPosition message mongodbOrdinalKey
      .ok [1, clusterTime, ordinal]
  | file => do
    let record ← parseUnsignedPosition message fileRecordKey
    let epoch ← parseUnsignedPosition message fileEpochKey
    .ok [epoch, record]

/-- What the numbers become, each in its own place. -/
inductive Stands (name : String) : Origin → List UInt64 → SourcePosition → Prop where
  | postgres (lsn ordinal : UInt64) : Stands name postgres [lsn, ordinal]
      ⟨⟨"postgres_cdc-" ++ name ++ "-" ++ paddedPosition lsn, 0⟩, ordinal⟩
  | snapshot (index : UInt64) :
      Stands name mongodb [0, index] ⟨⟨"mongodb-" ++ name ++ "-0snapshot", 0⟩, index⟩
  | change (clusterTime ordinal : UInt64) : Stands name mongodb [1, clusterTime, ordinal]
      ⟨⟨"mongodb-" ++ name ++ "-1cdc-" ++ paddedPosition clusterTime, 0⟩, ordinal⟩
  | file (epoch record : UInt64) : Stands name file [epoch, record]
      ⟨⟨"file-" ++ sanitizePathIdentity name ++ "-" ++ paddedPosition epoch, 0⟩, record⟩

variable {origin : Origin} {name extension file file' : String} {ns ms : List UInt64}
    {p q : SourcePosition}
  {last last' : UInt64} {message other : CanonicalMessage}

theorem stands (hName : requiresName message origin.nameKey = .ok name)
    (hNumbers : origin.numbers message = .ok ns) (hPos : origin.position message = .ok p) :
    Stands name origin ns p := by
  cases origin with
  | postgres =>
    obtain ⟨lsn, hLsn, hNumbers⟩ := Outcome.bind_eq_ok.mp hNumbers
    obtain ⟨ordinal, hOrdinal, ⟨⟩⟩ := Outcome.bind_eq_ok.mp hNumbers
    simp only [nameKey] at hName
    simp only [position, fromPostgresMessage, hName, hLsn, hOrdinal] at hPos
    cases hPos
    exact .postgres lsn ordinal
  | mongodb =>
    simp only [nameKey] at hName
    simp only [numbers] at hNumbers
    simp only [position, fromMongodbMessage, hName] at hPos
    split_ifs at hNumbers with hSnap
    · obtain ⟨index, hIdx, ⟨⟩⟩ := Outcome.bind_eq_ok.mp hNumbers
      simp only [hSnap, hIdx] at hPos
      cases hPos
      exact .snapshot index
    · obtain ⟨clusterTime, hTime, hNumbers⟩ := Outcome.bind_eq_ok.mp hNumbers
      obtain ⟨ordinal, hOrdinal, ⟨⟩⟩ := Outcome.bind_eq_ok.mp hNumbers
      simp only [hSnap, hTime, hOrdinal] at hPos
      cases hPos
      exact .change clusterTime ordinal
  | file =>
    obtain ⟨record, hRecord, hNumbers⟩ := Outcome.bind_eq_ok.mp hNumbers
    obtain ⟨epoch, hEpoch, ⟨⟩⟩ := Outcome.bind_eq_ok.mp hNumbers
    obtain ⟨text, hText, -⟩ := Outcome.bind_eq_ok.mp hEpoch
    have hStamped : contains message fileEpochKey = true := by
      rw [requires] at hText
      split at hText
      next hLookup => rw [SourcePosition.contains, hLookup, Option.isSome_some]
      next => cases hText
    simp only [nameKey] at hName
    simp only [position, fromFileMessage, hName, hStamped, hRecord, hEpoch] at hPos
    cases hPos
    exact .file epoch record

theorem toList_finalizedName {topic : String} {start : UInt64}
    (hFile : finalizedName ⟨topic, 0⟩ start last extension = .ok file) :
    file.toList = numbered ("." ++ extension).toList ["part-" ++ topic ++ "-0000000000-", "-"]
      [start, last] := by
  obtain ⟨-, -, -, hText⟩ := finalizedName_eq_ok hFile
  have hZero :
      (padded 10 (Nat.toDigits 10 (0 : Int).toNat)).toList = "0000000000".toList := by decide
  rw [hText, finalizedStem, hZero]
  simp [numbered]

/-- The name of a topic that ends with a number. -/
theorem toList_numberedName {before : String} {first start : UInt64}
    (hFile : finalizedName ⟨before ++ paddedPosition first, 0⟩ start last extension = .ok file) :
    file.toList =
      numbered ("." ++ extension).toList ["part-" ++ before, "-0000000000-", "-"]
        [first, start, last] := by
  rw [toList_finalizedName hFile]
  simp [numbered]

theorem Stands.lt (h : Stands name origin ns p) (h' : Stands name origin ms q)
    (hFile : finalizedName p.source p.offset last extension = .ok file)
    (hFile' : finalizedName q.source q.offset last' extension = .ok file')
    (hLess : ns ++ [last] < ms ++ [last']) : file.toList < file'.toList := by
  cases h <;> cases h'
  case postgres | file =>
    rw [toList_numberedName hFile, toList_numberedName hFile']
    exact numbered_lt _ hLess rfl rfl
  case snapshot.snapshot =>
    rw [toList_finalizedName hFile, toList_finalizedName hFile']
    exact numbered_lt _ ((cons_lt_cons_iff.mp hLess).resolve_left (lt_irrefl _)).2 rfl rfl
  case change.change =>
    rw [toList_numberedName hFile, toList_numberedName hFile']
    exact numbered_lt _ ((cons_lt_cons_iff.mp hLess).resolve_left (lt_irrefl _)).2 rfl rfl
  case change.snapshot => exact absurd hLess (by simp [cons_lt_cons_iff])
  case snapshot.change =>
    rw [toList_finalizedName hFile, toList_numberedName hFile']
    simp only [numbered, String.toList_append, append_assoc]
    iterate 3 apply append_left_lt
    exact cons_lt_cons_iff.mpr (.inr ⟨rfl, cons_lt_cons_iff.mpr (.inl (by decide))⟩)

theorem Stands.unique (h : Stands name origin ns p) (h' : Stands name origin ns q) : p = q := by
  cases h <;> cases h' <;> rfl

/-- The names of two parts of a source, each from the position of a message on, are in
the order of the numbers of these messages, and then of the ends of the parts. -/
theorem finalizedName_lt_iff (hName : requiresName message origin.nameKey = .ok name)
    (hOther : requiresName other origin.nameKey = .ok name)
    (hNumbers : origin.numbers message = .ok ns) (hNumbers' : origin.numbers other = .ok ms)
    (hPos : origin.position message = .ok p) (hPosition' : origin.position other = .ok q)
    (hFile : finalizedName p.source p.offset last extension = .ok file)
    (hFile' : finalizedName q.source q.offset last' extension = .ok file') :
    file < file' ↔ ns ++ [last] < ms ++ [last'] := by
  have h := stands hName hNumbers hPos
  have h' := stands hOther hNumbers' hPosition'
  refine ⟨fun hLess => ?_, h.lt h' hFile hFile'⟩
  by_contra hNot
  rcases lt_or_eq_of_le (not_lt.mp hNot) with hMore | hSame
  · exact absurd (h'.lt h hFile' hFile hMore) (lt_asymm hLess)
  · obtain ⟨rfl, hLast⟩ := append_inj' hSame rfl
    cases hLast
    cases h.unique h'
    rw [hFile] at hFile'
    cases hFile'
    exact absurd hLess (lt_irrefl _)

def postgresMessage (lsn ordinal : String) : CanonicalMessage :=
  ⟨1, [], [⟨postgresSlotKey, "s"⟩, ⟨postgresLsnKey, lsn⟩, ⟨postgresOrdinalKey, ordinal⟩].toFinmap⟩

/-- The number of digits grows, and the order stays. -/
theorem finalizedName_lt_carry :
    ∃ p q file file', fromPostgresMessage (postgresMessage "9" "7") = .ok p ∧
      fromPostgresMessage (postgresMessage "10" "0") = .ok q ∧
        finalizedName p.source p.offset 8 "csv" = .ok file ∧
      finalizedName q.source q.offset 0 "csv" = .ok file' ∧ file < file' := by
  refine ⟨_, _, _, _, rfl, rfl, rfl, rfl, ?_⟩
  have hLess : [9, 7] ++ [8] < [10, 0] ++ ([0] : List UInt64) := by decide
  exact (@finalizedName_lt_iff .postgres "s" "csv" _ _ _ _ _ _ 8 0 (postgresMessage "9" "7")
    (postgresMessage "10" "0") rfl rfl rfl rfl rfl rfl rfl rfl).mpr hLess

end Origin

end MqBridge
