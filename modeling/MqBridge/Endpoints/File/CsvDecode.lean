import MqBridge.Endpoints.File.CsvRecords
import MqBridge.Support.Pack

/-! How the records of a file become messages. A CSV source settles its columns
on the first record that is not blank, and every further one is an object of
strings. -/
namespace MqBridge.File

open List Json

open Text Delimited CsvQuoteState

/-! ### Columns -/

/-- A renamed column: its name with the first number that makes it new. -/
def renamed (original used : List (List UInt8)) (name : List UInt8) : List UInt8 :=
  let numbered (n : Nat) := name ++ 0x5f :: decimalBytes n
  (((List.range (original.length + used.length + 1)).map fun n =>
    numbered (n + 2)).find? fun candidate =>
    !original.contains candidate && !used.contains candidate).getD name

def renameRepeated (original : List (List UInt8)) :
    List (List UInt8) → List (List UInt8) → List (List UInt8)
  | _, [] => []
  | used, name :: rest =>
    if name ∈ used then renamed original used name :: renameRepeated original
      (renamed original used name :: used) rest
    else name :: renameRepeated original (name :: used) rest

def dedupColumnNames (names : List (List UInt8)) : List (List UInt8) :=
  if names.Nodup then names else renameRepeated names [] names

def columnStart (name : List UInt8) : List UInt8 := 0x22 :: (name ++ [0x22, 0x3a, 0x22])

def columnStarts : List (List UInt8) → List (List UInt8)
  | [] => []
  | first :: rest => columnStart first :: rest.map fun name => 0x2c :: columnStart name

/-- All fields of a header. The number bounds them; one for each byte, and one
more, is enough. -/
def emitNames (s : CsvSyntax) : Nat → List UInt8 → List (List UInt8)
  | 0, _ => []
  | fuel + 1, bytes =>
    let (name, rest, more) := emitCsvField s false true bytes
    if more then name :: emitNames s fuel rest else [name]

/-- The columns of a source. They are unread until the first record. -/
structure CsvHeader where
  starts : List (List UInt8)
  fieldSyntax : CsvSyntax
  unread : Option CsvDialect
  deriving DecidableEq

namespace CsvHeader

def new (dialect : CsvDialect) (found : Option UInt8) : CsvHeader :=
  ⟨[], dialect.syntaxOf found, some dialect⟩

/-- Settles the columns on the first record, and says whether it is data. -/
def establish (dialect : CsvDialect) (found : Option UInt8) (first : List UInt8) :
    CsvHeader × Bool :=
  let bytes := stripBom first
  let s := dialect.syntaxOf (dialect.settle found bytes)
  let names :=
    match dialect.columns with
    | some columns => columns.map fun column => jsonAppendEscaped (bytesOf column)
    | none => emitNames s (bytes.length + 1) bytes
  (⟨columnStarts (dedupColumnNames names), s, none⟩, !dialect.header)

/-- The members of a row. Columns without a value are empty, and values without
a column are dropped. -/
def rowMembers (s : CsvSyntax) : List (List UInt8) → Bool → List UInt8 → List UInt8
  | [], _, _ => []
  | start :: rest, hasMore, bytes =>
    if hasMore then
      let (value, left, more) := emitCsvField s false true bytes
      start ++ (value ++ 0x22 :: rowMembers s rest more left)
    else start ++ 0x22 :: rowMembers s rest false bytes

def encodeRow (header : CsvHeader) (bytes : List UInt8) : List UInt8 :=
  0x7b :: (rowMembers header.fieldSyntax header.starts true bytes ++ [0x7d])

end CsvHeader

/-! ### Messages -/

structure RecordSpan where
  bytes : List UInt8
  position : Nat
  deriving DecidableEq

/-- What a record is decoded to. Its id is new. -/
structure Decoded where
  payload : List UInt8
  metadata : Pack.Metadata
  deriving DecidableEq

/-- A column state that was never set waits with the default dialect. -/
def pendingCsvDialect : Option CsvHeader → Option CsvDialect
  | none => some .default
  | some header => header.unread

def decodeCsvRow (header : CsvHeader) (bytes : List UInt8) : Option Decoded :=
  if bytes = [] then none else some ⟨header.encodeRow (fromUtf8Lossy bytes), ∅⟩

section Decode

-- how the other formats are parsed
variable (parse : List UInt8 → Option Decoded) (withOffset : Bool)

def decodeOne (header : Option CsvHeader) (span : RecordSpan) : Option Decoded :=
  let message :=
    match header with
    | some header => decodeCsvRow header span.bytes
    | none => parse span.bytes
  message.map fun message =>
    if withOffset then
      { message with metadata := message.metadata.insert "file_offset" (toString span.position) }
    else message

/-- The messages of the records, and the columns afterwards. The source spreads
the records over several workers and puts the results in order. -/
def decodeRecords (format : FileFormat) (found : Option UInt8) (header : Option CsvHeader)
    (spans : List RecordSpan) : Option CsvHeader × List Decoded :=
  match if format = .csv then pendingCsvDialect header else none with
  | none => (header, spans.filterMap (decodeOne parse withOffset header))
  | some dialect =>
    match spans.dropWhile fun span => span.bytes = [] with
    | [] => (header, [])
    | first :: rest =>
      let (established, isData) := CsvHeader.establish dialect found (fromUtf8Lossy first.bytes)
      let row :=
        if isData then
          (decodeOne parse withOffset (some established)
            { first with bytes := stripBom first.bytes }).toList
        else []
      (some established, row ++ rest.filterMap (decodeOne parse withOffset (some established)))

end Decode

section Batches

variable (parse : List UInt8 → Option Decoded) (withOffset : Bool) (format : FileFormat)
  (found : Option UInt8) (header : Option CsvHeader)

/-- Records are decoded alike in any batches. -/
theorem decodeRecords_append (spans more : List RecordSpan) :
    decodeRecords parse withOffset format found header (spans ++ more) =
      let first := decodeRecords parse withOffset format found header spans
      let second := decodeRecords parse withOffset format found first.1 more
      (second.1, first.2 ++ second.2) := by
  cases hPend : if format = .csv then pendingCsvDialect header else none with
  | none => simp [decodeRecords, hPend]
  | some dialect =>
    cases hFirst : spans.dropWhile fun span => decide (span.bytes = []) with
    | nil =>
      have hBoth : (spans ++ more).dropWhile (fun span => decide (span.bytes = [])) =
          more.dropWhile fun span => decide (span.bytes = []) := by
        rw [dropWhile_append, hFirst]
        rfl
      simp [decodeRecords, hPend, hFirst, hBoth]
    | cons span rest =>
      have hBoth : (spans ++ more).dropWhile (fun span => decide (span.bytes = [])) =
          span :: (rest ++ more) := by
        rw [dropWhile_append, hFirst]
        rfl
      have hSettled : (if format = .csv then
          pendingCsvDialect (some (CsvHeader.establish dialect found (fromUtf8Lossy span.bytes)).1)
            else none) =
          none := ite_self none
      simp [decodeRecords, hPend, hFirst, hBoth, hSettled]

theorem decodeRecords_nil :
    decodeRecords parse withOffset format found header [] = (header, []) := by
  rw [decodeRecords]
  split <;> rfl

end Batches

def readRecords (format : FileFormat) (dialect : CsvDialect) (delimiter : List UInt8) :
    Nat → Option UInt8 → Nat → List UInt8 → List RecordSpan × Option UInt8
  | 0, found, _, _ => ([], found)
  | fuel + 1, found, position, input =>
    let read := readRecord format dialect delimiter found input
    if read.record = [] then ([], read.found)
    else
      let after := position + read.record.length
      let (spans, found) := readRecords format dialect delimiter fuel read.found after read.rest
      (⟨cutDelimiter delimiter read.record, after⟩ :: spans, found)

/-! ### Rows -/

open Json in
def rowDoc (names row : List String) : Doc :=
  objectOf
    (List.zipWith (fun name value => (escape name, .scalar (.string (escape value)))) names row)

/-- The columns of a header that has these names. -/
def CsvHeader.ofNames (s : CsvSyntax) (names : List String) : CsvHeader :=
  ⟨columnStarts (names.map fun name => jsonAppendEscaped (bytesOf name)), s, none⟩

def rowMember (start : List UInt8) (value : String) : List UInt8 :=
  start ++ (jsonAppendEscaped (bytesOf value) ++ [0x22])

section Rows

variable {s : CsvSyntax} {delimiter : List UInt8} {fields : List String} {parts : List (List UInt8)}

theorem jsonAppendEscaped_eq (bytes : List UInt8) :
    jsonAppendEscaped bytes = piecesText (bytes.map escapeByte) := by
  have hAll : ∀ n : Fin 256, jsonEscaped (.ofNat n.val) = (escapeByte (.ofNat n.val)).text := by
    decide +kernel
  rw [piecesText, flatMap_map]
  refine flatMap_congr fun byte _ => ?_
  have hByte := hAll ⟨byte.toNat, byte.toNat_lt⟩
  rwa [UInt8.ofNat_toNat] at hByte

theorem jsonAppendEscaped_bytesOf (text : String) :
    jsonAppendEscaped (bytesOf text) = piecesText (escape text) := jsonAppendEscaped_eq _

/-- Different names stay different. -/
theorem jsonAppendEscaped_injective :
    Function.Injective fun text => jsonAppendEscaped (bytesOf text) := by
  intro a b hSame
  dsimp only at hSame
  rw [jsonAppendEscaped_bytesOf, jsonAppendEscaped_bytesOf] at hSame
  have hPieces : escape a = escape b := by
    have hA := scanString_append (escape a) []
    rw [hSame, scanString_append] at hA
    exact (Prod.mk.inj (Option.some.inj hA)).1.symm
  rw [← Option.some_inj, ← stringValue_escape, hPieces, stringValue_escape]

theorem emitNames_joined (hDiffer : s.quote ≠ some s.separator)
    (hParts : WrittenRow s delimiter fields parts) (hNe : fields ≠ [])
    {fuel : Nat} (hFuel : fields.length ≤ fuel) :
    emitNames s fuel (joined s.separator parts) = fields.map fun field =>
      jsonAppendEscaped (bytesOf field) := by
  induction hParts generalizing fuel with
  | nil => exact absurd rfl hNe
  | cons hFirst hRest ih =>
    rename_i field part others rest
    cases fuel with
    | zero => exact absurd hFuel (Nat.not_succ_le_zero _)
    | succ fuel =>
      cases hRest with
      | nil =>
        rw [joined, emitNames, emit_last hDiffer hFirst]
        rfl
      | cons hNext hOthers =>
        rw [joined_cons, emitNames, emit_next hDiffer hFirst]
        dsimp only
        rw [ih (cons_ne_nil _ _) (Nat.le_of_succ_le_succ hFuel)]
        rfl

theorem length_joined (separator : UInt8) (parts : List (List UInt8)) :
    parts.length ≤ (joined separator parts).length + 1 := by
  induction parts with
  | nil => exact Nat.zero_le _
  | cons part rest ih =>
    cases rest with
    | nil => exact Nat.succ_le_succ (Nat.zero_le _)
    | cons next rest =>
      simp only [joined_cons, length_append, length_cons] at ih ⊢
      omega

theorem rowMembers_joined (hDiffer : s.quote ≠ some s.separator)
    (hParts : WrittenRow s delimiter fields parts)
    {starts : List (List UInt8)} (hStarts : starts.length = fields.length) :
    CsvHeader.rowMembers s starts true (joined s.separator parts) =
      (zipWith rowMember starts fields).flatten := by
  induction hParts generalizing starts with
  | nil =>
    rw [length_eq_zero_iff.mp hStarts]
    rfl
  | cons hFirst hRest ih =>
    cases starts with
    | nil => cases hStarts
    | cons start starts =>
      have hLen : starts.length = _ := Nat.succ.inj hStarts
      rw [CsvHeader.rowMembers]
      cases hRest with
      | nil =>
        rw [joined, emit_last hDiffer hFirst, length_eq_zero_iff.mp hLen]
        simp [CsvHeader.rowMembers, rowMember]
      | cons hNext hOthers =>
        rw [joined_cons, emit_next hDiffer hFirst]
        dsimp only
        rw [ih hLen]
        simp [rowMember]

variable {names row : List String}

theorem commaSeparated_eq (first : List UInt8) (rest : List (List UInt8)) :
    commaSeparated (first :: rest) = first ++ rest.flatMap (0x2c :: ·) := by
  induction rest generalizing first with
  | nil => simp [commaSeparated]
  | cons next rest ih =>
    rw [commaSeparated_cons, ih]
    rfl

/-- The text of a row is that of an object. -/
theorem members_ofNames (s : CsvSyntax) (names row : List String) :
    0x7b :: ((zipWith rowMember (CsvHeader.ofNames s names).starts row).flatten ++ [0x7d]) =
      (rowDoc names row).text := by
  have hMember (start : List UInt8) (name value : String) :
      rowMember (start ++ columnStart (jsonAppendEscaped (bytesOf name)))
      value = start ++ memberText (escape name) (Doc.scalar (.string (escape value))).text := by
    rw [rowMember, jsonAppendEscaped_bytesOf, jsonAppendEscaped_bytesOf]
    simp [columnStart, memberText, Doc.text, Scalar.text]
  have hFirst := hMember []
  have hNext := hMember [0x2c]
  rw [rowDoc, objectOf_text, CsvHeader.ofNames]
  cases names with
  | nil => rfl
  | cons name names =>
    cases row with
    | nil => rfl
    | cons value row =>
      rw [zipWith_cons_cons, map_cons, map_cons, commaSeparated_eq, flatMap_map, columnStarts]
      simp_all [flatMap, map_zipWith, zipWith_map_left]

/-- A record is decoded to the object of its row. -/
theorem encodeRow_joined (hDiffer : s.quote ≠ some s.separator)
    (hLen : names.length = row.length) (hParts : WrittenRow s delimiter row parts) :
    CsvHeader.encodeRow (.ofNames s names) (joined s.separator parts) =
      (rowDoc names row).text := by
  have hStarts : (CsvHeader.ofNames s names).starts.length = row.length := by
    rw [← hLen]
    cases names with
    | nil => rfl
    | cons name names => simp [CsvHeader.ofNames, columnStarts]
  rw [← members_ofNames s, ← rowMembers_joined hDiffer hParts hStarts]
  rfl

open Json in
theorem rowDoc_value (floats : Floats) (hNames : names.Nodup)
    (hLen : names.length = row.length) :
    fromSlice floats (rowDoc names row).text =
      some (.object (names.zip (row.map Value.string))) := by
  have hEntries :
      (zipWith (fun name value => (escape name, .scalar (.string (escape value)))) names row).mapM
        (entryValue floats (recursionLimit - 1)) = some (names.zip (row.map .string)) := by
    rw [Places.mapM_eq_some, zip, zipWith_map_right]
    simp [entryValue_escape, stringValue_escape, Doc.value, Scalar.value]
  have hMap : InsertionMap.insertAll [] (names.zip (row.map .string)) =
      names.zip (row.map Value.string) := by
    refine (InsertionMap.insertAll_of_nodup ?_).trans (nil_append _)
    rwa [nil_append, map_fst_zip (by rw [length_map]; exact hLen.le)]
  rw [fromSlice, scan_text, Option.bind_some, rowDoc, objectOf_value, if_neg (by decide), hEntries,
    Option.map_some, hMap]

end Rows

/-! ### Whole files -/

def csvMessages (parse : List UInt8 → Option Decoded) (withOffset : Bool) (dialect : CsvDialect)
    (delimiter input : List UInt8) : List Decoded :=
  let read := readRecords .csv dialect delimiter (input.length + 1) none 0 input
  (decodeRecords parse withOffset .csv read.2 (some (.new dialect none)) read.1).2

/-- The record of a row. It is blank only where there is no quote to write. -/
structure IsRow (s : CsvSyntax) (delimiter : List UInt8) (row : List String)
    (record : List UInt8) : Prop where
  nonempty : row ≠ []
  blank : record = [] → s.quote = none
  written : ∃ parts, WrittenRow s delimiter row parts ∧ record = joined s.separator parts

section Files

variable {s : CsvSyntax} {delimiter : List UInt8} {dialect : CsvDialect}
  {record : List UInt8} {row : List String}

theorem isRow_of_encode (hNe : row ≠ []) (hRecord : csvEncodeRow s delimiter row = .ok record) :
    IsRow s delimiter row record := by
  refine ⟨hNe, ?_, csvEncodeRow_written hNe hRecord⟩
  rintro rfl
  cases hQuote : s.quote with
  | none => rfl
  | some quote =>
    obtain ⟨plain, hPlain, hBlank⟩ := Outcome.map_eq_ok.mp hRecord
    obtain ⟨parts, hParts, rfl⟩ := appendFields_written hPlain
    rw [quoteBlankRecord, hQuote] at hBlank
    split_ifs at hBlank with hOne
    refine absurd ⟨?_, hBlank⟩ hOne
    exact length_eq_one_of_joined hNe hParts hBlank

/-- Without a quote, the record of a single empty field is blank. -/
theorem IsRow.blank_iff (hRow : IsRow s delimiter row record) :
    record = [] ↔ row = [""] ∧ s.quote = none := by
  obtain ⟨parts, hParts, hJoined⟩ := hRow.written
  constructor
  · intro hBlank
    have hQuote := hRow.blank hBlank
    refine ⟨?_, hQuote⟩
    obtain ⟨field, rfl⟩ := length_eq_one_iff.mp
      (length_eq_one_of_joined hRow.nonempty hParts (hJoined.symm.trans hBlank))
    cases hParts with
    | cons hFirst hRest =>
      cases hRest
      rcases hFirst with ⟨hSame, -⟩ | ⟨quote, hSome, -⟩
      · rw [joined, hBlank] at hJoined
        have hEmpty : bytesOf field = bytesOf "" := hSame.symm.trans hJoined.symm
        rw [bytesOf_injective hEmpty]
      · rw [hQuote] at hSome
        cases hSome
  · rintro ⟨rfl, hQuote⟩
    cases hParts with
    | cons hFirst hRest =>
      cases hRest
      rcases hFirst with ⟨hSame, -⟩ | ⟨quote, hSome, -⟩
      · rw [hJoined, joined, hSame]
        rfl
      · rw [hQuote] at hSome
        cases hSome

variable {found : Option UInt8} {rows : List (List String)}

theorem nil_mem_records {records : List (List UInt8)}
    (hRows : List.Forall₂ (IsRow s delimiter) rows records) :
    [] ∈ records ↔ [""] ∈ rows ∧ s.quote = none := by
  induction hRows with
  | nil => simp
  | cons hRow _ ih =>
    rw [mem_cons, mem_cons, ih, eq_comm, hRow.blank_iff, eq_comm, ← or_and_right]

/-- The records of written rows are read one by one. -/
theorem readRecords_rows (hFixed : dialect.separator ≠ .auto)
    (hSyntax : dialect.syntaxOf found = s) (hFits : s.Fits delimiter) (hSome : delimiter ≠ [])
    {records : List (List UInt8)} (hRows : List.Forall₂ (IsRow s delimiter) rows records)
    {fuel : Nat} (hFuel : (records.flatMap (· ++ delimiter)).length < fuel) (position : Nat) :
    ∃ spans, readRecords .csv dialect delimiter fuel found position
      (records.flatMap (· ++ delimiter)) = (spans, found) ∧
      spans.map RecordSpan.bytes = records := by
  induction hRows generalizing fuel position with
  | nil =>
    cases fuel with
    | zero => exact absurd hFuel (Nat.not_lt_zero _)
    | succ fuel =>
      have hEnd : readUntilBytes delimiter [] [] = ([], []) := readUntilBytes_eq hSome [] []
      rw [flatMap_nil, readRecords, readRecord, hEnd]
      simp [settle_fixed hFixed]
  | cons hRow hRest ih =>
    rename_i row record rows records
    cases fuel with
    | zero => exact absurd hFuel (Nat.not_lt_zero _)
    | succ fuel =>
      obtain ⟨hFields, hBlank, parts, hParts, rfl⟩ := hRow
      have hRead := readRecord_row hFixed hSyntax hFits hSome hParts hFields hBlank
        (records.flatMap (· ++ delimiter))
      have hNe : joined s.separator parts ++ delimiter ≠ [] :=
        append_ne_nil_of_right_ne_nil _ hSome
      have hCut : cutDelimiter delimiter (joined s.separator parts ++ delimiter) =
          joined s.separator parts :=
        cutDelimiter_append fun _ => joined_last hFits hParts
      have hShorter : (records.flatMap (· ++ delimiter)).length < fuel := by
        rw [flatMap_cons, length_append] at hFuel
        have hPos := length_pos_iff.mpr hNe
        omega
      obtain ⟨spans, hSpans, hBytes⟩ :=
        ih hShorter (position + (joined s.separator parts ++ delimiter).length)
      rw [flatMap_cons, readRecords, hRead, if_neg hNe]
      dsimp only
      rw [hSpans, hCut]
      exact ⟨_, rfl, by rw [map_cons, hBytes]⟩

variable {names : List String}

/-- A header settles the columns that it was written from. -/
theorem establish_header (hFixed : dialect.separator ≠ .auto)
    (hSyntax : dialect.syntaxOf found = s) (hFits : s.Fits delimiter)
    (hHeader : dialect.header = true) (hCols : dialect.columns = none) (hDist : names.Nodup)
    (hRow : IsRow s delimiter names record) (hBlank : record ≠ []) :
    CsvHeader.establish dialect found record = (.ofNames s names, false) := by
  obtain ⟨hNe, -, parts, hParts, rfl⟩ := hRow
  have hBom : ¬ utf8Bom <+: joined s.separator parts := by
    have hNone := joined_bom hFits hParts hBlank []
    rwa [append_nil] at hNone
  have hFuel : names.length ≤ (joined s.separator parts).length + 1 := by
    rw [hParts.length_eq]
    exact length_joined s.separator parts
  have hNames : (names.map fun name => jsonAppendEscaped (bytesOf name)).Nodup :=
    hDist.map jsonAppendEscaped_injective
  rw [CsvHeader.establish, stripBom_of_not hBom, settle_fixed hFixed, hSyntax, hCols, hHeader]
  rw [emitNames_joined hFits.differ hParts hNe hFuel, dedupColumnNames, if_pos hNames]
  rfl

theorem lossy_row (hFits : s.Fits delimiter)
    (hRow : IsRow s delimiter row record) : fromUtf8Lossy record = record := by
  obtain ⟨parts, hParts, rfl⟩ := hRow.written
  obtain ⟨chars, hChars⟩ := joined_isText hFits hParts
  rw [← hChars, fromUtf8Lossy_encodeChars]

variable (parse : List UInt8 → Option Decoded) (withOffset : Bool) (floats : Json.Floats)
    {spans : List RecordSpan}

/-- The first record that is not blank settles the columns. -/
theorem decodeRecords_unread (unread : Option UInt8) {span : RecordSpan}
    (hBlank : span.bytes ≠ []) :
    (decodeRecords parse withOffset .csv found (some (.new dialect unread)) (span :: spans)).2 =
      (if (CsvHeader.establish dialect found (fromUtf8Lossy span.bytes)).2 then
        (decodeOne parse withOffset
          (some (CsvHeader.establish dialect found (fromUtf8Lossy span.bytes)).1)
          { span with bytes := stripBom span.bytes }).toList
      else []) ++
      spans.filterMap (decodeOne parse withOffset
        (some (CsvHeader.establish dialect found (fromUtf8Lossy span.bytes)).1)) := by
  have hDrop : (span :: spans).dropWhile (fun span => decide (span.bytes = [])) = span :: spans :=
    dropWhile_cons_of_neg (by simpa using hBlank)
  rw [decodeRecords, if_pos rfl]
  simp only [pendingCsvDialect, CsvHeader.new, hDrop]

theorem decodeOne_row (hFits : s.Fits delimiter) {names : List String} (hDist : names.Nodup)
    (hLen : names.length = row.length) {span : RecordSpan}
    (hRow : IsRow s delimiter row span.bytes) (hBlank : span.bytes ≠ []) :
    ∃ message, decodeOne parse withOffset (some (.ofNames s names)) span = some message ∧
      fromSlice floats message.payload =
        some (.object (names.zip (row.map Json.Value.string))) := by
  have hLossy := lossy_row hFits hRow
  obtain ⟨parts, hParts, hJoined⟩ := hRow.written
  have hVal := rowDoc_value floats hDist hLen
  rw [← encodeRow_joined hFits.differ hLen hParts, ← hJoined] at hVal
  rw [decodeOne, decodeCsvRow, if_neg hBlank, hLossy]
  refine ⟨_, rfl, ?_⟩
  split_ifs <;> exact hVal

theorem decode_rows (hFits : s.Fits delimiter) (hDist : names.Nodup)
    (hRows : List.Forall₂ (fun row span => IsRow s delimiter row span.bytes ∧ span.bytes ≠ [] ∧
      row.length = names.length) rows spans) :
    List.Forall₂ (fun row message => fromSlice floats message.payload =
        some (.object (names.zip (row.map Json.Value.string)))) rows
      (spans.filterMap (decodeOne parse withOffset (some (.ofNames s names)))) := by
  induction hRows with
  | nil => exact .nil
  | cons hRow _ ih =>
    obtain ⟨hIsRow, hBlank, hLen⟩ := hRow
    obtain ⟨message, hMsg, hVal⟩ :=
      decodeOne_row parse withOffset floats hFits hDist hLen.symm hIsRow hBlank
    rw [filterMap_cons_some hMsg]
    exact .cons hVal ih

/-- Every record that is not blank is a row. -/
theorem length_rows (header : CsvHeader) (spans : List RecordSpan) :
    (spans.filterMap (decodeOne parse withOffset (some header))).length =
      spans.countP fun span => span.bytes ≠ [] := by
  have hRow (span : RecordSpan) :
      (decodeOne parse withOffset (some header) span).isSome = decide (span.bytes ≠ []) := by
    by_cases hNone : span.bytes = [] <;> simp [decodeOne, decodeCsvRow, hNone]
  simp only [length_filterMap_eq_countP, hRow]

/-- The columns take the first record that is not blank; each later one is a
message. -/
theorem length_decodeRecords (hHeader : dialect.header = true) (unread : Option UInt8)
    (spans : List RecordSpan) :
    (decodeRecords parse withOffset .csv found (some (.new dialect unread)) spans).2.length =
      (spans.countP fun span => span.bytes ≠ []) - 1 := by
  induction spans with
  | nil => rw [decodeRecords_nil]; rfl
  | cons span spans ih =>
    by_cases hBlank : span.bytes = []
    · have hDrop : (span :: spans).dropWhile (fun span => decide (span.bytes = [])) =
          spans.dropWhile fun span => decide (span.bytes = []) :=
        dropWhile_cons_of_pos (decide_eq_true hBlank)
      rw [countP_cons_of_neg (by simpa using hBlank), ← ih, decodeRecords, decodeRecords,
        if_pos rfl]
      simp only [pendingCsvDialect, CsvHeader.new, hDrop]
    · rw [decodeRecords_unread parse withOffset unread hBlank,
        countP_cons_of_pos (by simpa using hBlank)]
      simp [CsvHeader.establish, hHeader, length_rows]

/-- Rows that are written after their header are read back, one message for
each, if and only if no record is left blank, or there is only the header. A
record is blank when it holds a single empty field and there is no quote. -/
theorem csv_rows_read_back_iff {config : CsvConfig}
    (hDialect : CsvDialect.fromConfig config delimiter = .ok dialect) (hSome : delimiter ≠ [])
    (hFixed : dialect.separator ≠ .auto) (hHeader : dialect.header = true)
    (hCols : dialect.columns = none) {names : List String} (hNames : names ≠ [])
    (hDist : names.Nodup) {rows : List (List String)}
    (hRows : ∀ row ∈ rows, row.length = names.length) {first : List UInt8}
    (hFirst : csvEncodeRow (dialect.syntaxOf none) delimiter names = .ok first)
    {records : List (List UInt8)} (hRecords : List.Forall₂ (fun row record =>
      csvEncodeRow (dialect.syntaxOf none) delimiter row = .ok record) rows records) :
    List.Forall₂ (fun row message => fromSlice floats message.payload =
        some (.object (names.zip (row.map Json.Value.string)))) rows
      (csvMessages parse withOffset dialect delimiter
        ((first :: records).flatMap (· ++ delimiter))) ↔
    dialect.quote ≠ none ∨ rows = [] ∨ [""] ∉ names :: rows := by
  have hFits := CsvDialect.fits hDialect hFixed none
  have hFirstRow := isRow_of_encode hNames hFirst
  have hOtherRows : List.Forall₂ (fun row record =>
      IsRow (dialect.syntaxOf none) delimiter row record ∧ row.length = names.length)
      rows records := by
    rw [forall₂_iff_zip] at hRecords ⊢
    refine ⟨hRecords.1, fun hMem => ?_⟩
    have hLen := hRows _ (of_mem_zip hMem).1
    refine ⟨isRow_of_encode (fun hNil => hNames ?_) (hRecords.2 hMem), hLen⟩
    rw [hNil] at hLen
    exact length_eq_zero_iff.mp hLen.symm
  have hAll := List.Forall₂.cons hFirstRow (hOtherRows.imp fun _ _ h => h.1)
  obtain ⟨spans, hRead, hSpans⟩ :=
    readRecords_rows hFixed rfl hFits hSome hAll (Nat.lt_succ_self _) 0
  have hBlank := nil_mem_records hAll
  rw [dialect.syntaxOf_quote] at hBlank
  have hLen : records.length = rows.length := hOtherRows.length_eq.symm
  have hCount : (csvMessages parse withOffset dialect delimiter
      ((first :: records).flatMap (· ++ delimiter))).length =
      (first :: records).countP (· ≠ []) - 1 := by
    rw [csvMessages, hRead, length_decodeRecords parse withOffset hHeader, ← hSpans, countP_map]
    rfl
  constructor
  · intro hBack
    by_contra hNot
    obtain ⟨hQuote, hNonempty, hMem⟩ : dialect.quote = none ∧ rows ≠ [] ∧ [""] ∈ names :: rows := by
      simpa only [not_or, not_not] using hNot
    have hFewer : (first :: records).countP (· ≠ []) < (first :: records).length := by
      refine lt_of_le_of_ne countP_le_length fun hEq => ?_
      exact of_decide_eq_true (countP_eq_length.mp hEq [] (hBlank.mpr ⟨hMem, hQuote⟩)) rfl
    have hSame := hBack.length_eq
    have hPos := length_pos_iff.mpr hNonempty
    rw [length_cons] at hFewer
    omega
  · intro hWritten
    by_cases hNil : rows = []
    · subst hNil
      rw [length_eq_zero_iff.mp hLen] at hCount ⊢
      rw [forall₂_nil_left_iff, ← length_eq_zero_iff, hCount]
      exact Nat.sub_eq_zero_of_le countP_le_length
    have hNone : [] ∉ first :: records := by
      rw [hBlank]
      rintro ⟨hMem, hQuote⟩
      rcases hWritten with hSome | hEmpty | hNone
      · exact hSome hQuote
      · exact hNil hEmpty
      · exact hNone hMem
    rw [csvMessages, hRead]
    cases spans with
    | nil => cases hSpans
    | cons span spans =>
      obtain ⟨rfl, rfl⟩ := cons.inj hSpans
      have hFull : span.bytes ≠ [] := fun hIs => hNone (hIs ▸ mem_cons_self)
      rw [decodeRecords_unread parse withOffset none hFull, lossy_row hFits hFirstRow,
        establish_header hFixed rfl hFits hHeader hCols hDist hFirstRow hFull]
      refine decode_rows parse withOffset floats hFits hDist ?_
      rw [forall₂_map_right_iff, forall₂_iff_zip] at hOtherRows
      refine forall₂_iff_zip.mpr ⟨hOtherRows.1, fun hMem => ?_⟩
      obtain ⟨hRow, hSame⟩ := hOtherRows.2 hMem
      refine ⟨hRow, fun hIs => hNone (mem_cons_of_mem _ ?_), hSame⟩
      rw [← hIs]
      exact mem_map_of_mem (of_mem_zip hMem).2

end Files

def defaultConfig : CsvConfig := ⟨none, none, none, [], .flatten, .warn⟩

/-- A field that contains the separator and a quote, and one that ends with the
beginning of the delimiter. -/
theorem csv_rows_read_back_quoted :
    List.Forall₂ (fun row message => fromSlice integersOnly message.payload =
        some (.object (["k", "v"].zip (row.map Json.Value.string)))) [["x,\"", "ba"]]
      (csvMessages (fun _ => none) false .default [0x61, 0x61]
        ([bytesOf "k,v", bytesOf "\"x,\"\"\",\"ba\""].flatMap (· ++ [0x61, 0x61]))) := by
  have hDialect : CsvDialect.fromConfig defaultConfig [0x61, 0x61] = .ok .default := by decide
  have hFirst : csvEncodeRow (CsvDialect.default.syntaxOf none) [0x61, 0x61] ["k", "v"] =
      .ok (bytesOf "k,v") := by
    decide
  have hRecord : csvEncodeRow (CsvDialect.default.syntaxOf none) [0x61, 0x61] ["x,\"", "ba"] =
      .ok (bytesOf "\"x,\"\"\",\"ba\"") := by decide
  have hRows : ∀ row ∈ [["x,\"", "ba"]], row.length = ["k", "v"].length :=
    forall_mem_singleton.mpr rfl
  exact (csv_rows_read_back_iff (fun _ => none) false integersOnly hDialect (by decide) (by decide)
    rfl rfl (by decide) (by decide) hRows hFirst (.cons hRecord .nil)).mpr (.inl (by decide))

def unquotedConfig : CsvConfig := ⟨none, some "none", none, [], .flatten, .warn⟩

def unquoted : CsvDialect := { CsvDialect.default with quote := none }

/-- Without quotes the record of an empty field is blank, and it is skipped. -/
theorem blank_row_skipped : CsvDialect.fromConfig unquotedConfig [0x0a] = .ok unquoted ∧
      csvEncodeRow (unquoted.syntaxOf none) [0x0a] ["k"] = .ok [0x6b] ∧
      csvEncodeRow (unquoted.syntaxOf none) [0x0a] [""] = .ok [] ∧
      csvMessages (fun _ => none) false unquoted [0x0a] ([[0x6b], []].flatMap (· ++ [0x0a])) =
        [] := by
  decide

end MqBridge.File
