import MqBridge.Endpoints.File.CsvFields

/-! Records of a CSV file: a delimiter inside quotes is part of a field, so a
record is read until the quotes are closed. A written row is read as one record. -/
namespace MqBridge.File

open List

open Text Delimited CsvQuoteState

/-! ### Reading a record -/

/-- Reads on while the record stops inside quotes. At the end of the input it is
left open. The number bounds the rounds; one for each byte is enough. -/
def readQuoted (s : CsvSyntax) (delimiter : List UInt8) :
    Nat → CsvQuoteState → List UInt8 → List UInt8 → List UInt8 × List UInt8 × Bool
  | 0, _, buf, input => (buf, input, false)
  | fuel + 1, quotes, buf, input =>
    if quotes.isInQuotes then
      let (more, rest) := readUntilBytes delimiter buf input
      if more.length = buf.length then (buf, input, true)
      else readQuoted s delimiter fuel (quotes.feed s (more.drop buf.length)) more rest
    else (buf, input, false)

structure ReadRecord where
  record : List UInt8
  rest : List UInt8
  /-- The input ended inside a quoted field. -/
  openQuote : Bool
  /-- The separator, once it was found. -/
  found : Option UInt8

def readRecord (format : FileFormat) (dialect : CsvDialect) (delimiter : List UInt8)
    (found : Option UInt8) (input : List UInt8) : ReadRecord :=
  let (chunk, rest) := readUntilBytes delimiter [] input
  if format = .csv then
    let found := dialect.settle found chunk
    let s := dialect.syntaxOf found
    if chunk = [] then ⟨chunk, rest, false, found⟩
    else
      let (record, rest, openQuote) :=
        readQuoted s delimiter (input.length + 1) (CsvQuoteState.new.feed s chunk) chunk rest
      ⟨record, rest, openQuote, found⟩
  else ⟨chunk, rest, false, found⟩

/-- A record ends after the delimiter, unless that is inside quotes. -/
def recordEnds (s : CsvSyntax) (delimiter buf : List UInt8) : Bool :=
  endsIn delimiter buf && !(CsvQuoteState.new.feed s buf).isInQuotes

section Reading

variable {s : CsvSyntax} {delimiter a : List UInt8}

/-- Quotes are looked at once, in pieces or not, unless the first piece ends within a
byte-order mark. -/
theorem feed_feed {b : List UInt8} (hBom : utf8Bom <+: a ++ b → utf8Bom <+: a) :
    (CsvQuoteState.new.feed s a).feed s b = CsvQuoteState.new.feed s (a ++ b) := by
  cases hQuote : s.quote with
  | none => simp [feed, hQuote]
  | some quote =>
    have hFeed (state : CsvQuoteState) (bytes : List UInt8) : state.feed s bytes =
        walk s { state with started := true }
          (if state.started then bytes else stripBom bytes) := by
      rw [feed, walk, hQuote]
    have hStrip : stripBom (a ++ b) = stripBom a ++ b := by
      by_cases hBoth : utf8Bom <+: a ++ b
      · obtain ⟨tail, rfl⟩ := hBom hBoth
        rfl
      · rw [stripBom_of_not hBoth, stripBom_of_not fun hFirst =>
          hBoth (hFirst.trans (prefix_append a b))]
    have hNew (bytes : List UInt8) : new.feed s bytes = walk s fieldStart (stripBom bytes) :=
      hFeed _ _
    have hStarted : (walk s fieldStart (stripBom a)).started = true := started_walk rfl _
    rw [hNew, hFeed, if_pos hStarted, ← hStarted, hNew, hStrip, walk_append]

/-- Where a piece stops inside quotes, it does not end within a byte-order mark. -/
theorem feed_append (hAscii : ∀ quote ∈ s.quote, quote.toNat < 128)
    (hInside : (CsvQuoteState.new.feed s a).isInQuotes = true) (b : List UInt8) :
    (CsvQuoteState.new.feed s a).feed s b = CsvQuoteState.new.feed s (a ++ b) := by
  apply feed_feed
  intro hBoth
  by_contra hBom
  rcases prefix_append_cases hBoth with hIn | ⟨q, hSplit, -, -⟩
  · exact hBom hIn
  · have hClosed : Closed (walk s fieldStart a) := by
      have hStart : Closed fieldStart := rfl
      refine hStart.walk fun byte hMem hSame => ?_
      have hByte : byte ∈ utf8Bom := by
        rw [hSplit]
        exact mem_append_left q hMem
      have hLarge : ∀ byte ∈ utf8Bom, 128 ≤ byte.toNat := by simp [utf8Bom]
      exact absurd (hAscii byte hSame) (not_lt.mpr (hLarge byte hByte))
    rw [feed_eq_walk fun hIn => absurd hIn hBom, hClosed.isInQuotes] at hInside
    cases hInside

/-- Reading on inside quotes. -/
theorem readQuoted_eq (hAscii : ∀ quote ∈ s.quote, quote.toNat < 128) (hSome : delimiter ≠ [])
    {fuel : Nat} {buf input : List UInt8} (hFuel : input.length < fuel) :
    readQuoted s delimiter fuel (CsvQuoteState.new.feed s buf) buf input =
      let out := if (CsvQuoteState.new.feed s buf).isInQuotes then
        upTo (recordEnds s delimiter) buf input else (buf, input)
      (out.1, out.2, (CsvQuoteState.new.feed s out.1).isInQuotes) := by
  induction fuel generalizing buf input with
  | zero => exact absurd hFuel (Nat.not_lt_zero _)
  | succ fuel ih =>
    rw [readQuoted]
    split_ifs with hInside
    · rw [readUntilBytes_eq hSome]
      cases input with
      | nil =>
        dsimp only [upTo]
        rw [if_pos rfl, hInside]
      | cons byte rest =>
        have hPre := upTo_extends (endsIn delimiter) buf (byte :: rest)
        have hLengths := congrArg length (upTo_append (endsIn delimiter) buf (byte :: rest))
        have hShorter := upTo_shorter (endsIn delimiter) buf byte rest
        have hAnd : upTo (recordEnds s delimiter) buf (byte :: rest) = _ :=
          upTo_and buf (byte :: rest)
        have hStop : (fun p => endsIn delimiter p && !(new.feed s p).isInQuotes) =
            recordEnds s delimiter := rfl
        rw [hAnd, hStop]
        generalize upTo (endsIn delimiter) buf (byte :: rest) = read at hPre hLengths hShorter ⊢
        obtain ⟨more, left⟩ := read
        obtain ⟨chunk, rfl⟩ := hPre
        simp only [length_append] at hLengths hShorter
        have hGrown : ¬ (buf ++ chunk).length = buf.length := by
          rw [length_append]
          omega
        dsimp only
        rw [if_neg hGrown, drop_left, feed_append hAscii hInside, ih (by omega)]
        by_cases hStill : (new.feed s (buf ++ chunk)).isInQuotes = true
        · cases left with
          | nil => simp [upTo]
          | cons next left => simp [hStill]
        · simp [hStill]
    · simp [hInside]

variable (dialect : CsvDialect) (found : Option UInt8)

/-- A record is read until the quotes are closed. If the input ends first, it is
left open. -/
theorem readRecord_csv (byte : UInt8) (rest : List UInt8)
    (hAscii : ∀ quote ∈ dialect.quote, quote.toNat < 128) (hSome : delimiter ≠ []) :
    let read := readRecord .csv dialect delimiter found (byte :: rest)
    (read.record, read.rest) = upTo (recordEnds (dialect.syntaxOf read.found) delimiter) []
      (byte :: rest) ∧
      read.openQuote =
        (CsvQuoteState.new.feed (dialect.syntaxOf read.found) read.record).isInQuotes ∧
      read.found = dialect.settle found (upTo (endsIn delimiter) [] (byte :: rest)).1 := by
  have hQuote (found : Option UInt8) :
      ∀ quote ∈ (dialect.syntaxOf found).quote, quote.toNat < 128 := by
    rwa [dialect.syntaxOf_quote]
  have hAnd (s : CsvSyntax) : upTo (recordEnds s delimiter) [] (byte :: rest) = _ :=
    upTo_and [] (byte :: rest)
  have hStop (s : CsvSyntax) : (fun p => endsIn delimiter p && !(new.feed s p).isInQuotes) =
      recordEnds s delimiter := rfl
  have hNe : (upTo (endsIn delimiter) [] (byte :: rest)).1 ≠ [] := upTo_ne_nil byte rest
  have hShorter := upTo_shorter (endsIn delimiter) [] byte rest
  rw [readRecord, readUntilBytes_eq hSome]
  simp only [hAnd, hStop]
  generalize upTo (endsIn delimiter) [] (byte :: rest) = read at hNe hShorter ⊢
  obtain ⟨chunk, left⟩ := read
  rw [if_neg hNe, readQuoted_eq (hQuote _) hSome (by omega)]
  refine ⟨?_, rfl, rfl⟩
  by_cases hInside :
    (new.feed (dialect.syntaxOf (dialect.settle found chunk)) chunk).isInQuotes = true
  · cases left with
    | nil => simp [upTo]
    | cons next left => simp [hInside]
  · simp [hInside]

/-- Reading splits the input, and something is left only after a delimiter. -/
theorem readRecord_split (format : FileFormat) (dialect : CsvDialect) (found : Option UInt8)
    (input : List UInt8)
    (hAscii : ∀ quote ∈ dialect.quote, quote.toNat < 128) (hSome : delimiter ≠ []) :
    let read := readRecord format dialect delimiter found input
    read.record ++ read.rest = input ∧ (read.rest ≠ [] → endsIn delimiter read.record = true) := by
  cases input with
  | nil =>
    have hEnd : readUntilBytes delimiter [] [] = ([], []) := readUntilBytes_eq hSome [] []
    rw [readRecord, hEnd]
    split_ifs <;> simp
  | cons byte rest =>
    by_cases hFormat : format = .csv
    · obtain ⟨hRead, -, -⟩ := readRecord_csv dialect found byte rest hAscii hSome
      rw [← hFormat] at hRead
      generalize readRecord format dialect delimiter found (byte :: rest) = read at hRead ⊢
      have hAll :=
        upTo_append (recordEnds (dialect.syntaxOf read.found) delimiter) [] (byte :: rest)
      have hStops : (upTo (recordEnds (dialect.syntaxOf read.found) delimiter) []
          (byte :: rest)).2 ≠ [] → _ :=
        upTo_stops
      rw [← hRead] at hAll hStops
      refine ⟨hAll, fun hLeft => ?_⟩
      have hEnds := hStops hLeft
      rw [recordEnds, Bool.and_eq_true] at hEnds
      exact hEnds.1
    · simp only [readRecord, hFormat, if_false, readUntilBytes_eq hSome]
      exact ⟨upTo_append _ [] (byte :: rest), upTo_stops⟩

/-- Once a separator is settled, it stays. -/
theorem settle_settle (chunk other : List UInt8) :
    dialect.settle (dialect.settle found chunk) other = dialect.settle found chunk := by
  cases hSep : dialect.separator <;> simp [CsvDialect.settle, hSep]

theorem readRecord_settle (input : List UInt8) :
    readRecord .csv dialect delimiter
      (dialect.settle found (readUntilBytes delimiter [] input).1) input =
      readRecord .csv dialect delimiter found input := by
  rw [readRecord, readRecord]
  rcases readUntilBytes delimiter [] input with ⟨chunk, rest⟩
  simp only [if_true, settle_settle]

theorem readRecord_found (format : FileFormat) (dialect : CsvDialect) (found : Option UInt8)
    (input : List UInt8) : (readRecord format dialect delimiter found input).found =
      if format = .csv then dialect.settle found (readUntilBytes delimiter [] input).1
      else found := by
  rw [readRecord]
  rcases readUntilBytes delimiter [] input with ⟨chunk, rest⟩
  dsimp only
  split_ifs <;> rfl

end Reading

/-! ### Written rows -/

section Rows

variable {s : CsvSyntax} {delimiter : List UInt8}

def rowEnds (s : CsvSyntax) (delimiter buf : List UInt8) : Bool :=
  endsIn delimiter buf && !(walk s fieldStart buf).isInQuotes

structure AtField (s : CsvSyntax) (read : List UInt8) : Prop where
  state : walk s fieldStart read = fieldStart
  last : ∀ byte ∈ read.getLast?, byte = s.separator

theorem rowEnds_of_last (hSome : delimiter ≠ []) {read : List UInt8} {byte : UInt8}
    (hByte : byte ∉ delimiter) : rowEnds s delimiter (read ++ [byte]) = false := by
  rw [rowEnds, Bool.and_eq_false_iff]
  refine .inl (decide_eq_false fun hSuffix => hSome ?_)
  have hNone : ∀ x ∈ (read ++ [byte]).getLast?, x ∉ delimiter := by
    intro x hX
    rw [getLast?_concat] at hX
    cases hX
    exact hByte
  rw [← append_nil (read ++ [byte])] at hSuffix
  exact suffix_nil.mp (suffix_of_append hNone hSuffix)

theorem suffix_of_rowEnds {read p : List UInt8} (hLast : ∀ x ∈ read.getLast?, x ∉ delimiter)
    (hEnds : rowEnds s delimiter (read ++ p) = true) : delimiter <:+ p := by
  rw [rowEnds, Bool.and_eq_true] at hEnds
  exact suffix_of_append hLast (of_decide_eq_true hEnds.1)

/-- A plain field does not contain the delimiter, not even together with the
beginning of the one that follows it. -/
theorem Plain.clear {field : List UInt8} (hPlain : Plain s delimiter field)
    (hSome : delimiter ≠ []) : ¬ delimiter <:+: field ∧ Clear delimiter field := by
  have hBreak {byte : UInt8} (hMem : byte ∈ field) : byte ≠ 0x0a := by
    rintro rfl
    have hSpecial := hPlain.special _ hMem
    simp [isSpecial] at hSpecial
  have hNone := hPlain.delimiter
  rw [hasDelimiter] at hNone
  split_ifs at hNone with hLine
  · rcases hLine with rfl | rfl | rfl
    · exact absurd rfl hSome
    · refine ⟨fun hIn => hBreak (hIn.subset mem_cons_self) rfl, fun k hPos hLt => ?_⟩
      rw [length_singleton] at hLt
      omega
    · refine ⟨fun hIn => hBreak (hIn.subset (mem_cons_of_mem _ mem_cons_self)) rfl,
        fun k hPos hLt hOverlap => ?_⟩
      obtain rfl : k = 1 := by
        rw [length_cons, length_singleton] at hLt
        omega
      exact absurd hOverlap (by decide)
  · simp only [Bool.or_eq_false_iff, decide_eq_false_iff_not, any_eq_false, decide_eq_true_eq]
      at hNone
    refine ⟨hNone.1, fun k hPos hLt _ => hNone.2 k ?_⟩
    rw [mem_drop_iff_getElem]
    refine ⟨k - 1, by rw [length_range]; omega, ?_⟩
    rw [getElem_range]
    omega

variable (hFits : s.Fits delimiter) (hSome : delimiter ≠ [])

include hFits in
theorem AtField.last_notMem {read : List UInt8} (hRead : AtField s read) :
    ∀ x ∈ read.getLast?, x ∉ delimiter := by
  intro x hX
  rw [hRead.last x hX]
  exact hFits.delimiter _ (.inl rfl)

variable {field bytes read : List UInt8}

theorem Written.closed (hRead : AtField s read)
    (hWritten : Written s delimiter field bytes) : Closed (walk s fieldStart (read ++ bytes)) := by
  rw [walk_append, hRead.state]
  rcases hWritten with ⟨rfl, hPlain⟩ | ⟨quote, hQuote, rfl⟩
  · have hStart : Closed fieldStart := rfl
    refine hStart.walk fun byte hMem hQuote => ?_
    have hSpecial := hPlain.special byte hMem
    simp [isSpecial, hQuote] at hSpecial
  · exact closed_quotedField hQuote field

include hFits hSome in
/-- The record does not end in a quoted field. -/
theorem quotedField_passes {quote : UInt8} (hQuote : s.quote = some quote) (field : List UInt8)
    {read : List UInt8}
    (hRead : AtField s read) : Passes (rowEnds s delimiter) read (quotedField quote field) := by
  intro p hPre hNe
  by_cases hLast : p.getLast? = some quote
  · obtain ⟨before, rfl⟩ := getLast?_eq_some_iff.mp hLast
    rw [← append_assoc]
    exact rowEnds_of_last hSome (hFits.delimiter quote (.inr hQuote))
  · have hOpen : quotedField quote field = [quote] ++ (doubled quote field ++ [quote]) := rfl
    rw [hOpen] at hPre
    rcases prefix_append_cases hPre with hFirst | ⟨rest, rfl, hRestNe, hRest⟩
    · rcases (infix_singleton_iff _ _).mp hFirst.isInfix with rfl | rfl
      · exact absurd rfl hNe
      · exact absurd rfl hLast
    · rw [getLast?_append_of_ne_nil _ hRestNe] at hLast
      rcases prefix_append_cases hRest with hInside | ⟨tail, rfl, hTailNe, hTail⟩
      · rw [rowEnds, walk_append, hRead.state, walk_append, walk_open hQuote,
          walk_prefix_doubled hQuote hInside hLast, Bool.not_true, Bool.and_false]
      · rcases (infix_singleton_iff _ _).mp hTail.isInfix with rfl | rfl
        · exact absurd rfl hTailNe
        · rw [getLast?_concat] at hLast
          exact absurd rfl hLast

include hFits hSome in
/-- After a field and its separator the next field begins, and the record did
not end. -/
theorem Written.passes (hRead : AtField s read) (hWritten : Written s delimiter field bytes) :
    Passes (rowEnds s delimiter) read (bytes ++ [s.separator]) ∧
      AtField s (read ++ (bytes ++ [s.separator])) := by
  have hClosed := hWritten.closed hRead
  have hSeparator : Passes (rowEnds s delimiter) (read ++ bytes) [s.separator] := by
    intro p hPre hNe
    rcases (infix_singleton_iff _ _).mp hPre.isInfix with rfl | rfl
    · exact absurd rfl hNe
    · exact rowEnds_of_last hSome (hFits.delimiter _ (.inl rfl))
  refine ⟨.append ?_ hSeparator, ?_, ?_⟩
  · rcases hWritten with ⟨rfl, hPlain⟩ | ⟨quote, hQuote, rfl⟩
    · intro p hPre _
      rw [Bool.eq_false_iff]
      intro hEnds
      have hSuffix := suffix_of_rowEnds (hRead.last_notMem hFits) hEnds
      exact (hPlain.clear hSome).1 (hSuffix.isInfix.trans hPre.isInfix)
    · exact quotedField_passes hFits hSome hQuote field hRead
  · rw [← append_assoc]
    exact hClosed.separator hFits.differ
  · intro byte hByte
    rw [← append_assoc, getLast?_concat] at hByte
    cases hByte
    rfl

include hFits hSome in
/-- After the last field the record ends with the delimiter. -/
theorem Written.first (hRead : AtField s read)
    (hWritten : Written s delimiter field bytes) :
    First (rowEnds s delimiter) read (bytes ++ delimiter) := by
  have hNoQuote : ∀ byte ∈ delimiter, s.quote ≠ some byte :=
    fun byte hMem hQuote => hFits.delimiter byte (.inr hQuote) hMem
  have hEnds : rowEnds s delimiter (read ++ (bytes ++ delimiter)) = true := by
    have hClosed := (hWritten.closed hRead).walk hNoQuote
    rw [← walk_append] at hClosed
    rw [← append_assoc, rowEnds, hClosed.isInQuotes, Bool.not_false, Bool.and_true]
    exact decide_eq_true (suffix_append _ delimiter)
  rcases hWritten with ⟨rfl, hPlain⟩ | ⟨quote, hQuote, rfl⟩
  · obtain ⟨hNot, hClear⟩ := hPlain.clear hSome
    refine ⟨append_ne_nil_of_right_ne_nil _ hSome, hEnds, fun p hPre hNe hStops => ?_⟩
    have hSuffix := suffix_of_rowEnds (hRead.last_notMem hFits) hStops
    exact (first_of_clear hClear hNot hSome).first p hPre hNe (decide_eq_true hSuffix)
  · refine (quotedField_passes hFits hSome hQuote field hRead).first
      ⟨hSome, ?_, fun p hPre _ hStops => ?_⟩
    · rw [append_assoc]
      exact hEnds
    · refine hPre.eq_of_length (le_antisymm hPre.length_le ?_)
      refine (suffix_of_rowEnds (fun x hX => ?_) hStops).length_le
      have hLast : (read ++ quotedField quote field).getLast? = some quote := by
        rw [quotedField, ← cons_append, ← append_assoc, getLast?_concat]
      rw [hLast] at hX
      cases hX
      exact hFits.delimiter _ (.inr hQuote)

include hFits hSome in
theorem joined_first {fields parts : List (List UInt8)}
    (hParts : List.Forall₂ (Written s delimiter) fields parts)
    (hNe : fields ≠ []) {read : List UInt8} (hRead : AtField s read) :
    First (rowEnds s delimiter) read (joined s.separator parts ++ delimiter) := by
  induction hParts generalizing read with
  | nil => exact absurd rfl hNe
  | cons hFirst hRest ih =>
    cases hRest with
    | nil => exact hFirst.first hFits hSome hRead
    | cons hNext hOthers =>
      obtain ⟨hPasses, hField⟩ := hFirst.passes hFits hSome hRead
      have hRow := hPasses.first (ih (cons_ne_nil _ _) hField)
      rw [joined_cons, append_assoc]
      rwa [append_assoc] at hRow

end Rows

/-! ### The text of a row -/

section Texts

variable {s : CsvSyntax} {delimiter : List UInt8} {fields : List String} {parts : List (List UInt8)}

theorem encodeChars_toList (text : String) : encodeChars text.toList = bytesOf text := by
  rw [← bytesOf_ofList, String.ofList_toList]

theorem head_ne_bom {byte : UInt8} (hAscii : byte.toNat < 128) (rest : List UInt8) :
    ¬ utf8Bom <+: byte :: rest := by
  intro hPre
  have hByte := (cons_prefix_cons.mp hPre).1
  rw [← hByte] at hAscii
  exact absurd hAscii (by decide)

/-- A record that is not blank does not begin with a byte-order mark: a field
that does is quoted. -/
theorem joined_bom (hFits : s.Fits delimiter)
    (hParts : WrittenRow s delimiter fields parts)
    (hBlank : joined s.separator parts ≠ []) (rest : List UInt8) :
    ¬ utf8Bom <+: joined s.separator parts ++ rest := by
  have hSeparator := head_ne_bom (hFits.ascii s.separator (.inl rfl))
  have hFirst {field : String} {part : List UInt8}
      (hWritten : Written s delimiter (bytesOf field) part)
      (hNe : part ≠ []) (rest : List UInt8) : ¬ utf8Bom <+: part ++ rest := by
    rcases hWritten with ⟨rfl, hPlain⟩ | ⟨quote, hQuote, rfl⟩
    · cases hChars : field.toList with
      | nil =>
        rw [← encodeChars_toList, hChars] at hNe
        exact absurd rfl hNe
      | cons c chars =>
        rintro ⟨tail, hTail⟩
        rw [← encodeChars_toList, hChars] at hTail
        have hBom : c = .ofNat 0xfeff := encodeChars_head hTail.symm
        refine hPlain.bom ?_
        rw [← encodeChars_toList, hChars, hBom]
        exact prefix_append _ _
    · exact head_ne_bom (hFits.ascii quote (.inr hQuote)) _
  cases hParts with
  | nil => exact absurd rfl hBlank
  | cons hWritten hRest =>
    rename_i field part others rest'
    cases hRest with
    | nil => exact hFirst hWritten hBlank rest
    | cons =>
      rw [joined_cons, append_assoc]
      by_cases hNe : part = []
      · rw [hNe]
        exact hSeparator _
      · exact hFirst hWritten hNe _

def IsText (bytes : List UInt8) : Prop := ∃ chars, encodeChars chars = bytes

theorem IsText.append {a b : List UInt8} (hA : IsText a) (hB : IsText b) : IsText (a ++ b) := by
  obtain ⟨chars, rfl⟩ := hA
  obtain ⟨others, rfl⟩ := hB
  exact ⟨chars ++ others, encodeChars_append chars others⟩

theorem isText_ascii {byte : UInt8} (hAscii : byte.toNat < 128) : IsText [byte] :=
  ⟨[asciiChar byte], by rw [encodeChars_cons, encodeChar_ascii hAscii]; rfl⟩

theorem isText_doubled {quote : UInt8} (hAscii : quote.toNat < 128) (chars : List Char) :
    IsText (doubled quote (encodeChars chars)) := by
  induction chars with
  | nil => exact ⟨[], rfl⟩
  | cons c chars ih =>
    have hOne : IsText (doubled quote (String.utf8EncodeChar c)) := by
      by_cases hMem : quote ∈ String.utf8EncodeChar c
      · obtain rfl := encodeChar_of_mem hAscii hMem
        rw [encodeChar_ascii hAscii]
        simpa [doubled] using (isText_ascii hAscii).append (isText_ascii hAscii)
      · refine ⟨[c], ?_⟩
        rw [encodeChars_cons, encodeChars_nil, append_nil]
        refine (flatMap_congr fun byte hByte => ?_).trans (flatMap_singleton' _) |>.symm
        exact if_neg fun hSame : byte = quote => hMem (hSame ▸ hByte)
    rw [encodeChars_cons, doubled, flatMap_append]
    exact hOne.append ih

section

variable (hFits : s.Fits delimiter)

include hFits

theorem Written.isText {field : String} {part : List UInt8}
    (hWritten : Written s delimiter (bytesOf field) part) : IsText part := by
  rcases hWritten with ⟨rfl, -⟩ | ⟨quote, hQuote, rfl⟩
  · exact ⟨field.toList, encodeChars_toList field⟩
  · have hAscii := hFits.ascii quote (.inr hQuote)
    rw [← encodeChars_toList]
    exact (isText_ascii hAscii).append ((isText_doubled hAscii _).append (isText_ascii hAscii))

theorem joined_isText (hParts : WrittenRow s delimiter fields parts) :
    IsText (joined s.separator parts) := by
  induction hParts with
  | nil => exact ⟨[], rfl⟩
  | cons hFirst hRest ih =>
    cases hRest with
    | nil => exact hFirst.isText hFits
    | cons hNext hOthers =>
      exact (hFirst.isText hFits).append ((isText_ascii (hFits.ascii _ (.inl rfl))).append ih)

/-- No row ends in a carriage return. -/
theorem joined_last (hParts : WrittenRow s delimiter fields parts) :
    (joined s.separator parts).getLast? ≠ some 0x0d := by
  have hOne {field : String} {part : List UInt8}
      (hWritten : Written s delimiter (bytesOf field) part) :
      part.getLast? ≠ some 0x0d := by
    intro hLast
    rcases hWritten with ⟨rfl, hPlain⟩ | ⟨quote, hQuote, rfl⟩
    · have hSpecial := hPlain.special _ (mem_of_getLast? hLast)
      simp [isSpecial] at hSpecial
    · rw [quotedField, ← cons_append, getLast?_concat] at hLast
      exact (hFits.lineBreak quote (.inr hQuote)).2 (Option.some.inj hLast)
  induction hParts with
  | nil => exact fun hLast => by cases hLast
  | cons hFirst hRest ih =>
    cases hRest with
    | nil => exact hOne hFirst
    | cons hNext hOthers =>
      rw [joined_cons, getLast?_append_of_ne_nil _ (cons_ne_nil _ _)]
      rw [← singleton_append]
      rcases eq_nil_or_concat (joined s.separator _) with hNil | ⟨front, last, hConcat⟩
      · rw [hNil]
        exact fun hLast => (hFits.lineBreak _ (.inl rfl)).2 (Option.some.inj hLast)
      · rw [getLast?_append_of_ne_nil _ (by rw [hConcat]; simp)]
        exact ih

end

/-- A written row is read as one record, also when it is blank: then there is no
quote to look for. -/
theorem readRecord_row {dialect : CsvDialect} {found : Option UInt8}
    (hFixed : dialect.separator ≠ .auto) (hSyntax : dialect.syntaxOf found = s)
    (hFits : s.Fits delimiter) (hSome : delimiter ≠ [])
    (hParts : WrittenRow s delimiter fields parts) (hFields : fields ≠ [])
    (hBlank : joined s.separator parts = [] → s.quote = none) (rest : List UInt8) :
    readRecord .csv dialect delimiter found (joined s.separator parts ++ delimiter ++ rest) =
      ⟨joined s.separator parts ++ delimiter, rest, false, found⟩ := by
  have hQuote : s.quote = dialect.quote := hSyntax ▸ dialect.syntaxOf_quote found
  have hFirst : First (recordEnds s delimiter) [] (joined s.separator parts ++ delimiter) := by
    have hBytes := forall₂_map_left_iff.mpr hParts
    have hNe : fields.map bytesOf ≠ [] := fun hNil => hFields (map_eq_nil_iff.mp hNil)
    have hStart : AtField s [] := ⟨by rw [walk]; split <;> rfl, fun byte hByte => by cases hByte⟩
    refine (joined_first hFits hSome hBytes hNe hStart).congr fun p hPre => ?_
    have hBom : utf8Bom <+: p → s.quote = none := by
      intro hIn
      by_contra hQuoted
      exact joined_bom hFits hParts (mt hBlank hQuoted) delimiter (hIn.trans hPre)
    rw [nil_append, recordEnds, rowEnds, feed_eq_walk hBom]
  obtain ⟨byte, tail, hInput⟩ :=
    exists_cons_of_ne_nil (append_ne_nil_of_left_ne_nil hFirst.nonempty rest)
  have hAscii : ∀ quote ∈ dialect.quote, quote.toNat < 128 := fun quote hMem =>
    hFits.ascii quote (.inr (hQuote.trans hMem))
  have hRead := readRecord_csv dialect found byte tail hAscii hSome
  rw [settle_fixed hFixed, ← hInput] at hRead
  generalize readRecord .csv dialect delimiter found
    (joined s.separator parts ++ delimiter ++ rest) = read at hRead ⊢
  obtain ⟨record, left, openQuote, found'⟩ := read
  obtain ⟨hPair, hOpen, hFound⟩ := hRead
  dsimp only at hPair hOpen hFound
  rw [hFound, hSyntax, upTo_first hFirst, nil_append] at hPair
  cases hPair
  have hStops := hFirst.stops
  rw [nil_append, recordEnds, Bool.and_eq_true, Bool.not_eq_true'] at hStops
  rw [hOpen, hFound, hSyntax, hStops.2]

end Texts

end MqBridge.File
