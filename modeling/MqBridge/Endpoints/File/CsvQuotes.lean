import MqBridge.Endpoints.File.CsvRecords

/-! The reader that cuts records and the parser that cuts their fields follow the
quotes each on its own. They have to agree on what is inside quotes. -/
namespace MqBridge.File

open List

open CsvQuoteState

/-- The fields are taken one after the other. The number bounds them. -/
def lastUnended (s : CsvSyntax) : Nat → List UInt8 → Bool
  | 0, _ => false
  | fuel + 1, bytes =>
    let (_, rest, more) := emitCsvField s false true bytes
    if more then !rest.isEmpty && lastUnended s fuel rest else true

/-- Whether the parser stops inside an open section at the end of a text: only there
would a separator be a part of the field. -/
def stopsOpen (s : CsvSyntax) (bytes : List UInt8) : Bool :=
  lastUnended s (bytes.length + 1) (bytes ++ [s.separator])

/-- The flags of the parser behind a text, over the ends of its fields. -/
def openAfter (s : CsvSyntax) : Bool → Bool → List UInt8 → Bool
  | inQuotes, _, [] => inQuotes
  | true, empty, byte :: rest =>
    if byte = s.quote.getD s.separator then
      match rest with
      | next :: after =>
        if next = s.quote.getD s.separator then openAfter s true false after
        else openAfter s false empty (next :: after)
      | [] => false
    else openAfter s true false rest
  | false, empty, byte :: rest =>
    if byte = s.separator then openAfter s false true rest
    else if byte = s.quote.getD s.separator then
      if empty then openAfter s true true rest else openAfter s false false rest
    else openAfter s false false rest

variable {s : CsvSyntax}

/-- How a field ends in a text of so many bytes that is followed by a separator: never,
if the section stays open, at that separator, or at an earlier one. -/
def Ends (s : CsvSyntax) (found : List UInt8 × Bool) (opened : Bool) (length : Nat) : Prop :=
  (found.2 = false ∧ opened = true) ∨ (found = ([], true) ∧ opened = false) ∨
    ∃ later, found = (later ++ [s.separator], true) ∧ later.length < length ∧
      opened = openAfter s false true later

theorem Ends.mono {found : List UInt8 × Bool} {opened : Bool} {length longer : Nat}
    (h : Ends s found opened length) (hLe : length ≤ longer) : Ends s found opened longer :=
  h.imp id (.imp id fun ⟨later, hLater, hLen, hSame⟩ =>
    ⟨later, hLater, hLen.trans_le hLe, hSame⟩)

theorem emitCsvField_ends (inQuotes empty : Bool) (bytes : List UInt8)
    (hQuoted : inQuotes = true → s.quote.getD s.separator ≠ s.separator) :
    Ends s (emitCsvField s inQuotes empty (bytes ++ [s.separator])).2
      (openAfter s inQuotes empty bytes) bytes.length := by
  fun_induction openAfter s inQuotes empty bytes with
  | case1 inQuotes empty =>
    rw [nil_append, emitCsvField.eq_def]
    cases inQuotes with
    | true => simp [Ends, (hQuoted rfl).symm, emitCsvField]
    | false => simp [Ends]
  | case2 empty after ih =>
    rw [cons_append, cons_append, emitCsvField.eq_def]
    simp only [if_true]
    exact (ih hQuoted).mono (by simp only [length_cons]; omega)
  | case3 empty next after hNext ih =>
    rw [cons_append, cons_append, emitCsvField.eq_def]
    simp only [if_true, hNext, if_false]
    exact (ih (absurd · Bool.false_ne_true)).mono (Nat.le_succ _)
  | case4 empty =>
    rw [singleton_append, emitCsvField.eq_def]
    simp [Ends, (hQuoted rfl).symm, emitCsvField]
  | case5 empty byte rest hOther ih =>
    rw [cons_append, emitCsvField.eq_def]
    simp only [if_true, hOther, if_false]
    exact (ih hQuoted).mono (Nat.le_succ _)
  | case6 empty rest =>
    rw [cons_append, emitCsvField.eq_def]
    exact .inr (.inr ⟨rest, by simp, Nat.lt_succ_self _, rfl⟩)
  | case7 rest hSep ih =>
    rw [cons_append, emitCsvField.eq_def]
    simp only [Bool.false_eq_true, if_false, hSep, if_true]
    exact (ih fun _ => hSep).mono (Nat.le_succ _)
  | case8 empty rest hFull hSep ih =>
    rw [cons_append, emitCsvField.eq_def]
    simp only [Bool.false_eq_true, if_false, hSep, if_true, hFull]
    exact (ih (absurd · Bool.false_ne_true)).mono (Nat.le_succ _)
  | case9 empty byte rest hSep hOther ih =>
    rw [cons_append, emitCsvField.eq_def]
    simp only [Bool.false_eq_true, if_false, hSep, hOther]
    exact (ih (absurd · Bool.false_ne_true)).mono (Nat.le_succ _)

theorem lastUnended_eq {fuel : Nat} {bytes : List UInt8} (hFuel : bytes.length < fuel) :
    lastUnended s fuel (bytes ++ [s.separator]) = openAfter s false true bytes := by
  induction fuel generalizing bytes with
  | zero => omega
  | succ fuel ih =>
    rw [lastUnended]
    rcases @emitCsvField_ends s false true bytes nofun with
        ⟨hMore, hOpen⟩ | ⟨hEnd, hOpen⟩ | ⟨later, hEnd, hLen, hOpen⟩
    · simp [hMore, hOpen]
    · simp [hEnd, hOpen]
    · simp [hEnd, hOpen, ih (show later.length < fuel by omega)]

theorem stopsOpen_eq_openAfter (bytes : List UInt8) :
    stopsOpen s bytes = openAfter s false true bytes :=
  lastUnended_eq (Nat.lt_succ_self _)

/-- The flags of the parser are those of the splitter. A quote that is held back is the
one that the parser looks ahead of. -/
theorem openAfter_eq {quote : UInt8} (hQuote : s.quote = some quote) (hDiffer : quote ≠ s.separator)
    (inQuotes empty started : Bool) (bytes : List UInt8) :
    ∀ fieldIsEmpty, (inQuotes = false → fieldIsEmpty = empty) → openAfter s inQuotes empty bytes =
      (bytes.foldl (feedByte s.separator quote)
        ⟨inQuotes, fieldIsEmpty, false, started⟩).isInQuotes := by
  have hByte : s.quote.getD s.separator = quote := by rw [hQuote, Option.getD_some]
  fun_induction openAfter s inQuotes empty bytes with
    intro fieldIsEmpty hEmpty
  | case1 => simp [isInQuotes]
  | case2 empty after ih =>
    rw [ih fieldIsEmpty (by simp), hByte]
    simp [feedByte, isInQuotes]
  | case3 empty next after hNext ih =>
    rw [hByte] at hNext ⊢
    rw [ih empty fun _ => rfl]
    simp [feedByte, isInQuotes, hNext]
  | case4 empty =>
    rw [hByte]
    simp [feedByte, isInQuotes]
  | case5 empty byte rest hOther ih =>
    rw [hByte] at hOther
    rw [ih fieldIsEmpty (by simp)]
    simp [feedByte, isInQuotes, beq_false_of_ne hOther]
  | case6 empty rest ih =>
    rw [ih true fun _ => rfl]
    simp [feedByte, isInQuotes, hDiffer.symm]
  | case7 rest hSep ih =>
    rw [ih true (by simp), hByte]
    simp [feedByte, isInQuotes, hEmpty]
  | case8 empty rest hFull hSep ih =>
    rw [ih false fun _ => rfl, hByte]
    simp [feedByte, isInQuotes, hEmpty, hFull, beq_false_of_ne hDiffer]
  | case9 empty byte rest hSep hOther ih =>
    rw [hByte] at hOther
    rw [ih false fun _ => rfl]
    simp [feedByte, isInQuotes, hOther, beq_false_of_ne hSep]

theorem openAfter_unquoted (hQuote : s.quote = none) (empty : Bool) (bytes : List UInt8) :
    openAfter s false empty bytes = false := by
  induction bytes generalizing empty with
  | nil => rfl
  | cons byte rest ih =>
    by_cases hSep : byte = s.separator
    all_goals simp [openAfter, hQuote, ih, hSep]

/-- The bytes of a record that are parsed: only the first one of a file loses its
byte-order mark. -/
def parsedBytes (isFirst : Bool) (record : List UInt8) : List UInt8 :=
  if isFirst then stripBom record else record

/-! ### Pieces -/

theorem feed_new (record : List UInt8) {quote : UInt8} (hQuote : s.quote = some quote) :
    new.feed s record = walk s fieldStart (stripBom record) := by
  rw [feed, walk, hQuote]
  rfl

/-- Only the first piece can lose a byte-order mark. -/
theorem foldl_feed (first : List UInt8) (rest : List (List UInt8)) {quote : UInt8}
    (hQuote : s.quote = some quote) :
    (first :: rest).foldl (feed s) new = walk s fieldStart (stripBom first ++ rest.flatten) := by
  have hLater (state : CsvQuoteState) (hStarted : state.started = true) :
      rest.foldl (feed s) state = walk s state rest.flatten := by
    induction rest generalizing state with
    | nil => rw [walk, hQuote]; rfl
    | cons next rest ih =>
      have hNext : state.feed s next = walk s state next := by
        obtain ⟨inQuotes, fieldIsEmpty, pendingQuote, started⟩ := state
        cases hStarted
        rw [feed, walk, hQuote]
        rfl
      rw [foldl_cons, flatten_cons, walk_append, hNext]
      exact ih _ (started_walk hStarted next)
  rw [foldl_cons, feed_new first hQuote, walk_append]
  exact hLater _ (started_walk rfl _)

theorem walk_fieldStart (hDiffer : s.quote ≠ some s.separator) {quote : UInt8}
    (hQuote : s.quote = some quote) (bytes : List UInt8) :
    (walk s fieldStart bytes).isInQuotes = stopsOpen s bytes := by
  rw [stopsOpen_eq_openAfter, walk, hQuote,
    openAfter_eq hQuote (quote_ne_separator hDiffer hQuote) false true true _ true fun _ => rfl]
  rfl

variable {delimiter : List UInt8}

/-- No byte of a byte-order mark has a meaning in the syntax. -/
theorem ne_of_mem_bom (hFits : s.Fits delimiter) :
    ∀ byte ∈ utf8Bom, byte ≠ s.separator ∧ byte ≠ s.quote.getD s.separator := by
  intro byte hMem
  have hLarge : ∀ byte ∈ utf8Bom, 128 ≤ byte.toNat := by simp [utf8Bom]
  have hOther {other : UInt8} (hSyntax : other = s.separator ∨ s.quote = some other) :
      byte ≠ other := fun hSame =>
    absurd (hFits.ascii other hSyntax) (not_lt.mpr (hSame ▸ hLarge byte hMem))
  refine ⟨hOther (.inl rfl), hOther ?_⟩
  cases s.quote with
  | none => exact .inl rfl
  | some quote => exact .inr rfl

theorem stopsOpen_bom (hFits : s.Fits delimiter) (bytes : List UInt8) :
    stopsOpen s (utf8Bom ++ bytes) = openAfter s false false bytes := by
  have hBytes := ne_of_mem_bom hFits
  simp only [utf8Bom, forall_mem_cons] at hBytes
  rw [stopsOpen_eq_openAfter]
  simp [utf8Bom, openAfter, hBytes]

theorem walk_bom (hFits : s.Fits delimiter) {quote : UInt8} (hQuote : s.quote = some quote) :
    (walk s fieldStart utf8Bom).fieldIsEmpty = false := by
  have hBytes := ne_of_mem_bom hFits
  simp only [utf8Bom, forall_mem_cons, hQuote, Option.getD_some] at hBytes
  rw [walk, hQuote]
  simp [utf8Bom, fieldStart, feedByte, isInQuotes, hBytes]

/-- Whether a field is empty so far only matters if a quote is next. -/
theorem openAfter_empty {bytes : List UInt8} (hNext : ∀ quote ∈ s.quote, bytes.head? ≠ some quote) :
    openAfter s false false bytes = openAfter s false true bytes := by
  cases bytes with
  | nil => rfl
  | cons byte rest =>
    have hOther (hSep : byte ≠ s.separator) : byte ≠ s.quote.getD s.separator := by
      cases hSome : s.quote with
      | none => exact hSep
      | some quote => exact fun hQuote => hNext quote hSome (congrArg some hQuote)
    by_cases hSep : byte = s.separator
    · rw [openAfter, openAfter, if_pos hSep, if_pos hSep]
    · rw [openAfter, openAfter, if_neg hSep, if_neg hSep, if_neg (hOther hSep),
        if_neg (hOther hSep)]

/-- What has been fed when a part of a piece was read. -/
def Begins (read pieces : List (List UInt8)) : Prop :=
  ∃ done part missed later, pieces = done ++ (part ++ missed) :: later ∧ read = done ++ [part]

/-- The pieces lead to the state of the whole text, and it stops inside quotes for the
reader as for the parser. -/
def Agrees (s : CsvSyntax) (isFirst : Bool) (pieces : List (List UInt8)) : Prop :=
  pieces.foldl (feed s) new = new.feed s pieces.flatten ∧
    ((pieces.foldl (feed s) new).isInQuotes = true ↔
      stopsOpen s (parsedBytes isFirst pieces.flatten) = true)

theorem agrees_unquoted (hQuote : s.quote = none) (isFirst : Bool) (pieces : List (List UInt8)) :
    Agrees s isFirst pieces := by
  have hFeed (bytes : List UInt8) : new.feed s bytes = new := by rw [feed, hQuote]
  have hFold : pieces.foldl (feed s) new = new := by
    induction pieces with
    | nil => rfl
    | cons piece rest ih => rw [foldl_cons, hFeed, ih]
  rw [Agrees, hFold, hFeed, stopsOpen_eq_openAfter, openAfter_unquoted hQuote]
  exact ⟨rfl, .rfl⟩

theorem agrees_of_uncut (hFits : s.Fits delimiter) {first : List UInt8} {rest : List (List UInt8)}
    {isFirst : Bool} {quote : UInt8} (hQuote : s.quote = some quote)
    (hCut : utf8Bom <+: first ++ rest.flatten → utf8Bom <+: first)
    (hMark : isFirst = true ∨ ¬ utf8Bom ++ [quote] <+: first ++ rest.flatten) :
    Agrees s isFirst (first :: rest) := by
  have hStrip : stripBom (first ++ rest.flatten) = stripBom first ++ rest.flatten := by
    by_cases hBom : utf8Bom <+: first ++ rest.flatten
    · obtain ⟨tail, rfl⟩ := hCut hBom
      rfl
    · rw [stripBom_of_not hBom, stripBom_of_not fun h => hBom (h.trans (prefix_append _ _))]
  rw [Agrees, foldl_feed first rest hQuote, flatten_cons, feed_new _ hQuote, hStrip]
  refine ⟨rfl, ?_⟩
  rw [← hStrip, walk_fieldStart hFits.differ hQuote]
  suffices hSame : stopsOpen s (parsedBytes isFirst (first ++ rest.flatten)) =
      stopsOpen s (stripBom (first ++ rest.flatten)) by rw [hSame]
  rcases hMark with rfl | hMark
  · rfl
  · cases isFirst with
    | true => rfl
    | false =>
      by_cases hBom : utf8Bom <+: first ++ rest.flatten
      · obtain ⟨tail, hTail⟩ := hBom
        rw [← hTail] at hMark ⊢
        have hNext : ∀ other ∈ s.quote, tail.head? ≠ some other := by
          rintro other hOther hHead
          cases hQuote.symm.trans hOther
          obtain ⟨more, rfl⟩ := head?_eq_some_iff.mp hHead
          exact hMark ⟨more, by simp⟩
        exact (stopsOpen_bom hFits tail).trans
          ((openAfter_empty hNext).trans (stopsOpen_eq_openAfter tail).symm)
      · rw [stripBom_of_not hBom]
        rfl

/-- Every beginning of the text is the end of a part of a piece. -/
theorem exists_begins (pieces : List (List UInt8)) (hSome : pieces ≠ []) {n : Nat}
    (hLen : n ≤ pieces.flatten.length) :
    ∃ read, Begins read pieces ∧ read.flatten = pieces.flatten.take n := by
  induction pieces generalizing n with
  | nil => exact absurd rfl hSome
  | cons piece rest ih =>
    by_cases hHere : n ≤ piece.length
    · refine ⟨[piece.take n], ⟨[], piece.take n, piece.drop n, rest, ?_, rfl⟩, ?_⟩
      · rw [take_append_drop, nil_append]
      · rw [flatten_singleton, flatten_cons, take_append_of_le_length hHere]
    · rw [flatten_cons, length_append] at hLen
      obtain ⟨read, ⟨done, part, missed, later, rfl, rfl⟩, hRead⟩ :=
        @ih (by rintro rfl; simp at hLen; omega) (n - piece.length)
          (Nat.sub_le_iff_le_add'.mpr hLen)
      refine ⟨piece :: (done ++ [part]), ⟨piece :: done, part, missed, later, rfl, rfl⟩, ?_⟩
      have hPiece : piece.take n = piece := take_of_length_le (Nat.le_of_not_le hHere)
      rw [flatten_cons, hRead, flatten_cons, take_append, hPiece]

theorem Begins.cases {read : List (List UInt8)} {first : List UInt8} {rest : List (List UInt8)}
    (h : Begins read (first :: rest)) :
    read.flatten <+: first ++ rest.flatten ∧
      ((∃ part, read = [part] ∧ part <+: first) ∨ ∃ others, read = first :: others) := by
  obtain ⟨done, part, missed, later, hPieces, rfl⟩ := h
  refine ⟨⟨missed ++ later.flatten, ?_⟩, ?_⟩
  · have hFlat := congrArg flatten hPieces
    rw [flatten_cons] at hFlat
    simp [hFlat]
  · cases done with
    | nil =>
      cases hPieces
      exact .inl ⟨part, rfl, prefix_append _ _⟩
    | cons head done =>
      cases hPieces
      exact .inr ⟨done ++ [part], rfl⟩

/-- All that is fed of a text up to some point. -/
theorem exists_begins_text {first text : List UInt8} {rest : List (List UInt8)}
    (hText : text <+: first ++ rest.flatten) :
    ∃ head others, Begins (head :: others) (first :: rest) ∧ head <+: first ∧
      head ++ others.flatten = text := by
  obtain ⟨read, hBegins, hRead⟩ :=
    exists_begins (first :: rest) (cons_ne_nil _ _) hText.length_le
  rw [flatten_cons, ← prefix_iff_eq_take.mp hText] at hRead
  rcases hBegins.cases.2 with ⟨part, rfl, hPart⟩ | ⟨others, rfl⟩
  · exact ⟨part, [], hBegins, hPart, hRead⟩
  · exact ⟨first, others, hBegins, prefix_rfl, hRead⟩

theorem uncut_of_agrees (hFits : s.Fits delimiter) {first : List UInt8} {rest : List (List UInt8)}
    {isFirst : Bool} {quote : UInt8} (hQuote : s.quote = some quote)
    (hAgrees : ∀ read, Begins read (first :: rest) → Agrees s isFirst read)
    (hBom : utf8Bom <+: first ++ rest.flatten) : utf8Bom <+: first := by
  by_contra hCut
  obtain ⟨head, others, hBegins, hHead, hText⟩ := exists_begins_text hBom
  -- the bytes of the mark are literal, so the field is not empty behind them
  have hState := (hAgrees _ hBegins).1
  rw [foldl_feed head others hQuote, stripBom_of_not fun h => hCut (h.trans hHead), flatten_cons,
    hText, feed_new _ hQuote] at hState
  have hEmpty : (walk s fieldStart (stripBom utf8Bom)).fieldIsEmpty = true := by
    rw [walk, hQuote]
    rfl
  rw [← hState, walk_bom hFits hQuote] at hEmpty
  cases hEmpty

theorem unmarked_of_agrees (hFits : s.Fits delimiter) {first : List UInt8}
    {rest : List (List UInt8)} {quote : UInt8} (hQuote : s.quote = some quote)
    (hAgrees : ∀ read, Begins read (first :: rest) → Agrees s false read) :
    ¬ utf8Bom ++ [quote] <+: first ++ rest.flatten := by
  intro hMarked
  obtain ⟨head, others, hBegins, -, hText⟩ := exists_begins_text hMarked
  obtain ⟨hState, hOpen⟩ := hAgrees _ hBegins
  rw [flatten_cons, hText] at hState hOpen
  have hInside : (new.feed s (utf8Bom ++ [quote])).isInQuotes = true := by
    rw [feed_new _ hQuote, walk, hQuote]
    simp [stripBom, utf8Bom, fieldStart, feedByte, isInQuotes]
  have hClosed : stopsOpen s (utf8Bom ++ [quote]) = false := by
    rw [stopsOpen_bom hFits]
    simp [openAfter, hQuote, quote_ne_separator hFits.differ hQuote]
  rw [hState, hInside, parsedBytes, if_neg Bool.false_ne_true, hClosed] at hOpen
  exact Bool.false_ne_true (hOpen.mp rfl)

/-- The reader may be fed a record in any pieces: at each point the pieces lead to the
state of the whole text, and it stops inside quotes for the reader as for the parser,
if and only if there is no quote character, or no piece ends within a byte-order mark
at the beginning and a later record has no such mark with a quote behind it. -/
theorem splitter_agrees_iff (hFits : s.Fits delimiter) (first : List UInt8)
    (rest : List (List UInt8)) (isFirst : Bool) :
    (∀ read, Begins read (first :: rest) → Agrees s isFirst read) ↔
      s.quote = none ∨ (utf8Bom <+: first ++ rest.flatten → utf8Bom <+: first) ∧
        (isFirst = true ∨ ∀ quote ∈ s.quote, ¬ utf8Bom ++ [quote] <+: first ++ rest.flatten) := by
  cases hQuote : s.quote with
  | none => exact ⟨fun _ => .inl rfl, fun _ read _ => agrees_unquoted hQuote isFirst read⟩
  | some quote =>
    constructor
    · intro hAgrees
      have hCut := uncut_of_agrees hFits hQuote hAgrees
      refine .inr ⟨hCut, ?_⟩
      cases isFirst with
      | true => exact .inl rfl
      | false =>
        refine .inr fun other hOther => ?_
        cases hOther
        exact unmarked_of_agrees hFits hQuote hAgrees
    · rintro (hNone | ⟨hCut, hMark⟩) read hBegins
      · cases hNone
      · obtain ⟨hText, hFirst⟩ := hBegins.cases
        have hMark : isFirst = true ∨ ¬ utf8Bom ++ [quote] <+: read.flatten :=
          hMark.imp_right fun hNot h => hNot quote rfl (h.trans hText)
        rcases hFirst with ⟨part, rfl, -⟩ | ⟨others, rfl⟩
        · exact agrees_of_uncut hFits hQuote (by simp) hMark
        · exact agrees_of_uncut hFits hQuote (fun h => hCut (h.trans hText)) hMark

def commaQuote : CsvSyntax := ⟨0x2c, some 0x22⟩

theorem commaQuote_fits : commaQuote.Fits [0x0a] := by
  have hBytes (P : UInt8 → Prop) (hSep : P 0x2c) (hQuote : P 0x22) :
      ∀ byte, byte = commaQuote.separator ∨ commaQuote.quote = some byte → P byte := by
    rintro byte (rfl | hByte)
    · exact hSep
    · cases hByte
      exact hQuote
  exact ⟨hBytes _ (by decide) (by decide), hBytes _ (by decide) (by decide), by decide,
    hBytes _ (by decide) (by decide)⟩

/-- A first record with a byte-order mark and a quote, in two pieces. -/
theorem splitter_agrees_iff_marked :
    Agrees commaQuote true [utf8Bom ++ [0x22], [0x61]] ∧
      stopsOpen commaQuote (parsedBytes true (utf8Bom ++ [0x22, 0x61])) = true := by
  refine ⟨(splitter_agrees_iff commaQuote_fits (utf8Bom ++ [0x22]) [[0x61]] true).mpr
    (.inr ⟨by decide, .inl rfl⟩) _ ⟨[utf8Bom ++ [0x22]], [0x61], [], [], rfl, rfl⟩, by decide⟩

/-- A later record that begins with a byte-order mark is inside quotes for the reader
only; and a mark that is read in two pieces hides a quote from it. -/
theorem splitter_disagrees :
    ((new.feed commaQuote (utf8Bom ++ [0x22])).isInQuotes = true ∧
      stopsOpen commaQuote (parsedBytes false (utf8Bom ++ [0x22])) = false) ∧
    ([[0xef], [0xbb, 0xbf, 0x22]].foldl (feed commaQuote) new).isInQuotes = false ∧
      (new.feed commaQuote (utf8Bom ++ [0x22])).isInQuotes = true := by
  decide

end MqBridge.File
