import MqBridge.Endpoints.File.CsvDialect
import MqBridge.Json.Compose

/-! Fields of CSV records: how they are written and read back, and the quotes that
tell whether a delimiter is part of a field. -/
namespace MqBridge.File

open List

open Text Delimited

def utf8Bom : List UInt8 := [0xef, 0xbb, 0xbf]

/-! ### Writing -/

/-- A field with such a byte is quoted. Without a quote byte the separator is
compared twice. -/
def isSpecial (s : CsvSyntax) (byte : UInt8) : Bool :=
  byte == s.separator || byte == s.quote.getD s.separator || byte == 0x0a || byte == 0x0d

/-- A field that contains the delimiter, or ends with the beginning of one that
has several bytes. Line breaks are special bytes anyway. -/
def hasDelimiter (delimiter field : List UInt8) : Bool :=
  if delimiter = [] ∨ delimiter = [0x0a] ∨ delimiter = [0x0d, 0x0a] then false
  else decide (delimiter <:+: field) ||
    ((List.range delimiter.length).drop 1).any fun n => decide (delimiter.take n <:+ field)

def doubled (quote : UInt8) (field : List UInt8) : List UInt8 :=
  field.flatMap fun byte => if byte = quote then [byte, byte] else [byte]

def csvAppendField (s : CsvSyntax) (delimiter field : List UInt8) : Except String (List UInt8) :=
  let special := field.any (isSpecial s) || utf8Bom.isPrefixOf field
  if !special && !hasDelimiter delimiter field then .ok field
  else
    match s.quote with
    | none =>
      .error ("the value holds the separator, a line break or the record delimiter, which " ++
        "`quote: none` cannot write")
    | some quote => .ok (quote :: (doubled quote field ++ [quote]))

def appendFields (s : CsvSyntax) (delimiter : List UInt8) : List String → Except String (List UInt8)
  | [] => .ok []
  | [field] => csvAppendField s delimiter (bytesOf field)
  | field :: rest =>
    (csvAppendField s delimiter (bytesOf field)).bind fun bytes =>
      (appendFields s delimiter rest).map fun others => bytes ++ s.separator :: others

/-- A record of one empty field is written with quotes: a blank one is skipped
by readers. -/
def quoteBlankRecord (s : CsvSyntax) (fields : Nat) (record : List UInt8) : List UInt8 :=
  match s.quote with
  | some quote => if fields = 1 ∧ record = [] then [quote, quote] else record
  | none => record

def csvEncodeRow (s : CsvSyntax) (delimiter : List UInt8) (fields : List String) :
    Except String (List UInt8) :=
  (appendFields s delimiter fields).map (quoteBlankRecord s fields.length)

/-! ### Reading -/

def jsonEscaped (byte : UInt8) : List UInt8 :=
  if byte = 0x22 then [0x5c, 0x22]
  else if byte = 0x5c then [0x5c, 0x5c]
  else if byte = 0x0a then [0x5c, 0x6e]
  else if byte = 0x0d then [0x5c, 0x72]
  else if byte = 0x09 then [0x5c, 0x74]
  else if byte = 0x08 then [0x5c, 0x62]
  else if byte = 0x0c then [0x5c, 0x66]
  else if byte < 0x20 then
    [0x5c, 0x75, 0x30, 0x30, Json.hexLetter (byte.toNat / 16), Json.hexLetter (byte.toNat % 16)]
  else [byte]

def jsonAppendEscaped (bytes : List UInt8) : List UInt8 := bytes.flatMap jsonEscaped

/-- The next field as it is written in a JSON string, what follows it, and
whether a separator ended it. A quote opens a section only while the field is
empty; in a section two quotes stand for one. -/
def emitCsvField (s : CsvSyntax) : Bool → Bool → List UInt8 → List UInt8 × List UInt8 × Bool
  | _, _, [] => ([], [], false)
  | inQuotes, empty, byte :: rest =>
    let quote := s.quote.getD s.separator
    let literal (found : List UInt8 × List UInt8 × Bool) := (jsonEscaped byte ++ found.1, found.2)
    if inQuotes then
      if byte = quote then
        match rest with
        | next :: after =>
          if next = quote then literal (emitCsvField s true false after)
          else emitCsvField s false empty (next :: after)
        | [] => ([], [], false)
      else literal (emitCsvField s true false rest)
    else if byte = s.separator then ([], rest, true)
    else if byte = quote then
      if empty then emitCsvField s true true rest else literal (emitCsvField s false false rest)
    else literal (emitCsvField s false false rest)

/-! ### Quotes -/

/-- Whether the bytes read so far stop inside an open quote. The last quote may
be the first of two, so it is held back until the next byte. -/
structure CsvQuoteState where
  inQuotes : Bool
  fieldIsEmpty : Bool
  pendingQuote : Bool
  started : Bool
  deriving DecidableEq

namespace CsvQuoteState

def new : CsvQuoteState := ⟨false, true, false, false⟩

def isInQuotes (state : CsvQuoteState) : Bool := state.inQuotes && !state.pendingQuote

/-- The source jumps from one quote to the next. A quote that was held back was
the closing one unless the next byte is a quote, too. -/
def feedByte (separator quote : UInt8) (state : CsvQuoteState) (byte : UInt8) : CsvQuoteState :=
  if state.pendingQuote && byte == quote then { state with pendingQuote := false }
  else if state.isInQuotes then { state with pendingQuote := byte == quote }
  else if byte = quote then
    if state.fieldIsEmpty then { state with inQuotes := true, pendingQuote := false }
    else { state with inQuotes := false, pendingQuote := false, fieldIsEmpty := quote == separator }
  else { state with inQuotes := false, pendingQuote := false, fieldIsEmpty := byte == separator }

def stripBom (bytes : List UInt8) : List UInt8 :=
  if utf8Bom.isPrefixOf bytes then bytes.drop 3 else bytes

/-- Without a quote byte nothing can open a section. A byte-order mark at the
beginning is no part of the first field. -/
def feed (s : CsvSyntax) (state : CsvQuoteState) (bytes : List UInt8) : CsvQuoteState :=
  match s.quote with
  | none => state
  | some quote =>
    (if state.started then bytes else stripBom bytes).foldl (feedByte s.separator quote)
      { state with started := true }

end CsvQuoteState

/-! ### Fields as they are written -/

def quotedField (quote : UInt8) (field : List UInt8) : List UInt8 :=
  quote :: (doubled quote field ++ [quote])

structure Plain (s : CsvSyntax) (delimiter field : List UInt8) : Prop where
  special : ∀ byte ∈ field, isSpecial s byte = false
  bom : ¬ utf8Bom <+: field
  delimiter : hasDelimiter delimiter field = false

def Written (s : CsvSyntax) (delimiter field bytes : List UInt8) : Prop :=
  bytes = field ∧ Plain s delimiter field ∨ ∃ quote, s.quote = some quote ∧
    bytes = quotedField quote field

def WrittenRow (s : CsvSyntax) (delimiter : List UInt8) : List String → List (List UInt8) → Prop :=
  List.Forall₂ fun field => Written s delimiter (bytesOf field)

def joined (separator : UInt8) : List (List UInt8) → List UInt8
  | [] => []
  | [part] => part
  | part :: rest => part ++ separator :: joined separator rest

theorem joined_cons (separator : UInt8) (part next : List UInt8) (rest : List (List UInt8)) :
    joined separator (part :: next :: rest) =
      part ++ separator :: joined separator (next :: rest) := rfl

section Writing

variable {s : CsvSyntax} {delimiter : List UInt8}

theorem csvAppendField_written {field bytes : List UInt8}
    (hField : csvAppendField s delimiter field = .ok bytes) : Written s delimiter field bytes := by
  rw [csvAppendField] at hField
  split_ifs at hField with hPlain
  · cases hField
    simp only [Bool.and_eq_true, Bool.not_eq_true', Bool.or_eq_false_iff, any_eq_false] at hPlain
    refine .inl ⟨rfl, fun byte hMem => Bool.eq_false_iff.mpr (hPlain.1.1 byte hMem), fun hBom => ?_,
      hPlain.2⟩
    have hStarts := isPrefixOf_iff_prefix.mpr hBom
    rw [hStarts] at hPlain
    cases hPlain.1.2
  · cases hQuote : s.quote with
    | none =>
      rw [hQuote] at hField
      cases hField
    | some quote =>
      rw [hQuote] at hField
      cases hField
      exact .inr ⟨quote, hQuote, rfl⟩

theorem appendFields_written {fields : List String} {record : List UInt8}
    (hRecord : appendFields s delimiter fields = .ok record) :
    ∃ parts, WrittenRow s delimiter fields parts ∧ record = joined s.separator parts := by
  induction fields generalizing record with
  | nil =>
    cases hRecord
    exact ⟨[], .nil, rfl⟩
  | cons field rest ih =>
    cases rest with
    | nil => exact ⟨[record], .cons (csvAppendField_written hRecord) .nil, rfl⟩
    | cons next rest =>
      obtain ⟨bytes, hField, hRest⟩ := Outcome.bind_eq_ok.mp hRecord
      obtain ⟨others, hOthers, rfl⟩ := Outcome.map_eq_ok.mp hRest
      obtain ⟨parts, hParts, rfl⟩ := ih hOthers
      refine ⟨bytes :: parts, .cons (csvAppendField_written hField) hParts, ?_⟩
      cases hParts
      rfl

theorem length_eq_one_of_joined {fields : List String} {parts : List (List UInt8)}
    (hSome : fields ≠ []) (hParts : WrittenRow s delimiter fields parts)
    (hBlank : joined s.separator parts = []) : fields.length = 1 := by
  cases hParts with
  | nil => exact absurd rfl hSome
  | cons hFirst hRest =>
    cases hRest with
    | nil => rfl
    | cons hNext hOthers =>
      rw [joined_cons] at hBlank
      exact absurd hBlank (append_ne_nil_of_right_ne_nil _ (cons_ne_nil _ _))

/-- A record is made of its written fields; an empty one may be quoted, too. -/
theorem csvEncodeRow_written {fields : List String} {record : List UInt8} (hSome : fields ≠ [])
    (hRecord : csvEncodeRow s delimiter fields = .ok record) :
    ∃ parts, WrittenRow s delimiter fields parts ∧ record = joined s.separator parts := by
  obtain ⟨plain, hPlain, rfl⟩ := Outcome.map_eq_ok.mp hRecord
  obtain ⟨parts, hParts, rfl⟩ := appendFields_written hPlain
  rw [quoteBlankRecord]
  cases hQuote : s.quote with
  | none => exact ⟨parts, hParts, rfl⟩
  | some quote =>
    split_ifs with hBlank
    · cases hParts with
      | nil => exact absurd rfl hSome
      | cons hFirst hRest =>
        cases hRest with
        | cons => simp at hBlank
        | nil =>
          refine ⟨[[quote, quote]], .cons (.inr ⟨quote, hQuote, ?_⟩) .nil, rfl⟩
          have hEmpty := hBlank.2
          rw [joined] at hEmpty
          rcases hFirst with ⟨hSame, -⟩ | ⟨other, -, hQuoted⟩
          · rw [← hSame, hEmpty]
            rfl
          · rw [hQuoted] at hEmpty
            cases hEmpty
    · exact ⟨parts, hParts, rfl⟩

end Writing

/-! ### Reading fields back -/

section Reading

variable {s : CsvSyntax} {delimiter : List UInt8}

theorem quote_ne_separator (hDiffer : s.quote ≠ some s.separator) {quote : UInt8}
    (hQuote : s.quote = some quote) : quote ≠ s.separator := by
  rintro rfl
  exact hDiffer hQuote

def fieldEnd (s : CsvSyntax) : Option (List UInt8) → List UInt8
  | none => []
  | some rest => s.separator :: rest

theorem emit_fieldEnd (empty : Bool) (rest : Option (List UInt8)) :
    emitCsvField s false empty (fieldEnd s rest) = ([], rest.getD [], rest.isSome) := by
  cases rest with
  | none => rfl
  | some rest =>
    rw [fieldEnd, emitCsvField.eq_def]
    simp

theorem emit_plain {field : List UInt8} (hPlain : ∀ byte ∈ field, isSpecial s byte = false)
    (empty : Bool) (rest : Option (List UInt8)) :
    emitCsvField s false empty (field ++ fieldEnd s rest) =
      (jsonAppendEscaped field, rest.getD [], rest.isSome) := by
  induction field generalizing empty with
  | nil => exact emit_fieldEnd empty rest
  | cons byte field ih =>
    obtain ⟨hByte, hField⟩ := forall_mem_cons.mp hPlain
    simp only [isSpecial, Bool.or_eq_false_iff, beq_eq_false_iff_ne] at hByte
    rw [emitCsvField.eq_def]
    simp [hByte, ih hField, jsonAppendEscaped]

/-- Inside a section two quotes stand for one, and a single one closes it. -/
theorem emit_section {quote : UInt8} (hQuote : s.quote = some quote) (hDiffer : quote ≠ s.separator)
    (field : List UInt8) (empty : Bool) (rest : Option (List UInt8)) :
    emitCsvField s true empty (doubled quote field ++ quote :: fieldEnd s rest) =
      (jsonAppendEscaped field, rest.getD [], rest.isSome) := by
  induction field generalizing empty with
  | nil =>
    rw [doubled, emitCsvField.eq_def]
    cases rest with
    | none => simp [fieldEnd, hQuote, jsonAppendEscaped]
    | some rest =>
      have hEnd : emitCsvField s false empty (fieldEnd s (some rest)) = _ :=
        emit_fieldEnd empty (some rest)
      rw [fieldEnd] at hEnd
      simp [fieldEnd, hQuote, hDiffer.symm, hEnd, jsonAppendEscaped]
  | cons byte field ih =>
    rw [doubled] at ih
    rw [doubled, flatMap_cons]
    split_ifs with hByte
    · rw [emitCsvField.eq_def]
      simp [hByte, hQuote, ih, jsonAppendEscaped]
    · rw [emitCsvField.eq_def]
      simp [hByte, hQuote, ih, jsonAppendEscaped]

variable {field bytes : List UInt8}

variable (hDiffer : s.quote ≠ some s.separator)

include hDiffer

variable (hWritten : Written s delimiter field bytes)

include hWritten

/-- A written field is read back. -/
theorem emit_written (rest : Option (List UInt8)) :
    emitCsvField s false true (bytes ++ fieldEnd s rest) =
      (jsonAppendEscaped field, rest.getD [], rest.isSome) := by
  rcases hWritten with ⟨rfl, hPlain⟩ | ⟨quote, hQuote, rfl⟩
  · exact emit_plain hPlain.special true rest
  · have hSection := emit_section hQuote (quote_ne_separator hDiffer hQuote) field true rest
    rw [quotedField, emitCsvField.eq_def]
    simp [hQuote, quote_ne_separator hDiffer hQuote, hSection]

theorem emit_last :
    emitCsvField s false true bytes = (jsonAppendEscaped field, [], false) := by
  have hField := emit_written hDiffer hWritten none
  rwa [fieldEnd, append_nil] at hField

theorem emit_next (rest : List UInt8) :
    emitCsvField s false true (bytes ++ s.separator :: rest) =
      (jsonAppendEscaped field, rest, true) :=
  emit_written hDiffer hWritten (some rest)

end Reading

/-! ### Where records end -/

namespace CsvQuoteState

def fieldStart : CsvQuoteState := ⟨false, true, false, true⟩

def walk (s : CsvSyntax) (state : CsvQuoteState) (bytes : List UInt8) : CsvQuoteState :=
  match s.quote with
  | none => state
  | some quote => bytes.foldl (feedByte s.separator quote) state

/-- Outside quotes, or right after what may have been the closing one. -/
def Closed (state : CsvQuoteState) : Prop := state.pendingQuote = state.inQuotes

section Walk

variable {s : CsvSyntax} {state : CsvQuoteState}

theorem walk_append (a b : List UInt8) : walk s state (a ++ b) = walk s (walk s state a) b := by
  cases hQuote : s.quote with
  | none | some => simp [walk, hQuote]

variable {bytes : List UInt8}

theorem stripBom_of_not (hBom : ¬ utf8Bom <+: bytes) : stripBom bytes = bytes :=
  if_neg <| mt isPrefixOf_iff_prefix.mp hBom

theorem feed_eq_walk (hBom : utf8Bom <+: bytes → s.quote = none) :
    (feed s new bytes).isInQuotes = (walk s fieldStart bytes).isInQuotes := by
  cases hQuote : s.quote with
  | none =>
    rw [feed, walk, hQuote]
    rfl
  | some quote =>
    have hNone : ¬ utf8Bom <+: bytes := fun hIn => by simp [hBom hIn] at hQuote
    simp [feed, walk, hQuote, new, fieldStart, stripBom_of_not hNone]

section

variable (hClosed : Closed state)

include hClosed

theorem Closed.isInQuotes : state.isInQuotes = false := by
  rw [CsvQuoteState.isInQuotes, hClosed, Bool.and_not_self]

theorem Closed.feedByte {separator quote byte : UInt8} (hByte : byte ≠ quote) :
    CsvQuoteState.feedByte separator quote state byte =
      { state with inQuotes := false, pendingQuote := false, fieldIsEmpty :=
        byte == separator } := by
  simp [CsvQuoteState.feedByte, hByte, hClosed.isInQuotes]

theorem Closed.walk (hBytes : ∀ byte ∈ bytes, s.quote ≠ some byte) :
    Closed (walk s state bytes) := by
  cases hQuote : s.quote with
  | none =>
    rw [CsvQuoteState.walk, hQuote]
    exact hClosed
  | some quote =>
    rw [CsvQuoteState.walk, hQuote]
    induction bytes generalizing state with
    | nil => exact hClosed
    | cons byte bytes ih =>
      obtain ⟨hByte, hRest⟩ := forall_mem_cons.mp hBytes
      have hOther : byte ≠ quote := by
        rintro rfl
        exact hByte hQuote
      dsimp only [foldl_cons]
      rw [hClosed.feedByte hOther]
      exact ih rfl hRest

end

theorem started_walk (hStarted : state.started = true) (bytes : List UInt8) :
    (walk s state bytes).started = true := by
  cases hQuote : s.quote with
  | none => rwa [walk, hQuote]
  | some quote =>
    rw [walk, hQuote]
    induction bytes generalizing state with
    | nil => exact hStarted
    | cons byte bytes ih =>
      apply ih
      rw [feedByte]
      split_ifs
      all_goals exact hStarted

/-- A separator begins a field. -/
theorem Closed.separator (hDiffer : s.quote ≠ some s.separator)
    (hClosed : Closed (CsvQuoteState.walk s fieldStart bytes)) :
    CsvQuoteState.walk s fieldStart (bytes ++ [s.separator]) = fieldStart := by
  rw [walk_append]
  cases hQuote : s.quote with
  | none => simp [CsvQuoteState.walk, hQuote]
  | some quote =>
    have hOther : s.separator ≠ quote := by
      rintro rfl
      exact hDiffer hQuote
    have hByte (after : CsvQuoteState) :
        .walk s after [s.separator] =
          CsvQuoteState.feedByte s.separator quote after s.separator := by
      rw [CsvQuoteState.walk, hQuote]
      rfl
    rw [hByte, hClosed.feedByte hOther, started_walk rfl, beq_self_eq_true]
    rfl

end Walk

end CsvQuoteState

section Sections

open CsvQuoteState

variable {s : CsvSyntax} {quote : UInt8}

def openSection : CsvQuoteState := ⟨true, true, false, true⟩

def heldQuote : CsvQuoteState := ⟨true, true, true, true⟩

theorem openSection_quote (separator quote : UInt8) :
    feedByte separator quote openSection quote = heldQuote := by
  simp [feedByte, openSection, heldQuote, isInQuotes]

theorem heldQuote_quote (separator quote : UInt8) :
    feedByte separator quote heldQuote quote = openSection := by
  simp [feedByte, openSection, heldQuote]

theorem openSection_other {separator byte : UInt8} (hByte : byte ≠ quote) :
    feedByte separator quote openSection byte = openSection := by
  simp [feedByte, openSection, isInQuotes, hByte]

variable (hQuote : s.quote = some quote)

include hQuote

theorem walk_doubled (field : List UInt8) :
    walk s openSection (doubled quote field) = openSection := by
  rw [walk, hQuote]
  dsimp only
  induction field with
  | nil => rfl
  | cons byte field ih =>
    rw [doubled] at ih
    rw [doubled, flatMap_cons, foldl_append]
    split_ifs with hByte
    · rw [hByte, foldl_cons, foldl_cons, foldl_nil, openSection_quote, heldQuote_quote, ih]
    · rw [foldl_cons, foldl_nil, openSection_other hByte, ih]

/-- A section stays open until its closing quote; only a quote inside it is
held back. -/
theorem walk_prefix_doubled {field p : List UInt8}
    (hPre : p <+: doubled quote field) (hLast : p.getLast? ≠ some quote) :
    (walk s openSection p).isInQuotes = true := by
  induction field generalizing p with
  | nil =>
    rw [doubled, flatMap_nil, prefix_nil] at hPre
    rw [hPre, walk, hQuote]
    rfl
  | cons byte field ih =>
    -- the prefix ends in what is written for the byte, or goes on after it
    have hOne :
        walk s openSection (if byte = quote then [byte, byte] else [byte]) = openSection := by
      have hWhole := walk_doubled hQuote [byte]
      rwa [doubled, flatMap_cons, flatMap_nil, append_nil] at hWhole
    rw [doubled, flatMap_cons] at hPre
    rcases prefix_append_cases hPre with hShort | ⟨rest, rfl, hNe, hRest⟩
    · have hEnds : p = [] ∨ p = if byte = quote then [byte, byte] else [byte] := by
        split_ifs at hShort ⊢ with hByte
        · rcases prefix_cons_iff.mp hShort with rfl | ⟨tail, rfl, hTail⟩
          · exact .inl rfl
          · rcases (infix_singleton_iff _ _).mp hTail.isInfix with rfl | rfl
            · rw [hByte] at hLast
              exact absurd rfl hLast
            · exact .inr rfl
        · exact (infix_singleton_iff _ _).mp hShort.isInfix
      rcases hEnds with rfl | rfl
      · rw [walk, hQuote]
        rfl
      · rw [hOne]
        rfl
    · rw [walk_append, hOne]
      refine ih hRest ?_
      rwa [getLast?_append_of_ne_nil _ hNe] at hLast

theorem walk_open : walk s fieldStart [quote] = openSection := by
  rw [walk, hQuote]
  simp [feedByte, fieldStart, openSection, isInQuotes]

theorem closed_quotedField (field : List UInt8) :
    Closed (walk s fieldStart (quotedField quote field)) := by
  have hSplit : quotedField quote field = [quote] ++ (doubled quote field ++ [quote]) := rfl
  rw [hSplit, walk_append, walk_open hQuote, walk_append, walk_doubled hQuote, walk, hQuote]
  dsimp only [foldl_cons]
  rw [openSection_quote]
  rfl

end Sections

end MqBridge.File
