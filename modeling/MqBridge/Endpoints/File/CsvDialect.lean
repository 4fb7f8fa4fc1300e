import MqBridge.Endpoints.File.Records
import MqBridge.Machine.Outcome

/-! The CSV dialect of an endpoint: the bytes that carry the syntax of a record,
where the names of the columns come from, and what the settings are checked for. -/
namespace MqBridge.File

open List

open Text

/-- The bytes that carry CSV syntax. Without a quote every field is unquoted. -/
structure CsvSyntax where
  separator : UInt8
  quote : Option UInt8
  deriving DecidableEq

inductive Separator where
  | fixed (byte : UInt8)
  /-- Guessed from the first record. -/
  | auto
  deriving DecidableEq

/-- What an automatic separator is chosen from; on a tie the first one is taken. -/
def autoCandidates : List UInt8 := [0x2c, 0x3b, 0x09, 0x7c]

structure CsvDialect where
  separator : Separator
  quote : Option UInt8
  /-- The first record names the columns. -/
  header : Bool
  /-- They take the place of the header's names. -/
  columns : Option (List String)
  /-- Nested objects become columns of their own. -/
  flatten : Bool
  /-- A record whose keys differ from the columns fails. -/
  strict : Bool
  deriving DecidableEq

def CsvDialect.default : CsvDialect := ⟨.fixed 0x2c, some 0x22, true, none, true, false⟩

inductive CsvNested where
  | flatten
  | json
  deriving DecidableEq

inductive CsvMismatch where
  | warn
  | fail
  deriving DecidableEq

structure CsvConfig where
  separator : Option String
  quote : Option String
  header : Option Bool
  columns : List String
  nested : CsvNested
  onMismatch : CsvMismatch

/-- One ASCII byte: a character, a name or hexadecimal digits. -/
def parseByte (value what : String) : Except String UInt8 :=
  let invalid := "csv: `" ++ what ++
    "` must be one ASCII character, `tab`, `space` or hex like 0x1f, got '" ++ value ++ "'"
  let byte :=
    if value = "tab" ∨ value = "\\t" then some 0x09
    else if value = "space" then some 0x20
    else if value = "comma" then some 0x2c
    else if value = "semicolon" then some 0x3b
    else if value = "pipe" then some 0x7c
    else
      match bytesOf value with
      | [0x30, 0x78, high, low] => hexByte [high, low]
      | [one] => some one
      | _ => none
  match byte with
  | none => .error invalid
  | some byte => if 0x80 ≤ byte ∨ byte = 0x0a ∨ byte = 0x0d then .error invalid else .ok byte

def firstRepeated : List String → List String → Option String
  | _, [] => none
  | seen, name :: rest => if name ∈ seen then some name else firstRepeated (name :: seen) rest

namespace CsvDialect

def quoteOf : Option String → Except String (Option UInt8)
  | some value => if value = "none" then .ok none else (parseByte value "quote").map some
  | none => .ok (some 0x22)

def separatorOf : Option String → Except String Separator
  | some value => if value = "auto" then .ok .auto else (parseByte value "separator").map .fixed
  | none => .ok (.fixed 0x2c)

def columnsOf (columns : List String) : Option (List String) := if columns = [] then none else
    some columns

def separators : Separator → List UInt8
  | .fixed byte => [byte]
  | .auto => autoCandidates

def fromConfig (config : CsvConfig) (delimiter : List UInt8) : Except String CsvDialect :=
  (quoteOf config.quote).bind fun quote =>
    (separatorOf config.separator).bind fun separator =>
      if quote.any fun byte => (separators separator).contains byte then
        .error "csv: `separator` and `quote` must differ"
      else if (separators separator ++ quote.toList).any fun byte => delimiter.contains byte then
        .error "csv: the record `delimiter` must not contain the `separator` or `quote`"
      else
        match firstRepeated [] config.columns with
        | some name => .error ("csv: `columns` repeats '" ++ name ++ "'")
        | none =>
          .ok ⟨separator, quote, config.header.getD true, columnsOf config.columns,
            config.nested = .flatten, config.onMismatch = .fail⟩

def forFormat (format : FileFormat) (config : CsvConfig) (delimiter : List UInt8) :
    Except String CsvDialect :=
  if format = .csv then fromConfig config delimiter else .ok default

/-- A source has nothing else to name its columns by. -/
def checkSource (dialect : CsvDialect) : Except String Unit :=
  if !dialect.header && dialect.columns.isNone then
    .error "csv: a source with `header: false` needs `columns`"
  else if dialect.strict then
    .error "csv: `on_mismatch: fail` is for sinks; a source reads short and long rows as they are"
  else .ok ()

/-- The syntax to read or write with. A separator that was not found yet is a comma. -/
def syntaxOf (dialect : CsvDialect) (found : Option UInt8) : CsvSyntax :=
  match dialect.separator with
  | .fixed byte => ⟨byte, dialect.quote⟩
  | .auto => ⟨found.getD 0x2c, dialect.quote⟩

/-- How often each candidate was met outside quotes. A quote opens a section at
the start of a field, or right after one was closed. -/
def countCandidates (quote : Option UInt8) : Bool → Bool → List Nat → List UInt8 → List Nat
  | _, _, counts, [] => counts
  | inQuotes, mayOpen, counts, byte :: rest =>
    if some byte = quote then
      if inQuotes then countCandidates quote false true counts rest
      else countCandidates quote mayOpen false counts rest
    else if inQuotes then countCandidates quote inQuotes mayOpen counts rest
    else
      match autoCandidates.findIdx? (· = byte) with
      | some i => countCandidates quote inQuotes true (counts.modify i (· + 1)) rest
      | none => countCandidates quote inQuotes false counts rest

def guessSeparator (record : List UInt8) (quote : Option UInt8) : UInt8 :=
  let counts := countCandidates quote false true [0, 0, 0, 0] record
  let best := (List.range 4).foldl
    (fun best i => if counts.getD best 0 < counts.getD i 0 then i else best) 0
  autoCandidates.getD best 0x2c

def settle (dialect : CsvDialect) (found : Option UInt8) (record : List UInt8) : Option UInt8 :=
  match dialect.separator with
  | .fixed _ => found
  | .auto => some (found.getD (guessSeparator record dialect.quote))

end CsvDialect

/-! ### What is accepted -/

/-- What a record can rely on: the bytes of the syntax are ASCII, different from
each other and from line breaks, and not in the delimiter. -/
structure CsvSyntax.Fits (s : CsvSyntax) (delimiter : List UInt8) : Prop where
  ascii : ∀ byte, byte = s.separator ∨ s.quote = some byte → byte.toNat < 128
  lineBreak : ∀ byte, byte = s.separator ∨ s.quote = some byte → byte ≠ 0x0a ∧ byte ≠ 0x0d
  differ : s.quote ≠ some s.separator
  delimiter : ∀ byte, byte = s.separator ∨ s.quote = some byte → byte ∉ delimiter

section Accepted

variable {config : CsvConfig} {delimiter : List UInt8} {dialect : CsvDialect}

def IsSyntaxByte (byte : UInt8) : Prop := byte.toNat < 128 ∧ byte ≠ 0x0a ∧ byte ≠ 0x0d

theorem parseByte_spec {value what : String} {byte : UInt8}
    (hByte : parseByte value what = .ok byte) : IsSyntaxByte byte := by
  rw [parseByte] at hByte
  split at hByte
  next => cases hByte
  next found hFound =>
    split_ifs at hByte with hInvalid
    cases hByte
    rw [not_or, not_or] at hInvalid
    refine ⟨?_, hInvalid.2⟩
    exact UInt8.lt_iff_toNat_lt.mp (UInt8.not_le.mp hInvalid.1)

theorem quoteOf_spec {setting : Option String} {quote : Option UInt8}
    (hQuote : CsvDialect.quoteOf setting = .ok quote) : ∀ byte ∈ quote, IsSyntaxByte byte := by
  cases setting with
  | none =>
    cases hQuote
    rintro byte hByte
    cases hByte
    exact ⟨by decide, by decide, by decide⟩
  | some value =>
    rw [CsvDialect.quoteOf] at hQuote
    split_ifs at hQuote
    · cases hQuote
      exact fun byte hByte => by cases hByte
    · obtain ⟨parsed, hParsed, rfl⟩ := Outcome.map_eq_ok.mp hQuote
      rintro byte hByte
      cases hByte
      exact parseByte_spec hParsed

theorem separatorOf_spec {setting : Option String} {byte : UInt8}
    (hSeparator : CsvDialect.separatorOf setting = .ok (.fixed byte)) : IsSyntaxByte byte := by
  cases setting with
  | none =>
    cases hSeparator
    exact ⟨by decide, by decide, by decide⟩
  | some value =>
    rw [CsvDialect.separatorOf] at hSeparator
    split_ifs at hSeparator
    · cases hSeparator
    · obtain ⟨parsed, hParsed, hSame⟩ := Outcome.map_eq_ok.mp hSeparator
      cases hSame
      exact parseByte_spec hParsed

theorem nodup_of_firstRepeated {seen names : List String} (hNone : firstRepeated seen names = none)
    (hSeen : seen.Nodup) : (seen ++ names).Nodup := by
  induction names generalizing seen with
  | nil => rwa [append_nil]
  | cons name rest ih =>
    rw [firstRepeated] at hNone
    split_ifs at hNone with hMem
    have hNext := ih hNone (nodup_cons.mpr ⟨hMem, hSeen⟩)
    exact (perm_middle.nodup_iff).mpr hNext

/-- The checks of the settings. -/
theorem CsvDialect.fromConfig_spec
    (hDialect : CsvDialect.fromConfig config delimiter = .ok dialect) :
    CsvDialect.quoteOf config.quote = .ok dialect.quote ∧
      CsvDialect.separatorOf config.separator = .ok dialect.separator ∧
      (∀ byte ∈ dialect.quote, byte ∉ CsvDialect.separators dialect.separator) ∧
      (∀ byte ∈ CsvDialect.separators dialect.separator ++ dialect.quote.toList, byte ∉ delimiter) ∧
      (∀ columns ∈ dialect.columns, columns ≠ [] ∧ columns.Nodup) := by
  obtain ⟨quote, hQuote, hDialect⟩ := Outcome.bind_eq_ok.mp hDialect
  obtain ⟨separator, hSeparator, hDialect⟩ := Outcome.bind_eq_ok.mp hDialect
  split_ifs at hDialect with hDiffer hDelim
  split at hDialect
  next => cases hDialect
  next hNone =>
    cases hDialect
    refine ⟨hQuote, hSeparator, fun byte hByte hMem => hDiffer ?_, fun byte hMem hIn =>
      hDelim ?_, fun columns hCols => ?_⟩
    · have hSome : quote = some byte := hByte
      rw [hSome, Option.any_some, contains_iff_mem]
      exact hMem
    · exact any_eq_true.mpr ⟨byte, hMem, contains_iff_mem.mpr hIn⟩
    · rw [columnsOf] at hCols
      split_ifs at hCols with hEmpty
      · cases hCols
      · cases hCols
        exact ⟨hEmpty, nodup_of_firstRepeated hNone nodup_nil⟩

theorem CsvDialect.syntaxOf_quote (dialect : CsvDialect) (found : Option UInt8) :
    (dialect.syntaxOf found).quote = dialect.quote := by
  rw [syntaxOf]
  split <;> rfl

theorem settle_fixed (hFixed : dialect.separator ≠ .auto) (found : Option UInt8)
    (record : List UInt8) : dialect.settle found record = found := by
  cases hSep : dialect.separator with
  | auto => exact absurd hSep hFixed
  | fixed byte => rw [CsvDialect.settle, hSep]

/-- The syntax of an accepted dialect whose separator is fixed. -/
theorem CsvDialect.fits (hDialect : CsvDialect.fromConfig config delimiter = .ok dialect)
    (hSeparator : dialect.separator ≠ .auto) (found : Option UInt8) :
    (dialect.syntaxOf found).Fits delimiter := by
  obtain ⟨hQuote, hFixed, hDiffer, hDelim, -⟩ := fromConfig_spec hDialect
  cases hSep : dialect.separator with
  | auto => exact absurd hSep hSeparator
  | fixed byte =>
    rw [hSep] at hFixed hDiffer hDelim
    have hSyntax : dialect.syntaxOf found = ⟨byte, dialect.quote⟩ := by rw [syntaxOf, hSep]
    rw [hSyntax]
    have hByte (other : UInt8) (hOther : other = byte ∨ dialect.quote = some other) :
        IsSyntaxByte other := by
      rcases hOther with rfl | hOther
      · exact separatorOf_spec hFixed
      · exact quoteOf_spec hQuote other hOther
    refine ⟨fun other hOther => (hByte other hOther).1, fun other hOther => (hByte other hOther).2,
      ?_, ?_⟩
    · exact fun hSame => hDiffer byte hSame mem_cons_self
    · intro other hOther
      refine hDelim other (mem_append.mpr ?_)
      exact hOther.imp mem_singleton.mpr Option.mem_toList.mpr

end Accepted

end MqBridge.File
