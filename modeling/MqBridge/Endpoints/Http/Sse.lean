import MqBridge.Codec.EventStream
import MqBridge.Endpoints.File.Encode

/-! Replies on a streaming HTTP response. Each one is a chunk, a line of JSON or a
server-sent event; the third one is text that others' parsers take apart. -/
namespace MqBridge.Http

open List

open EventStream (carriageReturn lineFeed colon space splitLines OneLine Written parse)
open Text (bytesOf fromUtf8Lossy)

inductive HttpStreamFormat where
  | rawChunks
  | ndjson
  | sse
deriving DecidableEq

def stripReturn (line : List UInt8) : List UInt8 :=
  if line.getLast? = some carriageReturn then line.dropLast else line

/-- `str::lines`; `line` was read before. Only a line feed ends a line, and there
is no empty line after the last one. -/
def lines (line : List UInt8) : List UInt8 → List (List UInt8)
  | [] => if line = [] then [] else [line]
  | byte :: rest =>
    if byte = lineFeed then stripReturn line :: lines [] rest else lines (line ++ [byte]) rest

/-- A field before the data. A value of several lines is left out. -/
def pushField (name : String) (value : Option String) : List UInt8 :=
  match value with
  | none => []
  | some value =>
    if !value.toList.contains '\n' && !value.toList.contains '\r' then
      bytesOf name ++ colon :: space :: bytesOf value ++ [lineFeed]
    else []

def formatSseFrame (eventId event : Option String) (payload : List UInt8) : List UInt8 :=
  let text := fromUtf8Lossy payload
  pushField "id" eventId ++ pushField "event" event ++
    (if text = [] then bytesOf "data:" ++ [lineFeed]
    else
      ((lines [] text).flatMap fun line => bytesOf "data: " ++ line ++ [lineFeed]) ++
        if text.getLast? = some lineFeed then bytesOf "data:" ++ [lineFeed] else []) ++
    [lineFeed]

def intendedField (name : String) (value : Option String) : List EventStream.Field :=
  match value with
  | none => []
  | some value =>
    if !value.toList.contains '\n' && !value.toList.contains '\r' then
      [(bytesOf name, bytesOf value)] else []

/-- Every carriage return of a text is the beginning of a line end of two bytes. -/
def ReturnsPaired (text : List UInt8) : Prop :=
  ∀ rest, carriageReturn :: rest <:+ text → rest.head? = some lineFeed

theorem ReturnsPaired.of_cons {byte : UInt8} {rest : List UInt8}
    (hPaired : ReturnsPaired (byte :: rest)) : ReturnsPaired rest :=
  fun more hSuffix => hPaired more (hSuffix.trans (suffix_cons byte rest))

theorem stripReturn_oneLine {line : List UInt8} (hLine : OneLine line) :
    stripReturn line = line := by
  rw [stripReturn, if_neg]
  intro hLast
  exact (hLine _ (mem_of_getLast? hLast)).1 rfl

/-- An empty line follows the last line end; `lines` does not count it. -/
def lastEmpty (line text : List UInt8) : List (List UInt8) :=
  if line = [] ∧ text = [] ∨ text.getLast? = some lineFeed then [[]] else []

theorem lastEmpty_lineFeed (line rest : List UInt8) :
    lastEmpty line (lineFeed :: rest) = lastEmpty [] rest := by
  cases rest with
  | nil => simp [lastEmpty]
  | cons next rest => simp [lastEmpty]

theorem lastEmpty_cons (line : List UInt8) {byte : UInt8} (hByte : byte ≠ lineFeed)
    (rest : List UInt8) : lastEmpty line (byte :: rest) = lastEmpty (line ++ [byte]) rest := by
  cases rest with
  | nil => simp [lastEmpty, hByte]
  | cons next rest => simp [lastEmpty]

/-- Both ways to take a text apart agree where carriage returns are paired. -/
theorem splitLines_eq_lines {line text : List UInt8} (hLine : OneLine line)
    (hPaired : ReturnsPaired text) :
    splitLines line text = lines line text ++ lastEmpty line text := by
  have hNil : OneLine [] := fun byte hMem => absurd hMem not_mem_nil
  induction hLen : text.length using Nat.strong_induction_on generalizing line text with
  | h length ih =>
    cases text with
    | nil =>
      by_cases hEmpty : line = []
      all_goals simp [splitLines, lines, lastEmpty, hEmpty]
    | cons byte rest =>
      have hRest (line : List UInt8) (hLine : OneLine line) :
          splitLines line rest = lines line rest ++ lastEmpty line rest :=
        ih rest.length (hLen ▸ Nat.lt_succ_self _) hLine hPaired.of_cons rfl
      by_cases hFeed : byte = lineFeed
      · subst hFeed
        rw [EventStream.splitLines_lineFeed, hRest [] hNil, lines, stripReturn_oneLine hLine,
          lastEmpty_lineFeed]
        rfl
      by_cases hReturn : byte = carriageReturn
      · subst hReturn
        cases rest with
        | nil => exact absurd (hPaired [] suffix_rfl) (by simp)
        | cons next rest =>
          have hNext : next = lineFeed := Option.some.inj (hPaired _ suffix_rfl)
          subst hNext
          have hMore := ih rest.length (by rw [← hLen]; simp only [length_cons]; omega) hNil
            hPaired.of_cons.of_cons rfl
          rw [splitLines, hMore, lines, if_neg hFeed, lines, stripReturn, if_pos getLast?_concat,
            dropLast_concat, lastEmpty_cons line hFeed, lastEmpty_lineFeed]
          rfl
      · have hSnoc : OneLine (line ++ [byte]) := by
          intro other hMem
          rcases mem_append.mp hMem with hMem | hMem
          · exact hLine other hMem
          · exact mem_singleton.mp hMem ▸ ⟨hReturn, hFeed⟩
        rw [EventStream.splitLines_cons line ⟨hReturn, hFeed⟩, hRest _ hSnoc, lines, if_neg hFeed,
          lastEmpty_cons line hFeed]

theorem oneLine_bytesOf {text : String} (hFeed : '\n' ∉ text.toList)
    (hReturn : '\r' ∉ text.toList) : OneLine (bytesOf text) := by
  have hAbsent (byte : UInt8) (hAscii : byte.toNat < 128)
      (hNot : Text.asciiChar byte ∉ text.toList) :
      byte ∉ bytesOf text := by
    intro hMem
    rw [← String.ofList_toList (s := text), Text.bytesOf_ofList] at hMem
    obtain ⟨c, hChar, hMem⟩ := mem_flatMap.mp hMem
    exact hNot (Text.encodeChar_of_mem hAscii hMem ▸ hChar)
  intro byte hMem
  constructor
  · rintro rfl
    exact hAbsent carriageReturn (by decide) hReturn hMem
  · rintro rfl
    exact hAbsent lineFeed (by decide) hFeed hMem

/-- A field before the data is one line or none. -/
theorem pushField_written (name : String) (hName : bytesOf name ≠ [])
    (hColon : colon ∉ bytesOf name) (hLine : OneLine (bytesOf name)) (value : Option String) :
    ∃ written, pushField name value = written.flatMap (· ++ [lineFeed]) ∧
      List.Forall₂ Written written (intendedField name value) := by
  cases value with
  | none => exact ⟨[], rfl, .nil⟩
  | some value =>
    rw [pushField, intendedField]
    split_ifs with hOneLine
    · simp only [Bool.and_eq_true, Bool.not_eq_true', contains_eq_mem, decide_eq_false_iff_not]
        at hOneLine
      refine ⟨[bytesOf name ++ colon :: space :: bytesOf value], ?_, ?_⟩
      · rw [flatMap_singleton]
      · exact .cons (EventStream.written_field hName hColon hLine
          (oneLine_bytesOf hOneLine.1 hOneLine.2)) .nil
    · exact ⟨[], rfl, .nil⟩

def dataLines (text : List UInt8) : List (List UInt8) :=
  (lines [] text).map (bytesOf "data" ++ colon :: space :: ·) ++
    (lastEmpty [] text).map fun _ => bytesOf "data" ++ [colon]

theorem data_eq_dataLines (text : List UInt8) :
    (if text = [] then bytesOf "data:" ++ [lineFeed] else
      ((lines [] text).flatMap fun line => bytesOf "data: " ++ line ++ [lineFeed]) ++
        if text.getLast? = some lineFeed then bytesOf "data:" ++ [lineFeed] else []) =
      (dataLines text).flatMap (· ++ [lineFeed]) := by
  by_cases hText : text = []
  · rw [hText]
    rfl
  · rw [if_neg hText, dataLines, flatMap_append, flatMap_map, lastEmpty]
    by_cases hLast : text.getLast? = some lineFeed
    · rw [if_pos hLast, if_pos (.inr hLast)]
      rfl
    · rw [if_neg hLast, if_neg (by simp [hText, hLast])]
      rfl

theorem dataLines_written {text : List UInt8} (hPaired : ReturnsPaired text) :
    List.Forall₂ Written (dataLines text) ((splitLines [] text).map (bytesOf "data", ·)) := by
  have hNil : OneLine [] := fun byte hMem => absurd hMem not_mem_nil
  have hData : OneLine (bytesOf "data") := oneLine_bytesOf (by decide) (by decide)
  have hOneLine := EventStream.oneLine_of_mem_splitLines hNil text
  rw [splitLines_eq_lines hNil hPaired] at hOneLine ⊢
  rw [map_append]
  apply rel_append
  · rw [forall₂_map_left_iff, forall₂_map_right_iff, forall₂_same]
    intro line hMem
    exact EventStream.written_field (by decide) (by decide) hData
      (hOneLine line (mem_append_left _ hMem))
  · rw [forall₂_map_left_iff, forall₂_map_right_iff, forall₂_same]
    intro line hMem
    have hLine : line = [] := by
      rw [lastEmpty] at hMem
      split_ifs at hMem
      · exact mem_singleton.mp hMem
      · cases hMem
    rw [hLine]
    refine ⟨?_, by decide, by decide⟩
    intro byte hByte
    rcases mem_append.mp hByte with hByte | hByte
    · exact hData byte hByte
    · exact mem_singleton.mp hByte ▸ by decide

/-- The lines of a text as the formatter writes them. Where carriage returns are
paired they are the lines that a receiver finds in it. -/
def payloadLines (text : List UInt8) : List (List UInt8) := lines [] text ++ lastEmpty [] text

/-- A carriage return that is not paired is inside a line. -/
theorem returnsPaired_of_lines {line text : List UInt8} (hFeed : lineFeed ∉ line)
    (hLines : ∀ found ∈ lines line text, carriageReturn ∉ found) :
    ReturnsPaired (line ++ text) := by
  induction text generalizing line with
  | nil =>
    have hLine : carriageReturn ∉ line := by
      intro hMem
      rw [lines, if_neg (ne_nil_of_mem hMem)] at hLines
      exact hLines line mem_cons_self hMem
    intro rest hSuffix
    rw [append_nil] at hSuffix
    exact absurd (hSuffix.subset mem_cons_self) hLine
  | cons byte text ih =>
    rw [lines] at hLines
    split_ifs at hLines with hByte
    · obtain ⟨hLine, hOthers⟩ := forall_mem_cons.mp hLines
      have hText := ih not_mem_nil hOthers
      rintro rest ⟨before, hSplit⟩
      rcases append_eq_append_iff.mp hSplit with ⟨inner, hLineEnd, hRest⟩ | ⟨inner, hBefore, hRest⟩
      · cases inner with
        | nil => exact absurd (cons.inj hRest).1 (by rw [hByte]; decide)
        | cons first inner =>
          -- the return is the last byte of the line, or else it stays in it
          obtain ⟨rfl, rfl⟩ := cons.inj hRest
          rcases eq_nil_or_concat' inner with rfl | ⟨inner, last, rfl⟩
          · rw [hByte]
            rfl
          · have hLineEnd : line = (before ++ carriageReturn :: inner) ++ [last] := by
              rw [hLineEnd, append_assoc, cons_append]
            refine absurd ?_ hLine
            rw [stripReturn, hLineEnd, dropLast_concat]
            split_ifs <;> simp
      · cases inner with
        | nil => exact absurd (cons.inj hRest).1.symm (by rw [hByte]; decide)
        | cons first inner => exact hText rest ⟨inner, (cons.inj hRest).2.symm⟩
    · have hSnoc : lineFeed ∉ line ++ [byte] := by
        simpa [hFeed] using Ne.symm hByte
      rw [append_cons]
      exact ih hSnoc hLines

/-- The frame of a reply is one event, with the id and the name if each is one line
and a data field for each line of the payload, exactly when every carriage return
of the payload is followed by a line feed. -/
theorem formatSseFrame_one_event_iff (eventId event : Option String) (payload : List UInt8) :
    parse (formatSseFrame eventId event payload) =
        [intendedField "id" eventId ++ intendedField "event" event ++
          (payloadLines (fromUtf8Lossy payload)).map (bytesOf "data", ·)] ↔
      ReturnsPaired (fromUtf8Lossy payload) := by
  constructor
  · intro hParse
    have hFields := EventStream.oneLine_of_mem_parse (hParse ▸ mem_cons_self)
    refine returnsPaired_of_lines (not_mem_nil : lineFeed ∉ []) fun found hMem hReturn => ?_
    have hField :
        (bytesOf "data", found) ∈ (payloadLines (fromUtf8Lossy payload)).map (bytesOf "data", ·) :=
      mem_map_of_mem (mem_append_left _ hMem)
    exact (hFields _ (mem_append_right _ hField) carriageReturn hReturn).1 rfl
  · intro hPaired
    have hNil : OneLine [] := forall_mem_nil _
    rw [payloadLines, ← splitLines_eq_lines hNil hPaired]
    obtain ⟨idLines, hId, hIdFields⟩ := pushField_written "id" (by decide) (by decide)
      (oneLine_bytesOf (by decide) (by decide)) eventId
    obtain ⟨eventLines, hEvent, hEventFields⟩ := pushField_written "event" (by decide) (by decide)
      (oneLine_bytesOf (by decide) (by decide)) event
    have hAll := rel_append (rel_append hIdFields hEventFields) (dataLines_written hPaired)
    rw [formatSseFrame, data_eq_dataLines, hId, hEvent, ← flatMap_append, ← flatMap_append]
    apply EventStream.parse_lines hAll
    exact append_ne_nil_of_right_ne_nil _ (by simpa using EventStream.splitLines_ne_nil [] _)

def bareReturns : List UInt8 :=
  [0x61, 0x0d, 0x0d] ++ bytesOf "event: admin" ++ 0x0d :: bytesOf "data: b"

/-- Bare carriage returns in a payload end the event and begin another one, with a
name of the sender's choice. -/
theorem formatSseFrame_injected : parse (formatSseFrame (some "7") none bareReturns) =
      [[(bytesOf "id", bytesOf "7"), (bytesOf "data", [0x61])],
        [(bytesOf "event", bytesOf "admin"), (bytesOf "data", [0x62])]] := by
  decide

end MqBridge.Http
