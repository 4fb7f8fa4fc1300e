import Mathlib.Data.List.DropRight
import MqBridge.Codec.Incremental
import MqBridge.Endpoints.Http.Sse

/-! The body of a streaming HTTP request. It arrives in frames of any size; the lines or
events that are complete are taken off a buffer after each of them. -/
namespace MqBridge.Http

open List
open EventStream (carriageReturn lineFeed)
open Incremental (Framer)
open Text (bytesOf fromUtf8Lossy)

structure ParsedSseEvent where
  payload : List UInt8
  eventId : Option (List UInt8)
  eventName : Option (List UInt8)
deriving DecidableEq

def isAsciiWhitespace (byte : UInt8) : Bool := [0x20, 0x09, 0x0a, 0x0c, 0x0d].contains byte

def trimAscii (bytes : List UInt8) : List UInt8 :=
  (bytes.dropWhile isAsciiWhitespace).rdropWhile isAsciiWhitespace

/-- The first window of a buffer that is the pattern. -/
def windowsPosition (pattern : List UInt8) : List UInt8 → Option Nat
  | [] => none
  | byte :: rest =>
    if pattern <+: byte :: rest then some 0 else (windowsPosition pattern rest).map (· + 1)

def blankLine : List UInt8 := [lineFeed, lineFeed]
def blankLineCrlf : List UInt8 := [carriageReturn, lineFeed, carriageReturn, lineFeed]

def findSseEventEnd (buffer : List UInt8) : Option Nat :=
  Option.merge min (windowsPosition blankLine buffer) (windowsPosition blankLineCrlf buffer)

def parseSseEvent (raw : List UInt8) : Option ParsedSseEvent :=
  let fields := (lines [] raw).filterMap fun line =>
    let line := line.rdropWhile (· = carriageReturn)
    if line = [] then none else EventStream.field line
  let values (name : String) := (fields.filter (·.1 = bytesOf name)).map (·.2)
  if values "data" = [] then none
  else some ⟨[lineFeed].intercalate (values "data"), (values "id").getLast?,
    (values "event").getLast?⟩

def nextLine (buffer : List UInt8) : Option (List UInt8 × List UInt8) :=
  (buffer.findIdx? (· = lineFeed)).map fun newlinePos =>
    (stripReturn (buffer.take newlinePos), buffer.drop (newlinePos + 1))

def nextEvent (buffer : List UInt8) : Option (List UInt8 × List UInt8) :=
  (findSseEventEnd buffer).map fun eventEnd =>
    let terminatorLen := if blankLineCrlf <+: buffer.drop eventEnd then 4 else 2
    (buffer.take eventEnd, (buffer.drop eventEnd).drop terminatorLen)

theorem nextLine_stable {buffer line rest : List UInt8}
    (hNext : nextLine buffer = some (line, rest)) :
    rest.length < buffer.length ∧ ∀ more, nextLine (buffer ++ more) =
      some (line, rest ++ more) := by
  obtain ⟨pos, hPos, hLine⟩ := Option.map_eq_some_iff.mp hNext
  cases hLine
  obtain ⟨hLt, -⟩ := findIdx?_eq_some_iff_getElem.mp hPos
  refine ⟨by rw [length_drop]; omega, fun more => ?_⟩
  rw [nextLine, findIdx?_append, hPos, Option.some_or, Option.map_some,
    take_append_of_le_length hLt.le, drop_append_of_le_length hLt]

theorem nextEvent_cons (byte : UInt8) (rest : List UInt8) : nextEvent (byte :: rest) =
      if blankLineCrlf <+: byte :: rest then some ([], rest.drop 3)
      else if blankLine <+: byte :: rest then some ([], rest.drop 1)
      else (nextEvent rest).map fun found => (byte :: found.1, found.2) := by
  rw [nextEvent, findSseEventEnd, windowsPosition, windowsPosition]
  by_cases hCrlf : blankLineCrlf <+: byte :: rest
  · have hFirst : ∀ position : Option Nat, .merge min position (some 0) = some 0 := by
      intro position
      cases position <;> simp
    simp [hCrlf, hFirst]
  by_cases hLf : blankLine <+: byte :: rest
  · cases windowsPosition blankLineCrlf rest <;> simp [hCrlf, hLf]
  · simp only [if_neg hCrlf, if_neg hLf, nextEvent, findSseEventEnd]
    cases windowsPosition blankLine rest <;> cases windowsPosition blankLineCrlf rest <;>
      simp [-drop_drop]

/-- A buffer of two bytes with an event end is nothing else. -/
theorem nextEvent_short {buffer : List UInt8} (hNext : nextEvent buffer ≠ none) :
    buffer = blankLine ∨ 3 ≤ buffer.length := by
  have hNil : nextEvent [] = none := rfl
  rcases buffer with _ | ⟨x, _ | ⟨y, _ | ⟨z, tail⟩⟩⟩
  · exact absurd hNil hNext
  · simp [nextEvent_cons, blankLine, blankLineCrlf, hNil] at hNext
  · simp [nextEvent_cons, blankLine, blankLineCrlf, hNil] at hNext
    simp [blankLine, ← hNext]
  · simp

theorem nextEvent_stable {buffer event rest : List UInt8}
    (hNext : nextEvent buffer = some (event, rest)) :
    rest.length < buffer.length ∧ ∀ more, nextEvent (buffer ++ more) =
      some (event, rest ++ more) := by
  have hBytes : carriageReturn ≠ lineFeed := by decide
  induction buffer generalizing event with
  | nil => cases hNext
  | cons byte tail ih =>
    rw [nextEvent_cons] at hNext
    split_ifs at hNext with hCrlf hLf
    · cases hNext
      obtain ⟨rest, hRest⟩ := hCrlf
      cases hRest
      refine ⟨?_, fun more => ?_⟩
      · exact Nat.lt_succ_of_le (drop_sublist _ _).length_le
      · simp [nextEvent_cons, blankLineCrlf]
    · cases hNext
      obtain ⟨rest, hRest⟩ := hLf
      cases hRest
      refine ⟨?_, fun more => ?_⟩
      · exact Nat.lt_succ_of_le (drop_sublist _ _).length_le
      · simp [nextEvent_cons, blankLineCrlf, blankLine, hBytes]
    · obtain ⟨found, hFound, hEvent⟩ := Option.map_eq_some_iff.mp hNext
      cases hEvent
      obtain ⟨hShorter, hMore⟩ := ih hFound
      refine ⟨hShorter.trans (Nat.lt_succ_self _), fun more => ?_⟩
      have hLonger {pattern : List UInt8} (hNot : ¬pattern <+: byte :: tail)
          (hLen : pattern.length ≤ tail.length + 1) : ¬pattern <+: byte :: (tail ++ more) :=
        fun hPre =>
          hNot (prefix_of_prefix_length_le hPre (prefix_append (byte :: tail) more) hLen)
      rw [cons_append, nextEvent_cons, hMore, if_neg, if_neg]
      · rfl
      -- Only the longer end can be cut off, and its third byte is not that of the shorter one.
      all_goals
        rcases nextEvent_short (hFound ▸ Option.some_ne_none found) with rfl | hLen
      · exact hLonger hLf (by decide)
      · exact hLonger hLf (Nat.le_of_succ_le (Nat.le_succ_of_le hLen))
      · simp [blankLine, blankLineCrlf, hBytes]
      · exact hLonger hCrlf (Nat.succ_le_succ hLen)

def ndjsonLines : Framer UInt8 (List UInt8) where
  next := nextLine
  shrinks hNext := (nextLine_stable hNext).1
  stable hNext := (nextLine_stable hNext).2

def sseEvents : Framer UInt8 (List UInt8) where
  next := nextEvent
  shrinks hNext := (nextEvent_stable hNext).1
  stable hNext := (nextEvent_stable hNext).2

def ndjsonItem (line : List UInt8) : Option ParsedSseEvent :=
  if line.all isAsciiWhitespace then none else some ⟨line, none, none⟩

def drainStreamItems (framer : Framer UInt8 (List UInt8))
    (item : List UInt8 → Option ParsedSseEvent)
    (buffer : List UInt8) : List ParsedSseEvent × List UInt8 :=
  ((framer.drain buffer).1.filterMap item, (framer.drain buffer).2)

def drainNdjsonStreamItems : List UInt8 → List ParsedSseEvent × List UInt8 :=
  drainStreamItems ndjsonLines ndjsonItem

def drainSseStreamItems : List UInt8 → List ParsedSseEvent × List UInt8 :=
  drainStreamItems sseEvents fun raw => parseSseEvent (fromUtf8Lossy raw)

def maxHttpBodyBytes : Nat := 256 * 1024 * 1024

/-- The items that were sent and the buffer, which is also what an error leaves behind. -/
def boundStreamBuffer (sent : List ParsedSseEvent) (drained : List ParsedSseEvent × List UInt8) :
    Except (List ParsedSseEvent × String) (List ParsedSseEvent × List UInt8) :=
  if maxHttpBodyBytes < drained.2.length then
    .error (sent ++ drained.1, "stream record exceeds maximum buffered size of 268435456 bytes")
  else .ok (sent ++ drained.1, drained.2)

def receiveFrame (format : HttpStreamFormat) (state : List ParsedSseEvent × List UInt8)
    (data : List UInt8) :
    Except (List ParsedSseEvent × String) (List ParsedSseEvent × List UInt8) :=
  if data = [] then .ok state
  else
    match format with
    | .rawChunks => .ok (state.1 ++ [⟨data, none, none⟩], state.2)
    | .ndjson => boundStreamBuffer state.1 (drainNdjsonStreamItems (state.2 ++ data))
    | .sse => boundStreamBuffer state.1 (drainSseStreamItems (state.2 ++ data))

/-- What is left when the body has ended. -/
def lastItem (format : HttpStreamFormat) (byteBuffer : List UInt8) : Option ParsedSseEvent :=
  if trimAscii byteBuffer = [] then none
  else
    match format with
    | .rawChunks => none
    | .ndjson => some ⟨trimAscii byteBuffer, none, none⟩
    | .sse => parseSseEvent (fromUtf8Lossy byteBuffer)

def receiveStreamableBody (format : HttpStreamFormat) (frames : List (List UInt8)) :
    Except (List ParsedSseEvent × String) (List ParsedSseEvent) := do
  let state ← frames.foldlM (receiveFrame format) ([], [])
  return state.1 ++ (lastItem format state.2).toList

/-- After each frame the buffer has been drained as if all had arrived at once. -/
theorem receive_drained {format : HttpStreamFormat} {framer : Framer UInt8 (List UInt8)}
    {item : List UInt8 → Option ParsedSseEvent}
    (hFrame : ∀ state data, receiveFrame format state data =
      if data = [] then .ok state
      else boundStreamBuffer state.1 (drainStreamItems framer item (state.2 ++ data)))
    {frames : List (List UInt8)} {body : List UInt8} (hBody : frames.flatten = body)
    (hBound : body.length ≤ maxHttpBodyBytes) : receiveStreamableBody format frames =
      .ok ((drainStreamItems framer item body).1 ++
        (lastItem format (drainStreamItems framer item body).2).toList) := by
  suffices hFold :
      frames.foldlM (receiveFrame format) ([], []) = .ok (drainStreamItems framer item body) by
    rw [receiveStreamableBody, hFold]
    rfl
  induction frames using reverseRecOn generalizing body with
  | nil =>
    cases hBody
    simp [drainStreamItems, Framer.drain_nil, pure, Except.pure]
  | append_singleton frames data ih =>
    rw [flatten_append, flatten_singleton] at hBody
    subst hBody
    rw [length_append] at hBound
    rw [foldlM_append, ih rfl (Nat.le_of_add_right_le hBound)]
    show (receiveFrame format _ data).bind _ = _
    rw [hFrame]
    by_cases hData : data = []
    · rw [if_pos hData, hData, append_nil]
      rfl
    have hLeft : (drainStreamItems framer item frames.flatten).2.length ≤ _ := framer.drain_length _
    have hLen : (drainStreamItems framer item ((drainStreamItems framer item frames.flatten).2 ++
      data)).2.length ≤ _ := framer.drain_length _
    rw [length_append] at hLen
    rw [if_neg hData, boundStreamBuffer, if_neg (by omega), drainStreamItems, drainStreamItems,
      drainStreamItems, framer.drain_append frames.flatten data, filterMap_append]
    rfl

/-- The items of a body are the same for every way to cut it into frames. -/
theorem receive_any_frames {format : HttpStreamFormat} (hFormat : format ≠ .rawChunks)
    {body : List UInt8}
    (hBound : body.length ≤ maxHttpBodyBytes) : ∃ items, ∀ frames : List (List UInt8),
      frames.flatten = body → receiveStreamableBody format frames = .ok items := by
  cases format with
  | rawChunks => exact absurd rfl hFormat
  | ndjson | sse => exact ⟨_, fun frames hBody => receive_drained (fun _ _ => rfl) hBody hBound⟩

/-- A body that is cut inside a character and inside the end of its first event. -/
theorem receive_any_frames_event :
    let whole := bytesOf "data: é" ++ blankLineCrlf ++ bytesOf "data: b"
    ∃ items, receiveStreamableBody .sse [whole] = .ok items ∧
      receiveStreamableBody .sse [whole.take 7, [], (whole.drop 7).take 3, whole.drop 10] =
        .ok items := by
  intro whole
  have hFormat : HttpStreamFormat.sse ≠ .rawChunks := by decide
  have hLen : whole.length ≤ maxHttpBodyBytes := by decide
  obtain ⟨items, hItems⟩ := receive_any_frames hFormat hLen
  exact ⟨items, hItems _ (append_nil whole), hItems _ (by decide)⟩

end MqBridge.Http
