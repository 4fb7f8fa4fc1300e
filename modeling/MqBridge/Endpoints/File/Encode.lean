import MqBridge.Endpoints.File.Records
import MqBridge.Json.Compose
import MqBridge.Json.Respell
import MqBridge.Machine.Outcome
import MqBridge.Support.Pack

/-! How a message becomes a record of the formats that wrap it into JSON. Inside
strings, characters that share a byte with the delimiter are escaped, so that a
record does not contain it; it cannot be kept out of the JSON syntax around them. -/
namespace MqBridge.File

open List Option

open Text Json Delimited

/-! ### Wrappers -/

def hexDigits : Nat → Nat → List UInt8
  | 0, _ => []
  | count + 1, value => hexDigits count (value / 16) ++ [hexLetter (value % 16)]

def stringDoc (text : String) : Doc := .scalar (.string (escape text))

def byteDoc (byte : UInt8) : Doc := .scalar (.number (integerToken false byte.toNat))

inductive EncodeError where
  /-- The payload is no JSON text without its line breaks. -/
  | payload
  | notUtf8
  /-- The record contains the delimiter outside a string, where it cannot be escaped. -/
  | containsDelimiter (delimiter : List UInt8)
  | parquetPerBatch
  /-- The format is encoded by the caller. -/
  | unreachable
  deriving DecidableEq

/-- Set for payloads that are written as a list of bytes. -/
def bytePayloadKey : String := "mq_bridge.payload_bytes"

def bytePayloadMark : String := "1"

/-- What is printed by libraries: the pairs of a metadata map in some order, the id
of a message, and bytes that are no text. -/
structure Printer where
  order : Pack.MetadataOrder
  formatUuid : Nat → String
  base64 : List UInt8 → String

section Wrapper

variable (printer : Printer)

def metadataDoc (metadata : Pack.Metadata) : Doc :=
  objectOf ((printer.order.pairs metadata).map fun pair => (escape pair.1, stringDoc pair.2))

def recordWrapper (messageId : Nat) (payload : Doc) (metadata : Pack.Metadata) : Doc :=
  objectOf [(escape "message_id", stringDoc (printer.formatUuid messageId)),
    (escape "payload", payload), (escape "metadata", metadataDoc printer metadata)]

def encodeBytePayload (message : CanonicalMessage) : Doc :=
  recordWrapper printer message.messageId (arrayOf (message.payload.map byteDoc))
    (message.metadata.insert bytePayloadKey bytePayloadMark)

def messageDoc (message : CanonicalMessage) : Doc :=
  objectOf
    ([(escape "message_id", stringDoc (printer.formatUuid message.messageId)),
        (decodeUtf8 message.payload).elim
          (escape "payload_base64", stringDoc (printer.base64 message.payload))
          fun text => (escape "payload", stringDoc text)] ++
      if printer.order.pairs message.metadata = [] then []
      else [(escape "metadata", metadataDoc printer message.metadata)])

def isLineBreak (byte : UInt8) : Bool := byte == 0x0a || byte == 0x0d

def stripJsonLineBreaks (text : List UInt8) : List UInt8 :=
  text.filter fun byte => !isLineBreak byte

def oneLine (raw : Doc) : Except EncodeError Doc :=
  if raw.text.any isLineBreak then (scan (stripJsonLineBreaks raw.text)).elim (.error .payload) .ok
  else .ok raw

def wrapperDoc (message : CanonicalMessage) : FileFormat → Except EncodeError Doc
  | .normal => .ok (messageDoc printer message)
  | .json =>
    match (scan message.payload).filter fun raw => (decodeUtf8 raw.text).isSome with
    | some raw =>
      (oneLine raw).map fun raw => recordWrapper printer message.messageId raw message.metadata
    | none => .ok (encodeBytePayload printer message)
  | .text =>
    match decodeUtf8 message.payload with
    | some text => .ok (recordWrapper printer message.messageId (stringDoc text) message.metadata)
    | none => .ok (encodeBytePayload printer message)
  | .parquet => .error .parquetPerBatch
  | .raw | .csv => .error .unreachable

end Wrapper

/-! ### The delimiter inside a record -/

def sharesByte (delimiter : List UInt8) (c : Char) : Bool :=
  (String.utf8EncodeChar c).any fun byte => delimiter.contains byte

def encodeUtf16 (c : Char) : List Nat :=
  if c.toNat < 0x10000 then [c.toNat]
  else [0xd800 + (c.toNat - 0x10000) / 0x400, 0xdc00 + (c.toNat - 0x10000) % 0x400]

def unitEscape (unit : Nat) : List Char := '\\' :: 'u' :: (hexDigits 4 unit).map asciiChar

def escapeLoop (delimiter : List UInt8) : Bool → List Char → List Char
  | _, [] => []
  | inString, c :: rest =>
    if c = '\\' ∧ inString = true then
      -- an existing escape is copied whole
      match rest with
      | [] => [c]
      | kind :: rest =>
        if kind = 'u' then
          match rest with
          | h₁ :: h₂ :: h₃ :: h₄ :: rest =>
            c :: kind :: h₁ :: h₂ :: h₃ :: h₄ :: escapeLoop delimiter true rest
          | few => c :: kind :: few
        else c :: kind :: escapeLoop delimiter true rest
    else if c = '"' then c :: escapeLoop delimiter (!inString) rest
    else if inString = true ∧ sharesByte delimiter c = true then
      (encodeUtf16 c).flatMap unitEscape ++ escapeLoop delimiter inString rest
    else c :: escapeLoop delimiter inString rest

def escapeDelimiterInJson (record delimiter : List UInt8) : Except EncodeError (List UInt8) :=
  if delimiter = [0x0a] ∨ delimiter = [0x0d, 0x0a] ∨ ¬ delimiter <:+: record then .ok record
  else
    match decodeUtf8 record with
    | none => .error .notUtf8
    | some text =>
      let out := encodeChars (escapeLoop delimiter false text.toList)
      if delimiter <:+: out then .error (.containsDelimiter delimiter) else .ok out

def encodeRecord (printer : Printer) (message : CanonicalMessage)
    (format : FileFormat) (delimiter : List UInt8) : Except EncodeError (List UInt8) :=
  if format = .raw then .ok message.payload
  else (wrapperDoc printer message format).bind fun doc => escapeDelimiterInJson doc.text delimiter

/-! ### Escapes -/

section Units

theorem hexValue_hexDigits {unit : Nat} (hUnit : unit < 0x10000) :
    ∃ a b c d, hexDigits 4 unit = [a, b, c, d] ∧ hexValue [a, b, c, d] = some unit ∧
      ∀ byte ∈ [a, b, c, d], byte.toNat < 128 := by
  have hDigit : ∀ k :
      Fin 16, hexDigit (hexLetter k.val) = some k.val ∧ (hexLetter k.val).toNat < 128 := by decide
  have hOne (k : Nat) :
      hexDigit (hexLetter (k % 16)) = some (k % 16) ∧ (hexLetter (k % 16)).toNat < 128 :=
    hDigit ⟨k % 16, Nat.mod_lt _ (by decide)⟩
  refine ⟨_, _, _, _, rfl, ?_, ?_⟩
  · simp only [hexValue, foldlM_cons, foldlM_nil, (hOne _).1, map_some, bind_eq_bind,
      bind_some, Option.pure_def, some.injEq]
    omega
  · simp only [forall_mem_cons, (hOne _).2, true_and, not_mem_nil, false_imp_iff, implies_true]

/-- The escape of a code unit is a piece of a string. -/
theorem unitEscape_piece {unit : Nat} (hUnit : unit < 0x10000) :
    ∃ a b c d hDigits, encodeChars (unitEscape unit) = (Piece.hex a b c d hDigits).text ∧
      hexValue [a, b, c, d] = some unit := by
  obtain ⟨a, b, c, d, hList, hVal, hAscii⟩ := hexValue_hexDigits hUnit
  have hSome : (hexValue [a, b, c, d]).isSome = true := by rw [hVal]; rfl
  refine ⟨a, b, c, d, hSome, ?_, hVal⟩
  rw [unitEscape, hList, encodeChars_cons, encodeChars_cons, encodeChars_ascii hAscii]
  rfl

theorem utf8_toNat (c : Char) : utf8 c.toNat = String.utf8EncodeChar c := by
  rw [utf8, Char.ofNat_toNat, String.singleton_eq_ofList, bytesOf_ofList, encodeChars_cons,
    encodeChars_nil, append_nil]

/-- The escapes of a character are pieces that stand for it. -/
theorem encodeUtf16_pieces (c : Char) :
    ∃ pieces, encodeChars ((encodeUtf16 c).flatMap unitEscape) = piecesText pieces ∧
      ∀ rest, ¬ StartsLow (pieces ++ rest) ∧
        unescape (pieces ++ rest) = (unescape rest).map (String.utf8EncodeChar c ++ ·) := by
  have hValid : c.toNat < 0xd800 ∨ 0xdfff < c.toNat ∧ c.toNat < 0x110000 := c.valid
  rw [← utf8_toNat]
  rw [encodeUtf16]
  split_ifs with hSmall
  · obtain ⟨a, b, c', d, hDigits, hText, hVal⟩ := unitEscape_piece hSmall
    refine ⟨[.hex a b c' d hDigits], by simp [hText, piecesText], fun rest => ⟨?_, ?_⟩⟩
    · rintro ⟨unit, hUnit, hLow⟩
      obtain rfl : c.toNat = unit := some.inj (hVal.symm.trans hUnit)
      omega
    · rw [singleton_append, unescape.eq_def]
      simp only [hVal, get_some]
      rw [if_pos (by omega)]
  · have hHigh : 0xd800 + (c.toNat - 0x10000) / 0x400 < 0x10000 := by omega
    have hLow : 0xdc00 + (c.toNat - 0x10000) % 0x400 < 0x10000 := by omega
    obtain ⟨a, b, c', d, hDigits, hText, hVal⟩ := unitEscape_piece hHigh
    obtain ⟨a₂, b₂, c₂, d₂, hDigits₂, hText₂, hValue₂⟩ := unitEscape_piece hLow
    refine ⟨[.hex a b c' d hDigits, .hex a₂ b₂ c₂ d₂ hDigits₂], by simp [hText, hText₂, piecesText],
      fun rest => ⟨?_, ?_⟩⟩
    · rintro ⟨unit, hUnit, hRange⟩
      obtain rfl := some.inj (hVal.symm.trans hUnit)
      omega
    · have hSum : 0x10000 + (0xd800 + (c.toNat - 0x10000) / 0x400 - 0xd800) * 0x400 +
          (0xdc00 + (c.toNat - 0x10000) % 0x400 - 0xdc00) = c.toNat := by omega
      rw [cons_append, singleton_append, unescape.eq_def]
      simp only [hVal, hValue₂, get_some, Piece.codeUnit]
      rw [if_neg (by omega), if_neg (by omega), if_pos (by omega), hSum]

end Units

section Loop

variable {delimiter : List UInt8}

theorem escapeLoop_inside {c : Char} (hEscape : c ≠ '\\') (hQuote : c ≠ '"') (rest : List Char) :
    escapeLoop delimiter true (c :: rest) =
      (if sharesByte delimiter c then (encodeUtf16 c).flatMap unitEscape else [c]) ++
        escapeLoop delimiter true rest := by
  rw [escapeLoop.eq_def]
  simp only [hEscape, hQuote, false_and, if_false, true_and]
  split_ifs <;> rfl

theorem escapeLoop_quote (inString : Bool) (rest : List Char) :
    escapeLoop delimiter inString ('"' :: rest) = '"' :: escapeLoop delimiter (!inString) rest := by
  rw [escapeLoop.eq_def]
  simp

theorem escapeLoop_outside {chars : List Char} (hQuote : ∀ c ∈ chars, c ≠ '"') (rest : List Char) :
    escapeLoop delimiter false (chars ++ rest) = chars ++ escapeLoop delimiter false rest := by
  induction chars with
  | nil => rfl
  | cons c chars ih =>
    obtain ⟨hFirst, hRest⟩ := forall_mem_cons.mp hQuote
    rw [escapeLoop.eq_def]
    simp [hFirst, ih hRest]

end Loop

section Strings

variable {delimiter : List UInt8}

/-- Bytes that do not begin an escape are pieces that stand for them. -/
theorem plain_pieces {bytes rest : List UInt8} {pieces : List Piece} (hPlain : 0x5c ∉ bytes)
    (hText : piecesText pieces = bytes ++ rest) :
    ∃ plains tail, pieces = plains ++ tail ∧ piecesText plains = bytes ∧ piecesText tail = rest ∧
      ∀ more, (bytes ≠ [] → ¬ StartsLow (plains ++ more)) ∧
        unescape (plains ++ more) = (unescape more).map (bytes ++ ·) := by
  induction bytes generalizing pieces with
  | nil => exact ⟨[], pieces, rfl, rfl, hText, fun more => ⟨absurd rfl, by simp⟩⟩
  | cons byte bytes ih =>
    rw [mem_cons, not_or] at hPlain
    cases pieces with
    | nil => cases hText
    | cons piece pieces =>
      cases piece with
      | short | hex => exact absurd (cons.inj hText).1 hPlain.1
      | plain first hFirst =>
        obtain ⟨rfl, hRest⟩ := cons.inj hText
        obtain ⟨plains, tail, rfl, hPlains, hTail, hMore⟩ := ih hPlain.2 hRest
        refine ⟨.plain first hFirst :: plains, tail, rfl, congrArg (first :: ·) hPlains, hTail,
          fun more => ⟨fun _ => ?_, ?_⟩⟩
        · rintro ⟨unit, hUnit, -⟩
          cases hUnit
        · rw [cons_append, unescape, (hMore more).2, Option.map_map]
          rfl

theorem isPlain_ne {byte other : UInt8} (hPlain : isPlain byte = true)
    (hOther : isPlain other = false) : byte ≠ other := by
  rintro rfl
  rw [hPlain] at hOther
  cases hOther

/-- Letters of short escapes and hexadecimal digits are ASCII. -/
theorem shortEscape_ascii {letter : UInt8} (hKnown : (shortEscape letter).isSome = true) :
    letter.toNat < 128 ∧ letter ≠ 0x75 := by
  simp only [shortEscape] at hKnown
  split_ifs at hKnown with hSame hB hF hN hR hT
  · rcases hSame with rfl | rfl | rfl <;> decide
  · rw [hB]; decide
  · rw [hF]; decide
  · rw [hN]; decide
  · rw [hR]; decide
  · rw [hT]; decide
  · cases hKnown

theorem hexDigit_ascii {byte : UInt8} (hDigit : (hexDigit byte).isSome = true) :
    byte.toNat < 128 := by
  have hBound {high : UInt8} (hLe : byte ≤ high) (hHigh : high.toNat < 128) : byte.toNat < 128 :=
    lt_of_le_of_lt (UInt8.le_iff_toNat_le.mp hLe) hHigh
  simp only [hexDigit, isDigit, Bool.and_eq_true, decide_eq_true_eq] at hDigit
  split_ifs at hDigit with hNumber hUpper hLower
  · exact hBound hNumber.2 (by decide)
  · exact hBound hUpper.2 (by decide)
  · exact hBound hLower.2 (by decide)
  · cases hDigit

theorem hexDigit_of_hexValue {a b c d : UInt8} (hDigits : (hexValue [a, b, c, d]).isSome = true) :
    ∀ byte ∈ [a, b, c, d], (hexDigit byte).isSome = true := by
  have hFold {value : Nat} {bytes : List UInt8}
      (hSome : (bytes.foldlM
        (fun value byte => (hexDigit byte).map (16 * value + ·)) value).isSome = true) :
      ∀ byte ∈ bytes, (hexDigit byte).isSome = true := by
    induction bytes generalizing value with
    | nil => simp
    | cons byte bytes ih =>
      rw [foldlM_cons] at hSome
      cases hDigit : hexDigit byte with
      | none =>
        rw [hDigit] at hSome
        cases hSome
      | some digit =>
        rw [hDigit] at hSome
        exact forall_mem_cons.mpr ⟨by rw [hDigit]; rfl, ih hSome⟩
  exact hFold hDigits

/-- The loop copies an escape. -/
theorem escapeLoop_escape (delimiter : List UInt8) (piece : Piece) :
    (∃ byte hPlain, piece = .plain byte hPlain) ∨
      piece.text ≠ [] ∧ (∀ byte ∈ piece.text, byte.toNat < 128) ∧
        ∀ rest, escapeLoop delimiter true (piece.text.map asciiChar ++ rest) =
          piece.text.map asciiChar ++ escapeLoop delimiter true rest := by
  cases piece with
  | plain byte hPlain => exact .inl ⟨byte, hPlain, rfl⟩
  | short letter hKnown =>
    obtain ⟨hAscii, hLetter⟩ := shortEscape_ascii hKnown
    refine .inr ⟨cons_ne_nil _ _, by simp [Piece.text, hAscii], fun rest => ?_⟩
    have hKind : asciiChar letter ≠ 'u' := by
      intro hSame
      have hNat := congrArg Char.toNat hSame
      rw [toNat_asciiChar] at hNat
      exact hLetter (UInt8.toNat_inj.mp hNat)
    change escapeLoop delimiter true ('\\' :: asciiChar letter :: rest) = _
    rw [escapeLoop.eq_def]
    simp only [if_neg hKind]
    rfl
  | hex a b c d hDigits =>
    refine .inr ⟨cons_ne_nil _ _, ?_, fun rest => ?_⟩
    · exact forall_mem_cons.mpr ⟨by decide, forall_mem_cons.mpr ⟨by decide,
        fun byte hMem => hexDigit_ascii (hexDigit_of_hexValue hDigits byte hMem)⟩⟩
    · rfl

/-- The characters that ASCII bytes begin are their own. -/
theorem chars_of_ascii {bytes rest : List UInt8} {chars : List Char}
    (hAscii : ∀ byte ∈ bytes, byte.toNat < 128) (hBytes : encodeChars chars = bytes ++ rest) :
    ∃ tail, chars = bytes.map asciiChar ++ tail ∧ encodeChars tail = rest ∧
      (bytes ≠ [] → tail.length < chars.length) := by
  induction bytes generalizing chars with
  | nil => exact ⟨chars, rfl, hBytes, absurd rfl⟩
  | cons byte bytes ih =>
    obtain ⟨hByte, hRest⟩ := forall_mem_cons.mp hAscii
    cases chars with
    | nil => cases hBytes
    | cons c chars =>
      obtain ⟨rfl, hTail⟩ := eq_asciiChar hByte hBytes
      obtain ⟨tail, rfl, hEnd, -⟩ := ih hRest hTail
      exact ⟨tail, rfl, hEnd, fun _ => by simp only [length_cons, length_append]; omega⟩

/-- Inside a string, the loop makes pieces of pieces, and they stand for the same. -/
def Rewrites (delimiter : List UInt8) (chars : List Char) (pieces : List Piece) : Prop :=
  ∃ chars' pieces', encodeChars chars' = piecesText pieces' ∧ Interchangeable pieces' pieces ∧
    ∀ rest, escapeLoop delimiter true (chars ++ '"' :: rest) =
      chars' ++ '"' :: escapeLoop delimiter false rest

/-- What is copied is put in front of what the loop makes of the rest. -/
theorem Rewrites.copy {front tail : List Char} {first others : List Piece}
    (hFront : encodeChars front = piecesText first)
    (hLoop : ∀ rest, escapeLoop delimiter true (front ++ rest) =
      front ++ escapeLoop delimiter true rest)
    (hTail : Rewrites delimiter tail others) :
    Rewrites delimiter (front ++ tail) (first ++ others) := by
  obtain ⟨tail', others', hText', hSame, hRest⟩ := hTail
  refine ⟨front ++ tail', first ++ others', ?_, hSame.append first, fun rest => ?_⟩
  · rw [encodeChars_append, hFront, hText', piecesText, piecesText, piecesText, flatMap_append]
  · rw [append_assoc, hLoop, hRest, append_assoc]

/-- The induction follows the characters: one may be several pieces, and an
escape has several. -/
theorem escapeLoop_pieces (delimiter : List UInt8) {chars : List Char} {pieces : List Piece}
    (hText : encodeChars chars = piecesText pieces) : Rewrites delimiter chars pieces := by
  match chars, pieces with
  | [], [] => exact ⟨[], [], rfl, .refl [], escapeLoop_quote true⟩
  | [], piece :: _ => cases piece <;> cases hText
  | c :: chars, [] => exact absurd (append_eq_nil_iff.mp hText).1 String.utf8EncodeChar_ne_nil
  | c :: chars, piece :: pieces =>
    rcases escapeLoop_escape delimiter piece with ⟨byte, hPlain, rfl⟩ | ⟨hNe, hFront, hLoop⟩
    · obtain ⟨first, others, hFirst⟩ := exists_cons_of_ne_nil (String.utf8EncodeChar_ne_nil)
      have hHead : byte = first := by
        rw [encodeChars_cons, hFirst] at hText
        exact (cons.inj hText).1.symm
      have hOther (special : UInt8) (hAscii : special.toNat < 128)
          (hSpecial : isPlain special = false) :
          special ∉ String.utf8EncodeChar c := by
        intro hMem
        obtain rfl := encodeChar_of_mem hAscii hMem
        rw [encodeChar_ascii hAscii] at hFirst
        refine isPlain_ne hPlain hSpecial ?_
        rw [hHead]
        exact (cons.inj hFirst).1.symm
      have hEscape : c ≠ '\\' := by
        rintro rfl
        exact hOther 0x5c (by decide) (by decide) (by decide)
      have hQuote : c ≠ '"' := by
        rintro rfl
        exact hOther 0x22 (by decide) (by decide) (by decide)
      obtain ⟨plains, tail, hPieces, hPlains, hTail, hMore⟩ :=
        plain_pieces (hOther 0x5c (by decide) (by decide))
          (hText.symm.trans (encodeChars_cons c chars))
      have hRest := escapeLoop_pieces delimiter hTail.symm
      rw [hPieces]
      by_cases hShares : sharesByte delimiter c = true
      · obtain ⟨units, hUnits, hUnescape⟩ := encodeUtf16_pieces c
        obtain ⟨chars', pieces', hText', hSame, hLoop⟩ := hRest
        have hTails : unescape pieces' = unescape tail := hSame []
        refine ⟨(encodeUtf16 c).flatMap unitEscape ++ chars', units ++ pieces', ?_, ?_, fun rest =>
          ?_⟩
        · rw [encodeChars_append, hUnits, hText', piecesText, piecesText, piecesText,
            flatMap_append]
        · apply interchangeable_of_unescape
          · rw [(hUnescape pieces').2, (hMore tail).2, hTails]
          · exact (hUnescape pieces').1
          · exact (hMore tail).1 String.utf8EncodeChar_ne_nil
        · rw [cons_append, escapeLoop_inside hEscape hQuote, if_pos hShares, hLoop, append_assoc]
      · have hCopied : encodeChars [c] = piecesText plains := by
          rw [hPlains, encodeChars_cons, encodeChars_nil, append_nil]
        refine .copy hCopied (fun rest => ?_) hRest
        rw [singleton_append, escapeLoop_inside hEscape hQuote, if_neg hShares]
    · obtain ⟨tail, hChars, hTail, hLen⟩ := chars_of_ascii hFront hText
      have hSmaller : tail.length < chars.length + 1 := hLen hNe
      have hCopied : encodeChars (piece.text.map asciiChar) = piecesText [piece] := by
        rw [encodeChars_ascii hFront, piecesText, flatMap_singleton]
      rw [hChars]
      exact .copy hCopied hLoop (escapeLoop_pieces delimiter hTail)
termination_by chars.length

end Strings

section Records

variable {delimiter : List UInt8}

/-- Outside strings, the loop copies; a text that begins with ASCII can follow
another. -/
def Copied (delimiter : List UInt8) (bytes bytes' : List UInt8) : Prop :=
  (∀ byte ∈ bytes.head?, byte.toNat < 128) ∧
    ∀ chars, encodeChars chars = bytes → ∃ chars', encodeChars chars' = bytes' ∧
      ∀ rest, escapeLoop delimiter false (chars ++ rest) = chars' ++ escapeLoop delimiter false rest

theorem copied_of_ascii {bytes : List UInt8} (hAscii : ∀ byte ∈ bytes, byte.toNat < 128)
    (hQuote : 0x22 ∉ bytes) : Copied delimiter bytes bytes := by
  refine ⟨fun byte hByte => hAscii byte (mem_of_head? hByte), fun chars hChars => ?_⟩
  refine ⟨chars, hChars, fun rest => escapeLoop_outside (fun c hMem hSame => hQuote ?_) rest⟩
  rw [← hChars]
  refine mem_flatMap.mpr ⟨c, hMem, ?_⟩
  rw [hSame]
  decide

theorem isOutside_ascii {byte : UInt8} (hOutside : isOutside byte = true) :
    byte.toNat < 128 ∧ byte ≠ 0x22 := by
  simp only [isOutside, Bool.and_eq_true, decide_eq_true_eq, bne_iff_ne] at hOutside
  exact ⟨UInt8.lt_iff_toNat_lt.mp hOutside.1, hOutside.2.1⟩

theorem isSpace_ascii {byte : UInt8} (hSpace : isSpace byte = true) :
    byte.toNat < 128 ∧ byte ≠ 0x22 := by
  simp only [isSpace, Bool.or_eq_true, beq_iff_eq] at hSpace
  rcases hSpace with ((rfl | rfl) | rfl) | rfl <;> decide

theorem copies_copied (delimiter : List UInt8) : Copies (Copied delimiter) id where
  append := by
    intro a a' b b' hA hB
    refine ⟨fun byte hByte => ?_, fun chars hChars => ?_⟩
    · cases a with
      | nil => exact hB.1 byte hByte
      | cons first rest => exact hA.1 byte hByte
    · obtain ⟨front, back, rfl, hFront, hBack⟩ :=
        encodeChars_split hChars fun byte hByte => isUTF8FirstByte_ascii (hB.1 byte hByte)
      obtain ⟨front', hFront', hFirst⟩ := hA.2 front hFront
      obtain ⟨back', hBack', hSecond⟩ := hB.2 back hBack
      refine ⟨front' ++ back', by rw [encodeChars_append, hFront', hBack'], fun rest => ?_⟩
      rw [append_assoc, hFirst, hSecond, append_assoc]
  outside := fun bytes hOutside =>
    copied_of_ascii (fun byte hMem => (isOutside_ascii (hOutside byte hMem)).1)
      fun hMem => (isOutside_ascii (hOutside _ hMem)).2 rfl
  space := fun space =>
    copied_of_ascii (fun byte hMem => (isSpace_ascii (space.blank byte hMem)).1)
      fun hMem => (isSpace_ascii (space.blank _ hMem)).2 rfl

/-- What the loop makes of a string is a string that stands for the same. -/
theorem quoted_copied (delimiter : List UInt8) (pieces : List Piece) :
    ∃ pieces', stringValue pieces' = stringValue pieces ∧ Copied delimiter (quoted pieces)
      (quoted pieces') := by
  by_cases hValid : ∃ chars, encodeChars chars = piecesText pieces
  · obtain ⟨chars, hChars⟩ := hValid
    obtain ⟨chars', pieces', hText, hSame, hLoop⟩ := escapeLoop_pieces delimiter hChars
    refine ⟨pieces', by rw [stringValue]; exact congrArg (bind · decodeUtf8) (hSame []),
      fun byte hByte => by cases hByte; decide, fun whole hWhole => ?_⟩
    have hOwn : whole = '"' :: (chars ++ ['"']) := by
      rw [← String.ofList_inj]
      apply bytesOf_injective
      rw [bytesOf_ofList, bytesOf_ofList, hWhole, encodeChars_cons, encodeChars_append, hChars]
      rfl
    refine ⟨'"' :: (chars' ++ ['"']), ?_, fun rest => ?_⟩
    · rw [encodeChars_cons, encodeChars_append, hText]
      rfl
    · rw [hOwn]
      simp [escapeLoop_quote, hLoop]
  · refine ⟨pieces, rfl, fun byte hByte => by cases hByte; decide, fun chars hChars =>
      absurd ?_ hValid⟩
    have hQuoted : encodeChars chars = [0x22] ++ (piecesText pieces ++ [0x22]) := hChars
    obtain ⟨tail, rfl, hTail, -⟩ := chars_of_ascii (forall_mem_singleton.mpr (by decide)) hQuoted
    obtain ⟨front, back, rfl, hFront, -⟩ :=
      encodeChars_split hTail fun byte hByte => by
        cases hByte
        exact isUTF8FirstByte_ascii (by decide)
    exact ⟨front, hFront⟩

/-- Escaping the delimiter keeps the value of a record. Afterwards the record
does not contain the delimiter, unless that is a line break. -/
theorem escapeDelimiterInJson_spec {doc : Doc} {record : List UInt8} (floats : Floats)
    (hRecord : escapeDelimiterInJson doc.text delimiter = .ok record) :
    fromSlice floats record = fromSlice floats doc.text ∧
      if delimiter = [0x0a] ∨ delimiter = [0x0d, 0x0a] then record = doc.text
      else ¬ delimiter <:+: record := by
  rw [escapeDelimiterInJson] at hRecord
  split_ifs at hRecord with hSkip
  · cases hRecord
    refine ⟨rfl, ?_⟩
    split_ifs with hBreak
    · rfl
    · tauto
  · cases hText : decodeUtf8 doc.text with
    | none =>
      rw [hText] at hRecord
      cases hRecord
    | some text =>
      rw [hText] at hRecord
      dsimp only at hRecord
      split_ifs at hRecord with hStill
      cases hRecord
      refine ⟨?_, by rwa [if_neg (by tauto)]⟩
      choose f hKeeps hStrings using quoted_copied delimiter
      have hWhole : encodeChars text.toList = doc.text := by
        rw [← bytesOf_ofList, String.ofList_toList, bytesOf_of_decodeUtf8 hText]
      obtain ⟨chars', hBytes, hLoop⟩ :=
        (Doc.respell_text (copies_copied delimiter) doc fun p _ => hStrings p).2 _ hWhole
      have hOut := hLoop []
      rw [append_nil, escapeLoop, append_nil] at hOut
      rw [hOut, hBytes]
      exact fromSlice_respell id floats hKeeps doc

end Records

/-! ### Line breaks -/

section LineBreaks

def OneLine (text : List UInt8) : Prop := ∀ byte ∈ text, isLineBreak byte = false

theorem oneLine_append {a b : List UInt8} : OneLine (a ++ b) ↔ OneLine a ∧ OneLine b :=
  forall_mem_append

theorem oneLine_cons {byte : UInt8} {text : List UInt8} :
    OneLine (byte :: text) ↔ isLineBreak byte = false ∧ OneLine text := forall_mem_cons

theorem eq_of_isLineBreak {byte : UInt8} (hBreak : isLineBreak byte = true) :
    byte = 0x0a ∨ byte = 0x0d := by
  simpa [isLineBreak] using hBreak

theorem oneLine_outside {bytes : List UInt8} (hOutside : ∀ byte ∈ bytes, isOutside byte = true) :
    OneLine bytes := by
  intro byte hMem
  rw [Bool.eq_false_iff]
  intro hBreak
  have hByte := hOutside byte hMem
  rcases eq_of_isLineBreak hBreak with rfl | rfl <;> cases hByte

/-- In strings, line breaks are escaped. -/
theorem oneLine_pieces (pieces : List Piece) : OneLine (piecesText pieces) := by
  have hCases (piece : Piece) (byte : UInt8) (hMem : byte ∈ piece.text)
      (hPlain : isPlain byte = false)
      (hEscape : byte ≠ 0x5c) (hLetter : byte ≠ 0x75) (hShort : shortEscape byte = none) :
      (hexDigit byte).isSome = true := by
    cases piece with
    | plain first hFirst =>
      rw [mem_singleton.mp hMem, hFirst] at hPlain
      cases hPlain
    | short letter hKnown =>
      simp only [Piece.text, mem_cons, hEscape, false_or, not_mem_nil, or_false] at hMem
      rw [← hMem, hShort] at hKnown
      cases hKnown
    | hex a b c d hDigits =>
      simp only [Piece.text, mem_cons, hEscape, hLetter] at hMem
      exact hexDigit_of_hexValue hDigits byte (by simpa using hMem)
  intro byte hMem
  obtain ⟨piece, -, hByte⟩ := mem_flatMap.mp hMem
  rw [Bool.eq_false_iff]
  intro hBreak
  rcases eq_of_isLineBreak hBreak with rfl | rfl <;>
    exact absurd (hCases piece _ hByte (by decide) (by decide) (by decide) (by decide)) (by decide)

theorem oneLine_quoted (pieces : List Piece) : OneLine (quoted pieces) :=
  oneLine_cons.mpr ⟨rfl, oneLine_append.mpr ⟨oneLine_pieces pieces, forall_mem_singleton.mpr rfl⟩⟩

theorem oneLine_commaSeparated {texts : List (List UInt8)} (hTexts : ∀ text ∈ texts, OneLine text) :
    OneLine (commaSeparated texts) := by
  induction texts with
  | nil => exact nofun
  | cons text rest ih =>
    obtain ⟨hText, hRest⟩ := forall_mem_cons.mp hTexts
    cases rest with
    | nil => simpa [commaSeparated] using hText
    | cons next rest =>
      exact oneLine_append.mpr ⟨hText, oneLine_cons.mpr ⟨rfl, ih hRest⟩⟩

theorem oneLine_arrayOf {docs : List Doc} (hDocs : ∀ doc ∈ docs, OneLine doc.text) :
    OneLine (arrayOf docs).text := by
  rw [arrayOf_text]
  refine oneLine_cons.mpr
    ⟨rfl, oneLine_append.mpr ⟨oneLine_commaSeparated ?_, forall_mem_singleton.mpr rfl⟩⟩
  exact forall_mem_map.mpr hDocs

theorem oneLine_objectOf {members : List (List Piece × Doc)}
    (hDocs : ∀ member ∈ members, OneLine member.2.text) : OneLine (objectOf members).text := by
  rw [objectOf_text]
  refine oneLine_cons.mpr
    ⟨rfl, oneLine_append.mpr ⟨oneLine_commaSeparated ?_, forall_mem_singleton.mpr rfl⟩⟩
  refine forall_mem_map.mpr fun member hMem => ?_
  have hMember : memberText member.1 member.2.text = quoted member.1 ++ 0x3a :: member.2.text := by
    simp [memberText, quoted]
  rw [hMember]
  exact oneLine_append.mpr ⟨oneLine_quoted member.1, oneLine_cons.mpr ⟨rfl, hDocs member hMem⟩⟩

def dropBreaks (space : Space) : Space :=
  ⟨stripJsonLineBreaks space.bytes, fun byte hMem => space.blank byte (mem_of_mem_filter hMem)⟩

theorem strip_of_oneLine {text : List UInt8} (hLine : OneLine text) :
    stripJsonLineBreaks text = text := by
  refine filter_eq_self.mpr fun byte hMem => ?_
  rw [hLine byte hMem]
  rfl

theorem strip_text (doc : Doc) :
    stripJsonLineBreaks doc.text = (doc.respell id dropBreaks).text := by
  have hCopies : Copies (fun text text' => stripJsonLineBreaks text = text') dropBreaks :=
    { append := by
        rintro a _ b _ rfl rfl
        exact filter_append a b
      outside := fun bytes hOutside => strip_of_oneLine (oneLine_outside hOutside)
      space := fun space => rfl }
  exact Doc.respell_text hCopies doc fun p _ => strip_of_oneLine (oneLine_quoted p)

/-- A payload is brought to one line without an error. -/
theorem oneLine_spec (raw : Doc) : ∃ doc, oneLine raw = .ok doc ∧ OneLine doc.text := by
  rw [oneLine]
  split_ifs with hAny
  · refine ⟨raw.respell id dropBreaks, ?_, ?_⟩
    · rw [strip_text, scan_text]
      rfl
    · rw [← strip_text]
      intro byte hMem
      have hKept := of_mem_filter hMem
      rwa [Bool.not_eq_true'] at hKept
  · refine ⟨raw, rfl, fun byte hMem => ?_⟩
    rw [Bool.eq_false_iff]
    exact fun hBreak => hAny (any_eq_true.mpr ⟨byte, hMem, hBreak⟩)

section Wrapper

variable {printer : Printer}

theorem oneLine_metadata (metadata : Pack.Metadata) :
    OneLine (metadataDoc printer metadata).text := by
  refine oneLine_objectOf fun member hMem => ?_
  obtain ⟨pair, -, rfl⟩ := mem_map.mp hMem
  exact oneLine_quoted _

theorem oneLine_recordWrapper (messageId : Nat) {payload : Doc} (hPayload : OneLine payload.text)
    (metadata : Pack.Metadata) :
    OneLine (recordWrapper printer messageId payload metadata).text := by
  refine oneLine_objectOf ?_
  simp only [forall_mem_cons, not_mem_nil, false_imp_iff, implies_true, and_true]
  exact ⟨oneLine_quoted _, hPayload, oneLine_metadata metadata⟩

theorem oneLine_bytePayload (message : CanonicalMessage) :
    OneLine (encodeBytePayload printer message).text := by
  refine oneLine_recordWrapper _ (oneLine_arrayOf fun doc hMem => ?_) _
  obtain ⟨byte, -, rfl⟩ := mem_map.mp hMem
  exact oneLine_outside (NumberToken.text_outside _)

/-- No record has a line break. -/
theorem wrapperDoc_oneLine {message : CanonicalMessage} {format : FileFormat} {doc : Doc}
    (hDoc : wrapperDoc printer message format = .ok doc) : OneLine doc.text := by
  cases format with
  | normal =>
    cases hDoc
    refine oneLine_objectOf (forall_mem_append.mpr ⟨?_, ?_⟩)
    · simp only [forall_mem_cons, not_mem_nil, false_imp_iff, implies_true, and_true]
      refine ⟨oneLine_quoted _, ?_⟩
      cases decodeUtf8 message.payload with
      | none | some => exact oneLine_quoted _
    · split_ifs
      · exact nofun
      · exact forall_mem_singleton.mpr (oneLine_metadata _)
  | json =>
    rw [wrapperDoc] at hDoc
    split at hDoc
    next raw hRaw =>
      obtain ⟨line, hLine, hText⟩ := oneLine_spec raw
      rw [hLine] at hDoc
      cases hDoc
      exact oneLine_recordWrapper _ hText _
    next =>
      cases hDoc
      exact oneLine_bytePayload message
  | text =>
    rw [wrapperDoc] at hDoc
    split at hDoc
    next text hText =>
      cases hDoc
      have hPayload : OneLine (stringDoc text).text := oneLine_quoted _
      exact oneLine_recordWrapper _ hPayload _
    next =>
      cases hDoc
      exact oneLine_bytePayload message
  | raw | csv | parquet => cases hDoc

end Wrapper

end LineBreaks

/-! ### Reading the records -/

section Reading

variable (printer : Printer) (floats : Floats)

/-- What a record is to its message, whatever the delimiter. -/
theorem encodeRecord_spec {message : CanonicalMessage} {format : FileFormat}
    {delimiter record : List UInt8}
    (hFormat : format ≠ .raw)
    (hRecord : encodeRecord printer message format delimiter = .ok record) :
    (∃ doc, wrapperDoc printer message format = .ok doc ∧ fromSlice floats record =
      fromSlice floats doc.text) ∧
      ¬ delimiter <:+: record ∧ (delimiter = [0x0a] → record.getLast? ≠ some 0x0d) := by
  rw [encodeRecord, if_neg hFormat] at hRecord
  obtain ⟨doc, hDoc, hRecord⟩ := Outcome.bind_eq_ok.mp hRecord
  obtain ⟨hVal, hDelim⟩ := escapeDelimiterInJson_spec floats hRecord
  have hLine := wrapperDoc_oneLine hDoc
  refine ⟨⟨doc, hDoc, hVal⟩, ?_⟩
  split_ifs at hDelim with hBreak
  · rw [hDelim]
    refine ⟨fun hIn => ?_, fun _ hLast => ?_⟩
    · have hMem : 0x0a ∈ delimiter := by rcases hBreak with rfl | rfl <;> decide
      exact absurd (hLine _ (hIn.subset hMem)) (by decide)
    · exact absurd (hLine _ (mem_of_getLast? hLast)) (by decide)
  · exact ⟨hDelim, fun hSame => absurd (.inl hSame) hBreak⟩

/-- Every record has the value that it had before the delimiter was escaped, and the
records are read back one by one, exactly when no record ends with the beginning of
a delimiter that overlaps itself there. -/
theorem encoded_records_split_iff {setting : Option String} {format : FileFormat}
    {delimiter : List UInt8} {messages : List CanonicalMessage} {records : List (List UInt8)}
    (hDelim : parseDelimiter setting = .ok delimiter)
    (hFormat : format ∈ [.json, .normal, .text]) (hRecords : List.Forall₂ (fun message record =>
      encodeRecord printer message format delimiter = .ok record) messages records) :
    (splitRecords delimiter (records.flatMap (· ++ delimiter)).length
          (records.flatMap (· ++ delimiter)) = records ∧
        List.Forall₂ (fun message record => ∃ doc, wrapperDoc printer message format = .ok doc ∧
          fromSlice floats record = fromSlice floats doc.text) messages records) ↔
      ∀ record ∈ records, Clear delimiter record := by
  have hNotRaw : format ≠ .raw := by
    rintro rfl
    exact absurd hFormat (by decide)
  have hSome := parseDelimiter_ne_nil hDelim
  have hEach : ∀ record ∈ records,
      ¬ delimiter <:+: record ∧ (delimiter = [0x0a] → record.getLast? ≠ some 0x0d) := by
    induction hRecords with
    | nil => simp
    | cons hRecord _ ih =>
      exact forall_mem_cons.mpr ⟨(encodeRecord_spec printer floats hNotRaw hRecord).2, ih⟩
  constructor
  · rintro ⟨hSplit, -⟩
    exact clear_of_splitRecords hSome le_rfl (fun record hMem => (hEach record hMem).1) hSplit
  · intro hClear
    refine ⟨splitRecords_append hSome (fun record hMem => ?_) fun record hMem =>
      (hEach record hMem).2, ?_⟩
    · exact first_of_clear (hClear record hMem) (hEach record hMem).1 hSome
    · exact hRecords.imp fun message record hRecord =>
        (encodeRecord_spec printer floats hNotRaw hRecord).1

end Reading

/-! ### Delimiters that overlap themselves -/

def plainMessage : CanonicalMessage := ⟨0, [0x31], ∅⟩

def nilUuid : String := "00000000-0000-0000-0000-000000000000"

/-- A printer for messages with the id 0 and a payload that is text. -/
noncomputable def nilPrinter : Printer := ⟨Pack.someOrder, fun _ => nilUuid, fun _ => ""⟩

def plainDoc : Doc :=
  objectOf [(escape "message_id", stringDoc nilUuid), (escape "payload", byteDoc 1),
    (escape "metadata", objectOf [])]

theorem wrapperDoc_plain :
    wrapperDoc nilPrinter plainMessage .json = .ok plainDoc := by
  have hPairs : nilPrinter.order.pairs ∅ = [] := Multiset.toList_zero
  have hScan : scan plainMessage.payload = some (byteDoc 1) := scan_text (byteDoc 1)
  have hUtf8 : decodeUtf8 (byteDoc 1).text = some "1" := by decide
  have hLine : oneLine (byteDoc 1) = .ok (byteDoc 1) := by rfl
  rw [wrapperDoc, hScan, filter_some, hUtf8]
  simp only [isSome_some, if_true, hLine, Except.map]
  rw [recordWrapper, metadataDoc, plainMessage, hPairs]
  rfl

theorem encodeRecord_plain (delimiter : List UInt8) :
    encodeRecord nilPrinter plainMessage .json delimiter =
      escapeDelimiterInJson plainDoc.text delimiter := by
  rw [encodeRecord, if_neg (by decide), wrapperDoc_plain, Except.bind]

def escapedRecord : List UInt8 :=
  encodeChars (escapeLoop [0x70, 0x61, 0x79] false (plainDoc.text.map asciiChar))

theorem encoded_records_split_escaped : escapedRecord ≠ plainDoc.text ∧
      splitRecords [0x70, 0x61, 0x79] ([escapedRecord].flatMap (· ++ [0x70, 0x61, 0x79])).length
        ([escapedRecord].flatMap (· ++ [0x70, 0x61, 0x79])) = [escapedRecord] ∧
      List.Forall₂ (fun message record => ∃ doc, wrapperDoc nilPrinter message .json = .ok doc ∧
        fromSlice integersOnly record =
          fromSlice integersOnly doc.text) [plainMessage] [escapedRecord] := by
  have hDelim : parseDelimiter (some "pay") = .ok [0x70, 0x61, 0x79] := by decide
  have hEscaped : escapeDelimiterInJson plainDoc.text [0x70, 0x61, 0x79] =
      .ok escapedRecord := by decide +kernel
  have hRecord := (encodeRecord_plain [0x70, 0x61, 0x79]).trans hEscaped
  refine ⟨by decide +kernel,
    (encoded_records_split_iff nilPrinter integersOnly hDelim (by decide)
    (.cons hRecord .nil)).mpr fun record _ k hPos hLt hOverlap => ?_⟩
  obtain rfl | rfl : k = 1 ∨ k = 2 := by
    rw [length_cons, length_cons, length_cons, length_nil] at hLt
    omega
  · exact absurd hOverlap (by decide)
  · exact absurd hOverlap (by decide)

/-- A record ends in two braces, and with the first of the three that follow
they are taken for the delimiter. -/
theorem overlapping_delimiter_cuts_early :
    ∃ record, parseDelimiter (some "\x7d\x7d\x7d") = .ok [0x7d, 0x7d, 0x7d] ∧
      encodeRecord nilPrinter plainMessage .json [0x7d, 0x7d, 0x7d] = .ok record ∧
      splitRecords [0x7d, 0x7d, 0x7d] (record ++ [0x7d, 0x7d, 0x7d]).length
        (record ++ [0x7d, 0x7d, 0x7d]) = [record.dropLast.dropLast, [0x7d, 0x7d]] := by
  refine ⟨plainDoc.text, by decide, ?_, by decide +kernel⟩
  rw [encodeRecord_plain]
  decide +kernel

end MqBridge.File
