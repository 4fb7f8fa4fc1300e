import MqBridge.Codec.Delimited
import MqBridge.Json.Syntax
import MqBridge.Support.Text

/-! How a file is cut into records: the delimiter of the settings, the loop that
reads up to it, and what the readers take off the end of a record. -/
namespace MqBridge.File

open List

open Text Delimited

inductive FileFormat where
  | normal
  | json
  | text
  | raw
  | csv
  | parquet
  deriving DecidableEq

def trimStart0x : List Char → List Char
  | '0' :: 'x' :: rest => trimStart0x rest
  | text => text

/-- A number of two hexadecimal digits; a plus sign takes the place of one. -/
def hexByte : List UInt8 → Option UInt8
  | [high, low] =>
    if high = 0x2b then (Json.hexDigit low).map UInt8.ofNat
    else (Json.hexDigit high).bind fun h => (Json.hexDigit low).map fun l =>
      UInt8.ofNat (16 * h + l)
  | _ => none

def parseHexDelimiter (hex : List UInt8) : Except String (List UInt8) :=
  if hex.length ≠ 2 then .error "Hex delimiter must be 1 byte (2 hex chars)"
  else (hexByte hex).elim
    (.error "Invalid hex delimiter: invalid digit found in string") fun byte => .ok [byte]

def parseDelimiter : Option String → Except String (List UInt8)
  | none => .ok [0x0a]
  | some text =>
    if ['0', 'x'] <+: text.toList then
      parseHexDelimiter (bytesOf (String.ofList (trimStart0x text.toList)))
    else if text = "" then .error "Delimiter cannot be empty"
    else .ok (bytesOf text)

def readUntil (byte : UInt8) : List UInt8 → List UInt8 × List UInt8
  | [] => ([], [])
  | b :: rest =>
    if b = byte then ([b], rest) else (b :: (readUntil byte rest).1, (readUntil byte rest).2)

/-- Reads up to the last byte of the delimiter until what was read ends in all
of it. The number bounds the rounds; one for each byte is enough. -/
def readUntilLoop (delimiter : List UInt8) (lastByte : UInt8) :
    Nat → List UInt8 → List UInt8 → List UInt8 × List UInt8
  | 0, buf, input => (buf, input)
  | fuel + 1, buf, input =>
    let (chunk, rest) := readUntil lastByte input
    if chunk = [] then (buf, input)
    else if endsIn delimiter (buf ++ chunk) then (buf ++ chunk, rest)
    else readUntilLoop delimiter lastByte fuel (buf ++ chunk) rest

def readUntilBytes (delimiter buf input : List UInt8) : List UInt8 × List UInt8 :=
  match delimiter with
  | [] => (buf, input)
  | [byte] => (buf ++ (readUntil byte input).1, (readUntil byte input).2)
  | first :: rest =>
    readUntilLoop (first :: rest) ((first :: rest).getLast (cons_ne_nil _ _)) input.length buf input

/-- A record without its delimiter. A line feed takes a carriage return with it. -/
def cutDelimiter (delimiter record : List UInt8) : List UInt8 :=
  let body := if endsIn delimiter record then record.take (record.length - delimiter.length) else
    record
  if delimiter = [0x0a] ∧ body.getLast? = some 0x0d then body.dropLast else body

/-- Reads records until there is nothing left. The number bounds the reads; one
for each byte is enough. -/
def splitRecords (delimiter : List UInt8) : Nat → List UInt8 → List (List UInt8)
  | 0, _ => []
  | fuel + 1, input =>
    let (record, rest) := readUntilBytes delimiter [] input
    if record = [] then [] else cutDelimiter delimiter record :: splitRecords delimiter fuel rest

section Reading

variable {delimiter buf input : List UInt8}

theorem parseDelimiter_ne_nil {setting : Option String}
    (hDelim : parseDelimiter setting = .ok delimiter) : delimiter ≠ [] := by
  cases setting with
  | none =>
    cases hDelim
    exact cons_ne_nil _ _
  | some text =>
    rw [parseDelimiter] at hDelim
    split_ifs at hDelim with hHex hEmpty
    · rw [parseHexDelimiter] at hDelim
      split_ifs at hDelim
      cases hByte : hexByte (bytesOf (.ofList (trimStart0x text.toList))) with
      | none =>
        rw [hByte] at hDelim
        cases hDelim
      | some byte =>
        rw [hByte] at hDelim
        cases hDelim
        exact cons_ne_nil _ _
    · cases hDelim
      intro hNil
      refine hEmpty (bytesOf_injective ?_)
      rw [hNil]
      rfl

theorem readUntil_length (byte : UInt8) (input : List UInt8) :
    (readUntil byte input).1.length + (readUntil byte input).2.length = input.length := by
  induction input with
  | nil => rfl
  | cons b rest ih =>
    rw [readUntil]
    split_ifs
    · simp [add_comm]
    · simp only [length_cons]
      omega

/-- If a condition can only hold after the byte, the reading up to it reads up
to the next such byte first. -/
theorem upTo_readUntil {stop : List UInt8 → Bool} {byte : UInt8}
    (hStop : ∀ read b, stop (read ++ [b]) = true → b = byte) (hSome : input ≠ [])
    (buf : List UInt8) : upTo stop buf input =
      if stop (buf ++ (readUntil byte input).1) then
        (buf ++ (readUntil byte input).1, (readUntil byte input).2)
      else upTo stop (buf ++ (readUntil byte input).1) (readUntil byte input).2 := by
  induction input generalizing buf with
  | nil => exact absurd rfl hSome
  | cons b rest ih =>
    rw [upTo, readUntil]
    by_cases hByte : b = byte
    · simp [hByte]
    · have hNot : ¬ stop (buf ++ [b]) = true := fun hYes => hByte (hStop buf b hYes)
      rw [if_neg hNot, if_neg hByte]
      cases rest with
      | nil => simp [readUntil, hNot]
      | cons c rest =>
        rw [ih (cons_ne_nil c rest) (buf ++ [b])]
        simp

theorem endsIn_snoc (hSome : delimiter ≠ []) {read : List UInt8} {b : UInt8}
    (hEnds : endsIn delimiter (read ++ [b]) = true) : b = delimiter.getLast hSome := by
  obtain ⟨q, hQ⟩ := of_decide_eq_true hEnds
  have hLast := congrArg getLast? hQ
  rw [getLast?_append_of_ne_nil _ hSome, getLast?_eq_getLast_of_ne_nil hSome, getLast?_concat]
    at hLast
  exact (Option.some.inj hLast).symm

theorem readUntilLoop_eq (hSome : delimiter ≠ []) {fuel : Nat} (hFuel : input.length ≤ fuel)
    (buf : List UInt8) :
    readUntilLoop delimiter (delimiter.getLast hSome) fuel buf input =
      upTo (endsIn delimiter) buf input := by
  induction fuel generalizing buf input with
  | zero =>
    obtain rfl := eq_nil_of_length_eq_zero (Nat.le_zero.mp hFuel)
    rfl
  | succ fuel ih =>
    rw [readUntilLoop]
    cases input with
    | nil => rfl
    | cons b rest =>
      have hLen := readUntil_length (delimiter.getLast hSome) (b :: rest)
      have hChunk : (readUntil (delimiter.getLast hSome) (b :: rest)).1 ≠ [] := by
        rw [readUntil]
        split_ifs <;> exact cons_ne_nil _ _
      have hPos := length_pos_iff.mpr hChunk
      rw [upTo_readUntil (fun read b => endsIn_snoc hSome) (cons_ne_nil b rest)]
      dsimp only
      rw [if_neg hChunk]
      split_ifs
      · rfl
      · apply ih
        omega

/-- A condition that holds after the byte wherever it is holds at the first. -/
theorem upTo_byte (byte : UInt8) (buf input : List UInt8) :
    (buf ++ (readUntil byte input).1, (readUntil byte input).2) =
      upTo (endsIn [byte]) buf input := by
  induction input generalizing buf with
  | nil => simp [readUntil, upTo]
  | cons b rest ih =>
    have hEnds : endsIn [byte] (buf ++ [b]) = decide (b = byte) := by
      simp [endsIn, eq_comm]
    rw [upTo, readUntil, hEnds]
    by_cases hByte : b = byte
    · simp [hByte]
    · simp [hByte, ← ih]

/-- Reading up to the delimiter stops as soon as what is in the buffer ends in it. -/
theorem readUntilBytes_eq (hSome : delimiter ≠ []) (buf input : List UInt8) :
    readUntilBytes delimiter buf input = upTo (endsIn delimiter) buf input := by
  match delimiter, hSome with
  | [byte], _ => exact upTo_byte byte buf input
  | first :: second :: rest, hSome => exact readUntilLoop_eq hSome (le_refl _) buf

theorem cutDelimiter_append {body : List UInt8}
    (hReturn : delimiter = [0x0a] → body.getLast? ≠ some 0x0d) :
    cutDelimiter delimiter (body ++ delimiter) = body := by
  have hEnds : endsIn delimiter (body ++ delimiter) = true :=
    decide_eq_true (suffix_append body delimiter)
  have hBody :
      (body ++ delimiter).take ((body ++ delimiter).length - delimiter.length) = body := by simp
  simp only [cutDelimiter, hEnds, hBody]
  exact if_neg fun hBoth => hReturn hBoth.1 hBoth.2

theorem splitRecords_eq (hSome : delimiter ≠ []) (fuel : Nat) (input : List UInt8) :
    splitRecords delimiter fuel input =
      (pieces (endsIn delimiter) fuel input).map (cutDelimiter delimiter) := by
  induction fuel generalizing input with
  | zero => rfl
  | succ fuel ih =>
    rw [splitRecords, readUntilBytes_eq hSome]
    cases input with
    | nil => rfl
    | cons byte rest =>
      have hRecord : (upTo (endsIn delimiter) [] (byte :: rest)).1 ≠ [] := upTo_ne_nil byte rest
      dsimp only
      rw [if_neg hRecord, ih, pieces, map_cons]

/-- Records in which the delimiter is only found at the end are read one by one. -/
theorem splitRecords_append {records : List (List UInt8)} (hSome : delimiter ≠ [])
    (hFirst : ∀ record ∈ records, First (endsIn delimiter) [] (record ++ delimiter))
    (hReturn : ∀ record ∈ records, delimiter = [0x0a] → record.getLast? ≠ some 0x0d) :
    splitRecords delimiter (records.flatMap (· ++ delimiter)).length
      (records.flatMap (· ++ delimiter)) = records := by
  have hPieces : ∀ piece ∈ records.map (· ++ delimiter), First (endsIn delimiter) [] piece :=
    forall_mem_map.mpr hFirst
  rw [splitRecords_eq hSome, flatMap_def, pieces_flatten hPieces (le_refl _), map_map]
  refine (map_congr_left fun record hMem => ?_).trans (map_id records)
  exact cutDelimiter_append (hReturn record hMem)

theorem length_cutDelimiter_le {record : List UInt8} (hEnds : endsIn delimiter record = true) :
    (cutDelimiter delimiter record).length ≤ record.length - delimiter.length := by
  simp only [cutDelimiter, hEnds, if_true]
  split_ifs
  · rw [length_dropLast, length_take]
    omega
  · rw [length_take]
    omega

/-- Where the delimiter is found early, too little is read. -/
theorem length_cutDelimiter_of_early {p : List UInt8} (hSome : delimiter ≠ [])
    (hPre : p <+: input) (hEnds : endsIn delimiter p = true) (hShort : p.length < input.length) :
    (cutDelimiter delimiter (upTo (endsIn delimiter) [] input).1).length + delimiter.length ≤
      p.length := by
  have hLe : delimiter.length ≤ p.length := (of_decide_eq_true hEnds).length_le
  have hNe : p ≠ [] := ne_nil_of_length_pos ((length_pos_of_ne_nil hSome).trans_le hLe)
  have hRead : (upTo (endsIn delimiter) [] input).1.length ≤ p.length :=
    upTo_length_le hPre hNe hEnds
  have hAll := congrArg length (upTo_append (endsIn delimiter) [] input)
  rw [length_append, nil_append] at hAll
  have hStops : endsIn delimiter (upTo (endsIn delimiter) [] input).1 = true :=
    upTo_stops (ne_nil_of_length_pos (by omega))
  have hCut := length_cutDelimiter_le hStops
  have hLonger := (of_decide_eq_true hStops).length_le
  omega

/-- Records that are read one by one are clear: from one that is not, too little is read. -/
theorem clear_of_splitRecords {records : List (List UInt8)} {fuel : Nat} (hSome : delimiter ≠ [])
    (hFuel : (records.flatMap (· ++ delimiter)).length ≤ fuel)
    (hNot : ∀ record ∈ records, ¬ delimiter <:+: record)
    (hSplit : splitRecords delimiter fuel (records.flatMap (· ++ delimiter)) = records) :
    ∀ record ∈ records, Clear delimiter record := by
  induction records generalizing fuel with
  | nil => nofun
  | cons record records ih =>
    obtain ⟨hHere, hLater⟩ := forall_mem_cons.mp hNot
    have hInput : (record :: records).flatMap (· ++ delimiter) =
        (record ++ delimiter) ++ records.flatMap (· ++ delimiter) := flatMap_cons
    have hPos := length_pos_of_ne_nil hSome
    rw [hInput] at hFuel hSplit
    simp only [length_append] at hFuel
    cases fuel with
    | zero => omega
    | succ fuel =>
      rw [splitRecords, readUntilBytes_eq hSome] at hSplit
      dsimp only at hSplit
      split_ifs at hSplit
      obtain ⟨hRecord, hRest⟩ := cons.inj hSplit
      have hClear : Clear delimiter record := by
        by_contra hNotClear
        obtain ⟨p, hPre, hEnds, hShort⟩ := early_of_not_clear hNotClear
        have hWithin := prefix_append (record ++ delimiter) (records.flatMap (· ++ delimiter))
        have hCut := length_cutDelimiter_of_early hSome (hPre.trans hWithin) hEnds
          (hShort.trans_le hWithin.length_le)
        rw [hRecord] at hCut
        rw [length_append] at hShort
        omega
      rw [upTo_first (first_of_clear hClear hHere hSome)] at hRest
      exact forall_mem_cons.mpr ⟨hClear, ih (by omega) hLater hRest⟩

end Reading

end MqBridge.File
