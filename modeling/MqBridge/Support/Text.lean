import Mathlib.Algebra.Group.Int.Defs
import Mathlib.Algebra.GroupWithZero.Nat
import Mathlib.Data.List.Infix
import Mathlib.Data.String.Basic

/-! What the standard library of the source makes of texts: numbers, padding
and bytes that should be UTF-8. -/
namespace MqBridge.Text

open List Option

def parseDigits (digits : List Char) : Option Nat :=
  if digits.isEmpty || !digits.all Char.isDigit then none
  else some (digits.foldl (fun value digit => 10 * value + (digit.toNat - '0'.toNat)) 0)

/-- Integer texts as the standard library reads them: a plus sign is allowed. -/
def parseUnsigned (text : String) : Option UInt64 :=
  let digits :=
    match text.toList with
    | '+' :: digits => digits
    | digits => digits
  (parseDigits digits).bind fun value =>
    if value < 2 ^ 64 then some (UInt64.ofNat value) else none

def parseSigned (text : String) : Option Int :=
  match text.toList with
  | '-' :: digits =>
    (parseDigits digits).bind fun value => if value ≤ 2 ^ 63 then some (-(value : Int)) else none
  | '+' :: digits =>
    (parseDigits digits).bind fun value => if value < 2 ^ 63 then some (value : Int) else none
  | digits =>
    (parseDigits digits).bind fun value => if value < 2 ^ 63 then some (value : Int) else none

def padded (width : Nat) (digits : List Char) : String :=
  String.ofList (List.replicate (width - digits.length) '0' ++ digits)

def parseI32 (text : String) : Option Int :=
  (parseSigned text).filter fun value => decide (-2 ^ 31 ≤ value) && decide (value < 2 ^ 31)

/-- The characters that trimming takes away. -/
def isWhitespace (c : Char) : Bool :=
  let n := c.toNat
  decide (9 ≤ n ∧ n ≤ 13) || n == 0x20 || n == 0x85 || n == 0xa0 || n == 0x1680 ||
    decide (0x2000 ≤ n ∧ n ≤ 0x200a) || n == 0x2028 || n == 0x2029 || n == 0x202f ||
    n == 0x205f || n == 0x3000

def trim (text : List Char) : List Char :=
  ((text.dropWhile isWhitespace).reverse.dropWhile isWhitespace).reverse

def splitOnce (separator : Char) (text : List Char) : Option (List Char × List Char) :=
  match text.dropWhile (· ≠ separator) with
  | [] => none
  | _ :: after => some (text.takeWhile (· ≠ separator), after)

def rsplitOnce (separator : Char) (text : List Char) : Option (List Char × List Char) :=
  match text.reverse.dropWhile (· ≠ separator) with
  | [] => none
  | _ :: before => some (before.reverse, (text.reverse.takeWhile (· ≠ separator)).reverse)

/-- At most so many pieces, from the right; the last one is what is left. -/
def rsplitn (separator : Char) : Nat → List Char → List (List Char)
  | 0, _ => []
  | 1, text => [text]
  | n + 2, text =>
    match rsplitOnce separator text with
    | some (before, after) => after :: rsplitn separator (n + 1) before
    | none => [text]

/-- The part before the first separator, or the whole text. -/
theorem fst_splitOnce (separator : Char) (text : List Char) :
    ((splitOnce separator text).elim text Prod.fst) = text.takeWhile (· ≠ separator) := by
  rw [splitOnce]
  cases hDrop : text.dropWhile (· ≠ separator) with
  | nil =>
    have hAll := takeWhile_append_dropWhile (p := (· ≠ separator)) (l := text)
    rw [hDrop, append_nil] at hAll
    exact hAll.symm
  | cons first after => rfl

theorem dropWhile_isWhitespace {text : List Char} (hText : ∀ c ∈ text, isWhitespace c = false) :
    text.dropWhile isWhitespace = text := by
  cases text with
  | nil => rfl
  | cons c rest =>
    rw [dropWhile_cons_of_neg]
    rw [hText c (mem_cons_self ..)]
    exact Bool.false_ne_true

theorem trim_of_forall {text : List Char} (hText : ∀ c ∈ text, isWhitespace c = false) :
    trim text = text := by
  rw [trim, dropWhile_isWhitespace hText,
    dropWhile_isWhitespace fun c hMem => hText c (mem_reverse.mp hMem), reverse_reverse]

/-- Trimming keeps a word without spaces at the beginning of a text; behind it
there is nothing left, or a space. -/
theorem takeWhile_trim {word rest : List Char} (hWord : ∀ c ∈ word, isWhitespace c = false)
    (hNe : word ≠ []) : (trim (word ++ ' ' :: rest)).takeWhile (· ≠ ' ') = word := by
  have hFront : (word ++ ' ' :: rest).dropWhile isWhitespace = word ++ ' ' :: rest := by
    rw [dropWhile_append, dropWhile_isWhitespace hWord, if_neg (by rwa [List.isEmpty_iff])]
  have hBack : ((' ' :: rest).reverse ++ word.reverse).dropWhile isWhitespace =
      (' ' :: rest).reverse.dropWhile isWhitespace ++ word.reverse := by
    rw [dropWhile_append]
    split_ifs with hEmpty
    · rw [dropWhile_isWhitespace fun c hMem => hWord c (mem_reverse.mp hMem), isEmpty_iff.mp hEmpty,
        nil_append]
    · rfl
  have hKept : ((' ' :: rest).reverse.dropWhile isWhitespace).reverse <+: ' ' :: rest := by
    have hSuffix := dropWhile_suffix isWhitespace (l := (' ' :: rest).reverse)
    rw [← reverse_prefix, reverse_reverse] at hSuffix
    exact hSuffix
  have hNotSpace : ∀ c ∈ word, decide (c ≠ ' ') = true := by
    intro c hMem
    rw [decide_eq_true_eq]
    rintro rfl
    cases hWord ' ' hMem
  rw [trim, hFront, reverse_append, hBack, reverse_append, reverse_reverse,
    takeWhile_append_of_pos hNotSpace]
  rcases prefix_cons_iff.mp hKept with hNil | ⟨kept, hCons, -⟩
  · rw [hNil, takeWhile_nil, append_nil]
  · rw [hCons, takeWhile_cons_of_neg (by simp), append_nil]

variable {c : Char}

theorem isWhitespace_of_isDigit (hDigit : c.isDigit = true) : isWhitespace c = false := by
  have hRange : 48 ≤ c.toNat ∧ c.toNat ≤ 57 := by
    simpa [Char.isDigit, UInt32.le_iff_toNat_le] using hDigit
  simp only [isWhitespace, Bool.or_eq_false_iff, decide_eq_false_iff_not, beq_eq_false_iff_ne]
  omega

theorem rsplitOnce_append {separator : Char} (before : List Char) {after : List Char}
    (hAfter : separator ∉ after) :
    rsplitOnce separator (before ++ separator :: after) = some (before, after) := by
  have hReverse : (before ++ separator :: after).reverse =
      after.reverse ++ separator :: before.reverse := by simp
  have hAll : ∀ c ∈ after.reverse, decide (c ≠ separator) = true := by
    intro c hMem
    rw [decide_eq_true_eq]
    exact fun hSame => hAfter (hSame ▸ mem_reverse.mp hMem)
  rw [rsplitOnce, hReverse, dropWhile_append_of_pos hAll, takeWhile_append_of_pos hAll]
  simp

section Padded

variable {width n : Nat}

theorem isDigit_of_mem_padded (hMem : c ∈ (padded width (Nat.toDigits 10 n)).toList) :
    c.isDigit = true := by
  rw [padded, String.toList_ofList, mem_append] at hMem
  rcases hMem with hZero | hDigit
  · rw [eq_of_mem_replicate hZero]
    rfl
  · exact Nat.isDigit_of_mem_toDigits (by decide) (by decide) hDigit

theorem length_padded (hWidth : 0 < width) (hLt : n < 10 ^ width) :
    (padded width (Nat.toDigits 10 n)).toList.length = width := by
  have hLe := (Nat.length_toDigits_le_iff (by decide) hWidth).mpr hLt
  rw [padded, String.toList_ofList, length_append, length_replicate]
  omega

/-- Zeros in front do not change a number. -/
theorem parseDigits_padded : parseDigits (padded width (Nat.toDigits 10 n)).toList = some n := by
  have hAll : (padded width (Nat.toDigits 10 n)).toList.all Char.isDigit = true :=
    all_eq_true.mpr fun c => isDigit_of_mem_padded
  have hNe : (padded width (Nat.toDigits 10 n)).toList.isEmpty = false := by
    rw [padded, String.toList_ofList, isEmpty_eq_false_iff]
    exact append_ne_nil_of_right_ne_nil _ Nat.toDigits_ne_nil
  rw [parseDigits, hAll, hNe]
  simp only [Bool.not_true, Bool.or_self, Bool.false_eq_true, if_false]
  rw [← Nat.ofDigitChars_eq_foldl, padded, String.toList_ofList, Nat.ofDigitChars_append,
    Nat.ofDigitChars_replicate_zero, mul_zero, Nat.ofDigitChars_ten_toDigits]

/-- A padded number has no sign in front. -/
theorem padded_ne_sign {sign : Char} (hSign : sign.isDigit = false) (rest : List Char) :
    (padded width (Nat.toDigits 10 n)).toList ≠ sign :: rest := by
  intro hList
  have hDigit := isDigit_of_mem_padded (hList ▸ mem_cons_self ..)
  rw [hSign] at hDigit
  cases hDigit

theorem parseUnsigned_padded (hLt : n < 2 ^ 64) :
    parseUnsigned (padded width (Nat.toDigits 10 n)) = some (UInt64.ofNat n) := by
  rw [parseUnsigned]
  split
  next digits hList => exact absurd hList (padded_ne_sign rfl digits)
  next => rw [parseDigits_padded, bind_some, if_pos hLt]

theorem padded_zero (digits : List Char) : padded 0 digits = String.ofList digits := by
  rw [padded, Nat.zero_sub, replicate_zero, nil_append]

theorem parseUnsigned_repr (hLt : n < 2 ^ 64) :
    parseUnsigned (String.ofList (Nat.toDigits 10 n)) = some (UInt64.ofNat n) := by
  rw [← padded_zero, parseUnsigned_padded hLt]

theorem parseUnsigned_toDigits {value : UInt64}
    (hParsed : parseUnsigned (String.ofList (Nat.toDigits 10 n)) = some value) :
    value.toNat = n := by
  rw [← padded_zero, parseUnsigned] at hParsed
  split at hParsed
  next digits hList => exact absurd hList (padded_ne_sign rfl digits)
  next =>
    rw [parseDigits_padded, bind_some] at hParsed
    split_ifs at hParsed with hLt
    cases hParsed
    exact UInt64.toNat_ofNat_of_lt' hLt

theorem parseI32_padded (hLt : n < 2 ^ 31) :
    parseI32 (padded width (Nat.toDigits 10 n)) = some (n : Int) := by
  have hSigned : parseSigned (padded width (Nat.toDigits 10 n)) = some (n : Int) := by
    rw [parseSigned]
    split
    next digits hList => exact absurd hList (padded_ne_sign rfl digits)
    next digits hList => exact absurd hList (padded_ne_sign rfl digits)
    next => rw [parseDigits_padded, bind_some, if_pos (by omega)]
  rw [parseI32, hSigned, filter_some, if_pos]
  rw [Bool.and_eq_true, decide_eq_true_eq, decide_eq_true_eq]
  omega

end Padded

def contains (text pattern : String) : Bool := decide (pattern.toList <:+: text.toList)

theorem contains_of_eq {text pattern : String} (before after : String)
    (hText : text = before ++ pattern ++ after) : contains text pattern := by
  rw [contains, decide_eq_true_eq, hText, String.toList_append, String.toList_append]
  exact ⟨before.toList, after.toList, rfl⟩

def bytesOf (text : String) : List UInt8 := text.toUTF8.data.toList

def decodeUtf8 (bytes : List UInt8) : Option String := String.fromUTF8? ⟨bytes.toArray⟩

/-- The bytes are the beginning of some character. The completions are the
smallest ones after each first byte that restricts its second. -/
def beginsChar (bytes : List UInt8) : Bool :=
  [[0x80], [0x80, 0x80], [0xa0, 0x80], [0x80, 0x80, 0x80], [0x90, 0x80, 0x80]].any fun more =>
    (decodeUtf8 (bytes ++ more)).isSome

/-- How many bytes at the beginning are a text. -/
def validUpTo (bytes : List UInt8) : Nat :=
  ((List.range (bytes.length + 1)).reverse.find? fun n => (decodeUtf8 (bytes.take n)).isSome).getD 0

/-- The text of the decoding error: where the valid bytes end, and how many
bytes could still have begun a character. -/
def utf8Error (bytes : List UInt8) : String :=
  let rest := bytes.drop (validUpTo bytes)
  if beginsChar rest then
    "incomplete utf-8 byte sequence from index " ++ toString (validUpTo bytes)
  else
    let errorLen := ([3, 2].find? fun n => beginsChar (rest.take n)).getD 1
    "invalid utf-8 sequence of " ++ toString errorLen ++ " bytes from index " ++
      toString (validUpTo bytes)

def fromUtf8 (bytes : List UInt8) : Except String String :=
  match decodeUtf8 bytes with
  | some text => .ok text
  | none => .error (utf8Error bytes)

/-- Each sequence that is not valid is replaced by one character. The number
bounds the replacements; one for each byte is enough. -/
def replaceInvalid : Nat → List UInt8 → List UInt8
  | 0, bytes => bytes
  | fuel + 1, bytes =>
    if (decodeUtf8 bytes).isSome then bytes
    else
      let rest := bytes.drop (validUpTo bytes)
      let invalid := if beginsChar rest then rest.length else
        ([3, 2].find? fun n => beginsChar (rest.take n)).getD 1
      bytes.take (validUpTo bytes) ++ [0xef, 0xbf, 0xbd] ++ replaceInvalid fuel (rest.drop invalid)

def fromUtf8Lossy (bytes : List UInt8) : List UInt8 := replaceInvalid (bytes.length + 1) bytes

theorem decodeUtf8_bytesOf (text : String) : decodeUtf8 (bytesOf text) = some text := by
  have hBytes : .mk (bytesOf text).toArray = text.toByteArray := by
    rfl
  rw [decodeUtf8, hBytes, String.fromUTF8?, dif_pos text.isValidUTF8]
  rfl

variable {bytes : List UInt8}

theorem bytesOf_of_decodeUtf8 {text : String} (hText : decodeUtf8 bytes = some text) :
    bytesOf text = bytes := by
  rw [decodeUtf8, String.fromUTF8?] at hText
  split_ifs at hText
  cases hText
  rfl

/-- A text of digits has one byte for each. -/
theorem length_bytesOf {text : String} (hDigits : ∀ c ∈ text.toList, c.isDigit = true) :
    (bytesOf text).length = text.toList.length := by
  have hBytes : (bytesOf text).length = text.utf8ByteSize := by
    rfl
  have hLen : ∀ {chars : List Char}, (∀ c ∈ chars, c.isDigit = true) →
      String.utf8Len chars = chars.length := by
    intro chars hAll
    induction chars with
    | nil => rfl
    | cons c rest ih =>
      have hRange : 48 ≤ c.toNat ∧ c.toNat ≤ 57 := by
        simpa [Char.isDigit, UInt32.le_iff_toNat_le] using hAll c mem_cons_self
      have hSize : c.utf8Size = 1 := by
        simp [Char.utf8Size, UInt32.le_iff_toNat_le]
        omega
      rw [String.utf8Len_cons, ih fun d hMem => hAll d (mem_cons_of_mem _ hMem), hSize, length_cons]
  rw [hBytes, ← hLen hDigits, ← String.utf8ByteSize_ofList, String.ofList_toList]

theorem fromUtf8_bytesOf (text : String) : fromUtf8 (bytesOf text) = .ok text := by
  rw [fromUtf8, decodeUtf8_bytesOf]

/-- Texts with the same bytes are the same. -/
theorem bytesOf_injective : Function.Injective bytesOf := by
  intro a b hSame
  rw [← some_inj, ← decodeUtf8_bytesOf, ← decodeUtf8_bytesOf, hSame]

def asciiChar (byte : UInt8) : Char := Char.ofNat byte.toNat

theorem toNat_asciiChar (byte : UInt8) : (asciiChar byte).toNat = byte.toNat := by
  have hLt := byte.toNat_lt
  have hValid : byte.toNat.isValidChar := .inl (by omega)
  rw [asciiChar, Char.ofNat, dif_pos hValid]
  rfl

def encodeChars (chars : List Char) : List UInt8 := chars.flatMap String.utf8EncodeChar

@[simp] theorem encodeChars_nil : encodeChars [] = [] := rfl

@[simp] theorem encodeChars_cons (c : Char) (chars : List Char) :
    encodeChars (c :: chars) = String.utf8EncodeChar c ++ encodeChars chars := rfl

@[simp] theorem encodeChars_append (before after : List Char) :
    encodeChars (before ++ after) = encodeChars before ++ encodeChars after := flatMap_append

variable (chars : List Char)

theorem bytesOf_ofList : bytesOf (String.ofList chars) = encodeChars chars := by
  change (String.ofList chars).toByteArray.data.toList = encodeChars chars
  rw [String.toByteArray_ofList, utf8Encode, toList_data_toByteArray, encodeChars]

variable {byte : UInt8}

theorem encodeChar_ascii (hAscii : byte.toNat < 128) :
    String.utf8EncodeChar (asciiChar byte) = [byte] := by
  have hNat := toNat_asciiChar byte
  have hSize : (asciiChar byte).utf8Size = 1 := by
    simp only [Char.utf8Size]
    rw [if_pos]
    change (asciiChar byte).toNat ≤ _
    rw [hNat]
    exact Nat.le_of_lt_succ hAscii
  have hSame : (asciiChar byte).val.toUInt8 = byte := by
    apply UInt8.toNat_inj.mp
    change (asciiChar byte).toNat % 256 = _
    rw [hNat]
    exact Nat.mod_eq_of_lt byte.toNat_lt
  rw [String.utf8EncodeChar_eq_singleton hSize, hSame]

theorem encodeChars_ascii (hAscii : ∀ byte ∈ bytes, byte.toNat < 128) :
    encodeChars (bytes.map asciiChar) = bytes := by
  induction bytes with
  | nil => rfl
  | cons byte rest ih =>
    obtain ⟨hByte, hRest⟩ := forall_mem_cons.mp hAscii
    rw [map_cons, encodeChars_cons, encodeChar_ascii hByte, ih hRest, singleton_append]

/-- Bytes after the first of a character do not begin one. -/
theorem encodeChar_tail {first : UInt8} {tail : List UInt8}
    (hBytes : String.utf8EncodeChar c = first :: tail) : ∀ byte ∈ tail, ¬ byte.IsUTF8FirstByte := by
  intro byte hMem hFirst
  obtain ⟨i, hLt, hGet⟩ := getElem_of_mem hMem
  have hLength : i + 1 < (String.utf8EncodeChar c).length := by
    rw [hBytes]
    exact Nat.succ_lt_succ hLt
  have hByte : (String.utf8EncodeChar c)[i + 1] = byte := by
    simp [hBytes, hGet]
  rw [← hByte] at hFirst
  exact absurd (UInt8.isUTF8FirstByte_getElem_utf8EncodeChar.mp hFirst) (Nat.succ_ne_zero i)

theorem isUTF8FirstByte_ascii (hAscii : byte.toNat < 128) : byte.IsUTF8FirstByte := by
  have hAll : ∀ i : Fin 128, (UInt8.ofNat i.val).IsUTF8FirstByte := by decide
  have hByte := hAll ⟨byte.toNat, hAscii⟩
  rwa [UInt8.ofNat_toNat] at hByte

variable {chars : List Char}

/-- Bytes of characters can be cut before a byte that begins one. -/
theorem encodeChars_split {before after : List UInt8}
    (hBytes : encodeChars chars = before ++ after)
    (hFirst : ∀ byte ∈ after.head?, byte.IsUTF8FirstByte) :
    ∃ front back, chars = front ++ back ∧ encodeChars front = before ∧
      encodeChars back = after := by
  induction chars generalizing before with
  | nil =>
    obtain ⟨rfl, rfl⟩ := append_eq_nil_iff.mp hBytes.symm
    exact ⟨[], [], rfl, rfl, rfl⟩
  | cons c chars ih =>
    cases before with
    | nil => exact ⟨[], c :: chars, rfl, rfl, hBytes⟩
    | cons first before =>
      rcases append_eq_append_iff.mp hBytes with ⟨rest, hBefore, hRest⟩ | ⟨rest, hChar, hAfter⟩
      · obtain ⟨front, back, rfl, hFront, hBack⟩ := ih hRest
        exact ⟨c :: front, back, rfl, by rw [encodeChars_cons, hFront, hBefore], hBack⟩
      · cases rest with
        | nil =>
          exact ⟨[c], chars, rfl, by simp [hChar], hAfter.symm⟩
        | cons byte rest =>
          refine absurd (hFirst byte (by rw [hAfter]; rfl)) (encodeChar_tail hChar byte ?_)
          exact mem_append_right _ mem_cons_self

/-- The first bytes tell the first character. -/
theorem encodeChars_head {c d : Char} {more rest : List UInt8}
    (hBytes : encodeChars (c :: chars) ++ more = String.utf8EncodeChar d ++ rest) : c = d := by
  rw [encodeChars_cons, append_assoc] at hBytes
  have hDecoded := congrArg (fun bytes => ByteArray.utf8DecodeChar? (toByteArray bytes) 0) hBytes
  simp only [toByteArray_append, ByteArray.utf8DecodeChar?_utf8EncodeChar_append] at hDecoded
  exact some.inj hDecoded

/-- The character that an ASCII byte begins is the byte's own. -/
theorem eq_asciiChar {rest : List UInt8}
    (hAscii : byte.toNat < 128) (hBytes : encodeChars (c :: chars) = byte :: rest) :
    c = asciiChar byte ∧ encodeChars chars = rest := by
  have hOwn : encodeChars (c :: chars) ++ [] = String.utf8EncodeChar (asciiChar byte) ++ rest := by
    rw [encodeChar_ascii hAscii, append_nil]
    exact hBytes
  have hSame := encodeChars_head hOwn
  rw [hSame, append_nil] at hOwn
  exact ⟨hSame, append_cancel_left hOwn⟩

/-- A byte of a character is ASCII only if it is all of it. -/
theorem encodeChar_of_mem (hAscii : byte.toNat < 128)
    (hMem : byte ∈ String.utf8EncodeChar c) : c = asciiChar byte := by
  cases hBytes : String.utf8EncodeChar c with
  | nil =>
    rw [hBytes] at hMem
    cases hMem
  | cons first tail =>
    rw [hBytes] at hMem
    rcases mem_cons.mp hMem with rfl | hTail
    · have hWhole : encodeChars [c] = byte :: tail := by simp [hBytes]
      exact (eq_asciiChar hAscii hWhole).1
    · exact absurd (isUTF8FirstByte_ascii hAscii) (encodeChar_tail hBytes byte hTail)

theorem fromUtf8Lossy_encodeChars : fromUtf8Lossy (encodeChars chars) = encodeChars chars := by
  rw [fromUtf8Lossy, replaceInvalid, ← bytesOf_ofList, decodeUtf8_bytesOf]
  rfl

example : fromUtf8Lossy [0x61, 0xe2, 0x82, 0x61, 0xe2] =
    [0x61, 0xef, 0xbf, 0xbd, 0x61, 0xef, 0xbf, 0xbd] := by decide

example : fromUtf8 [0x61, 0xe2, 0x82, 0x61] =
    .error "invalid utf-8 sequence of 2 bytes from index 1" := by decide

end MqBridge.Text
