import MqBridge.Json.Syntax
import MqBridge.Support.Text

/-! What the numbers and strings of a JSON text stand for, and how they are
written. Integers of 64 bits are exact; how other numbers become floats and
back is left open, as parsers differ there. -/
namespace Json

open List Option

/-! ### Numbers -/

inductive Number where
  | posInt (value : UInt64)
  | negInt (magnitude : Nat) (range : 0 < magnitude ∧ magnitude ≤ 2 ^ 63)
  /-- The bits of a double. -/
  | float (bits : UInt64)
  deriving DecidableEq

/-- How a parser reads the numbers that are not integers of 64 bits, unless they
are out of range. -/
structure Floats where
  read : NumberToken → Option UInt64

def digitsValue (bytes : List UInt8) : Nat :=
  bytes.foldl (fun value byte => 10 * value + (byte.toNat - 0x30)) 0

/-- A negative zero is a float. -/
def Floats.number (floats : Floats) (token : NumberToken) : Option Number :=
  let value := digitsValue token.whole.bytes
  if token.fraction.isSome || token.exponent.isSome then (floats.read token).map .float
  else if token.negative then
    if hRange : 0 < value ∧ value ≤ 2 ^ 63 then some (.negInt value hRange)
    else (floats.read token).map .float
  else if value < 2 ^ 64 then some (.posInt (UInt64.ofNat value))
  else (floats.read token).map .float

def decimalBytes (value : Nat) : List UInt8 :=
  (Nat.toDigits 10 value).map fun digit => UInt8.ofNat digit.toNat

theorem toNat_ofNat_digit {digit : Char} (hDigit : digit.isDigit = true) :
    (UInt8.ofNat digit.toNat).toNat = digit.toNat ∧ 48 ≤ digit.toNat ∧ digit.toNat ≤ 57 := by
  have hRange : 48 ≤ digit.toNat ∧ digit.toNat ≤ 57 := by
    simpa [Char.isDigit, UInt32.le_iff_toNat_le] using hDigit
  exact ⟨UInt8.toNat_ofNat_of_lt' (lt_of_le_of_lt hRange.2 (by decide)), hRange⟩

theorem isDigit_of_mem_decimalBytes {value : Nat} {byte : UInt8}
    (hMem : byte ∈ decimalBytes value) : isDigit byte = true := by
  obtain ⟨digit, hDigit, rfl⟩ := mem_map.mp hMem
  obtain ⟨hByte, hLow, hHigh⟩ :=
    toNat_ofNat_digit (Nat.isDigit_of_mem_toDigits (by decide) (by decide) hDigit)
  simp only [isDigit, Bool.and_eq_true, decide_eq_true_eq, UInt8.le_iff_toNat_le, hByte]
  exact ⟨hLow, hHigh⟩

/-- No number but zero begins with a zero. -/
theorem head_toDigits {value : Nat} (hSome : 0 < value) :
    (Nat.toDigits 10 value).head? ≠ some '0' := by
  induction value using Nat.strongRecOn with
  | ind value ih =>
    rw [Nat.toDigits_eq_if (by decide)]
    split_ifs with hSmall
    · have hDigit : ∀ digit :
          Fin 10, 0 < digit.val → [digit.val.digitChar].head? ≠ some '0' := by decide
      exact hDigit ⟨value, hSmall⟩ hSome
    · have hHead := ih (value / 10) (by omega) (by omega)
      cases hDigits : Nat.toDigits 10 (value / 10) with
      | nil => exact absurd hDigits Nat.toDigits_ne_nil
      | cons digit rest =>
        rw [hDigits] at hHead
        exact hHead

def decimalDigits (value : Nat) : Digits where
  bytes := decimalBytes value
  digits := fun _ hMem => isDigit_of_mem_decimalBytes hMem
  some_ := by simp [decimalBytes]

def integerToken (negative : Bool) (value : Nat) : NumberToken where
  negative := negative
  whole := decimalDigits value
  plain := by
    intro hZero
    rcases Nat.eq_zero_or_pos value with rfl | hSome
    · rfl
    · have hHead := head_toDigits hSome
      have hDigit : ∀ digit ∈ Nat.toDigits 10 value, digit.isDigit = true :=
        fun digit hMem => Nat.isDigit_of_mem_toDigits (by decide) (by decide) hMem
      change (decimalBytes value).head? = some 0x30 at hZero
      rw [decimalBytes, head?_map] at hZero
      obtain ⟨digit, hFirst, hByte⟩ := map_eq_some_iff.mp hZero
      have hVal := (toNat_ofNat_digit (hDigit digit (mem_of_head? hFirst))).1
      rw [hByte] at hVal
      have hSame : digit = '0' := Char.toNat_inj.mp hVal.symm
      exact absurd (hSame ▸ hFirst) hHead
  fraction := none
  exponent := none

/-- A parser without floats: every other number is out of range. -/
def integersOnly : Floats := ⟨fun _ => none⟩

/-! ### Strings -/

def utf8 (codePoint : Nat) : List UInt8 :=
  MqBridge.Text.bytesOf (String.singleton (Char.ofNat codePoint))

def Piece.codeUnit : Piece → Option Nat
  | .hex a b c d _ => hexValue [a, b, c, d]
  | _ => none

/-- The bytes of a string. Surrogates have to come in pairs. -/
def unescape : List Piece → Option (List UInt8)
  | [] => some []
  | .plain byte _ :: rest => (unescape rest).map (byte :: ·)
  | .short letter hKnown :: rest => (unescape rest).map ((shortEscape letter).get hKnown :: ·)
  | .hex a b c d hDigits :: rest =>
    let unit := (hexValue [a, b, c, d]).get hDigits
    if unit < 0xd800 ∨ 0xdfff < unit then (unescape rest).map (utf8 unit ++ ·)
    else if 0xdbff < unit then none
    else
      match rest with
      | [] => none
      | next :: rest =>
        match next.codeUnit with
        | none => none
        | some low =>
          if 0xdc00 ≤ low ∧ low ≤ 0xdfff then
            (unescape rest).map
              (utf8 (0x10000 + (unit - 0xd800) * 0x400 + (low - 0xdc00)) ++ ·)
          else none

def stringValue (pieces : List Piece) : Option String :=
  (unescape pieces).bind MqBridge.Text.decodeUtf8

def hexLetter (value : Nat) : UInt8 :=
  UInt8.ofNat (if value < 10 then 0x30 + value else 0x57 + value)

theorem hexValue_control : ∀ byte : Fin 32,
    hexValue [0x30, 0x30, hexLetter (byte / 16), hexLetter (byte % 16)] = some byte.val := by
  decide

def shortLetter (byte : UInt8) : Option UInt8 :=
  if byte = 0x22 ∨ byte = 0x5c then some byte
  else if byte = 0x08 then some 0x62
  else if byte = 0x0c then some 0x66
  else if byte = 0x0a then some 0x6e
  else if byte = 0x0d then some 0x72
  else if byte = 0x09 then some 0x74
  else none

theorem shortEscape_of_shortLetter {byte letter : UInt8}
    (hLetter : shortLetter byte = some letter) : shortEscape letter = some byte := by
  simp only [shortLetter] at hLetter
  split_ifs at hLetter with hQuote <;> cases hLetter
  · rcases hQuote with rfl | rfl <;> rfl
  all_goals
    subst_vars
    rfl

def escapeByte (byte : UInt8) : Piece :=
  if hPlain : isPlain byte = true then .plain byte hPlain
  else
    match hLetter : shortLetter byte with
    | some letter => .short letter (by rw [shortEscape_of_shortLetter hLetter]; rfl)
    | none =>
      .hex 0x30 0x30 (hexLetter (byte.toNat % 32 / 16)) (hexLetter (byte.toNat % 32 % 16))
        (by rw [hexValue_control ⟨byte.toNat % 32, Nat.mod_lt _ (by decide)⟩]; rfl)

def escape (text : String) : List Piece := (MqBridge.Text.bytesOf text).map escapeByte

theorem utf8_control : ∀ byte : Fin 32, utf8 byte = [UInt8.ofNat byte] := by
  decide

/-- Only control bytes are written with their number. -/
theorem lt_of_shortLetter {byte : UInt8} (hPlain : ¬isPlain byte = true)
    (hLetter : shortLetter byte = none) : byte.toNat < 32 := by
  simp only [shortLetter] at hLetter
  split_ifs at hLetter with hQuote
  simp only [isPlain, Bool.and_eq_true, bne_iff_ne, decide_eq_true_eq, not_and] at hPlain
  rw [not_or] at hQuote
  rw [← not_le]
  intro hLe
  exact hPlain (UInt8.le_iff_toNat_le.mpr hLe) hQuote.1 hQuote.2

theorem unescape_escapeByte (byte : UInt8) (rest : List Piece) :
    unescape (escapeByte byte :: rest) = (unescape rest).map (byte :: ·) := by
  rw [escapeByte]
  split_ifs with hPlain
  · rw [unescape.eq_def]
  · split
    next letter hLetter =>
      rw [unescape.eq_def]
      simp [shortEscape_of_shortLetter hLetter]
    next hLetter =>
      have hLt := lt_of_shortLetter hPlain hLetter
      have hHex := hexValue_control ⟨byte.toNat, hLt⟩
      have hUtf8 := utf8_control ⟨byte.toNat, hLt⟩
      rw [UInt8.ofNat_toNat] at hUtf8
      rw [unescape.eq_def]
      simp only [Nat.mod_eq_of_lt hLt, hHex, get_some, hUtf8]
      rw [if_pos (.inl (hLt.trans (by decide)))]
      rfl

theorem stringValue_escape (text : String) : stringValue (escape text) = some text := by
  have hBytes : ∀ bytes : List UInt8, unescape (bytes.map escapeByte) = some bytes := by
    intro bytes
    induction bytes with
    | nil => rfl
    | cons byte rest ih => rw [map_cons, unescape_escapeByte, ih, map_some]
  rw [stringValue, escape, hBytes, bind_some, MqBridge.Text.decodeUtf8_bytesOf]

variable {pieces : List Piece}

end Json
