import Mathlib.Data.List.TakeWhile

/-! The syntax of JSON texts, byte for byte. A tree keeps everything that is in
its text, white space and escapes included, so the text can be written back
verbatim, and a tree can only be built of what is allowed. What strings and
numbers stand for is not looked at here. -/
namespace Json

/-! ### White space and digits -/

def isSpace (byte : UInt8) : Bool := byte == 0x20 || byte == 0x09 || byte == 0x0a || byte == 0x0d

def isDigit (byte : UInt8) : Bool := decide (0x30 ≤ byte) && decide (byte ≤ 0x39)

structure Space where
  bytes : List UInt8
  blank : ∀ byte ∈ bytes, isSpace byte = true

def skipSpace (bytes : List UInt8) : Space × List UInt8 :=
  (⟨bytes.takeWhile isSpace, fun _ hMem => List.mem_takeWhile_imp hMem⟩, bytes.dropWhile isSpace)

structure Digits where
  bytes : List UInt8
  digits : ∀ byte ∈ bytes, isDigit byte = true
  some_ : bytes ≠ []

def scanDigits (bytes : List UInt8) : Option (Digits × List UInt8) :=
  if hSome : bytes.takeWhile isDigit = [] then none
  else
    some (⟨bytes.takeWhile isDigit, fun _ hMem => List.mem_takeWhile_imp hMem, hSome⟩,
      bytes.dropWhile isDigit)

/-! ### Numbers -/

inductive Sign where
  | plus
  | minus
  deriving DecidableEq

def Sign.byte : Sign → UInt8
  | .plus => 0x2b
  | .minus => 0x2d

structure Exponent where
  upper : Bool
  sign : Option Sign
  digits : Digits

/-- A number as it is written. Only a zero that stands alone is a first digit. -/
structure NumberToken where
  negative : Bool
  whole : Digits
  plain : whole.bytes.head? = some 0x30 → whole.bytes = [0x30]
  fraction : Option Digits
  exponent : Option Exponent

def Exponent.text (exponent : Exponent) : List UInt8 :=
  (if exponent.upper then 0x45 else 0x65) ::
    (exponent.sign.toList.map Sign.byte ++ exponent.digits.bytes)

def fractionText (fraction : Option Digits) : List UInt8 :=
  fraction.elim [] fun digits => 0x2e :: digits.bytes

def exponentText (exponent : Option Exponent) : List UInt8 := exponent.elim [] Exponent.text

def NumberToken.text (token : NumberToken) : List UInt8 :=
  (if token.negative then [0x2d] else []) ++
    (token.whole.bytes ++ (fractionText token.fraction ++ exponentText token.exponent))

def scanFraction : List UInt8 → Option (Option Digits × List UInt8)
  | [] => some (none, [])
  | byte :: rest =>
    if byte = 0x2e then (scanDigits rest).map fun (digits, rest) => (some digits, rest)
    else some (none, byte :: rest)

def scanSign : List UInt8 → Option Sign × List UInt8
  | [] => (none, [])
  | byte :: rest =>
    if byte = 0x2b then (some .plus, rest)
    else if byte = 0x2d then (some .minus, rest)
    else (none, byte :: rest)

def scanExponent : List UInt8 → Option (Option Exponent × List UInt8)
  | [] => some (none, [])
  | byte :: rest =>
    if byte = 0x65 ∨ byte = 0x45 then
      (scanDigits (scanSign rest).2).map fun (digits, tail) =>
        (some ⟨decide (byte = 0x45), (scanSign rest).1, digits⟩, tail)
    else some (none, byte :: rest)

def scanMinus : List UInt8 → Bool × List UInt8
  | [] => (false, [])
  | byte :: rest => if byte = 0x2d then (true, rest) else (false, byte :: rest)

def scanNumber (bytes : List UInt8) : Option (NumberToken × List UInt8) :=
  let (negative, bytes) := scanMinus bytes
  (scanDigits bytes).bind fun (whole, bytes) =>
    if hPlain : whole.bytes.head? = some 0x30 → whole.bytes = [0x30] then
      (scanFraction bytes).bind fun (fraction, bytes) =>
        (scanExponent bytes).map fun (exponent, bytes) =>
          (⟨negative, whole, hPlain, fraction, exponent⟩, bytes)
    else none

/-! ### Strings -/

def isPlain (byte : UInt8) : Bool :=
  decide (0x20 ≤ byte) && (byte != 0x22 && byte != 0x5c)

def shortEscape (letter : UInt8) : Option UInt8 :=
  if letter = 0x22 ∨ letter = 0x5c ∨ letter = 0x2f then some letter
  else if letter = 0x62 then some 0x08
  else if letter = 0x66 then some 0x0c
  else if letter = 0x6e then some 0x0a
  else if letter = 0x72 then some 0x0d
  else if letter = 0x74 then some 0x09
  else none

def hexDigit (byte : UInt8) : Option Nat :=
  if isDigit byte then some (byte.toNat - 0x30)
  else if 0x41 ≤ byte ∧ byte ≤ 0x46 then some (byte.toNat - 0x37)
  else if 0x61 ≤ byte ∧ byte ≤ 0x66 then some (byte.toNat - 0x57)
  else none

def hexValue : List UInt8 → Option Nat :=
  List.foldlM (fun value byte => (hexDigit byte).map (16 * value + ·)) 0

inductive Piece where
  | plain (byte : UInt8) (isPlain : isPlain byte = true)
  | short (letter : UInt8) (known : (shortEscape letter).isSome = true)
  | hex (a b c d : UInt8) (digits : (hexValue [a, b, c, d]).isSome = true)

def Piece.text : Piece → List UInt8
  | .plain byte _ => [byte]
  | .short letter _ => [0x5c, letter]
  | .hex a b c d _ => [0x5c, 0x75, a, b, c, d]

def piecesText (pieces : List Piece) : List UInt8 := pieces.flatMap Piece.text

/-- Reads up to the closing quote. -/
def scanString : List UInt8 → Option (List Piece × List UInt8)
  | [] => none
  | byte :: rest =>
    if byte = 0x22 then some ([], rest)
    else if byte = 0x5c then
      match rest with
      | [] => none
      | letter :: rest =>
        if letter = 0x75 then
          match rest with
          | a :: b :: c :: d :: rest =>
            if hDigits : (hexValue [a, b, c, d]).isSome = true then
              (scanString rest).map fun (pieces, tail) => (.hex a b c d hDigits :: pieces, tail)
            else none
          | _ => none
        else if hKnown : (shortEscape letter).isSome = true then
          (scanString rest).map fun (pieces, tail) => (.short letter hKnown :: pieces, tail)
        else none
    else if hPlain : isPlain byte = true then
      (scanString rest).map fun (pieces, tail) => (.plain byte hPlain :: pieces, tail)
    else none

/-! ### Values -/

inductive Scalar where
  | null
  | bool (value : Bool)
  | number (token : NumberToken)
  | string (pieces : List Piece)

def Scalar.text : Scalar → List UInt8
  | .null => [0x6e, 0x75, 0x6c, 0x6c]
  | .bool true => [0x74, 0x72, 0x75, 0x65]
  | .bool false => [0x66, 0x61, 0x6c, 0x73, 0x65]
  | .number token => token.text
  | .string pieces => 0x22 :: (piecesText pieces ++ [0x22])

def expect (word : List UInt8) (scalar : Scalar) (bytes : List UInt8) :
    Option (Scalar × List UInt8) :=
  if word.isPrefixOf bytes then some (scalar, bytes.drop word.length) else none

def scanScalar : List UInt8 → Option (Scalar × List UInt8)
  | [] => none
  | byte :: rest =>
    if byte = 0x22 then (scanString rest).map fun (pieces, tail) => (.string pieces, tail)
    else if byte = 0x6e then expect [0x75, 0x6c, 0x6c] .null rest
    else if byte = 0x74 then expect [0x72, 0x75, 0x65] (.bool true) rest
    else if byte = 0x66 then expect [0x61, 0x6c, 0x73, 0x65] (.bool false) rest
    else (scanNumber (byte :: rest)).map fun (token, tail) => (.number token, tail)

structure Label where
  before : Space
  key : List Piece
  beforeColon : Space
  afterColon : Space

mutual
/-- A value as it is written. -/
inductive Doc where
  | scalar (scalar : Scalar)
  | emptyArray (space : Space)
  | array (items : Items)
  | emptyObject (space : Space)
  | object (members : Members)

inductive Items where
  | last (before : Space) (doc : Doc) (after : Space)
  | next (before : Space) (doc : Doc) (after : Space) (rest : Items)

inductive Members where
  | last (label : Label) (doc : Doc) (after : Space)
  | next (label : Label) (doc : Doc) (after : Space) (rest : Members)
end

def Label.text (label : Label) : List UInt8 :=
  label.before.bytes ++ 0x22 :: (piecesText label.key ++
    0x22 :: (label.beforeColon.bytes ++ 0x3a :: label.afterColon.bytes))

mutual
def Doc.text : Doc → List UInt8
  | .scalar scalar => scalar.text
  | .emptyArray space => 0x5b :: (space.bytes ++ [0x5d])
  | .array items => 0x5b :: items.text
  | .emptyObject space => 0x7b :: (space.bytes ++ [0x7d])
  | .object members => 0x7b :: members.text

/-- With the bracket that closes them. -/
def Items.text : Items → List UInt8
  | .last before doc after => before.bytes ++ (doc.text ++ (after.bytes ++ [0x5d]))
  | .next before doc after rest => before.bytes ++ (doc.text ++ (after.bytes ++ 0x2c :: rest.text))

def Members.text : Members → List UInt8
  | .last label doc after => label.text ++ (doc.text ++ (after.bytes ++ [0x7d]))
  | .next label doc after rest => label.text ++ (doc.text ++ (after.bytes ++ 0x2c :: rest.text))
end

def scanLabel (bytes : List UInt8) : Option (Label × List UInt8) :=
  match skipSpace bytes with
  | (before, byte :: bytes) =>
    if byte = 0x22 then
      (scanString bytes).bind fun (key, bytes) =>
        match skipSpace bytes with
        | (beforeColon, byte :: bytes) =>
          if byte = 0x3a then
            some (⟨before, key, beforeColon, (skipSpace bytes).1⟩, (skipSpace bytes).2)
          else none
        | (_, []) => none
    else none
  | (_, []) => none

mutual
/-- The first value of the bytes. The number bounds the calls; one for each
byte is enough. -/
def scanDoc : Nat → List UInt8 → Option (Doc × List UInt8)
  | 0, _ => none
  | _, [] => none
  | fuel + 1, byte :: rest =>
    if byte = 0x5b then
      if (skipSpace rest).2.head? = some 0x5d then
        some (.emptyArray (skipSpace rest).1, (skipSpace rest).2.tail)
      else (scanItems fuel rest).map fun (items, tail) => (.array items, tail)
    else if byte = 0x7b then
      if (skipSpace rest).2.head? = some 0x7d then
        some (.emptyObject (skipSpace rest).1, (skipSpace rest).2.tail)
      else (scanMembers fuel rest).map fun (members, tail) => (.object members, tail)
    else (scanScalar (byte :: rest)).map fun (scalar, tail) => (.scalar scalar, tail)

def scanItems : Nat → List UInt8 → Option (Items × List UInt8)
  | 0, _ => none
  | fuel + 1, bytes =>
    (scanDoc fuel (skipSpace bytes).2).bind fun (doc, rest) =>
      match skipSpace rest with
      | (after, byte :: tail) =>
        if byte = 0x2c then
          (scanItems fuel tail).map fun (items, tail) =>
            (.next (skipSpace bytes).1 doc after items, tail)
        else if byte = 0x5d then some (.last (skipSpace bytes).1 doc after, tail)
        else none
      | (_, []) => none

def scanMembers : Nat → List UInt8 → Option (Members × List UInt8)
  | 0, _ => none
  | fuel + 1, bytes =>
    (scanLabel bytes).bind fun (label, bytes) =>
      (scanDoc fuel bytes).bind fun (doc, rest) =>
        match skipSpace rest with
        | (after, byte :: tail) =>
          if byte = 0x2c then
            (scanMembers fuel tail).map fun (members, tail) => (.next label doc after members, tail)
          else if byte = 0x7d then some (.last label doc after, tail)
          else none
        | (_, []) => none
end

/-- A text is one value with nothing but white space around it. -/
def scan (bytes : List UInt8) : Option Doc :=
  (scanDoc bytes.length (skipSpace bytes).2).bind fun (doc, rest) =>
    if (skipSpace rest).2 = [] then some doc else none

example : (scan [0x20, 0x5b, 0x31, 0x2c, 0x20, 0x22, 0x5c, 0x6e, 0x22, 0x5d]).map Doc.text =
    some [0x5b, 0x31, 0x2c, 0x20, 0x22, 0x5c, 0x6e, 0x22, 0x5d] := by decide

end Json
