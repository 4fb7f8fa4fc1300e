import Mathlib.Data.List.DropRight
import MqBridge.Json.Syntax

/-! The text of a tree is read as that tree. Every part of a text is followed by
a byte that cannot belong to it, which is what the readers stop at. -/
namespace Json

open List Option Members

variable {rest : List UInt8} {bytes : List UInt8}

theorem takeWhile_append_stop {p : UInt8 → Bool}
    (hAll : ∀ byte ∈ bytes, p byte = true) (hStop : ∀ byte ∈ rest.head?, p byte = false) :
    (bytes ++ rest).takeWhile p = bytes ∧ (bytes ++ rest).dropWhile p = rest := by
  rw [takeWhile_append_of_pos hAll, dropWhile_append_of_pos hAll]
  cases rest with
  | nil => simp
  | cons byte rest =>
    have hByte : ¬p byte = true := by simp [hStop byte rfl]
    rw [takeWhile_cons_of_neg hByte, dropWhile_cons_of_neg hByte, append_nil]
    exact ⟨rfl, rfl⟩

theorem skipSpace_append (space : Space) (hStop : ∀ byte ∈ rest.head?, isSpace byte = false) :
    skipSpace (space.bytes ++ rest) = (space, rest) := by
  obtain ⟨hTake, hDrop⟩ := takeWhile_append_stop space.blank hStop
  cases space
  simp only [skipSpace, hTake, hDrop]

theorem scanDigits_append (digits : Digits) (hStop : ∀ byte ∈ rest.head?, isDigit byte = false) :
    scanDigits (digits.bytes ++ rest) = some (digits, rest) := by
  obtain ⟨hTake, hDrop⟩ := takeWhile_append_stop digits.digits hStop
  obtain ⟨bytes, hDigits, hSome⟩ := digits
  simp only [scanDigits, hTake, hDrop, dif_neg hSome]

/-- A digit is none of the other bytes that a number can have. -/
theorem isDigit_head (digits : Digits) (rest : List UInt8) :
    ∀ byte ∈ (digits.bytes ++ rest).head?, isDigit byte = true := by
  have hSome := digits.some_
  have hDigits := digits.digits
  cases hBytes : digits.bytes with
  | nil => exact absurd hBytes hSome
  | cons first others =>
    intro byte hByte
    rw [cons_append, head?_cons, mem_some] at hByte
    subst hByte
    exact hDigits first (hBytes ▸ mem_cons_self)

def extendsNumber (byte : UInt8) : Bool :=
  isDigit byte || (byte == 0x2e || (byte == 0x65 || byte == 0x45))

def Ends (rest : List UInt8) : Prop := ∀ byte ∈ rest.head?, extendsNumber byte = false

theorem Ends.parts (h : Ends rest) {byte : UInt8} (hByte : byte ∈ rest.head?) :
    isDigit byte = false ∧ byte ≠ 0x2e ∧ byte ≠ 0x65 ∧ byte ≠ 0x45 := by
  have hParts := h byte hByte
  simp only [extendsNumber, Bool.or_eq_false_iff, beq_eq_false_iff_ne] at hParts
  exact hParts

theorem scanFraction_append (fraction : Option Digits)
    (hStop : ∀ byte ∈ rest.head?, isDigit byte = false ∧ byte ≠ 0x2e) :
    scanFraction (fractionText fraction ++ rest) = some (fraction, rest) := by
  cases fraction with
  | none =>
    cases rest with
    | nil => rfl
    | cons byte rest =>
      exact if_neg (hStop byte rfl).2
  | some digits =>
    rw [fractionText, elim_some, cons_append, scanFraction,
      scanDigits_append digits fun byte hByte => (hStop byte hByte).1]
    rfl

theorem scanSign_append (sign : Option Sign) (hStop : ∀ byte ∈ rest.head?, isDigit byte = true) :
    scanSign (sign.toList.map Sign.byte ++ rest) = (sign, rest) := by
  cases sign with
  | none =>
    cases rest with
    | nil => rfl
    | cons byte rest =>
      have hDigit := hStop byte rfl
      have hPlus : byte ≠ 0x2b := by rintro rfl; cases hDigit
      have hMinus : byte ≠ 0x2d := by rintro rfl; cases hDigit
      rw [toList_none, map_nil, nil_append, scanSign, if_neg hPlus, if_neg hMinus]
  | some sign => cases sign <;> rfl

theorem scanExponent_append (exponent : Option Exponent) (hStop : Ends rest) :
    scanExponent (exponentText exponent ++ rest) = some (exponent, rest) := by
  cases exponent with
  | none =>
    cases rest with
    | nil => rfl
    | cons byte rest =>
      obtain ⟨-, -, hLower, hUpper⟩ := hStop.parts rfl
      exact if_neg (not_or.mpr ⟨hLower, hUpper⟩)
  | some exponent =>
    obtain ⟨upper, sign, digits⟩ := exponent
    have hSign : scanSign (sign.toList.map Sign.byte ++ (digits.bytes ++ rest)) =
        (sign, digits.bytes ++ rest) := scanSign_append sign (isDigit_head digits rest)
    have hDigits := scanDigits_append digits fun byte hByte => (hStop.parts hByte).1
    cases upper <;>
      simp [exponentText, Exponent.text, scanExponent, hSign, hDigits]

theorem scanMinus_append (negative : Bool) (hStop : ∀ byte ∈ rest.head?, isDigit byte = true) :
    scanMinus ((if negative then [0x2d] else []) ++ rest) = (negative, rest) := by
  cases negative with
  | true => rfl
  | false =>
    cases rest with
    | nil => rfl
    | cons byte rest =>
      refine if_neg ?_
      rintro rfl
      cases hStop 0x2d rfl

variable (token : NumberToken)

theorem scanNumber_append (hStop : Ends rest) :
    scanNumber (token.text ++ rest) = some (token, rest) := by
  obtain ⟨negative, whole, hPlain, fraction, exponent⟩ := token
  -- what follows the digits, and what follows the fraction
  have hExponent :
      ∀ byte ∈ (exponentText exponent ++ rest).head?, isDigit byte = false ∧ byte ≠ 0x2e := by
    cases exponent with
    | none => exact fun byte hByte => ⟨(hStop.parts hByte).1, (hStop.parts hByte).2.1⟩
    | some exponent =>
      rintro byte ⟨⟩
      cases exponent.upper <;> decide
  have hFraction : ∀ byte ∈ (fractionText fraction ++ (exponentText exponent ++ rest)).head?,
      isDigit byte = false := by
    cases fraction with
    | none => exact fun byte hByte => (hExponent byte hByte).1
    | some digits =>
      rintro byte ⟨⟩
      rfl
  have hMinus := scanMinus_append negative
    (isDigit_head whole (fractionText fraction ++ (exponentText exponent ++ rest)))
  rw [NumberToken.text, scanNumber]
  simp only [append_assoc, hMinus, scanDigits_append whole hFraction, bind_some, dif_pos hPlain,
    scanFraction_append fraction hExponent, scanExponent_append exponent hStop, map_some]

theorem scanString_append (pieces : List Piece) (rest : List UInt8) :
    scanString (piecesText pieces ++ 0x22 :: rest) = some (pieces, rest) := by
  have hQuote : (0x5c : UInt8) ≠ 0x22 := by decide
  induction pieces with
  | nil =>
    rw [scanString.eq_def]
    rfl
  | cons piece pieces ih =>
    change scanString (piece.text ++ piecesText pieces ++ 0x22 :: rest) = _
    rw [scanString.eq_def, append_assoc]
    cases piece with
    | plain byte hPlain =>
      have hParts := hPlain
      simp only [isPlain, Bool.and_eq_true, bne_iff_ne] at hParts
      simp only [Piece.text, singleton_append, if_neg hParts.2.1, if_neg hParts.2.2, dif_pos hPlain,
        ih, map_some]
    | short letter hKnown =>
      have hLetter : letter ≠ 0x75 := by rintro rfl; cases hKnown
      simp only [Piece.text, cons_append, nil_append, if_neg hQuote, if_true,
        if_neg hLetter, dif_pos hKnown, ih, map_some]
    | hex a b c d hDigits =>
      simp only [Piece.text, cons_append, nil_append, if_neg hQuote, if_true, dif_pos hDigits, ih,
        map_some]

/-- The first byte of a value is not taken for anything else. -/
def Begins (byte : UInt8) : Prop := isSpace byte = false ∧ byte ≠ 0x5d ∧ byte ≠ 0x7d

theorem NumberToken.text_head (rest : List UInt8) :
    ∀ byte ∈ (token.text ++ rest).head?, byte = 0x2d ∨ isDigit byte = true := by
  rw [text]
  cases token.negative with
  | true =>
    rintro byte ⟨⟩
    exact .inl rfl
  | false =>
    intro byte hByte
    simp only [append_assoc] at hByte
    exact .inr (isDigit_head token.whole _ byte hByte)

theorem begins_of_number {byte : UInt8} (hByte : byte = 0x2d ∨ isDigit byte = true) :
    Begins byte ∧ byte ≠ 0x22 ∧ byte ≠ 0x6e ∧ byte ≠ 0x74 ∧ byte ≠ 0x66 ∧ byte ≠ 0x5b ∧
      byte ≠ 0x7b := by
  rcases hByte with rfl | hDigit
  · exact ⟨⟨rfl, by decide⟩, by decide⟩
  · refine ⟨⟨?_, ?_, ?_⟩, ?_, ?_, ?_, ?_, ?_, ?_⟩
    · rw [← Bool.not_eq_true]
      intro hSpace
      simp only [isSpace, Bool.or_eq_true, beq_iff_eq] at hSpace
      rcases hSpace with ((rfl | rfl) | rfl) | rfl <;> cases hDigit
    all_goals
      rintro rfl
      cases hDigit

theorem NumberToken.text_ne_nil : token.text ≠ [] := by
  have hSome := token.whole.some_
  exact append_ne_nil_of_right_ne_nil _ (append_ne_nil_of_left_ne_nil hSome _)

theorem scanScalar_append (scalar : Scalar) (hStop : Ends rest) :
    scanScalar (scalar.text ++ rest) = some (scalar, rest) := by
  cases scalar with
  | null => rfl
  | bool value => cases value <;> rfl
  | string pieces =>
    rw [Scalar.text, cons_append, append_assoc, singleton_append, scanScalar, scanString_append]
    rfl
  | number token =>
    have hHead := token.text_head rest
    have hNumber := scanNumber_append token hStop
    rw [Scalar.text]
    cases hText : token.text ++ rest with
    | nil => exact absurd (append_eq_nil_iff.mp hText).1 token.text_ne_nil
    | cons byte others =>
      rw [hText] at hHead hNumber
      obtain ⟨-, hQuote, hNull, hTrue, hFalse, -⟩ := begins_of_number (hHead byte rfl)
      rw [scanScalar, if_neg hQuote, if_neg hNull, if_neg hTrue, if_neg hFalse, hNumber]
      rfl

theorem scanLabel_append (label : Label) (hStop : ∀ byte ∈ rest.head?, isSpace byte = false) :
    scanLabel (label.text ++ rest) = some (label, rest) := by
  obtain ⟨before, key, beforeColon, afterColon⟩ := label
  have hQuote : ∀ tail, skipSpace (before.bytes ++ 0x22 :: tail) = (before, 0x22 :: tail) :=
    fun tail => skipSpace_append before fun byte hByte => by cases hByte; rfl
  have hColon :
      ∀ tail, skipSpace (beforeColon.bytes ++ 0x3a :: tail) = (beforeColon, 0x3a :: tail) :=
    fun tail => skipSpace_append beforeColon fun byte hByte => by cases hByte; rfl
  have hAfter := skipSpace_append afterColon hStop
  simp only [Label.text, append_assoc, cons_append, scanLabel, hQuote, hColon, hAfter,
    scanString_append, bind_some, if_true]

theorem Scalar.text_head (scalar : Scalar) :
    ∃ byte tail, scalar.text = byte :: tail ∧ Begins byte ∧ byte ≠ 0x5b ∧ byte ≠ 0x7b := by
  cases scalar with
  | null | string => exact ⟨_, _, rfl, ⟨rfl, by decide⟩, by decide⟩
  | bool value => cases value <;> exact ⟨_, _, rfl, ⟨rfl, by decide⟩, by decide⟩
  | number token =>
    have hHead := token.text_head []
    obtain ⟨byte, tail, hText⟩ := exists_cons_of_ne_nil token.text_ne_nil
    rw [hText] at hHead
    obtain ⟨hBegins, -, -, -, -, hBrackets⟩ := begins_of_number (hHead byte rfl)
    exact ⟨byte, tail, hText, hBegins, hBrackets⟩

/-- A value begins with a byte that is neither white space nor a bracket that
closes something. -/
theorem Doc.text_head (doc : Doc) : ∃ byte tail, doc.text = byte :: tail ∧ Begins byte := by
  cases doc with
  | emptyArray | array | emptyObject | object => exact ⟨_, _, rfl, rfl, by decide⟩
  | scalar scalar =>
    obtain ⟨byte, tail, hText, hBegins, -⟩ := scalar.text_head
    exact ⟨byte, tail, hText, hBegins⟩

theorem Doc.space_before (doc : Doc) (rest : List UInt8) :
    ∀ byte ∈ (doc.text ++ rest).head?, isSpace byte = false := by
  obtain ⟨first, tail, hText, hSpace, -⟩ := doc.text_head
  rw [hText]
  rintro byte ⟨⟩
  exact hSpace

/-- White space and then a byte that is not one: that is where a number stops,
and where the space does. -/
theorem ends_append (after : Space) (byte : UInt8) (rest : List UInt8)
    (hSpace : isSpace byte = false)
    (hEnds : extendsNumber byte = false) : Ends (after.bytes ++ byte :: rest) ∧
      skipSpace (after.bytes ++ byte :: rest) = (after, byte :: rest) := by
  constructor
  · cases hBytes : after.bytes with
    | nil =>
      rintro other ⟨⟩
      exact hEnds
    | cons first others =>
      have hBlank := after.blank first (hBytes ▸ mem_cons_self)
      rintro other ⟨⟩
      simp only [isSpace, Bool.or_eq_true, beq_iff_eq] at hBlank
      rcases hBlank with ((rfl | rfl) | rfl) | rfl <;> decide
  · apply skipSpace_append
    rintro other ⟨⟩
    exact hSpace

mutual
def Doc.size : Doc → Nat
  | .scalar _ => 1
  | .emptyArray _ => 1
  | .array items => items.size + 1
  | .emptyObject _ => 1
  | .object members => members.size + 1

def Items.size : Items → Nat
  | .last _ doc _ => doc.size + 1
  | .next _ doc _ rest => doc.size + rest.size + 1

def Members.size : Members → Nat
  | .last _ doc _ => doc.size + 1
  | .next _ doc _ rest => doc.size + rest.size + 1
end

mutual
theorem Doc.size_le : (doc : Doc) → doc.size ≤ doc.text.length
  | .scalar scalar => by
      obtain ⟨byte, tail, hText, -⟩ := (Doc.scalar scalar).text_head
      rw [hText, Doc.size, length_cons]
      omega
  | .emptyArray space => by simp [Doc.size, Doc.text]
  | .array items => by
      have hItems := items.size_le
      simpa [Doc.size, Doc.text] using hItems
  | .emptyObject space => by simp [Doc.size, Doc.text]
  | .object members => by
      have hMembers := members.size_le
      simpa [Doc.size, Doc.text] using hMembers

theorem Items.size_le : (items : Items) → items.size ≤ items.text.length
  | .last before doc after => by
      have hDoc := doc.size_le
      simp only [Items.size, Items.text, length_append, length_singleton]
      omega
  | .next before doc after rest => by
      have hDoc := doc.size_le
      have hRest := rest.size_le
      simp only [Items.size, Items.text, length_append, length_cons]
      omega

theorem Members.size_le : (members : Members) → members.size ≤ members.text.length
  | .last label doc after => by
      have hDoc := doc.size_le
      simp only [size, text, length_append, length_singleton]
      omega
  | .next label doc after rest => by
      have hDoc := doc.size_le
      have hRest := rest.size_le
      simp only [size, text, length_append, length_cons]
      omega
end

/-- What is between the brackets of an array is not taken for the end of it. -/
theorem Items.text_head (items : Items) (rest : List UInt8) :
    (skipSpace (items.text ++ rest)).2.head? ≠ some 0x5d := by
  have hDoc : ∀ (before : Space) (doc : Doc) (tail : List UInt8),
      (skipSpace (before.bytes ++ (doc.text ++ tail))).2.head? ≠ some 0x5d := by
    intro before doc tail
    obtain ⟨byte, others, hText, -, hBracket, -⟩ := doc.text_head
    rw [skipSpace_append before (doc.space_before tail), hText]
    exact fun hHead => hBracket (some.inj hHead)
  cases items with
  | last before doc after | next before doc after items =>
    simp only [text, append_assoc]
    exact hDoc before doc _

theorem Members.text_head (members : Members) (rest : List UInt8) :
    (skipSpace (members.text ++ rest)).2.head? ≠ some 0x7d := by
  have hLabel : ∀ (label : Label) (tail : List UInt8),
      (skipSpace (label.text ++ tail)).2.head? ≠ some 0x7d := by
    intro label tail
    rw [Label.text, append_assoc, skipSpace_append]
    · simp
    · rintro byte ⟨⟩
      rfl
  cases members with
  | last label doc after | next label doc after members =>
    simp only [text, append_assoc]
    exact hLabel label _

theorem scanDoc_scalar (scalar : Scalar) (fuel : Nat) (hStop : Ends rest) :
    scanDoc (fuel + 1) (scalar.text ++ rest) = some (.scalar scalar, rest) := by
  have hScalar := scanScalar_append scalar hStop
  obtain ⟨byte, tail, hText, -, hArray, hObject⟩ := scalar.text_head
  rw [hText, cons_append] at hScalar ⊢
  rw [scanDoc, if_neg hArray, if_neg hObject, hScalar]
  rfl

mutual
theorem Doc.scan_append :
    (doc : Doc) → (fuel : Nat) → (rest : List UInt8) → doc.size ≤ fuel → Ends rest →
    scanDoc fuel (doc.text ++ rest) = some (doc, rest)
  | doc, 0, _, hFuel, _ => by cases doc <;> simp [Doc.size] at hFuel
  | .scalar scalar, fuel + 1, rest, _, hStop => scanDoc_scalar scalar fuel hStop
  | .emptyArray space, fuel + 1, rest, _, _ => by
      obtain ⟨-, hSpace⟩ := ends_append space 0x5d rest rfl rfl
      simp [Doc.text, scanDoc, hSpace]
  | .array items, fuel + 1, rest, hFuel, _ => by
      have hItems := items.scan_append fuel rest (by simpa [Doc.size] using hFuel)
      simp [Doc.text, scanDoc, items.text_head, hItems]
  | .emptyObject space, fuel + 1, rest, _, _ => by
      obtain ⟨-, hSpace⟩ := ends_append space 0x7d rest rfl rfl
      simp [Doc.text, scanDoc, hSpace]
  | .object members, fuel + 1, rest, hFuel, _ => by
      have hMembers := members.scan_append fuel rest (by simpa [Doc.size] using hFuel)
      simp [Doc.text, scanDoc, members.text_head, hMembers]

theorem Items.scan_append :
    (items : Items) → (fuel : Nat) → (rest : List UInt8) → items.size ≤ fuel →
    scanItems fuel (items.text ++ rest) = some (items, rest)
  | items, 0, _, hFuel => by cases items <;> simp [Items.size] at hFuel
  | .last before doc after, fuel + 1, rest, hFuel => by
      rw [Items.size] at hFuel
      obtain ⟨hEnds, hAfter⟩ := ends_append after 0x5d rest rfl rfl
      have hDoc := doc.scan_append fuel _ (by omega) hEnds
      simp [Items.text, scanItems, skipSpace_append before (doc.space_before _), hDoc, hAfter]
  | .next before doc after items, fuel + 1, rest, hFuel => by
      rw [Items.size] at hFuel
      obtain ⟨hEnds, hAfter⟩ := ends_append after 0x2c (items.text ++ rest) rfl rfl
      have hDoc := doc.scan_append fuel _ (by omega) hEnds
      have hItems := items.scan_append fuel rest (by omega)
      simp [Items.text, scanItems, skipSpace_append before (doc.space_before _), hDoc, hAfter,
        hItems]

theorem Members.scan_append : (members : Members) → (fuel : Nat) → (rest : List UInt8) →
    members.size ≤ fuel → scanMembers fuel (members.text ++ rest) = some (members, rest)
  | members, 0, _, hFuel => by cases members <;> simp [size] at hFuel
  | .last label doc after, fuel + 1, rest, hFuel => by
      rw [size] at hFuel
      obtain ⟨hEnds, hAfter⟩ := ends_append after 0x7d rest rfl rfl
      have hDoc := doc.scan_append fuel _ (by omega) hEnds
      simp [text, scanMembers, scanLabel_append label (doc.space_before _), hDoc, hAfter]
  | .next label doc after members, fuel + 1, rest, hFuel => by
      rw [size] at hFuel
      obtain ⟨hEnds, hAfter⟩ := ends_append after 0x2c (members.text ++ rest) rfl rfl
      have hDoc := doc.scan_append fuel _ (by omega) hEnds
      have hMembers := members.scan_append fuel rest (by omega)
      simp [text, scanMembers, scanLabel_append label (doc.space_before _), hDoc, hAfter, hMembers]
end

/-- The text of a tree is read as that tree. -/
theorem scan_text (doc : Doc) : scan doc.text = some doc := by
  have hSpace : skipSpace doc.text = (⟨[], nofun⟩, doc.text) := by
    have hNone := skipSpace_append ⟨[], nofun⟩ (doc.space_before [])
    rwa [append_nil] at hNone
  have hDoc := doc.scan_append doc.text.length [] doc.size_le nofun
  rw [append_nil] at hDoc
  rw [scan, hSpace, hDoc]
  rfl

end Json
