import MqBridge.Json.Value

/-! Other spellings of a JSON text: its strings and its white space are replaced,
and everything else is copied. A text has the same value in all spellings in
which its strings stand for the same. -/
namespace Json

open List Option

/-- Bytes between strings and white space: ASCII, and no quote. -/
def isOutside (byte : UInt8) : Bool := decide (byte < 0x80) && (byte != 0x22 && !isSpace byte)

def quoted (pieces : List Piece) : List UInt8 := 0x22 :: (piecesText pieces ++ [0x22])

section Respell

variable (f : List Piece → List Piece) (g : Space → Space)

def Scalar.respell : Scalar → Scalar
  | .string pieces => .string (f pieces)
  | scalar => scalar

def Label.respell (label : Label) : Label :=
  ⟨g label.before, f label.key, g label.beforeColon, g label.afterColon⟩

mutual
def Doc.respell : Doc → Doc
  | .scalar scalar => .scalar (scalar.respell f)
  | .emptyArray space => .emptyArray (g space)
  | .array items => .array items.respell
  | .emptyObject space => .emptyObject (g space)
  | .object members => .object members.respell

def Items.respell : Items → Items
  | .last before doc after => .last (g before) doc.respell (g after)
  | .next before doc after rest => .next (g before) doc.respell (g after) rest.respell

def Members.respell : Members → Members
  | .last label doc after => .last (label.respell f g) doc.respell (g after)
  | .next label doc after rest => .next (label.respell f g) doc.respell (g after) rest.respell
end

end Respell

def Scalar.strings : Scalar → List (List Piece)
  | .string pieces => [pieces]
  | _ => []

mutual
def Doc.strings : Doc → List (List Piece)
  | .scalar scalar => scalar.strings
  | .emptyArray _ | .emptyObject _ => []
  | .array items => items.strings
  | .object members => members.strings

def Items.strings : Items → List (List Piece)
  | .last _ doc _ => doc.strings
  | .next _ doc _ rest => doc.strings ++ rest.strings

def Members.strings : Members → List (List Piece)
  | .last label doc _ => label.key :: doc.strings
  | .next label doc _ rest => label.key :: (doc.strings ++ rest.strings)
end

section Strings

variable {p q : List Piece}

/-- The first piece can be the second half of a pair. -/
def StartsLow (pieces : List Piece) : Prop :=
  ∃ unit ∈ pieces.head?.bind Piece.codeUnit, 0xdc00 ≤ unit ∧ unit ≤ 0xdfff

/-- After all strings, the one stands for the same as the other. -/
def Interchangeable (p q : List Piece) : Prop :=
  ∀ before, unescape (before ++ p) = unescape (before ++ q)

theorem Interchangeable.refl (pieces : List Piece) : Interchangeable pieces pieces := fun _ => rfl

theorem Interchangeable.append (hRest : Interchangeable p q) (front : List Piece) :
    Interchangeable (front ++ p) (front ++ q) := by
  intro before
  rw [← append_assoc, ← append_assoc]
  exact hRest (before ++ front)

/-- The first half of a pair must be followed by the second. -/
theorem unescape_high {a b c d : UInt8} {hDigits : (hexValue [a, b, c, d]).isSome = true}
    (hLow : ¬ 0xdbff < (hexValue [a, b, c, d]).get hDigits)
    (hHigh : ¬ ((hexValue [a, b, c, d]).get hDigits < 0xd800 ∨
      0xdfff < (hexValue [a, b, c, d]).get hDigits))
    (hStarts : ¬ StartsLow p) : unescape (.hex a b c d hDigits :: p) = none := by
  rw [unescape.eq_def]
  dsimp only
  rw [if_neg hHigh, if_neg hLow]
  cases p with
  | nil => rfl
  | cons next rest =>
    cases hUnit : next.codeUnit with
    | none => simp only [hUnit]
    | some unit =>
      simp only [hUnit]
      exact if_neg fun hRange => hStarts ⟨unit, hUnit, hRange⟩

/-- Strings that stand for the same are interchangeable, unless one could
complete a pair. -/
theorem interchangeable_of_unescape (hSame : unescape p = unescape q) (hP : ¬ StartsLow p)
    (hQ : ¬ StartsLow q) : Interchangeable p q
  | [] => hSame
  | .plain byte hPlain :: before | .short letter hKnown :: before => by
      rw [cons_append, cons_append, unescape, unescape,
        interchangeable_of_unescape hSame hP hQ before]
  | [.hex a b c d hDigits] => by
      rw [singleton_append, singleton_append]
      by_cases hOther :
        (hexValue [a, b, c, d]).get hDigits < 0xd800 ∨ 0xdfff < (hexValue [a, b, c, d]).get hDigits
      · rw [unescape.eq_def, unescape.eq_def (.hex a b c d hDigits :: q)]
        dsimp only
        rw [if_pos hOther, if_pos hOther, hSame]
      · by_cases hLow : 0xdbff < (hexValue [a, b, c, d]).get hDigits
        · rw [unescape.eq_def, unescape.eq_def (.hex a b c d hDigits :: q)]
          dsimp only
          rw [if_neg hOther, if_neg hOther, if_pos hLow, if_pos hLow]
        · rw [unescape_high hLow hOther hP, unescape_high hLow hOther hQ]
  | .hex a b c d hDigits :: next :: before => by
      have hNext := interchangeable_of_unescape hSame hP hQ (next :: before)
      have hBefore := interchangeable_of_unescape hSame hP hQ before
      simp only [cons_append] at hNext ⊢
      rw [unescape.eq_def, unescape.eq_def]
      dsimp only
      rw [hNext, hBefore]

end Strings

section Text

theorem isOutside_of_isDigit {byte : UInt8} (hDigit : isDigit byte = true) :
    isOutside byte = true := by
  simp only [isDigit, Bool.and_eq_true, decide_eq_true_eq] at hDigit
  have hBound : (0x39 : UInt8) < 0x80 := by decide
  have hOther (other : UInt8) (hLow : ¬ 0x30 ≤ other) : byte ≠ other := by
    rintro rfl
    exact hLow hDigit.1
  have hSpace : isSpace byte = false := by
    simp [isSpace, hOther 0x20 (by decide), hOther 0x09 (by decide), hOther 0x0a (by decide),
      hOther 0x0d (by decide)]
  simp [isOutside, UInt8.lt_of_le_of_lt hDigit.2 hBound, hOther 0x22 (by decide), hSpace]

theorem NumberToken.text_outside (token : NumberToken) :
    ∀ byte ∈ token.text, isOutside byte = true := by
  have hDigits (digits : Digits) : ∀ byte ∈ digits.bytes, isOutside byte = true :=
    fun byte hMem => isOutside_of_isDigit (digits.digits byte hMem)
  intro byte hMem
  rw [text, mem_append, mem_append, mem_append] at hMem
  rcases hMem with hMinus | hWhole | hFraction | hExponent
  · split_ifs at hMinus
    · rw [mem_singleton.mp hMinus]
      rfl
    · cases hMinus
  · exact hDigits _ byte hWhole
  · cases hSome : token.fraction with
    | none => simp [fractionText, hSome] at hFraction
    | some digits =>
      rw [hSome, fractionText, elim_some, mem_cons] at hFraction
      rcases hFraction with rfl | hMem
      · rfl
      · exact hDigits _ byte hMem
  · cases hSome : token.exponent with
    | none => simp [exponentText, hSome] at hExponent
    | some exponent =>
      rw [hSome, exponentText, elim_some, Exponent.text, mem_cons, mem_append] at hExponent
      rcases hExponent with rfl | hSign | hMem
      · split_ifs <;> rfl
      · obtain ⟨sign, -, rfl⟩ := mem_map.mp hSign
        cases sign <;> rfl
      · exact hDigits _ byte hMem

variable {R : List UInt8 → List UInt8 → Prop} {f : List Piece → List Piece} {g : Space → Space}

/-- A relation between texts that can be shown part by part. -/
structure Copies (R : List UInt8 → List UInt8 → Prop) (g : Space → Space) : Prop where
  append : ∀ {a a' b b'}, R a a' → R b b' → R (a ++ b) (a' ++ b')
  outside : ∀ bytes, (∀ byte ∈ bytes, isOutside byte = true) → R bytes bytes
  space : ∀ space, R space.bytes (g space).bytes

theorem Copies.cons (hR : Copies R g) {byte : UInt8} (hByte : isOutside byte = true)
    {a a' : List UInt8} (hRest : R a a') : R (byte :: a) (byte :: a') := by
  have hOne : R [byte] [byte] := hR.outside [byte] fun b hMem => by rwa [mem_singleton.mp hMem]
  exact hR.append hOne hRest

theorem Scalar.respell_text (hR : Copies R g) {scalar : Scalar}
    (hStrings : ∀ p ∈ scalar.strings, R (quoted p) (quoted (f p))) :
    R scalar.text (scalar.respell f).text := by
  cases scalar with
  | null => exact hR.outside _ (all_eq_true.mp rfl)
  | bool value => cases value <;> exact hR.outside _ (all_eq_true.mp rfl)
  | number token => exact hR.outside _ token.text_outside
  | string pieces => exact hStrings pieces mem_cons_self

theorem Label.respell_text (hR : Copies R g) {label : Label}
    (hKey : R (quoted label.key) (quoted (f label.key))) :
    R label.text (label.respell f g).text := by
  have hSplit (l : Label) : l.text =
      l.before.bytes ++ (quoted l.key ++ (l.beforeColon.bytes ++ 0x3a :: l.afterColon.bytes)) := by
    simp [text, quoted]
  rw [hSplit, hSplit]
  exact hR.append (hR.space _)
    (hR.append hKey (hR.append (hR.space _) (hR.cons (by decide) (hR.space _))))

mutual
theorem Doc.respell_text (hR : Copies R g) :
    (doc : Doc) → (∀ p ∈ doc.strings, R (quoted p) (quoted (f p))) →
    R doc.text (doc.respell f g).text
  | .scalar _, hStrings => Scalar.respell_text hR hStrings
  | .emptyArray _, _ =>
    hR.cons (by decide) (hR.append (hR.space _) (hR.outside [0x5d] (all_eq_true.mp rfl)))
  | .array items, hStrings => hR.cons (by decide) (Items.respell_text hR items hStrings)
  | .emptyObject _, _ =>
    hR.cons (by decide) (hR.append (hR.space _) (hR.outside [0x7d] (all_eq_true.mp rfl)))
  | .object members, hStrings => hR.cons (by decide) (Members.respell_text hR members hStrings)

theorem Items.respell_text (hR : Copies R g) : (items : Items) →
    (∀ p ∈ items.strings, R (quoted p) (quoted (f p))) → R items.text (items.respell f g).text
  | .last _ doc _, hStrings =>
    hR.append (hR.space _) (hR.append (Doc.respell_text hR doc hStrings)
      (hR.append (hR.space _) (hR.outside [0x5d] (all_eq_true.mp rfl))))
  | .next _ doc _ rest, hStrings => by
      obtain ⟨hDoc, hRest⟩ := forall_mem_append.mp hStrings
      exact hR.append (hR.space _) (hR.append (Doc.respell_text hR doc hDoc)
        (hR.append (hR.space _) (hR.cons (by decide) (Items.respell_text hR rest hRest))))

theorem Members.respell_text (hR : Copies R g) : (members : Members) →
    (∀ p ∈ members.strings, R (quoted p) (quoted (f p))) → R members.text (members.respell f g).text
  | .last label doc _, hStrings => by
      obtain ⟨hKey, hDoc⟩ := forall_mem_cons.mp hStrings
      exact hR.append (Label.respell_text hR hKey) (hR.append (Doc.respell_text hR doc hDoc)
        (hR.append (hR.space _) (hR.outside [0x7d] (all_eq_true.mp rfl))))
  | .next label doc _ rest, hStrings => by
      obtain ⟨hKey, hDocs⟩ := forall_mem_cons.mp hStrings
      obtain ⟨hDoc, hRest⟩ := forall_mem_append.mp hDocs
      exact hR.append (Label.respell_text hR hKey) (hR.append (Doc.respell_text hR doc hDoc)
        (hR.append (hR.space _) (hR.cons (by decide) (Members.respell_text hR rest hRest))))
end

end Text

section Value

variable {f : List Piece → List Piece} (g : Space → Space) (floats : Floats)

/-- The strings stand for the same as before. -/
def KeepsStrings (f : List Piece → List Piece) : Prop :=
  ∀ pieces, stringValue (f pieces) = stringValue pieces

theorem Scalar.value_respell (hKeeps : KeepsStrings f) (scalar : Scalar) :
    (scalar.respell f).value floats = scalar.value floats := by
  cases scalar with
  | string pieces => rw [respell, value, value, hKeeps]
  | _ => rfl

mutual
theorem Doc.value_respell (hKeeps : KeepsStrings f) : (doc : Doc) → (depth : Nat) →
    (doc.respell f g).value floats depth = doc.value floats depth
  | .scalar scalar, depth => by
      rw [Doc.respell, Doc.value, Doc.value, Scalar.value_respell floats hKeeps]
  | .emptyArray _, _ => rfl
  | .array items, depth => by
      rw [Doc.respell, Doc.value, Doc.value, Items.values_respell hKeeps items (depth - 1)]
  | .emptyObject _, _ => rfl
  | .object members, depth => by
      rw [Doc.respell, Doc.value, Doc.value, Members.entries_respell hKeeps members (depth - 1)]

theorem Items.values_respell (hKeeps : KeepsStrings f) : (items : Items) → (depth : Nat) →
    (items.respell f g).values floats depth = items.values floats depth
  | .last _ doc _, depth => by
      rw [Items.respell, Items.values, Items.values, Doc.value_respell hKeeps doc depth]
  | .next _ doc _ rest, depth => by
      rw [Items.respell, Items.values, Items.values, Doc.value_respell hKeeps doc depth,
        Items.values_respell hKeeps rest depth]

theorem Members.entries_respell (hKeeps : KeepsStrings f) : (members : Members) → (depth : Nat) →
    (members.respell f g).entries floats depth = members.entries floats depth
  | .last label doc _, depth => by
      rw [Members.respell, Members.entries, Members.entries, Doc.value_respell hKeeps doc depth,
        Label.respell, hKeeps]
  | .next label doc _ rest, depth => by
      rw [Members.respell, Members.entries, Members.entries, Doc.value_respell hKeeps doc depth,
        Members.entries_respell hKeeps rest depth, Label.respell, hKeeps]
end

/-- A text has the same value in all spellings. -/
theorem fromSlice_respell (hKeeps : KeepsStrings f) (doc : Doc) :
    fromSlice floats (doc.respell f g).text = fromSlice floats doc.text := by
  rw [fromSlice, fromSlice, scan_text, scan_text, bind_some, bind_some,
    Doc.value_respell g floats hKeeps]

end Value

end Json
