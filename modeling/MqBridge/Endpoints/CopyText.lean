import Mathlib.Data.List.Basic

/-! Rows in the text format of the PostgreSQL `COPY` command: how they are written, and how the
server reads them. -/
namespace MqBridge.CopyText

open List

/-- A float is the text it prints as. -/
inductive BindValue where
  | null
  | int (n : Int)
  | float (printed : String)
  | bool (b : Bool)
  | text (s : String)

/-- What a column gets from a value, nothing for NULL. -/
def BindValue.content : BindValue → Option (List Char)
  | null => none
  | int n => some (toString n).toList
  | float printed => some printed.toList
  | bool b => some [if b then 't' else 'f']
  | text s => some s.toList

def copyEscape : Char → List Char
  | '\\' => ['\\', '\\']
  | '\t' => ['\\', 't']
  | '\n' => ['\\', 'n']
  | '\r' => ['\\', 'r']
  | c => [c]

def copyValue : BindValue → List Char
  | .text s => s.toList.flatMap copyEscape
  | value => value.content.getD ['\\', 'N']

def copyValues : List BindValue → List Char
  | [] => []
  | [value] => copyValue value
  | value :: next :: rest => copyValue value ++ '\t' :: copyValues (next :: rest)

def copyRow (row : List BindValue) : List Char := copyValues row ++ ['\n']

def prepend (chars : List Char) : List (List Char) → List (List Char)
  | [] => [chars]
  | first :: rest => (chars ++ first) :: rest

/-- A line ends with a line feed, a carriage return or both. A backslash takes the next character
along. -/
def lines : List Char → List (List Char)
  | [] => []
  | '\\' :: c :: rest => prepend ['\\', c] (lines rest)
  | '\r' :: '\n' :: rest => [] :: lines rest
  | '\r' :: rest => [] :: lines rest
  | '\n' :: rest => [] :: lines rest
  | c :: rest => prepend [c] (lines rest)

def fields : List Char → List (List Char)
  | [] => [[]]
  | '\\' :: c :: rest => prepend ['\\', c] (fields rest)
  | '\t' :: rest => [] :: fields rest
  | c :: rest => prepend [c] (fields rest)

section Reader

-- what an octal or hexadecimal code stands for, and how many characters it has
variable (coded : List Char → Char × Nat)

/-- The character that the rest behind a backslash stands for, and how many it has. -/
def escaped : List Char → Char × Nat
  | [] => ('\\', 0)
  | 'b' :: _ => ('\x08', 1)
  | 'f' :: _ => ('\x0c', 1)
  | 'n' :: _ => ('\n', 1)
  | 'r' :: _ => ('\r', 1)
  | 't' :: _ => ('\t', 1)
  | 'v' :: _ => ('\x0b', 1)
  | c :: rest => if c.isDigit ∨ c = 'x' then coded (c :: rest) else (c, 1)

/-- The number counts the characters that belong to an escape already read. -/
def unescape : Nat → List Char → List Char
  | _, [] => []
  | skip + 1, _ :: rest => unescape skip rest
  | 0, '\\' :: rest => (escaped coded rest).1 :: unescape (escaped coded rest).2 rest
  | 0, c :: rest => c :: unescape 0 rest

def readField (field : List Char) : Option (List Char) :=
  if field = ['\\', 'N'] then none else some (unescape coded 0 field)

def readRows (data : List Char) : List (List (Option (List Char))) :=
  ((lines data).takeWhile (· ≠ ['\\', '.'])).map fun line => (fields line).map (readField coded)

end Reader

/-! ### Reading back -/

/-- No character of `stops` is outside an escape, and no escape is the one that ends the data. -/
inductive Written (stops : List Char) : List Char → Prop where
  | nil : Written stops []
  | char {c : Char} {rest : List Char} (hStop : c ∉ '\\' :: stops) (hRest : Written stops rest) :
      Written stops (c :: rest)
  | escape {c : Char} {rest : List Char} (hEnd : c ≠ '.') (hRest : Written stops rest) :
    Written stops ('\\' :: c :: rest)

variable {stops chars rest : List Char} {more : List (List Char)}

theorem split_written {split : List Char → List (List Char)}
    (hEscape : ∀ c rest, split ('\\' :: c :: rest) = prepend ['\\', c] (split rest))
    (hChar : ∀ c rest, c ∉ '\\' :: stops → split (c :: rest) = prepend [c] (split rest))
    (h : Written stops chars) (hRest : split rest = [] :: more) :
    split (chars ++ rest) = chars :: more := by
  induction h with
  | nil => exact hRest
  | char hStop _ ih =>
    rw [cons_append, hChar _ _ hStop, ih]
    rfl
  | escape _ _ ih =>
    rw [cons_append, cons_append, hEscape, ih]
    rfl

theorem lines_written (h : Written ['\n', '\r'] chars) :
    lines (chars ++ '\n' :: rest) = chars :: lines rest := by
  refine split_written (fun c rest => by rw [lines]) (fun c rest hStop => ?_) h (by rw [lines])
  rw [lines] <;> grind

theorem fields_written (h : Written ['\t'] chars) (hRest : fields rest = [] :: more) :
    fields (chars ++ rest) = chars :: more := by
  refine split_written (fun c rest => by rw [fields]) (fun c rest hStop => ?_) h hRest
  rw [fields] <;> grind

theorem Written.append (h : Written stops chars) (hRest : Written stops rest) :
    Written stops (chars ++ rest) := by
  induction h with
  | nil => exact hRest
  | char hStop _ ih => exact .char hStop ih
  | escape hEnd _ ih => exact .escape hEnd ih

theorem copyEscape_cases (c : Char) : (c ∉ ['\\', '\t', '\n', '\r'] ∧ copyEscape c = [c]) ∨
    ∃ letter ∈ ['\\', 't', 'n', 'r'], copyEscape c = ['\\', letter] ∧
      ∀ coded rest, escaped coded (letter :: rest) = (c, 1) := by
  rw [copyEscape.eq_def]
  split
  · exact .inr ⟨'\\', by decide, rfl, fun _ _ => rfl⟩
  · exact .inr ⟨'t', by decide, rfl, fun _ _ => rfl⟩
  · exact .inr ⟨'n', by decide, rfl, fun _ _ => rfl⟩
  · exact .inr ⟨'r', by decide, rfl, fun _ _ => rfl⟩
  · exact .inl ⟨by simp_all, rfl⟩

theorem written_escape (hStops : stops ⊆ ['\t', '\n', '\r']) (s : List Char) :
    Written stops (s.flatMap copyEscape) := by
  induction s with
  | nil => exact .nil
  | cons c rest ih =>
    rw [flatMap_cons]
    rcases copyEscape_cases c with ⟨hPlain, hChar⟩ | ⟨letter, hLetter, hChar, -⟩
    · rw [hChar]
      exact .char (fun hMem => hPlain (cons_subset_cons _ hStops hMem)) ih
    · rw [hChar]
      exact .escape (by rintro rfl; revert hLetter; decide) ih

variable (coded : List Char → Char × Nat)

theorem unescape_escape (s : List Char) : unescape coded 0 (s.flatMap copyEscape) = s := by
  induction s with
  | nil => rfl
  | cons c rest ih =>
    rw [flatMap_cons]
    rcases copyEscape_cases c with ⟨hPlain, hChar⟩ | ⟨letter, hLetter, hChar, hEscaped⟩
    · rw [hChar, singleton_append, unescape, ih]
      grind
    · rw [hChar, cons_append, singleton_append, unescape, hEscaped, unescape, ih]

theorem escape_toString (n : Int) :
    (toString n).toList.flatMap copyEscape = (toString n).toList := by
  have hDigits : ∀ m, ∀ c ∈ (Nat.repr m).toList, copyEscape c = [c] := by
    intro m c hMem
    rw [Nat.toList_repr] at hMem
    have hDigit := Nat.isDigit_of_mem_toDigits (by decide) (by decide) hMem
    rw [copyEscape] <;> (rintro rfl; revert hDigit; decide)
  have hChars : ∀ c ∈ (toString n).toList, copyEscape c = [c] := by
    cases n with
    | ofNat m => exact hDigits m
    | negSucc m =>
      have hSign : (toString (Int.negSucc m)).toList = '-' :: (Nat.repr (m + 1)).toList :=
        String.toList_append
      rw [hSign]
      exact forall_mem_cons.mpr ⟨rfl, hDigits (m + 1)⟩
  rw [flatMap_congr hChars, flatMap_singleton']

def BindValue.isFloat : BindValue → Bool
  | float _ => true
  | _ => false

variable {value : BindValue}

theorem copyValue_eq (hFloat : value.isFloat = false) :
    copyValue value = (value.content.map (flatMap copyEscape)).getD ['\\', 'N'] := by
  cases value with
  | null | text => rfl
  | int n => exact (escape_toString n).symm
  | float => cases hFloat
  | bool b => cases b <;> rfl

theorem written_copyValue (hStops : stops ⊆ ['\t', '\n', '\r']) (hFloat : value.isFloat = false) :
    Written stops (copyValue value) := by
  rw [copyValue_eq hFloat]
  cases value.content with
  | none => exact .escape (by decide) .nil
  | some s => exact written_escape hStops s

theorem readField_copyValue (hFloat : value.isFloat = false) :
    readField coded (copyValue value) = value.content := by
  rw [copyValue_eq hFloat]
  cases value.content with
  | none => rfl
  | some s =>
    refine (if_neg fun hNull => ?_).trans (congrArg some (unescape_escape coded s))
    have hRead : ['N'] = s :=
      (congrArg (unescape coded 0) hNull).symm.trans (unescape_escape coded s)
    rw [← hRead] at hNull
    exact absurd hNull (by decide)

theorem written_copyValues {row : List BindValue} (hRow : ∀ value ∈ row, value.isFloat = false) :
    Written ['\n', '\r'] (copyValues row) := by
  fun_induction copyValues row with
  | case1 => exact .nil
  | case2 value => exact written_copyValue (by decide) (hRow value (mem_cons_self ..))
  | case3 value next rest ih =>
    obtain ⟨hVal, hRest⟩ := forall_mem_cons.mp hRow
    exact (written_copyValue (by decide) hVal).append (.char (by decide) (ih hRest))

theorem fields_copyValues {row : List BindValue} (hRow : ∀ value ∈ row, value.isFloat = false)
    (hNe : row ≠ []) : fields (copyValues row) = row.map copyValue := by
  fun_induction copyValues row with
  | case1 => exact absurd rfl hNe
  | case2 value =>
    rw [← append_nil (copyValue value)]
    exact fields_written (written_copyValue (by decide) (hRow value (mem_cons_self ..))) rfl
  | case3 value next rest ih =>
    obtain ⟨hVal, hRest⟩ := forall_mem_cons.mp hRow
    refine fields_written (written_copyValue (by decide) hVal) ?_
    rw [fields, ih hRest (cons_ne_nil _ _)]

/-- The rows of any values but floats are read back, to the last one. -/
theorem copied_rows_read_back {n : Nat} (hCols : 1 ≤ n) {rows : List (List BindValue)}
    (hRows : ∀ row ∈ rows, row.length = n ∧ ∀ value ∈ row, value.isFloat = false) :
    readRows coded (rows.flatMap copyRow) = rows.map (·.map BindValue.content) := by
  induction rows with
  | nil => rfl
  | cons row rest ih =>
    obtain ⟨⟨hLen, hRow⟩, hRest⟩ := forall_mem_cons.mp hRows
    have hWritten := written_copyValues hRow
    have hLine : copyValues row ≠ ['\\', '.'] := by
      intro hEnd
      rw [hEnd] at hWritten
      cases hWritten with
      | char hStop _ => exact hStop (mem_cons_self ..)
      | escape hPoint _ => exact hPoint rfl
    have hFields : (fields (copyValues row)).map (readField coded) = row.map BindValue.content := by
      rw [fields_copyValues hRow (ne_nil_of_length_pos (hLen ▸ hCols)), map_map]
      exact map_congr_left fun value hMem => readField_copyValue coded (hRow value hMem)
    rw [flatMap_cons, copyRow, append_assoc, singleton_append, readRows, lines_written hWritten,
      takeWhile_cons, if_pos (decide_eq_true hLine), map_cons, map_cons, hFields, ← ih hRest,
        readRows]

theorem copied_rows_read_back_markers :
    readRows (fun _ => ('?', 1))
      ([[.null, .text "\\N"], [.int (-7), .text "\\.\n"]].flatMap copyRow) =
      [[none, some ['\\', 'N']], [some ['-', '7'], some ['\\', '.', '\n']]] :=
  copied_rows_read_back _ (n := 2) (by decide) (by decide)

end MqBridge.CopyText
