import Mathlib.Data.List.Forall2
import Mathlib.Data.List.TakeWhile
import MqBridge.Collections.Places

/-! Server-sent events as their receivers read them. A line ends with a carriage
return, a line feed or both, and an empty line ends an event. -/
namespace EventStream

open List

def carriageReturn : UInt8 := 0x0d
def lineFeed : UInt8 := 0x0a
def colon : UInt8 := 0x3a
def space : UInt8 := 0x20

/-- The lines of a text; `line` was read before it. What follows the last line
end is a line too. -/
def splitLines (line : List UInt8) : List UInt8 → List (List UInt8)
  | [] => [line]
  | [byte] => if byte = carriageReturn ∨ byte = lineFeed then [line, []] else [line ++ [byte]]
  | byte :: next :: rest =>
    if byte = carriageReturn ∧ next = lineFeed then line :: splitLines [] rest
    else if byte = carriageReturn ∨ byte = lineFeed then line :: splitLines [] (next :: rest)
    else splitLines (line ++ [byte]) (next :: rest)

abbrev Field := List UInt8 × List UInt8

/-- One space after the colon is no part of the value. A line that begins with a
colon is a comment. -/
def field (line : List UInt8) : Option Field :=
  match line.dropWhile (· ≠ colon) with
  | [] => some (line, [])
  | _ :: value =>
    if line.head? = some colon then none
    else some (line.takeWhile (· ≠ colon), if value.head? = some space then value.tail else value)

def events (fields : List Field) : List (List UInt8) → List (List Field)
  | [] => []
  | line :: rest =>
    if line = [] then if fields = [] then events [] rest else fields :: events [] rest
    else events (fields ++ (field line).toList) rest

/-- The events of a stream. A line or an event that is not ended is no part of it. -/
def parse (bytes : List UInt8) : List (List Field) := events [] (splitLines [] bytes).dropLast

def OneLine (text : List UInt8) : Prop := ∀ byte ∈ text, byte ≠ carriageReturn ∧ byte ≠ lineFeed

variable (line : List UInt8)

theorem splitLines_cons {byte : UInt8} (hByte : byte ≠ carriageReturn ∧ byte ≠ lineFeed)
    (rest : List UInt8) : splitLines line (byte :: rest) = splitLines (line ++ [byte]) rest := by
  have hNot : ¬ (byte = carriageReturn ∨ byte = lineFeed) := not_or.mpr hByte
  cases rest with
  | nil => exact if_neg hNot
  | cons next rest => rw [splitLines, if_neg fun h => hByte.1 h.1, if_neg hNot]

theorem splitLines_lineFeed (rest : List UInt8) :
    splitLines line (lineFeed :: rest) = line :: splitLines [] rest := by
  cases rest with
  | nil => rfl
  | cons next rest => rw [splitLines, if_neg fun h => absurd h.1 (by decide), if_pos (.inr rfl)]

theorem splitLines_append {text : List UInt8} (hText : OneLine text) (rest : List UInt8) :
    splitLines line (text ++ rest) = splitLines (line ++ text) rest := by
  induction text generalizing line with
  | nil => rw [nil_append, append_nil]
  | cons byte text ih =>
    obtain ⟨hByte, hOthers⟩ := forall_mem_cons.mp hText
    rw [cons_append, splitLines_cons line hByte, ih _ hOthers, append_assoc]
    rfl

theorem splitLines_ne_nil (text : List UInt8) : splitLines line text ≠ [] := by
  induction line, text using splitLines.induct with
  | case1 line => exact cons_ne_nil _ _
  | case2 line byte hByte | case3 line byte hByte => simp [splitLines, hByte]
  | case4 line byte next rest hBoth ih => simp [splitLines, hBoth]
  | case5 line byte next rest hBoth hByte ih => simp [splitLines, hBoth, hByte]
  | case6 line byte next rest hBoth hByte ih =>
    rw [splitLines, if_neg hBoth, if_neg hByte]
    exact ih

theorem oneLine_of_mem_splitLines {line : List UInt8} (hLine : OneLine line) (text : List UInt8) :
    ∀ found ∈ splitLines line text, OneLine found := by
  have hNil : OneLine [] := nofun
  have hSnoc {line : List UInt8} {byte : UInt8} (hLine : OneLine line)
      (hByte : ¬ (byte = carriageReturn ∨ byte = lineFeed)) : OneLine (line ++ [byte]) :=
    Places.forall_mem_snoc hLine (not_or.mp hByte)
  induction line, text using splitLines.induct with
  | case1 line => simpa [splitLines] using hLine
  | case2 line byte hByte => simpa [splitLines, hByte] using ⟨hLine, hNil⟩
  | case3 line byte hByte => simpa [splitLines, hByte] using hSnoc hLine hByte
  | case4 line byte next rest hBoth ih =>
    rw [splitLines, if_pos hBoth]
    exact forall_mem_cons.mpr ⟨hLine, ih hNil⟩
  | case5 line byte next rest hBoth hByte ih =>
    rw [splitLines, if_neg hBoth, if_pos hByte]
    exact forall_mem_cons.mpr ⟨hLine, ih hNil⟩
  | case6 line byte next rest hBoth hByte ih =>
    rw [splitLines, if_neg hBoth, if_neg hByte]
    exact ih (hSnoc hLine hByte)

theorem oneLine_of_field {line : List UInt8} (hLine : OneLine line) {found : Field}
    (hField : field line = some found) : OneLine found.2 := by
  have hDrop : ∀ byte ∈ line.dropWhile (· ≠ colon), byte ∈ line :=
    fun byte hMem => (dropWhile_sublist _).subset hMem
  rw [field] at hField
  split at hField
  next => cases hField; nofun
  next _ value hRest =>
    split_ifs at hField with hComment hSpace
    · cases hField
      exact fun byte hMem =>
        hLine byte (hDrop byte (hRest ▸ mem_cons_of_mem _ (mem_of_mem_tail hMem)))
    · cases hField
      exact fun byte hMem => hLine byte (hDrop byte (hRest ▸ mem_cons_of_mem _ hMem))

variable {lines : List (List UInt8)}

theorem oneLine_of_mem_events (hLines : ∀ line ∈ lines, OneLine line) {fields : List Field}
    (hFields : ∀ f ∈ fields, OneLine f.2) :
    ∀ event ∈ events fields lines, ∀ f ∈ event, OneLine f.2 := by
  induction lines generalizing fields with
  | nil => nofun
  | cons line rest ih =>
    obtain ⟨hLine, hRest⟩ := forall_mem_cons.mp hLines
    rw [events]
    split_ifs
    · exact ih hRest nofun
    · exact forall_mem_cons.mpr ⟨hFields, ih hRest nofun⟩
    · refine ih hRest fun f hMem => ?_
      rcases mem_append.mp hMem with hMem | hMem
      · exact hFields f hMem
      · exact oneLine_of_field hLine (Option.mem_toList.mp hMem)

/-- No value that a receiver reads has a line end in it. -/
theorem oneLine_of_mem_parse {bytes : List UInt8} {event : List Field}
    (hEvent : event ∈ parse bytes) : ∀ f ∈ event, OneLine f.2 := by
  have hNil : OneLine [] := nofun
  have hLines : ∀ line ∈ (splitLines [] bytes).dropLast, OneLine line :=
    fun line hMem => oneLine_of_mem_splitLines hNil bytes line ((dropLast_sublist _).subset hMem)
  exact oneLine_of_mem_events hLines (fun f hMem => absurd hMem not_mem_nil) event hEvent

/-- Lines that are written one by one are read one by one. -/
theorem splitLines_flatMap (hLines : ∀ line ∈ lines, OneLine line) (rest : List UInt8) :
    splitLines [] (lines.flatMap (· ++ [lineFeed]) ++ rest) = lines ++ splitLines [] rest := by
  induction lines with
  | nil => rfl
  | cons line lines ih =>
    obtain ⟨hLine, hOthers⟩ := forall_mem_cons.mp hLines
    rw [flatMap_cons, append_assoc, append_assoc, splitLines_append [] hLine, singleton_append,
      splitLines_lineFeed, ih hOthers]
    rfl

def Written (line : List UInt8) (written : Field) : Prop :=
  OneLine line ∧ line ≠ [] ∧ field line = some written

/-- The lines of an event and the empty line after them. -/
theorem events_lines {fields : List Field} (hLines : List.Forall₂ Written lines fields)
    (before : List Field) (hSome : before ++ fields ≠ []) (rest : List (List UInt8)) :
    events before (lines ++ [] :: rest) = (before ++ fields) :: events [] rest := by
  induction hLines generalizing before with
  | nil =>
    rw [append_nil] at hSome
    rw [nil_append, events, if_pos rfl, if_neg hSome, append_nil]
  | @cons line f lines fields hLine _ ih =>
    rw [cons_append, events, if_neg hLine.2.1, hLine.2.2, append_cons before f fields]
    exact ih (before ++ [f]) (append_cons before f fields ▸ hSome)

/-- One event, written line by line with an empty line at the end, is read as one event. -/
theorem parse_lines {fields : List Field} (hLines : List.Forall₂ Written lines fields)
    (hSome : fields ≠ []) : parse (lines.flatMap (· ++ [lineFeed]) ++ [lineFeed]) = [fields] := by
  have hOneLine : ∀ line ∈ lines, OneLine line := ((forall₂_and_left _ _).mp hLines).1
  have hSplit :
      (splitLines [] (lines.flatMap (· ++ [lineFeed]) ++ [lineFeed])).dropLast = lines ++ [[]] := by
    rw [splitLines_flatMap hOneLine]
    have hEnd : splitLines [] [lineFeed] = [[], []] := rfl
    rw [hEnd, dropLast_append_of_ne_nil (cons_ne_nil _ _)]
    rfl
  rw [parse, hSplit, events_lines hLines [] hSome]
  rfl

/-- A name, a colon, a space and a value. -/
theorem field_spaced {name : List UInt8} (hName : name ≠ []) (hColon : colon ∉ name)
    (value : List UInt8) : field (name ++ colon :: space :: value) = some (name, value) := by
  have hTake :
      (name ++ colon :: space :: value).takeWhile (fun byte => decide (byte ≠ colon)) = name := by
    rw [takeWhile_append_of_pos fun byte hMem => decide_eq_true (ne_of_mem_of_not_mem hMem hColon),
      takeWhile_cons_of_neg (by simp), append_nil]
  have hDrop : (name ++ colon :: space :: value).dropWhile (fun byte => decide (byte ≠ colon)) =
      colon :: space :: value := by
    rw [dropWhile_append_of_pos fun byte hMem => decide_eq_true (ne_of_mem_of_not_mem hMem hColon),
      dropWhile_cons_of_neg (by simp)]
  have hHead : (name ++ colon :: space :: value).head? ≠ some colon := by
    cases name with
    | nil => exact absurd rfl hName
    | cons first name =>
      intro hFirst
      exact hColon (Option.some.inj hFirst ▸ mem_cons_self)
  rw [field, hDrop, hTake]
  dsimp only
  rw [if_neg hHead]
  rfl

theorem written_field {name : List UInt8} (hName : name ≠ []) (hColon : colon ∉ name)
    (hLine : OneLine name)
    {value : List UInt8} (hVal : OneLine value) :
    Written (name ++ colon :: space :: value) (name, value) := by
  refine ⟨?_, by simp, field_spaced hName hColon value⟩
  intro byte hMem
  rcases mem_append.mp hMem with hMem | hMem
  · exact hLine byte hMem
  rcases mem_cons.mp hMem with rfl | hMem
  · decide
  rcases mem_cons.mp hMem with rfl | hMem
  · decide
  · exact hVal byte hMem

end EventStream
