import MqBridge.Machine.Outcome
import MqBridge.Support.Text
import Mathlib.Data.List.Chain
import Mathlib.Data.List.TakeWhile

/-! Source paths of a mapping, compiled once. The parser cuts a path at its dots,
and a part at its closing brackets. It does not look at the character before an
index, so some texts are accepted that are no paths, and some make it panic. -/
namespace MqBridge.SchemaTransform

open List

inductive Seg where
  | key (name : String)
  | index (position : Nat)
  deriving DecidableEq

structure CompiledPath where
  segs : List Seg
  spec : String
  deriving DecidableEq

/-! ### Parsing -/

/-- The indices of a part, cut at the closing brackets. The character before an
index is skipped unseen, and slicing behind it panics unless it is there and is
one byte. -/
def parseIndices (spec : String) : List (List Char) → Option (Except String (List Seg))
  | [] => some (.ok [])
  | [open_] =>
    some (if open_.isEmpty then .ok [] else .error ("unclosed '[' in path '" ++ spec ++ "'"))
  | [] :: _ => none
  | (first :: raw) :: rest =>
    if first.utf8Size ≠ 1 then none
    else
      match Text.parseUnsigned (String.ofList raw) with
      | none =>
        some (.error ("invalid array index '" ++ String.ofList raw ++ "' in path '" ++ spec ++ "'"))
      | some position => (parseIndices spec rest).map (·.map (.index position.toNat :: ·))

def nameOf (name : List Char) : List Seg := if name.isEmpty then [] else [.key (String.ofList name)]

def parseParts (spec : String) : List (List Char) → Option (Except String (List Seg))
  | [] => some (.ok [])
  | part :: rest =>
    if part.isEmpty then some (.error ("empty segment in path '" ++ spec ++ "'"))
    else
      match parseIndices spec ((part.dropWhile (· ≠ '[')).splitOn ']') with
      | none => none
      | some (.error error) => some (.error error)
      | some (.ok indices) =>
        (parseParts spec rest).map (·.map (nameOf (part.takeWhile (· ≠ '[')) ++ indices ++ ·))

def stripFirst (c : Char) : List Char → List Char
  | [] => []
  | first :: rest => if first = c then rest else first :: rest

def bodyOf (spec : String) : List Char := stripFirst '.' (stripFirst '$' (Text.trim spec.toList))

def CompiledPath.parse (spec : String) : Option (Except String CompiledPath) :=
  (if (bodyOf spec).isEmpty then some (.ok []) else parseParts spec ((bodyOf spec).splitOn '.')).map
    (·.map (⟨·, String.ofList (Text.trim spec.toList)⟩))

/-- A name and decimal indices, at least one of the two. -/
structure Segment where
  name : List Char
  indices : List (List Char)
  plain : ∀ c ∈ name, c ≠ '.' ∧ c ≠ '['
  decimal : ∀ digits ∈ indices, (Text.parseDigits digits).isSome = true
  present : name ≠ [] ∨ indices ≠ []

def bracketed (digits : List Char) : List Char := '[' :: digits ++ [']']

def Segment.text (segment : Segment) : List Char :=
  segment.name ++ segment.indices.flatMap bracketed

def Segment.segs (segment : Segment) : List Seg :=
  nameOf segment.name ++ segment.indices.map fun digits => .index ((Text.parseDigits digits).getD 0)

/-- A closed index is followed by another one, and no index has a sign. -/
def Follows (c next : Char) : Prop := (c = ']' → next = '[') ∧ (c = '[' → next ≠ '+')

instance : DecidableRel Follows := fun _ _ => inferInstanceAs (Decidable (_ ∧ _))

theorem notMem_of_mem_splitOn {c : Char} {text part : List Char} (hPart : part ∈ text.splitOn c) :
    c ∉ part := by
  induction text generalizing part with
  | nil =>
    rw [splitOn_nil, mem_singleton] at hPart
    exact hPart ▸ not_mem_nil
  | cons first rest ih =>
    rw [splitOn_cons_eq_if_modifyHead] at hPart
    split_ifs at hPart with hFirst
    · rcases mem_cons.mp hPart with rfl | hPart
      · exact not_mem_nil
      · exact ih hPart
    · cases hRest : rest.splitOn c with
      | nil => exact absurd hRest (splitOn_ne_nil c rest)
      | cons head tail =>
        rw [hRest] at hPart ih
        rcases mem_cons.mp hPart with rfl | hPart
        · exact not_mem_cons_of_ne_of_not_mem (fun hSame => hFirst (beq_iff_eq.mpr hSame.symm))
            (ih mem_cons_self)
        · exact ih (mem_cons_of_mem _ hPart)

theorem parseDigits_of_parseUnsigned {raw : List Char} {value : UInt64}
    (hSign : ∀ c ∈ raw.head?, c ≠ '+')
    (hParsed : Text.parseUnsigned (String.ofList raw) = some value) :
    Text.parseDigits raw = some value.toNat := by
  rw [Text.parseUnsigned, String.toList_ofList] at hParsed
  obtain ⟨found, hFound, hVal⟩ := Option.bind_eq_some_iff.mp hParsed
  split_ifs at hVal with hLt
  cases hVal
  rw [UInt64.toNat_ofNat_of_lt' hLt, ← hFound]
  split
  next digits => exact absurd rfl (hSign '+' rfl)
  next => rfl

/-- Clean brackets are read as what is written in them. -/
theorem parseIndices_spec {spec : String} {pieces : List (List Char)} {segs : List Seg}
    (hOpens : ∀ c ∈ ([']'].intercalate pieces).head?, c = '[')
    (hClean : ([']'].intercalate pieces).IsChain Follows)
    (hParsed : parseIndices spec pieces = some (.ok segs)) :
    ∃ indices : List (List Char),
      (∀ digits ∈ indices, (Text.parseDigits digits).isSome = true) ∧
      [']'].intercalate pieces = indices.flatMap bracketed ∧
      segs = indices.map fun digits => .index ((Text.parseDigits digits).getD 0) := by
  fun_induction parseIndices spec pieces generalizing segs with
  | case1 =>
    cases hParsed
    exact ⟨[], nofun, rfl, rfl⟩
  | case2 piece =>
    split_ifs at hParsed with hEmpty <;> cases hParsed
    rw [isEmpty_iff.mp hEmpty]
    exact ⟨[], nofun, rfl, rfl⟩
  | case3 | case4 | case5 => cases hParsed
  | case6 first raw rest hRest hSize position hSome ih =>
    obtain ⟨result, hRes, hMap⟩ := Option.map_eq_some_iff.mp hParsed
    obtain ⟨later, rfl, rfl⟩ := Outcome.map_eq_ok.mp hMap
    have hText : [']'].intercalate ((first :: raw) :: rest) =
        (first :: raw) ++ ']' :: [']'].intercalate rest := by
      cases rest with
      | nil => exact absurd rfl hRest
      | cons next rest => simp
    rw [hText] at hOpens hClean ⊢
    cases hOpens first rfl
    obtain ⟨hPiece, hLater, -⟩ := isChain_append.mp hClean
    obtain ⟨indices, hDecimal, hSame, rfl⟩ :=
      ih (fun c hHead => (hLater.rel_head? hHead).1 rfl) hLater.tail hRes
    have hDigits :=
      parseDigits_of_parseUnsigned (fun c hHead => (hPiece.rel_head? hHead).2 rfl) hSome
    refine ⟨raw :: indices, forall_mem_cons.mpr ⟨by rw [hDigits]; rfl, hDecimal⟩, ?_, ?_⟩
    · rw [hSame, flatMap_cons, bracketed, append_assoc]
      rfl
    · rw [map_cons, hDigits]
      rfl

theorem parseParts_spec {spec : String} {parts : List (List Char)} {segs : List Seg}
    (hDots : ∀ part ∈ parts, '.' ∉ part)
    (hClean : ∀ part ∈ parts, (part.dropWhile (· ≠ '[')).IsChain Follows)
    (hParsed : parseParts spec parts = some (.ok segs)) :
    ∃ segments : List Segment,
      parts = segments.map Segment.text ∧ segs = segments.flatMap Segment.segs := by
  induction parts generalizing segs with
  | nil =>
    cases hParsed
    exact ⟨[], rfl, rfl⟩
  | cons part rest ih =>
    obtain ⟨hDot, hDots⟩ := forall_mem_cons.mp hDots
    obtain ⟨hPart, hClean⟩ := forall_mem_cons.mp hClean
    rw [parseParts] at hParsed
    split_ifs at hParsed with hEmpty
    · cases hParsed
    have hBrackets : [']'].intercalate ((part.dropWhile (· ≠ '[')).splitOn ']') =
        part.dropWhile (· ≠ '[') := intercalate_splitOn ']'
    have hOpens : ∀ c ∈ (part.dropWhile (· ≠ '[')).head?, c = '[' := by
      intro c hHead
      have hNot := head?_dropWhile_not (· ≠ '[') part
      rw [Option.mem_def.mp hHead] at hNot
      simpa using hNot
    rw [← hBrackets] at hPart hOpens
    split at hParsed
    next => cases hParsed
    next => cases hParsed
    next found hFound =>
      obtain ⟨result, hRes, hMap⟩ := Option.map_eq_some_iff.mp hParsed
      obtain ⟨later, rfl, rfl⟩ := Outcome.map_eq_ok.mp hMap
      obtain ⟨segments, rfl, rfl⟩ := ih hDots hClean hRes
      obtain ⟨indices, hDecimal, hSame, rfl⟩ := parseIndices_spec hOpens hPart hFound
      rw [hBrackets] at hSame
      have hText : part.takeWhile (· ≠ '[') ++ indices.flatMap bracketed = part := by
        rw [← hSame, takeWhile_append_dropWhile]
      have hPlain : ∀ c ∈ part.takeWhile (· ≠ '['), c ≠ '.' ∧ c ≠ '[' := fun c hMem =>
        ⟨fun hIs => hDot (hIs ▸ (takeWhile_sublist _).subset hMem),
          by simpa using mem_takeWhile_imp hMem⟩
      have hPresent : part.takeWhile (· ≠ '[') ≠ [] ∨ indices ≠ [] := by
        by_contra hNone
        push Not at hNone
        rw [hNone.1, hNone.2] at hText
        exact hEmpty (isEmpty_iff.mpr hText.symm)
      refine ⟨⟨_, indices, hPlain, hDecimal, hPresent⟩ :: segments, ?_, rfl⟩
      rw [map_cons, Segment.text, hText]

theorem stripFirst_cases (c : Char) (text : List Char) :
    ∃ stripped ∈ [[], [c]], text = stripped ++ stripFirst c text := by
  cases text with
  | nil => exact ⟨[], mem_cons_self, rfl⟩
  | cons first rest =>
    rw [stripFirst]
    split_ifs with hFirst
    · exact ⟨[c], by simp, by rw [hFirst]; rfl⟩
    · exact ⟨[], mem_cons_self, rfl⟩

/-! ### What the parser meets -/

/-- The indices of a part, cut at the closing brackets, and `none` for one that is
not closed. -/
def indexReadings : List (List Char) → List (Option (List Char))
  | [] => []
  | [unclosed] => if unclosed.isEmpty then [] else [none]
  | piece :: rest => some piece :: indexReadings rest

def partReadings (part : List Char) : List (Option (List Char)) :=
  if part.isEmpty then [none] else indexReadings ((part.dropWhile (· ≠ '[')).splitOn ']')

/-- What the parser meets from left to right: the text of each index, with the
character before it, and `none` where a part is empty or a bracket not closed. -/
def readings (spec : String) : List (Option (List Char)) :=
  if (bodyOf spec).isEmpty then [] else ((bodyOf spec).splitOn '.').flatMap partReadings

/-- A number behind a character of one byte. -/
def Accepted : Option (List Char) → Prop
  | some (first :: raw) =>
    first.utf8Size = 1 ∧ (Text.parseUnsigned (String.ofList raw)).isSome = true
  | _ => False

/-- A missing name or bracket, or no number behind a character of one byte. -/
def Refused : Option (List Char) → Prop
  | none => True
  | some [] => False
  | some (first :: raw) =>
    first.utf8Size = 1 ∧ Text.parseUnsigned (String.ofList raw) = none

instance : DecidablePred Accepted
  | none => inferInstanceAs (Decidable False)
  | some [] => inferInstanceAs (Decidable False)
  | some (_ :: _) => inferInstanceAs (Decidable (_ ∧ _))

instance : DecidablePred Refused
  | none => inferInstanceAs (Decidable True)
  | some [] => inferInstanceAs (Decidable False)
  | some (_ :: _) => inferInstanceAs (Decidable (_ ∧ _))

/-- How a parser ends that stops at the first thing it does not accept. -/
inductive Ends {α : Type} (items : List (Option (List Char))) :
    Option (Except String α) → Prop
  | accepts (value : α) (hAll : ∀ item ∈ items, Accepted item) : Ends items (some (.ok value))
  | refuses (error : String) {item : Option (List Char)}
      (hFirst : items.find? (¬ Accepted ·) = some item) (hRefused : Refused item) :
      Ends items (some (.error error))
  | panics {item : Option (List Char)} (hFirst : items.find? (¬ Accepted ·) = some item)
      (hRefused : ¬ Refused item) : Ends items none

section Ends

variable {α β : Type} {items later : List (Option (List Char))} {result : Option (Except String α)}

theorem Ends.map (f : α → β) (hEnds : Ends items result) : Ends items (result.map (·.map f)) := by
  cases hEnds with
  | accepts value hAll => exact .accepts (f value) hAll
  | refuses error hFirst hRefused => exact .refuses error hFirst hRefused
  | panics hFirst hRefused => exact .panics hFirst hRefused

theorem Ends.prepend (hAll : ∀ item ∈ items, Accepted item) (hEnds : Ends later result) :
    Ends (items ++ later) result := by
  have hNone : items.find? (¬ Accepted ·) = none := by simpa using hAll
  cases hEnds with
  | accepts value hLater => exact .accepts value (forall_mem_append.mpr ⟨hAll, hLater⟩)
  | refuses error hFirst hRefused => exact .refuses error (by rwa [find?_append, hNone]) hRefused
  | panics hFirst hRefused => exact .panics (by rwa [find?_append, hNone]) hRefused

theorem find?_append_of_some {item : Option (List Char)}
    (hFirst : items.find? (¬ Accepted ·) = some item) (later : List (Option (List Char))) :
    (items ++ later).find? (¬ Accepted ·) = some item := by
  rw [find?_append, hFirst]
  rfl

end Ends

theorem parseIndices_ends (spec : String) (pieces : List (List Char)) :
    Ends (indexReadings pieces) (parseIndices spec pieces) := by
  fun_induction parseIndices spec pieces with
  | case1 => exact .accepts [] nofun
  | case2 piece =>
    rw [indexReadings]
    split_ifs with hEmpty
    · exact .accepts [] nofun
    · exact .refuses _ rfl trivial
  | case3 rest hRest =>
    cases rest with
    | nil => exact absurd rfl hRest
    | cons next rest => exact .panics rfl id
  | case4 first raw rest hRest hSize =>
    cases rest with
    | nil => exact absurd rfl hRest
    | cons next rest =>
      have hNot : ¬ Accepted (some (first :: raw)) := fun hAccepted => hSize hAccepted.1
      exact .panics (find?_cons_of_pos (by simpa using hNot)) fun hRefused => hSize hRefused.1
  | case5 first raw rest hRest hSize hNone =>
    cases rest with
    | nil => exact absurd rfl hRest
    | cons next rest =>
      have hNot : ¬ Accepted (some (first :: raw)) := fun hAccepted => by
        simp [Accepted, hNone] at hAccepted
      exact .refuses _ (find?_cons_of_pos (by simpa using hNot)) ⟨not_not.mp hSize, hNone⟩
  | case6 first raw rest hRest hSize position hSome ih =>
    cases rest with
    | nil => exact absurd rfl hRest
    | cons next rest =>
      have hOne : ∀ item ∈ [some (first :: raw)], Accepted item :=
        forall_mem_singleton.mpr ⟨not_not.mp hSize, by rw [hSome]; rfl⟩
      exact (ih.map _).prepend hOne

theorem parseParts_ends (spec : String) (parts : List (List Char)) :
    Ends (parts.flatMap partReadings) (parseParts spec parts) := by
  induction parts with
  | nil => exact .accepts [] nofun
  | cons part rest ih =>
    rw [flatMap_cons, parseParts, partReadings]
    split_ifs with hEmpty
    · exact .refuses _ rfl trivial
    have hRead := parseIndices_ends spec ((part.dropWhile (· ≠ '[')).splitOn ']')
    generalize parseIndices spec ((part.dropWhile (· ≠ '[')).splitOn ']') = read at hRead ⊢
    cases hRead with
    | accepts found hAll => exact (ih.map _).prepend hAll
    | refuses error hFirst hRefused => exact .refuses error (find?_append_of_some hFirst _) hRefused
    | panics hFirst hRefused => exact .panics (find?_append_of_some hFirst _) hRefused

theorem parse_ends (spec : String) : Ends (readings spec) (CompiledPath.parse spec) := by
  rw [CompiledPath.parse, readings]
  refine Ends.map _ ?_
  split_ifs with hEmpty
  · exact .accepts [] nofun
  · exact parseParts_ends spec _

/-! ### The form of a path -/

section Segments

variable (segment : Segment)

theorem Segment.isDigit_of_mem {digits : List Char} (hMem : digits ∈ segment.indices) {c : Char}
    (hChar : c ∈ digits) : c.isDigit = true := by
  have hDecimal := segment.decimal digits hMem
  rw [Text.parseDigits] at hDecimal
  split_ifs at hDecimal with hNot
  · cases hDecimal
  · rw [Bool.not_eq_true, Bool.or_eq_false_iff, Bool.not_eq_false', all_eq_true] at hNot
    exact hNot.2 c hChar

theorem Segment.brackets_cases {c : Char} (hMem : c ∈ segment.indices.flatMap bracketed) :
    c = '[' ∨ c = ']' ∨ c.isDigit = true := by
  obtain ⟨digits, hIdx, hChar⟩ := mem_flatMap.mp hMem
  rcases mem_append.mp hChar with hChar | hChar
  · rcases mem_cons.mp hChar with hChar | hChar
    · exact .inl hChar
    · exact .inr (.inr (segment.isDigit_of_mem hIdx hChar))
  · exact .inr (.inl (mem_singleton.mp hChar))

theorem Segment.dot_notMem : '.' ∉ segment.text := by
  intro hMem
  rcases mem_append.mp hMem with hMem | hMem
  · exact (segment.plain _ hMem).1 rfl
  · rcases segment.brackets_cases hMem with hDot | hDot | hDot <;> exact absurd hDot (by decide)

theorem Segment.dropWhile_text :
    segment.text.dropWhile (· ≠ '[') = segment.indices.flatMap bracketed := by
  have hName : ∀ c ∈ segment.name, decide (c ≠ '[') = true := fun c hMem =>
    decide_eq_true (segment.plain c hMem).2
  rw [Segment.text, dropWhile_append_of_pos hName]
  cases segment.indices with
  | nil => rfl
  | cons digits rest => rfl

theorem isChain_digits {digits rest : List Char} (hDigits : ∀ c ∈ digits, c.isDigit = true)
    (hClose : (']' :: rest).IsChain Follows) : (digits ++ ']' :: rest).IsChain Follows := by
  induction digits with
  | nil => exact hClose
  | cons digit digits ih =>
    obtain ⟨hFirst, hDigits⟩ := forall_mem_cons.mp hDigits
    refine isChain_cons.mpr ⟨fun next _ => ⟨?_, ?_⟩, ih hDigits⟩
    · rintro rfl
      exact absurd hFirst (by decide)
    · rintro rfl
      exact absurd hFirst (by decide)

theorem Segment.follows : (segment.text.dropWhile (· ≠ '[')).IsChain Follows := by
  have hAll : ∀ digits ∈ segment.indices, ∀ c ∈ digits, c.isDigit = true :=
    fun digits hMem c hChar =>
    segment.isDigit_of_mem hMem hChar
  rw [segment.dropWhile_text]
  generalize segment.indices = indices at hAll
  induction indices with
  | nil => exact .nil
  | cons digits rest ih =>
    obtain ⟨hDigits, hRest⟩ := forall_mem_cons.mp hAll
    have hClose : (']' :: rest.flatMap bracketed).IsChain Follows := by
      refine isChain_cons.mpr ⟨fun next hNext => ⟨fun _ => ?_, nofun⟩, ih hRest⟩
      cases rest with
      | nil => cases hNext
      | cons => exact (Option.mem_some_iff.mp hNext).symm
    have hNumber := isChain_digits hDigits hClose
    rw [flatMap_cons, bracketed, cons_append, cons_append, append_assoc, singleton_append]
    refine isChain_cons.mpr ⟨fun next hNext => ⟨nofun, fun _ => ?_⟩, hNumber⟩
    cases digits with
    | nil =>
      cases hNext
      decide
    | cons digit digits =>
      cases hNext
      rintro rfl
      exact absurd (hDigits '+' mem_cons_self) (by decide)

end Segments

/-- The text, without white space around it, is an optional dollar sign, an optional
dot, and the segments with dots between them, whose names and indices are given. -/
def Denotes (text : List Char) (segs : List Seg) : Prop :=
  Text.trim text = text ∧ ∃ dollar ∈ [[], ['$']], ∃ dot ∈ [[], ['.']], ∃ segments : List Segment,
    text = dollar ++ (dot ++ ['.'].intercalate (segments.map Segment.text)) ∧
    segs = segments.flatMap Segment.segs

/-- No index has a sign, and nothing stands between two of them. -/
def CleanBrackets (text : List Char) : Prop :=
  ∀ part ∈ text.splitOn '.', (part.dropWhile (· ≠ '[')).IsChain Follows

theorem cleanBrackets_cons {c : Char} (hOpen : c ≠ '[') (text : List Char) :
    CleanBrackets (c :: text) ↔ CleanBrackets text := by
  rw [CleanBrackets, CleanBrackets, splitOn_cons_eq_if_modifyHead]
  split_ifs with hDot
  · rw [forall_mem_cons]
    exact and_iff_right .nil
  · cases hParts : text.splitOn '.' with
    | nil => exact absurd hParts (splitOn_ne_nil '.' text)
    | cons head tail =>
      have hHead : (c :: head).dropWhile (· ≠ '[') = head.dropWhile (· ≠ '[') :=
        dropWhile_cons_of_pos (decide_eq_true hOpen)
      rw [modifyHead_cons, forall_mem_cons, forall_mem_cons, hHead]

theorem cleanBrackets_stripFirst {c : Char} (hOpen : c ≠ '[') (text : List Char) :
    CleanBrackets (stripFirst c text) ↔ CleanBrackets text := by
  cases text with
  | nil => rfl
  | cons first rest =>
    rw [stripFirst]
    split_ifs with hFirst
    · rw [hFirst, cleanBrackets_cons hOpen]
    · rfl

theorem Denotes.cleanBrackets {text : List Char} {segs : List Seg} (hText : Denotes text segs) :
    CleanBrackets text := by
  obtain ⟨-, dollar, hDollar, dot, hDot, segments, rfl, -⟩ := hText
  have hJoin : CleanBrackets (['.'].intercalate (segments.map Segment.text)) := by
    intro part hMem
    by_cases hNone : segments = []
    · subst hNone
      cases mem_singleton.mp hMem
      exact .nil
    · have hDots : ∀ text ∈ segments.map Segment.text, '.' ∉ text :=
        forall_mem_map.mpr fun segment _ => segment.dot_notMem
      rw [splitOn_intercalate _ hDots (mt map_eq_nil_iff.mp hNone)] at hMem
      obtain ⟨segment, -, rfl⟩ := mem_map.mp hMem
      exact segment.follows
  have hOptional {c : Char} (hOpen : c ≠ '[') {text front : List Char} (hFront : front ∈ [[], [c]])
      (hText : CleanBrackets text) : CleanBrackets (front ++ text) := by
    rcases mem_pair.mp hFront with rfl | rfl
    · exact hText
    · exact (cleanBrackets_cons hOpen text).mpr hText
  exact hOptional (by decide) hDollar (hOptional (by decide) hDot hJoin)

theorem denotes_of_clean {spec : String} {path : CompiledPath}
    (hParsed : CompiledPath.parse spec = some (.ok path)) (hClean : CleanBrackets (bodyOf spec))
    (hTrimmed : Text.trim spec.toList = spec.toList) : Denotes spec.toList path.segs := by
  obtain ⟨dollar, hDollar, hRest⟩ := stripFirst_cases '$' spec.toList
  obtain ⟨dot, hDot, hBody⟩ := stripFirst_cases '.' (stripFirst '$' spec.toList)
  have hText : spec.toList = dollar ++ (dot ++ bodyOf spec) := by
    rw [bodyOf, hTrimmed, ← hBody, ← hRest]
  rw [CompiledPath.parse] at hParsed
  obtain ⟨result, hRes, hMap⟩ := Option.map_eq_some_iff.mp hParsed
  obtain ⟨segs, rfl, rfl⟩ := Outcome.map_eq_ok.mp hMap
  split_ifs at hRes with hEmpty
  · cases hRes
    refine ⟨hTrimmed, dollar, hDollar, dot, hDot, [], ?_, rfl⟩
    rw [hText, isEmpty_iff.mp hEmpty]
    rfl
  · obtain ⟨segments, hParts, rfl⟩ :=
      parseParts_spec (fun _ => notMem_of_mem_splitOn) hClean hRes
    refine ⟨hTrimmed, dollar, hDollar, dot, hDot, segments, ?_, rfl⟩
    rw [hText, ← hParts, intercalate_splitOn]

/-- A path is read without a panic, and an accepted one is made of the names and
indices that it is compiled to, if and only if the first thing that the parser
does not accept is one that it refuses; or it accepts all, the brackets are clean,
and no white space was trimmed. -/
theorem parse_spec_iff (spec : String) :
    (∃ result, CompiledPath.parse spec = some result ∧
      ∀ path, result = .ok path → Denotes spec.toList path.segs) ↔
    (∃ item, (readings spec).find? (¬ Accepted ·) = some item ∧ Refused item) ∨
      ((∀ item ∈ readings spec, Accepted item) ∧ CleanBrackets (bodyOf spec) ∧
        Text.trim spec.toList = spec.toList) := by
  have hEnds := parse_ends spec
  generalize hParse : CompiledPath.parse spec = parsed at hEnds ⊢
  cases hEnds with
  | refuses error hFirst hRefused =>
    exact iff_of_true ⟨_, rfl, nofun⟩ (.inl ⟨_, hFirst, hRefused⟩)
  | panics hFirst hRefused =>
    refine iff_of_false (fun ⟨_, hNone, _⟩ => by cases hNone) ?_
    rintro (⟨item, hItem, hIs⟩ | ⟨hAll, -⟩)
    · rw [hFirst] at hItem
      cases hItem
      exact hRefused hIs
    · have hNot := find?_some hFirst
      exact of_decide_eq_true hNot (hAll _ (mem_of_find?_eq_some hFirst))
  | accepts path hAll =>
    have hFind : (readings spec).find? (¬ Accepted ·) = none := by simpa using hAll
    constructor
    · rintro ⟨result, ⟨⟩, hRes⟩
      have hDenotes := hRes path rfl
      have hTrimmed := hDenotes.1
      refine .inr ⟨hAll, ?_, hTrimmed⟩
      rw [bodyOf, cleanBrackets_stripFirst (by decide), cleanBrackets_stripFirst (by decide),
        hTrimmed]
      exact hDenotes.cleanBrackets
    · rintro (⟨item, hItem, -⟩ | ⟨-, hClean, hTrimmed⟩)
      · rw [hFind] at hItem
        cases hItem
      · refine ⟨_, rfl, fun _ hPath => ?_⟩
        cases hPath
        exact denotes_of_clean hParse hClean hTrimmed

/-- A stray closing bracket panics, and a character before an index is skipped. -/
theorem parse_stray_bracket : CompiledPath.parse "a[0]]" = none ∧
    CompiledPath.parse "a[0]x5]" = some (.ok ⟨[.key "a", .index 0, .index 5], "a[0]x5]"⟩) := by
  exact ⟨rfl, rfl⟩

end MqBridge.SchemaTransform
