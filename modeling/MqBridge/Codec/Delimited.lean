import Mathlib.Data.List.Infix

/-! Reading a stream up to a place where a condition on what was read so far is
met, and pieces that end in a delimiter. A delimiter that a piece does not
contain may still begin inside it: it can overlap itself. -/
namespace Delimited

open List

universe u
variable {α : Type u}

/-- Reads one item at least, and on until the condition holds or the input ends. -/
def upTo (stop : List α → Bool) : List α → List α → List α × List α
  | read, [] => (read, [])
  | read, x :: rest =>
    if stop (read ++ [x]) then (read ++ [x], rest) else upTo stop (read ++ [x]) rest

/-- The condition holds after the piece, and not before it. -/
structure First (stop : List α → Bool) (read piece : List α) : Prop where
  nonempty : piece ≠ []
  stops : stop (read ++ piece) = true
  first : ∀ p, p <+: piece → p ≠ [] → stop (read ++ p) = true → p = piece

def Passes (stop : List α → Bool) (read piece : List α) : Prop :=
  ∀ p, p <+: piece → p ≠ [] → stop (read ++ p) = false

/-- All pieces of the input, each read from the beginning. The number bounds
the reads; one for each item is enough. -/
def pieces (stop : List α → Bool) : Nat → List α → List (List α)
  | 0, _ => []
  | _, [] => []
  | fuel + 1, x :: rest =>
    (upTo stop [] (x :: rest)).1 :: pieces stop fuel (upTo stop [] (x :: rest)).2

section Reading

variable {stop more : List α → Bool} {read piece rest input : List α}

theorem upTo_append (stop : List α → Bool) (read input : List α) :
    (upTo stop read input).1 ++ (upTo stop read input).2 = read ++ input := by
  induction input generalizing read with
  | nil => simp [upTo]
  | cons x rest ih =>
    rw [upTo]
    split_ifs with hStop
    · simp
    · rw [ih]
      simp

theorem upTo_extends (stop : List α → Bool) (read input : List α) :
    read <+: (upTo stop read input).1 := by
  induction input generalizing read with
  | nil => exact prefix_refl read
  | cons x rest ih =>
    rw [upTo]
    split_ifs
    · exact prefix_append read [x]
    · exact (prefix_append read [x]).trans (ih (read ++ [x]))

/-- Input is left only where the condition held. -/
theorem upTo_stops {read input : List α} (hRest : (upTo stop read input).2 ≠ []) :
    stop (upTo stop read input).1 = true := by
  induction input generalizing read with
  | nil => exact absurd rfl hRest
  | cons x rest ih =>
    rw [upTo] at hRest ⊢
    split_ifs at hRest ⊢ with hStop
    · exact hStop
    · exact ih hRest

theorem upTo_shorter (stop : List α → Bool) (read : List α) (x : α) (rest : List α) :
    (upTo stop read (x :: rest)).2.length < (x :: rest).length := by
  rw [upTo]
  split_ifs
  · exact Nat.lt_succ_self _
  · have hLengths := congrArg length (upTo_append stop (read ++ [x]) rest)
    have hPre := (upTo_extends stop (read ++ [x]) rest).length_le
    simp only [length_append, length_cons] at hLengths hPre ⊢
    omega

theorem upTo_ne_nil (x : α) (rest : List α) : (upTo stop [] (x :: rest)).1 ≠ [] := by
  intro hNil
  have hAll := upTo_append stop [] (x :: rest)
  have hShorter := upTo_shorter stop [] x rest
  rw [hNil, nil_append] at hAll
  rw [hAll] at hShorter
  exact lt_irrefl _ hShorter

theorem upTo_first (hFirst : First stop read piece) (rest : List α) :
    upTo stop read (piece ++ rest) = (read ++ piece, rest) := by
  induction piece generalizing read with
  | nil => exact absurd rfl hFirst.nonempty
  | cons x piece ih =>
    rw [cons_append, upTo]
    split_ifs with hStop
    · have hWhole := hFirst.first [x] (prefix_append [x] piece) (cons_ne_nil x []) hStop
      obtain rfl := (cons.inj hWhole).2
      rfl
    · have hSplit (p : List α) : read ++ [x] ++ p = read ++ x :: p := by simp
      rw [← hSplit piece]
      apply ih
      refine ⟨?_, ?_, fun p hPre _ hStops => ?_⟩
      · rintro rfl
        exact hStop hFirst.stops
      · rw [hSplit]
        exact hFirst.stops
      · rw [hSplit] at hStops
        have hWhole :=
          hFirst.first (x :: p) (cons_prefix_cons.mpr ⟨rfl, hPre⟩) (cons_ne_nil x p) hStops
        exact (cons.inj hWhole).2

/-- Nothing is read beyond a place where the condition holds. -/
theorem upTo_length_le {p : List α} (hPre : p <+: input) (hSome : p ≠ [])
    (hStops : stop (read ++ p) = true) : (upTo stop read input).1.length ≤ (read ++ p).length := by
  induction input generalizing read p with
  | nil => exact absurd (prefix_nil.mp hPre) hSome
  | cons x rest ih =>
    obtain ⟨y, q, rfl⟩ := exists_cons_of_ne_nil hSome
    obtain ⟨rfl, hRest⟩ := cons_prefix_cons.mp hPre
    rw [upTo]
    split_ifs with hStop
    · simp
    · have hSplit : read ++ y :: q = read ++ [y] ++ q := by simp
      have hNe : q ≠ [] := by
        rintro rfl
        exact hStop hStops
      rw [hSplit] at hStops ⊢
      exact ih hRest hNe hStops

/-- With a further condition, reading goes on from where the first one held. -/
theorem upTo_and (read input : List α) : upTo (fun p => stop p && more p) read input =
      if more (upTo stop read input).1 = true ∨ (upTo stop read input).2 = [] then
        upTo stop read input
      else upTo (fun p => stop p && more p) (upTo stop read input).1 (upTo stop read input).2 := by
  induction input generalizing read with
  | nil => simp [upTo]
  | cons x rest ih =>
    by_cases hStop : stop (read ++ [x]) = true
    · have hRead : upTo stop read (x :: rest) = (read ++ [x], rest) := by rw [upTo, if_pos hStop]
      rw [hRead]
      by_cases hMore : more (read ++ [x]) = true
      · simp [upTo, hStop, hMore]
      · cases rest <;> simp [upTo, hMore]
    · have hRead :
          upTo stop read (x :: rest) = upTo stop (read ++ [x]) rest := by rw [upTo, if_neg hStop]
      rw [hRead, ← ih (read ++ [x]), upTo]
      simp [hStop]

theorem pieces_flatten {pieces : List (List α)} (hPieces : ∀ piece ∈ pieces, First stop [] piece)
    {fuel : Nat} (hFuel : pieces.flatten.length ≤ fuel) :
    Delimited.pieces stop fuel pieces.flatten = pieces := by
  induction pieces generalizing fuel with
  | nil => cases fuel <;> rfl
  | cons piece pieces ih =>
    obtain ⟨hFirst, hRest⟩ := forall_mem_cons.mp hPieces
    have hRead := upTo_first hFirst pieces.flatten
    obtain ⟨x, tail, rfl⟩ := exists_cons_of_ne_nil hFirst.nonempty
    rw [flatten_cons, length_append, length_cons] at hFuel
    cases fuel with
    | zero => omega
    | succ fuel =>
      rw [flatten_cons, cons_append, Delimited.pieces, ← cons_append, hRead, ih hRest (by omega),
        nil_append]

theorem First.congr {other : List α → Bool} (hFirst : First stop read piece)
    (hSame : ∀ p, p <+: piece → other (read ++ p) = stop (read ++ p)) : First other read piece := by
  refine ⟨hFirst.nonempty, (hSame piece (prefix_refl piece)).trans hFirst.stops,
    fun p hPre hNe hStops => ?_⟩
  exact hFirst.first p hPre hNe ((hSame p hPre).symm.trans hStops)

theorem prefix_append_cases {p a b : List α} (hPre : p <+: a ++ b) :
    p <+: a ∨ ∃ q, p = a ++ q ∧ q ≠ [] ∧ q <+: b := by
  rcases lt_or_ge a.length p.length with hLong | hShort
  · obtain ⟨q, rfl⟩ := prefix_of_prefix_length_le (prefix_append a b) hPre hLong.le
    refine .inr ⟨q, rfl, ?_, (prefix_append_right_inj a).mp hPre⟩
    rintro rfl
    simp at hLong
  · exact .inl (prefix_of_prefix_length_le hPre (prefix_append a b) hShort)

theorem Passes.append {next : List α} (hPasses : Passes stop read piece)
    (hNext : Passes stop (read ++ piece) next) : Passes stop read (piece ++ next) := by
  intro p hPre hNe
  rcases prefix_append_cases hPre with hBefore | ⟨q, rfl, hSome, hAfter⟩
  · exact hPasses p hBefore hNe
  · rw [← append_assoc]
    exact hNext q hAfter hSome

theorem Passes.first {next : List α} (hPasses : Passes stop read piece)
    (hFirst : First stop (read ++ piece) next) : First stop read (piece ++ next) := by
  refine ⟨append_ne_nil_of_right_ne_nil piece hFirst.nonempty, ?_, fun p hPre hNe hStops => ?_⟩
  · rw [← append_assoc]
    exact hFirst.stops
  · rcases prefix_append_cases hPre with hBefore | ⟨q, rfl, hSome, hAfter⟩
    · rw [hPasses p hBefore hNe] at hStops
      cases hStops
    · rw [← append_assoc] at hStops
      rw [hFirst.first q hAfter hSome hStops]

end Reading

section Delimiter

variable {delimiter body : List α}

/-- Where the delimiter begins anew inside itself, the body does not end with
what is before that place. -/
def Clear (delimiter body : List α) : Prop :=
  ∀ k, 0 < k → k < delimiter.length → delimiter.drop k <+: delimiter → ¬ delimiter.take k <:+ body

/-- A delimiter after something that ends in a foreign item is after it as a whole. -/
theorem suffix_of_append {read p : List α} (hLast : ∀ x ∈ read.getLast?, x ∉ delimiter)
    (hSuffix : delimiter <:+ read ++ p) : delimiter <:+ p := by
  obtain ⟨q, hQ⟩ := hSuffix
  rcases append_eq_append_iff.mp hQ with ⟨excess, hRead, hDelim⟩ | ⟨skipped, -, hP⟩
  · cases hExcess : excess.getLast? with
    | none =>
      rw [getLast?_eq_none_iff.mp hExcess, nil_append] at hDelim
      rw [hDelim]
    | some x =>
      have hMem : x ∈ delimiter := by
        rw [hDelim]
        exact mem_append_left p (mem_of_getLast? hExcess)
      have hNe : excess ≠ [] := by
        rintro rfl
        cases hExcess
      refine absurd hMem (hLast x ?_)
      rw [hRead, getLast?_append_of_ne_nil q hNe]
      exact hExcess
  · rw [hP]
    exact suffix_append skipped delimiter

variable [DecidableEq α]

def endsIn (delimiter read : List α) : Bool := decide (delimiter <:+ read)

/-- In a clear body that does not contain the delimiter, it is found at the end. -/
theorem first_of_clear (hClear : Clear delimiter body) (hNot : ¬ delimiter <:+: body)
    (hSome : delimiter ≠ []) : First (endsIn delimiter) [] (body ++ delimiter) := by
  refine ⟨append_ne_nil_of_right_ne_nil body hSome,
    decide_eq_true (suffix_append body delimiter), fun p hPre _ hEnds => ?_⟩
  obtain ⟨q, rfl⟩ := of_decide_eq_true hEnds
  rcases lt_or_ge q.length body.length with hShort | hLong
  · exfalso
    have hQ : q <+: body :=
      prefix_of_prefix_length_le ((prefix_append q delimiter).trans hPre)
        (prefix_append body delimiter) hShort.le
    obtain ⟨s, rfl⟩ := hQ
    rw [append_assoc, prefix_append_right_inj] at hPre
    rcases lt_or_ge s.length delimiter.length with hInside | hBefore
    · -- the delimiter is found early, in the end of the body and its own beginning
      have hTake : s = delimiter.take s.length := by
        have hS := prefix_of_prefix_length_le (prefix_append s delimiter) hPre hInside.le
        exact prefix_iff_eq_take.mp hS
      refine hClear s.length ?_ hInside ?_ ?_
      · rw [length_append] at hShort
        omega
      · have hDrop := hPre.drop s.length
        rwa [drop_left] at hDrop
      · rw [← hTake]
        exact suffix_append q s
    · have hIn := prefix_of_prefix_length_le hPre (prefix_append s delimiter) hBefore
      exact hNot (hIn.isInfix.trans (suffix_append q s).isInfix)
  · have hLen := hPre.length_le
    simp only [length_append] at hLen
    exact hPre.eq_of_length (by simp only [length_append]; omega)

/-- In a body that is not clear, the delimiter is found before its end. -/
theorem early_of_not_clear (hNot : ¬ Clear delimiter body) : ∃ p, p <+: body ++ delimiter ∧
    endsIn delimiter p = true ∧ p.length < (body ++ delimiter).length := by
  simp only [Clear, not_forall, Classical.not_not] at hNot
  obtain ⟨k, hPos, hLt, hOverlap, before, rfl⟩ := hNot
  have hHead : delimiter <+: delimiter.take k ++ delimiter := by
    conv_lhs => rw [← take_append_drop k delimiter]
    exact (prefix_append_right_inj _).mpr hOverlap
  refine ⟨before ++ delimiter, ?_, decide_eq_true (suffix_append before delimiter), ?_⟩
  · rw [append_assoc]
    exact (prefix_append_right_inj _).mpr hHead
  · simp only [length_append, length_take]
    omega

end Delimiter

end Delimited
