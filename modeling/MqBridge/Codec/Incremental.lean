import Mathlib.Data.List.Basic

/-! Frames read off the front of a buffer that grows at its end. A frame that is
complete is the same frame when more has arrived, so it does not matter how the input
was cut. -/
namespace Incremental

open List

variable {α β : Type}

/-- A way to take the first complete frame off a buffer. -/
structure Framer (α β : Type) where
  next : List α → Option (β × List α)
  shrinks : ∀ {buffer frame rest}, next buffer = some (frame, rest) → rest.length < buffer.length
  stable : ∀ {buffer frame rest}, next buffer = some (frame, rest) →
    ∀ more, next (buffer ++ more) = some (frame, rest ++ more)

namespace Framer

variable (framer : Framer α β)

/-- The complete frames of a buffer, and what is left of it. -/
def drain (buffer : List α) : List β × List α :=
  match _hNext : framer.next buffer with
  | none => ([], buffer)
  | some (frame, rest) => (frame :: (drain rest).1, (drain rest).2)
termination_by buffer.length
decreasing_by
  all_goals exact framer.shrinks ‹_›

variable {framer} {buffer : List α}

theorem drain_none (hNext : framer.next buffer = none) : framer.drain buffer = ([], buffer) := by
  rw [drain]
  split <;> simp_all

theorem drain_some {frame : β} {rest : List α} (hNext : framer.next buffer = some (frame, rest)) :
    framer.drain buffer = (frame :: (framer.drain rest).1, (framer.drain rest).2) := by
  rw [drain]
  split <;> simp_all

theorem drain_nil : framer.drain [] = ([], []) := by
  cases hNext : framer.next [] with
  | none => exact drain_none hNext
  | some found => exact absurd (framer.shrinks hNext) (Nat.not_lt_zero _)

theorem drain_length (buffer : List α) : (framer.drain buffer).2.length ≤ buffer.length := by
  fun_induction framer.drain buffer with
  | case1 buffer hNext => exact Nat.le_refl _
  | case2 buffer frame rest hNext ih => exact Nat.le_trans ih (Nat.le_of_lt (framer.shrinks hNext))

/-- What is drained before more arrives is the beginning of what is drained then. -/
theorem drain_append (buffer more : List α) : framer.drain (buffer ++ more) =
    ((framer.drain buffer).1 ++ (framer.drain ((framer.drain buffer).2 ++ more)).1,
      (framer.drain ((framer.drain buffer).2 ++ more)).2) := by
  fun_induction framer.drain buffer with
  | case1 buffer hNext => rfl
  | case2 buffer frame rest hNext ih => rw [drain_some (framer.stable hNext more), ih, cons_append]

end Framer
end Incremental
