import Mathlib.Order.SuccPred.Basic
import MqBridge.Collections.Places

/-! Sets of points of a discrete linear order, kept as lists of closed
intervals. A list is built from left to right: each interval is put behind the
others, or glued to the last one when no point lies between the two. The order
may have a largest point, which is then its own successor. -/
namespace IntervalSet

open List

universe u
variable {α : Type u} [LinearOrder α]

def Covers (ranges : List (α × α)) (p : α) : Prop := ∃ r ∈ ranges, r.1 ≤ p ∧ p ≤ r.2

variable {p : α}

theorem covers_append {first second : List (α × α)} :
    Covers (first ++ second) p ↔ Covers first p ∨ Covers second p := by
  simp only [Covers, mem_append, or_and_right, exists_or]

theorem covers_singleton {r : α × α} : Covers [r] p ↔ r.1 ≤ p ∧ p ≤ r.2 := by
  simp only [Covers, mem_singleton, exists_eq_left]

theorem covers_perm {first second : List (α × α)} (hPerm : first.Perm second) :
    Covers first p ↔ Covers second p := by
  simp only [Covers, hPerm.mem_iff]

variable [SuccOrder α]

/-- No interval is empty, and between two of them there is a gap. -/
structure Normal (ranges : List (α × α)) : Prop where
  valid : ∀ r ∈ ranges, r.1 ≤ r.2
  apart : ranges.Pairwise fun a b => Order.succ a.2 < b.1

def push (ranges : List (α × α)) (r : α × α) : List (α × α) :=
  match ranges.getLast? with
  | some last =>
    if r.1 ≤ Order.succ last.2 then ranges.dropLast ++ [(last.1, max last.2 r.2)]
    else ranges ++ [r]
  | none => [r]

def coalesce (ranges : List (α × α)) : List (α × α) := ranges.foldl push []

theorem normal_nil : Normal ([] : List (α × α)) :=
  ⟨nofun, List.Pairwise.nil⟩

/-- What a push does: it starts the list, glues to the last interval, or
leaves a gap to it. -/
theorem push_cases (ranges : List (α × α)) (r : α × α) : (ranges = [] ∧ push ranges r = [r]) ∨
      ∃ front last, ranges = front ++ [last] ∧
        ((r.1 ≤ Order.succ last.2 ∧ push ranges r = front ++ [(last.1, max last.2 r.2)]) ∨
          (Order.succ last.2 < r.1 ∧ push ranges r = front ++ [last] ++ [r])) := by
  rcases eq_nil_or_concat ranges with rfl | ⟨front, last, rfl⟩
  · exact .inl ⟨rfl, rfl⟩
  · refine .inr ⟨front, last, concat_eq_append, ?_⟩
    by_cases hGlue : r.1 ≤ Order.succ last.2
    · exact .inl ⟨hGlue, by simp [push, hGlue]⟩
    · exact .inr ⟨not_le.mp hGlue, by simp [push, hGlue]⟩

/-- Two intervals with no point between them cover what their hull covers. -/
theorem mem_glue_iff {last r : α × α} (hStart : last.1 ≤ r.1) (hGlue : r.1 ≤ Order.succ last.2) :
    (last.1 ≤ p ∧ p ≤ max last.2 r.2) ↔
      (last.1 ≤ p ∧ p ≤ last.2) ∨ (r.1 ≤ p ∧ p ≤ r.2) := by
  rw [le_max_iff]
  constructor
  · rintro ⟨hLow, hHigh⟩
    rcases le_or_gt p last.2 with hIn | hBehind
    · exact .inl ⟨hLow, hIn⟩
    · refine .inr ⟨hGlue.trans (Order.succ_le_of_lt hBehind), ?_⟩
      exact hHigh.resolve_left (not_le.mpr hBehind)
  · rintro (⟨hLow, hHigh⟩ | ⟨hLow, hHigh⟩)
    · exact ⟨hLow, .inl hHigh⟩
    · exact ⟨hStart.trans hLow, .inr hHigh⟩

section Push
variable {ranges : List (α × α)} {r : α × α}

theorem covers_push (hStarts : ∀ a ∈ ranges, a.1 ≤ r.1) :
    Covers (push ranges r) p ↔ Covers ranges p ∨ (r.1 ≤ p ∧ p ≤ r.2) := by
  rcases push_cases ranges r with ⟨rfl, hPush⟩ | ⟨front, last, rfl, hPush⟩
  · rw [hPush]
    simp [Covers]
  · rcases hPush with ⟨hGlue, hPush⟩ | ⟨-, hPush⟩
    · have hLast := hStarts last (mem_append_right _ (mem_singleton_self last))
      rw [hPush, covers_append, covers_append, covers_singleton, covers_singleton,
        mem_glue_iff hLast hGlue, or_assoc]
    · rw [hPush, covers_append, covers_singleton]

theorem push_normal (h : Normal ranges) (hValid : r.1 ≤ r.2)
    (hStarts : ∀ a ∈ ranges, a.1 ≤ r.1) : Normal (push ranges r) := by
  rcases push_cases ranges r with ⟨rfl, hPush⟩ | ⟨front, last, rfl, hPush⟩
  · exact ⟨fun a hMem => mem_singleton.mp hMem ▸ hValid, pairwise_singleton _ _⟩
  · have hLast : last ∈ front ++ [last] := mem_concat_self
    obtain ⟨hFront, -, hBefore⟩ := pairwise_append.mp h.apart
    rcases hPush with ⟨-, hPush⟩ | ⟨hGap, hPush⟩
    · rw [hPush]
      refine ⟨Places.forall_mem_snoc (fun a hMem => h.valid a (mem_append_left _ hMem)) ?_,
        Places.pairwise_snoc hFront fun a hMem => hBefore a hMem last (mem_singleton_self last)⟩
      exact (h.valid last hLast).trans (le_max_left _ _)
    · rw [hPush]
      refine ⟨Places.forall_mem_snoc h.valid hValid,
        Places.pairwise_snoc h.apart (Places.forall_mem_snoc ?_ hGap)⟩
      exact fun a hMem =>
        (hBefore a hMem last (mem_singleton_self last)).trans_le (hStarts last hLast)

/-- No interval starts behind the one that was pushed. -/
theorem push_starts {s : α} (hStarts : ∀ a ∈ ranges, a.1 ≤ s) (hStart : r.1 ≤ s) :
    ∀ a ∈ push ranges r, a.1 ≤ s := by
  rcases push_cases ranges r with ⟨rfl, hPush⟩ | ⟨front, last, rfl, ⟨-, hPush⟩ | ⟨-, hPush⟩⟩
  · exact forall_mem_singleton.mpr hStart
  · rw [hPush]
    exact Places.forall_mem_snoc (fun a hMem => hStarts a (mem_append_left _ hMem))
      (hStarts last mem_concat_self)
  · rw [hPush]
    exact Places.forall_mem_snoc hStarts hStart

end Push

/-- Pushing intervals in the order of their starts. -/
theorem foldl_push {built rest : List (α × α)} (hBuilt : Normal built)
    (hValid : ∀ r ∈ rest, r.1 ≤ r.2) (hSorted : rest.Pairwise fun a b => a.1 ≤ b.1)
    (hStarts : ∀ a ∈ built, ∀ r ∈ rest, a.1 ≤ r.1) : Normal (rest.foldl push built) ∧
      ∀ p, Covers (rest.foldl push built) p ↔ Covers built p ∨ Covers rest p := by
  induction rest generalizing built with
  | nil => exact ⟨hBuilt, fun p => by simp [Covers]⟩
  | cons r rest ih =>
    obtain ⟨hFirst, hLater⟩ := pairwise_cons.mp hSorted
    have hBefore : ∀ a ∈ built, a.1 ≤ r.1 := fun a hMem => hStarts a hMem r (mem_cons_self ..)
    have hNext : ∀ a ∈ push built r, ∀ b ∈ rest, a.1 ≤ b.1 := fun a hMem b hB =>
      push_starts (fun c hC => hStarts c hC b (mem_cons_of_mem _ hB)) (hFirst b hB) a hMem
    obtain ⟨hNormal, hCovers⟩ := ih
      (push_normal hBuilt (hValid r (mem_cons_self ..)) hBefore)
      (fun b hB => hValid b (mem_cons_of_mem _ hB)) hLater hNext
    refine ⟨hNormal, fun p => ?_⟩
    rw [foldl_cons, hCovers p, covers_push hBefore, or_assoc, ← covers_singleton, ← covers_append,
      singleton_append]

theorem coalesce_spec {ranges : List (α × α)} (hValid : ∀ r ∈ ranges, r.1 ≤ r.2)
    (hSorted : ranges.Pairwise fun a b => a.1 ≤ b.1) :
    Normal (coalesce ranges) ∧ ∀ p, Covers (coalesce ranges) p ↔ Covers ranges p := by
  obtain ⟨hNormal, hCovers⟩ := foldl_push normal_nil hValid hSorted
    nofun
  exact ⟨hNormal, fun p => (hCovers p).trans (by simp [Covers])⟩

end IntervalSet
