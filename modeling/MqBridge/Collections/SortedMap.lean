import Mathlib.Order.SuccPred.Basic
import Mathlib.Data.List.Pairwise

/-! Maps as lists of entries in the strict order of their keys, so that the
entries of a map can be visited in that order. -/
namespace Collections

open List

universe u v
variable {K : Type u} {V : Type v} [LinearOrder K]

structure SortedMap (K : Type u) (V : Type v) [LinearOrder K] where
  entries : List (K × V)
  sorted : entries.Pairwise fun a b => a.1 < b.1

namespace SortedMap

/-- Replaces the value at the key, or puts a new entry where it belongs. -/
def alterEntries (key : K) (f : Option V → V) : List (K × V) → List (K × V)
  | [] => [(key, f none)]
  | (k, v) :: rest =>
    if key < k then (key, f none) :: (k, v) :: rest
    else if key = k then (key, f (some v)) :: rest
    else (k, v) :: alterEntries key f rest

def lookupEntries (key : K) : List (K × V) → Option V
  | [] => none
  | (k, v) :: rest => if key = k then some v else lookupEntries key rest

variable {entries : List (K × V)} {key : K}

theorem fst_mem_alterEntries {f : Option V → V} {e : K × V}
    (hMem : e ∈ alterEntries key f entries) : e.1 = key ∨ ∃ old ∈ entries, old.1 = e.1 := by
  induction entries with
  | nil =>
    rw [mem_singleton.mp hMem]
    exact .inl rfl
  | cons head rest ih =>
    obtain ⟨k, v⟩ := head
    rw [alterEntries] at hMem
    split_ifs at hMem with hBefore hSame
    · rcases mem_cons.mp hMem with rfl | hOld
      · exact .inl rfl
      · exact .inr ⟨e, hOld, rfl⟩
    · rcases mem_cons.mp hMem with rfl | hOld
      · exact .inl rfl
      · exact .inr ⟨e, mem_cons_of_mem _ hOld, rfl⟩
    · rcases mem_cons.mp hMem with rfl | hLater
      · exact .inr ⟨_, mem_cons_self .., rfl⟩
      · refine (ih hLater).imp_right ?_
        rintro ⟨old, hOld, hKey⟩
        exact ⟨old, mem_cons_of_mem _ hOld, hKey⟩

theorem alterEntries_sorted (key : K) (f : Option V → V)
    (hSorted : entries.Pairwise fun a b => a.1 < b.1) :
    (alterEntries key f entries).Pairwise fun a b => a.1 < b.1 := by
  induction entries with
  | nil => exact pairwise_singleton _ _
  | cons head rest ih =>
    obtain ⟨k, v⟩ := head
    obtain ⟨hFirst, hRest⟩ := pairwise_cons.mp hSorted
    rw [alterEntries]
    split_ifs with hBefore hSame
    · refine pairwise_cons.mpr ⟨fun e hMem => ?_, hSorted⟩
      rcases mem_cons.mp hMem with rfl | hLater
      · exact hBefore
      · exact hBefore.trans (hFirst e hLater)
    · subst hSame
      exact pairwise_cons.mpr ⟨hFirst, hRest⟩
    · refine pairwise_cons.mpr ⟨fun e hMem => ?_, ih hRest⟩
      rcases fst_mem_alterEntries hMem with hKey | ⟨old, hOld, hKey⟩
      · rw [hKey]
        exact lt_of_le_of_ne (not_lt.mp hBefore) (symm hSame)
      · rw [← hKey]
        exact hFirst old hOld

theorem lookupEntries_eq_some {value : V} (hSorted : entries.Pairwise fun a b => a.1 < b.1) :
    lookupEntries key entries = some value ↔ (key, value) ∈ entries := by
  induction entries with
  | nil => simp [lookupEntries]
  | cons head rest ih =>
    obtain ⟨k, v⟩ := head
    obtain ⟨hFirst, hRest⟩ := pairwise_cons.mp hSorted
    rw [lookupEntries, mem_cons, Prod.mk.injEq]
    split_ifs with hKey
    · have hOnce : (key, value) ∉ rest := fun hMem => (hFirst _ hMem).ne' hKey
      simp only [hKey, Option.some.injEq, true_and]
      exact ⟨fun hVal => .inl hVal.symm, fun hMem => (hMem.resolve_right (hKey ▸ hOnce)).symm⟩
    · simp only [hKey, false_and, false_or]
      exact ih hRest

theorem lookupEntries_eq_none (hBefore : ∀ e ∈ entries, key < e.1) :
    lookupEntries key entries = none := by
  induction entries with
  | nil => rfl
  | cons head rest ih =>
    obtain ⟨k, v⟩ := head
    have hKey : key ≠ k := (hBefore (k, v) (mem_cons_self ..)).ne
    rw [lookupEntries, if_neg hKey]
    exact ih fun e hMem => hBefore e (mem_cons_of_mem _ hMem)

theorem lookupEntries_alterEntries (key k : K) (f : Option V → V)
    (hSorted : entries.Pairwise fun a b => a.1 < b.1) :
    lookupEntries k (alterEntries key f entries) =
      if k = key then some (f (lookupEntries key entries)) else lookupEntries k entries := by
  induction entries with
  | nil => rfl
  | cons head rest ih =>
    obtain ⟨first, v⟩ := head
    obtain ⟨hFirst, hRest⟩ := pairwise_cons.mp hSorted
    rcases lt_trichotomy key first with hBefore | rfl | hBehind
    · have hAbsent : lookupEntries key ((first, v) :: rest) = none := by
        refine lookupEntries_eq_none fun e hMem => ?_
        rcases mem_cons.mp hMem with rfl | hLater
        · exact hBefore
        · exact hBefore.trans (hFirst e hLater)
      rw [alterEntries, if_pos hBefore, hAbsent]
      rfl
    · rw [alterEntries, if_neg (lt_irrefl key)]
      simp only [lookupEntries, if_true]
      split_ifs <;> rfl
    · rw [alterEntries, if_neg hBehind.not_gt]
      simp only [lookupEntries, if_neg hBehind.ne', ih hRest]
      by_cases hKey : k = key
      · subst hKey
        simp only [if_neg hBehind.ne']
      · simp only [if_neg hKey]

def empty : SortedMap K V := ⟨[], List.Pairwise.nil⟩

def lookup (map : SortedMap K V) (key : K) : Option V := lookupEntries key map.entries

def alter (map : SortedMap K V) (key : K) (f : Option V → V) : SortedMap K V :=
  ⟨alterEntries key f map.entries, alterEntries_sorted key f map.sorted⟩

theorem lookup_alter (map : SortedMap K V) (key k : K) (f : Option V → V) :
    (map.alter key f).lookup k = if k = key then some (f (map.lookup key)) else map.lookup k :=
  lookupEntries_alterEntries key k f map.sorted

theorem mem_entries_iff {map : SortedMap K V} {value : V} :
    (key, value) ∈ map.entries ↔ map.lookup key = some value :=
  (lookupEntries_eq_some map.sorted).symm

end SortedMap

end Collections
