import Mathlib.Data.List.Forall2
import Mathlib.Data.List.Nodup

/-! A list whose entries are known by their place. A new entry comes last, an
entry is replaced where it is, and none is taken out: what a place has after
such a change is the new entry, or what it had before. -/
namespace Places

open List

universe u v
variable {A : Type u} {list : List A} {i j : Nat} {a b old : A}

theorem getElem?_snoc_eq_some :
    (list ++ [b])[i]? = some a ↔ list[i]? = some a ∨ (i = list.length ∧ b = a) := by
  rcases Nat.lt_trichotomy i list.length with hLt | rfl | hGt
  · simp [getElem?_append_left hLt, Nat.ne_of_lt hLt]
  · simp
  · have hEnd : (list ++ [b])[i]? = none := by
      rw [getElem?_eq_none_iff, length_append]
      exact hGt
    have hOld : list[i]? = none := getElem?_eq_none (Nat.le_of_lt hGt)
    simp [hEnd, hOld, Nat.ne_of_gt hGt]

theorem getElem?_set_eq_some (hOld : list[i]? = some old) :
    (list.set i b)[j]? = some a ↔ (j = i ∧ b = a) ∨ (j ≠ i ∧ list[j]? = some a) := by
  rcases eq_or_ne j i with rfl | hNe
  · simp [getElem?_set_self (List.getElem?_eq_some_iff.mp hOld).1]
  · simp [getElem?_set_ne hNe.symm, hNe]

theorem nodup_snoc (h : list.Nodup) (hNew : a ∉ list) : (list ++ [a]).Nodup :=
  concat_eq_append ▸ h.concat hNew

theorem forall_mem_snoc {P : A → Prop} (h : ∀ a ∈ list, P a) (hNew : P b) :
    ∀ a ∈ list ++ [b], P a :=
  forall_mem_append.mpr ⟨h, forall_mem_singleton.mpr hNew⟩

theorem pairwise_snoc {R : A → A → Prop} (h : list.Pairwise R) (hNew : ∀ a ∈ list, R a b) :
    (list ++ [b]).Pairwise R :=
  pairwise_append.mpr
    ⟨h, pairwise_singleton _ _, fun a hMem => forall_mem_singleton.mpr (hNew a hMem)⟩

theorem forall_mem_set {P : A → Prop} (h : ∀ a ∈ list, P a) (hNew : P b) (i : Nat) :
    ∀ a ∈ list.set i b, P a := by
  intro a hMem
  rcases mem_or_eq_of_mem_set hMem with hOld | rfl
  · exact h a hOld
  · exact hNew

/-! ### Results place by place -/

variable {B : Type v} {f g : A → Option B} {results : List B}

theorem mapM_eq_some : list.mapM f = some results ↔ list.map f = results.map some := by
  induction list generalizing results with
  | nil => cases results <;> simp
  | cons a rest ih =>
    rw [mapM_cons, map_cons]
    cases results with
    | nil => cases f a <;> simp [Option.bind_eq_some_iff]
    | cons b others =>
      rw [map_cons, cons.injEq, ← ih]
      cases f a <;> cases rest.mapM f <;> simp

theorem forall₂_of_mapM (hList : list.mapM f = some results) :
    Forall₂ (fun a b => f a = some b) list results := by
  rw [mapM_eq_some, ← forall₂_eq_eq_eq, forall₂_map_left_iff, forall₂_map_right_iff] at hList
  exact hList

end Places
