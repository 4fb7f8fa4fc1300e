import Mathlib.Data.List.Forall2
import Mathlib.Data.List.Nodup
import Mathlib.Data.List.Induction
import Mathlib.Logic.Function.Basic

/-! Maps that keep their keys in the order in which they were first inserted, as
lists of entries. A key that is inserted again keeps its place. -/
namespace InsertionMap

open List Option

universe u v
variable {K : Type u} {V : Type v} [DecidableEq K]

def lookup (key : K) : List (K × V) → Option V
  | [] => none
  | entry :: rest => if entry.1 = key then some entry.2 else lookup key rest

def insert (key : K) (value : V) : List (K × V) → List (K × V)
  | [] => [(key, value)]
  | entry :: rest => if entry.1 = key then (key, value) :: rest else entry :: insert key value rest

def insertAll (map entries : List (K × V)) : List (K × V) :=
  entries.foldl (fun map entry => insert entry.1 entry.2 map) map

/-- The last entry takes the place of the one that is removed. -/
def swapRemove (key : K) : List (K × V) → List (K × V)
  | [] => []
  | entry :: rest =>
    if entry.1 = key then rest.getLast?.toList ++ rest.dropLast else entry :: swapRemove key rest

/-- Without the entry of a key, the others in their order. -/
def remove (key : K) (map : List (K × V)) : List (K × V) :=
  map.filter fun entry => decide (entry.1 ≠ key)

variable {key other : K} {value : V} {map entries : List (K × V)}

theorem remove_cons (key : K) (entry : K × V) (rest : List (K × V)) :
    remove key (entry :: rest) = if entry.1 = key then remove key rest else
      entry :: remove key rest := by
  split_ifs with hKey
  · simp [remove, hKey]
  · simp [remove, hKey]

theorem lookup_remove (key other : K) (map : List (K × V)) :
    lookup other (remove key map) = if key = other then none else lookup other map := by
  induction map with
  | nil => simp [remove, lookup]
  | cons entry rest ih =>
    rw [remove_cons, lookup]
    by_cases hKey : entry.1 = key
    · rw [if_pos hKey, ih, hKey]
      split_ifs <;> rfl
    · rw [if_neg hKey, lookup, ih]
      split_ifs with hOther hSame
      · exact absurd (hOther.trans hSame.symm) hKey
      all_goals rfl

theorem lookup_insert (key other : K) (value : V) (map : List (K × V)) :
    lookup other (insert key value map) = if key = other then some value else lookup other map := by
  induction map with
  | nil => rfl
  | cons entry rest ih =>
    rw [insert]
    split_ifs with hKey hOther hOther
    · rw [lookup, if_pos hOther]
    · have hEntry : entry.1 ≠ other := fun hSame => hOther (hKey.symm.trans hSame)
      rw [lookup, lookup, if_neg hOther, if_neg hEntry]
    · have hEntry : entry.1 ≠ other := fun hSame => hKey (hSame.trans hOther.symm)
      rw [lookup, if_neg hEntry, ih, if_pos hOther]
    · rw [lookup, lookup, ih, if_neg hOther]

theorem lookup_insertAll_of_notMem (hNew : key ∉ entries.map Prod.fst) (map : List (K × V)) :
    lookup key (insertAll map entries) = lookup key map := by
  induction entries generalizing map with
  | nil => rfl
  | cons entry rest ih =>
    rw [map_cons, mem_cons, not_or] at hNew
    change lookup key (insertAll (insert entry.1 entry.2 map) rest) = _
    rw [ih hNew.2, lookup_insert, if_neg fun hSame => hNew.1 hSame.symm]

/-- The values go by the keys, so it does not matter which of them was last. -/
theorem lookup_insertAll_of_mem {value : K → V}
    (hEntries : ∀ entry ∈ entries, entry.2 = value entry.1)
    (hMem : key ∈ entries.map Prod.fst) (map : List (K × V)) :
    lookup key (insertAll map entries) = some (value key) := by
  induction entries generalizing map with
  | nil => cases hMem
  | cons entry rest ih =>
    change lookup key (insertAll (insert entry.1 entry.2 map) rest) = _
    by_cases hRest : key ∈ rest.map Prod.fst
    · exact ih (fun other hOther => hEntries other (mem_cons_of_mem _ hOther)) hRest _
    · have hKey : key = entry.1 := (mem_cons.mp hMem).resolve_right hRest
      rw [lookup_insertAll_of_notMem hRest, lookup_insert, if_pos hKey.symm,
        hEntries entry mem_cons_self, hKey]

theorem lookup_eq_none : lookup key map = none ↔ key ∉ map.map Prod.fst := by
  induction map with
  | nil => simp [lookup]
  | cons entry rest ih =>
    rw [lookup, map_cons, mem_cons, not_or]
    split_ifs with hKey
    · simp [hKey]
    · rw [ih]
      exact ⟨fun hRest => ⟨fun hSame => hKey hSame.symm, hRest⟩, And.right⟩

theorem insert_of_notMem (hNew : key ∉ map.map Prod.fst) :
    insert key value map = map ++ [(key, value)] := by
  induction map with
  | nil => rfl
  | cons entry rest ih =>
    rw [map_cons, mem_cons, not_or] at hNew
    rw [insert, if_neg fun hSame => hNew.1 hSame.symm, ih hNew.2, cons_append]

/-- A key that is there keeps its place. -/
theorem keys_insert (key : K) (value : V) (map : List (K × V)) :
    (insert key value map).map Prod.fst =
      if key ∈ map.map Prod.fst then map.map Prod.fst else map.map Prod.fst ++ [key] := by
  induction map with
  | nil => rfl
  | cons entry rest ih =>
    rw [insert]
    split_ifs with hKey hMem hMem
    · rw [map_cons, map_cons, hKey]
    · exact absurd (mem_cons.mpr (.inl hKey.symm)) hMem
    · rcases mem_cons.mp hMem with hSame | hRest
      · exact absurd hSame.symm hKey
      · rw [map_cons, ih, if_pos hRest, map_cons]
    · have hRest : key ∉ rest.map Prod.fst := fun hRest => hMem (mem_cons_of_mem _ hRest)
      rw [map_cons, ih, if_neg hRest, map_cons, cons_append]

theorem nodup_insert (hNodup : (map.map Prod.fst).Nodup) :
    ((insert key value map).map Prod.fst).Nodup := by
  rw [keys_insert]
  split_ifs with hMem
  · exact hNodup
  · exact nodup_append.mpr ⟨hNodup, nodup_singleton _, fun a hA b hB hSame =>
      hMem (mem_singleton.mp hB ▸ hSame ▸ hA)⟩

theorem nodup_insertAll (hNodup : (map.map Prod.fst).Nodup) (entries : List (K × V)) :
    ((insertAll map entries).map Prod.fst).Nodup := by
  induction entries generalizing map with
  | nil => exact hNodup
  | cons entry rest ih => exact ih (nodup_insert hNodup)

/-- Entries with different keys are what they make. -/
theorem insertAll_of_nodup (hNodup : ((map ++ entries).map Prod.fst).Nodup) :
    insertAll map entries = map ++ entries := by
  induction entries generalizing map with
  | nil => exact (append_nil map).symm
  | cons entry rest ih =>
    have hNew : entry.1 ∉ map.map Prod.fst := by
      rw [map_append, nodup_append] at hNodup
      exact fun hMem => hNodup.2.2 _ hMem _ mem_cons_self rfl
    change insertAll (insert entry.1 entry.2 map) rest = _
    rw [insert_of_notMem hNew, ih (by rwa [append_assoc]), append_assoc]
    rfl

theorem lookup_eq_some (hNodup : (map.map Prod.fst).Nodup) :
    lookup key map = some value ↔ (key, value) ∈ map := by
  induction map with
  | nil => simp [lookup]
  | cons entry rest ih =>
    rw [map_cons, nodup_cons] at hNodup
    rw [lookup, mem_cons]
    split_ifs with hKey
    · have hRest : (key, value) ∉ rest := fun hMem => hNodup.1 (hKey ▸ mem_map_of_mem hMem)
      rw [some.injEq, or_iff_left hRest, Prod.ext_iff, eq_comm, hKey]
      exact ⟨fun hVal => ⟨rfl, hVal⟩, And.right⟩
    · rw [ih hNodup.2]
      exact ⟨.inr, fun hMem => hMem.resolve_left fun hSame => hKey (congrArg Prod.fst hSame).symm⟩

theorem lookup_perm (hNodup : (map.map Prod.fst).Nodup) (hPerm : map.Perm entries) :
    lookup key map = lookup key entries := by
  have hOther : (entries.map Prod.fst).Nodup := (hPerm.map Prod.fst).nodup_iff.mp hNodup
  refine ext fun value => ?_
  rw [← mem_def, ← mem_def, mem_def, mem_def, lookup_eq_some hNodup,
    lookup_eq_some hOther, hPerm.mem_iff]

omit [DecidableEq K] in
theorem perm_getLast? (map : List (K × V)) : (map.getLast?.toList ++ map.dropLast).Perm map := by
  cases hLast : map.getLast? with
  | none =>
    rw [getLast?_eq_none_iff.mp hLast]
    exact .refl _
  | some last =>
    have hSplit := dropLast_append_getLast? last hLast
    conv_rhs => rw [← hSplit]
    exact perm_append_comm

/-- Every other entry stays, though maybe elsewhere. -/
theorem swapRemove_spec (key : K) (hNodup : (map.map Prod.fst).Nodup) :
    ((swapRemove key map).map Prod.fst).Nodup ∧
      ∀ other, other ≠ key → lookup other (swapRemove key map) = lookup other map := by
  induction map with
  | nil => exact ⟨hNodup, fun _ _ => rfl⟩
  | cons entry rest ih =>
    rw [map_cons, nodup_cons] at hNodup
    obtain ⟨hRest, hLookup⟩ := ih hNodup.2
    rw [swapRemove]
    split_ifs with hKey
    · have hPerm := perm_getLast? rest
      have hMoved := (hPerm.map Prod.fst).nodup_iff.mpr hNodup.2
      refine ⟨hMoved, fun other hOther => ?_⟩
      rw [lookup_perm hMoved hPerm, lookup, if_neg fun hSame => hOther (hSame.symm.trans hKey)]
    · constructor
      · rw [map_cons, nodup_cons, ← lookup_eq_none, hLookup _ hKey, lookup_eq_none]
        exact ⟨hNodup.1, hRest⟩
      · intro other hOther
        rw [lookup, lookup, hLookup other hOther]

end InsertionMap

/-! A map that is collected from a list. Of two entries with one key the later
one stays. -/
namespace LastOf

open List

universe u v w
variable {A : Type u} {K : Type v} {B : Type w} [DecidableEq K] {key : A → K} {value : A → B}

def collect (key : A → K) (value : A → B) (list : List A) : K → Option B :=
  list.foldl (fun map entry => Function.update map (key entry) (some (value entry))) fun _ => none

theorem collect_snoc (list : List A) (last : A) (k : K) : collect key value (list ++ [last]) k =
      if k = key last then some (value last) else collect key value list k := by
  rw [collect, foldl_append, foldl_cons, foldl_nil, Function.update_apply]
  rfl

theorem collect_eq (list : List A) (k : K) :
    collect key value list k =
      (list.filter fun entry => decide (key entry = k)).getLast?.map value := by
  induction list using reverseRecOn with
  | nil => rfl
  | append_singleton list last ih =>
    rw [collect_snoc, ih]
    by_cases hKey : key last = k
    · simp [hKey]
    · simp [hKey, Ne.symm hKey]

theorem exists_of_collect {list : List A} {k : K} {b : B} (h : collect key value list k = some b) :
    ∃ entry ∈ list, key entry = k ∧ value entry = b := by
  rw [collect_eq] at h
  obtain ⟨entry, hLast, hVal⟩ := Option.map_eq_some_iff.mp h
  have hMem := mem_of_getLast? hLast
  rw [mem_filter, decide_eq_true_eq] at hMem
  exact ⟨entry, hMem.1, hMem.2, hVal⟩

theorem ne_of_collect {list : List A} {k : K} (h : collect key value list k = none) :
    ∀ entry ∈ list, key entry ≠ k := by
  rw [collect_eq] at h
  simpa using h

end LastOf
