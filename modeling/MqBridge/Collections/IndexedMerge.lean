import Mathlib.Data.List.Nodup
import Mathlib.Logic.Function.Basic
import MqBridge.Collections.Places

/-! A list of values with a map from keys to list positions. The first value
of a key is appended; every later value of that key is combined into the
value that is already there. Keys and values are arbitrary. -/
namespace IndexedMerge

open List Option Function

universe u v
variable {K : Type u} {V : Type v} [DecidableEq K]

structure Table (K : Type u) (V : Type v) where
  items : List V
  index : K → Option Nat

def Table.empty : Table K V := ⟨[], fun _ => none⟩

def Table.insert (combine : V → V → V) (t : Table K V) (entry : K × V) : Table K V :=
  match t.index entry.1 with
  | some position => { t with items := t.items.modify position (combine · entry.2) }
  | none => ⟨t.items ++ [entry.2], update t.index entry.1 (some t.items.length)⟩

def Table.insertAll (combine : V → V → V) (t : Table K V) (entries : List (K × V)) : Table K V :=
  entries.foldl (Table.insert combine) t

def valuesOf (entries : List (K × V)) (k : K) : List V :=
  (entries.filter fun entry => decide (entry.1 = k)).map Prod.snd

def combined (combine : V → V → V) : List V → Option V
  | [] => none
  | first :: rest => some (rest.foldl combine first)

theorem valuesOf_append (entries more : List (K × V)) (k : K) :
    valuesOf (entries ++ more) k = valuesOf entries k ++ valuesOf more k := by
  simp [valuesOf]

variable (entry : K × V)

theorem valuesOf_singleton (k : K) :
    valuesOf [entry] k = if entry.1 = k then [entry.2] else [] := by
  by_cases h : entry.1 = k <;> simp [valuesOf, h]

theorem valuesOf_flatMap {A : Type*} (f : A → List (K × V)) (parts : List A) (k : K) :
    valuesOf (parts.flatMap f) k = parts.flatMap fun part => valuesOf (f part) k := by
  induction parts with
  | nil => rfl
  | cons part rest ih => rw [flatMap_cons, valuesOf_append, ih, flatMap_cons]

variable (combine : V → V → V)

theorem combined_snoc (values : List V) (last : V) :
    combined combine (values ++ [last]) =
      some (match combined combine values with
        | some value => combine value last
        | none => last) := by
  cases values with
  | nil => rfl
  | cons first rest => simp [combined]

theorem combined_eq_none {combine : V → V → V} {values : List V} :
    combined combine values = none ↔ values = [] := by
  cases values <;> simp [combined]

/-- The table holds one item for each key that occurs, namely the combined
values of that key, and finds it at the position of the key. -/
structure Holds (combine : V → V → V) (t : Table K V) (entries : List (K × V))
    (keys : List K) : Prop where
  nodup : keys.Nodup
  occurs : ∀ k, k ∈ keys ↔ valuesOf entries k ≠ []
  items : t.items.map some = keys.map fun k => combined combine (valuesOf entries k)
  index : ∀ k position, t.index k = some position ↔ keys[position]? = some k

theorem Holds.empty : Holds combine (Table.empty : Table K V) [] [] where
  nodup := nodup_nil
  occurs := by simp [valuesOf]
  items := rfl
  index := by simp [Table.empty]

section Insert
variable {combine : V → V → V} {t : Table K V} {entries : List (K × V)} {keys : List K}

variable (h : Holds combine t entries keys)

include h

theorem Holds.length_eq : t.items.length = keys.length := by
  have hLen := congrArg length h.items
  simpa using hLen

/-- Inserting at a known key changes the item of that key only. -/
theorem Holds.insert_known {position : Nat}
    (hKnown : t.index entry.1 = some position) :
    Holds combine (t.insert combine entry) (entries ++ [entry]) keys := by
  have hKey := (h.index entry.1 position).mp hKnown
  obtain ⟨hBound, hAt⟩ := List.getElem?_eq_some_iff.mp hKey
  have hInsert : t.insert combine entry =
      { t with items := t.items.modify position (combine · entry.2) } := by
    simp [Table.insert, hKnown]
  rw [hInsert]
  refine ⟨h.nodup, ?_, ?_, h.index⟩
  · intro k
    rw [h.occurs k, valuesOf_append, valuesOf_singleton]
    split_ifs with hk
    · have hOld := (h.occurs entry.1).mp (hAt ▸ getElem_mem hBound)
      rw [hk] at hOld
      simp [hOld]
    · simp
  · apply ext_getElem?
    intro i
    have hOld := congrArg (fun l => l[i]?) h.items
    simp only [getElem?_map] at hOld ⊢
    rw [getElem?_modify]
    cases hi : keys[i]? with
    | none =>
      rw [hi] at hOld
      have hNone : t.items[i]? = none := by simpa using hOld
      simp [hNone]
    | some k =>
      rw [hi] at hOld
      obtain ⟨value, hItem, hVal⟩ := map_eq_some_iff.mp hOld
      rw [hItem, map_some, valuesOf_append, valuesOf_singleton]
      by_cases hSame : position = i
      · subst i
        obtain rfl : k = entry.1 := some.inj (hi.symm.trans hKey)
        simp [combined_snoc, ← hVal]
      · have hOther : entry.1 ≠ k := by
          intro hk
          rw [← hk] at hi
          exact hSame (some.inj (hKnown.symm.trans ((h.index entry.1 i).mpr hi)))
        simp only [hSame, if_neg hOther, append_nil]
        exact congrArg some hVal

/-- Inserting at a new key appends its item and leaves the others. -/
theorem Holds.insert_new (hNew : t.index entry.1 = none) :
    Holds combine (t.insert combine entry) (entries ++ [entry]) (keys ++ [entry.1]) := by
  have hAbsent : entry.1 ∉ keys := by
    intro hMem
    obtain ⟨i, hi⟩ := mem_iff_getElem?.mp hMem
    have hSome := (h.index entry.1 i).mpr hi
    rw [hNew] at hSome
    cases hSome
  have hNone : valuesOf entries entry.1 = [] := by
    by_contra hSome
    exact hAbsent ((h.occurs entry.1).mpr hSome)
  have hInsert : t.insert combine entry =
      ⟨t.items ++ [entry.2], update t.index entry.1 (some t.items.length)⟩ := by
    simp [Table.insert, hNew]
  rw [hInsert]
  refine ⟨?_, ?_, ?_, ?_⟩
  · rw [nodup_append]
    refine ⟨h.nodup, nodup_singleton _, ?_⟩
    intro a ha b hb hab
    rw [mem_singleton] at hb
    exact hAbsent (hb ▸ hab ▸ ha)
  · intro k
    rw [mem_append, h.occurs k, valuesOf_append, valuesOf_singleton]
    by_cases hk : entry.1 = k
    · simp [hk]
    · simp [hk, Ne.symm hk]
  · rw [map_append, map_append, h.items]
    congr 1
    · apply map_congr_left
      intro k hk
      have hOther : entry.1 ≠ k := fun he => hAbsent (he ▸ hk)
      rw [valuesOf_append, valuesOf_singleton, if_neg hOther, append_nil]
    · simp [valuesOf_append, valuesOf_singleton, hNone, combined]
  · intro k position
    change update t.index entry.1 (some t.items.length) k = some position ↔ _
    rw [update_apply]
    split_ifs with hk
    · subst hk
      rw [some.injEq, h.length_eq, Places.getElem?_snoc_eq_some]
      constructor
      · exact fun hLast => .inr ⟨hLast.symm, rfl⟩
      · rintro (hAt | ⟨hLast, -⟩)
        · exact False.elim (hAbsent (mem_iff_getElem?.mpr ⟨position, hAt⟩))
        · exact hLast.symm
    · rw [h.index k position, Places.getElem?_snoc_eq_some]
      exact ⟨.inl, fun hAt => hAt.resolve_right fun hLast => hk hLast.2.symm⟩

theorem Holds.insert :
    ∃ keys', Holds combine (t.insert combine entry) (entries ++ [entry]) keys' := by
  cases hIdx : t.index entry.1 with
  | some position => exact ⟨keys, h.insert_known entry hIdx⟩
  | none => exact ⟨keys ++ [entry.1], h.insert_new entry hIdx⟩

end Insert

theorem insertAll_holds_from {combine : V → V → V} {t : Table K V} {done : List (K × V)}
    {keys : List K} (h : Holds combine t done keys) (entries : List (K × V)) :
    ∃ keys', Holds combine (t.insertAll combine entries) (done ++ entries) keys' := by
  induction entries generalizing t done keys with
  | nil =>
    rw [append_nil]
    exact ⟨keys, h⟩
  | cons entry rest ih =>
    obtain ⟨keys', hNext⟩ := h.insert entry
    have hRest := ih hNext
    rwa [append_assoc] at hRest

/-- The table made of a list of entries, whatever keys repeat in it. -/
theorem insertAll_holds (entries : List (K × V)) :
    ∃ keys, Holds combine (Table.empty.insertAll combine entries) entries keys :=
  insertAll_holds_from (Holds.empty combine) entries

section Items
variable {combine : V → V → V} {t : Table K V} {entries : List (K × V)} {keys : List K}

/-- Membership in the list, by keys. -/
theorem Holds.mem_items (h : Holds combine t entries keys) (value : V) :
    value ∈ t.items ↔ ∃ k, combined combine (valuesOf entries k) = some value := by
  have hSome : value ∈ t.items ↔ some value ∈ t.items.map some := by simp
  rw [hSome, h.items, List.mem_map]
  constructor
  · rintro ⟨k, -, hk⟩
    exact ⟨k, hk⟩
  · rintro ⟨k, hk⟩
    refine ⟨k, (h.occurs k).mpr ?_, hk⟩
    intro hNone
    rw [hNone] at hk
    cases hk

/-- Exactly one item has a property if exactly one key has such an item. -/
theorem Holds.countP_items_eq_one (h : Holds combine t entries keys) (p : V → Bool) :
    t.items.countP p = 1 ↔
      ∃ k, ∀ other, (∃ value, combined combine (valuesOf entries other) = some value ∧
        p value = true) ↔ other = k := by
  let q : K → Bool := fun k => (combined combine (valuesOf entries k)).any p
  have hCount : t.items.countP p = (keys.filter q).length := by
    have hSome : t.items.countP p = (t.items.map some).countP fun value => value.any p := by
      simp [comp_def]
    rw [hSome, h.items, countP_map, countP_eq_length_filter]
    rfl
  have hMem : ∀ k, k ∈ keys.filter q ↔
      ∃ value, combined combine (valuesOf entries k) = some value ∧ p value = true := by
    intro k
    rw [mem_filter, h.occurs k]
    simp only [q, Option.any_eq_true]
    refine and_iff_right_of_imp ?_
    rintro ⟨value, hVal, -⟩ hNone
    rw [hNone] at hVal
    cases hVal
  rw [hCount, length_eq_one_iff]
  constructor
  · rintro ⟨k, hk⟩
    refine ⟨k, fun other => ?_⟩
    rw [← hMem, hk, mem_singleton]
  · rintro ⟨k, hk⟩
    refine ⟨k, perm_singleton.mp ?_⟩
    apply (perm_ext_iff_of_nodup (h.nodup.filter q) (nodup_singleton k)).mpr
    intro other
    rw [hMem, hk, mem_singleton]

end Items
end IndexedMerge
