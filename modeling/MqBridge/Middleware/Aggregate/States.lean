import Mathlib.Data.Finmap
import Mathlib.Logic.Function.Basic

/-! The states of one entry in memory. They live in two generations, so that
the ones used least recently can be dropped without a timestamp per key. -/
namespace MqBridge.Aggregate

open Option Finmap Function Multiset

universe u
variable {σ : Type u}

/-- A `HashMap<String, _>` of the source; the order of its entries is no data. -/
abbrev HashMap (σ : Type u) := Finmap (fun _ : String => σ)

def HashMap.retain (keep : String → Bool) (map : HashMap σ) : HashMap σ where
  entries := map.entries.filter fun entry => keep entry.1
  nodupKeys := nodup_keys.mp <| nodup_of_le
    (map_le_map (filter_le _ _)) (nodup_keys.mpr map.nodupKeys)

theorem HashMap.lookup_retain (keep : String → Bool) (map : HashMap σ) (key : String) :
    (HashMap.retain keep map).lookup key = if keep key then map.lookup key else none := by
  refine ext fun state => ?_
  rw [lookup_eq_some_iff, retain, mem_filter, ← lookup_eq_some_iff]
  split_ifs with hKeep
  · exact and_iff_left hKeep
  · exact ⟨fun h => absurd h.2 hKeep, fun h => absurd h (by simp)⟩

/-- A state that is read for an update or written moves to the young
generation, so no key is ever in both. `half` is the size of the young
generation that makes a turn due. -/
structure States (σ : Type u) where
  young : HashMap σ
  old : HashMap σ
  half : Nat
  disjoint : young.Disjoint old

namespace States

def usizeMax : Nat := 2 ^ 64 - 1

/-- A `maxKeys` of 0 keeps every state. -/
def new (maxKeys : Nat) : States σ where
  young := ∅
  old := ∅
  half := match maxKeys with
    | 0 => usizeMax
    | max => Nat.max (max / 2) 1
  disjoint := disjoint_empty _

def get (states : States σ) (key : String) : Option σ :=
  (states.young.lookup key).or (states.old.lookup key)

def containsKey (states : States σ) (key : String) : Bool :=
  decide (key ∈ states.young) || decide (key ∈ states.old)

def insert (states : States σ) (key : String) (state : σ) : States σ where
  young := states.young.insert key state
  old := states.old.erase key
  half := states.half
  disjoint := fun k hYoung hOld => by
    obtain ⟨hNe, hOld⟩ := mem_erase.mp hOld
    exact states.disjoint k ((mem_insert.mp hYoung).resolve_left hNe) hOld

def remove (states : States σ) (key : String) : States σ where
  young := states.young.erase key
  old := states.old.erase key
  half := states.half
  disjoint := fun k hYoung hOld =>
    states.disjoint k (mem_erase.mp hYoung).2 (mem_erase.mp hOld).2

def clear (states : States σ) : States σ where
  young := ∅
  old := ∅
  half := states.half
  disjoint := disjoint_empty _

def isFull (states : States σ) : Bool := decide (states.half ≤ states.young.keys.card)

/-- Drops the old generation when the young one is full, except the states
`keep` names, and counts what it dropped. -/
def turn (states : States σ) (keep : String → Bool) : States σ × Nat :=
  if states.isFull then
    ({ young := ∅
       old := HashMap.retain keep states.old ∪ states.young
       half := states.half
       disjoint := disjoint_empty _ }, (HashMap.retain (fun key => !keep key) states.old).keys.card)
  else (states, 0)

variable (states : States σ) (key : String)

theorem containsKey_eq :
    states.containsKey key = (states.get key).isSome := by
  rw [Bool.eq_iff_iff, containsKey, get, isSome_or, Bool.or_eq_true, Bool.or_eq_true,
    decide_eq_true_iff, decide_eq_true_iff, lookup_isSome, lookup_isSome]

theorem get_insert (k : String) (state : σ) :
    (states.insert key state).get k = if k = key then some state else states.get k := by
  rw [get, insert]
  split_ifs with hKey
  · rw [hKey, lookup_insert, some_or]
  · rw [lookup_insert_of_ne _ hKey, lookup_erase_ne hKey, get]

theorem get_remove (k : String) :
    (states.remove key).get k = if k = key then none else states.get k := by
  rw [get, remove]
  split_ifs with hKey
  · rw [hKey, lookup_erase, lookup_erase, none_or]
  · rw [lookup_erase_ne hKey, lookup_erase_ne hKey, get]

/-- A state that is to be kept survives a turn. -/
theorem get_turn_of_keep {keep : String → Bool} {key : String}
    (hKeep : keep key = true) : (states.turn keep).1.get key = states.get key := by
  rw [turn]
  split_ifs with hFull
  · rw [get, get, lookup_empty, none_or]
    by_cases hOld : key ∈ states.old
    · have hYoung : states.young.lookup key = none :=
        lookup_eq_none.mpr fun hYoung => states.disjoint key hYoung hOld
      have hKept : key ∈ HashMap.retain keep states.old := by
        rw [← lookup_isSome, HashMap.lookup_retain, if_pos hKeep]
        exact lookup_isSome.mpr hOld
      rw [lookup_union_left hKept, HashMap.lookup_retain, if_pos hKeep, hYoung, none_or]
    · have hGone : key ∉ HashMap.retain keep states.old := by
        rw [← lookup_eq_none, HashMap.lookup_retain, if_pos hKeep]
        exact lookup_eq_none.mpr hOld
      rw [lookup_union_right hGone, lookup_eq_none.mpr hOld, or_none]
  · rfl

end States

variable {n : Nat}

/-- A state in memory: the index of its entry, and its key. -/
abbrev Owner (n : Nat) := Fin n × String

abbrev Memory (n : Nat) (σ : Type u) := Fin n → States σ

namespace Memory

def get (memory : Memory n σ) (owner : Owner n) : Option σ := (memory owner.1).get owner.2

def insert (memory : Memory n σ) (owner : Owner n) (state : σ) : Memory n σ :=
  update memory owner.1 ((memory owner.1).insert owner.2 state)

theorem get_insert (memory : Memory n σ) (owner o : Owner n) (state : σ) :
    (memory.insert owner state).get o = if owner = o then some state else memory.get o := by
  rw [get, insert]
  by_cases hEntry : o.1 = owner.1
  · rw [hEntry, update_self, States.get_insert, get]
    simp only [Prod.ext_iff, hEntry, true_and, eq_comm]
  · rw [update_of_ne hEntry, if_neg fun h => hEntry (congrArg Prod.fst h.symm), get]

def remove (memory : Memory n σ) (owner : Owner n) : Memory n σ :=
  update memory owner.1 ((memory owner.1).remove owner.2)

theorem get_remove (memory : Memory n σ) (owner o : Owner n) :
    (memory.remove owner).get o = if owner = o then none else memory.get o := by
  rw [get, remove]
  by_cases hEntry : o.1 = owner.1
  · rw [hEntry, update_self, States.get_remove, get]
    simp only [Prod.ext_iff, hEntry, true_and, eq_comm]
  · rw [update_of_ne hEntry, if_neg fun h => hEntry (congrArg Prod.fst h.symm), get]

end Memory

structure Change (n : Nat) (σ : Type u) where
  owner : Owner n
  state : σ
deriving DecidableEq

def overwrite (owner : Owner n) (before : Option σ) (changes : List (Change n σ)) : Option σ :=
  changes.foldl (fun state change => if change.owner = owner then some change.state else state)
    before

theorem overwrite_append (owner : Owner n) (before : Option σ) (first second : List (Change n σ)) :
    overwrite owner before (first ++ second) =
      overwrite owner (overwrite owner before first) second :=
  List.foldl_append

variable {changes : List (Change n σ)}

/-- Whatever a key held before, the changes that touch it decide its state. -/
theorem overwrite_of_mem {owner : Owner n} (hMem : ∃ c ∈ changes, c.owner = owner) :
    ∃ state, ∀ before, overwrite owner before changes = some state := by
  induction changes using List.reverseRecOn with
  | nil =>
    obtain ⟨c, hIn, -⟩ := hMem
    exact absurd hIn List.not_mem_nil
  | append_singleton earlier last ih =>
    simp only [overwrite_append]
    by_cases hLast : last.owner = owner
    · exact ⟨last.state, fun before => if_pos hLast⟩
    · obtain ⟨c, hIn, hOwner⟩ := hMem
      have hEarlier : c ∈ earlier := by
        rcases List.mem_append.mp hIn with hIn | hIn
        · exact hIn
        · rw [mem_singleton.mp hIn] at hOwner
          exact absurd hOwner hLast
      obtain ⟨state, hState⟩ := ih ⟨c, hEarlier, hOwner⟩
      exact ⟨state, fun before => (if_neg hLast).trans (hState before)⟩

theorem overwrite_of_not_mem {owner : Owner n} (hMem : ¬∃ c ∈ changes, c.owner = owner)
    (before : Option σ) : overwrite owner before changes = before := by
  induction changes generalizing before with
  | nil => rfl
  | cons c rest ih =>
    rw [List.exists_mem_cons_iff, not_or] at hMem
    exact (ih hMem.2 _).trans (if_neg hMem.1)

end MqBridge.Aggregate
