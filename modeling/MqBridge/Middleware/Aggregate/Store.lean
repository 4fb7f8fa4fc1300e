import Mathlib.Data.List.Basic
import Mathlib.Logic.Function.Basic
import MqBridge.Machine.Outcome

/-! The keyed state store behind an aggregate: every row has a version, and a
write names the version it was computed from. -/
namespace MqBridge.Aggregate

open List

universe u

/-- One state to write, guarded by the version it was computed from. -/
structure StateWrite where
  key : String
  state : String
  expected : Int
deriving DecidableEq

abbrev Rows := String → Option (String × Int)

namespace Rows

/-- The version a write has to name; 0 for a key that does not exist. -/
def version (rows : Rows) (key : String) : Int :=
  match rows key with
  | some (_, version) => version
  | none => 0

def loadMany (rows : Rows) (keys : List String) : Rows :=
  fun key => if key ∈ keys then rows key else none

def put (rows : Rows) (write : StateWrite) : Rows :=
  Function.update rows write.key (some (write.state, write.expected + 1))

def storeFrom (rows : Rows) (index : Nat) : List StateWrite → Rows × List Nat
  | [] => (rows, [])
  | write :: rest =>
    if rows.version write.key = write.expected then
      (rows.put write).storeFrom (index + 1) rest
    else
      let (after, lost) := rows.storeFrom (index + 1) rest
      (after, index :: lost)

/-- Writes each state whose stored version still is the expected one, and
answers with the indices of those that lost the race. -/
def storeMany (rows : Rows) (writes : List StateWrite) : Rows × List Nat :=
  rows.storeFrom 0 writes

variable {α : Type u} (write : α → StateWrite)

def carriedOut (rows : Rows) : List α → List α
  | [] => []
  | a :: rest =>
    if rows.version (write a).key = (write a).expected then
      a :: carriedOut (rows.put (write a)) rest
    else carriedOut rows rest

def losing (rows : Rows) : List α → List α
  | [] => []
  | a :: rest =>
    if rows.version (write a).key = (write a).expected then losing (rows.put (write a)) rest
    else a :: losing rows rest

variable {write} {rows : Rows} {items : List α}

theorem carriedOut_append_losing :
    (rows.carriedOut write items ++ rows.losing write items).Perm items := by
  induction items generalizing rows with
  | nil => exact .nil
  | cons a rest ih =>
    rw [carriedOut, losing]
    split_ifs
    · exact ih.cons a
    · exact perm_middle.trans (ih.cons a)

/-- A property of the rows and of what was carried out so far, kept by each
write that is carried out. -/
theorem storeFrom_rule {P : Rows → List α → Prop} {done : List α} (index : Nat)
    (hStart : P rows done) (hPut : ∀ rows done, ∀ a ∈ items, P rows done →
      rows.version (write a).key = (write a).expected → P (rows.put (write a)) (done ++ [a])) :
    P (rows.storeFrom index (items.map write)).1 (done ++ rows.carriedOut write items) := by
  induction items generalizing rows done index with
  | nil =>
    rw [carriedOut, append_nil]
    exact hStart
  | cons a rest ih =>
    have hRest : ∀ rows done, ∀ b ∈ rest, P rows done →
        rows.version (write b).key = (write b).expected → P (rows.put (write b)) (done ++ [b]) :=
      fun rows done b hMem => hPut rows done b (mem_cons_of_mem _ hMem)
    rw [map_cons, storeFrom, carriedOut]
    split_ifs with hWins
    · rw [append_cons]
      exact ih _ (hPut rows done a (mem_cons_self ..) hStart hWins) hRest
    · exact ih _ hStart hRest

/-- The indices that lost the race name the items that lost it. -/
theorem getElem_storeFrom (before : List α) :
    (rows.storeFrom before.length (items.map write)).2.map
      (fun index => (before ++ items)[index]?) = (rows.losing write items).map some := by
  induction items generalizing rows before with
  | nil => rfl
  | cons a rest ih =>
    have hSplit : before ++ a :: rest = (before ++ [a]) ++ rest := append_cons ..
    have hLen : before.length + 1 = (before ++ [a]).length := by simp
    rw [map_cons, storeFrom, losing]
    split_ifs
    · rw [hSplit, hLen, ih]
    · rw [map_cons, map_cons, ← ih (before ++ [a])]
      simp

theorem getElem_storeMany : (rows.storeMany (items.map write)).2.map (fun index => items[index]?) =
      (rows.losing write items).map some :=
  getElem_storeFrom []

/-- Nothing was carried out exactly when every write lost. -/
theorem carriedOut_eq_nil_iff :
    rows.carriedOut write items = [] ↔ (rows.storeMany (items.map write)).2.length =
      items.length := by
  have hLost := congrArg length (@getElem_storeMany _ write rows items)
  have hAll := (@carriedOut_append_losing _ write rows items).length_eq
  rw [length_map, length_map] at hLost
  rw [length_append] at hAll
  rw [← length_eq_zero_iff]
  omega

end Rows

end MqBridge.Aggregate
