import Mathlib.Logic.Function.Basic
import Mathlib.Data.List.Basic
import MqBridge.Middleware.Deduplication.Receive

/-! The store in process memory. Each shard keeps its entries in claim order,
with the sequence number of the first one, and an index of the entries that
are not dropped. -/
namespace MqBridge.Deduplication

open List Function

variable {κ : Type}

/-- A reservation lapses after this time unless it is renewed. -/
def pendingTtlSecs : Nat := 5

def shardCount : Nat := 16

inductive EntryState where
  | pending
  | processed
  /-- Released, superseded or expired; the slot waits to reach the front. -/
  | dropped
  deriving DecidableEq

structure Entry (κ : Type) where
  key : κ
  since : Nat
  state : EntryState

def Entry.live (now ttl : Nat) (entry : Entry κ) : Bool :=
  let age := now - entry.since
  match entry.state with
  | .pending => decide (age < pendingTtlSecs)
  | .processed => decide (age < ttl)
  | .dropped => false

/-- The entry at place `n` has the sequence number `head + n`. -/
structure Shard (κ : Type) where
  entries : List (Entry κ)
  head : Nat
  index : List Nat
  responses : Nat → Option (List UInt8)

namespace Shard

def new : Shard κ := ⟨[], 0, [], fun _ => none⟩

def entry (shard : Shard κ) (seq : Nat) : Option (Entry κ) := shard.entries[seq - shard.head]?

def modifyEntry (shard : Shard κ) (seq : Nat) (f : Entry κ → Entry κ) : Shard κ :=
  { shard with entries := shard.entries.modify (seq - shard.head) f }

def find [DecidableEq κ] (shard : Shard κ) (key : κ) : Option Nat :=
  shard.index.find? fun seq => (shard.entry seq).any fun entry => entry.key = key

def unindex (shard : Shard κ) (seq : Nat) : Shard κ :=
  { shard with
    index := shard.index.erase seq
    responses := update shard.responses seq none }

def dropEntry (shard : Shard κ) (seq : Nat) : Shard κ :=
  (shard.unindex seq).modifyEntry seq fun entry => { entry with state := .dropped }

def push (shard : Shard κ) (key : κ) (now : Nat) (state : EntryState) : Shard κ × Nat :=
  let seq := shard.head + shard.entries.length
  ({ shard with
      entries := shard.entries ++ [⟨key, now, state⟩]
      index := seq :: shard.index }, seq)

def collectFrom (now ttl max : Nat) (shard : Shard κ) : List (Entry κ) → Shard κ × Bool
  | [] => ({ shard with entries := [] }, false)
  | front :: rest =>
    let live := front.live now ttl
    if live && decide (shard.index.length ≤ max) &&
        decide ((front :: rest).length ≤ 2 * max) then
      ({ shard with entries := front :: rest }, false)
    else
      let shard := if front.state = .dropped then shard else shard.unindex shard.head
      let (collected, evicted) :=
        collectFrom now ttl max { shard with head := shard.head + 1 } rest
      (collected, live || evicted)

/-- Drop expired entries from the front, and live ones while there are too
many; tells whether a live one was dropped. -/
def collect (shard : Shard κ) (now ttl max : Nat) : Shard κ × Bool :=
  collectFrom now ttl max shard shard.entries

end Shard

/-- The settings are those of the last caller that asked for the store. -/
structure MemoryState (κ : Type) where
  shards : Fin shardCount → Shard κ
  ttlSeconds : Nat
  maxKeys : Nat

namespace MemoryState

variable [DecidableEq κ] (hasher : κ → Nat)

def defaultMaxKeys : Nat := 1000000

def new : MemoryState κ := ⟨fun _ => Shard.new, 0, defaultMaxKeys⟩

def place (key : κ) : Fin shardCount :=
  ⟨(hasher key >>> 48) % shardCount, Nat.mod_lt _ (by decide)⟩

def shard (m : MemoryState κ) (key : κ) (now : Nat) : Shard κ :=
  ((m.shards (place hasher key)).collect now m.ttlSeconds (max (m.maxKeys / shardCount) 1)).1

def put (m : MemoryState κ) (key : κ) (shard : Shard κ) : MemoryState κ :=
  { m with shards := update m.shards (place hasher key) shard }

def reserveKey (key : κ) (now : Nat) (m : MemoryState κ) : Reservation × MemoryState κ :=
  let shard := m.shard hasher key now
  match shard.find key with
  | some seq =>
    match (shard.entry seq).filter (Entry.live now m.ttlSeconds) with
    | some entry =>
      (if entry.state = .pending then .inFlight else .processed, m.put hasher key shard)
    -- superseded rather than reused, so the queue stays in claim order
    | none => (.claimed, m.put hasher key ((shard.dropEntry seq).push key now .pending).1)
  | none => (.claimed, m.put hasher key (shard.push key now .pending).1)

def markKey (key : κ) (now : Nat) (response : Option (List UInt8)) (m : MemoryState κ) :
    MemoryState κ :=
  let shard := m.shard hasher key now
  let (shard, seq) :=
    match shard.find key with
    | some seq =>
      (shard.modifyEntry seq fun entry => { entry with state := .processed, since := now }, seq)
    -- the claim lapsed and was collected
    | none => shard.push key now .processed
  m.put hasher key { shard with responses := update shard.responses seq response }

def renewKey (key : κ) (now : Nat) (m : MemoryState κ) : MemoryState κ :=
  let shard := m.shard hasher key now
  match shard.find key with
  | some seq =>
    m.put hasher key (shard.modifyEntry seq fun entry =>
      if entry.state = .pending then { entry with since := now } else entry)
  | none => m.put hasher key shard

def releaseKey (key : κ) (now : Nat) (m : MemoryState κ) : MemoryState κ :=
  let shard := m.shard hasher key now
  match shard.find key with
  | some seq =>
    if (shard.entry seq).any fun entry => entry.state = .pending then
      m.put hasher key (shard.dropEntry seq)
    else m.put hasher key shard
  | none => m.put hasher key shard

def storedResponse (key : κ) (now : Nat) (m : MemoryState κ) :
    Option (List UInt8) × MemoryState κ :=
  let shard := m.shard hasher key now
  let response :=
    match shard.find key with
    | some seq =>
      if (shard.entry seq).any fun entry =>
        entry.state = .processed && entry.live now m.ttlSeconds then shard.responses seq
      else none
    | none => none
  (response, m.put hasher key shard)

end MemoryState

/-- A route takes the store with its own settings, or asks whether it still
holds a live key. -/
inductive MemoryEvent where
  | configure (ttlSeconds maxKeys : Nat)
  | isIdle (now : Nat)

/-- The limit under which `is_idle` collects: `usize::MAX / 2`. -/
def idleMaxKeys : Nat := (2 ^ 64 - 1) / 2

def MemoryState.occur (m : MemoryState κ) : MemoryEvent → MemoryState κ
  | .configure ttlSeconds maxKeys => { m with ttlSeconds := ttlSeconds, maxKeys := maxKeys }
  | .isIdle now =>
    let collected := fun i => ((m.shards i).collect now m.ttlSeconds idleMaxKeys).1
    -- no shard is looked at after the first that still has a key
    { m with
      shards := fun i =>
        if ∀ j < i, (collected j).index = [] then collected i else m.shards i }

def Shard.Marked (shard : Shard κ) (key : κ) : Prop :=
  ∃ entry ∈ shard.entries, entry.key = key ∧ entry.state = .processed

def MemoryState.Marked (m : MemoryState κ) (key : κ) : Prop := ∃ i, (m.shards i).Marked key

namespace Shard

variable {shard : Shard κ} {key : κ}

theorem marked_collectFrom {now ttl max : Nat} {entries : List (Entry κ)}
    (h : (collectFrom now ttl max shard entries).1.Marked key) :
    ∃ entry ∈ entries, entry.key = key ∧ entry.state = .processed := by
  induction entries generalizing shard with
  | nil => exact h
  | cons front rest ih =>
    simp only [collectFrom] at h
    split at h
    · exact h
    · obtain ⟨entry, hMem, hEntry⟩ := ih h
      exact ⟨entry, mem_cons_of_mem _ hMem, hEntry⟩

theorem marked_collect {now ttl max : Nat} (h : (shard.collect now ttl max).1.Marked key) :
    shard.Marked key :=
  marked_collectFrom h

/-- An entry that is changed marks only what it marked before, or its key. -/
theorem marked_modifyEntry {seq : Nat} {f : Entry κ → Entry κ}
    (h : (shard.modifyEntry seq f).Marked key) : shard.Marked key ∨
      ∃ entry, shard.entry seq = some entry ∧ (f entry).key = key ∧
        (f entry).state = .processed := by
  obtain ⟨changed, hMem, hKey, hState⟩ := h
  obtain ⟨place, hPlace⟩ := mem_iff_getElem?.mp hMem
  rw [modifyEntry, getElem?_modify] at hPlace
  obtain ⟨entry, hEntry, hChanged⟩ := Option.map_eq_some_iff.mp hPlace
  split_ifs at hChanged with hSame
  · subst hChanged
    exact .inr ⟨entry, by rw [Shard.entry, hSame, hEntry], hKey, hState⟩
  · subst hChanged
    exact .inl ⟨_, mem_of_getElem? hEntry, hKey, hState⟩

theorem marked_dropEntry {seq : Nat} (h : (shard.dropEntry seq).Marked key) : shard.Marked key := by
  rcases marked_modifyEntry h with hOld | ⟨entry, -, -, hState⟩
  · exact hOld
  · cases hState

theorem marked_push {key other : κ} {now : Nat} {state : EntryState}
    (h : (shard.push key now state).1.Marked other) :
    shard.Marked other ∨ key = other ∧ state = .processed := by
  obtain ⟨entry, hMem, hKey, hState⟩ := h
  rcases mem_append.mp hMem with hOld | hNew
  · exact .inl ⟨entry, hOld, hKey, hState⟩
  · rw [mem_singleton.mp hNew] at hKey hState
    exact .inr ⟨hKey, hState⟩

end Shard

namespace MemoryState

variable {hasher : κ → Nat} {m : MemoryState κ} {key other : κ} {now : Nat}

theorem marked_shard (h : (m.shard hasher key now).Marked other) : m.Marked other :=
  ⟨_, Shard.marked_collect h⟩

variable {shard : Shard κ}

/-- Putting a shard back adds no marks but those of the shard. -/
theorem marked_put (h : (m.put hasher key shard).Marked other) :
    m.Marked other ∨ shard.Marked other := by
  obtain ⟨i, hMarked⟩ := h
  have hMarked : (update m.shards (place hasher key) shard i).Marked other := hMarked
  rcases eq_or_ne i (place hasher key) with rfl | hNe
  · rw [update_self] at hMarked
    exact .inr hMarked
  · rw [update_of_ne hNe] at hMarked
    exact .inl ⟨i, hMarked⟩

theorem marked_put_of_imp (now : Nat) {P : Prop} (h : (m.put hasher key shard).Marked other)
    (hShard : shard.Marked other → (m.shard hasher key now).Marked other ∨ P) :
    m.Marked other ∨ P := by
  rcases marked_put h with hOld | hNew
  · exact .inl hOld
  · exact (hShard hNew).imp_left marked_shard

theorem marked_occur {event : MemoryEvent} (h : (m.occur event).Marked other) : m.Marked other := by
  cases event with
  | configure ttlSeconds maxKeys => exact h
  | isIdle now =>
    obtain ⟨i, hMarked⟩ := h
    simp only [occur] at hMarked
    split_ifs at hMarked
    · exact ⟨i, Shard.marked_collect hMarked⟩
    · exact ⟨i, hMarked⟩

variable [DecidableEq κ]

/-- The entry that `find` points to has the key. -/
theorem key_of_find {seq : Nat} {entry : Entry κ} (hFind : shard.find key = some seq)
    (hEntry : shard.entry seq = some entry) : entry.key = key := by
  have hKey := find?_some hFind
  rw [hEntry, Option.any_some, decide_eq_true_eq] at hKey
  exact hKey

theorem marked_reserveKey (h : (m.reserveKey hasher key now).2.Marked other) : m.Marked other := by
  have hPush : ∀ shard : Shard κ, (shard.push key now .pending).1.Marked other →
      shard.Marked other := fun shard hMarked =>
    (Shard.marked_push hMarked).resolve_right fun hNew => by cases hNew.2
  rw [← or_false (m.Marked other)]
  rw [reserveKey] at h
  split at h
  · split at h
    · exact marked_put_of_imp now h .inl
    · exact marked_put_of_imp now h fun hNew => .inl (Shard.marked_dropEntry (hPush _ hNew))
  · exact marked_put_of_imp now h fun hNew => .inl (hPush _ hNew)

theorem reserveKey_processed (h : (m.reserveKey hasher key now).1 = .processed) : m.Marked key := by
  rw [reserveKey] at h
  split at h
  next seq hFind =>
    split at h
    next entry hEntry =>
      obtain ⟨hEntry, hLive⟩ := Option.filter_eq_some_iff.mp hEntry
      split_ifs at h with hPend
      refine @marked_shard _ _ _ _ _ now
        ⟨entry, mem_of_getElem? hEntry, key_of_find hFind hEntry, ?_⟩
      cases hState : entry.state with
      | pending => exact absurd hState hPend
      | processed => rfl
      | dropped =>
        rw [Entry.live, hState] at hLive
        cases hLive
    next => cases h
  next => cases h

theorem marked_markKey {response : Option (List UInt8)}
    (h : (m.markKey hasher key now response).Marked other) : other = key ∨ m.Marked other := by
  rw [or_comm]
  refine marked_put_of_imp now h fun hNew => ?_
  cases hFind : (m.shard hasher key now).find key with
  | none =>
    rw [hFind] at hNew
    exact (Shard.marked_push hNew).imp_right fun hSame => hSame.1.symm
  | some seq =>
    rw [hFind] at hNew
    refine (Shard.marked_modifyEntry hNew).imp_right ?_
    rintro ⟨entry, hEntry, hKey, -⟩
    have hSame : entry.key = other := hKey
    rw [← hSame, key_of_find hFind hEntry]

theorem marked_renewKey (h : (m.renewKey hasher key now).Marked other) : m.Marked other := by
  rw [← or_false (m.Marked other)]
  rw [renewKey] at h
  split at h
  · refine marked_put_of_imp now h fun hNew => .inl ?_
    rcases Shard.marked_modifyEntry hNew with hOld | ⟨entry, hEntry, hKey, hState⟩
    · exact hOld
    · refine ⟨entry, mem_of_getElem? hEntry, ?_⟩
      split_ifs at hKey hState
      · rename_i hPend
        simp only [hPend] at hState
        cases hState
      · exact ⟨hKey, hState⟩
  · exact marked_put_of_imp now h .inl

theorem marked_releaseKey (h : (m.releaseKey hasher key now).Marked other) : m.Marked other := by
  rw [← or_false (m.Marked other)]
  rw [releaseKey] at h
  split at h
  · split_ifs at h
    · exact marked_put_of_imp now h fun hNew => .inl (Shard.marked_dropEntry hNew)
    · exact marked_put_of_imp now h .inl
  · exact marked_put_of_imp now h .inl

theorem marked_storedResponse (h : (m.storedResponse hasher key now).2.Marked other) :
    m.Marked other := by
  rw [← or_false (m.Marked other)]
  exact marked_put_of_imp now h .inl

end MemoryState

def memoryDedupStore [DecidableEq κ] (hasher : κ → Nat) : DedupStore κ where
  State := MemoryState κ
  Event := MemoryEvent
  new := MemoryState.new
  reserve := fun key now m =>
    let (reservation, m) := m.reserveKey hasher key now
    (.ok reservation, m)
  markProcessed := fun key now m => m.markKey hasher key now none
  markProcessedWithResponse := fun key now response m => m.markKey hasher key now (some response)
  storedResponse := fun key now m => m.storedResponse hasher key now
  release := fun key now m => m.releaseKey hasher key now
  renew := fun key now m => m.renewKey hasher key now
  occur := fun event m => m.occur event
  Marked := MemoryState.Marked
  marked_new := fun _ h => by
    obtain ⟨_, _, hMem, -⟩ := h
    exact not_mem_nil hMem
  reserve_processed := fun h => MemoryState.reserveKey_processed (Except.ok.inj h)
  marked_reserve := MemoryState.marked_reserveKey
  marked_markProcessed := MemoryState.marked_markKey
  marked_withResponse := MemoryState.marked_markKey
  marked_storedResponse := MemoryState.marked_storedResponse
  marked_release := MemoryState.marked_releaseKey
  marked_renew := MemoryState.marked_renewKey
  marked_occur := MemoryState.marked_occur

end MqBridge.Deduplication
