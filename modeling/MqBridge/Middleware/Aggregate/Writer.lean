import Mathlib.Data.List.FinRange
import MqBridge.Machine.Run
import MqBridge.Middleware.Aggregate.States
import MqBridge.Middleware.Aggregate.Store

/-! `consistency: single_writer`: the states stay in memory and are written
behind the batches. Batches fold while a flush is being stored, a failed flush
drops every state in memory, and a commit asks at some later time whether the
states of its batch are stored. -/
namespace MqBridge.Aggregate

open Function

universe u
variable {n : Nat} {σ : Type u}

/-- What a writer is started with, and how its entries read and write the
JSON text of a state. -/
structure Writer (n : Nat) (σ : Type u) where
  prefixes : Fin n → String
  maxKeys : Nat
  parseState : Fin n → String → Except String σ
  writeJson : σ → Except String String

/-- Failed flushes remembered, so a late commit still learns its batch was
lost. -/
def lostKept : Nat := 64

structure Inner (n : Nat) (σ : Type u) where
  states : Memory n σ
  versions : Fin n → HashMap Int
  dirty : Fin n → List String
  seq : Nat
  flushed : Nat
  lost : List (Nat × Nat)

namespace Inner

def get (inner : Inner n σ) (owner : Owner n) : Option σ := inner.states.get owner

def isDirty (inner : Inner n σ) (owner : Owner n) : Prop := owner.2 ∈ inner.dirty owner.1

def change (inner : Inner n σ) (c : Change n σ) : Inner n σ :=
  { inner with
    states := inner.states.insert c.owner c.state
    dirty := update inner.dirty c.owner.1 ((inner.dirty c.owner.1).insert c.owner.2) }

def folded (inner : Inner n σ) : Inner n σ := { inner with seq := inner.seq + 1 }

/-- A failed flush drops the states: memory is ahead of the store. -/
def drop (inner : Inner n σ) : Inner n σ where
  states := fun i => (inner.states i).clear
  versions := fun _ => ∅
  dirty := fun _ => []
  seq := inner.seq
  flushed := inner.seq
  lost := (if inner.lost.length = lostKept then inner.lost.drop 1 else inner.lost) ++
    [(inner.flushed, inner.seq)]

/-- Drops the stored states used least recently of every entry that is full. -/
def trim (inner : Inner n σ) : Inner n σ :=
  { inner with
    states := fun i => ((inner.states i).turn fun key => key ∈ inner.dirty i).1
    versions := fun i =>
      match (inner.states i).turn fun key => key ∈ inner.dirty i with
      | (_, 0) => inner.versions i
      | (states, _ + 1) => HashMap.retain (fun key => states.containsKey key) (inner.versions i) }

end Inner

namespace Writer

variable (w : Writer n σ)

def start : Inner n σ where
  states := fun _ => States.new w.maxKeys
  versions := fun _ => ∅
  dirty := fun _ => []
  seq := 0
  flushed := 0
  lost := []

def storeKey (owner : Owner n) : String := w.prefixes owner.1 ++ ":" ++ owner.2

def lostText : String := "aggregate: the states of this batch could not be stored"

/-- One look of a call of `flushed`; without an answer it waits for progress
and looks again. -/
def flushed (inner : Inner n σ) (seq : Nat) : Option (Except String Unit) :=
  if inner.lost.any fun range => range.1 < seq && seq ≤ range.2 then some (.error lostText)
  else if seq ≤ inner.flushed then some (.ok ())
  else none

/-- The keys of a batch whose state memory lacks, each once. -/
def missing (inner : Inner n σ) (keys : List (Fin n → Option String)) : List (Owner n) :=
  (List.finRange n).flatMap fun i =>
    ((keys.filterMap fun key => key i).filter
      fun key => !(inner.states i).containsKey key).dedup.map fun key => (i, key)

/-- Takes over the loaded states, up to the first that cannot be read. -/
def takeOver (inner : Inner n σ) (loaded : Rows) : List (Owner n) → Except (Inner n σ) (Inner n σ)
  | [] => .ok inner
  | owner :: rest =>
    match loaded (w.storeKey owner) with
    | none => takeOver inner loaded rest
    | some (json, version) =>
      match w.parseState owner.1 json with
      | .error _ => .error inner
      | .ok state =>
        takeOver
          { inner with
            states := inner.states.insert owner state
            versions :=
              update inner.versions owner.1 ((inner.versions owner.1).insert owner.2 version) }
          (update loaded (w.storeKey owner) none) rest

def writesOf (inner : Inner n σ) (i : Fin n) :
    List String → Except String (List (Owner n × StateWrite))
  | [] => .ok []
  | key :: rest =>
    match (inner.states i).get key with
    | none => writesOf inner i rest
    | some state => do
        let json ← w.writeJson state
        let writes ← writesOf inner i rest
        let expected := ((inner.versions i).lookup key).getD 0
        return ((i, key), ⟨w.storeKey (i, key), json, expected⟩) :: writes

/-- Drains the changed keys entry by entry. A state that has no JSON text ends
it, with the keys drained so far gone. -/
def drain (inner : Inner n σ) :
    List (Fin n) → Inner n σ × Except String (List (Owner n × StateWrite))
  | [] => (inner, .ok [])
  | i :: rest =>
    match w.writesOf inner i (inner.dirty i) with
    | .error error => ({ inner with dirty := update inner.dirty i [] }, .error error)
    | .ok writes =>
      match drain { inner with dirty := update inner.dirty i [] } rest with
      | (after, .error error) => (after, .error error)
      | (after, .ok later) => (after, .ok (writes ++ later))

/-- The changed states as writes with their owners; nothing when no key
changed, and then every batch is in the store. -/
def take (inner : Inner n σ) :
    Inner n σ × Except String (Option (List (Owner n × StateWrite))) :=
  if (List.finRange n).all fun i => (inner.dirty i).isEmpty then
    ({ inner with flushed := if inner.flushed < inner.seq then inner.seq else inner.flushed },
      .ok none)
  else
    match w.drain inner (List.finRange n) with
    | (after, .error error) => (after, .error error)
    | (after, .ok writes) => (after, .ok (some writes))

def bump (versions : Fin n → HashMap Int) (owners : List (Owner n)) : Fin n → HashMap Int :=
  owners.foldl (fun versions owner => update versions owner.1
    ((versions owner.1).insert owner.2 (((versions owner.1).lookup owner.2).getD 0 + 1))) versions

inductive Phase (n : Nat) where
  | ready
  | storing (writes : List (Owner n × StateWrite)) (upto : Nat)
  | answered (writes : List (Owner n × StateWrite)) (upto : Nat) (answer : Except String (List Nat))
  | trimming
  | idle
  | waiting
  | failed
  | ended

/-- A batch that was folded: its number, the failed flushes before it, and the
states it left. -/
structure Fold (n : Nat) (σ : Type u) where
  seq : Nat
  epoch : Nat
  changes : List (Change n σ)
deriving DecidableEq

/-- A `store_many` that lost no write: the failed flushes before it, the last
batch of its snapshot, and its writes. -/
structure Flushed (n : Nat) where
  epoch : Nat
  upto : Nat
  writes : List (Owner n × StateWrite)
deriving DecidableEq

/-- What happened so far: the batches folded, the flushes stored, and the
range of batches each failed flush dropped. -/
structure Record (n : Nat) (σ : Type u) where
  folds : List (Fold n σ)
  stored : List (Flushed n)
  dropped : List (Nat × Nat)

def Record.epoch (record : Record n σ) : Nat := record.dropped.length

def Record.fold (record : Record n σ) (seq : Nat) (changes : List (Change n σ)) : Record n σ :=
  { record with folds := record.folds ++ [⟨seq, record.epoch, changes⟩] }

/-- The writer with its store. A fold that loads states holds the gate: it has
found the keys that memory lacks, and then read their rows. -/
structure State (n : Nat) (σ : Type u) where
  inner : Inner n σ
  phase : Phase n
  loading : Option (List (Owner n) × Option Rows)
  closed : Bool
  woken : Bool
  rows : Rows
  record : Record n σ

inductive Action (n : Nat) (σ : Type u) where
  /-- A batch with these keys takes the gate. -/
  | enter (keys : List (Fin n → Option String))
  /-- Its `load_many` reads the store. -/
  | load
  /-- Its `load_many` fails. -/
  | loadFails
  /-- It folds, with these changes. -/
  | fold (changes : List (Change n σ))
  /-- The loop takes a snapshot of the changed states. -/
  | take
  /-- The `store_many` of the flush is carried out. -/
  | store
  /-- The `store_many` of the flush fails, after some of its writes. -/
  | storeFails (reached : List StateWrite)
  /-- The flush goes on with the answer. -/
  | finish
  /-- The loop trims the states. -/
  | trim
  /-- The loop drops the states after a failed flush. -/
  | drop
  /-- The loop found nothing to flush: it ends or waits. -/
  | rest
  /-- The loop is woken. -/
  | wake
  | close
  /-- Someone else writes to the store. -/
  | foreign (writes : List StateWrite)

def init (rows : Rows) : State n σ where
  inner := w.start
  phase := .ready
  loading := none
  closed := false
  woken := false
  rows := rows
  record := ⟨[], [], []⟩

def flush (s : State n σ) : State n σ :=
  match w.take s.inner with
  | (inner, .error _) => { s with inner := inner, phase := .failed }
  | (inner, .ok none) => { s with inner := inner, phase := .idle }
  | (inner, .ok (some writes)) =>
    { s with inner := inner, phase := .storing writes s.inner.seq }

def store (s : State n σ) (writes : List (Owner n × StateWrite)) (upto : Nat) : State n σ :=
  let (rows, lost) := s.rows.storeMany (writes.map Prod.snd)
  { s with
    rows := rows
    phase := .answered writes upto (.ok lost)
    record :=
      if lost.isEmpty then
        { s.record with stored := s.record.stored ++ [⟨s.record.epoch, upto, writes⟩] }
      else s.record }

/-- The flush goes on once `store_many` returned. -/
def finish (s : State n σ) (writes : List (Owner n × StateWrite)) (upto : Nat) :
    Except String (List Nat) → State n σ
  | .ok [] =>
    { s with
      inner := { s.inner with
        versions := bump s.inner.versions (writes.map Prod.fst)
        flushed := upto }
      phase := .trimming }
  | _ => { s with phase := .failed }

def fold (s : State n σ) (loaded : List (Owner n)) (rows : Rows) (changes : List (Change n σ)) :
    State n σ :=
  match w.takeOver s.inner rows loaded with
  | .error inner => { s with inner := inner, loading := none }
  | .ok inner =>
    { s with
      inner := (changes.foldl Inner.change inner).folded
      loading := none
      woken := true
      record := s.record.fold (s.inner.seq + 1) changes }

/-- A batch folds while the flush loop runs beside it. -/
def step (s : State n σ) : Action n σ → Option (State n σ)
  | .enter keys =>
    if s.loading.isNone then
      match missing s.inner keys with
      -- nothing to load: the batch folds with what memory has
      | [] => some { s with loading := some ([], some fun _ => none) }
      | owners => some { s with loading := some (owners, none) }
    else none
  | .load =>
    match s.loading with
    | some (owners, none) =>
      some { s with loading := some (owners, some (s.rows.loadMany (owners.map w.storeKey))) }
    | _ => none
  | .loadFails =>
    match s.loading with
    | some (_, none) => some { s with loading := none }
    | _ => none
  | .fold changes =>
    match s.loading with
    | some (owners, some rows) => some (w.fold s owners rows changes)
    | _ => none
  | .take =>
    match s.phase with
    | .ready => some (w.flush s)
    | _ => none
  | .store =>
    match s.phase with
    | .storing writes upto => some (store s writes upto)
    | _ => none
  | .storeFails reached =>
    match s.phase with
    | .storing writes upto =>
      if reached.Sublist (writes.map Prod.snd) then
        some { s with
          rows := (s.rows.storeMany reached).1
          phase := .answered writes upto (.error "store unavailable") }
      else none
    | _ => none
  | .finish =>
    match s.phase with
    | .answered writes upto answer => some (finish s writes upto answer)
    | _ => none
  | .trim =>
    match s.phase with
    | .trimming =>
      if (List.finRange n).any fun i => (s.inner.states i).isFull then
        if s.loading.isNone then some { s with inner := s.inner.trim, phase := .ready }
        else none
      else some { s with phase := .ready }
    | _ => none
  | .drop =>
    match s.phase with
    | .failed =>
      if s.loading.isNone then
        some { s with
          inner := s.inner.drop
          phase := .ready
          record := { s.record with
            dropped := s.record.dropped ++ [(s.inner.flushed, s.inner.seq)] } }
      else none
    | _ => none
  | .rest =>
    match s.phase with
    | .idle => some { s with phase := if s.closed then .ended else .waiting }
    | _ => none
  | .wake =>
    match s.phase with
    | .waiting => if s.woken then some { s with phase := .ready, woken := false } else none
    | _ => none
  | .close => some { s with closed := true, woken := true }
  | .foreign writes => some { s with rows := (s.rows.storeMany writes).1 }

end Writer

end MqBridge.Aggregate
