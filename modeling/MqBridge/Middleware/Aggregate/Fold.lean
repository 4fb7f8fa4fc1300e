import Mathlib.Data.List.FinRange
import MqBridge.Message
import MqBridge.Middleware.Aggregate.States
import MqBridge.Middleware.Aggregate.Store

/-! How the messages of a batch are folded into the states of their keys. What
an entry reads from a message, how it updates a state and how results are
written into a payload are parameters; which entries run, on which states, and
what becomes of their results is the code's. -/
namespace MqBridge

open Function List

universe u v

inductive AggregateOnError where
  | drop
  | fail
  | skip
deriving DecidableEq

/-- What an entry makes of a message: the next state, the JSON it emits and
whether the message came late; or an error that `on_error: skip` passes over;
or one that it does not. -/
inductive Evaluated (σ : Type u) where
  | next (state : σ) (json : List UInt8) (late : Bool)
  | unready (error : String)
  | failed (error : String)

/-- The entries of an aggregate. Expressions read one document per message,
in which each evaluation sets the field `state`; so the key of a later entry
may see what an earlier one put there, which is the argument of `keyAt`. The
clock is read once per message that is folded. -/
structure Aggregate (n : Nat) (σ : Type u) (τ : Type v) where
  into : Fin n → List String
  onError : AggregateOnError
  readOnly : Bool
  /-- The key as read from the message alone. -/
  keyOf : Fin n → CanonicalMessage → Option String
  /-- The key as read from the document, with what is in its `state` by then. -/
  keyAt : Fin n → CanonicalMessage → Option (Option σ) → Option String
  /-- The document of a message and the values its entries read. -/
  read : CanonicalMessage → Except String Unit
  evaluate : Fin n → CanonicalMessage → τ → Option σ → Evaluated σ
  /-- What the evaluation leaves in `state`, if it sets it. -/
  leaves : Fin n → CanonicalMessage → τ → Option σ → Option (Option σ)
  writePayload : List UInt8 → List (List String × List UInt8) → Except String (List UInt8)
  parseState : Fin n → String → Except String σ
  writeJson : σ → Except String String

namespace Aggregate

variable {n : Nat} {σ : Type u} {τ : Type v}

def maxKeyLen : Nat := 384

def skippedKey : String := "mqb.aggregate.skipped"

def lateKey : String := "mqb.aggregate.late"

structure Update (n : Nat) (σ : Type u) where
  owner : Owner n
  state : σ
  json : List UInt8
  late : Bool

/-- The JSON each entry writes and whether it came late; nothing until that
entry ran. -/
abbrev Outputs (n : Nat) := Fin n → Option (List UInt8 × Bool)

/-- The outputs of a message, or why it failed. -/
abbrev Emitted (n : Nat) := Except String (Outputs n)

structure Notes (n : Nat) where
  skipped : List (Fin n)
  late : List (Fin n)

abbrev Folded := Except (CanonicalMessage × PublisherError) CanonicalMessage

variable (A : Aggregate n σ τ)

/-- The key of every entry for this message; `none` where it cannot be read. -/
def keys (msg : CanonicalMessage) (i : Fin n) : Option String :=
  (A.keyOf i msg).filter fun key => key.utf8ByteSize ≤ maxKeyLen

/-- Under `on_error: skip` an entry that cannot be computed is left out. -/
def skip (error : String) (rest : Except String (List (Update n σ))) :
    Except String (List (Update n σ)) :=
  match A.onError with
  | .skip => rest
  | _ => .error error

/-- `compute` from the given entries on, with what is in `state` so far. -/
def computeFrom (msg : CanonicalMessage) (now : τ) (memory : Memory n σ)
    (only : Option (Fin n → List String)) :
    List (Fin n) → Option (Option σ) → Except String (List (Update n σ))
  | [], _ => .ok []
  | i :: rest, seen =>
    match A.keyAt i msg seen with
    | none =>
      A.skip "aggregate: `key` has no value for this message"
        (computeFrom msg now memory only rest seen)
    | some key =>
      if maxKeyLen < key.utf8ByteSize then
        A.skip "aggregate: `key` is longer than 384 bytes"
          (computeFrom msg now memory only rest seen)
      else if only.any fun only => !(only i).contains key then
        computeFrom msg now memory only rest seen
      else
        let previous := memory.get (i, key)
        let seen := (A.leaves i msg now previous).or seen
        match A.evaluate i msg now previous with
        | .next state json late => do
            let updates ← computeFrom msg now memory only rest seen
            return ⟨(i, key), state, json, late⟩ :: updates
        | .unready error => A.skip error (computeFrom msg now memory only rest seen)
        | .failed error => .error error

/-- Evaluates the entries of one message whose key is in `only`, every entry
without it, and changes no state. -/
def compute (msg : CanonicalMessage) (now : τ) (memory : Memory n σ)
    (only : Option (Fin n → List String)) : Except String (List (Update n σ)) :=
  match A.read msg with
  | .error error => .error error
  | .ok () => A.computeFrom msg now memory only (List.finRange n) none

/-- Writes what the entries emitted into the payload of the message. An entry
that emitted nothing was skipped. -/
def payload (msg : CanonicalMessage) (emitted : Outputs n) :
    Except String (List UInt8 × Notes n) :=
  let notes : Notes n :=
    ⟨(List.finRange n).filter fun i => (emitted i).isNone, (List.finRange n).filter fun i =>
      (emitted i).any Prod.snd⟩
  let values := (List.finRange n).filterMap fun i => (emitted i).map fun e => (A.into i, e.1)
  if values.isEmpty then .ok (msg.payload, notes)
  else do
    let written ← A.writePayload msg.payload values
    return (written, notes)

/-- Names some entries in the metadata of a message. -/
def mark (msg : CanonicalMessage) (key : String) (entries : List (Fin n)) : CanonicalMessage :=
  if entries.isEmpty then msg
  else
    { msg with
      metadata := msg.metadata.insert key
        (",".intercalate (entries.map fun i => ".".intercalate (A.into i))) }

/-- Puts the outcome of folding into the message. Under `on_error: skip` a
message that cannot be folded goes on unchanged. -/
def settle (msg : CanonicalMessage) : Except String (List UInt8 × Notes n) → Folded
  | .ok (payload, notes) =>
    .ok (A.mark
      (A.mark { msg with payload := payload } skippedKey notes.skipped) lateKey notes.late)
  | .error error =>
    match A.onError with
    | .skip => .ok (A.mark msg skippedKey (List.finRange n))
    | _ => .error (msg, .nonRetryable error)

/-- A message of a batch when a round comes to it: which call it belongs to,
its place in the batch, and what the clock shows. -/
structure Visit (τ : Type v) where
  call : Nat
  index : Nat
  message : CanonicalMessage
  now : τ

/-- What a round has done so far: the states and the keys it changed, the
slots of the messages it visited, and which of them it folded into which key. -/
structure Progress (n : Nat) (σ : Type u) (τ : Type v) where
  states : Memory n σ
  touched : Fin n → List String
  slots : List (Emitted n)
  trace : List (Owner n × Visit τ)

def affected (only : Option (Fin n → List String)) (msg : CanonicalMessage) : Bool :=
  match only with
  | none => true
  | some only => (List.finRange n).any fun i => (A.keys msg i).any fun key => (only i).contains key

def emit (emitted : Outputs n) (updates : List (Update n σ)) :
    Outputs n :=
  updates.foldl (fun emitted u => update emitted u.owner.1 (some (u.json, u.late))) emitted

def Progress.apply (p : Progress n σ τ) (visit : Visit τ) (updates : List (Update n σ))
    (slot : Emitted n) : Progress n σ τ where
  states := updates.foldl (fun memory u => memory.insert u.owner u.state) p.states
  touched := updates.foldl (fun touched u =>
    update touched u.owner.1 ((touched u.owner.1).insert u.owner.2)) p.touched
  slots := p.slots ++ [slot]
  trace := p.trace ++ updates.map fun u => (u.owner, visit)

/-- One message of a round. A message that fails keeps its error and is
skipped later. The states are stored before the payload is written, so an
output that has no place in the payload fails here and changes no state. -/
def foldMessage (only : Option (Fin n → List String)) (p : Progress n σ τ) (visit : Visit τ)
    (slot : Emitted n) : Progress n σ τ :=
  match slot with
  | .error _ => p.apply visit [] slot
  | .ok emitted =>
    if A.affected only visit.message then
      match A.compute visit.message visit.now p.states only with
      | .error error => p.apply visit [] (.error error)
      | .ok updates =>
        match A.payload visit.message (emit emitted updates) with
        | .error error => p.apply visit [] (.error error)
        | .ok _ => p.apply visit (if A.readOnly then [] else updates) (.ok (emit emitted updates))
    else p.apply visit [] slot

/-- Folds the messages that still have a key in `only`, all without it. -/
def foldRound (only : Option (Fin n → List String)) (p : Progress n σ τ)
    (visits : List (Visit τ × Emitted n)) : Progress n σ τ :=
  visits.foldl (fun p visit => A.foldMessage only p visit.1 visit.2) p

/-- What may be in `state` when an entry is reached: nothing, or what an earlier
entry with a usable key has left there, whatever state was stored for that key. -/
inductive Reaches (msg : CanonicalMessage) : Fin n → Option (Option σ) → Prop
  | fresh (i : Fin n) : Reaches msg i none
  | left {i j : Fin n} (hEarlier : j < i) {seen : Option (Option σ)} (hSeen : Reaches msg j seen)
      {key : String} (hKey : A.keyAt j msg seen = some key)
      (hShort : key.utf8ByteSize ≤ maxKeyLen) {now : τ} {previous state : Option σ}
      (hLeaves : A.leaves j msg now previous = some state) : Reaches msg i (some state)

variable {A}

/-- An update comes from evaluating its entry on the state of the key that
the document names. -/
structure Computed (A : Aggregate n σ τ) (msg : CanonicalMessage) (now : τ) (memory : Memory n σ)
    (only : Option (Fin n → List String)) (u : Update n σ) : Prop where
  key : ∃ seen, A.Reaches msg u.owner.1 seen ∧ A.keyAt u.owner.1 msg seen = some u.owner.2
  short : u.owner.2.utf8ByteSize ≤ maxKeyLen
  wanted : ∀ pending, only = some pending → u.owner.2 ∈ pending u.owner.1
  next : A.evaluate u.owner.1 msg now (memory.get u.owner) = .next u.state u.json u.late

variable {updates : List (Update n σ)}

theorem skip_eq_ok {error : String} {rest : Except String (List (Update n σ))}
    (h : A.skip error rest = .ok updates) : rest = .ok updates := by
  rw [skip] at h
  split at h
  · exact h
  · cases h

variable {only : Option (Fin n → List String)} {memory : Memory n σ} {msg : CanonicalMessage}

/-- Each entry is updated at most once, and each update is computed. -/
theorem computeFrom_spec {now : τ} {entries : List (Fin n)} {seen : Option (Option σ)}
    (hOrder : entries.Pairwise (· < ·)) (hSeen : ∀ i ∈ entries, A.Reaches msg i seen)
    (h : A.computeFrom msg now memory only entries seen = .ok updates) :
    (updates.map fun u => u.owner.1).Sublist entries ∧
      ∀ u ∈ updates, A.Computed msg now memory only u := by
  induction entries generalizing seen updates with
  | nil =>
    cases h
    exact ⟨.slnil, nofun⟩
  | cons i rest ih =>
    obtain ⟨hFirst, hOrder⟩ := pairwise_cons.mp hOrder
    obtain ⟨hHere, hRest⟩ := forall_mem_cons.mp hSeen
    rw [computeFrom] at h
    cases hKey : A.keyAt i msg seen with
    | none =>
      rw [hKey] at h
      obtain ⟨hSub, hAll⟩ := ih hOrder hRest (skip_eq_ok h)
      exact ⟨hSub.cons _, hAll⟩
    | some key =>
      rw [hKey] at h
      simp only at h
      split_ifs at h with hLong hOnly
      · obtain ⟨hSub, hAll⟩ := ih hOrder hRest (skip_eq_ok h)
        exact ⟨hSub.cons _, hAll⟩
      · obtain ⟨hSub, hAll⟩ := ih hOrder hRest h
        exact ⟨hSub.cons _, hAll⟩
      · have hNow : ∀ j ∈ rest,
            A.Reaches msg j ((A.leaves i msg now (memory.get (i, key))).or seen) := by
          intro j hMem
          cases hLeaves : A.leaves i msg now (memory.get (i, key)) with
          | none => exact hRest j hMem
          | some state => exact .left (hFirst j hMem) hHere hKey (not_lt.mp hLong) hLeaves
        cases hNext : A.evaluate i msg now (memory.get (i, key)) with
        | unready error =>
          rw [hNext] at h
          obtain ⟨hSub, hAll⟩ := ih hOrder hNow (skip_eq_ok h)
          exact ⟨hSub.cons _, hAll⟩
        | failed error =>
          rw [hNext] at h
          cases h
        | next state json late =>
          rw [hNext] at h
          obtain ⟨later, hLater, hOk⟩ := Outcome.bind_eq_ok.mp h
          cases hOk
          obtain ⟨hSub, hAll⟩ := ih hOrder hNow hLater
          refine ⟨hSub.cons_cons i, fun u hMem => ?_⟩
          rcases mem_cons.mp hMem with rfl | hMem
          · refine ⟨⟨seen, hHere, hKey⟩, not_lt.mp hLong, fun pending hPend => ?_, hNext⟩
            rw [hPend] at hOnly
            simpa using hOnly
          · exact hAll u hMem

theorem compute_spec {now : τ} (h : A.compute msg now memory only = .ok updates) :
    (updates.map fun u => u.owner.1).Nodup ∧ ∀ u ∈ updates, A.Computed msg now memory only u := by
  rw [compute] at h
  split at h
  · cases h
  · obtain ⟨hSub, hAll⟩ := computeFrom_spec (pairwise_lt_finRange n) (fun i _ => .fresh i) h
    exact ⟨hSub.nodup (nodup_finRange n), hAll⟩

/-- An entry has emitted once it has an update, or had emitted before. -/
theorem isSome_emit {emitted : Outputs n} {i : Fin n} :
    (emit emitted updates i).isSome ↔ (emitted i).isSome ∨ ∃ u ∈ updates, u.owner.1 = i := by
  induction updates generalizing emitted with
  | nil => simp [emit]
  | cons u rest ih =>
    have hCons : emit emitted (u :: rest) =
      emit (update emitted u.owner.1 (some (u.json, u.late))) rest := rfl
    rw [hCons, ih]
    by_cases hEntry : i = u.owner.1
    · subst hEntry
      simp
    · rw [update_of_ne hEntry]
      have hNe : u.owner.1 ≠ i := symm hEntry
      simp [hNe]
end Aggregate

end MqBridge
