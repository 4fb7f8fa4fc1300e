import MqBridge.Machine.Run
import MqBridge.Middleware.Aggregate.Round

/-! `consistency: shared`: any number of calls of `fold_shared`, of any number
of instances, against one store. A call loads the states of its keys, folds,
and writes them back guarded by their versions; keys another call changed in
between are reloaded, and only they are folded again. -/
namespace MqBridge.Aggregate

universe u v
variable {n : Nat} {σ : Type u} {τ : Type v}

def maxRounds : Nat := 32

/-- The key of a state in the store: entries of one middleware share a table. -/
def storeKey (A : Aggregate n σ τ) (owner : Owner n) : String :=
  ".".intercalate (A.into owner.1) ++ ":" ++ owner.2

namespace Shared

/-- A write of a round with its owner, and the visits it has folded. -/
structure Planned (n : Nat) (τ : Type v) where
  owner : Owner n
  write : StateWrite
  visits : List (Visit τ)

inductive Phase (n : Nat) (τ : Type v) where
  | loading
  | storing (writes : List (Planned n τ))
  | returned (result : Except String (List Folded))
  | panicked

/-- A call of `fold_shared`. `answers` records each `store_many` it made, with
the indices that lost the race. -/
structure Call (n : Nat) (σ : Type u) (τ : Type v) where
  messages : List CanonicalMessage
  pending : Fin n → List String
  states : Memory n σ
  versions : Fin n → HashMap Int
  slots : List (Emitted n)
  round : Nat
  phase : Phase n τ
  answers : List (List StateWrite × List Nat)

/-- Why a round stops before it writes: an error, or a version that is not
there. -/
inductive Halt where
  | failed (error : String)
  | panicked

variable (A : Aggregate n σ τ)

/-- Takes over the loaded states of the keys, with their versions. -/
def takeOver (states : Memory n σ) (versions : Fin n → HashMap Int) (loaded : Rows) :
    List (Owner n) → Except String (Memory n σ × (Fin n → HashMap Int))
  | [] => .ok (states, versions)
  | owner :: rest =>
    match loaded (A.storeKey owner) with
    | some (json, version) =>
      match A.parseState owner.1 json with
      | .error error => .error error
      | .ok state =>
        takeOver (states.insert owner state)
          (Function.update versions owner.1 ((versions owner.1).insert owner.2 version))
          (Function.update loaded (A.storeKey owner) none) rest
    | none =>
      takeOver (states.remove owner)
        (Function.update versions owner.1 ((versions owner.1).insert owner.2 0)) loaded rest

def plan (p : Progress n σ τ) (versions : Fin n → HashMap Int) :
    List (Owner n) → Except Halt (List (Planned n τ))
  | [] => .ok []
  | owner :: rest =>
    match p.states.get owner with
    | none => .error (.failed "aggregate: a folded state is gone")
    | some state =>
      match A.writeJson state with
      | .error error => .error (.failed error)
      | .ok json =>
        match (versions owner.1).lookup owner.2 with
        | none => .error .panicked
        | some expected =>
          match plan p versions rest with
          | .error halt => .error halt
          | .ok later =>
            .ok (⟨owner, ⟨A.storeKey owner, json, expected⟩, visitsOf p.trace owner⟩ :: later)

def ownersOf (keys : Fin n → List String) : List (Owner n) :=
  (List.finRange n).flatMap fun i => (keys i).map fun key => (i, key)

/-- The messages of a call, each with what the clock shows when a round comes
to it. -/
def visits (call : Nat) (messages : List CanonicalMessage) (clock : Nat → τ) : List (Visit τ) :=
  messages.zipIdx.map fun m => ⟨call, m.2, m.1, clock m.2⟩

def keptChangingText : String := "aggregate: states kept changing in the store for 32 rounds"

def notGivenText : String := "aggregate: the store reported a write it was not given"

namespace Call

def start (messages : List CanonicalMessage) : Call n σ τ where
  messages := messages
  pending := fun i => (messages.filterMap fun msg => A.keys msg i).dedup
  states := fun _ => States.new 0
  versions := fun _ => ∅
  slots := messages.map fun _ => .ok fun _ => none
  round := 0
  phase := .loading
  answers := []

def results (call : Call n σ τ) : List Folded :=
  List.zipWith (fun msg slot => A.settle msg (slot.bind (A.payload msg))) call.messages call.slots

/-- The keys a round is about; the first one is about every key. -/
def only (call : Call n σ τ) : Option (Fin n → List String) :=
  if 0 < call.round then some call.pending else none

def progress (call : Call n σ τ) (index : Nat) (states : Memory n σ) (clock : Nat → τ) :
    Progress n σ τ :=
  A.foldRound call.only ⟨states, fun _ => [], [], []⟩
    ((visits index call.messages clock).zip call.slots)

def load (call : Call n σ τ) (index : Nat) (rows : Rows) (clock : Nat → τ) : Call n σ τ :=
  let owners := ownersOf call.pending
  match takeOver A call.states call.versions (rows.loadMany (owners.map A.storeKey)) owners with
  | .error error => { call with phase := .returned (.error error) }
  | .ok (states, versions) =>
    let p := call.progress A index states clock
    let folded := { call with states := p.states, versions := versions, slots := p.slots }
    match plan A p versions (ownersOf p.touched) with
    | .error (.failed error) => { folded with phase := .returned (.error error) }
    | .error .panicked => { folded with phase := .panicked }
    | .ok [] => { folded with phase := .returned (.ok (folded.results A)) }
    | .ok (write :: later) => { folded with phase := .storing (write :: later) }

/-- The round ends: everything is stored, or the keys that lost the race are
folded again, unless the rounds are used up. -/
def stored (call : Call n σ τ) (writes : List (Planned n τ)) (lost : List Nat) : Call n σ τ :=
  let call := { call with answers := call.answers ++ [(writes.map Planned.write, lost)] }
  if lost.isEmpty then { call with phase := .returned (.ok (call.results A)) }
  else if lost.all fun index => index < writes.length then
    let again := (lost.filterMap fun index => writes[index]?).map Planned.owner
    { call with
      pending := fun i => (again.filterMap fun o => if o.1 = i then some o.2 else none).dedup
      round := call.round + 1
      phase := if call.round + 1 < maxRounds then .loading
        else .returned (.error keptChangingText) }
  else { call with phase := .returned (.error notGivenText) }

end Call

/-- The store with the calls. `log` records the writes that were carried out,
with the call they belong to. -/
structure State (n : Nat) (σ : Type u) (τ : Type v) where
  rows : Rows
  calls : List (Call n σ τ)
  log : List (Nat × Planned n τ)

inductive Action (τ : Type v) where
  | start (messages : List CanonicalMessage)
  /-- `load_many` of a call answers, and the call folds. -/
  | load (call : Nat) (clock : Nat → τ)
  | loadFails (call : Nat) (error : String)
  /-- `store_many` of a call is carried out. -/
  | store (call : Nat)
  /-- `store_many` of a call fails and writes nothing. -/
  | storeFails (call : Nat) (error : String)

def init (rows : Rows) : State n σ τ := ⟨rows, [], []⟩

def State.fail (s : State n σ τ) (index : Nat) (call : Call n σ τ) (error : String) : State n σ τ :=
  { s with calls := s.calls.set index { call with phase := .returned (.error error) } }

def State.store (s : State n σ τ) (index : Nat) (call : Call n σ τ) (writes : List (Planned n τ)) :
    State n σ τ :=
  let (rows, lost) := s.rows.storeMany (writes.map Planned.write)
  { rows := rows
    calls := s.calls.set index (call.stored A writes lost)
    log := s.log ++ (s.rows.carriedOut Planned.write writes).map fun planned => (index, planned) }

/-- Calls of several instances take turns at the store. -/
def step (s : State n σ τ) : Action τ → Option (State n σ τ)
  | .start messages => some { s with calls := s.calls ++ [Call.start A messages] }
  | .load index clock =>
    match s.calls[index]? with
    | some call =>
      match call.phase with
      | .loading => some { s with calls := s.calls.set index (call.load A index s.rows clock) }
      | _ => none
    | none => none
  | .loadFails index error =>
    match s.calls[index]? with
    | some call =>
      match call.phase with
      | .loading => some (s.fail index call error)
      | _ => none
    | none => none
  | .store index =>
    match s.calls[index]? with
    | some call =>
      match call.phase with
      | .storing writes => some (s.store A index call writes)
      | _ => none
    | none => none
  | .storeFails index error =>
    match s.calls[index]? with
    | some call =>
      match call.phase with
      | .storing _ => some (s.fail index call error)
      | _ => none
    | none => none

variable {A}

/-- Everything a step can do. -/
theorem step_cases {s t : State n σ τ} {action : Action τ} (hStep : step A s action = some t) :
    (∃ messages, action = .start messages ∧
      t = { s with calls := s.calls ++ [Call.start A messages] }) ∨
    (∃ index call clock, action = .load index clock ∧ s.calls[index]? = some call ∧
      call.phase = .loading ∧
        t = { s with calls := s.calls.set index (call.load A index s.rows clock) }) ∨
    (∃ index call writes, action = .store index ∧ s.calls[index]? = some call ∧
      call.phase = .storing writes ∧ t = s.store A index call writes) ∨
    ∃ index call error, (action = .loadFails index error ∨ action = .storeFails index error) ∧
      s.calls[index]? = some call ∧ t = s.fail index call error := by
  cases action with simp only [step] at hStep
  | start messages =>
    cases hStep
    exact .inl ⟨messages, rfl, rfl⟩
  | load index clock =>
    split at hStep
    next call hCall =>
      split at hStep
      next hPhase =>
        cases hStep
        exact .inr (.inl ⟨index, call, clock, rfl, hCall, hPhase, rfl⟩)
      next => cases hStep
    next => cases hStep
  | loadFails index error =>
    split at hStep
    next call hCall =>
      split at hStep
      next =>
        cases hStep
        exact .inr (.inr (.inr ⟨index, call, error, .inl rfl, hCall, rfl⟩))
      next => cases hStep
    next => cases hStep
  | store index =>
    split at hStep
    next call hCall =>
      split at hStep
      next writes hPhase =>
        cases hStep
        exact .inr (.inr (.inl ⟨index, call, writes, rfl, hCall, hPhase, rfl⟩))
      next => cases hStep
    next => cases hStep
  | storeFails index error =>
    split at hStep
    next call hCall =>
      split at hStep
      next =>
        cases hStep
        exact .inr (.inr (.inr ⟨index, call, error, .inr rfl, hCall, rfl⟩))
      next => cases hStep
    next => cases hStep

end Shared

end MqBridge.Aggregate
