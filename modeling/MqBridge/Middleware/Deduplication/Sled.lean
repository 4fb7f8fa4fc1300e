import Mathlib.Data.List.Basic
import Mathlib.Logic.Function.Basic
import MqBridge.Machine.Run

/-! The replies that the deduplication store on disk keeps. The time a key was processed and its
reply are in two trees, and a mark and the cleaner each change them in two steps. -/
namespace MqBridge.Deduplication.Sled

open Function Machine

variable {κ : Type} [DecidableEq κ]

/-- A key is in `marking` when its reply is stored and its time is not yet, and in `removing`
when the cleaner has deleted its time and not yet its reply. -/
structure State (κ : Type) where
  db : κ → Option Nat
  responses : κ → Option (List UInt8)
  marking : List κ
  removing : List κ

def empty : State κ := ⟨fun _ => none, fun _ => none, [], []⟩

inductive Action (κ : Type) where
  /-- The two steps of `mark_processed_with_response`. -/
  | storeResponse (key : κ) (response : List UInt8)
  | commit (key : κ) (now : Nat)
  | storedResponse (key : κ)
  /-- The two steps of `maybe_cleanup` for a key that it has read. -/
  | delete (key : κ) (since now : Nat)
  | remove (key : κ)

def step (ttlSeconds : Nat) (s : State κ) : Action κ → Option (State κ)
  | .storeResponse key response =>
    some { s with responses := update s.responses key (some response), marking := key :: s.marking }
  | .commit key now =>
    if key ∈ s.marking then
      some { s with db := update s.db key (some now), marking := s.marking.erase key }
    else none
  | .storedResponse _ => some s
  | .delete key since now =>
    if s.db key = some since ∧ since < now - ttlSeconds then
      some { s with db := update s.db key none, removing := key :: s.removing }
    else none
  | .remove key =>
    if key ∈ s.removing then
      some { s with responses := update s.responses key none, removing := s.removing.erase key }
    else none

/-- A mark and the cleaner are not both between their steps for one key. -/
def Apart (s : State κ) : Action κ → Prop
  | .storeResponse key _ => key ∉ s.removing
  | .delete key _ _ => key ∉ s.marking
  | _ => True

/-- The invariant of a run. -/
structure Sound (s : State κ) : Prop where
  replied : ∀ key, (s.db key).isSome ∨ key ∈ s.marking → (s.responses key).isSome
  gone : ∀ key ∈ s.removing, s.db key = none ∧ key ∉ s.marking

omit [DecidableEq κ] in
theorem sound_empty : Sound (empty : State κ) := ⟨by simp [empty], nofun⟩

theorem step_sound {ttlSeconds : Nat} (s : State κ) (action : Action κ) (t : State κ) (h : Sound s)
    (hApart : Apart s action) (hStep : step ttlSeconds s action = some t) : Sound t := by
  have hReplied := h.replied
  have hGone := h.gone
  cases action with
  | storeResponse key response =>
    cases hStep
    constructor <;> grind [Apart, update_apply]
  | commit key now =>
    obtain ⟨hMarking, ⟨⟩⟩ := Option.ite_none_right_eq_some.mp hStep
    constructor <;> grind [update_apply, List.mem_of_mem_erase]
  | storedResponse key =>
    cases hStep
    exact h
  | delete key since now =>
    obtain ⟨-, ⟨⟩⟩ := Option.ite_none_right_eq_some.mp hStep
    constructor <;> grind [Apart, update_apply]
  | remove key =>
    obtain ⟨hRemoving, ⟨⟩⟩ := Option.ite_none_right_eq_some.mp hStep
    constructor <;> grind [update_apply, List.mem_of_mem_erase]

/-- As long as no mark of a key overlaps a cleaning of it, the key has its reply while it is
processed. -/
theorem processed_keeps_reply {ttlSeconds : Nat} {actions : List (Action κ)} {s : State κ}
    (hApart : Guarded (step ttlSeconds) Apart empty actions)
    (hRun : run (step ttlSeconds) empty actions = some s) {key : κ}
    (hProcessed : (s.db key).isSome) : (s.responses key).isSome :=
  (invariant_of_guarded step_sound sound_empty hApart hRun).replied key (.inl hProcessed)

theorem processed_keeps_reply_cleaned :
    let actions := [.storeResponse 1 [7], .commit 1 0, .delete 1 0 100, .remove 1,
      .storeResponse 1 [8], .commit 1 100]
    ∃ s : State Nat, run (step 60) empty actions = some s ∧ s.db 1 = some 100 ∧
      (s.responses 1).isSome := by
  intro actions
  have hApart : Guarded (step 60) Apart (empty : State Nat) actions := by
    simp [actions, Guarded, Apart, step, empty]
  exact ⟨_, rfl, rfl, processed_keeps_reply hApart rfl rfl⟩

/-- A reply that is stored after the cleaner deleted the old time is removed with it. -/
theorem fresh_reply_removed : ∃ s : State Nat, run (step 60) empty
      [.storeResponse 1 [7], .commit 1 0, .delete 1 0 100, .storeResponse 1 [8], .commit 1 100,
        .remove 1] = some s ∧ s.db 1 = some 100 ∧ s.responses 1 = none :=
  ⟨_, rfl, rfl, rfl⟩

end MqBridge.Deduplication.Sled
