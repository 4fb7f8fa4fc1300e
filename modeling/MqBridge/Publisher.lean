import Mathlib.Data.Multiset.AddSub
import Mathlib.Algebra.Order.Group.Multiset
import Mathlib.Algebra.BigOperators.Group.Multiset.Basic
import MqBridge.Message

/-! Publishers as state transformers, and the record of the calls that a
wrapping publisher makes. A recorded call keeps what was sent and what was
answered; which messages it settled is computed from these two. -/
namespace MqBridge

/-- One `send_batch` call: the state may hold anything a later answer depends
on, so an arbitrary transformer is an arbitrary behaviour over time. -/
abbrev Publisher (σ : Type) := List CanonicalMessage → σ → SendResult × σ

structure Call where
  sent : List CanonicalMessage
  answer : SendResult

namespace SentBatch

def failedMessages : SentBatch → List CanonicalMessage
  | ack => []
  | partly _ failed => failed.map Prod.fst

def failures : SentBatch → List Failure
  | ack => []
  | partly _ failed => failed

theorem map_failures (sent : SentBatch) : sent.failures.map Prod.fst = sent.failedMessages := by
  cases sent <;> rfl

end SentBatch

namespace Call

/-- The messages this call reported failed with an error of the given class.
An error for the whole call is reported for every message sent in it. -/
def failedWith (c : Call) (select : PublisherError → Bool) : List CanonicalMessage :=
  match c.answer with
  | .ok .ack => []
  | .ok (.partly _ failed) => (failed.filter fun f => select f.2).map Prod.fst
  | .error e => if select e then c.sent else []

def failed (c : Call) : List CanonicalMessage := c.failedWith fun _ => true

def failures (c : Call) : List Failure :=
  match c.answer with
  | .ok sent => sent.failures
  | .error e => c.sent.map fun m => (m, e)

theorem map_filter_failures (c : Call) (select : PublisherError → Bool) :
    (c.failures.filter fun f => select f.2).map Prod.fst = c.failedWith select := by
  obtain ⟨sent, answer⟩ := c
  cases answer with
  | error e =>
    cases hSelect : select e <;>
      simp [failures, failedWith, List.filter_map, Function.comp_def, hSelect]
  | ok batch => cases batch <;> rfl

theorem map_failures (c : Call) : c.failures.map Prod.fst = c.failed := by
  rw [failed, ← c.map_filter_failures, List.filter_true]

def delivered (c : Call) : Multiset CanonicalMessage :=
  (c.sent : Multiset CanonicalMessage) - (c.failed : Multiset CanonicalMessage)

/-- The failed messages split by any class of errors. -/
theorem failedWith_add_not (c : Call) (select : PublisherError → Bool) :
    (c.failedWith select : Multiset CanonicalMessage) + c.failedWith (fun e => !select e) =
      (c.failed : Multiset CanonicalMessage) := by
  obtain ⟨sent, answer⟩ := c
  cases answer with
  | error e => cases h : select e <;> simp [failed, failedWith, h]
  | ok batch =>
    cases batch with
    | ack => simp [failed, failedWith]
    | partly responses failed =>
      simp only [Call.failed, failedWith, List.filter_true, Multiset.coe_add, Multiset.coe_eq_coe,
        ← List.map_append]
      exact (List.filter_append_perm (fun f => select f.2) failed).map Prod.fst

end Call

namespace Publisher

variable {σ : Type}

/-- Every message a partial answer lists as failed was part of the batch,
with at most as many copies. -/
def FailsWithinBatch (inner : Publisher σ) : Prop :=
  ∀ batch s responses failed, (inner batch s).1 = .ok (.partly responses failed) →
    ((failed.map Prod.fst : List CanonicalMessage) : Multiset CanonicalMessage) ≤ batch

def recorded (inner : Publisher σ) : Publisher (σ × List Call) :=
  fun batch s =>
    let out := inner batch s.1
    (out.1, out.2, s.2 ++ [⟨batch, out.1⟩])

def beside {κ : Type} (inner : Publisher σ) : Publisher (σ × κ) :=
  fun batch s =>
    let out := inner batch s.1
    (out.1, out.2, s.2)

theorem recorded_call_failed_le {inner : Publisher σ} (hInner : inner.FailsWithinBatch)
    (batch : List CanonicalMessage) (s : σ) :
    ((Call.mk batch (inner batch s).1).failed : Multiset CanonicalMessage) ≤ batch := by
  cases h : (inner batch s).1 with
  | error e => simp [Call.failed, Call.failedWith]
  | ok sent =>
    cases sent with
    | ack => exact Multiset.zero_le _
    | partly responses failed =>
      simpa [Call.failed, Call.failedWith] using hInner batch s responses failed h

end Publisher
end MqBridge
