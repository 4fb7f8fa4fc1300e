import MqBridge.Publisher

/-! What a publisher with several destinations sees of each of them, and when
a combined answer keeps a transient failure of one destination alive. -/
namespace MqBridge

namespace SentBatch

def ofParts (responses : List CanonicalMessage) (failed : List Failure) : SentBatch :=
  if failed.isEmpty && responses.isEmpty then ack
  else partly (if responses.isEmpty then none else some responses) failed

@[simp] theorem failures_ofParts (responses : List CanonicalMessage) (failed : List Failure) :
    (ofParts responses failed).failures = failed := by
  unfold ofParts
  split_ifs with h <;> simp_all [SentBatch.failures]

end SentBatch

namespace Structural

abbrev Destination := List CanonicalMessage → SendResult

def listed : SendResult → List Failure
  | .ok batch => batch.failures
  | .error _ => []

def firstError : List SendResult → Option PublisherError
  | [] => none
  | .error e :: _ => some e
  | .ok _ :: rest => firstError rest

theorem firstError_mem {results : List SendResult} {e : PublisherError}
    (h : firstError results = some e) : .error e ∈ results := by
  induction results with
  | nil => cases h
  | cons result rest ih =>
    cases result with
    | error e' =>
      cases h
      exact List.mem_cons_self ..
    | ok batch => exact List.mem_cons_of_mem _ (ih h)

theorem firstError_eq_none {results : List SendResult} (h : firstError results = none)
    {result : SendResult} (hMem : result ∈ results) : ∃ batch, result = .ok batch := by
  induction results with
  | nil => cases hMem
  | cons first rest ih =>
    cases first with
    | error e => cases h
    | ok batch =>
      rcases List.mem_cons.mp hMem with rfl | hRest
      · exact ⟨batch, rfl⟩
      · exact ih h hRest

/-- A destination that was sent `sent` reported `m` failed with an error that
another attempt may cure, in its list or for its whole call. -/
def ReportsTransient (sent : List CanonicalMessage) (m : CanonicalMessage) :
    SendResult → Prop
  | .ok batch => ∃ e, (m, e) ∈ batch.failures ∧ e.isTransient = true
  | .error e => e.isTransient = true ∧ m ∈ sent

/-- The answer neither reports `m` delivered nor gives it up: the whole call
failed with a curable error, or `m` is listed with one. -/
def KeepsTransient (m : CanonicalMessage) : SendResult → Prop
  | .ok batch => ∃ e, (m, e) ∈ batch.failures ∧ e.isTransient = true
  | .error e => e.isTransient = true

/-- A whole-call error stands for every message of its batch. -/
theorem forall_curable_iff {messages : List CanonicalMessage} {reported : CanonicalMessage → Prop}
    {curable : Prop} :
    (∀ m ∈ messages, reported m → curable) ↔ curable ∨ ∀ m ∈ messages, ¬reported m := by
  constructor
  · intro h
    by_cases hCurable : curable
    · exact .inl hCurable
    · exact .inr fun m hm hReport => hCurable (h m hm hReport)
  · rintro (hCurable | hNone) m hm hReport
    · exact hCurable
    · exact False.elim (hNone m hm hReport)

end Structural
end MqBridge
