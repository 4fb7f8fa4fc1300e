import Mathlib.Data.Finmap

/-! The message format and the answers that travel between the route, its
publishers and its consumers. A cause is the text an error prints; error
objects are never inspected beyond their class and this text. -/
namespace MqBridge

/-- The unified message format. An id is only ever compared, so its 128 bits
are a natural number. Metadata is a map: the order of its pairs is no data. -/
structure CanonicalMessage where
  messageId : Nat
  payload : List UInt8
  metadata : Finmap (fun _ : String => String)
deriving DecidableEq

namespace Metadata

variable (m : Finmap fun _ : String => String)

theorem lookup_erase (key other : String) :
    (m.erase key).lookup other = if other = key then none else m.lookup other := by
  split_ifs with hKey
  · rw [hKey, Finmap.lookup_erase]
  · rw [Finmap.lookup_erase_ne hKey]

theorem lookup_insert (key value other : String) :
    (m.insert key value).lookup other = if other = key then some value else m.lookup other := by
  split_ifs with hKey
  · rw [hKey, Finmap.lookup_insert]
  · rw [Finmap.lookup_insert_of_ne _ hKey]

end Metadata

inductive MessageDisposition where
  | ack
  | reply (message : CanonicalMessage)
  | nack
deriving DecidableEq

/-- `ProcessingError` of the source, under the name publishers use for it. -/
inductive PublisherError where
  | retryable (cause : String)
  | nonRetryable (cause : String)
  | connection (cause : String)
deriving DecidableEq

namespace PublisherError

def toText : PublisherError → String
  | retryable cause => "retryable error: " ++ cause
  | nonRetryable cause => "non-retryable error: " ++ cause
  | connection cause => "connection error: " ++ cause

def isTransient : PublisherError → Bool
  | nonRetryable _ => false
  | retryable _ | connection _ => true

end PublisherError

/-- What is left of an error without its cause. -/
inductive ErrorClass where
  | retryable
  | nonRetryable
  | connection
deriving DecidableEq

def PublisherError.errorClass : PublisherError → ErrorClass
  | retryable _ => .retryable
  | nonRetryable _ => .nonRetryable
  | connection _ => .connection

abbrev Failure := CanonicalMessage × PublisherError

/-- What `send_batch` reports about a batch it accepted. `partly` is the
source's `Partial`. -/
inductive SentBatch where
  | ack
  | partly (responses : Option (List CanonicalMessage)) (failed : List Failure)
deriving DecidableEq

abbrev SendResult := Except PublisherError SentBatch

end MqBridge
