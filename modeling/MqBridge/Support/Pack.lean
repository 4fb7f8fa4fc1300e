import MqBridge.Codec.Number
import MqBridge.Message
import MqBridge.Support.Text

/-! The envelope that carries a batch of messages in one payload: a header of
eight bytes whose flags say what a record holds, the number of records, and
the records one after another with every length in front of what it measures.
The other format is a plain list of payloads. -/
namespace MqBridge.Pack

open Codec Text

inductive PackFormat where
  | mqb
  | benthosBinary
deriving DecidableEq

def magic : List UInt8 := [0x4d, 0x51, 0x42, 0x31]

def version : UInt8 := 1

def headerLen : Nat := 8

def flagMetadata : UInt16 := 1

def flagMessageId : UInt16 := 2

def maxMetadataPairs : Nat := 64 * 1024

abbrev Metadata := Finmap (fun _ : String => String)

/-- The order in which a hash map goes through its entries. -/
structure MetadataOrder where
  pairs : Metadata → List (Σ _ : String, String)
  perm : ∀ metadata, (pairs metadata : Multiset (Σ _ : String, String)) = metadata.entries

noncomputable def someOrder : MetadataOrder :=
  ⟨fun metadata => metadata.entries.toList, fun _ => Multiset.coe_toList _⟩

/-! ### Packing -/

structure Packer where
  format : PackFormat
  includeMessageId : Bool

/-- Only one of the formats has room for ids. -/
def Packer.new (format : PackFormat) (includeMessageId : Bool) : Packer :=
  ⟨format, includeMessageId && format = .mqb⟩

def putText (text : String) : List UInt8 :=
  putUvarint (bytesOf text).length ++ bytesOf text

def putPair (pair : Σ _ : String, String) : List UInt8 := putText pair.1 ++ putText pair.2

def putMetadata (order : MetadataOrder) (metadata : Metadata) : List UInt8 :=
  putUvarint metadata.entries.card ++ (order.pairs metadata).flatMap putPair

def putRecord (order : MetadataOrder) (withMetadata withMessageId : Bool)
    (message : CanonicalMessage) : List UInt8 :=
  (if withMessageId then leBytes 16 message.messageId else []) ++
    (putUvarint message.payload.length ++ (message.payload ++
      if withMetadata then putMetadata order message.metadata else []))

def putBody (order : MetadataOrder) (withMetadata withMessageId : Bool)
    (messages : List CanonicalMessage) : List UInt8 :=
  putUvarint messages.length ++ messages.flatMap (putRecord order withMetadata withMessageId)

def putHeader (withMetadata withMessageId : Bool) : List UInt8 :=
  let flags := (if withMetadata then flagMetadata else 0) |||
    (if withMessageId then flagMessageId else 0)
  magic ++ [version, 0] ++ leBytes 2 flags.toNat

namespace Packer

/-- One message with metadata makes every record say how much it has. -/
def batchHasMetadata (packer : Packer) (messages : List CanonicalMessage) : Bool :=
  packer.format = .mqb && messages.any fun message => message.metadata.entries.card ≠ 0

def packMqb (packer : Packer) (order : MetadataOrder) (messages : List CanonicalMessage) :
    List UInt8 :=
  let withMetadata := packer.batchHasMetadata messages
  putHeader withMetadata packer.includeMessageId ++
    putBody order withMetadata packer.includeMessageId messages

/-- Numbers are cut to 32 bits, highest byte first. -/
def packBenthos (messages : List CanonicalMessage) : List UInt8 :=
  (leBytes 4 messages.length).reverse ++ messages.flatMap fun message =>
    (leBytes 4 message.payload.length).reverse ++ message.payload

def pack (packer : Packer) (order : MetadataOrder) (messages : List CanonicalMessage) :
    List UInt8 :=
  match packer.format with
  | .benthosBinary => packBenthos messages
  | .mqb => packer.packMqb order messages

end Packer

/-! ### Unpacking -/

structure UnpackLimits where
  maxMessages : Option Nat

/-- A record as it is read. A message whose id was not sent gets a new one. -/
structure PackedRecord where
  messageId : Option Nat
  payload : List UInt8
  metadata : Metadata

def PackedRecord.toMessage (newId : Nat) (record : PackedRecord) : CanonicalMessage :=
  ⟨record.messageId.getD newId, record.payload, record.metadata⟩

def uvarint : Reader String Nat :=
  getUvarint "packed batch is truncated inside a length prefix"
    "packed batch has an overlong length prefix"

def take (len : Nat) (what : String) : Reader String (List UInt8) := fun cursor =>
  if 2 ^ 64 ≤ cursor.pos + len then
    .error ("packed batch declares an impossible " ++ what ++ " length")
  else if cursor.rest.length < len then
    .error ("packed batch is truncated: " ++ what ++ " wants " ++ toString len ++ " bytes, " ++
      toString cursor.rest.length ++ " remain")
  else .ok (cursor.rest.take len, ⟨cursor.pos + len, cursor.rest.drop len⟩)

/-- A declared count must fit into the bytes that follow and under the limit. -/
def checkCount (count minRecordLen : Nat) (limits : UnpackLimits) : Reader String Unit := do
  ensure (fun remaining => count ≤ remaining / minRecordLen) fun remaining =>
    "packed batch declares " ++ toString count ++ " messages but only " ++ toString remaining ++
      " bytes follow, room for at most " ++ toString (remaining / minRecordLen)
  match limits.maxMessages with
  | some max => ensure (fun _ => count ≤ max) fun _ =>
    "packed batch holds " ++ toString count ++
      " messages, above the configured max_messages of " ++ toString max
  | none => pure ()

def getText (what : String) : Reader String String := do
  let len ← uvarint
  let bytes ← take len what
  StateT.lift (fromUtf8 bytes)

def getPair : Reader String (Σ _ : String, String) := do
  let key ← getText "metadata key"
  let value ← getText "metadata value"
  pure ⟨key, value⟩

def insertAll (pairs : List (Σ _ : String, String)) : Metadata :=
  pairs.foldl (fun metadata pair => metadata.insert pair.1 pair.2) ∅

/-- The bound on the number of pairs is a parameter here; `unpackMqb` gives it
its value. -/
def getMetadata (maxPairs : Nat) : Reader String Metadata := do
  let pairs ← uvarint
  ensure (fun _ => pairs ≤ maxPairs) fun _ =>
    "packed record declares " ++ toString pairs ++ " metadata pairs, above the " ++
      toString maxPairs ++ " a single record may carry"
  ensure (fun remaining => pairs ≤ remaining / 2) fun _ =>
    "packed record declares " ++ toString pairs ++ " metadata pairs but the batch is shorter"
  let entries ← readMany getPair pairs
  pure (insertAll entries)

def getMessageId (withMessageId : Bool) : Reader String (Option Nat) :=
  if withMessageId then do
    let raw ← take 16 "message id"
    pure (some (ofLeBytes raw))
  else pure none

def getMetadataIf (maxPairs : Nat) (withMetadata : Bool) : Reader String Metadata :=
  if withMetadata then getMetadata maxPairs else pure ∅

def getRecord (maxPairs : Nat) (withMetadata withMessageId : Bool) :
    Reader String PackedRecord := do
  let messageId ← getMessageId withMessageId
  let payloadLen ← uvarint
  let payload ← take payloadLen "payload"
  let metadata ← getMetadataIf maxPairs withMetadata
  pure ⟨messageId, payload, metadata⟩

/-- The least a record takes: its payload length, its id and its pair count. -/
def minRecordLen (withMetadata withMessageId : Bool) : Nat :=
  1 + 16 * withMessageId.toNat + withMetadata.toNat

def getBody (maxPairs : Nat) (withMetadata withMessageId : Bool) (limits : UnpackLimits) :
    Reader String (List PackedRecord) := do
  let count ← uvarint
  checkCount count (minRecordLen withMetadata withMessageId) limits
  readMany (getRecord maxPairs withMetadata withMessageId) count

/-- The flags of a header that this version understands. -/
def getHeader (header : List UInt8) : Except String (Bool × Bool) :=
  let flags := UInt16.ofNat (ofLeBytes (header.drop 6))
  let unknown := flags &&& ~~~(flagMetadata ||| flagMessageId)
  if header.length < headerLen then
    .error ("packed batch is shorter than the " ++ toString headerLen ++ "-byte envelope header")
  else if header.take 4 ≠ magic then
    .error ("payload is not an mq-bridge packed batch (bad magic); is `pack` configured " ++
      "on the sending side?")
  else if header.getD 4 0 ≠ version then
    .error ("packed batch is format version " ++ toString (header.getD 4 0) ++
      ", this build understands " ++ toString version)
  else if header.getD 5 0 ≠ 0 then
    .error ("packed batch sets reserved header byte 5 to " ++ toString (header.getD 5 0) ++
      "; this build expects 0. A newer writer may be using an envelope feature this version " ++
        "does not have.")
  else if unknown ≠ 0 then
    .error ("packed batch sets unknown flags 0x" ++ padded 4 (Nat.toDigits 16 unknown.toNat) ++
      "; a newer writer may be using a record layout this version does not have")
  else .ok (flags &&& flagMetadata ≠ 0, flags &&& flagMessageId ≠ 0)

def unpackRecords (maxPairs : Nat) (payload : List UInt8) (limits : UnpackLimits) :
    Except String (List PackedRecord) := do
  let (withMetadata, withMessageId) ← getHeader (payload.take headerLen)
  let (records, cursor) ←
    (getBody maxPairs withMetadata withMessageId limits).run ⟨0, payload.drop headerLen⟩
  if cursor.rest.isEmpty then pure records
  else .error ("packed batch has " ++ toString cursor.rest.length ++
    " trailing bytes after its " ++ toString records.length ++ " records")

/-- The ids of the messages that were sent without one come from a generator. -/
def unpackMqb (newId : Nat → Nat) (payload : List UInt8) (limits : UnpackLimits) :
    Except String (List CanonicalMessage) :=
  (unpackRecords maxMetadataPairs payload limits).map fun records =>
    records.mapIdx fun i record => record.toMessage (newId i)

def getPart : Reader String PackedRecord := do
  let len ← take 4 "record length"
  let payload ← take (ofLeBytes len.reverse) "payload"
  pure ⟨none, payload, ∅⟩

/-- Bytes behind the last part are not looked at. -/
def unpackBenthos (newId : Nat → Nat) (payload : List UInt8) (limits : UnpackLimits) :
    Except String (List CanonicalMessage) :=
  if payload.length < 4 then
    .error "benthos_binary batch is shorter than its 4-byte count prefix"
  else do
    let count := ofLeBytes (payload.take 4).reverse
    let (records, _) ← (checkCount count 4 limits >>= fun _ => readMany getPart count).run
      ⟨4, payload.drop 4⟩
    pure (records.mapIdx fun i record => record.toMessage (newId i))

def unpack (newId : Nat → Nat) (format : PackFormat) (payload : List UInt8)
    (limits : UnpackLimits) : Except String (List CanonicalMessage) :=
  match format with
  | .benthosBinary => unpackBenthos newId payload limits
  | .mqb => unpackMqb newId payload limits

end MqBridge.Pack
