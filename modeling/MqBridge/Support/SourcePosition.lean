import Mathlib.Data.Prod.Lex
import Mathlib.Data.String.Basic
import Mathlib.Order.SuccPred.Basic
import MqBridge.Message
import MqBridge.Support.Text

/-! The position of a message in the source it was read from, as idempotent
sinks take it from the metadata. Every source stamps its own keys; a source
without a single running offset puts the rest of its position into the name of
the partition, in fixed width, so that names sort as positions do. -/

namespace MqBridge

/-- The order of the machine integers, as their type already has it. -/
instance u64LinearOrder : LinearOrder UInt64 where
  le_refl := UInt64.le_refl
  le_trans _ _ _ := UInt64.le_trans
  le_antisymm _ _ := UInt64.le_antisymm
  le_total := UInt64.le_total
  lt_iff_le_not_ge a b := by
    rw [UInt64.lt_iff_toNat_lt, UInt64.le_iff_toNat_le, UInt64.le_iff_toNat_le]
    omega
  toDecidableLE := inferInstance

def u64Max : UInt64 := 18446744073709551615

def saturatingSucc (n : UInt64) : UInt64 := if n = u64Max then n else n + 1

theorem saturatingSucc_toNat (n : UInt64) :
    (saturatingSucc n).toNat = min (n.toNat + 1) u64Max.toNat := by
  have hLt := n.toNat_lt
  have hMax : u64Max.toNat = 18446744073709551615 := rfl
  rw [saturatingSucc]
  split_ifs with hSame
  · rw [hSame]
    rfl
  · have hNe : n.toNat ≠ 18446744073709551615 := fun hEq => hSame (UInt64.toNat_inj.mp hEq)
    rw [UInt64.toNat_add, UInt64.toNat_one]
    omega

instance u64SuccOrder : SuccOrder UInt64 where
  succ := saturatingSucc
  le_succ a := by
    have hLt := a.toNat_lt
    have hMax : u64Max.toNat = 18446744073709551615 := rfl
    rw [UInt64.le_iff_toNat_le, saturatingSucc_toNat]
    omega
  max_of_succ_le {a} hLe b _ := by
    have hLt := b.toNat_lt
    have hMax : u64Max.toNat = 18446744073709551615 := rfl
    rw [UInt64.le_iff_toNat_le, saturatingSucc_toNat] at hLe
    rw [UInt64.le_iff_toNat_le]
    omega
  succ_le_of_lt {a b} hLess := by
    rw [UInt64.lt_iff_toNat_lt] at hLess
    rw [UInt64.le_iff_toNat_le, saturatingSucc_toNat]
    omega

structure SourcePartition where
  topic : String
  partition : Int
  deriving DecidableEq

/-- Partitions are ordered by topic, then by number. -/
instance : LinearOrder SourcePartition :=
  LinearOrder.lift' (fun source => toLex (source.topic, source.partition)) (by
    intro a b hSame
    cases a
    cases b
    cases hSame
    rfl)

structure SourcePosition where
  source : SourcePartition
  offset : UInt64
  deriving DecidableEq

namespace SourcePosition

open Text

def topicKey : String := "mqb.src.kafka_topic"
def partitionKey : String := "mqb.src.kafka_partition"
def offsetKey : String := "mqb.src.kafka_offset"
def postgresSlotKey : String := "mqb.src.postgres_slot"
def postgresLsnKey : String := "mqb.src.postgres_lsn"
def postgresOrdinalKey : String := "mqb.src.postgres_ordinal"
def mongodbNamespaceKey : String := "mqb.src.mongodb_namespace"
def mongodbClusterTimeKey : String := "mqb.src.mongodb_cluster_time"
def mongodbOrdinalKey : String := "mqb.src.mongodb_ordinal"
def mongodbSnapshotIndexKey : String := "mqb.src.mongodb_snapshot_index"
def filePathKey : String := "mqb.src.file_path"
def fileRecordKey : String := "mqb.src.file_record"
def fileEpochKey : String := "mqb.src.file_epoch"
def sqlxTableKey : String := "mqb.src.sqlx_table"
def sqlxCursorKey : String := "mqb.src.sqlx_cursor"

def positionWidth : Nat := 20

section Fields
variable (message : CanonicalMessage)

def contains (key : String) : Bool := (message.metadata.lookup key).isSome

def requires (key : String) : Except String String :=
  match message.metadata.lookup key with
  | some value => .ok value
  | none => .error ("idempotent sink requires " ++ key)

def requiresName (key : String) : Except String String := do
  let value ← requires message key
  if value.isEmpty then .error ("idempotent sink requires " ++ key) else .ok value

def parseSignedPosition (key : String) : Except String Int := do
  let value ← requires message key
  match parseSigned value with
  | some position => .ok position
  | none => .error ("idempotent sink requires an integer " ++ key)

def parseUnsignedPosition (key : String) : Except String UInt64 := do
  let value ← requires message key
  match parseUnsigned value with
  | some position => .ok position
  | none => .error ("idempotent sink requires a non-negative integer " ++ key)

end Fields

def paddedPosition (position : UInt64) : String :=
  padded positionWidth (Nat.toDigits 10 position.toNat)

def pathDigest (path : String) : UInt64 :=
  path.toUTF8.data.toList.foldl
    (fun digest byte => (digest ^^^ byte.toUInt64) * 0x100000001b3) 0xcbf29ce484222325

/-- The name of the file, for readers, and a hash of the whole path. -/
def sanitizePathIdentity (path : String) : String :=
  let name := (path.toList.reverse.takeWhile (· ≠ '/')).reverse
  let safe := (name.map fun c =>
    if c.isAlphanum || c = '.' || c = '_' then c else '_').take 64
  String.ofList safe ++ "-" ++ padded 16 (Nat.toDigits 16 (pathDigest path).toNat)

def fromKafkaMessage (message : CanonicalMessage) : Except String SourcePosition := do
  let topic ← requiresName message topicKey
  let partition ← parseSignedPosition message partitionKey
  let offset ← parseUnsignedPosition message offsetKey
  if partition < 0 then .error "idempotent sink requires a non-negative Kafka partition"
  else if 2 ^ 31 ≤ partition then .error "idempotent sink Kafka partition is out of range"
  else .ok ⟨⟨topic, partition⟩, offset⟩

/-- All changes of a transaction share its position in the log, so that
position is part of the name. -/
def fromPostgresMessage (message : CanonicalMessage) : Except String SourcePosition := do
  let slot ← requiresName message postgresSlotKey
  let lsn ← parseUnsignedPosition message postgresLsnKey
  let ordinal ← parseUnsignedPosition message postgresOrdinalKey
  .ok ⟨⟨"postgres_cdc-" ++ slot ++ "-" ++ paddedPosition lsn, 0⟩, ordinal⟩

/-- The snapshot sorts before the change stream. -/
def fromMongodbMessage (message : CanonicalMessage) : Except String SourcePosition := do
  let source ← requiresName message mongodbNamespaceKey
  if contains message mongodbSnapshotIndexKey then
    let index ← parseUnsignedPosition message mongodbSnapshotIndexKey
    .ok ⟨⟨"mongodb-" ++ source ++ "-0snapshot", 0⟩, index⟩
  else
    let clusterTime ← parseUnsignedPosition message mongodbClusterTimeKey
    let ordinal ← parseUnsignedPosition message mongodbOrdinalKey
    .ok ⟨⟨"mongodb-" ++ source ++ "-1cdc-" ++ paddedPosition clusterTime, 0⟩, ordinal⟩

def fromFileMessage (message : CanonicalMessage) : Except String SourcePosition := do
  let path ← requiresName message filePathKey
  let record ← parseUnsignedPosition message fileRecordKey
  let identity := sanitizePathIdentity path
  if contains message fileEpochKey then
    let epoch ← parseUnsignedPosition message fileEpochKey
    .ok ⟨⟨"file-" ++ identity ++ "-" ++ paddedPosition epoch, 0⟩, record⟩
  else .ok ⟨⟨"file-" ++ identity, 0⟩, record⟩

def fromSqlxMessage (message : CanonicalMessage) : Except String SourcePosition := do
  let table ← requiresName message sqlxTableKey
  let cursor ← parseUnsignedPosition message sqlxCursorKey
  .ok ⟨⟨"sqlx-" ++ table, 0⟩, cursor⟩

def fromMessage (message : CanonicalMessage) : Except String SourcePosition :=
  if contains message topicKey || contains message partitionKey || contains message offsetKey then
    fromKafkaMessage message
  else if contains message postgresSlotKey || contains message postgresLsnKey ||
      contains message postgresOrdinalKey then
    fromPostgresMessage message
  else if contains message mongodbNamespaceKey then fromMongodbMessage message
  else if contains message filePathKey || contains message fileRecordKey then
    fromFileMessage message
  else if contains message sqlxTableKey || contains message sqlxCursorKey then
    fromSqlxMessage message
  else .error ("idempotent sink requires Kafka, postgres_cdc, mongodb, file or sqlx " ++
    "source-position metadata")

end SourcePosition

end MqBridge
