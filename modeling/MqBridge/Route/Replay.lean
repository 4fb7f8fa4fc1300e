import MqBridge.Json.Value

/-! Inputs that a route reads from the start on every run, and inputs that save how
far they were read. A sink may skip syncing its files only behind the first ones: a
rerun writes again what a crash lost. -/
namespace MqBridge.Route

/-- How a file is read. -/
inductive FileConsumerMode where
  | consume (delete : Bool)
  | subscribe (delete : Bool)
  | groupSubscribe (groupId : String) (readFromTail : Bool)

/-- How a collection is read. -/
inductive MongoConsume where
  | consumer
  | snapshot
  | captureNew
  | captureAll
deriving DecidableEq

inductive HttpBulkStream where
  | sse
  | ndjson

/-- Where an input saves its position. -/
structure Checkpoint where
  cursorId : Option String
  checkpointStore : Option String

structure HttpBulkRead extends Checkpoint where
  stream : Option HttpBulkStream
  start : Option Json.Value

structure SqlxConfig where
  cursorColumn : Option String
  cursorId : Option String
  publication : Option String
  deleteAfterRead : Bool

structure MongoDbConfig where
  consume : Option MongoConsume
  changeStream : Bool
  cursorId : Option String

/-- The older flag counts where `consume` is not set. -/
def MongoDbConfig.resolvedConsume (config : MongoDbConfig) : MongoConsume :=
  config.consume.getD (if config.changeStream then .captureNew else .captureAll)

/-- The types that one of the rules looks into; the others, of which some hold
endpoints, are one constructor. -/
inductive EndpointType (Endpoint : Type) where
  | file (mode : Option FileConsumerMode)
  | static
  | objectStore (config : Checkpoint)
  | httpBulk (read : Option HttpBulkRead)
  | meilisearch (config : Checkpoint)
  | qdrant (config : Checkpoint)
  | sqlx (config : SqlxConfig)
  | clickHouse (cursorColumn : Option String) (config : Checkpoint)
  | mongoDb (config : MongoDbConfig)
  | postgresCdc (temporarySlot : Bool)
  | sequence (config : Checkpoint) (endpoints : List Endpoint)
  | ref (name : String)
  | custom (name : String) (config : Json.Value)
  | other (endpoints : List Endpoint)

inductive Middleware (Endpoint : Type) where
  | deduplication
  | other (endpoints : List Endpoint)

inductive Endpoint where
  | mk (middlewares : List (Middleware Endpoint)) (endpointType : EndpointType Endpoint)

/-- The endpoints that are compiled in. -/
structure Features where
  objectStore : Bool
  httpBulk : Bool
  clickHouse : Bool
  sqlx : Bool
  mongoDb : Bool

/-- What is compiled in and what is registered: endpoints by name, and the answers
of the factories of custom endpoints. -/
structure Registry where
  features : Features
  getEndpoint : String → Option Endpoint
  factoryReplays : String → Option (Json.Value → Bool)

variable (registry : Registry)

/-- The inputs that look at `no_resume`. -/
def inputAppliesNoResume : EndpointType Endpoint → Bool
  | .objectStore _ => registry.features.objectStore
  | .httpBulk _ => registry.features.httpBulk
  | .clickHouse .. => registry.features.clickHouse
  | .sqlx _ => registry.features.sqlx
  | .mongoDb _ => registry.features.mongoDb
  | .ref _ => true
  | _ => false

def Middleware.isDeduplication : Middleware Endpoint → Bool
  | .deduplication => true
  | .other _ => false

/-- A checkpoint opens only with both a cursor id and a store. -/
def Checkpoint.unsaved (noResume : Bool) (config : Checkpoint) : Bool :=
  noResume || config.cursorId.isNone || config.checkpointStore.isNone

/-- The opposite of `unsaved`, as the other rule has it. -/
def Checkpoint.saved (noResume : Bool) (config : Checkpoint) : Bool :=
  !noResume && config.cursorId.isSome && config.checkpointStore.isSome

theorem Checkpoint.unsaved_eq_not_saved (noResume : Bool) (config : Checkpoint) :
    config.unsaved noResume = !config.saved noResume := by
  simp [unsaved, saved]

def maxDepth : Nat := 16

/-- The number counts down where the source counts the depth up to its bound. -/
def sourceReplaysFromStart : Nat → Bool → Endpoint → Bool
  | 0, _, _ => false
  | levels + 1, noResume, .mk middlewares endpointType =>
    let noResume := noResume && inputAppliesNoResume registry endpointType
    if middlewares.any Middleware.isDeduplication then false
    else match endpointType with
      | .file none | .file (some (.consume false)) | .static => true
      | .objectStore config | .meilisearch config | .qdrant config => config.unsaved noResume
      | .httpBulk read =>
        read.any fun read => read.stream.isNone && read.start.isNone && read.unsaved noResume
      | .sqlx config =>
        config.cursorColumn.isSome &&
          (noResume || config.cursorId.isNone) && config.publication.isNone &&
          !config.deleteAfterRead
      | .clickHouse cursorColumn config => cursorColumn.isSome && config.unsaved noResume
      | .mongoDb config => config.resolvedConsume = .snapshot
      | .sequence config endpoints =>
        config.cursorId.isNone && endpoints.all (sourceReplaysFromStart levels false)
      | .ref name => (registry.getEndpoint name).any (sourceReplaysFromStart levels noResume)
      | .custom name config => (registry.factoryReplays name).any (· config)
      | _ => false

/-- A checkpoint or a replication slot is kept. -/
def inputSavesPosition : Nat → Bool → Endpoint → Bool
  | 0, _, _ => false
  | levels + 1, noResume, .mk _ endpointType =>
    let noResume := noResume && inputAppliesNoResume registry endpointType
    match endpointType with
    | .postgresCdc temporarySlot => !temporarySlot
    | .sqlx config =>
      config.publication.isSome || !noResume && config.cursorId.isSome && config.cursorColumn.isSome
    | .mongoDb config =>
      !noResume && config.cursorId.isSome &&
        (config.resolvedConsume = .captureNew || config.resolvedConsume = .captureAll)
    | .clickHouse _ config | .objectStore config | .meilisearch config | .qdrant config =>
      config.saved noResume
    | .httpBulk read => read.any (·.saved noResume)
    | .sequence config endpoints =>
      config.saved false || endpoints.any (inputSavesPosition levels false)
    | .ref name => (registry.getEndpoint name).any (inputSavesPosition levels noResume)
    | _ => false

/-- `rewritten` is the output with its local, write-time named object stores
rewritten, if it has such sinks. -/
def relaxObjectStoreFsync (input : Endpoint) (rewritten : Option Endpoint) (noResume : Bool) :
    Option Endpoint :=
  if !sourceReplaysFromStart registry (maxDepth + 1) noResume input then none else rewritten

theorem any_excludes {α : Type} {found : Option α} {first second : α → Bool}
    (hFirst : found.any first = true)
    (hExcludes : ∀ a, first a = true → second a = false) : found.any second = false := by
  cases found with
  | none => rfl
  | some a => exact hExcludes a hFirst

/-- At any depth, no input does both. -/
theorem not_saves_of_replays {levels : Nat} {noResume : Bool} {input : Endpoint}
    (hReplays : sourceReplaysFromStart registry levels noResume input = true) :
    inputSavesPosition registry levels noResume input = false := by
  -- both rules go down one level at a sequence and at a reference
  induction levels generalizing noResume input with
  | zero => rfl
  | succ levels ih =>
    obtain ⟨middlewares, endpointType⟩ := input
    cases endpointType with
      simp only [sourceReplaysFromStart, inputSavesPosition, Checkpoint.unsaved_eq_not_saved]
        at hReplays ⊢ <;>
      split_ifs at hReplays
    | sequence config endpoints =>
      simp only [Bool.and_eq_true, List.all_eq_true] at hReplays
      have hChildren (endpoint : Endpoint) (hMem : endpoint ∈ endpoints) :=
        ih (hReplays.2 endpoint hMem)
      simpa [Checkpoint.saved, hReplays.1] using hChildren
    | ref name => exact any_excludes hReplays fun _ => ih
    | httpBulk read => exact any_excludes hReplays (by simp)
    | sqlx config =>
      simp only [Bool.and_eq_true, Bool.or_eq_true] at hReplays
      obtain ⟨⟨⟨-, hNoResume | hCursor⟩, hPublication⟩, -⟩ := hReplays
      · simp [hPublication, hNoResume]
      · simp [hPublication, hCursor]
    | mongoDb config => simp [of_decide_eq_true hReplays]
    | objectStore config | meilisearch config | qdrant config => simpa using hReplays
    | clickHouse cursorColumn config => simpa using (Bool.and_eq_true_iff.mp hReplays).2

/-- No input is read from the start on every run and has its position saved, so no
sink behind a saved position is relaxed. -/
theorem replays_or_saves (levels : Nat) (noResume : Bool) (input : Endpoint)
    (rewritten : Option Endpoint) :
    ¬ (sourceReplaysFromStart registry levels noResume input = true ∧
      inputSavesPosition registry levels noResume input = true) ∧
    (inputSavesPosition registry (maxDepth + 1) noResume input = true →
      relaxObjectStoreFsync registry input rewritten noResume = none) := by
  have hExcludes {levels : Nat}
      (hSaves : inputSavesPosition registry levels noResume input = true) :
      sourceReplaysFromStart registry levels noResume input = false := by
    by_contra hReplays
    rw [not_saves_of_replays registry (Bool.not_eq_false _ ▸ hReplays)] at hSaves
    cases hSaves
  constructor
  · rintro ⟨hReplays, hSaves⟩
    rw [hExcludes hSaves] at hReplays
    cases hReplays
  · intro hSaves
    rw [relaxObjectStoreFsync, hExcludes hSaves]
    rfl

end MqBridge.Route
