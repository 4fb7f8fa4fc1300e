import MqBridge.Machine.Run
import MqBridge.Middleware.Filter.Compile
import MqBridge.Support.Pack

/-! The evaluation of a filter. What can be decided on the raw members of the
payload is decided there. Otherwise a context is filled: the payload's document
if the expression reads it, a null for every path that is absent, and the
metadata under `meta`. A context is shared by the cases of a switch. -/
namespace MqBridge.FilterExpression

open List hiding lookup

open InsertionMap Machine

open Json Pack CompiledFilter

/-! ### Predicates without the engine -/

inductive Reading where
  | absent
  | text (text : String)
  | json (value : Value)

section Evaluate

variable (engine : Engine) (floats : Floats)

def equals : FastLiteral engine.Decimal → Reading → Bool
  | .null, .absent => true
  | .null, .json .null => true
  | .bool expected, .json (.bool actual) => expected == actual
  | .string expected, .json (.string actual) => expected == actual
  | .string expected, .text actual => expected == actual
  | .number expected, .json (.number actual) =>
    (engine.ofNumber actual).any fun actual => engine.cmp actual expected == .eq
  | .number expected, .json (.string actual) =>
    (engine.parseNumber actual).any fun actual => engine.cmp actual expected == .eq
  | .number expected, .text actual =>
    (engine.parseNumber actual).any fun actual => engine.cmp actual expected == .eq
  | _, _ => false

def numeric : Reading → Option engine.Decimal
  | .text text => engine.parseNumber text
  | .json (.string text) => engine.parseNumber text
  | .json (.number number) => engine.ofNumber number
  | _ => none

/-- Nothing where the engine would raise an error. -/
def FastTerm.evaluate (term : FastTerm engine.Decimal) (reading : Reading) : Option Bool :=
  match term.op with
  | .eq => some (equals engine term.literal reading)
  | .ne => some (!equals engine term.literal reading)
  | op =>
    match term.literal with
    | .number expected =>
      (numeric engine reading).map fun actual => op.accepts (engine.cmp actual expected)
    | _ => none

def resolveAny : Value → List String → Option Value
  | value, [] => some value
  | .object members, segment :: rest =>
    (InsertionMap.lookup segment members).bind fun next => resolveAny next rest
  | _, _ :: _ => none

def isUsable : Value → Bool
  | .null | .array _ | .object _ => false
  | _ => true

/-- Only a scalar is handed to the expression. -/
def resolve (document : Value) (path : List String) : Option Value :=
  (resolveAny document path).filter isUsable

def FastPredicate.evaluate : FastPredicate engine.Decimal → Value → Option Bool
  | .term leaf, document =>
    leaf.evaluate engine ((resolveAny document leaf.path).elim .absent .json)
  | .and left right, document =>
    (left.evaluate document).bind fun decided => if decided then right.evaluate document else
      some false
  | .or left right, document =>
    (left.evaluate document).bind fun decided => if decided then some true else
      right.evaluate document

def metadataReading (message : CanonicalMessage) (key : String) : Reading :=
  (message.metadata.lookup key).elim .absent .text

def evaluateTermFromSpans (term : FastTerm engine.Decimal) (message : CanonicalMessage)
    (pairs : List (String × Doc)) : Option Bool :=
  match term.metadataKey with
  | some key => term.evaluate engine (metadataReading message key)
  | none =>
    term.payloadKey.bind fun key =>
      -- the last member of a name counts
      match pairs.reverse.find? fun pair => pair.1 == key with
      | none => term.evaluate engine .absent
      | some (_, raw) =>
        (raw.value floats recursionLimit).bind fun value => term.evaluate engine (.json value)

def FastPredicate.evaluateSpans (message : CanonicalMessage) (pairs : List (String × Doc)) :
    FastPredicate engine.Decimal → Option Bool
  | .term leaf => evaluateTermFromSpans engine floats leaf message pairs
  | .and left right =>
    (left.evaluateSpans message pairs).bind fun decided =>
      if decided then right.evaluateSpans message pairs else some false
  | .or left right =>
    (left.evaluateSpans message pairs).bind fun decided =>
      if decided then some true else right.evaluateSpans message pairs

end Evaluate

/-! ### The context -/

structure FilterContext where
  document : Value
  payloadLoaded : Bool

def FilterContext.new : FilterContext := ⟨.object [], false⟩

def structuredPayload : String := "filter requires a structured JSON object payload"

/-- Metadata that is already in the context replaces a member of that name. -/
def FilterContext.loadPayload (floats : Floats) (context : FilterContext)
    (message : CanonicalMessage) : Except String FilterContext :=
  if context.payloadLoaded then .ok context
  else
    match fromSlice floats message.payload with
    | some (.object members) =>
      let metadata :=
        match context.document with
        | .object current => InsertionMap.lookup metadataPrefix current
        | _ => none
      .ok ⟨.object (metadata.elim members (insert metadataPrefix · members)), true⟩
    | _ => .error structuredPayload

def metadataValue (message : CanonicalMessage) (key : String) : Value :=
  (message.metadata.lookup key).elim .null .string

/-- The entries that are inserted: all of them in some order, or those asked for. -/
def metadataEntries (order : MetadataOrder) (message : CanonicalMessage) (keys : List String)
    (all : Bool) : List (String × Value) :=
  if all then (order.pairs message.metadata).map fun pair => (pair.1, .string pair.2)
  else keys.map fun key => (key, metadataValue message key)

/-- Nothing if it panics: both the document and its `meta` have to be objects. -/
def FilterContext.addMetadata (order : MetadataOrder) (context : FilterContext)
    (message : CanonicalMessage) (keys : List String) (all : Bool) : Option FilterContext :=
  if keys.isEmpty && !all then some context
  else
    match context.document with
    | .object members =>
      match (InsertionMap.lookup metadataPrefix members).getD (.object []) with
      | .object entries =>
        let metadata := insertAll entries (metadataEntries order message keys all)
        some { context with
          document := .object (insert metadataPrefix (.object metadata) members) }
      | _ => none
    | _ => none

/-- Makes an absent path visible as null. The shallowest part of the path that
had to be created is returned, to undo it. -/
def insertNull (created : Option (List String)) (before : List String) :
    Value → List String → Value × Option (List String)
  | .object members, segment :: rest =>
    let known := (InsertionMap.lookup segment members).isSome
    let created := created.or (if known then none else some (before ++ [segment]))
    if rest.isEmpty then
      (.object (if known then members else InsertionMap.insert segment .null members), created)
    else
      let inner := insertNull created (before ++ [segment])
        ((InsertionMap.lookup segment members).getD (.object [])) rest
      (.object (insert segment inner.1 members), inner.2)
  | value, _ => (value, created)

def insertNullIfAbsent (document : Value) (path : List String) : Value × Option (List String) :=
  insertNull none [] document path

def removePath : Value → List String → Value
  | .object members, [last] => .object (swapRemove last members)
  | .object members, segment :: rest =>
    match InsertionMap.lookup segment members with
    | some next => .object (insert segment (removePath next rest) members)
    | none => .object members
  | value, _ => value

/-! ### Evaluation -/

section Matches

variable (engine : Engine) (floats : Floats) (order : MetadataOrder)

def textTypedFieldError (error : String) (textFields : List String) : String :=
  match textFields with
  | [] => error
  | first :: _ =>
    error ++ "; filter field `" ++ String.intercalate "`, `" textFields ++
      "` holds text, not a number — compare it as `number(" ++ first ++
      ")` (metadata is always text, as are all CSV fields; SQL sources " ++
      "deliver numeric and timestamp columns as strings)"

def splitDots (text : String) : List String := (text.toList.splitOn '.').map String.ofList

namespace CompiledFilter

variable (filter : CompiledFilter engine.Decimal)

def coerceNumericFields (root : engine.Variable) : engine.Variable :=
  filter.numericPaths.foldl (fun root path =>
    match (engine.dotText root path).bind engine.parseNumber with
    | some number => engine.dotInsert root path number
    | none => root) root

def readsAsNumber (document : Value) (field : String) : Bool :=
  filter.numericPaths.contains field &&
    match resolve document (splitDots field) with
    | some (.string text) => (engine.parseNumber text).isSome
    | _ => false

def textFields (document : Value) : List String :=
  let payload := (filter.payloadPaths.filter fun path =>
    match resolve document path with
    | some (.string _) => true
    | _ => false).map dotted
  (payload ++ filter.metadataKeys.map fun key => metadataPrefix ++ "." ++ key).filter fun field =>
    !filter.readsAsNumber engine document field

def evaluate (document : Value) (hasUnusableField : Bool) : Except String Bool :=
  match filter.fastPredicate.bind fun predicate => predicate.evaluate engine document with
  | some result => .ok result
  | none =>
    let root := filter.coerceNumericFields engine (engine.ofValue document)
    match engine.evaluate filter.opcodes root with
    | .error error =>
      if hasUnusableField then .ok false
      else .error (textTypedFieldError error (filter.textFields engine document))
    | .ok evaluated =>
      match engine.asBool evaluated with
      | some result => .ok result
      | none =>
        if filter.loneEquals then
          .error ("filter expression did not evaluate to a boolean; it contains a single `=`, " ++
            "did you mean `==`?")
        else .error "filter expression did not evaluate to a boolean"

/-- The span route: nothing if it cannot decide. -/
def decideSpans (message : CanonicalMessage) : Option Bool :=
  filter.fastPredicate.bind fun predicate =>
    if filter.fastReadsSpans then
      if filter.fastReadsPayload then
        (RawJson.rawPairs message.payload).bind fun pairs =>
          predicate.evaluateSpans engine floats message pairs
      else predicate.evaluateSpans engine floats message []
    else none

structure Prepared where
  context : FilterContext
  hasUnusableField : Bool
  synthesized : List (List String)

def fillPath (prepared : Prepared) (path : List String) : Prepared :=
  match resolve prepared.context.document path with
  | some _ => prepared
  | none =>
    let filled := insertNullIfAbsent prepared.context.document path
    ⟨{ prepared.context with document := filled.1 }, true, prepared.synthesized ++ filled.2.toList⟩

/-- Everything before the expression is evaluated; nothing if it panics. -/
def prepare (message : CanonicalMessage) (context : FilterContext) :
    Option (Except String Prepared) :=
  match if filter.payloadPaths.isEmpty then .ok context else context.loadPayload floats message with
  | .error error => some (.error error)
  | .ok context =>
    let filled := filter.payloadPaths.foldl fillPath ⟨context, false, []⟩
    let missing := filter.metadataKeys.any fun key => (message.metadata.lookup key).isNone
    (filled.context.addMetadata order message filter.metadataKeys filter.usesAllMetadata).map
      fun context =>
      .ok ⟨context, filled.hasUnusableField || missing, filled.synthesized⟩

/-- The result, and the context for the next filter; nothing if it panics. -/
def matchesWithContext (message : CanonicalMessage) (context : FilterContext) :
    Option (Except String Bool × FilterContext) :=
  match filter.decideSpans engine floats message with
  | some result => some (.ok result, context)
  | none =>
    (filter.prepare engine floats order message context).map fun
      | .error error => (.error error, context)
      | .ok prepared =>
        (filter.evaluate engine prepared.context.document prepared.hasUnusableField,
          { prepared.context with
            document := prepared.synthesized.foldl removePath prepared.context.document })

end CompiledFilter

end Matches

/-! ### The metadata in a context -/

section Document

variable {Q : Option Value → Prop}

/-- The document is an object, whose member `meta` is as given. -/
def Holds (Q : Option Value → Prop) (document : Value) : Prop :=
  ∃ members, document = .object members ∧ (members.map Prod.fst).Nodup ∧
    Q (InsertionMap.lookup metadataPrefix members)

variable {members : List (String × Value)}

/-- What is done to another member leaves the metadata alone. -/
theorem Holds.of_lookup (h : Holds Q (.object members)) {changed : List (String × Value)}
    (hNodup : (changed.map Prod.fst).Nodup)
    (hSame : lookup metadataPrefix changed = lookup metadataPrefix members) :
    Holds Q (.object changed) := by
  obtain ⟨_, hMembers, -, hMeta⟩ := h
  cases hMembers
  exact ⟨changed, rfl, hNodup, hSame ▸ hMeta⟩

theorem Holds.insert (h : Holds Q (.object members)) {name : String} (hName : name ≠ metadataPrefix)
    (value : Value) : Holds Q (.object (insert name value members)) := by
  have hNodup : (members.map Prod.fst).Nodup := by
    obtain ⟨_, hMembers, hNodup, -⟩ := h
    cases hMembers
    exact hNodup
  refine h.of_lookup (nodup_insert hNodup) ?_
  rw [lookup_insert, if_neg hName]

theorem Holds.insertNull {document : Value} (h : Holds Q document) {first : String}
    (hFirst : first ≠ metadataPrefix) (created : Option (List String)) (before rest : List String) :
    Holds Q (FilterExpression.insertNull created before document (first :: rest)).1 := by
  obtain ⟨members, rfl, -⟩ := id h
  rw [FilterExpression.insertNull]
  split_ifs
  · exact h
  · exact h.insert hFirst _
  · exact h.insert hFirst _
  · exact h.insert hFirst _

theorem Holds.removePath {document : Value} (h : Holds Q document) {path : List String}
    (hPath : OfPayload path) : Holds Q (FilterExpression.removePath document path) := by
  obtain ⟨first, rest, rfl, hFirst⟩ := hPath
  obtain ⟨members, rfl, hNodup, -⟩ := id h
  cases rest with
  | nil =>
    obtain ⟨hRemoved, hLookup⟩ := swapRemove_spec first hNodup
    exact h.of_lookup hRemoved (hLookup _ hFirst.symm)
  | cons second others =>
    rw [FilterExpression.removePath]
    · cases lookup first members with
      | some next => exact h.insert hFirst _
      | none => exact h
    · simp

/-- What is created begins as the path that was asked for. -/
theorem insertNull_created {first : String} (path : List String) (value : Value)
    (created : Option (List String)) (before : List String)
    (hPath : (before ++ path).head? = some first)
    (hCreated : ∀ made ∈ created, made.head? = some first) :
    ∀ made ∈ (FilterExpression.insertNull created before value path).2, made.head? =
      some first := by
  induction path generalizing value created before with
  | nil => cases value <;> exact hCreated
  | cons segment rest ih =>
    cases value with
    | object members =>
      have hHere : ∀ made ∈ created.or (if (lookup segment members).isSome = true then none
          else some (before ++ [segment])), made.head? = some first := by
        intro made hMem
        cases created with
        | some other => exact hCreated made hMem
        | none =>
          split_ifs at hMem
          · cases hMem
          · cases hMem
            rw [← hPath]
            cases before <;> rfl
      rw [insertNull]
      by_cases hRest : rest.isEmpty = true
      · simpa only [hRest, if_true] using hHere
      · simp only [hRest]
        exact ih _ _ _ (by rw [append_assoc]; exact hPath) hHere
    | _ => exact hCreated

end Document

section Prepare

variable {engine : Engine} {floats : Floats} {order : MetadataOrder} {message : CanonicalMessage}
  {filter : CompiledFilter engine.Decimal} {Q : Option Value → Prop} {uses : Prop} {strict : Bool}

theorem nodup_of_fromSlice {bytes : List UInt8} {members : List (String × Value)}
    (hParsed : fromSlice floats bytes = some (.object members)) : (members.map Prod.fst).Nodup := by
  obtain ⟨doc, -, hVal⟩ := Option.bind_eq_some_iff.mp hParsed
  rcases doc.value_cases hVal
    with ⟨scalar, rfl, hScalar⟩ | ⟨items, _, hSame, _⟩ | ⟨_, _, hSame, _, hNodup⟩
  · cases scalar <;> simp [Scalar.value] at hScalar
  · cases hSame
  · cases hSame
    exact hNodup

/-- The top-level member of the payload that has the name of the metadata. -/
def ownMeta (floats : Floats) (message : CanonicalMessage) : Option Value :=
  match fromSlice floats message.payload with
  | some (.object members) => InsertionMap.lookup metadataPrefix members
  | _ => none

/-- An object with nothing but metadata to be seen in it: a member that the metadata
does not replace is a null. -/
def OnlyMetadata (message : CanonicalMessage) (entries : List (String × Value)) : Prop :=
  ∀ key value, InsertionMap.lookup key entries = some value →
    message.metadata.lookup key = none → value = .null

/-- Where a filter looks at the metadata, `meta` is an object, with nothing else in
it if that is asked for. -/
def Fits (message : CanonicalMessage) (uses : Prop) (strict : Bool) (found : Option Value) : Prop :=
  uses → ∀ value ∈ found, ∃ entries, value = .object entries ∧
    (strict = true → OnlyMetadata message entries)

/-- A payload replaces the empty document; metadata that is there stays. -/
theorem Holds.loadPayload {context loaded : FilterContext} (h : Holds Q context.document)
    (hOwn : Q (ownMeta floats message))
    (hLoaded : context.loadPayload floats message = .ok loaded) : Holds Q loaded.document := by
  rw [FilterContext.loadPayload] at hLoaded
  split_ifs at hLoaded
  · cases hLoaded
    exact h
  · obtain ⟨current, hDoc, -, hMeta⟩ := h
    rw [hDoc] at hLoaded
    split at hLoaded
    next members hParsed =>
      have hNodup := nodup_of_fromSlice hParsed
      dsimp only at hLoaded
      cases hCur : lookup metadataPrefix current with
      | none =>
        rw [hCur] at hLoaded
        cases hLoaded
        rw [ownMeta, hParsed] at hOwn
        exact ⟨members, rfl, hNodup, hOwn⟩
      | some metadata =>
        rw [hCur] at hLoaded hMeta
        cases hLoaded
        refine ⟨_, rfl, nodup_insert hNodup, ?_⟩
        rw [Option.elim_some, lookup_insert, if_pos rfl]
        exact hMeta
    next => cases hLoaded

/-- The paths that were created do not lead to the metadata. -/
def CompiledFilter.Prepared.Aside (prepared : CompiledFilter.Prepared) : Prop :=
  ∀ path ∈ prepared.synthesized, ∃ first rest, path = first :: rest ∧ first ≠ metadataPrefix

theorem fillPath_keeps {prepared : CompiledFilter.Prepared} {path : List String}
    (hPath : OfPayload path)
    (h : Holds Q prepared.context.document) (hAside : prepared.Aside) :
    Holds Q (fillPath prepared path).context.document ∧
      (fillPath prepared path).Aside := by
  obtain ⟨first, rest, rfl, hFirst⟩ := hPath
  rw [fillPath]
  cases resolve prepared.context.document (first :: rest) with
  | some value => exact ⟨h, hAside⟩
  | none =>
    refine ⟨h.insertNull hFirst none [] rest, fun path hMem => ?_⟩
    rcases mem_append.mp hMem with hOld | hNew
    · exact hAside path hOld
    · have hHead :=
        insertNull_created (first :: rest) prepared.context.document none [] rfl nofun path
        (Option.mem_toList.mp hNew)
      obtain ⟨tail, rfl⟩ := head?_eq_some_iff.mp hHead
      exact ⟨first, tail, rfl, hFirst⟩

theorem foldl_fillPath_keeps {paths : List (List String)}
    (hPaths : ∀ path ∈ paths, OfPayload path)
    (prepared : CompiledFilter.Prepared) (h : Holds Q prepared.context.document)
    (hAside : prepared.Aside) :
    Holds Q (paths.foldl fillPath prepared).context.document ∧
      (paths.foldl fillPath prepared).Aside := by
  induction paths generalizing prepared with
  | nil => exact ⟨h, hAside⟩
  | cons path rest ih =>
    obtain ⟨hFilled, hFilledAside⟩ := fillPath_keeps (hPaths path mem_cons_self) h hAside
    exact ih (fun other hMem => hPaths other (mem_cons_of_mem _ hMem)) _ hFilled hFilledAside

theorem metadataEntries_value {keys : List String} {all : Bool} :
    ∀ entry ∈ metadataEntries order message keys all, entry.2 = metadataValue message entry.1 := by
  intro entry hMem
  rw [metadataEntries] at hMem
  split_ifs at hMem
  · obtain ⟨pair, hPair, rfl⟩ := mem_map.mp hMem
    have hLookup : message.metadata.lookup pair.1 = some pair.2 := by
      rw [Finmap.lookup_eq_some_iff, ← order.perm]
      exact hPair
    rw [metadataValue, hLookup]
    rfl
  · obtain ⟨key, -, rfl⟩ := mem_map.mp hMem
    rfl

/-- Every key that has a value is among all entries. -/
theorem mem_metadataEntries {keys : List String} {key : String} :
    key ∈ (metadataEntries order message keys true).map Prod.fst ↔
      message.metadata.lookup key ≠ none := by
  rw [metadataEntries, if_pos rfl, map_map]
  constructor
  · intro hMem
    obtain ⟨pair, hPair, rfl⟩ := mem_map.mp hMem
    have hLookup : message.metadata.lookup pair.1 = some pair.2 := by
      rw [Finmap.lookup_eq_some_iff, ← order.perm]
      exact hPair
    exact fun hNone => by cases hLookup.symm.trans hNone
  · intro hSome
    obtain ⟨text, hLookup⟩ := Option.ne_none_iff_exists'.mp hSome
    rw [Finmap.lookup_eq_some_iff, ← order.perm] at hLookup
    exact mem_map.mpr ⟨_, hLookup, rfl⟩

variable {context : FilterContext}

theorem metadataValue_of_none {key : String} (hNone : message.metadata.lookup key = none) :
    metadataValue message key = .null := by
  rw [metadataValue, hNone]
  rfl

/-- The metadata can be put into the context, and is then what is found there. -/
theorem Holds.addMetadata (h : Holds (Fits message uses strict) context.document)
    (order : MetadataOrder) (keys : List String) (all : Bool)
    (hUses : (keys.isEmpty && !all) = false → uses) (hStrict : all = true → strict = true) :
    ∃ added, context.addMetadata order message keys all = some added ∧
      Holds (Fits message uses strict) added.document ∧
      ∀ key, all = true ∨ key ∈ keys →
        (resolveAny added.document [metadataPrefix, key]).getD .null =
          metadataValue message key := by
  rw [FilterContext.addMetadata]
  split_ifs with hNone
  · rw [Bool.and_eq_true, List.isEmpty_iff] at hNone
    obtain ⟨rfl, hAll⟩ := hNone
    refine ⟨context, rfl, h, fun key hKey => ?_⟩
    rcases hKey with rfl | hKey
    · cases hAll
    · cases hKey
  · obtain ⟨members, hDoc, hNodup, hMeta⟩ := h
    have hUsed : uses := hUses (Bool.eq_false_iff.mpr hNone)
    obtain ⟨entries, hEntries, hOnly⟩ :
        ∃ entries, (lookup metadataPrefix members).getD (.object []) = .object entries ∧
          (strict = true → OnlyMetadata message entries) := by
      cases hLookup : lookup metadataPrefix members with
      | none => exact ⟨[], rfl, fun _ key value hEmpty => by cases hEmpty⟩
      | some value =>
        obtain ⟨entries, rfl, hOnly⟩ := hMeta hUsed value hLookup
        exact ⟨entries, rfl, hOnly⟩
    rw [hDoc]
    dsimp only
    rw [hEntries]
    refine ⟨_, rfl, ⟨_, rfl, nodup_insert hNodup, fun _ value hLookup => ?_⟩, fun key hKey => ?_⟩
    · rw [lookup_insert] at hLookup
      cases hLookup
      refine ⟨_, rfl, fun hTrue key value hVal hAbsent => ?_⟩
      by_cases hMem : key ∈ (metadataEntries order message keys all).map Prod.fst
      · rw [lookup_insertAll_of_mem metadataEntries_value hMem] at hVal
        rw [← Option.some.inj hVal, metadataValue_of_none hAbsent]
      · rw [lookup_insertAll_of_notMem hMem] at hVal
        exact hOnly hTrue key value hVal hAbsent
    · rw [resolveAny, lookup_insert, if_pos rfl, Option.bind_some, resolveAny]
      by_cases hMem : key ∈ (metadataEntries order message keys all).map Prod.fst
      · rw [lookup_insertAll_of_mem metadataEntries_value hMem]
        rfl
      · rw [lookup_insertAll_of_notMem hMem]
        cases all with
        | true =>
          have hAbsent := not_not.mp (mt mem_metadataEntries.mpr hMem)
          rw [metadataValue_of_none hAbsent]
          cases hLookup : lookup key entries with
          | none => rfl
          | some value =>
            rw [hOnly (hStrict rfl) key value hLookup hAbsent]
            rfl
        | false =>
          have hAsked : key ∈ keys := hKey.resolve_left Bool.false_ne_true
          refine absurd ?_ hMem
          rw [metadataEntries, if_neg Bool.false_ne_true, map_map]
          exact mem_map.mpr ⟨key, hAsked, rfl⟩

/-! ### Runs over one context -/

def CompiledFilter.readsMetadata (filter : CompiledFilter engine.Decimal) : Bool :=
  !(filter.metadataKeys.isEmpty && !filter.usesAllMetadata)

/-- Where one of the filters looks at the metadata and one at the payload, the
payload has no member of that name, or it is an object, with nothing else in it if
one of them looks at all of the metadata. -/
def Unshadowed (floats : Floats) (message : CanonicalMessage)
    (filters : List (CompiledFilter engine.Decimal)) : Prop :=
  (∃ filter ∈ filters, filter.payloadPaths.isEmpty = false) →
    Fits message (∃ filter ∈ filters, filter.readsMetadata = true)
      (filters.any CompiledFilter.usesAllMetadata) (ownMeta floats message)

/-- The document of a context that is shared by the filters. -/
def HoldsFor (message : CanonicalMessage) (filters : List (CompiledFilter engine.Decimal)) :
    Value → Prop :=
  Holds (Fits message (∃ filter ∈ filters, filter.readsMetadata = true)
    (filters.any CompiledFilter.usesAllMetadata))

def Compiled (filter : CompiledFilter engine.Decimal) : Prop :=
  ∃ expression, CompiledFilter.new engine expression = .ok filter

theorem Compiled.paths (h : Compiled filter) :
    ∀ path ∈ filter.payloadPaths, OfPayload path := by
  obtain ⟨expression, hNew⟩ := h
  obtain ⟨loneEquals, hFilter, -⟩ := new_spec hNew
  rw [hFilter]
  exact referencedPaths_split _

theorem Compiled.reads (h : Compiled filter) {opcode : Opcode engine.Decimal} {key : String}
    (hMem : opcode ∈ filter.opcodes) (hReads : opcode.reads key) :
    filter.usesAllMetadata = true ∨ key ∈ filter.metadataKeys := by
  obtain ⟨expression, hNew⟩ := h
  obtain ⟨loneEquals, hFilter, hSupported⟩ := new_spec hNew
  rw [hFilter]
  exact referencedPaths_reads hSupported hMem hReads

variable {filters : List (CompiledFilter engine.Decimal)} (order : MetadataOrder)

theorem prepare_spec (hFilter : Compiled filter) (hMem : filter ∈ filters)
    (hOwn : Unshadowed floats message filters) (h : HoldsFor message filters context.document) :
    ∃ result, filter.prepare engine floats order message context = some result ∧
      ∀ prepared, result = .ok prepared →
        HoldsFor message filters prepared.context.document ∧ prepared.Aside ∧
        ∀ key, filter.usesAllMetadata = true ∨ key ∈ filter.metadataKeys →
          (resolveAny prepared.context.document [metadataPrefix, key]).getD .null =
            metadataValue message key := by
  rw [prepare]
  split
  next error hError => exact ⟨_, rfl, nofun⟩
  next loaded hLoaded =>
    have hHolds : HoldsFor message filters loaded.document := by
      split_ifs at hLoaded with hEmpty
      · cases hLoaded
        exact h
      · exact .loadPayload h (hOwn ⟨filter, hMem, Bool.eq_false_iff.mpr hEmpty⟩) hLoaded
    obtain ⟨hFilled, hAside⟩ := foldl_fillPath_keeps hFilter.paths ⟨loaded, false, []⟩ hHolds nofun
    obtain ⟨added, hAdded, hAll, hReads⟩ :=
      hFilled.addMetadata order filter.metadataKeys filter.usesAllMetadata
      (fun hSome => ⟨filter, hMem, by rw [readsMetadata, hSome, Bool.not_false]⟩)
      (fun hTrue => any_eq_true.mpr ⟨filter, hMem, hTrue⟩)
    dsimp only
    rw [hAdded]
    refine ⟨_, rfl, fun prepared hPrepared => ?_⟩
    cases hPrepared
    exact ⟨hAll, hAside, hReads⟩

theorem HoldsFor.removePaths {paths : List (List String)} {document : Value}
    (h : HoldsFor message filters document)
    (hPaths : ∀ path ∈ paths, OfPayload path) :
    HoldsFor message filters (paths.foldl removePath document) := by
  induction paths generalizing document with
  | nil => exact h
  | cons path rest ih =>
    exact ih (.removePath h (hPaths path mem_cons_self))
      fun other hOther => hPaths other (mem_cons_of_mem _ hOther)

/-- A filter comes to a result, and what it leaves is fit for the next one. -/
theorem matchesWithContext_spec (hFilter : Compiled filter) (hMem : filter ∈ filters)
    (hOwn : Unshadowed floats message filters) (h : HoldsFor message filters context.document) :
    ∃ result next, filter.matchesWithContext engine floats order message context =
      some (result, next) ∧ HoldsFor message filters next.document := by
  rw [matchesWithContext]
  cases filter.decideSpans engine floats message with
  | some result => exact ⟨.ok result, context, rfl, h⟩
  | none =>
    obtain ⟨result, hPrepare, hPrepared⟩ := prepare_spec order hFilter hMem hOwn h
    rw [hPrepare]
    cases result with
    | error error => exact ⟨.error error, context, rfl, h⟩
    | ok prepared =>
      obtain ⟨hHolds, hAside, -⟩ := hPrepared prepared rfl
      exact ⟨_, _, rfl, hHolds.removePaths hAside⟩

/-- The context that the next case of a switch is given; nothing after a panic. -/
def nextContext (engine : Engine) (floats : Floats) (order : MetadataOrder)
    (message : CanonicalMessage)
    (context : FilterContext) (filter : CompiledFilter engine.Decimal) : Option FilterContext :=
  (filter.matchesWithContext engine floats order message context).map Prod.snd

theorem exists_run (hCompiled : ∀ filter ∈ filters, Compiled filter)
    (hOwn : Unshadowed floats message filters)
    (visited : List (CompiledFilter engine.Decimal)) (hVisited : visited ⊆ filters)
    (h : HoldsFor message filters context.document) :
    ∃ last, run (nextContext engine floats order message) context visited = some last ∧
      HoldsFor message filters last.document := by
  induction visited generalizing context with
  | nil => exact ⟨context, rfl, h⟩
  | cons filter rest ih =>
    obtain ⟨hHere, hRest⟩ := cons_subset.mp hVisited
    obtain ⟨result, next, hMatches, hNext⟩ :=
      matchesWithContext_spec order (hCompiled filter hHere) hHere hOwn h
    obtain ⟨last, hRun, hLast⟩ := ih hRest hNext
    have hStep : nextContext engine floats order message context filter = some next := by
      rw [nextContext, hMatches]
      rfl
    exact ⟨last, run_cons_eq_some.mpr ⟨next, hStep, hRun⟩, hLast⟩

end Prepare

section Claim

variable {engine : Engine} {floats : Floats} {order : MetadataOrder} {message : CanonicalMessage}
  {filter : CompiledFilter engine.Decimal}

end Claim

end MqBridge.FilterExpression
