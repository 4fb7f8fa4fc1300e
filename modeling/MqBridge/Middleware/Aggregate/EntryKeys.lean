import MqBridge.Json.Value
import MqBridge.Middleware.Aggregate.NoLostUpdate

/-! The keys of a message are read before a shared fold, to load their states, and
again while it is folded. By then the document of the expressions also holds the
metadata, and the state that the last expression was given. -/
namespace MqBridge.Aggregate

open List hiding lookup
open Json InsertionMap Machine

universe u v w
variable {n : Nat} {σ : Type u} {τ : Type v} {γ : Type w}

/-- How entries read their keys. What a template generates, such as an id or the
time, is another value at each rendering. -/
structure KeyReader (n : Nat) (σ : Type u) (γ : Type w) where
  expression : Fin n → Bool
  readsMeta : Bool
  keyField : Fin n → Option String
  renderResolved : Fin n → γ → CanonicalMessage → Option String
  /-- A key that is one field of the payload generates nothing. -/
  sole : ∀ i, keyField i ≠ none → ∀ first later msg,
    renderResolved i first msg = renderResolved i later msg
  /-- The texts of the fields of a payload that is an object. -/
  text : CanonicalMessage → Option (String → Option String)
  /-- Such a payload as expressions read it. -/
  document : CanonicalMessage → Option (List (String × Value))
  metadata : CanonicalMessage → List (String × Value)
  toVariable : Option σ → Value
  /-- A number without trailing zeros. -/
  normalized : Number → String

namespace KeyReader

variable (R : KeyReader n σ γ) (i : Fin n) (generated : γ) (msg : CanonicalMessage)

/-- No entry has an expression. -/
def plain : Bool := decide (∀ i, R.expression i = false)

def orRendered (fast : Option String) : Option String :=
  (fast.or (R.renderResolved i generated msg)).filter fun key => !key.isEmpty

def rawKey (text : String → Option String) : Option String :=
  R.orRendered i generated msg ((R.keyField i).bind text)

def scalarText : Value → Option String
  | .string text => some text
  | .number number => some (R.normalized number)
  | .bool value => some (toString value)
  | _ => none

def key (fields : List (String × Value)) : Option String :=
  R.orRendered i generated msg
    ((R.keyField i).bind fun field => (lookup field fields).bind R.scalarText)

/-- The key of an entry before the fold. -/
def keyBefore : Option String :=
  if R.plain then (R.text msg).bind (R.rawKey i generated msg)
  else (R.document msg).bind (R.key i generated msg)

def tree (seen : Option (Option σ)) (fields : List (String × Value)) : List (String × Value) :=
  let fields := if R.readsMeta then insert "meta" (.object (R.metadata msg)) fields else fields
  match seen with
  | none => fields
  | some state => insert "state" (R.toVariable state) fields

/-- The key of an entry that is about to be computed. -/
def keyWithin (seen : Option (Option σ)) : Option String :=
  if R.plain then (R.text msg).bind (R.rawKey i generated msg)
  else (R.document msg).bind fun fields => R.key i generated msg (R.tree msg seen fields)

/-- The payload can be read as far as its keys are. -/
def Readable : Prop := if R.plain then R.text msg ≠ none else R.document msg ≠ none

end KeyReader

/-- The keys of an aggregate are those that its entries read, and only expressions
put a state into the document. -/
structure Reads (A : Aggregate n σ τ) (R : KeyReader n σ γ) : Prop where
  before : ∀ i msg, ∃ generated, A.keyOf i msg = R.keyBefore i generated msg
  within : ∀ i msg seen, ∃ generated, A.keyAt i msg seen = R.keyWithin i generated msg seen
  leaves : ∀ j msg now previous, R.expression j = false → A.leaves j msg now previous = none

/-- What a key and a message have to be like. Folding sets `state` in the document
after the first entry with an expression that has a key, and `meta` before all. -/
structure Stable (A : Aggregate n σ τ) (R : KeyReader n σ γ) (msg : CanonicalMessage) (i : Fin n) :
    Prop where
  rendered : R.keyField i = none → R.Readable msg → ∀ first later,
    R.orRendered i first msg none = R.orRendered i later msg none
  state : R.keyField i = some "state" → R.document msg ≠ none →
    ∀ j < i, R.expression j = true → A.keys msg j = none
  metadata : R.plain = false → R.keyField i = some "meta" → R.readsMeta = true →
    ∀ fields, R.document msg = some fields → ∀ generated,
      R.key i generated msg fields = R.orRendered i generated msg none

/-- The key of every entry is the same before the fold and within it, whatever was
left in the document by then. -/
def KeysAgree (A : Aggregate n σ τ) (R : KeyReader n σ γ) (msg : CanonicalMessage) : Prop :=
  ∀ i first later seen, A.Reaches msg i seen →
    R.keyWithin i later msg seen = R.keyBefore i first msg

/-- An expression leaves the stored state as it was given it, and states may read
as different keys. -/
structure KeepsStates (A : Aggregate n σ τ) (R : KeyReader n σ γ) : Prop where
  leaves : ∀ j, R.expression j = true → ∀ msg previous, ∃ now,
    A.leaves j msg now previous = some previous
  texts : ∀ key, ∃ state text, R.scalarText (R.toVariable state) = some text ∧
    text.isEmpty = false ∧ some text ≠ key

section Keys

variable {A : Aggregate n σ τ} {R : KeyReader n σ γ} {msg : CanonicalMessage} {i : Fin n}

theorem KeyReader.orRendered_some (R : KeyReader n σ γ) (first later : γ) {fast : Option String}
    (hField : R.keyField i ≠ none) :
    R.orRendered i later msg fast = R.orRendered i first msg fast := by
  rw [orRendered, orRendered, R.sole i hField later first]

/-- The key in a document depends on one of its fields. -/
theorem KeyReader.key_eq (R : KeyReader n σ γ) {field : String} (hField : R.keyField i = some field)
    (generated : γ) (fields : List (String × Value)) :
    R.key i generated msg fields =
      R.orRendered i generated msg ((lookup field fields).bind R.scalarText) := by
  rw [key, hField, Option.bind_some]

theorem KeyReader.lookup_tree (R : KeyReader n σ γ) (seen : Option (Option σ))
    (fields : List (String × Value)) (field : String) :
    lookup field (R.tree msg seen fields) =
      if field = "state" ∧ seen ≠ none then seen.map R.toVariable
      else if field = "meta" ∧ R.readsMeta = true then some (.object (R.metadata msg))
      else lookup field fields := by
  cases seen with
  | none =>
    by_cases hReads : R.readsMeta = true <;> simp [tree, hReads, lookup_insert, eq_comm]
  | some state =>
    by_cases hReads : R.readsMeta = true <;> simp [tree, hReads, lookup_insert, eq_comm]

theorem expression_of_leaves (hReads : A.Reads R) {j : Fin n} {now : τ}
    {previous state : Option σ} (hLeaves : A.leaves j msg now previous = some state) :
    R.expression j = true := by
  cases hExpression : R.expression j with
  | true => rfl
  | false =>
    rw [hReads.leaves j msg now previous hExpression] at hLeaves
    cases hLeaves

/-- The key of one entry, if what is in `state` is not what its key reads. -/
theorem Stable.keyWithin_eq (hStable : A.Stable R msg i) {seen : Option (Option σ)}
    (hUnseen : R.keyField i = some "state" → R.document msg ≠ none → seen = none)
    (first later : γ) : R.keyWithin i later msg seen = R.keyBefore i first msg := by
  rw [KeyReader.keyWithin, KeyReader.keyBefore]
  cases hField : R.keyField i with
  | none =>
    have hSame (hReadable : R.Readable msg) := hStable.rendered hField hReadable later first
    cases hPlain : R.plain with
    | true =>
      simp only [if_true, KeyReader.Readable, hPlain] at hSame ⊢
      cases hText : R.text msg with
      | none => rfl
      | some text =>
        simpa [KeyReader.rawKey, hField] using hSame (by simp [hText])
    | false =>
      simp only [Bool.false_eq_true, if_false, KeyReader.Readable, hPlain] at hSame ⊢
      cases hDoc : R.document msg with
      | none => rfl
      | some fields => simpa [KeyReader.key, hField] using hSame (by simp [hDoc])
  | some field =>
    have hSole (fast : Option String) :
        R.orRendered i later msg fast = R.orRendered i first msg fast :=
      R.orRendered_some first later (by simp [hField])
    cases hPlain : R.plain with
    | true =>
      have hRaw : R.rawKey i later msg = R.rawKey i first msg := funext fun text => hSole _
      rw [if_pos rfl, if_pos rfl, hRaw]
    | false =>
      simp only [Bool.false_eq_true, if_false]
      cases hDoc : R.document msg with
      | none => rfl
      | some fields =>
        rw [Option.bind_some, Option.bind_some, R.key_eq hField, R.key_eq hField, hSole,
          R.lookup_tree]
        split_ifs with hState hMeta
        · exact absurd (hUnseen (hState.1 ▸ hField) (by simp [hDoc])) hState.2
        · have hOwn := hStable.metadata hPlain (hMeta.1 ▸ hField) hMeta.2 fields hDoc first
          rw [R.key_eq hField] at hOwn
          exact hOwn.symm
        · rfl

theorem Reads.keyAt_eq (hReads : A.Reads R) {seen : Option (Option σ)}
    (hSame : ∀ first later, R.keyWithin i later msg seen = R.keyBefore i first msg) :
    A.keyAt i msg seen = A.keyOf i msg := by
  obtain ⟨first, hFirst⟩ := hReads.before i msg
  obtain ⟨later, hLater⟩ := hReads.within i msg seen
  rw [hFirst, hLater, hSame]

/-- By induction on the entries: an earlier one has its own key, so it is not one
without a key. -/
theorem keysAgree_of_stable (hReads : A.Reads R) (hStable : ∀ i, A.Stable R msg i) :
    A.KeysAgree R msg := by
  intro i first later seen hSeen
  induction hSeen generalizing first later with
  | fresh i => exact (hStable i).keyWithin_eq (fun _ _ => rfl) first later
  | @left i j hEarlier seen hSeen key hKey hShort now previous state hLeaves ih =>
    refine (hStable i).keyWithin_eq (fun hField hDoc => ?_) first later
    have hNone :=
      (hStable i).state hField hDoc j hEarlier (expression_of_leaves hReads hLeaves)
    rw [hReads.keyAt_eq ih] at hKey
    rw [keys, hKey, Option.filter_some, if_pos (decide_eq_true hShort)] at hNone
    cases hNone

theorem stable_of_keysAgree (hReads : A.Reads R) (hKeeps : A.KeepsStates R)
    (hAgree : A.KeysAgree R msg) (i : Fin n) : A.Stable R msg i := by
  constructor
  case rendered =>
    intro hField hReadable first later
    have hSame := hAgree i later first none (.fresh i)
    rw [KeyReader.keyWithin, KeyReader.keyBefore] at hSame
    rw [KeyReader.Readable] at hReadable
    split_ifs at hSame hReadable with hPlain
    · obtain ⟨text, hText⟩ := Option.ne_none_iff_exists'.mp hReadable
      simpa [hText, KeyReader.rawKey, hField] using hSame
    · obtain ⟨fields, hDoc⟩ := Option.ne_none_iff_exists'.mp hReadable
      simpa [hDoc, KeyReader.key, hField] using hSame
  case metadata =>
    intro hPlain hField hMeta fields hDoc generated
    have hSame := hAgree i generated generated none (.fresh i)
    rw [KeyReader.keyWithin, KeyReader.keyBefore, hPlain, hDoc] at hSame
    simp only [Bool.false_eq_true, if_false, Option.bind_some] at hSame
    rw [← hSame, R.key_eq hField, R.lookup_tree]
    simp [hMeta, KeyReader.scalarText]
  case state =>
    intro hField hDoc j hEarlier hExpression
    have hPlain : R.plain = false := by
      rw [KeyReader.plain, decide_eq_false_iff_not]
      exact fun hNone => by simp [hNone j] at hExpression
    obtain ⟨fields, hFields⟩ := Option.ne_none_iff_exists'.mp hDoc
    by_contra hSome
    obtain ⟨key, hKey⟩ := Option.ne_none_iff_exists'.mp hSome
    obtain ⟨hOwn, hShort⟩ := Option.filter_eq_some_iff.mp hKey
    have hAt : A.keyAt j msg none = some key := by
      rw [hReads.keyAt_eq fun first later => hAgree j first later none (.fresh j), hOwn]
    -- a stored state reads as another key
    obtain ⟨generated, -⟩ := hReads.before i msg
    obtain ⟨state, text, hText, hNonempty, hOther⟩ := hKeeps.texts (R.keyBefore i generated msg)
    obtain ⟨now, hLeaves⟩ := hKeeps.leaves j hExpression msg state
    have hSame := hAgree i generated generated (some state)
      (.left hEarlier (.fresh j) hAt (of_decide_eq_true hShort) hLeaves)
    refine hOther (hSame.symm.trans ?_).symm
    rw [KeyReader.keyWithin, hPlain, hFields]
    simp only [Bool.false_eq_true, if_false, Option.bind_some]
    rw [R.key_eq hField, R.lookup_tree]
    simp [hText, KeyReader.orRendered, hNonempty]

end Keys

namespace Shared

variable {A : Aggregate n σ τ} {versions : Fin n → HashMap Int} {owners : List (Owner n)}

theorem takeOver_lookup {states : Memory n σ} {loaded : Rows}
    {result : Memory n σ × (Fin n → HashMap Int)}
    (hTake : takeOver A states versions loaded owners = .ok result) {owner : Owner n}
    (hKnown : owner ∈ owners ∨ (versions owner.1).lookup owner.2 ≠ none) :
    (result.2 owner.1).lookup owner.2 ≠ none := by
  induction owners generalizing states versions loaded with
  | nil =>
    cases hTake
    exact hKnown.resolve_left not_mem_nil
  | cons first rest ih =>
    obtain ⟨_, _, _, hTake, hLoaded, hOthers, -⟩ := takeOver_cons hTake
    apply ih hTake
    by_cases hFirst : first = owner
    · rw [← hFirst, hLoaded.version]
      exact .inr (Option.some_ne_none _)
    · rw [(hOthers owner hFirst).2]
      exact hKnown.imp_left fun hMem => (mem_cons.mp hMem).resolve_left (Ne.symm hFirst)

/-- A plan finds every version that it looks for. -/
theorem plan_ne_panicked {p : Progress n σ τ}
    (hKnown : ∀ owner ∈ owners, (versions owner.1).lookup owner.2 ≠ none) :
    plan A p versions owners ≠ .error .panicked := by
  induction owners with
  | nil => simp [plan]
  | cons owner rest ih =>
    obtain ⟨hOwner, hRest⟩ := forall_mem_cons.mp hKnown
    intro hPlan
    rw [plan] at hPlan
    split at hPlan
    next => cases hPlan
    next =>
      split at hPlan
      next => cases hPlan
      next =>
        split at hPlan
        next hNone => exact hOwner hNone
        next =>
          split at hPlan
          next halt hLater =>
            cases hPlan
            exact ih hRest hLater
          next => cases hPlan

variable (hSteady : A.Steady)

include hSteady

/-- A round folds only into keys whose versions it has loaded. -/
theorem load_ne_panicked {call : Call n σ τ} (hForm : call.WellFormed A) (index : Nat) (rows : Rows)
    (clock : Nat → τ) : (call.load A index rows clock).phase ≠ .panicked := by
  rw [Call.load]
  simp only
  split
  next => simp
  next states versions hTake =>
    have hPlan : plan A (call.progress A index states clock) versions
        (ownersOf (call.progress A index states clock).touched) ≠ .error .panicked := by
      refine plan_ne_panicked fun owner hMem => takeOver_lookup hTake (.inl (mem_ownersOf.mpr ?_))
      obtain ⟨visit, hTrace⟩ :=
        ((rounded_progress call index states clock).touched owner).mp (mem_ownersOf.mp hMem)
      exact (trace_progress hSteady hForm hTrace).2.2.2.1
    split
    next => simp
    next hPanicked => exact absurd hPanicked hPlan
    next => simp
    next => simp

theorem step_ne_panicked {s t : State n σ τ} {action : Action τ}
    (h : ∀ call ∈ s.calls, call.WellFormed A ∧ call.phase ≠ .panicked)
    (hStep : step A s action = some t) :
    ∀ call ∈ t.calls, call.WellFormed A ∧ call.phase ≠ .panicked := by
  rcases step_cases hStep with ⟨messages, -, rfl⟩ | ⟨index, call, clock, -, hCall, -, rfl⟩ |
    ⟨index, call, writes, -, hCall, -, rfl⟩ | ⟨index, call, error, -, hCall, rfl⟩
  · exact Places.forall_mem_snoc h ⟨start_wellFormed messages, by simp [Call.start]⟩
  all_goals
    obtain ⟨hForm, -⟩ := h call (mem_of_getElem? hCall)
    apply Places.forall_mem_set h
  · exact ⟨load_wellFormed hForm index s.rows clock,
      load_ne_panicked hSteady hForm index s.rows clock⟩
  · refine ⟨stored_wellFormed hForm writes _, ?_⟩
    rw [Call.stored]
    split_ifs <;> simp
  · exact ⟨{ hForm with }, by simp⟩

end Shared

/-- The keys of a message are the same before the fold and within it if its entries
are stable; where expressions leave the stored states as they are, only then. If
all are stable, a shared fold finds the version of every key. -/
theorem shared_keys_agree {A : Aggregate n σ τ} {R : KeyReader n σ γ} (hReads : A.Reads R) :
    (∀ msg, (∀ i, A.Stable R msg i) → A.KeysAgree R msg) ∧
      (A.KeepsStates R → ∀ msg, A.KeysAgree R msg → ∀ i, A.Stable R msg i) ∧
      ((∀ msg i, A.Stable R msg i) → ∀ (rows : Rows) actions s,
        run (Shared.step A) (Shared.init rows) actions = some s →
          ∀ call ∈ s.calls, call.phase ≠ .panicked) := by
  refine ⟨fun msg => keysAgree_of_stable hReads, fun hKeeps msg =>
    stable_of_keysAgree hReads hKeeps, fun hStable rows actions s hRun call hCall => ?_⟩
  have hSteady : A.Steady := fun i msg seen hSeen => hReads.keyAt_eq fun first later =>
    keysAgree_of_stable hReads (hStable msg) i first later seen hSeen
  have h : ∀ call ∈ s.calls, call.WellFormed A ∧ call.phase ≠ .panicked :=
    invariant_of_run (fun _ _ _ => Shared.step_ne_panicked hSteady) (by simp [Shared.init]) hRun
  exact (h call hCall).2

/-- Every payload has the fields `id` and `state`. -/
def twoFields (first second : String) : KeyReader 2 String Unit where
  expression := fun _ => true
  readsMeta := false
  keyField := fun i => some (if i = 0 then first else second)
  renderResolved := fun _ _ _ => none
  sole := fun _ _ _ _ _ => rfl
  text := fun _ => none
  document := fun _ => some [("id", .string "a"), ("state", .string "on")]
  metadata := fun _ => []
  toVariable := fun state => state.elim .null .string
  normalized := fun _ => ""

def counting (R : KeyReader 2 String Unit) : Aggregate 2 String Unit where
  into := fun i => if i = 0 then ["x"] else ["y"]
  onError := .drop
  readOnly := false
  keyOf := fun i msg => R.keyBefore i () msg
  keyAt := fun i msg seen => R.keyWithin i () msg seen
  read := fun _ => .ok ()
  evaluate := fun _ _ _ previous => .next (previous.getD "" ++ "1") [] false
  leaves := fun _ _ _ previous => some previous
  writePayload := fun payload _ => .ok payload
  parseState := fun _ json => .ok json
  writeJson := .ok

theorem counting_reads (R : KeyReader 2 String Unit) (hAll : ∀ i, R.expression i = true) :
    (counting R).Reads R := by
  refine ⟨fun _ _ => ⟨(), rfl⟩, fun _ _ _ => ⟨(), rfl⟩, fun j _ _ _ hNone => ?_⟩
  rw [hAll j] at hNone
  cases hNone

/-- The first entry may have the key `state`: nothing is left there before it. -/
theorem shared_keys_agree_first :
    (counting (twoFields "state" "id")).KeysAgree (twoFields "state" "id") ⟨1, [], ∅⟩ := by
  refine (shared_keys_agree (counting_reads (twoFields "state" "id") fun _ => rfl)).1 _ fun i =>
    ⟨?_, ?_, ?_⟩
  · exact fun hNone => by cases hNone
  · intro hState _ j hEarlier
    have hFirst : i = 0 := by
      by_contra hOther
      simp [twoFields, hOther] at hState
    exact absurd (hFirst ▸ hEarlier) (Fin.not_lt_zero j)
  · exact fun _ _ hMeta => by cases hMeta

/-- The first entry puts its state, here "1", where the second one reads its key. -/
theorem state_key_panics : let A := counting (twoFields "id" "state")
    let rows : Rows := fun key => if key = "x:a" then some ("1", 1) else none
    A.keyOf 1 ⟨1, [], ∅⟩ = some "on" ∧ A.keyAt 1 ⟨1, [], ∅⟩ (some (some "1")) = some "1" ∧
      ∃ s, run (Shared.step A) (Shared.init rows) [.start [⟨1, [], ∅⟩], .load 0 fun _ => ()] =
        some s ∧
        ∃ call ∈ s.calls, call.phase matches .panicked :=
  ⟨by decide, by decide, exists_run _ (by decide) fun _ _ hPanicked => hPanicked⟩

end MqBridge.Aggregate
