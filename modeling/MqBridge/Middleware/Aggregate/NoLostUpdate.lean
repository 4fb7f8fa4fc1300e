import MqBridge.Middleware.Aggregate.SharedFailure

/-! No update is lost between the calls of `fold_shared`. A write that is
carried out finds the row its round has loaded, so the log of the writes is,
for every key, a serial order of the messages folded into it; and a call has
each of its messages there once, as long as no call fails after it has stored
something and no later round rejects what an earlier one has folded. -/
namespace MqBridge.Aggregate

open List Machine Function

universe u v
variable {n : Nat} {σ : Type u} {τ : Type v}

/-- Every key is the one read from the message alone, and no two states share
a key in the store. -/
structure Separate (A : Aggregate n σ τ) : Prop where
  keys : ∀ i msg seen, A.keyAt i msg seen = A.keyOf i msg
  storeKeys : Function.Injective A.storeKey

/-- Every key that a fold may read is the one read from the message alone. -/
def Steady (A : Aggregate n σ τ) : Prop :=
  ∀ i msg seen, A.Reaches msg i seen → A.keyAt i msg seen = A.keyOf i msg

theorem Separate.steady {A : Aggregate n σ τ} (hSeparate : A.Separate) : A.Steady :=
  fun i msg seen _ => hSeparate.keys i msg seen

def readState (A : Aggregate n σ τ) (i : Fin n) : Option String → Except String (Option σ)
  | none => .ok none
  | some json =>
    match A.parseState i json with
    | .error error => .error error
    | .ok state => .ok (some state)

/-- The text comes from the first one by folding the visits in this order,
some at a time: the state is read, updated message by message, and written. -/
inductive Replays (A : Aggregate n σ τ) (i : Fin n) (first : Option String) :
    List (Visit τ) → Option String → Prop where
  | start : Replays A i first [] first
  | write {visits batch : List (Visit τ)} {text : Option String} {json : String}
      {state : Option σ} {next : σ} (earlier : Replays A i first visits text)
      (read : A.readState i text = .ok state) (folds : A.FoldsTo i state batch (some next))
      (written : A.writeJson next = .ok json) : Replays A i first (visits ++ batch) (some json)

/-- A text that was not there is there only after a message was folded. -/
theorem Replays.eq_none {A : Aggregate n σ τ} {i : Fin n} {visits : List (Visit τ)}
    {text : Option String} (h : A.Replays i none visits text) (hNil : visits = []) :
    text = none := by
  induction h with
  | start => rfl
  | write earlier read folds _ ih =>
    obtain ⟨hVisits, hBatch⟩ := append_eq_nil_iff.mp hNil
    rw [ih hVisits] at read
    cases read
    cases folds with
    | snoc => exact absurd hBatch (append_ne_nil_of_right_ne_nil _ (cons_ne_nil _ _))

/-- The visits are those of these messages of a call, each once. -/
def Exactly (visits : List (Visit τ)) (messages : Nat → Prop) : Prop :=
  (visits.map Visit.index).Nodup ∧ ∀ index, index ∈ visits.map Visit.index ↔ messages index

theorem exactly_nil {messages : Nat → Prop} (hNone : ∀ index, ¬ messages index) :
    Exactly ([] : List (Visit τ)) messages :=
  ⟨nodup_nil, fun index => ⟨nofun, fun h => absurd h (hNone index)⟩⟩

theorem Exactly.congr {visits : List (Visit τ)} {first second : Nat → Prop}
    (h : Exactly visits first) (hSame : ∀ index, first index ↔ second index) :
    Exactly visits second :=
  ⟨h.1, fun index => (h.2 index).trans (hSame index)⟩

namespace Shared

variable (A : Aggregate n σ τ)

namespace Call

def Folded (call : Call n σ τ) (index : Nat) (owner : Owner n) : Prop :=
  A.readOnly = false ∧
    (∃ msg, call.messages[index]? = some msg ∧ A.keys msg owner.1 = some owner.2) ∧
    ∃ outputs : Outputs n, call.slots[index]? = some (Except.ok outputs) ∧ (outputs owner.1).isSome

def Failed (call : Call n σ τ) : Prop :=
  match call.phase with
  | .returned (.error _) | .panicked => True
  | _ => False

def Reported (call : Call n σ τ) : Prop := ∃ results, call.phase = .returned (.ok results)

/-- A message that an earlier round has folded into some key does not fail,
and is folded again into each of its keys that is pending. -/
def Refolds (call after : Call n σ τ) : Prop :=
  ∀ index owner, call.Folded A index owner →
    (∃ outputs : Outputs n, after.slots[index]? = some (Except.ok outputs)) ∧
    (owner.2 ∈ call.pending owner.1 → ∃ writes, after.phase = .storing writes ∧
      ∃ planned ∈ writes, planned.owner = owner ∧ index ∈ planned.visits.map Visit.index)

end Call

/-- The step does not let a call fail that has stored something, nor a round
reject what an earlier round of its call has folded. -/
def Settles (s : State n σ τ) : Action τ → Prop
  | .start _ => True
  | .load index clock => ∀ call, s.calls[index]? = some call →
      ((call.load A index s.rows clock).Failed → StoredNothing s index) ∧
      (¬ (call.load A index s.rows clock).Failed → call.Refolds A (call.load A index s.rows clock))
  | .store index => ∀ call writes, s.calls[index]? = some call → call.phase = .storing writes →
      (call.stored A writes (s.rows.storeMany (writes.map Planned.write)).2).Failed →
        StoredNothing (s.store A index call writes) index
  | .loadFails index _ | .storeFails index _ => StoredNothing s index

/-- The stored state of a key is the fold of its entry's update over an order
of exactly the messages that were reported folded into it, each once. -/
structure SerialOrder (first : Rows) (s : State n σ τ) (owner : Owner n) (order : List (Visit τ)) :
    Prop where
  replays : A.Replays owner.1 ((first (A.storeKey owner)).map Prod.fst) order
    ((s.rows (A.storeKey owner)).map Prod.fst)
  source : ∀ visit ∈ order, ∃ call, s.calls[visit.call]? = some call ∧
    call.messages[visit.index]? = some visit.message
  exactly : ∀ (index : Nat) (call : Call n σ τ), s.calls[index]? = some call →
    Exactly (order.filter fun visit => visit.call = index)
      fun message => call.Reported ∧ call.Folded A message owner

def visitsFor (planned : List (Planned n τ)) (owner : Owner n) : List (Visit τ) :=
  (planned.filter fun p => p.owner = owner).flatMap Planned.visits

def State.own (s : State n σ τ) (index : Nat) : List (Planned n τ) :=
  (s.log.filter fun entry => entry.1 = index).map Prod.snd

variable {A}

section Lists

theorem visitsFor_append (first second : List (Planned n τ)) (owner : Owner n) :
    visitsFor (first ++ second) owner = visitsFor first owner ++ visitsFor second owner := by
  rw [visitsFor, filter_append, flatMap_append]
  rfl

variable {planned : List (Planned n τ)} {owner : Owner n}

theorem visitsFor_eq_nil (hNone : ∀ p ∈ planned, p.owner ≠ owner) :
    visitsFor planned owner = [] := by
  have hFilter : (planned.filter fun p => p.owner = owner) = [] :=
    filter_eq_nil_iff.mpr fun p hMem => by simp [hNone p hMem]
  rw [visitsFor, hFilter, flatMap_nil]

/-- The owners differ, so a key has the visits of its one write. -/
theorem visitsFor_of_mem (hNodup : (planned.map Planned.owner).Nodup)
    {p : Planned n τ} (hMem : p ∈ planned) : visitsFor planned p.owner = p.visits := by
  induction planned with
  | nil => exact absurd hMem not_mem_nil
  | cons first rest ih =>
    obtain ⟨hFresh, hRest⟩ := nodup_cons.mp hNodup
    rcases mem_cons.mp hMem with rfl | hMem
    · have hNone : visitsFor rest p.owner = [] := visitsFor_eq_nil fun q hq hOwner =>
        hFresh (mem_map.mpr ⟨q, hq, hOwner⟩)
      rw [visitsFor] at hNone ⊢
      simp [hNone]
    · have hNe : first.owner ≠ p.owner := fun hOwner => hFresh (mem_map.mpr ⟨p, hMem, hOwner.symm⟩)
      rw [← ih hRest hMem, visitsFor, filter_cons_of_neg (by simpa using hNe), visitsFor]

variable {keys : Fin n → List String}

theorem mem_ownersOf :
    owner ∈ ownersOf keys ↔ owner.2 ∈ keys owner.1 := by
  simp only [ownersOf, mem_flatMap, mem_finRange, true_and, mem_map]
  constructor
  · rintro ⟨i, key, hKey, rfl⟩
    exact hKey
  · exact fun hKey => ⟨owner.1, owner.2, hKey, rfl⟩

theorem nodup_ownersOf (hNodup : ∀ i, (keys i).Nodup) :
    (ownersOf keys).Nodup := by
  rw [ownersOf, nodup_flatMap]
  refine ⟨fun i _ => (hNodup i).map fun _ _ h => (Prod.mk.inj h).2,
    (nodup_finRange n).imp fun hNe => ?_⟩
  intro owner hFirst hSecond
  obtain ⟨_, -, rfl⟩ := mem_map.mp hFirst
  obtain ⟨_, -, hEq⟩ := mem_map.mp hSecond
  exact hNe (Prod.mk.inj hEq).1.symm

end Lists

section Rows

/-- A write carries the fold of its visits on the row that was loaded, and as
long as the version is the one it expects, that row is still there. -/
structure Planned.Sound (A : Aggregate n σ τ) (rows : Rows) (planned : Planned n τ) : Prop where
  key : planned.write.key = A.storeKey planned.owner
  current : planned.write.expected ≤ rows.version planned.write.key
  carries : ∃ row state next, (rows.version planned.write.key = planned.write.expected →
      rows planned.write.key = row) ∧
    A.readState planned.owner.1 (row.map Prod.fst) = .ok state ∧
    A.FoldsTo planned.owner.1 state planned.visits (some next) ∧
    A.writeJson next = .ok planned.write.state

theorem version_put (rows : Rows) (write : StateWrite) (key : String) :
    (rows.put write).version key =
      if key = write.key then write.expected + 1 else rows.version key := by
  rw [Rows.version, Rows.put]
  split_ifs with hKey
  · rw [hKey, update_self]
  · rw [update_of_ne hKey, Rows.version]

/-- Another write that is carried out leaves the row, or raises its version. -/
theorem Planned.Sound.put {rows : Rows} {planned : Planned n τ} (h : planned.Sound A rows)
    {write : StateWrite} (hWins : rows.version write.key = write.expected) :
    planned.Sound A (rows.put write) := by
  obtain ⟨row, state, next, hRow, hFolded⟩ := h.carries
  by_cases hKey : planned.write.key = write.key
  · have hRaised : planned.write.expected < (rows.put write).version planned.write.key := by
      rw [version_put, if_pos hKey, ← hWins, ← hKey]
      exact Int.lt_add_one_of_le h.current
    exact ⟨h.key, hRaised.le, row, state, next, fun hSame => absurd hSame hRaised.ne', hFolded⟩
  · have hVersion :
        (rows.put write).version planned.write.key = rows.version planned.write.key := by
      rw [version_put, if_neg hKey]
    have hSameRow : (rows.put write) planned.write.key = rows planned.write.key :=
      update_of_ne hKey _ _
    refine ⟨h.key, hVersion ▸ h.current, row, state, next, fun hSame => ?_, hFolded⟩
    rw [hSameRow]
    exact hRow (hVersion ▸ hSame)

/-- For every key, the texts follow the writes that were carried out. -/
def Serial (A : Aggregate n σ τ) (first : Rows) (rows : Rows) (done : List (Planned n τ)) : Prop :=
  ∀ owner, A.Replays owner.1 ((first (A.storeKey owner)).map Prod.fst) (visitsFor done owner)
    ((rows (A.storeKey owner)).map Prod.fst)

theorem Serial.put (hSeparate : A.Separate) {first rows : Rows} {done : List (Planned n τ)}
    (h : Serial A first rows done) {planned : Planned n τ} (hSound : planned.Sound A rows)
    (hWins : rows.version planned.write.key = planned.write.expected) :
    Serial A first (rows.put planned.write) (done ++ [planned]) := by
  intro owner
  rw [visitsFor_append]
  by_cases hOwner : planned.owner = owner
  · subst hOwner
    obtain ⟨row, state, next, hRow, hRead, hFolds, hJson⟩ := hSound.carries
    have hText := h planned.owner
    rw [← hSound.key, hRow hWins] at hText
    have hVisits : visitsFor [planned] planned.owner = planned.visits :=
      @visitsFor_of_mem _ _ [planned] (nodup_singleton _) planned (mem_singleton_self _)
    have hPut : (rows.put planned.write) (A.storeKey planned.owner) =
        some (planned.write.state, planned.write.expected + 1) := by
      rw [← hSound.key, Rows.put, update_self]
    rw [hVisits, hPut, ← hSound.key]
    exact .write hText hRead hFolds hJson
  · have hKey : A.storeKey owner ≠ planned.write.key := fun hSame =>
      hOwner (hSeparate.storeKeys (hSound.key.symm.trans hSame.symm))
    have hNone : visitsFor [planned] owner = [] :=
      visitsFor_eq_nil fun p hMem => mem_singleton.mp hMem ▸ hOwner
    have hPut : (rows.put planned.write) (A.storeKey owner) = rows (A.storeKey owner) :=
      update_of_ne hKey _ _
    rw [hNone, append_nil, hPut]
    exact h owner

end Rows

section Loading

structure Loaded (A : Aggregate n σ τ) (rows : Rows) (states : Memory n σ)
    (versions : Fin n → HashMap Int) (owner : Owner n) : Prop where
  state : A.readState owner.1 ((rows (A.storeKey owner)).map Prod.fst) = .ok (states.get owner)
  version : (versions owner.1).lookup owner.2 = some (rows.version (A.storeKey owner))

theorem lookup_insertAt (versions : Fin n → HashMap Int) (owner o : Owner n) (version : Int) :
    (update versions owner.1 ((versions owner.1).insert owner.2 version) o.1).lookup o.2 =
      if owner = o then some version else (versions o.1).lookup o.2 := by
  by_cases hEntry : o.1 = owner.1
  · rw [hEntry, update_self]
    by_cases hKey : o.2 = owner.2
    · rw [if_pos (Prod.ext hEntry.symm hKey.symm), hKey, Finmap.lookup_insert]
    · rw [if_neg fun h => hKey (congrArg Prod.snd h.symm), Finmap.lookup_insert_of_ne _ hKey]
  · rw [update_of_ne hEntry, if_neg fun h => hEntry (congrArg Prod.fst h.symm)]

variable {versions : Fin n → HashMap Int} {owners : List (Owner n)} {loaded : Rows}
    {states : Memory n σ}
  {result : Memory n σ × (Fin n → HashMap Int)} {owner : Owner n}

/-- The first owner's row is taken over, and nothing else changes. -/
theorem takeOver_cons (hTake : takeOver A states versions loaded (owner :: owners) = .ok result) :
    ∃ states' versions' loaded', takeOver A states' versions' loaded' owners = .ok result ∧
      Loaded A loaded states' versions' owner ∧
      (∀ o, owner ≠ o → states'.get o = states.get o ∧
        (versions' o.1).lookup o.2 = (versions o.1).lookup o.2) ∧
      ∀ key, key ≠ A.storeKey owner → loaded' key = loaded key := by
  rw [takeOver] at hTake
  split at hTake
  next json version hRow =>
    split at hTake
    next => cases hTake
    next state hParse =>
      refine ⟨_, _, _, hTake, ⟨?_, ?_⟩, fun o hNe => ⟨?_, ?_⟩, fun key hNe => update_of_ne hNe ..⟩
      · rw [hRow, Memory.get_insert, if_pos rfl]
        simp only [readState, Option.map_some, hParse]
      · rw [lookup_insertAt, if_pos rfl, Rows.version, hRow]
      · rw [Memory.get_insert, if_neg hNe]
      · rw [lookup_insertAt, if_neg hNe]
  next hRow =>
    refine ⟨_, _, _, hTake, ⟨?_, ?_⟩, fun o hNe => ⟨?_, ?_⟩, fun key hNe => rfl⟩
    · rw [hRow, Memory.get_remove, if_pos rfl]
      rfl
    · rw [lookup_insertAt, if_pos rfl, Rows.version, hRow]
    · rw [Memory.get_remove, if_neg hNe]
    · rw [lookup_insertAt, if_neg hNe]

/-- Taking over leaves alone what it does not load. -/
theorem takeOver_frame (hTake : takeOver A states versions loaded owners = .ok result)
    (hNot : owner ∉ owners) : result.1.get owner = states.get owner ∧
      (result.2 owner.1).lookup owner.2 = (versions owner.1).lookup owner.2 := by
  induction owners generalizing states versions loaded with
  | nil =>
    cases hTake
    exact ⟨rfl, rfl⟩
  | cons o rest ih =>
    obtain ⟨hNe, hRest⟩ := not_or.mp (mem_cons.not.mp hNot)
    obtain ⟨states', versions', loaded', hTake, -, hOthers, -⟩ := takeOver_cons hTake
    obtain ⟨hGet, hLookup⟩ := ih hTake hRest
    rw [hGet, hLookup]
    exact hOthers owner (symm hNe)

/-- Different keys have different rows, so each gets its own. -/
theorem takeOver_loaded (hSeparate : A.Separate) {rows : Rows}
    (hTake : takeOver A states versions loaded owners = .ok result) (hNodup : owners.Nodup)
    (hRows : ∀ owner ∈ owners, loaded (A.storeKey owner) = rows (A.storeKey owner))
    (hMem : owner ∈ owners) : Loaded A rows result.1 result.2 owner := by
  induction owners generalizing states versions loaded with
  | nil => exact absurd hMem not_mem_nil
  | cons o rest ih =>
    obtain ⟨hFresh, hRest⟩ := nodup_cons.mp hNodup
    obtain ⟨states', versions', loaded', hRestTake, hLoaded, -, hLater⟩ := takeOver_cons hTake
    rcases mem_cons.mp hMem with rfl | hMem
    · obtain ⟨hGet, hLookup⟩ := takeOver_frame hRestTake hFresh
      have hHere := hRows owner (mem_cons_self ..)
      constructor
      · rw [hGet, ← hHere, hLoaded.state]
      · rw [hLookup, hLoaded.version, Rows.version, Rows.version, hHere]
    · refine ih hRestTake hRest (fun p hp => ?_) hMem
      rw [hLater _ fun hSame => hFresh (hSeparate.storeKeys hSame ▸ hp)]
      exact hRows p (mem_cons_of_mem _ hp)

/-- A plan has one write for each key, with its state, version and visits. -/
theorem plan_spec {p : Progress n σ τ}
    {writes : List (Planned n τ)} (hPlan : plan A p versions owners = .ok writes) :
    writes.map Planned.owner = owners ∧ ∀ planned ∈ writes,
      planned.write.key = A.storeKey planned.owner ∧
      (∃ next, p.states.get planned.owner = some next ∧
        A.writeJson next = .ok planned.write.state) ∧
      (versions planned.owner.1).lookup planned.owner.2 = some planned.write.expected ∧
      planned.visits = visitsOf p.trace planned.owner := by
  induction owners generalizing writes with
  | nil =>
    cases hPlan
    exact ⟨rfl, nofun⟩
  | cons owner rest ih =>
    rw [plan] at hPlan
    split at hPlan
    next => cases hPlan
    next state hState =>
      split at hPlan
      next => cases hPlan
      next json hJson =>
        split at hPlan
        next => cases hPlan
        next expected hExpected =>
          split at hPlan
          next => cases hPlan
          next later hLater =>
            cases hPlan
            obtain ⟨hOwners, hAll⟩ := ih hLater
            refine ⟨by rw [map_cons, hOwners], fun planned hMem => ?_⟩
            rcases mem_cons.mp hMem with rfl | hMem
            · exact ⟨rfl, ⟨state, hState, hJson⟩, hExpected, rfl⟩
            · exact hAll planned hMem

end Loading

section Calls

/-- The shape of a call: one slot per message, each pending key once, and
every key pending in the first round. -/
structure Call.WellFormed (A : Aggregate n σ τ) (call : Call n σ τ) : Prop where
  slots : call.slots.length = call.messages.length
  pending : ∀ i, (call.pending i).Nodup
  first : call.round = 0 → ∀ msg ∈ call.messages, ∀ i key, A.keys msg i = some key →
    key ∈ call.pending i

/-- Where the messages of a call are: a pending key has none of them yet, and
every other one has exactly those that were folded into it. -/
def Accounted (A : Aggregate n σ τ) (call : Call n σ τ) (own : List (Planned n τ)) : Prop :=
  match call.phase with
  | .loading => ∀ owner,
      (owner.2 ∈ call.pending owner.1 → visitsFor own owner = []) ∧
      (owner.2 ∉ call.pending owner.1 → Exactly (visitsFor own owner) fun index =>
        call.Folded A index owner)
  | .storing writes => (writes.map Planned.owner).Nodup ∧
      (∀ planned ∈ writes, visitsFor own planned.owner = [] ∧
        Exactly planned.visits fun index => call.Folded A index planned.owner) ∧
      ∀ owner, owner ∉ writes.map Planned.owner →
        Exactly (visitsFor own owner) fun index => call.Folded A index owner
  | .returned (.ok _) => ∀ owner,
      Exactly (visitsFor own owner) fun index => call.Folded A index owner
  | .returned (.error _) | .panicked => own = []

variable {call : Call n σ τ} {index place : Nat} {clock : Nat → τ} {states : Memory n σ}
    {visit : Visit τ}

/-- What a round found at a place of the batch. -/
theorem getElem_zip_slots {slot : Emitted n} :
    ((visits index call.messages clock).zip call.slots)[place]? = some (visit, slot) ↔
      (∃ msg, call.messages[place]? = some msg ∧ visit = ⟨index, place, msg, clock place⟩) ∧
        call.slots[place]? = some slot := by
  rw [getElem?_zip_eq_some, visits, getElem?_map, getElem?_zipIdx]
  cases call.messages[place]? with
  | none => simp
  | some msg => simp [eq_comm]

theorem rounded_progress (call : Call n σ τ) (index : Nat) (states : Memory n σ) (clock : Nat → τ) :
    A.Rounded call.only states ((visits index call.messages clock).zip call.slots)
      (call.progress A index states clock) := by
  refine .foldRound (.start A call.only states) ?_
  rw [pairwise_iff_getElem]
  intro i j hi hj hLt
  have hAt : ∀ k (hk : k < ((visits index call.messages clock).zip call.slots).length),
      ((visits index call.messages clock).zip call.slots)[k].1.index = k := fun k hk => by
    obtain ⟨⟨msg, -, hVisit⟩, -⟩ := getElem_zip_slots.mp (getElem?_eq_getElem hk)
    exact congrArg Visit.index hVisit
  exact lt_of_eq_of_lt (hAt i hi) (lt_of_lt_of_eq hLt (hAt j hj).symm)

/-- What a round folds into a key is a message of the batch with that key, and
the key was pending. -/
theorem trace_progress (hSteady : A.Steady) (hForm : call.WellFormed A) {owner : Owner n}
    (hMem : (owner, visit) ∈ (call.progress A index states clock).trace) :
    visit.call = index ∧ call.messages[visit.index]? = some visit.message ∧
      A.keys visit.message owner.1 = some owner.2 ∧ owner.2 ∈ call.pending owner.1 ∧
      A.readOnly = false ∧ ∃ outputs : Outputs n,
        (call.progress A index states clock).slots[visit.index]? = some (Except.ok outputs) ∧
          (outputs owner.1).isSome := by
  have hRounded := rounded_progress (A := A) call index states clock
  obtain ⟨⟨place, slot, outputs, hDone, hSlot, hSome⟩, ⟨seen, hSeen, hKey⟩, hShort, hWanted⟩ :=
    hRounded.traced owner visit hMem
  obtain ⟨⟨msg, hMsg, rfl⟩, -⟩ := getElem_zip_slots.mp hDone
  have hKeys : A.keys msg owner.1 = some owner.2 := by
    rw [keys, ← hSteady owner.1 msg seen hSeen, hKey]
    simp only [Option.filter_some, hShort, decide_true, if_true]
  have hWrites : A.readOnly = false := by
    rw [← Bool.not_eq_true]
    intro hReadOnly
    rw [hRounded.readOnly hReadOnly] at hMem
    exact not_mem_nil hMem
  refine ⟨rfl, hMsg, hKeys, ?_, hWrites, outputs, hSlot, hSome⟩
  rcases Nat.eq_zero_or_pos call.round with hFirst | hLater
  · exact hForm.first hFirst msg (mem_of_getElem? hMsg) owner.1 owner.2 hKeys
  · exact hWanted call.pending (if_pos hLater)

section Round

variable {after : Call n σ τ} {owner : Owner n}
  (hMsgs : after.messages = call.messages)
  (hSlots : after.slots = (call.progress A index states clock).slots)

include hMsgs hSlots

variable (hSeparate : A.Separate)

include hSeparate

variable (hForm : call.WellFormed A)

include hForm

theorem folded_of_trace (hMem : visit ∈ visitsOf (call.progress A index states clock).trace owner) :
    after.Folded A visit.index owner := by
  obtain ⟨-, hMsg, hKey, -, hWrites, outputs, hSlot, hSome⟩ :=
    trace_progress hSeparate.steady hForm (mem_visitsOf.mp hMem)
  exact ⟨hWrites, ⟨_, hMsgs ▸ hMsg, hKey⟩, outputs, hSlots ▸ hSlot, hSome⟩

/-- A message that has output for an entry had it before, or was folded now. -/
theorem folded_cases {message : Nat}
    (hFolded : after.Folded A message owner) : call.Folded A message owner ∨
      message ∈ (visitsOf (call.progress A index states clock).trace owner).map Visit.index := by
  obtain ⟨hWrites, ⟨msg, hMsg, hKey⟩, outputs, hSlot, hSome⟩ := hFolded
  rw [hMsgs] at hMsg
  rw [hSlots] at hSlot
  obtain ⟨visit, before, hDone, -, hKept⟩ :=
    (rounded_progress call index states clock).kept message outputs hSlot
  obtain ⟨⟨m, hVisited, rfl⟩, hBefore⟩ := getElem_zip_slots.mp hDone
  cases hMsg.symm.trans hVisited
  rcases hKept owner.1 hSome with hOld | hReadOnly | ⟨key, hTrace⟩
  · exact .inl ⟨hWrites, ⟨msg, hMsg, hKey⟩, before, hBefore, hOld⟩
  · rw [hWrites] at hReadOnly
    cases hReadOnly
  · obtain ⟨-, -, hSame, -⟩ := trace_progress hSeparate.steady hForm hTrace
    cases hKey.symm.trans hSame
    exact .inr (mem_map.mpr ⟨_, mem_visitsOf.mpr hTrace, rfl⟩)

/-- A pending key has exactly the messages that this round has folded into
it, when it leaves out none that was folded before. -/
theorem exactly_of_pending (hAgain : ∀ message, call.Folded A message owner →
      message ∈ (visitsOf (call.progress A index states clock).trace owner).map Visit.index) :
    Exactly (visitsOf (call.progress A index states clock).trace owner)
      fun message => after.Folded A message owner := by
  refine ⟨?_, fun message => ⟨fun hMem => ?_, fun hFolded => ?_⟩⟩
  · have hOnce := (rounded_progress (A := A) call index states clock).once owner
    exact pairwise_map.mpr (hOnce.imp ne_of_lt)
  · obtain ⟨visit, hVisit, rfl⟩ := mem_map.mp hMem
    exact folded_of_trace hMsgs hSlots hSeparate hForm hVisit
  · exact (folded_cases hMsgs hSlots hSeparate hForm hFolded).elim (hAgain message) id

/-- Nothing changes for a key that is not pending, when no message of it fails. -/
theorem folded_iff_of_not_pending
    (hOther : owner.2 ∉ call.pending owner.1) (hKept : ∀ message, call.Folded A message owner →
      ∃ outputs : Outputs n, after.slots[message]? = some (Except.ok outputs)) (message : Nat) :
    call.Folded A message owner ↔ after.Folded A message owner := by
  constructor
  · intro hFolded
    obtain ⟨outputs, hSlot⟩ := hKept message hFolded
    obtain ⟨hWrites, hKey, before, hBefore, hSome⟩ := hFolded
    refine ⟨hWrites, hMsgs ▸ hKey, outputs, hSlot, ?_⟩
    rw [hSlots] at hSlot
    obtain ⟨visit, found, hDone, hMono, -⟩ :=
      (rounded_progress call index states clock).kept message outputs hSlot
    cases (getElem_zip_slots.mp hDone).2.symm.trans hBefore
    exact hMono owner.1 hSome
  · intro hFolded
    refine (folded_cases hMsgs hSlots hSeparate hForm hFolded).resolve_right fun hMem => ?_
    obtain ⟨visit, hVisit, -⟩ := mem_map.mp hMem
    exact hOther (trace_progress hSeparate.steady hForm (mem_visitsOf.mp hVisit)).2.2.2.1

end Round

/-- A round that does not fail ends with a plan of its writes. -/
structure Planning (A : Aggregate n σ τ) (call : Call n σ τ) (index : Nat) (rows : Rows)
    (clock : Nat → τ) (after : Call n σ τ) (states : Memory n σ) (versions : Fin n → HashMap Int)
    (writes : List (Planned n τ)) : Prop where
  loaded : takeOver A call.states call.versions
    (rows.loadMany ((ownersOf call.pending).map A.storeKey)) (ownersOf call.pending) =
      .ok (states, versions)
  planned : plan A (call.progress A index states clock) versions
    (ownersOf (call.progress A index states clock).touched) = .ok writes
  messages : after.messages = call.messages
  slots : after.slots = (call.progress A index states clock).slots
  phase : (writes = [] ∧ ∃ results, after.phase = .returned (.ok results)) ∨
    after.phase = .storing writes

theorem load_cases (call : Call n σ τ) (index : Nat) (rows : Rows) (clock : Nat → τ) :
    (call.load A index rows clock).Failed ∨ ∃ states versions writes,
      Planning A call index rows clock (call.load A index rows clock) states versions writes := by
  rw [Call.load]
  cases hTake : takeOver A call.states call.versions
      (rows.loadMany ((ownersOf call.pending).map A.storeKey)) (ownersOf call.pending) with
  | error error => exact .inl trivial
  | ok result =>
    obtain ⟨states, versions⟩ := result
    simp only
    cases hPlan : plan A (call.progress A index states clock) versions
        (ownersOf (call.progress A index states clock).touched) with
    | error halt =>
      cases halt with
      | failed | panicked => exact .inl trivial
    | ok writes =>
      cases writes with
      | nil => exact .inr ⟨states, versions, [], hTake, hPlan, rfl, rfl, .inl ⟨rfl, _, rfl⟩⟩
      | cons first rest => exact .inr ⟨states, versions, _, hTake, hPlan, rfl, rfl, .inr rfl⟩

theorem load_messages (call : Call n σ τ) (index : Nat) (rows : Rows) (clock : Nat → τ) :
    (call.load A index rows clock).messages = call.messages := by
  rw [Call.load]
  simp only
  split
  · rfl
  · split <;> rfl

variable {writes : List (Planned n τ)} {rows : Rows} {versions : Fin n → HashMap Int}
    {after : Call n σ τ}

theorem Planning.writes_sound (hSeparate : A.Separate) (hForm : call.WellFormed A)
    (h : Planning A call index rows clock after states versions writes) :
    ∀ planned ∈ writes, planned.Sound A rows ∧ planned.owner.2 ∈ call.pending planned.owner.1 ∧
      planned.visits = visitsOf (call.progress A index states clock).trace planned.owner := by
  intro planned hMem
  obtain ⟨hOwners, hAll⟩ := plan_spec h.planned
  obtain ⟨hKey, ⟨next, hNext, hJson⟩, hExpected, hVisits⟩ := hAll planned hMem
  have hRounded := rounded_progress (A := A) call index states clock
  have hTouched : planned.owner ∈ ownersOf (call.progress A index states clock).touched :=
    hOwners ▸ mem_map.mpr ⟨planned, hMem, rfl⟩
  obtain ⟨visit, hTrace⟩ := (hRounded.touched planned.owner).mp (mem_ownersOf.mp hTouched)
  obtain ⟨-, -, -, hPend, -⟩ := trace_progress hSeparate.steady hForm hTrace
  obtain ⟨hState, hVersion⟩ := takeOver_loaded hSeparate h.loaded (nodup_ownersOf hForm.pending)
    (fun owner hOwner => if_pos (mem_map.mpr ⟨owner, hOwner, rfl⟩))
    (mem_ownersOf.mpr hPend)
  have hSame : rows.version planned.write.key = planned.write.expected := by
    rw [hKey]
    exact Option.some.inj (hVersion.symm.trans hExpected)
  have hFolds := hRounded.folds planned.owner
  rw [hNext, ← hVisits] at hFolds
  refine ⟨⟨hKey, hSame.ge, rows planned.write.key, _, next, fun _ => rfl, ?_, hFolds, hJson⟩,
    hPend, hVisits⟩
  rw [hKey]
  exact hState

/-- A round that does not fail, and folds again what has to be folded again,
keeps the account. -/
theorem Planning.accounted {own : List (Planned n τ)} (hSeparate : A.Separate)
    (hForm : call.WellFormed A) (hPhase : call.phase = .loading) (hBefore : Accounted A call own)
    (hRefolds : call.Refolds A after)
    (h : Planning A call index rows clock after states versions writes) :
    Accounted A after own := by
  rw [Accounted, hPhase] at hBefore
  obtain ⟨hOwners, -⟩ := plan_spec h.planned
  have hRounded := rounded_progress (A := A) call index states clock
  have hAgain : ∀ owner, owner.2 ∈ call.pending owner.1 → ∀ message,
      call.Folded A message owner →
        message ∈ (visitsOf (call.progress A index states clock).trace owner).map Visit.index := by
    intro owner hPend message hFolded
    obtain ⟨-, hPlanned⟩ := hRefolds message owner hFolded
    obtain ⟨found, hStoring, planned, hMem, rfl, hIdx⟩ := hPlanned hPend
    rcases h.phase with ⟨-, results, hReturned⟩ | hWrites
    · cases hReturned.symm.trans hStoring
    · cases hWrites.symm.trans hStoring
      rwa [(h.writes_sound hSeparate hForm planned hMem).2.2] at hIdx
  -- keys that no write of this round is about
  have hRest : ∀ owner, owner ∉ writes.map Planned.owner →
      Exactly (visitsFor own owner) fun message => after.Folded A message owner := by
    intro owner hNot
    by_cases hPend : owner.2 ∈ call.pending owner.1
    · rw [(hBefore owner).1 hPend]
      have hExactly := exactly_of_pending h.messages h.slots hSeparate hForm (hAgain owner hPend)
      have hNone : visitsOf (call.progress A index states clock).trace owner = [] := by
        rw [eq_nil_iff_forall_not_mem]
        intro visit hVisit
        rw [hOwners, mem_ownersOf, hRounded.touched] at hNot
        exact hNot ⟨visit, mem_visitsOf.mp hVisit⟩
      rwa [hNone] at hExactly
    · exact ((hBefore owner).2 hPend).congr
        (folded_iff_of_not_pending h.messages h.slots hSeparate
        hForm hPend fun message hFolded => (hRefolds message owner hFolded).1)
  rcases h.phase with ⟨rfl, results, hReturned⟩ | hStoring
  · rw [Accounted, hReturned]
    exact fun owner => hRest owner not_mem_nil
  · rw [Accounted, hStoring]
    refine ⟨hOwners ▸ nodup_ownersOf hRounded.distinct, fun planned hMem => ?_, hRest⟩
    obtain ⟨-, hPend, hVisits⟩ := h.writes_sound hSeparate hForm planned hMem
    refine ⟨(hBefore planned.owner).1 hPend, ?_⟩
    rw [hVisits]
    exact exactly_of_pending h.messages h.slots hSeparate hForm (hAgain _ hPend)

/-- The call after `store_many`, whatever became of it. -/
theorem stored_shape (call : Call n σ τ) (writes : List (Planned n τ)) (lost : List Nat) :
    (call.stored A writes lost).messages = call.messages ∧
      (call.stored A writes lost).slots = call.slots ∧
      ∀ found, (call.stored A writes lost).phase ≠ .storing found := by
  rw [Call.stored]
  split_ifs <;> exact ⟨rfl, rfl, by simp⟩

theorem mem_pending_again {again : List (Owner n)} {owner : Owner n} :
    owner.2 ∈ (again.filterMap fun o => if o.1 = owner.1 then some o.2 else none).dedup ↔
      owner ∈ again := by
  rw [mem_dedup, mem_filterMap]
  constructor
  · rintro ⟨o, hMem, hSome⟩
    split_ifs at hSome with hEntry
    cases Prod.ext hEntry (Option.some.inj hSome)
    exact hMem
  · exact fun hMem => ⟨owner, hMem, if_pos rfl⟩

/-- The indices that lost the race give the owners that lost it. -/
theorem lost_owners :
    ((rows.storeMany (writes.map Planned.write)).2.filterMap fun place => writes[place]?) =
      rows.losing Planned.write writes := by
  have hLost := @Rows.getElem_storeMany _ Planned.write rows writes
  calc ((rows.storeMany (writes.map Planned.write)).2.filterMap fun place => writes[place]?)
      = ((rows.storeMany (writes.map Planned.write)).2.map fun place =>
        writes[place]?).filterMap id := by
        rw [filterMap_map]
        rfl
    _ = rows.losing Planned.write writes := by
        rw [hLost, filterMap_map]
        exact filterMap_some

theorem stored_reported {lost : List Nat} {results : List Folded}
    (hPhase : (call.stored A writes lost).phase = .returned (.ok results)) : lost = [] := by
  rw [Call.stored] at hPhase
  split_ifs at hPhase with hEmpty hGiven hRounds
  · exact isEmpty_iff.mp hEmpty
  · cases hPhase
  · cases hPhase

theorem stored_loading {lost : List Nat}
    (hPhase : (call.stored A writes lost).phase = .loading) {owner : Owner n} :
    owner.2 ∈ (call.stored A writes lost).pending owner.1 ↔
      owner ∈ (lost.filterMap fun place => writes[place]?).map Planned.owner := by
  rw [Call.stored] at hPhase ⊢
  split_ifs at hPhase ⊢
  exact mem_pending_again

theorem nodup_owners (hNodup : (writes.map Planned.owner).Nodup) :
    ((rows.carriedOut Planned.write writes).map Planned.owner ++
      (rows.losing Planned.write writes).map Planned.owner).Nodup := by
  rw [← map_append]
  exact (Rows.carriedOut_append_losing.map Planned.owner).nodup_iff.mpr hNodup

section Writes

variable {rows : Rows} {writes own : List (Planned n τ)} {folded : Nat → Owner n → Prop}
  (hNodup : (writes.map Planned.owner).Nodup)
  (hWrites : ∀ planned ∈ writes, visitsFor own planned.owner = [] ∧
    Exactly planned.visits fun message => folded message planned.owner)

include hNodup hWrites

/-- A key that did not lose the race has exactly its messages. -/
theorem exactly_carriedOut (hRest : ∀ owner, owner ∉ writes.map Planned.owner →
      Exactly (visitsFor own owner) fun message => folded message owner) {owner : Owner n}
    (hNot : owner ∉ (rows.losing Planned.write writes).map Planned.owner) :
    Exactly (visitsFor (own ++ rows.carriedOut Planned.write writes) owner)
      fun message => folded message owner := by
  have hSplit := @Rows.carriedOut_append_losing _ Planned.write rows writes
  rw [visitsFor_append]
  by_cases hMem : owner ∈ writes.map Planned.owner
  · obtain ⟨planned, hPlanned, rfl⟩ := mem_map.mp hMem
    obtain ⟨hNone, hExactly⟩ := hWrites planned hPlanned
    have hWon : planned ∈ rows.carriedOut Planned.write writes :=
      (mem_append.mp (hSplit.mem_iff.mpr hPlanned)).resolve_right fun hLost =>
        hNot (mem_map.mpr ⟨planned, hLost, rfl⟩)
    rw [hNone, visitsFor_of_mem (nodup_owners hNodup).of_append_left hWon]
    exact hExactly
  · have hNone : visitsFor (rows.carriedOut Planned.write writes) owner = [] :=
      visitsFor_eq_nil fun planned hWon hOwner => hMem (mem_map.mpr
        ⟨planned, hSplit.mem_iff.mp (mem_append_left _ hWon), hOwner⟩)
    rw [hNone, append_nil]
    exact hRest owner hMem

/-- A key that lost the race has none of them. -/
theorem visitsFor_losing {owner : Owner n}
    (hMem : owner ∈ (rows.losing Planned.write writes).map Planned.owner) :
    visitsFor (own ++ rows.carriedOut Planned.write writes) owner = [] := by
  have hSplit := @Rows.carriedOut_append_losing _ Planned.write rows writes
  obtain ⟨-, -, hApart⟩ := nodup_append.mp (nodup_owners hNodup)
  obtain ⟨planned, hPlanned, rfl⟩ := mem_map.mp hMem
  have hNone : visitsFor (rows.carriedOut Planned.write writes) planned.owner = [] :=
    visitsFor_eq_nil fun other hWon hOwner =>
      hApart _ (mem_map.mpr ⟨other, hWon, rfl⟩) _ hMem hOwner
  rw [visitsFor_append, hNone, append_nil,
    (hWrites planned (hSplit.mem_iff.mp (mem_append_right _ hPlanned))).1]

end Writes

/-- After `store_many`, the keys whose write was carried out have their
messages, and those whose write lost are pending again. -/
theorem stored_accounted {writes own : List (Planned n τ)}
    (hPhase : call.phase = .storing writes) (hBefore : Accounted A call own)
    (hFailed : (call.stored A writes (rows.storeMany (writes.map Planned.write)).2).Failed →
      own ++ rows.carriedOut Planned.write writes = []) :
    Accounted A (call.stored A writes (rows.storeMany (writes.map Planned.write)).2)
      (own ++ rows.carriedOut Planned.write writes) := by
  rw [Accounted, hPhase] at hBefore
  obtain ⟨hNodup, hWrites, hRest⟩ := hBefore
  obtain ⟨hMsgs, hSlots, hNotStoring⟩ := stored_shape call writes
    (rows.storeMany (writes.map Planned.write)).2
  have hSettled : ∀ owner, owner ∉ (rows.losing Planned.write writes).map Planned.owner →
      Exactly (visitsFor (own ++ rows.carriedOut Planned.write writes) owner) fun message =>
        (call.stored A writes (rows.storeMany (writes.map Planned.write)).2).Folded A message
          owner := by
    intro owner hNot
    refine .congr (exactly_carriedOut hNodup hWrites hRest hNot) fun message => ?_
    rw [Call.Folded, Call.Folded, hSlots, hMsgs]
  rw [Accounted]
  split
  next hLoading =>
    intro owner
    rw [stored_loading hLoading, lost_owners]
    exact ⟨visitsFor_losing hNodup hWrites, hSettled owner⟩
  next found hStoring => exact absurd hStoring (hNotStoring found)
  next results hOk =>
    have hNone : rows.losing Planned.write writes = [] := by
      rw [← lost_owners, stored_reported hOk, filterMap_nil]
    exact fun owner => hSettled owner (by rw [hNone]; exact not_mem_nil)
  next error hError =>
    refine hFailed ?_
    rw [Call.Failed, hError]
    trivial
  next hPanicked =>
    refine hFailed ?_
    rw [Call.Failed, hPanicked]
    trivial

end Calls

def Storing (s : State n σ τ) (index : Nat) (planned : Planned n τ) : Prop :=
  ∃ call writes, s.calls[index]? = some call ∧ call.phase = .storing writes ∧ planned ∈ writes

/-- The visits of a write are of messages of its call. -/
def Planned.Labelled (index : Nat) (messages : List CanonicalMessage) (planned : Planned n τ) :
    Prop :=
  ∀ visit ∈ planned.visits, visit.call = index ∧ messages[visit.index]? = some visit.message

structure Call.Sound (A : Aggregate n σ τ) (rows : Rows) (index : Nat) (own : List (Planned n τ))
    (call : Call n σ τ) : Prop where
  formed : call.WellFormed A
  accounted : Accounted A call own
  planned : ∀ writes, call.phase = .storing writes → ∀ planned ∈ writes,
    planned.Sound A rows ∧ planned.Labelled index call.messages

/-- The invariant of a run. -/
structure Sound (A : Aggregate n σ τ) (first : Rows) (s : State n σ τ) : Prop where
  serial : Serial A first s.rows (s.log.map Prod.snd)
  calls : ∀ (index : Nat) (call : Call n σ τ), s.calls[index]? = some call →
    call.Sound A s.rows index (s.own index)
  logged : ∀ index planned, (index, planned) ∈ s.log →
    ∃ call, s.calls[index]? = some call ∧ planned.Labelled index call.messages

section Steps

variable {s : State n σ τ} {first : Rows} {index : Nat}

theorem own_eq_nil_iff : s.own index = [] ↔ StoredNothing s index := by
  rw [State.own, map_eq_nil_iff, filter_eq_nil_iff, StoredNothing]
  simp only [decide_eq_true_eq]

/-- One call changes, with the rows and the log it may have written. -/
theorem Sound.update (h : Sound A first s) {t : State n σ τ} {call after : Call n σ τ}
    (hCall : s.calls[index]? = some call) (hCalls : t.calls = s.calls.set index after)
    (hMsgs : after.messages = call.messages)
    (hSerial : Serial A first t.rows (t.log.map Prod.snd))
    (hOthers : ∀ (j : Nat) (other : Call n σ τ), j ≠ index → s.calls[j]? = some other →
      other.Sound A t.rows j (t.own j))
    (hAfter : after.Sound A t.rows index (t.own index))
    (hLog : ∀ j planned, (j, planned) ∈ t.log →
      (j, planned) ∈ s.log ∨ j = index ∧ planned.Labelled index call.messages) :
    Sound A first t := by
  have hNow {j : Nat} {other : Call n σ τ} :
      t.calls[j]? = some other ↔ (j = index ∧ after = other) ∨
        (j ≠ index ∧ s.calls[j]? = some other) :=
    hCalls ▸ Places.getElem?_set_eq_some hCall
  refine ⟨hSerial, fun j other hAt => ?_, fun j planned hMem => ?_⟩
  · rcases hNow.mp hAt with ⟨rfl, rfl⟩ | ⟨hNe, hOld⟩
    · exact hAfter
    · exact hOthers j other hNe hOld
  · obtain ⟨other, hAt, hLabels⟩ :
        ∃ other, s.calls[j]? = some other ∧ planned.Labelled j other.messages := by
      rcases hLog j planned hMem with hOld | ⟨rfl, hNew⟩
      · exact h.logged j planned hOld
      · exact ⟨call, hCall, hNew⟩
    rcases eq_or_ne j index with rfl | hNe
    · cases hCall.symm.trans hAt
      exact ⟨after, hNow.mpr (.inl ⟨rfl, rfl⟩), hMsgs ▸ hLabels⟩
    · exact ⟨other, hNow.mpr (.inr ⟨hNe, hAt⟩), hLabels⟩

/-- A call changes and the store does not. -/
theorem Sound.set (h : Sound A first s) {call after : Call n σ τ}
    (hCall : s.calls[index]? = some call) (hMsgs : after.messages = call.messages)
    (hAfter : after.Sound A s.rows index (s.own index)) :
    Sound A first { s with calls := s.calls.set index after } :=
  h.update hCall rfl hMsgs h.serial (fun j other _ => h.calls j other) hAfter fun _ _ => .inl

variable {call : Call n σ τ}

theorem accounted_of_failed {own : List (Planned n τ)} (hFailed : call.Failed) :
    Accounted A call own ↔ own = [] := by
  rw [Call.Failed] at hFailed
  rw [Accounted]
  split at hFailed
  next hPhase => rw [hPhase]
  next hPhase => rw [hPhase]
  next => exact hFailed.elim

theorem Sound.fail (h : Sound A first s)
    (hCall : s.calls[index]? = some call) (error : String) (hNothing : StoredNothing s index) :
    Sound A first (s.fail index call error) := by
  have hForm := (h.calls index call hCall).formed
  exact h.set hCall rfl ⟨{ hForm with }, own_eq_nil_iff.mpr hNothing, nofun⟩

theorem load_wellFormed (hForm : call.WellFormed A) (index : Nat) (rows : Rows)
    (clock : Nat → τ) : (call.load A index rows clock).WellFormed A := by
  rw [Call.load]
  simp only
  split
  · exact { hForm with }
  · have hSlots (states : Memory n σ) :
        (call.progress A index states clock).slots.length = call.messages.length := by
      rw [(rounded_progress call index states clock).length, length_zip, hForm.slots, visits,
        length_map, length_zipIdx, min_self]
    split <;> exact { hForm with slots := hSlots _ }

/-- A call loads and folds. -/
theorem Sound.load (h : Sound A first s) (hSeparate : A.Separate)
    (hCall : s.calls[index]? = some call) (hPhase : call.phase = .loading) {clock : Nat → τ}
    (hFailed : (call.load A index s.rows clock).Failed → StoredNothing s index)
    (hRefolds : ¬ (call.load A index s.rows clock).Failed →
      call.Refolds A (call.load A index s.rows clock)) :
    Sound A first { s with calls := s.calls.set index (call.load A index s.rows clock) } := by
  have hSound := h.calls index call hCall
  have hForm := hSound.formed
  refine h.set hCall (load_messages call index s.rows clock)
    ⟨load_wellFormed hForm index s.rows clock, ?_, ?_⟩
  · by_cases hFails : (call.load A index s.rows clock).Failed
    · exact (accounted_of_failed hFails).mpr (own_eq_nil_iff.mpr (hFailed hFails))
    · obtain ⟨states, versions, writes, hPlan⟩ :=
        (load_cases call index s.rows clock).resolve_left hFails
      exact hPlan.accounted hSeparate hForm hPhase hSound.accounted (hRefolds hFails)
  · intro writes hStoring planned hMem
    rcases load_cases call index s.rows clock with hFails | ⟨states, versions, found, hPlan⟩
    · rw [Call.Failed, hStoring] at hFails
      exact hFails.elim
    have hFound : found = writes := by
      rcases hPlan.phase with ⟨-, results, hReturned⟩ | hWrites
      · cases hReturned.symm.trans hStoring
      · cases hWrites.symm.trans hStoring
        rfl
    subst hFound
    obtain ⟨hWrite, -, hVisits⟩ := hPlan.writes_sound hSeparate hForm planned hMem
    refine ⟨hWrite, fun visit hVisit => ?_⟩
    rw [hVisits] at hVisit
    obtain ⟨hIdx, hMsg, -⟩ := trace_progress hSeparate.steady hForm (mem_visitsOf.mp hVisit)
    exact ⟨hIdx, hPlan.messages ▸ hMsg⟩

theorem stored_wellFormed (hForm : call.WellFormed A)
    (writes : List (Planned n τ)) (lost : List Nat) : (call.stored A writes lost).WellFormed A := by
  rw [Call.stored]
  split_ifs
  · exact { hForm with }
  · exact ⟨hForm.slots, fun i => nodup_dedup _, by simp⟩
  · exact ⟨hForm.slots, fun i => nodup_dedup _, by simp⟩
  · exact { hForm with }

variable {writes : List (Planned n τ)}

theorem own_store {index j : Nat} : (s.store A index call writes).own j =
      s.own j ++ if j = index then s.rows.carriedOut Planned.write writes else [] := by
  rw [State.own, State.store, filter_append, filter_map]
  split_ifs with hSame
  · subst hSame
    simp [State.own]
  · have hNe : ¬ index = j := fun h => hSame h.symm
    simp [State.own, hNe]

/-- The writes of a call reach the store, each against the row it expects. -/
theorem Sound.store (h : Sound A first s) (hSeparate : A.Separate)
    (hCall : s.calls[index]? = some call) (hPhase : call.phase = .storing writes)
    (hFailed : (call.stored A writes (s.rows.storeMany (writes.map Planned.write)).2).Failed →
      StoredNothing (s.store A index call writes) index) :
    Sound A first (s.store A index call writes) := by
  have hSound := h.calls index call hCall
  -- each write that is carried out extends the serial order and keeps the other plans
  have hPut := @Rows.storeFrom_rule _ Planned.write s.rows writes (fun rows done =>
    Serial A first rows (s.log.map Prod.snd ++ done) ∧ ∀ j planned, Storing s j planned →
      planned.Sound A rows) [] 0
    ⟨by rw [append_nil]; exact h.serial, fun j planned ⟨other, found, hAt, hStoring, hMem⟩ =>
      ((h.calls j other hAt).planned found hStoring planned hMem).1⟩
    (fun rows done planned hMem hBefore hWins => by
      obtain ⟨hSerial, hPlanned⟩ := hBefore
      refine ⟨?_, fun j other hOther => (hPlanned j other hOther).put hWins⟩
      rw [← append_assoc]
      exact hSerial.put hSeparate
        (hPlanned index planned ⟨call, writes, hCall, hPhase, hMem⟩) hWins)
  obtain ⟨hSerial, hPlanned⟩ := hPut
  have hLogged : (s.store A index call writes).log.map Prod.snd =
      s.log.map Prod.snd ++ ([] ++ s.rows.carriedOut Planned.write writes) := by
    simp [State.store]
  obtain ⟨hMsgs, -, hNotStoring⟩ := stored_shape call writes
    (s.rows.storeMany (writes.map Planned.write)).2
  have hAfter :=
    stored_wellFormed hSound.formed writes (s.rows.storeMany (writes.map Planned.write)).2
  refine update h hCall rfl hMsgs (by rw [hLogged]; exact hSerial)
    (fun j other hNe hAt => ?_)
      ⟨hAfter, ?_, fun found hFound => absurd hFound (hNotStoring found)⟩ fun j planned hMem => ?_
  · have hOther := h.calls j other hAt
    rw [own_store, if_neg hNe, append_nil]
    refine { hOther with planned := fun found hStoring planned hMem =>
      ⟨?_, (hOther.planned _ hStoring _ hMem).2⟩ }
    exact hPlanned j planned ⟨other, found, hAt, hStoring, hMem⟩
  · rw [own_store, if_pos rfl]
    refine stored_accounted hPhase hSound.accounted fun hFails => ?_
    have hNone := own_eq_nil_iff.mpr (hFailed hFails)
    rwa [own_store, if_pos rfl] at hNone
  · rcases mem_append.mp hMem with hOld | hNew
    · exact .inl hOld
    · obtain ⟨other, hCarried, hEq⟩ := mem_map.mp hNew
      obtain ⟨rfl, rfl⟩ := Prod.mk.inj hEq
      have hWritten := Rows.carriedOut_append_losing.mem_iff.mp (mem_append_left _ hCarried)
      exact .inr ⟨rfl, (hSound.planned writes hPhase other hWritten).2⟩

variable (messages : List CanonicalMessage)

theorem start_accounted :
    Accounted A (Call.start A messages : Call n σ τ) [] := by
  intro owner
  refine ⟨fun _ => rfl, fun _ => exactly_nil fun message hFolded => ?_⟩
  obtain ⟨-, -, outputs, hSlot, hSome⟩ := hFolded
  rw [Call.start, getElem?_map, Option.map_eq_some_iff] at hSlot
  obtain ⟨msg, -, hNone⟩ := hSlot
  cases hNone
  cases hSome

theorem start_wellFormed :
    (Call.start A messages : Call n σ τ).WellFormed A :=
  ⟨length_map _, fun _ => nodup_dedup _, fun _ msg hMem _ _ hKey =>
    mem_dedup.mpr (mem_filterMap.mpr ⟨msg, hMem, hKey⟩)⟩

/-- A new call has written nothing and changes nothing for the others. -/
theorem Sound.start (h : Sound A first s) (hKnown : ∀ entry ∈ s.log, entry.1 < s.calls.length)
    (messages : List CanonicalMessage) :
    Sound A first { s with calls := s.calls ++ [Call.start A messages] } := by
  refine ⟨h.serial, fun j call hCall => ?_, fun j planned hMem => ?_⟩
  · rcases Places.getElem?_snoc_eq_some.mp hCall with hCall | ⟨rfl, rfl⟩
    · exact h.calls j call hCall
    · have hNone : s.own s.calls.length = [] :=
        own_eq_nil_iff.mpr fun entry hMem => ne_of_lt (hKnown entry hMem)
      rw [show State.own { s with calls := s.calls ++ [.start A messages] } s.calls.length =
        s.own s.calls.length from rfl, hNone]
      exact ⟨start_wellFormed messages, start_accounted messages, nofun⟩
  · obtain ⟨call, hCall, hVisits⟩ := h.logged j planned hMem
    exact ⟨call, Places.getElem?_snoc_eq_some.mpr (.inl hCall), hVisits⟩

/-- A step that settles keeps all of it. -/
theorem step_sound (hSeparate : A.Separate) {t : State n σ τ} {action : Action τ}
    (h : Sound A first s ∧ LogSound first s) (hSettles : Settles A s action)
    (hStep : step A s action = some t) : Sound A first t ∧ LogSound first t := by
  refine ⟨?_, step_logSound h.2 hStep⟩
  rcases step_cases hStep
    with ⟨messages, rfl, rfl⟩ | ⟨index, call, clock, rfl, hCall, hPhase, rfl⟩ |
    ⟨index, call, writes, rfl, hCall, hPhase, rfl⟩ | ⟨index, call, error, hAction, hCall, rfl⟩
  · exact h.1.start h.2.known messages
  · exact h.1.load hSeparate hCall hPhase (hSettles call hCall).1 (hSettles call hCall).2
  · exact h.1.store hSeparate hCall hPhase (hSettles call writes hCall hPhase)
  · refine h.1.fail hCall error ?_
    rcases hAction with rfl | rfl
    · exact hSettles
    · exact hSettles

/-- The visits of a key that belong to a call are those of the call's writes. -/
theorem Sound.filter_visitsFor (h : Sound A first s) (owner : Owner n) (index : Nat) :
    ((visitsFor (s.log.map Prod.snd) owner).filter fun visit => visit.call = index) =
      visitsFor (s.own index) owner := by
  have hLabel : ∀ entry ∈ s.log, ∀ visit ∈ entry.2.visits, visit.call = entry.1 := by
    intro entry hMem visit hVisit
    obtain ⟨_, -, hVisits⟩ := h.logged entry.1 entry.2 hMem
    exact (hVisits visit hVisit).1
  rw [State.own]
  generalize s.log = log at hLabel
  induction log with
  | nil => rfl
  | cons entry rest ih =>
    have hVisits : (entry.2.visits.filter fun visit => visit.call = index) =
        if entry.1 = index then entry.2.visits else [] := by
      have hCall := hLabel entry (mem_cons_self ..)
      split_ifs with hEntry
      · exact filter_eq_self.mpr fun visit hVisit => by simp [hCall visit hVisit, hEntry]
      · exact filter_eq_nil_iff.mpr fun visit hVisit => by simp [hCall visit hVisit, hEntry]
    have hRest := ih fun other hMem => hLabel other (mem_cons_of_mem _ hMem)
    rw [visitsFor, visitsFor] at hRest ⊢
    by_cases hOwner : entry.2.owner = owner
    all_goals by_cases hEntry : entry.1 = index
    all_goals simp [hOwner, hEntry, hVisits, hRest]

theorem Call.not_reported (hFailed : call.Failed) : ¬ call.Reported := by
  rintro ⟨results, hPhase⟩
  rw [Call.Failed, hPhase] at hFailed
  exact hFailed

/-- A call that has ended has in each key the messages it reported there. -/
theorem Accounted.exactly {own : List (Planned n τ)}
    (h : Accounted A call own) (hEnded : call.Reported ∨ call.Failed) (owner : Owner n) :
    Exactly (visitsFor own owner) fun message => call.Reported ∧ call.Folded A message owner := by
  rcases hEnded with hReported | hFailed
  · obtain ⟨results, hPhase⟩ := hReported
    rw [Accounted, hPhase] at h
    exact (h owner).congr fun message => (and_iff_right ⟨results, hPhase⟩).symm
  · rw [(accounted_of_failed hFailed).mp h]
    exact exactly_nil fun message hBoth => Call.not_reported hFailed hBoth.1

theorem Sound.serialOrder (h : Sound A first s)
    (hEnded : ∀ call ∈ s.calls, call.Reported ∨ call.Failed) (owner : Owner n) :
    SerialOrder A first s owner (visitsFor (s.log.map Prod.snd) owner) := by
  refine ⟨h.serial owner, fun visit hVisit => ?_, fun index call hCall => ?_⟩
  · obtain ⟨planned, hMem, hIn⟩ := mem_flatMap.mp hVisit
    obtain ⟨⟨index, logged⟩, hEntry, rfl⟩ := mem_map.mp (mem_filter.mp hMem).1
    obtain ⟨call, hCall, hVisits⟩ := h.logged index logged hEntry
    obtain ⟨hIdx, hMsg⟩ := hVisits visit hIn
    exact ⟨call, hIdx ▸ hCall, hMsg⟩
  · rw [h.filter_visitsFor owner index]
    exact (h.calls index call hCall).accounted.exactly (hEnded call (mem_of_getElem? hCall)) owner

theorem sound_init (first : Rows) : Sound A first (init first : State n σ τ) where
  serial := fun _ => .start
  calls := nofun
  logged := nofun

end Steps

/-- Once every call has ended, the stored state of each key is the fold of its
entry's update over some order of exactly the messages that were reported
folded into it, each once: in every run in which no call fails that has stored
something and no round rejects what an earlier round of its call has folded. -/
theorem shared_no_lost_update (hSeparate : A.Separate) {first : Rows} {s : State n σ τ}
    {actions : List (Action τ)} (hRun : run (step A) (init first) actions = some s)
    (hSettles : Machine.Guarded (step A) (Settles A) (init first) actions)
    (hEnded : ∀ call ∈ s.calls, call.Reported ∨ call.Failed) (owner : Owner n) :
    ∃ order, SerialOrder A first s owner order := by
  obtain ⟨h, -⟩ := invariant_of_guarded
    (fun _ _ _ => step_sound hSeparate)
    ⟨sound_init first, logSound_init first⟩ hSettles hRun
  exact ⟨_, h.serialOrder hEnded owner⟩

section Decide

def Call.writes (call : Call n σ τ) : Option (List (Planned n τ)) :=
  match call.phase with
  | .storing writes => some writes
  | _ => none

theorem Call.writes_eq_some {call : Call n σ τ} {writes : List (Planned n τ)} :
    call.writes = some writes ↔ call.phase = .storing writes := by
  rw [Call.writes]
  cases call.phase <;> simp

instance decidableReported (call : Call n σ τ) : Decidable call.Reported :=
  match hPhase : call.phase with
  | .returned (.ok results) => isTrue ⟨results, hPhase⟩
  | .returned (.error _) | .panicked | .loading | .storing _ =>
    isFalse fun ⟨_, hOk⟩ => by cases hPhase.symm.trans hOk

instance decidableFailed (call : Call n σ τ) : Decidable call.Failed :=
  match hPhase : call.phase with
  | .returned (.error _) | .panicked => isTrue (by rw [Call.Failed, hPhase]; trivial)
  | .returned (.ok _) | .loading | .storing _ => isFalse (by rw [Call.Failed, hPhase]; exact id)

theorem exists_ok_iff {α : Type*} {slots : List (Except String α)} {index : Nat} {P : α → Prop} :
    (∃ slot ∈ slots[index]?, ∃ value ∈ slot.toOption, P value) ↔
      ∃ value, slots[index]? = some (Except.ok value) ∧ P value := by
  constructor
  · rintro ⟨slot | slot, hSlot, value, hVal, hP⟩
    · cases hVal
    · cases hVal
      exact ⟨slot, hSlot, hP⟩
  · rintro ⟨value, hSlot, hP⟩
    exact ⟨_, hSlot, value, rfl, hP⟩

instance decidableFolded (call : Call n σ τ) (index : Nat) (owner : Owner n) :
    Decidable (call.Folded A index owner) :=
  decidable_of_iff
    (A.readOnly = false ∧ (∃ msg ∈ call.messages[index]?, A.keys msg owner.1 = some owner.2) ∧
    ∃ slot ∈ call.slots[index]?, ∃ outputs ∈ slot.toOption, (outputs owner.1).isSome)
    (and_congr_right fun _ => and_congr_right fun _ => exists_ok_iff)

/-- Only the keys of the call's own messages have to be looked at. -/
theorem refolds_iff {call after : Call n σ τ} :
    (∀ index ∈ List.range call.slots.length, ∀ i ∈ List.finRange n,
      ∀ key ∈ call.messages[index]?.bind fun msg => A.keys msg i, call.Folded A index (i, key) →
        (∃ slot ∈ after.slots[index]?, slot.isOk) ∧ (key ∈ call.pending i → ∃ writes ∈ after.writes,
          ∃ planned ∈ writes, planned.owner = (i, key) ∧ index ∈ planned.visits.map Visit.index)) ↔
      call.Refolds A after := by
  have hOk : ∀ index : Nat, (∃ slot ∈ after.slots[index]?, slot.isOk) ↔
      ∃ outputs : Outputs n, after.slots[index]? = some (.ok outputs) := fun index =>
    ⟨fun ⟨slot, hSlot, hOk⟩ => by
      cases slot with
      | error error => cases hOk
      | ok outputs => exact ⟨outputs, hSlot⟩, fun ⟨outputs, hSlot⟩ => ⟨_, hSlot, rfl⟩⟩
  simp only [hOk]
  simp only [Option.mem_def, Call.writes_eq_some]
  constructor
  · rintro hAll index owner hFolded
    obtain ⟨-, ⟨msg, hMsg, hKey⟩, outputs, hSlot, -⟩ := id hFolded
    refine hAll index (mem_range.mpr (List.getElem?_eq_some_iff.mp hSlot).1) owner.1
      (mem_finRange _) owner.2 ?_ hFolded
    rw [hMsg, Option.bind_some, hKey]
  · intro hAll index _ i _ key _ hFolded
    exact hAll index (i, key) hFolded

instance decidableRefolds (call after : Call n σ τ) : Decidable (call.Refolds A after) :=
  decidable_of_iff _ refolds_iff

instance decidableStoredNothing (s : State n σ τ) (index : Nat) :
    Decidable (StoredNothing s index) :=
  inferInstanceAs (Decidable (∀ entry ∈ s.log, entry.1 ≠ index))

instance decidableSettles (s : State n σ τ) : (action : Action τ) → Decidable (Settles A s action)
  | .start _ => inferInstanceAs (Decidable True)
  | .load index clock => inferInstanceAs (Decidable (∀ call ∈ s.calls[index]?,
      ((call.load A index s.rows clock).Failed → StoredNothing s index) ∧
        (¬ (call.load A index s.rows clock).Failed →
        call.Refolds A (call.load A index s.rows clock))))
  | .store index =>
    decidable_of_iff (∀ call ∈ s.calls[index]?, ∀ writes ∈ call.writes,
      (call.stored A writes (s.rows.storeMany (writes.map Planned.write)).2).Failed →
        StoredNothing (s.store A index call writes) index) (by
      simp only [Option.mem_def, Call.writes_eq_some]
      exact ⟨fun h call writes hCall => h call hCall writes, fun h call hCall writes =>
        h call writes hCall⟩)
  | .loadFails index _ | .storeFails index _ => inferInstanceAs (Decidable (StoredNothing s index))

end Decide

theorem separate_tally : tally.Separate where
  keys := fun _ _ _ => rfl
  storeKeys := fun first second hSame => by
    have hKey : first.2 = second.2 := (String.append_right_inj "total:").mp hSame
    exact Prod.ext (Subsingleton.elim _ _) hKey

/-- The call that lost the key `b` folds its message again, on what the other
one has stored. -/
theorem shared_no_lost_update_contended : ∃ s, run (step tally) (init fun _ => none)
        (contended [.store 0, .load 0 fun _ => (), .store 0]) = some s ∧
      s.rows "total:b" = some ("11", 2) ∧ (∀ call ∈ s.calls, call.Reported) ∧
      ∀ owner, ∃ order, SerialOrder tally (fun _ => none) s owner order := by
  have hSettles : Machine.Guarded (step tally) (Settles tally) (init fun _ => none)
      (contended [.store 0, .load 0 fun _ => (), .store 0]) := by decide
  refine exists_run (fun s => s.rows "total:b" = some ("11", 2) ∧ ∀ call ∈ s.calls, call.Reported)
    (by decide) ?_
  rintro s hRun ⟨hRow, hReported⟩
  exact ⟨hRow, hReported, shared_no_lost_update separate_tally hRun hSettles
    fun call hMem => .inl (hReported call hMem)⟩

/-- A call that stored `a` and then fails was not reported, and its message is
in the state of `a`. -/
theorem failed_fold_counts : ∃ s, run (step tally) (init fun _ => none)
        (contended [.store 0, .loadFails 0 "down"]) = some s ∧
      (∀ call ∈ s.calls, call.Reported ∨ call.Failed) ∧
      ¬ ∃ order, SerialOrder tally (fun _ => none) s (0, "a") order := by
  refine exists_run
    (fun s => s.rows "total:a" = some ("1", 1) ∧ (∀ call ∈ s.calls, call.Reported ∨ call.Failed) ∧
    ∀ call ∈ s.calls, call.Reported →
      ∀ msg ∈ call.messages, tally.keys msg 0 ≠ some "a") (by decide) ?_
  rintro s - ⟨hRow, hEnded, hKeys⟩
  refine ⟨hEnded, ?_⟩
  rintro ⟨order, hOrder⟩
  have hReplays := hOrder.replays
  have hKey : tally.storeKey (0, "a") = "total:a" := by decide
  rw [hKey, hRow] at hReplays
  have hFolded : order ≠ [] := fun hNil => by cases hReplays.eq_none hNil
  obtain ⟨visit, hVisit⟩ := exists_mem_of_ne_nil order hFolded
  obtain ⟨call, hCall, -⟩ := hOrder.source visit hVisit
  have hCounted := ((hOrder.exactly visit.call call hCall).2 visit.index).mp
    (mem_map.mpr ⟨visit, mem_filter.mpr ⟨hVisit, by simp⟩, rfl⟩)
  obtain ⟨hReported, -, ⟨msg, hMsg, hOwner⟩, -⟩ := hCounted
  exact hKeys call (mem_of_getElem? hCall) hReported msg (mem_of_getElem? hMsg) hOwner

end Shared

end MqBridge.Aggregate
