import MqBridge.Middleware.Aggregate.Fold

/-! One round of folding. For every key, the state after the round is the fold
of the entry's update over the visits that the round recorded for it, and a
message has emitted for an entry exactly when it was folded into its key, in
this round or an earlier one. -/
namespace MqBridge.Aggregate

open List Function

universe u v
variable {n : Nat} {σ : Type u} {τ : Type v}

/-- The entry's update, message by message. -/
inductive FoldsTo (A : Aggregate n σ τ) (i : Fin n) :
    Option σ → List (Visit τ) → Option σ → Prop where
  | nil (state : Option σ) : FoldsTo A i state [] state
  | snoc {first state : Option σ} {visits : List (Visit τ)} {visit : Visit τ} {next : σ}
      {json : List UInt8} {late : Bool} (earlier : FoldsTo A i first visits state)
      (last : A.evaluate i visit.message visit.now state = .next next json late) :
      FoldsTo A i first (visits ++ [visit]) (some next)

def visitsOf (trace : List (Owner n × Visit τ)) (owner : Owner n) : List (Visit τ) :=
  trace.filterMap fun t => if t.1 = owner then some t.2 else none

variable {A : Aggregate n σ τ} {updates : List (Update n σ)} {memory : Memory n σ}

section Updates

variable {owner : Owner n}

theorem mem_visitsOf {trace : List (Owner n × Visit τ)} {visit : Visit τ} :
    visit ∈ visitsOf trace owner ↔ (owner, visit) ∈ trace := by
  rw [visitsOf, mem_filterMap]
  constructor
  · rintro ⟨⟨o, v⟩, hMem, hSome⟩
    split_ifs at hSome with hOwner
    cases hSome
    cases hOwner
    exact hMem
  · exact fun hMem => ⟨_, hMem, if_pos rfl⟩

theorem visitsOf_append (first second : List (Owner n × Visit τ)) (owner : Owner n) :
    visitsOf (first ++ second) owner = visitsOf first owner ++ visitsOf second owner :=
  filterMap_append

/-- Updates of different entries do not meet: the update of a key decides its
state, and is its one visit. -/
theorem updates_decide (hNodup : (updates.map fun u => u.owner.1).Nodup) (owner : Owner n)
    (visit : Visit τ) :
    (∀ memory :
      Memory n σ, (updates.foldl (fun memory u => memory.insert u.owner u.state) memory).get owner =
        memory.get owner) ∧ visitsOf (updates.map fun u => (u.owner, visit)) owner = [] ∨
    ∃ u ∈ updates, u.owner = owner ∧
      (∀ memory : Memory n σ,
        (updates.foldl (fun memory u => memory.insert u.owner u.state) memory).get owner =
        some u.state) ∧ visitsOf (updates.map fun u => (u.owner, visit)) owner = [visit] := by
  induction updates with
  | nil => exact .inl ⟨fun _ => rfl, rfl⟩
  | cons first rest ih =>
    obtain ⟨hFresh, hRest⟩ := nodup_cons.mp hNodup
    simp only [visitsOf, map_cons, filterMap_cons, foldl_cons] at ih ⊢
    by_cases hFirst : first.owner = owner
    · rcases ih hRest with ⟨hGet, hVisits⟩ | ⟨u, hMem, hOwner, -⟩
      · refine .inr ⟨first, mem_cons_self, hFirst, fun memory => ?_, ?_⟩
        · rw [hGet, Memory.get_insert, if_pos hFirst]
        · rw [if_pos hFirst, hVisits]
      · exact absurd (mem_map.mpr ⟨u, hMem, congrArg Prod.fst (hOwner.trans hFirst.symm)⟩) hFresh
    · rcases ih hRest with ⟨hGet, hVisits⟩ | ⟨u, hMem, hOwner, hGet, hVisits⟩
      · refine .inl ⟨fun memory => ?_, ?_⟩
        · rw [hGet, Memory.get_insert, if_neg hFirst]
        · rw [if_neg hFirst, hVisits]
      · exact .inr
          ⟨u, mem_cons_of_mem _ hMem, hOwner, fun memory => hGet _, by rw [if_neg hFirst, hVisits]⟩

variable {touched : Fin n → List String}

theorem mem_touched : owner.2 ∈ updates.foldl (fun touched u =>
        update touched u.owner.1 ((touched u.owner.1).insert u.owner.2)) touched owner.1 ↔
      owner.2 ∈ touched owner.1 ∨ ∃ u ∈ updates, u.owner = owner := by
  induction updates generalizing touched with
  | nil => simp
  | cons u rest ih =>
    rw [foldl_cons, ih, exists_mem_cons_iff]
    by_cases hEntry : owner.1 = u.owner.1
    · rw [hEntry, update_self, mem_insert_iff]
      have hOwner : u.owner = owner ↔ owner.2 = u.owner.2 := by
        rw [Prod.ext_iff]
        exact ⟨fun h => h.2.symm, fun h => ⟨hEntry.symm, h.symm⟩⟩
      tauto
    · have hNe : u.owner ≠ owner := fun h => hEntry (congrArg Prod.fst h.symm)
      rw [update_of_ne hEntry]
      simp [hNe]

theorem nodup_touched (hNodup : ∀ i, (touched i).Nodup) (i : Fin n) :
    (updates.foldl (fun touched u =>
      update touched u.owner.1 ((touched u.owner.1).insert u.owner.2)) touched i).Nodup := by
  induction updates generalizing touched with
  | nil => exact hNodup i
  | cons u rest ih =>
    rw [foldl_cons]
    refine ih fun j => ?_
    rcases eq_or_ne j u.owner.1 with rfl | hNe
    · rw [update_self]
      exact .insert (hNodup _)
    · rw [update_of_ne hNe]
      exact hNodup j

end Updates

/-- What a round has done after the visits of `done`, each with the slot it
found. -/
structure Rounded (A : Aggregate n σ τ) (only : Option (Fin n → List String)) (start : Memory n σ)
    (done : List (Visit τ × Emitted n)) (p : Progress n σ τ) : Prop where
  folds : ∀ owner, A.FoldsTo owner.1 (start.get owner) (visitsOf p.trace owner) (p.states.get owner)
  touched : ∀ owner, owner.2 ∈ p.touched owner.1 ↔ ∃ visit, (owner, visit) ∈ p.trace
  distinct : ∀ i, (p.touched i).Nodup
  length : p.slots.length = done.length
  traced : ∀ owner visit, (owner, visit) ∈ p.trace →
    (∃ (index : Nat) (slot : Emitted n) (emitted : Outputs n), done[index]? = some (visit, slot) ∧
      p.slots[index]? = some (Except.ok emitted) ∧ (emitted owner.1).isSome) ∧
    (∃ seen, A.Reaches visit.message owner.1 seen ∧
      A.keyAt owner.1 visit.message seen = some owner.2) ∧
    owner.2.utf8ByteSize ≤ maxKeyLen ∧ ∀ pending, only = some pending → owner.2 ∈ pending owner.1
  kept : ∀ (index : Nat) (emitted : Outputs n), p.slots[index]? = some (Except.ok emitted) →
    ∃ visit, ∃ before : Outputs n, done[index]? = some (visit, Except.ok before) ∧
      (∀ i, (before i).isSome → (emitted i).isSome) ∧
      ∀ i, (emitted i).isSome → (before i).isSome ∨ A.readOnly = true ∨
        ∃ key, ((i, key), visit) ∈ p.trace
  once : ∀ owner, (visitsOf p.trace owner).Pairwise fun a b => a.index < b.index
  readOnly : A.readOnly = true → p.trace = []

theorem Rounded.start (A : Aggregate n σ τ) (only : Option (Fin n → List String))
    (memory : Memory n σ) : A.Rounded only memory [] ⟨memory, fun _ => [], [], []⟩ :=
  ⟨fun _ => .nil _, by simp, fun _ => nodup_nil, rfl, by simp, by simp, fun _ => List.Pairwise.nil,
    fun _ => rfl⟩

/-- What visiting a message may do: the slot it found becomes another one, and
updates of different entries are computed on the states there are. -/
structure Visited (A : Aggregate n σ τ) (only : Option (Fin n → List String)) (memory : Memory n σ)
    (visit : Visit τ) (slot after : Emitted n) (updates : List (Update n σ)) : Prop where
  nodup : (updates.map fun u => u.owner.1).Nodup
  computed : ∀ u ∈ updates, A.Computed visit.message visit.now memory only u
  emitted : ∀ u ∈ updates, ∃ emitted : Outputs n, after = .ok emitted ∧ (emitted u.owner.1).isSome
  kept : ∀ emitted : Outputs n, after = .ok emitted → ∃ before : Outputs n, slot = .ok before ∧
    (∀ i, (before i).isSome → (emitted i).isSome) ∧
    ∀ i, (emitted i).isSome → (before i).isSome ∨ A.readOnly = true ∨ ∃ u ∈ updates, u.owner.1 = i
  readOnly : A.readOnly = true → updates = []

theorem visited_unchanged (A : Aggregate n σ τ) (only : Option (Fin n → List String))
    (memory : Memory n σ) (visit : Visit τ) (slot : Emitted n) :
    A.Visited only memory visit slot slot [] :=
  ⟨nodup_nil, by simp, by simp, fun emitted hSlot =>
    ⟨emitted, hSlot, fun _ h => h, fun _ h => .inl h⟩, fun _ => rfl⟩

theorem visited_failed (A : Aggregate n σ τ) (only : Option (Fin n → List String))
    (memory : Memory n σ) (visit : Visit τ) (slot : Emitted n) (error : String) :
    A.Visited only memory visit slot (.error error) [] :=
  ⟨nodup_nil, by simp, by simp, (fun emitted hSlot => by cases hSlot), fun _ => rfl⟩

/-- Every way a round goes through a message. -/
theorem foldMessage_visited (only : Option (Fin n → List String)) (p : Progress n σ τ)
    (visit : Visit τ) (slot : Emitted n) :
    ∃ updates after, A.foldMessage only p visit slot = p.apply visit updates after ∧
      A.Visited only p.states visit slot after updates := by
  cases slot with
  | error error => exact ⟨[], _, rfl, visited_unchanged A only p.states visit _⟩
  | ok before =>
    simp only [foldMessage]
    by_cases hAffected : A.affected only visit.message = true
    · rw [if_pos hAffected]
      cases hCompute : A.compute visit.message visit.now p.states only with
      | error error => exact ⟨[], _, rfl, visited_failed A only p.states visit _ error⟩
      | ok updates =>
        obtain ⟨hNodup, hComputed⟩ := compute_spec hCompute
        simp only
        cases A.payload visit.message (emit before updates) with
        | error error => exact ⟨[], _, rfl, visited_failed A only p.states visit _ error⟩
        | ok written =>
          split_ifs with hReadOnly
          · refine ⟨[], _, rfl, nodup_nil, by simp, by simp, fun emitted hAfter => ?_, fun _ => rfl⟩
            cases hAfter
            exact ⟨before, rfl, fun i hBefore => isSome_emit.mpr (.inl hBefore), fun i _ =>
              .inr (.inl hReadOnly)⟩
          · refine ⟨updates, _, rfl, hNodup, hComputed, fun u hMem =>
              ⟨_, rfl, isSome_emit.mpr (.inr ⟨u, hMem, rfl⟩)⟩,
              fun emitted hAfter => ?_, fun h => absurd h hReadOnly⟩
            cases hAfter
            exact ⟨before, rfl, fun i hBefore => isSome_emit.mpr (.inl hBefore),
              fun i hSome => (isSome_emit.mp hSome).imp_right .inr⟩
    · rw [if_neg hAffected]
      exact ⟨[], _, rfl, visited_unchanged A only p.states visit _⟩

variable {only : Option (Fin n → List String)} {start : Memory n σ}
  {done : List (Visit τ × Emitted n)} {p : Progress n σ τ}

theorem mem_trace_apply {visit v : Visit τ} {after : Emitted n} {owner : Owner n} :
    (owner, v) ∈ (p.apply visit updates after).trace ↔
      (owner, v) ∈ p.trace ∨ v = visit ∧ ∃ u ∈ updates, u.owner = owner := by
  rw [Progress.apply, mem_append, mem_map]
  refine or_congr_right ⟨?_, ?_⟩
  · rintro ⟨u, hMem, hEq⟩
    obtain ⟨rfl, rfl⟩ := Prod.mk.inj hEq
    exact ⟨rfl, u, hMem, rfl⟩
  · rintro ⟨rfl, u, hMem, rfl⟩
    exact ⟨u, hMem, rfl⟩

/-- One more visit. Visits come in the order of the batch. -/
theorem Rounded.visit (h : A.Rounded only start done p) {visit : Visit τ} {slot after : Emitted n}
    (hVisited : A.Visited only p.states visit slot after updates)
    (hLast : ∀ v ∈ done, v.1.index < visit.index) :
    A.Rounded only start (done ++ [(visit, slot)]) (p.apply visit updates after) := by
  have hBound : ∀ owner v, (owner, v) ∈ p.trace → v.index < visit.index := fun owner v hMem => by
    obtain ⟨⟨index, s, -, hDone, -⟩, -⟩ := h.traced owner v hMem
    exact hLast _ (mem_of_getElem? hDone)
  have hOld : ∀ index (x : Visit τ × Emitted n), done[index]? = some x →
      (done ++ [(visit, slot)])[index]? = some x := fun index x hDone => by
    rw [getElem?_append_left (getElem?_eq_some_iff.mp hDone).1, hDone]
  have hOldSlot : ∀ index (x : Emitted n), p.slots[index]? = some x →
      (p.apply visit updates after).slots[index]? = some x := fun index x hSlot => by
    rw [Progress.apply, getElem?_append_left (getElem?_eq_some_iff.mp hSlot).1, hSlot]
  have hNewSlot : (p.apply visit updates after).slots[done.length]? = some after := by
    rw [Progress.apply, ← h.length, getElem?_concat_length]
  refine ⟨fun owner => ?_, fun owner => ?_, nodup_touched h.distinct, ?_, fun owner v hMem => ?_,
    fun index emitted hSlot => ?_, fun owner => ?_, fun hReadOnly => ?_⟩
  · have hFolds := h.folds owner
    simp only [Progress.apply, visitsOf_append]
    rcases updates_decide hVisited.nodup owner visit
      with ⟨hGet, hVisits⟩ | ⟨u, hMem, rfl, hGet, hVisits⟩
    · rw [hGet, hVisits, append_nil]
      exact hFolds
    · rw [hGet, hVisits]
      exact .snoc hFolds (hVisited.computed u hMem).next
  · have hApply : owner.2 ∈ (p.apply visit updates after).touched owner.1 ↔
        owner.2 ∈ p.touched owner.1 ∨ ∃ u ∈ updates, u.owner = owner := mem_touched
    rw [hApply, h.touched]
    constructor
    · rintro (⟨v, hMem⟩ | hTouched)
      · exact ⟨v, mem_append_left _ hMem⟩
      · exact ⟨visit, mem_trace_apply.mpr (.inr ⟨rfl, hTouched⟩)⟩
    · rintro ⟨v, hMem⟩
      exact (mem_trace_apply.mp hMem).imp (fun hOld => ⟨v, hOld⟩) And.right
  · simp only [Progress.apply, length_append, length_singleton, h.length]
  · rcases mem_trace_apply.mp hMem with hEarlier | ⟨rfl, u, hUpdate, rfl⟩
    · obtain ⟨⟨index, s, emitted, hDone, hSlot, hSome⟩, hKey⟩ := h.traced owner v hEarlier
      exact ⟨⟨index, s, emitted, hOld _ _ hDone, hOldSlot _ _ hSlot, hSome⟩, hKey⟩
    · obtain ⟨emitted, rfl, hSome⟩ := hVisited.emitted u hUpdate
      have hComputed := hVisited.computed u hUpdate
      exact ⟨⟨done.length, slot, emitted, getElem?_concat_length, hNewSlot, hSome⟩,
        hComputed.key, hComputed.short, hComputed.wanted⟩
  · rcases lt_or_ge index done.length with hIdx | hIdx
    · have hBefore : p.slots[index]? = some (.ok emitted) := by
        rwa [Progress.apply, getElem?_append_left (h.length ▸ hIdx)] at hSlot
      obtain ⟨v, before, hDone, hMono, hKept⟩ := h.kept index emitted hBefore
      refine ⟨v, before, hOld _ _ hDone, hMono, fun i hSome => ?_⟩
      refine (hKept i hSome).imp_right (.imp_right ?_)
      rintro ⟨key, hMem⟩
      exact ⟨key, mem_append_left _ hMem⟩
    · have hLen : index < done.length + 1 := by
        have hLt := (List.getElem?_eq_some_iff.mp hSlot).1
        rwa [Progress.apply, length_append, h.length] at hLt
      obtain rfl : index = done.length := by omega
      cases hNewSlot.symm.trans hSlot
      obtain ⟨before, hFound, hMono, hKept⟩ := hVisited.kept emitted rfl
      refine ⟨visit, before, by rw [getElem?_concat_length, hFound], hMono, fun i hSome => ?_⟩
      refine (hKept i hSome).imp_right (.imp_right ?_)
      rintro ⟨u, hMem, rfl⟩
      exact ⟨u.owner.2, mem_trace_apply.mpr (.inr ⟨rfl, u, hMem, rfl⟩)⟩
  · rw [Progress.apply, visitsOf_append]
    refine pairwise_append.mpr ⟨h.once owner, ?_, fun a ha b hb => ?_⟩
    · rcases updates_decide hVisited.nodup owner visit with ⟨-, hVisits⟩ | ⟨u, -, -, -, hVisits⟩
      · simp [hVisits]
      · simp [hVisits]
    · obtain ⟨u, -, hEq⟩ := mem_map.mp (mem_visitsOf.mp hb)
      rw [← (Prod.mk.inj hEq).2]
      exact hBound owner a (mem_visitsOf.mp ha)
  · rw [Progress.apply, h.readOnly hReadOnly, hVisited.readOnly hReadOnly]
    rfl

/-- A whole round, over visits in the order of the batch. -/
theorem Rounded.foldRound {visits : List (Visit τ × Emitted n)} (h : A.Rounded only start done p)
    (hOrder : (done ++ visits).Pairwise fun a b => a.1.index < b.1.index) :
    A.Rounded only start (done ++ visits) (A.foldRound only p visits) := by
  induction visits generalizing done p with
  | nil =>
    rw [append_nil]
    exact h
  | cons visit rest ih =>
    obtain ⟨updates, after, hMsg, hVisited⟩ := foldMessage_visited only p visit.1 visit.2
    rw [append_cons] at hOrder ⊢
    rw [foldRound, foldl_cons, hMsg]
    refine ih (h.visit hVisited fun v hMem => ?_) hOrder
    have hFirst := (pairwise_append.mp hOrder).1
    exact (pairwise_append.mp hFirst).2.2 v hMem visit (mem_singleton_self _)

end MqBridge.Aggregate
