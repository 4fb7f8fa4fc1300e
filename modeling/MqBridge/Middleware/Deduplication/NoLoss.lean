import MqBridge.Collections.Places
import MqBridge.Middleware.Deduplication.Memory

/-! Deduplication loses no key. A copy is acknowledged because the route
committed it, because its key was marked, which only the commit of a delivery
does, or because it repeats the key of a copy that is in the same batch; and
then that copy goes back to its source unless the route committed it. -/
namespace MqBridge.Deduplication

open List Places Machine

variable {κ : Type} {key : Nat → κ}

/-- The route committed a delivery of the key with Ack or Reply. -/
def Committed (key : Nat → κ) (commits : List (Nat × MessageDisposition)) (k : κ) : Prop :=
  ∃ entry ∈ commits, key entry.1 = k ∧ entry.2 ≠ .nack

variable {commits more : List (Nat × MessageDisposition)}

theorem Committed.mono {k : κ} (h : Committed key commits k) :
    Committed key (commits ++ more) k := by
  obtain ⟨entry, hMem, hEntry⟩ := h
  exact ⟨entry, mem_append_left _ hMem, hEntry⟩

variable {slot : Slot}

theorem marked_duplicateDisposition {store : DedupStore κ} {replay : Replay} {now : Nat}
    {s : store.State}
    {k : κ} (h : store.Marked (duplicateDisposition store key replay slot now s).2 k) :
    store.Marked s k := by
  rw [duplicateDisposition] at h
  split_ifs at h
  · simp only at h
    split at h <;> exact store.marked_storedResponse h
  · exact h

variable [DecidableEq κ]

section Unique

theorem length_firstOfFrom (seen : List (κ × Nat)) (slot : Nat) (messages : List Nat) :
    (firstOfFrom key seen slot messages).length = messages.length := by
  induction messages generalizing seen slot with
  | nil => rfl
  | cons copy rest ih =>
    rw [firstOfFrom]
    split <;> rw [length_cons, ih, length_cons]

theorem mem_unique {messages : List Nat} (h : slot ∈ unique key messages) :
    messages[slot.index]? = some slot.copy ∧ (firstOf key messages)[slot.index]? = some none := by
  obtain ⟨entry, hMem, hSlot⟩ := mem_filterMap.mp h
  split_ifs at hSlot with hNone
  obtain ⟨place, hPlace⟩ := mem_iff_getElem?.mp hMem
  obtain ⟨hCopy, hFirst⟩ := getElem?_zip_eq_some.mp hPlace
  rw [getElem?_zipIdx, Option.map_eq_some_iff] at hCopy
  obtain ⟨copy, hCopy, hEntry⟩ := hCopy
  cases hSlot
  rw [← hEntry, zero_add]
  exact ⟨hCopy, by rw [hFirst, Option.isNone_iff_eq_none.mp hNone]⟩

theorem nodup_unique (messages : List Nat) : ((unique key messages).map Slot.index).Nodup := by
  have hIdx : (unique key messages).map Slot.index =
      ((messages.zipIdx.zip (firstOf key messages)).filter fun entry => entry.2.isNone).map
        fun entry => entry.1.2 := by
    rw [unique, map_filterMap, ← filterMap_eq_map, filterMap_filter]
    refine filterMap_congr fun entry _ => ?_
    split_ifs <;> rfl
  have hAll : (messages.zipIdx.zip (firstOf key messages)).map (fun entry => entry.1.2) =
      range' 0 messages.length := by
    have hFst : (messages.zipIdx.zip (firstOf key messages)).map Prod.fst = messages.zipIdx :=
      map_fst_zip (by rw [length_zipIdx, firstOf, length_firstOfFrom])
    rw [← zipIdx_map_snd, ← hFst, map_map, hFst]
    rfl
  rw [hIdx]
  refine .sublist (filter_sublist.map _) ?_
  rw [hAll]
  exact nodup_range'

/-- Every key of the batch is reserved for one of its copies. -/
theorem exists_unique_slot {messages : List Nat} {copy : Nat} (hMem : copy ∈ messages) :
    ∃ slot ∈ unique key messages, key slot.copy = key copy := by
  suffices hFrom : ∀ (messages : List Nat) (seen : List (κ × Nat)) (first : Nat),
      copy ∈ messages → (∃ slot, seen.lookup (key copy) = some slot) ∨
        ∃ slot ∈ ((messages.zipIdx first).zip (firstOfFrom key seen first messages)).filterMap
          (fun entry => if entry.2.isNone then some (Slot.mk entry.1.2 entry.1.1) else none),
          key slot.copy = key copy by
    exact (hFrom messages [] 0 hMem).resolve_left fun ⟨slot, hSlot⟩ => by cases hSlot
  intro messages
  induction messages with
  | nil => exact nofun
  | cons head rest ih =>
    intro seen first hMem
    rw [firstOfFrom, zipIdx_cons]
    cases hSeen : seen.lookup (key head) with
    | some slot =>
      rcases mem_cons.mp hMem with rfl | hMem
      · exact .inl ⟨slot, hSeen⟩
      · exact ih seen (first + 1) hMem
    | none =>
      simp only [zip_cons_cons, filterMap_cons, Option.isNone_none, if_true, mem_cons,
        exists_eq_or_imp]
      rcases mem_cons.mp hMem with rfl | hMem
      · exact .inr (.inl rfl)
      · rcases ih ((key head, first) :: seen) (first + 1) hMem with ⟨slot, hSlot⟩ | hLater
        · rw [lookup_cons] at hSlot
          by_cases hSame : key head = key copy
          · exact .inr (.inl hSame)
          · have hNe : (key copy == key head) = false := beq_eq_false_iff_ne.mpr (symm hSame)
            rw [hNe] at hSlot
            exact .inl ⟨slot, hSlot⟩
        · exact .inr (.inr hLater)

end Unique

section Dispositions

/-- A first copy keeps its own disposition. -/
theorem getElem_copyReplies {dispositions : Dispositions} {firsts : List (Option Nat)} {index : Nat}
    (hFirst : firsts[index]? = some none) :
    (copyRepliesToRepeats dispositions firsts)[index]? = dispositions[index]? := by
  have hOthers : ∀ entry ∈ firsts.zipIdx, entry.2 = index → entry.1 = none := by
    rintro ⟨first, slot⟩ hMem rfl
    have hAt := mem_zipIdx_iff_getElem?.mp hMem
    rw [hFirst] at hAt
    exact (Option.some.inj hAt).symm
  rw [copyRepliesToRepeats]
  generalize firsts.zipIdx = entries at hOthers
  induction entries generalizing dispositions with
  | nil => rfl
  | cons entry rest ih =>
    rw [foldl_cons, ih fun other hMem => hOthers other (mem_cons_of_mem _ hMem)]
    split
    next first hSome =>
      split
      next reply _ =>
        refine getElem?_set_ne fun hSame => ?_
        rw [hOthers entry (mem_cons_self ..) hSame] at hSome
        cases hSome
      next => rfl
    next => rfl

theorem length_copyReplies (dispositions : Dispositions) (firsts : List (Option Nat)) :
    (copyRepliesToRepeats dispositions firsts).length = dispositions.length := by
  rw [copyRepliesToRepeats]
  generalize firsts.zipIdx = entries
  induction entries generalizing dispositions with
  | nil => rfl
  | cons entry rest ih =>
    rw [foldl_cons, ih]
    split
    · split
      · exact length_set
      · rfl
    · rfl

variable {given : List (Slot × MessageDisposition)} {full : Dispositions}

theorem getElem_foldl_set_of_ne {index : Nat} (hNe : ∀ entry ∈ given, entry.1.index ≠ index) :
    (given.foldl (fun full entry => full.set entry.1.index entry.2) full)[index]? =
      full[index]? := by
  induction given generalizing full with
  | nil => rfl
  | cons entry rest ih =>
    rw [foldl_cons, ih fun other hMem => hNe other (mem_cons_of_mem _ hMem)]
    exact getElem?_set_ne (hNe entry (mem_cons_self ..))

/-- Setting dispositions at different places leaves each of them. -/
theorem getElem_foldl_set (hNodup : (given.map fun entry => entry.1.index).Nodup)
    {disposition : MessageDisposition} (hMem : (slot, disposition) ∈ given)
    (hIdx : slot.index < full.length) :
    (given.foldl (fun full entry => full.set entry.1.index entry.2) full)[slot.index]? =
      some disposition := by
  induction given generalizing full with
  | nil => exact absurd hMem not_mem_nil
  | cons entry rest ih =>
    obtain ⟨hFresh, hRest⟩ := nodup_cons.mp hNodup
    rw [foldl_cons]
    rcases mem_cons.mp hMem with rfl | hMem
    · rw [getElem_foldl_set_of_ne fun other hOther hSame =>
        hFresh (mem_map.mpr ⟨other, hOther, hSame⟩), getElem?_set_self hIdx]
    · exact ih hRest hMem (by rwa [length_set])

end Dispositions

/-- For every key of the batch, the route has committed it or the copy that
was reserved goes back to its source. -/
def Covered (key : Nat → κ) (commits : List (Nat × MessageDisposition)) (messages : List Nat)
    (full : Dispositions) : Prop :=
  ∀ slot ∈ unique key messages,
    Committed key commits (key slot.copy) ∨ full[slot.index]? = some .nack

/-- What a batch knows in each of its phases. -/
def Batch.Sound (key : Nat → κ) (commits : List (Nat × MessageDisposition)) (batch : Batch) :
    Prop :=
  match batch.phase with
  | .reserving done todo => done.map Prod.fst ++ todo = unique key batch.messages ∧
      ∀ entry ∈ done, entry.2 = .processed → Committed key commits (key entry.1.copy)
  | .sorting todo kept settled => settled.length = batch.messages.length ∧
      (kept ++ todo.map Prod.fst).Sublist (unique key batch.messages) ∧
      (∀ entry ∈ todo, entry.2 = .processed → Committed key commits (key entry.1.copy)) ∧
      ∀ slot ∈ unique key batch.messages, slot ∈ kept ++ todo.map Prod.fst ∨
        Committed key commits (key slot.copy)
  | .handedOut kept settled => settled.length = batch.messages.length ∧
      kept.Sublist (unique key batch.messages) ∧
      ∀ slot ∈ unique key batch.messages, slot ∈ kept ∨ Committed key commits (key slot.copy)
  | .storing acked replied _ full => Covered key commits batch.messages full ∧
      (∀ slot ∈ acked, Committed key commits (key slot.copy)) ∧
      ∀ entry ∈ replied, Committed key commits (key entry.1.copy)
  | .committing full => Covered key commits batch.messages full
  | .releasing _ | .closed => True

theorem Covered.mono {messages : List Nat} {full : Dispositions}
    (h : Covered key commits messages full) : Covered key (commits ++ more) messages full :=
  fun slot hMem => (h slot hMem).imp_left Committed.mono

theorem Batch.Sound.mono {batch : Batch}
    (h : batch.Sound key commits) : batch.Sound key (commits ++ more) := by
  rw [Batch.Sound] at h ⊢
  split at h
  · exact ⟨h.1, fun entry hMem hState => (h.2 entry hMem hState).mono⟩
  · exact ⟨h.1, h.2.1, fun entry hMem hState => (h.2.2.1 entry hMem hState).mono,
      fun slot hMem => (h.2.2.2 slot hMem).imp_right .mono⟩
  · exact ⟨h.1, h.2.1, fun slot hMem => (h.2.2 slot hMem).imp_right .mono⟩
  · exact ⟨h.1.mono, fun slot hMem => (h.2.1 slot hMem).mono, fun entry hMem =>
      (h.2.2 entry hMem).mono⟩
  · exact h.mono
  · trivial
  · trivial

section Advance

variable {store : DedupStore κ} {commits : List (Nat × MessageDisposition)} {batch : Batch}

/-- The dispositions of the route are in the full ones, each at its slot. -/
theorem fullDispositions_covered {kept : List Slot} {settled dispositions : Dispositions}
    (hLen : settled.length = batch.messages.length)
    (hKept : kept.Sublist (unique key batch.messages))
    (hRest : ∀ slot ∈ unique key batch.messages, slot ∈ kept ∨
      Committed key commits (key slot.copy)) (hGiven : dispositions.length = kept.length) :
    Covered key (commits ++ (kept.zip dispositions).map fun entry => (entry.1.copy, entry.2))
      batch.messages (fullDispositions key batch kept settled dispositions) := by
  intro slot hSlot
  rcases hRest slot hSlot with hMem | hDone
  · obtain ⟨hCopy, hFirst⟩ := mem_unique hSlot
    obtain ⟨place, hPlace⟩ := mem_iff_getElem?.mp hMem
    have hLt : place < dispositions.length := by
      rw [hGiven]
      exact (List.getElem?_eq_some_iff.mp hPlace).1
    have hEntry : (slot, dispositions[place]) ∈ kept.zip dispositions :=
      mem_of_getElem? (getElem?_zip_eq_some.mpr ⟨hPlace, getElem?_eq_getElem hLt⟩)
    have hNodup : ((kept.zip dispositions).map fun entry => entry.1.index).Nodup := by
      have hSlots : (kept.zip dispositions).map Prod.fst = kept := map_fst_zip hGiven.ge
      have hMap :
          ((kept.zip dispositions).map fun entry => entry.1.index) = kept.map Slot.index := by
        rw [← hSlots, map_map, hSlots]
        rfl
      rw [hMap]
      exact (nodup_unique batch.messages).sublist (hKept.map Slot.index)
    have hIdx : slot.index < settled.length := by
      rw [hLen]
      exact (List.getElem?_eq_some_iff.mp hCopy).1
    by_cases hNack : dispositions[place] = .nack
    · refine .inr ?_
      rw [fullDispositions]
      split_ifs
      · rw [getElem_copyReplies hFirst, getElem_foldl_set hNodup hEntry hIdx, hNack]
      · rw [getElem_foldl_set hNodup hEntry hIdx, hNack]
    · exact .inl ⟨_, mem_append_right _ (mem_map.mpr ⟨_, hEntry, rfl⟩), rfl, hNack⟩
  · exact .inl hDone.mono

/-- What one move of a batch keeps and adds. -/
structure Advanced (key : Nat → κ) (commits : List (Nat × MessageDisposition)) (batch : Batch)
    (effect : Effect store) : Prop where
  wasOpen : batch.phase.isOpen = true
  sound : ({ batch with phase := effect.phase } : Batch).Sound key (commits ++ effect.commits)
  marked : ∀ k, store.Marked effect.state k → Committed key (commits ++ effect.commits) k
  closes : effect.acked = [] ∨ effect.phase = .closed
  acked : ∀ copy ∈ effect.acked, copy ∈ batch.messages ∧
    (Committed key (commits ++ effect.commits) (key copy) ∨
      ∃ other ∈ batch.messages, key other = key copy ∧ other ∉ effect.acked)

variable {s : store.State}

/-- A move that neither commits nor acknowledges anything. -/
theorem Advanced.quiet {phase : Phase} (hOpen : batch.phase.isOpen = true)
    (hSound : ({ batch with phase := phase } : Batch).Sound key commits)
    (hMarked : ∀ k, store.Marked s k → Committed key commits k) :
    Advanced key commits batch ({ phase := phase, state := s } : Effect store) := by
  refine ⟨hOpen, ?_, fun k hk => ?_, .inl rfl, nofun⟩
  · rw [append_nil]
    exact hSound
  · rw [append_nil]
    exact hMarked k hk

theorem Advanced.innerCommit {full : Dispositions} (applied : Nat → Bool)
    (hNodup : batch.messages.Nodup) (hPhase : batch.phase = .committing full)
    (hCovered : Covered key commits batch.messages full)
    (hMarked : ∀ k, store.Marked s k → Committed key commits k) : Advanced key commits batch ({
      phase := .closed
      state := s
      acked := ((batch.messages.zip full).zipIdx.filter fun entry =>
        entry.1.2 ≠ .nack && applied entry.2).map fun entry => entry.1.1 } : Effect store) := by
  -- an acknowledged copy is at a slot whose disposition is not a Nack
  have hSlot : ∀ {copy : Nat}, copy ∈ ((batch.messages.zip full).zipIdx.filter fun entry =>
      entry.1.2 ≠ .nack && applied entry.2).map (fun entry => entry.1.1) →
      ∃ index : Nat, batch.messages[index]? = some copy ∧ full[index]? ≠ some .nack := by
    intro copy hMem
    obtain ⟨⟨⟨other, disposition⟩, index⟩, hEntry, rfl⟩ := mem_map.mp hMem
    obtain ⟨hAt, hKept⟩ := mem_filter.mp hEntry
    obtain ⟨hCopy, hFull⟩ := getElem?_zip_eq_some.mp (mem_zipIdx_iff_getElem?.mp hAt)
    refine ⟨index, hCopy, fun hNack => ?_⟩
    rw [hFull] at hNack
    cases hNack
    simp at hKept
  refine ⟨by rw [hPhase]; rfl, trivial, fun k hk => (hMarked k hk).mono, .inr rfl, fun copy hMem =>
    ?_⟩
  obtain ⟨index, hCopy, -⟩ := hSlot hMem
  refine ⟨mem_of_getElem? hCopy, ?_⟩
  obtain ⟨slot, hUnique, hKey⟩ := @exists_unique_slot _ key _ _ _ (mem_of_getElem? hCopy)
  obtain ⟨hFirst, -⟩ := mem_unique hUnique
  rcases hCovered slot hUnique with hDone | hNack
  · rw [← hKey]
    exact .inl hDone.mono
  · refine .inr ⟨slot.copy, mem_of_getElem? hFirst, hKey, fun hAcked => ?_⟩
    obtain ⟨other, hOther, hNot⟩ := hSlot hAcked
    have hLt := (List.getElem?_eq_some_iff.mp hOther).1
    rw [(getElem?_inj hLt hNodup).mp (hOther.trans hFirst.symm)] at hNot
    exact hNot hNack

variable {done : List (Slot × Reservation)}

/-- A batch that is handed back as a whole. -/
theorem handedBack_covered (messages : List Nat) :
    Covered key commits messages (List.replicate messages.length .nack) := by
  intro slot hMem
  obtain ⟨hCopy, -⟩ := mem_unique hMem
  rw [getElem?_replicate, if_pos (List.getElem?_eq_some_iff.mp hCopy).1]
  exact .inr rfl

/-- All slots have their answers. -/
theorem sorting_sound (hSlots : done.map Prod.fst = unique key batch.messages)
    (hProcessed : ∀ entry ∈ done, entry.2 = .processed → Committed key commits (key entry.1.copy)) :
    ({ batch with phase := .sorting done [] (List.replicate batch.messages.length .ack) } :
      Batch).Sound key commits := by
  refine ⟨length_replicate, ?_, hProcessed, fun slot hMem => .inl ?_⟩
  · rw [nil_append, hSlots]
  · rw [hSlots]
    exact hMem

section Sorting

variable {slot : Slot} {reservation : Reservation} {todo : List (Slot × Reservation)}
  {kept : List Slot} {settled : Dispositions}

theorem duplicate_sound (disposition : MessageDisposition)
    (hSound : ({ batch with phase := .sorting ((slot, .processed) :: todo) kept settled } :
      Batch).Sound key commits) :
    ({ batch with phase := .sorting todo kept (settled.set slot.index disposition) } : Batch).Sound
      key commits := by
  obtain ⟨hLen, hSlots, hProcessed, hRest⟩ := hSound
  have hDone := hProcessed (slot, .processed) (mem_cons_self ..) rfl
  refine ⟨length_set.trans hLen, ((sublist_cons_self slot _).append_left kept).trans hSlots,
    fun entry hMem => hProcessed entry (mem_cons_of_mem _ hMem), fun other hMem => ?_⟩
  rcases hRest other hMem with hIn | hOther
  · rcases mem_append.mp hIn with hKept | hTodo
    · exact .inl (mem_append_left _ hKept)
    · rcases mem_cons.mp hTodo with rfl | hLater
      · exact .inr hDone
      · exact .inl (mem_append_right _ hLater)
  · exact .inr hOther

theorem kept_sound
    (hSound : ({ batch with phase := .sorting ((slot, reservation) :: todo) kept settled } :
      Batch).Sound key commits) :
    ({ batch with phase := .sorting todo (kept ++ [slot]) settled } : Batch).Sound key commits := by
  obtain ⟨hLen, hSlots, hProcessed, hRest⟩ := hSound
  have hMove : (kept ++ [slot]) ++ todo.map Prod.fst =
      kept ++ ((slot, reservation) :: todo).map Prod.fst := append_assoc ..
  refine ⟨hLen, hMove ▸ hSlots, fun entry hMem => hProcessed entry (mem_cons_of_mem _ hMem), ?_⟩
  rw [hMove]
  exact hRest

end Sorting

/-- The route commits what it was handed. -/
theorem Advanced.commit {kept : List Slot} {settled dispositions : Dispositions}
    (hPhase : batch.phase = .handedOut kept settled) (hSound : batch.Sound key commits)
    (hMarked : ∀ k, store.Marked s k → Committed key commits k)
    (hGiven : dispositions.length = kept.length) : Advanced key commits batch ({
      phase := .storing (((kept.zip dispositions).filter fun entry =>
          (storedReply batch.replay entry.2).isNone && entry.2 ≠ .nack).map Prod.fst)
        ((kept.zip dispositions).filterMap fun entry =>
          (storedReply batch.replay entry.2).map fun reply => (entry.1, reply))
        (((kept.zip dispositions).filter fun entry => entry.2 = .nack).map Prod.fst)
        (fullDispositions key batch kept settled dispositions)
      state := s
      commits := (kept.zip dispositions).map fun entry => (entry.1.copy, entry.2) } :
        Effect store) := by
  rw [Batch.Sound, hPhase] at hSound
  obtain ⟨hLen, hSlots, hRest⟩ := hSound
  have hCommitted : ∀ entry ∈ kept.zip dispositions, entry.2 ≠ .nack →
      Committed key (commits ++ (kept.zip dispositions).map fun entry => (entry.1.copy, entry.2))
        (key entry.1.copy) := fun entry hMem hNack =>
    ⟨_, mem_append_right _ (mem_map.mpr ⟨entry, hMem, rfl⟩), rfl, hNack⟩
  refine ⟨by rw [hPhase]; rfl, ⟨fullDispositions_covered hLen hSlots hRest hGiven,
    fun slot hMem => ?_, fun entry hMem => ?_⟩, fun k hk => (hMarked k hk).mono, .inl rfl,
    nofun⟩
  · obtain ⟨entry, hEntry, rfl⟩ := mem_map.mp hMem
    obtain ⟨hIn, hAck⟩ := mem_filter.mp hEntry
    simp only [Bool.and_eq_true, decide_eq_true_eq] at hAck
    exact hCommitted entry hIn hAck.2
  · obtain ⟨given, hIn, hReply⟩ := mem_filterMap.mp hMem
    obtain ⟨reply, hStored, rfl⟩ := Option.map_eq_some_iff.mp hReply
    refine hCommitted given hIn fun hNack => ?_
    rw [hNack] at hStored
    cases hStored

section Moves

variable {messages : List Nat} {replay : Replay} {effect : Effect store} {now : Nat}
  (hMarked : ∀ k, store.Marked s k → Committed key commits k)

include hMarked

/-- A slot is reserved, or the store fails and the batch is handed back. -/
theorem Advanced.reserve {slot : Slot} {todo : List Slot}
    (hSound : Batch.Sound key commits ⟨messages, replay, .reserving done (slot :: todo)⟩)
    (hAdv : Batch.advance store key ⟨messages, replay, .reserving done (slot :: todo)⟩ s
      (.reserve now) = some effect) :
    Advanced key commits ⟨messages, replay, .reserving done (slot :: todo)⟩ effect := by
  simp only [Batch.advance] at hAdv
  split at hAdv
  next reservation t hReserve =>
    cases hAdv
    refine .quiet rfl ⟨?_, forall_mem_snoc hSound.2 ?_⟩ fun k hk => ?_
    · rw [map_append, append_assoc]
      exact hSound.1
    · rintro rfl
      exact hMarked _ (store.reserve_processed (congrArg Prod.fst hReserve))
    · exact hMarked k (store.marked_reserve (by rw [hReserve]; exact hk))
  next error t hReserve =>
    cases hAdv
    refine .quiet rfl (handedBack_covered _) fun k hk => ?_
    exact hMarked k (store.marked_reserve (by rw [hReserve]; exact hk))

/-- The slots are sorted, or released to wait for the keys in flight. -/
theorem Advanced.settle {expired : Bool}
    (hSound : Batch.Sound key commits ⟨messages, replay, .reserving done []⟩)
    (hAdv : Batch.advance store key ⟨messages, replay, .reserving done []⟩ s (.settle expired) =
      some effect) :
    Advanced key commits ⟨messages, replay, .reserving done []⟩ effect := by
  obtain ⟨hSlots, hProcessed⟩ := hSound
  rw [append_nil] at hSlots
  simp only [Batch.advance] at hAdv
  split_ifs at hAdv with hSettled hExpired
  · cases hAdv
    exact .quiet rfl (sorting_sound hSlots hProcessed) hMarked
  · cases hAdv
    refine .quiet rfl (sorting_sound ?_ fun entry hMem hState => ?_) hMarked
    · rw [map_map, ← hSlots]
      rfl
    · obtain ⟨other, hOther, rfl⟩ := mem_map.mp hMem
      refine hProcessed other hOther ?_
      rw [takeAnyway] at hState
      split_ifs at hState with hInFlight
      exact hState
  · cases hAdv
    exact .quiet rfl trivial hMarked

/-- What was kept is handed out; with nothing kept, the batch is committed. -/
theorem Advanced.deliver {kept : List Slot} {settled : Dispositions}
    (hSound : Batch.Sound key commits ⟨messages, replay, .sorting [] kept settled⟩)
    (hAdv : Batch.advance store key ⟨messages, replay, .sorting [] kept settled⟩ s .deliver =
      some effect) : Advanced key commits ⟨messages, replay, .sorting [] kept settled⟩ effect := by
  obtain ⟨hLen, hSlots, -, hRest⟩ := hSound
  rw [map_nil, append_nil] at hSlots hRest
  simp only [Batch.advance] at hAdv
  by_cases hNone : kept.isEmpty = true
  · rw [if_pos hNone] at hAdv
    cases hAdv
    refine .quiet rfl (fun slot hMem => .inl ?_) hMarked
    refine (hRest slot hMem).resolve_left fun hKept => ?_
    rw [isEmpty_iff.mp hNone] at hKept
    exact not_mem_nil hKept
  · rw [if_neg hNone] at hAdv
    cases hAdv
    refine .quiet rfl ⟨?_, hSlots, hRest⟩ hMarked
    split_ifs
    · rw [length_copyReplies]
      exact hLen
    · exact hLen

end Moves

/-- Whatever a batch does next keeps what it knows; what it acknowledges was
committed by the route, or has a copy of its key in the batch that was not. -/
theorem advance_sound {move : Move} {effect : Effect store}
    (hNodup : batch.messages.Nodup) (hSound : batch.Sound key commits)
    (hMarked : ∀ k, store.Marked s k → Committed key commits k)
    (hAdv : batch.advance store key s move = some effect) :
    Advanced key commits batch effect := by
  obtain ⟨messages, replay, phase⟩ := batch
  simp only [Batch.advance] at hAdv
  split at hAdv
  next done slot todo now => exact .reserve hMarked hSound hAdv
  next done expired => exact .settle hMarked hSound hAdv
  next slot todo now =>
    cases hAdv
    exact .quiet rfl trivial fun k hk => hMarked k (store.marked_release hk)
  next =>
    cases hAdv
    exact .quiet rfl ⟨rfl, nofun⟩ hMarked
  next slot reservation todo kept settled now =>
    split_ifs at hAdv with hState
    · cases hAdv
      subst hState
      exact .quiet rfl (duplicate_sound _ hSound) fun k hk =>
        hMarked k (marked_duplicateDisposition hk)
    · cases hAdv
      exact .quiet rfl (kept_sound hSound) hMarked
  next kept settled => exact .deliver hMarked hSound hAdv
  next kept settled dispositions =>
    split_ifs at hAdv with hGiven
    cases hAdv
    exact .commit rfl hSound hMarked hGiven
  next slot acked replied failed full now =>
    cases hAdv
    obtain ⟨hCovered, hAcked, hReplied⟩ := hSound
    refine .quiet rfl
      ⟨hCovered, fun other hMem => hAcked other (mem_cons_of_mem _ hMem), hReplied⟩ fun k hk => ?_
    rcases store.marked_markProcessed hk with rfl | hOld
    · exact hAcked slot (mem_cons_self ..)
    · exact hMarked k hOld
  next slot reply replied failed full now =>
    cases hAdv
    obtain ⟨hCovered, hAcked, hReplied⟩ := hSound
    refine .quiet rfl
      ⟨hCovered, hAcked, fun other hMem => hReplied other (mem_cons_of_mem _ hMem)⟩ fun k hk => ?_
    rcases store.marked_withResponse hk with rfl | hOld
    · exact hReplied (slot, reply) (mem_cons_self ..)
    · exact hMarked k hOld
  next slot failed full now =>
    cases hAdv
    exact .quiet rfl hSound fun k hk => hMarked k (store.marked_release hk)
  next full now =>
    cases hAdv
    exact .quiet rfl hSound.1 hMarked
  next full applied =>
    cases hAdv
    exact .innerCommit applied hNodup rfl hSound hMarked
  next =>
    split_ifs at hAdv with hOpen
    cases hAdv
    exact .quiet hOpen trivial hMarked
  next => cases hAdv

end Advance

section Run

variable {store : DedupStore κ}

def State.Received (s : State store) (copy : Nat) : Prop :=
  ∃ batch ∈ s.batches, copy ∈ batch.messages

/-- Some copy of the key that was received is not acknowledged. -/
def State.Unacked (key : Nat → κ) (s : State store) (k : κ) : Prop :=
  ∃ copy, s.Received copy ∧ key copy = k ∧ copy ∉ s.acked

/-- The invariant of a run. -/
structure State.Sound (key : Nat → κ) (s : State store) : Prop where
  marked : ∀ k, store.Marked s.store k → Committed key s.commits k
  batches : ∀ batch ∈ s.batches, batch.Sound key s.commits
  nodup : ∀ batch ∈ s.batches, batch.messages.Nodup
  fresh : ∀ batch ∈ s.batches, batch.phase.isOpen = true → ∀ copy ∈ batch.messages, copy ∉ s.acked
  apart : ∀ (i j : Nat) (first second : Batch), i ≠ j → s.batches[i]? = some first →
    s.batches[j]? = some second → first.phase.isOpen = true → second.phase.isOpen = true →
    first.messages.Disjoint second.messages
  safe : ∀ copy, s.Received copy → Committed key s.commits (key copy) ∨ s.Unacked key (key copy)

variable {s : State store}

/-- Copies that arrive are with no other batch and not acknowledged. -/
theorem State.Sound.receive (h : s.Sound key) {replay : Replay} {messages : List Nat}
    (hNodup : messages.Nodup) (hAvailable : ∀ copy ∈ messages, s.Available copy) :
    State.Sound key { s with batches := s.batches ++ [Batch.start key replay messages] } := by
  have hApart : ∀ {i : Nat} {batch : Batch}, s.batches[i]? = some batch →
      batch.phase.isOpen = true → batch.messages.Disjoint messages :=
        fun hOld hOpen copy hIn hNew =>
    (hAvailable copy hNew).2 _ (mem_of_getElem? hOld) hOpen hIn
  refine ⟨h.marked, forall_mem_snoc h.batches ⟨rfl, nofun⟩, forall_mem_snoc h.nodup hNodup,
    forall_mem_snoc h.fresh fun _ copy hCopy => (hAvailable copy hCopy).1,
    fun i j first second hNe hFirst hSecond hOpen hOther => ?_, fun copy hCopy => ?_⟩
  · rcases getElem?_snoc_eq_some.mp hFirst with hOldFirst | ⟨rfl, rfl⟩
    · rcases getElem?_snoc_eq_some.mp hSecond with hOldSecond | ⟨-, rfl⟩
      · exact h.apart i j first second hNe hOldFirst hOldSecond hOpen hOther
      · exact hApart hOldFirst hOpen
    · rcases getElem?_snoc_eq_some.mp hSecond with hOldSecond | ⟨rfl, -⟩
      · exact (hApart hOldSecond hOther).symm
      · exact absurd rfl hNe
  · obtain ⟨batch, hMem, hIn⟩ := hCopy
    rcases mem_append.mp hMem with hOld | hNew
    · refine (h.safe copy ⟨batch, hOld, hIn⟩).imp_right ?_
      rintro ⟨other, ⟨owner, hOwner, hHas⟩, hKey, hNot⟩
      exact ⟨other, ⟨owner, mem_append_left _ hOwner, hHas⟩, hKey, hNot⟩
    · cases mem_singleton.mp hNew
      exact .inr ⟨copy, ⟨_, hMem, hIn⟩, rfl, (hAvailable copy hIn).1⟩

section Apply

variable {index : Nat} {batch : Batch} {effect : Effect store}

omit [DecidableEq κ] in
/-- A batch keeps its messages, so the same copies were received. -/
theorem received_apply (hBatch : s.batches[index]? = some batch) {copy : Nat} :
    (s.apply index batch effect).Received copy ↔ s.Received copy := by
  constructor
  · rintro ⟨other, hMem, hCopy⟩
    rcases mem_or_eq_of_mem_set hMem with hOld | rfl
    · exact ⟨other, hOld, hCopy⟩
    · exact ⟨batch, mem_of_getElem? hBatch, hCopy⟩
  · rintro ⟨other, hMem, hCopy⟩
    obtain ⟨i, hOther⟩ := mem_iff_getElem?.mp hMem
    have hAfter := fun after => @getElem?_set_eq_some _ _ index i after
      { batch with phase := effect.phase } _ hBatch
    rcases eq_or_ne i index with rfl | hNe
    · cases hBatch.symm.trans hOther
      exact ⟨_, mem_of_getElem? ((hAfter _).mpr (.inl ⟨rfl, rfl⟩)), hCopy⟩
    · exact ⟨other, mem_of_getElem? ((hAfter other).mpr (.inr ⟨hNe, hOther⟩)), hCopy⟩

theorem State.Sound.apply (h : s.Sound key) (hBatch : s.batches[index]? = some batch)
    (hAdvanced : Advanced key s.commits batch effect) :
    State.Sound key (s.apply index batch effect) := by
  have hMemBatch := mem_of_getElem? hBatch
  have hOpenBatch := hAdvanced.wasOpen
  have hFresh := h.fresh batch hMemBatch hOpenBatch
  refine ⟨hAdvanced.marked,
    forall_mem_set (fun other hMem => (h.batches other hMem).mono) hAdvanced.sound index,
    forall_mem_set h.nodup ?_ index, fun other hMem hOpen => ?_,
    fun i j first second hNe hFirst hSecond hOpen hOther => ?_, fun copy hCopy => ?_⟩
  · exact h.nodup batch hMemBatch
  · obtain ⟨i, hOther⟩ := mem_iff_getElem?.mp hMem
    intro copy hCopy hAcked
    rcases (getElem?_set_eq_some hBatch).mp hOther with ⟨-, rfl⟩ | ⟨hNe, hOld⟩
    · rcases hAdvanced.closes with hNone | hClosed
      · rw [State.apply, hNone, append_nil] at hAcked
        exact hFresh copy hCopy hAcked
      · rw [hClosed] at hOpen
        cases hOpen
    · rcases mem_append.mp hAcked with hBefore | hNew
      · exact h.fresh other (mem_of_getElem? hOld) hOpen copy hCopy hBefore
      · exact h.apart i index other batch hNe hOld hBatch hOpen hOpenBatch hCopy
          (hAdvanced.acked copy hNew).1
  · rcases (getElem?_set_eq_some hBatch).mp hFirst with ⟨rfl, rfl⟩ | ⟨-, hOldFirst⟩
    · rcases (getElem?_set_eq_some hBatch).mp hSecond with ⟨rfl, -⟩ | ⟨-, hOldSecond⟩
      · exact absurd rfl hNe
      · exact h.apart i j batch second hNe hBatch hOldSecond hOpenBatch hOther
    · rcases (getElem?_set_eq_some hBatch).mp hSecond with ⟨rfl, rfl⟩ | ⟨-, hOldSecond⟩
      · exact h.apart i j first batch hNe hOldFirst hBatch hOpen hOpenBatch
      · exact h.apart i j first second hNe hOldFirst hOldSecond hOpen hOther
  · rcases h.safe copy ((received_apply hBatch).mp hCopy) with hDone | ⟨other, hHas, hKey, hNot⟩
    · exact .inl hDone.mono
    · by_cases hNew : other ∈ effect.acked
      · obtain ⟨-, hDone | ⟨third, hThird, hSame, hLeft⟩⟩ := hAdvanced.acked other hNew
        · exact .inl (hKey ▸ hDone)
        · refine .inr ⟨third, (received_apply hBatch).mpr ⟨batch, hMemBatch, hThird⟩,
            hSame.trans hKey, fun hAcked => ?_⟩
          exact (mem_append.mp hAcked).elim (hFresh third hThird) hLeft
      · exact .inr ⟨other, (received_apply hBatch).mpr hHas, hKey, fun hAcked =>
          (mem_append.mp hAcked).elim hNot hNew⟩

end Apply

theorem step_sound {t : State store} {action : Action store} (h : s.Sound key)
    (hStep : step store key s action = some t) : t.Sound key := by
  cases action with
  | receive replay messages =>
    simp only [step] at hStep
    split_ifs at hStep with hSrc
    cases hStep
    exact h.receive hSrc.1 hSrc.2
  | move index move =>
    simp only [step] at hStep
    split at hStep
    next batch hBatch =>
      obtain ⟨effect, hAdv, rfl⟩ := Option.map_eq_some_iff.mp hStep
      have hMem := mem_of_getElem? hBatch
      exact h.apply hBatch
        (advance_sound (h.nodup batch hMem) (h.batches batch hMem) h.marked hAdv)
    next => cases hStep
  | renew k now =>
    cases hStep
    exact { h with marked := fun k hk => h.marked k (store.marked_renew hk) }
  | event event =>
    cases hStep
    exact { h with marked := fun k hk => h.marked k (store.marked_occur hk) }

/-- Deduplication never loses a key: of a key that was received, the route has
committed a delivery with Ack or Reply, or a copy that was received has not
been acknowledged to its source. -/
theorem deduplication_keeps_keys {actions : List (Action store)}
    (hRun : run (step store key) (init store) actions = some s) {copy : Nat}
    (hRecv : s.Received copy) :
    Committed key s.commits (key copy) ∨ s.Unacked key (key copy) := by
  have hInit : State.Sound key (init store) :=
    { marked := fun k hk => absurd hk (store.marked_new k)
      batches := nofun
      nodup := nofun
      fresh := nofun
      apart := fun i j first second _ hFirst => by cases hFirst
      safe := fun copy ⟨batch, hMem, _⟩ => absurd hMem not_mem_nil }
  exact (invariant_of_run (fun _ _ _ => step_sound) hInit hRun).safe copy hRecv

end Run

/-- Copies 0 to 2 have one key. Copy 1 rides on copy 0, which the route hands
back, while copy 2 waits for its key; the route commits copy 2, and copy 0 is
then skipped as a duplicate when it comes again. -/
def redelivered : List (Action (memoryDedupStore (κ := Nat) id)) :=
  let replay : Replay := ⟨false, fun _ => none, fun _ => none⟩
  [.event (.configure 60 1000), .receive replay [0, 1], .move 0 (.reserve 10),
    .receive replay [2], .move 1 (.reserve 10), .move 1 (.settle false), .move 1 .wake,
    .move 0 (.settle false), .move 0 (.sort 11), .move 0 .deliver, .move 0 (.commit [.nack]),
    .move 0 (.store 12), .move 0 (.store 12), .move 0 (.innerCommit fun _ => true),
    .move 1 (.reserve 12), .move 1 (.settle false), .move 1 (.sort 12), .move 1 .deliver,
    .move 1 (.commit [.ack]), .move 1 (.store 13), .move 1 (.store 13),
      .move 1 (.innerCommit fun _ => true),
    .receive replay [0], .move 2 (.reserve 14), .move 2 (.settle false), .move 2 (.sort 14),
    .move 2 .deliver, .move 2 (.innerCommit fun _ => true)]

theorem deduplication_keeps_keys_redelivered :
    ∃ s, run (step (memoryDedupStore id) fun _ => 0) (init _) redelivered = some s ∧
      s.acked = [1, 2, 0] ∧ s.commits = [(0, .nack), (2, .ack)] ∧ s.Received 0 ∧
      (Committed (fun _ => 0) s.commits 0 ∨ s.Unacked (fun _ => 0) 0) := by
  refine exists_run (fun s => s.acked = [1, 2, 0] ∧ s.commits = [(0, .nack), (2, .ack)] ∧
    s.batches.map Batch.messages = [[0, 1], [2], [0]]) (by decide) ?_
  rintro s hRun ⟨hAcked, hCommits, hMsgs⟩
  have hRecv : s.Received 0 := by
    have hFirst : [0, 1] ∈ s.batches.map Batch.messages := hMsgs ▸ mem_cons_self ..
    obtain ⟨batch, hMem, hBatch⟩ := mem_map.mp hFirst
    exact ⟨batch, hMem, hBatch ▸ mem_cons_self ..⟩
  exact ⟨hAcked, hCommits, hRecv, deduplication_keeps_keys hRun hRecv⟩

end MqBridge.Deduplication
