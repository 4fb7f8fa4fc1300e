import MqBridge.EventStore.Consumer
import MqBridge.Machine.Run

/-! Nacked events and later acknowledgements. A range of offsets is owed from
the nack of a batch that contains it until a single read hands all of it out
again. The claim of the consumer is that nothing is acknowledged, and nothing
collected as acknowledged, beyond the start of an owed range. -/
namespace MqBridge.EventStore

open List Option Machine

/-- The read contains every offset after `c` up to `d`. -/
def Covers (offsets : List Nat) (c d : Nat) : Prop :=
  ∀ x, c < x → x ≤ d → x ∈ offsets

/-- What one event does to the debt on the offsets after `c` up to `d`. -/
def owedAfter (c d : Nat) (owed : Prop) : Event → Prop
  | .nacked a b => owed ∨ (a ≤ c ∧ d ≤ b)
  | .handedOut offsets => owed ∧ ¬Covers offsets c d
  | .acked _ | .collected _ => owed

def Owed (c d : Nat) (log : List Event) : Prop :=
  log.foldl (owedAfter c d) False

theorem owed_snoc (c d : Nat) (log : List Event) (event : Event) :
    Owed c d (log ++ [event]) = owedAfter c d (Owed c d log) event := by
  rw [Owed, foldl_append, foldl_cons, foldl_nil, Owed]

/-- An acknowledgement or a collection, which no debt depends on. -/
def Event.isRemoval : Event → Bool
  | .acked _ | .collected _ => true
  | .handedOut _ | .nacked _ _ => false

variable {c d : Nat}

theorem owed_append_removals {log events : List Event}
    (hRemovals : ∀ e ∈ events, e.isRemoval = true) : Owed c d (log ++ events) = Owed c d log := by
  induction events using reverseRecOn with
  | nil => rw [append_nil]
  | append_singleton events event ih =>
    rw [← append_assoc, owed_snoc]
    have hLast := hRemovals event (by simp)
    have hOwed := ih fun e hMem => hRemovals e (mem_append_left _ hMem)
    cases event with
    | acked | collected => exact hOwed
    | handedOut | nacked => cases hLast

/-- A nack leaves a debt until a read covers it. -/
theorem owed_of_nacked {pre mid : List Event} {a b c d : Nat} (hFrom : a ≤ c) (hUpTo : d ≤ b)
    (hUncovered : ∀ offsets, .handedOut offsets ∈ mid → ¬Covers offsets c d) :
    Owed c d (pre ++ .nacked a b :: mid) := by
  induction mid using reverseRecOn with
  | nil =>
    rw [owed_snoc]
    exact .inr ⟨hFrom, hUpTo⟩
  | append_singleton mid event ih =>
    have hBefore := ih fun offsets hMem => hUncovered offsets (mem_append_left _ hMem)
    rw [← cons_append, ← append_assoc, owed_snoc]
    cases event with
    | acked | collected => exact hBefore
    | handedOut offsets => exact ⟨hBefore, hUncovered offsets (by simp)⟩
    | nacked a' b' => exact .inl hBefore

/-! ### Acknowledgements that respect a debt -/

def Event.below (c : Nat) : Event → Prop
  | .acked offset | .collected offset => offset ≤ c
  | .handedOut _ | .nacked _ _ => True

/-- While the range is owed, nothing above its start is removed. -/
def Respected (c d : Nat) (log : List Event) : Prop :=
  History.EachAfter (fun pre event => Owed c d pre → event.below c) log

theorem respected_append_removals {log events : List Event} (h : Respected c d log)
    (hRemovals : ∀ e ∈ events, e.isRemoval = true)
    (hBelow : Owed c d log → ∀ e ∈ events, e.below c) : Respected c d (log ++ events) := by
  induction events using reverseRecOn with
  | nil =>
    rw [append_nil]
    exact h
  | append_singleton events event ih =>
    have hEarlier : ∀ e ∈ events, e.isRemoval = true :=
      fun e hMem => hRemovals e (mem_append_left _ hMem)
    rw [← append_assoc]
    refine .snoc (ih hEarlier fun hOwed e hMem =>
      hBelow hOwed e (mem_append_left _ hMem)) ?_
    rw [owed_append_removals hEarlier]
    exact fun hOwed => hBelow hOwed event (by simp)

/-! ### Debts -/

def State.positions (s : State) : List Nat := s.lastOffset :: s.pending.toList

/-- A nack never finds a receive under way that has loaded a position past
the start of the nacked batch. -/
def NoOverrun (s : State) : Action → Prop
  | .commit skip dispositions _ _ => anyNack dispositions = true →
      ∀ batch rest, s.outstanding.drop skip = batch :: rest →
        ∀ position, s.pending = some position → position ≤ batch.lastOffsetVal
  | _ => True

def StopsInside (c d : Nat) (s : State) (a : Action) : Prop :=
  ∃ maxMessages position events, a = .receiveEnd maxMessages ∧ s.pending = some position ∧
    s.store.getEventsSince position maxMessages = .ok events ∧
    c < position + events.length ∧ position + events.length < d

/-- An owed range lies ahead of every position and of every batch that can
still be acknowledged. -/
def Debt (c d : Nat) (s : State) : Prop :=
  Owed c d s.log → (∀ p ∈ s.positions, p ≤ c) ∧
    ∀ batch ∈ s.outstanding, batch.readAt = s.rewinds → batch.newOffset ≤ c

theorem collectedOf_isRemoval {removed : List (Nat × GcCause)} {o : Nat} {e : Event}
    (hEvent : e ∈ .acked o :: removed.filterMap collectedOf) :
    e = .acked o ∨ ∃ x, (x, GcCause.acked) ∈ removed ∧ e = .collected x := by
  rcases mem_cons.mp hEvent with hAcked | hCollected
  · exact .inl hAcked
  · obtain ⟨⟨x, cause⟩, hMem, hSome⟩ := mem_filterMap.mp hCollected
    cases cause with
    | acked => exact .inr ⟨x, hMem, (some.inj hSome).symm⟩
    | aged => cases hSome

/-! ### Positions, batches and acknowledgements stay in order -/

/-- What a run keeps: acknowledgements are behind every position and every
outstanding batch, so are the batches read since the last rewind, and one
range of offsets is respected. -/
structure Ordered (c d : Nat) (s : State) : Prop where
  contiguous : Contiguous s.store
  epochs : ∀ batch ∈ s.outstanding, batch.readAt ≤ s.rewinds
  acks : ∀ p ∈ s.positions, AcksBelow s.store p
  starts : ∀ batch ∈ s.outstanding, AcksBelow s.store batch.lastOffsetVal
  current : ∀ batch ∈ s.outstanding, batch.readAt = s.rewinds →
    ∀ p ∈ s.positions, batch.newOffset ≤ p
  later : s.outstanding.Pairwise fun x y => x.readAt = s.rewinds → x.newOffset ≤ y.lastOffsetVal
  debt : Debt c d s
  respected : Respected c d s.log

theorem AcksBelow.mono {store : Store} {p q : Nat} (h : AcksBelow store p) (hLe : p ≤ q) :
    AcksBelow store q := fun entry hEntry => (h entry hEntry).trans hLe

theorem initial_ordered (policy : RetentionPolicy) (now : Nat) : 
    Ordered c d (initial policy now) where
  contiguous := new_contiguous policy now
  epochs := nofun
  acks := nofun
  starts := nofun
  current := nofun
  later := List.Pairwise.nil
  debt := fun hOwed => hOwed.elim
  respected := History.eachAfter_nil

section Ordered
variable {s : State} (h : Ordered c d s)

include h

/-- A change of the store that adds no acknowledgement. -/
theorem Ordered.withStore {store : Store} (hContig : Contiguous store)
    (hAcks : ∀ bound, AcksBelow s.store bound → AcksBelow store bound) :
    Ordered c d { s with store := store } where
  __ := h
  contiguous := hContig
  acks := fun p hPos => hAcks p (h.acks p hPos)
  starts := fun batch hBatch => hAcks _ (h.starts batch hBatch)

theorem Ordered.push (messages : List CanonicalMessage) (timestamp : Nat) :
    Ordered c d { s with store := s.store.push messages timestamp } := by
  refine h.withStore (push_contiguous h.contiguous messages timestamp) fun bound hBound => ?_
  rw [AcksBelow, Store.push, Store.enforceMaxCount]
  split
  · exact hBound
  · exact hBound

/-- A receive that holds no position of its own. -/
theorem Ordered.withPending {pending : Option Nat}
    (hSame : ∀ p ∈ pending, p = s.lastOffset) : Ordered c d { s with pending := pending } := by
  have hFewer : ∀ p ∈ s.lastOffset :: pending.toList, p ∈ s.positions := by
    intro p hPos
    refine mem_cons.mpr (.inl ?_)
    exact (mem_cons.mp hPos).elim id fun hPend => hSame p (mem_toList.mp hPend)
  exact { h with
    acks := fun p hPos => h.acks p (hFewer p hPos)
    current :=
      fun batch hBatch hNow p hPos => h.current batch hBatch hNow p (hFewer p hPos)
    debt :=
      fun hOwed => ⟨fun p hPos => (h.debt hOwed).1 p (hFewer p hPos), (h.debt hOwed).2⟩ }

theorem Ordered.receiveStart (subscriberId : String) (now : Nat) : Ordered c d { s with
      store := s.store.registerSubscriber subscriberId now
      pending := some s.lastOffset } := by
  have hStore := h.withStore (registerSubscriber_contiguous h.contiguous subscriberId now)
    fun bound hBound => registerSubscriber_acksBelow hBound subscriberId now
  exact hStore.withPending (by simp)

theorem Ordered.finishReceive {lastOffsetVal maxMessages : Nat}
    {events : List StoredEvent} (hPend : s.pending = some lastOffsetVal)
    (hRead : s.store.getEventsSince lastOffsetVal maxMessages = .ok events)
    (hWhole : Owed c d s.log → ¬StopsInside c d s (.receiveEnd maxMessages)) :
    Ordered c d (s.finishReceive lastOffsetVal events) := by
  have hPos : lastOffsetVal ∈ s.positions := by
    rw [State.positions, hPend]
    simp
  have hStart := h.acks lastOffsetVal hPos
  rw [State.finishReceive, newOffset_eq h.contiguous hRead]
  refine ⟨⟨h.contiguous.offsets, h.contiguous.next⟩, ?_, ?_, ?_, ?_, ?_, fun hOwed => ?_,
    h.respected.snoc fun _ => trivial⟩
  · exact Places.forall_mem_snoc h.epochs (le_refl _)
  · intro p hNew
    rw [mem_singleton.mp hNew]
    exact hStart.mono (Nat.le_add_right _ _)
  · exact Places.forall_mem_snoc h.starts hStart
  · intro batch hBatch hNow p hLast
    rw [mem_singleton.mp hLast]
    rcases mem_append.mp hBatch with hOld | hNew
    · exact (h.current batch hOld hNow lastOffsetVal hPos).trans (Nat.le_add_right _ _)
    · rw [mem_singleton.mp hNew]
  · exact Places.pairwise_snoc h.later fun x hOld hNow =>
      h.current x hOld hNow lastOffsetVal hPos
  · rw [owed_snoc] at hOwed
    obtain ⟨hBefore, hUncovered⟩ := hOwed
    obtain ⟨hPositions, hBatches⟩ := h.debt hBefore
    have hFrom := hPositions lastOffsetVal hPos
    -- A read that goes past the start of the range would have to cover it.
    have hStop : lastOffsetVal + events.length ≤ c := by
      by_contra hPast
      refine hWhole hBefore
        ⟨maxMessages, lastOffsetVal, events, rfl, hPend, hRead, Nat.lt_of_not_le hPast, ?_⟩
      by_contra hEnd
      refine hUncovered fun x hAbove hUpTo => ?_
      rw [getEventsSince_offsets h.contiguous hRead, mem_range'_1]
      omega
    refine ⟨fun p hNew => ?_, Places.forall_mem_snoc hBatches fun _ => hStop⟩
    rw [mem_singleton.mp hNew]
    exact hStop

/-- Fewer outstanding batches, in the same order. -/
theorem Ordered.forget {rest : List Batch} (hRest : rest.Sublist s.outstanding) :
    Ordered c d { s with outstanding := rest } :=
  ⟨h.contiguous, fun batch hBatch => h.epochs batch (hRest.subset hBatch), h.acks,
    fun batch hBatch => h.starts batch (hRest.subset hBatch),
    fun batch hBatch => h.current batch (hRest.subset hBatch), h.later.sublist hRest,
    fun hOwed => ⟨(h.debt hOwed).1, fun batch hBatch =>
      (h.debt hOwed).2 batch (hRest.subset hBatch)⟩, h.respected⟩

/-- The commit of a batch: a nack makes a new debt ahead of everything that
can be acknowledged, an acknowledgement stays behind every debt. -/
theorem Ordered.commit {skip : Nat} {batch : Batch} {rest : List Batch}
    (hDrop : s.outstanding.drop skip = batch :: rest) (subscriberId : String)
    {dispositions : List MessageDisposition} {now gcNow : Nat}
    (hNoOverrun : NoOverrun s (.commit skip dispositions now gcNow)) :
    Ordered c d (s.commit subscriberId batch rest dispositions now gcNow) := by
  have hSuffix : (batch :: rest).Sublist s.outstanding := hDrop ▸ drop_sublist skip _
  have hBatch : batch ∈ s.outstanding := hSuffix.subset (mem_cons_self ..)
  have hForget := h.forget ((sublist_cons_self batch rest).trans hSuffix)
  rw [State.commit]
  split_ifs with hNack hNow
  · refine ⟨h.contiguous, fun b hMem => (hForget.epochs b hMem).trans (Nat.le_succ _), ?_,
      hForget.starts, ?_, ?_, fun hOwed => ⟨?_, ?_⟩, h.respected.snoc fun _ => trivial⟩
    · intro p hPos
      rcases mem_cons.mp hPos with rfl | hPend
      · rcases le_total s.lastOffset batch.lastOffsetVal with hLe | hLe
        · rw [min_eq_left hLe]
          exact h.acks _ (mem_cons_self ..)
        · rw [min_eq_right hLe]
          exact h.starts batch hBatch
      · exact h.acks p (mem_cons_of_mem _ hPend)
    · intro b hMem hEpoch
      exact absurd (hForget.epochs b hMem) (by rw [hEpoch]; exact Nat.not_succ_le_self _)
    · refine hForget.later.imp_of_mem ?_
      intro x y hX hY hOrder hEpoch
      exact absurd (hForget.epochs x hX) (by rw [hEpoch]; exact Nat.not_succ_le_self _)
    · rw [owed_snoc] at hOwed
      intro p hPos
      rcases hOwed with hOld | ⟨hFrom, -⟩
      · obtain ⟨hPositions, -⟩ := h.debt hOld
        rcases mem_cons.mp hPos with rfl | hPend
        · exact (min_le_left _ _).trans (hPositions _ (mem_cons_self ..))
        · exact hPositions p (mem_cons_of_mem _ hPend)
      · rcases mem_cons.mp hPos with rfl | hPend
        · exact (min_le_right _ _).trans hFrom
        · exact (hNoOverrun hNack batch rest hDrop p (mem_toList.mp hPend)).trans hFrom
    · intro b hMem hEpoch
      exact absurd (hForget.epochs b hMem) (by rw [hEpoch]; exact Nat.not_succ_le_self _)
  · have hAhead := (pairwise_cons.mp (h.later.sublist hSuffix)).1
    have hRemovals : ∀ e ∈ .acked batch.newOffset ::
        (s.store.ack subscriberId batch.newOffset now gcNow).2.filterMap collectedOf,
        e.isRemoval = true := by
      intro e hEvent
      rcases collectedOf_isRemoval hEvent with rfl | ⟨x, -, rfl⟩
      · rfl
      · rfl
    refine ⟨ack_contiguous h.contiguous _ _ _ _, hForget.epochs, ?_, ?_, hForget.current,
      hForget.later,
      fun hOwed => ?_, respected_append_removals h.respected hRemovals fun hOwed e hEvent => ?_⟩
    · intro p hPos
      exact (ack_acksBelow (h.acks p hPos) (h.current batch hBatch hNow.symm p hPos)
        subscriberId now gcNow).1
    · intro b hMem
      exact (ack_acksBelow (hForget.starts b hMem)
        (hAhead b hMem hNow.symm) subscriberId now gcNow).1
    · rw [owed_append_removals hRemovals] at hOwed
      exact hForget.debt hOwed
    · obtain ⟨hPositions, hBatches⟩ := h.debt hOwed
      have hBehind : batch.newOffset ≤ c := hBatches batch hBatch hNow.symm
      have hLast : s.lastOffset ∈ s.positions := mem_cons_self ..
      have hAcks : AcksBelow s.store c :=
        (h.acks s.lastOffset hLast).mono (hPositions s.lastOffset hLast)
      rcases collectedOf_isRemoval hEvent with rfl | ⟨x, hRemoved, rfl⟩
      · exact hBehind
      · exact (ack_acksBelow hAcks hBehind subscriberId now gcNow).2 x hRemoved
  · exact hForget

end Ordered

variable {subscriberId : String}

/-- One range, over one step that does not overrun a nack and, while the
range is owed, does not stop a read inside it. -/
theorem step_ordered {s t : State} {a : Action} (h : Ordered c d s) (hNoOverrun : NoOverrun s a)
    (hWhole : Owed c d s.log → ¬StopsInside c d s a) (hStep : step subscriberId s a = some t) :
    Ordered c d t := by
  cases a with
  | append event timestamp =>
    cases hStep
    exact h.push [event] timestamp
  | appendBatch messages timestamp =>
    cases hStep
    rw [Store.appendBatch]
    split_ifs
    · exact h
    · exact h.push messages timestamp
  | receiveStart now =>
    rw [step] at hStep
    split at hStep <;> cases hStep
    exact h.receiveStart subscriberId now
  | receiveEnd maxMessages =>
    obtain ⟨lastOffsetVal, hPend, rfl | ⟨events, hRead, rfl⟩⟩ := step_receiveEnd hStep
    · exact h.withPending (by simp)
    · exact h.finishReceive hPend hRead hWhole
  | giveUp =>
    rw [step] at hStep
    split at hStep <;> cases hStep
    exact h.withPending (by simp)
  | commit skip dispositions now gcNow =>
    rw [step] at hStep
    split at hStep <;> cases hStep
    next hDrop => exact h.commit hDrop subscriberId hNoOverrun

/-! ### Runs -/

/-- Nothing is acknowledged into a nacked batch before each event of that
batch was handed out again. -/
def AcksAfterRedelivery (log : List Event) : Prop :=
  ∀ pre a b mid o post, log = pre ++ .nacked a b :: (mid ++ .acked o :: post) → a < o →
    ∀ x, a < x → x ≤ b → ∃ offsets, .handedOut offsets ∈ mid ∧ x ∈ offsets

/-- Event by event: no acknowledgement reaches a nacked event before it was
handed out again. -/
def AcksBehindRedelivery (log : List Event) : Prop :=
  ∀ pre a b mid o post, log = pre ++ .nacked a b :: (mid ++ .acked o :: post) →
    ∀ x, a < x → x ≤ b → x ≤ o → ∃ offsets, .handedOut offsets ∈ mid ∧ x ∈ offsets

/-- No nacked event is collected as acknowledged before it was handed out
again. -/
def CollectsAfterRedelivery (log : List Event) : Prop :=
  ∀ pre a b mid x post, log = pre ++ .nacked a b :: (mid ++ .collected x :: post) →
    a < x → x ≤ b → ∃ offsets, .handedOut offsets ∈ mid ∧ x ∈ offsets

/-- A removal above `c` after the nack of a batch that contains the range
comes after a read that covers the range. -/
theorem Respected.covered {log pre mid post : List Event} {event : Event} {a b c d : Nat}
    (h : Respected c d log) (hSplit : log = pre ++ .nacked a b :: (mid ++ event :: post))
    (hFrom : a ≤ c) (hUpTo : d ≤ b) (hAbove : ¬event.below c) :
    ∃ offsets, .handedOut offsets ∈ mid ∧ Covers offsets c d := by
  by_contra hNone
  refine hAbove (h (pre ++ .nacked a b :: mid) event post ?_ ?_)
  · rw [hSplit, append_assoc, cons_append]
  · exact owed_of_nacked hFrom hUpTo fun offsets hMem hCovers => hNone ⟨offsets, hMem, hCovers⟩

variable {log : List Event}

theorem collects_of_respected (h : ∀ c, Respected c (c + 1) log) :
    CollectsAfterRedelivery log := by
  intro pre a b mid x post hSplit hAfter hUpTo
  obtain ⟨c, rfl⟩ : ∃ c, x = c + 1 := ⟨x - 1, by omega⟩
  obtain ⟨offsets, hMem, hCovers⟩ := (h c).covered hSplit (Nat.le_of_lt_succ hAfter) hUpTo
    (Nat.not_succ_le_self c)
  exact ⟨offsets, hMem, hCovers (c + 1) (Nat.lt_succ_self c) (le_refl _)⟩

theorem acksBehind_of_respected (h : ∀ c, Respected c (c + 1) log) :
    AcksBehindRedelivery log := by
  intro pre a b mid o post hSplit x hAfter hUpTo hAcked
  obtain ⟨c, rfl⟩ : ∃ c, x = c + 1 := ⟨x - 1, by omega⟩
  obtain ⟨offsets, hMem, hCovers⟩ := (h c).covered hSplit (Nat.le_of_lt_succ hAfter) hUpTo
    (Nat.not_le_of_lt hAcked)
  exact ⟨offsets, hMem, hCovers (c + 1) (Nat.lt_succ_self c) (le_refl _)⟩

theorem acksAfter_of_respected (h : ∀ c d, Respected c d log) :
    AcksAfterRedelivery log := by
  intro pre a b mid o post hSplit hAcked x hAfter hUpTo
  obtain ⟨offsets, hMem, hCovers⟩ := (h a b).covered hSplit (le_refl a) (le_refl b)
    (Nat.not_le_of_lt hAcked)
  exact ⟨offsets, hMem, hCovers x hAfter hUpTo⟩

section Runs
variable {subscriberId : String} {policy : RetentionPolicy} {start : Nat} {s : State}
  {actions : List Action}

theorem run_respected (hGuarded : Machine.Guarded (step subscriberId)
      (fun s a => NoOverrun s a ∧ (Owed c d s.log → ¬StopsInside c d s a))
        (initial policy start) actions)
    (hRun : run (step subscriberId) (initial policy start) actions = some s) :
    Respected c d s.log := by
  have hKeeps : ∀ s a t, Ordered c d s → NoOverrun s a ∧ (Owed c d s.log → ¬StopsInside c d s a) →
      step subscriberId s a = some t → Ordered c d t :=
    fun s a t h hGuard => step_ordered h hGuard.1 hGuard.2
  exact (invariant_of_guarded hKeeps (initial_ordered policy start) hGuarded hRun).respected

/-- In every run in which no nack is overrun by a receive under way, every
nacked event is handed out again before an acknowledgement reaches it and
before it is collected as acknowledged. If moreover no read stops strictly
inside a range that is owed, nothing is acknowledged into a nacked batch
before the whole of it was handed out again. -/
theorem consumer_redelivers
    (hRun : run (step subscriberId) (initial policy start) actions = some s) :
    (Machine.Guarded (step subscriberId) NoOverrun (initial policy start) actions →
      AcksBehindRedelivery s.log ∧ CollectsAfterRedelivery s.log) ∧
    (Machine.Guarded (step subscriberId)
      (fun s a => NoOverrun s a ∧ ∀ c d, Owed c d s.log → ¬StopsInside c d s a)
        (initial policy start) actions → AcksAfterRedelivery s.log ∧
          CollectsAfterRedelivery s.log) := by
  constructor
  · intro hGuarded
    have hRespected : ∀ c, Respected c (c + 1) s.log := by
      intro c
      refine run_respected (hGuarded.mono fun s a hNoOverrun => ⟨hNoOverrun, fun _ => ?_⟩) hRun
      -- No read stops strictly inside a single event.
      rintro ⟨maxMessages, position, events, -, -, -, hAfter, hBefore⟩
      omega
    exact ⟨acksBehind_of_respected hRespected, collects_of_respected hRespected⟩
  · intro hGuarded
    have hRespected : ∀ c d, Respected c d s.log := fun c d =>
      run_respected (hGuarded.mono fun s a hGuard => ⟨hGuard.1, hGuard.2 c d⟩) hRun
    exact ⟨acksAfter_of_respected hRespected, collects_of_respected fun c => hRespected c (c + 1)⟩

end Runs

/-- An event is nacked, read again, acknowledged and collected. -/
theorem consumer_redelivers_once :
    let actions : List Action := [.append ⟨1, [1], ∅⟩ 0, .receiveStart 0, .receiveEnd 5,
      .commit 0 [.nack] 0 0, .receiveStart 0, .receiveEnd 5, .commit 0 [.ack] 2000 2000]
    ∃ s, run (step "group") (initial .default 0) actions = some s ∧
      s.log = [.handedOut [1], .nacked 0 1, .handedOut [1], .acked 1, .collected 1] ∧
      Machine.Guarded (step "group") NoOverrun (initial .default 0) actions ∧
      AcksBehindRedelivery s.log ∧ AcksAfterRedelivery s.log ∧ CollectsAfterRedelivery s.log := by
  intro actions
  -- a range that ends after one event has no inside
  have hShort (s : State) (a : Action) (hOne : ∀ c d, Owed c d s.log → d ≤ 1) (c d : Nat)
      (hOwed : Owed c d s.log) : ¬StopsInside c d s a := by
    rintro ⟨maxMessages, position, events, -, -, -, hAfter, hBefore⟩
    have hEnd := hOne c d hOwed
    omega
  have hNone (c d : Nat) (h : Owed c d []) : d ≤ 1 := False.elim h
  have hNacked (c d : Nat) (h : Owed c d [.handedOut [1], .nacked 0 1]) : d ≤ 1 :=
    h.elim (fun hOld => hOld.1.elim) And.right
  have hGuarded : Machine.Guarded (step "group")
      (fun s a => NoOverrun s a ∧ ∀ c d, Owed c d s.log → ¬StopsInside c d s a)
      (initial .default 0) actions := by
    refine ⟨⟨trivial, hShort _ _ hNone⟩, fun _ hStep => ?_⟩
    cases hStep
    refine ⟨⟨trivial, hShort _ _ hNone⟩, fun _ hStep => ?_⟩
    cases hStep
    refine ⟨⟨trivial, hShort _ _ hNone⟩, fun _ hStep => ?_⟩
    cases hStep
    have hOut (c d : Nat) (h : Owed c d [.handedOut [1]]) : d ≤ 1 := h.1.elim
    refine ⟨⟨fun _ _ _ _ _ hPend => (by cases hPend), hShort _ _ hOut⟩, fun _ hStep => ?_⟩
    cases hStep
    refine ⟨⟨trivial, hShort _ _ hNacked⟩, fun _ hStep => ?_⟩
    cases hStep
    refine ⟨⟨trivial, hShort _ _ hNacked⟩, fun _ hStep => ?_⟩
    cases hStep
    refine ⟨⟨fun hNack => absurd hNack (by decide), fun c d _ => ?_⟩, fun _ _ => trivial⟩
    rintro ⟨_, _, _, hAction, -⟩
    cases hAction
  refine exists_run
    (fun s => s.log = [.handedOut [1], .nacked 0 1, .handedOut [1], .acked 1, .collected 1])
    (by decide) fun s hRun hLog => ?_
  obtain ⟨hFirst, hSecond⟩ := consumer_redelivers hRun
  have hKept := hGuarded.mono fun _ _ h => h.1
  obtain ⟨hBehind, hCollects⟩ := hFirst hKept
  exact ⟨hLog, hKept, hBehind, (hSecond hGuarded).1, hCollects⟩

/-- The second receive has loaded the position after event 1 when event 1 is
nacked. It then reads event 2, whose acknowledgement passes event 1, and the
garbage collection drops event 1, which was never handed out again. -/
theorem consumer_loses_nacked_event :
    let actions : List Action := [.append ⟨1, [1], ∅⟩ 0, .receiveStart 0, .receiveEnd 5,
      .receiveStart 0, .commit 0 [.nack] 0 0, .append ⟨2, [2], ∅⟩ 0, .receiveEnd 5,
        .commit 0 [.ack] 2000 2000]
    ∃ s, run (step "group") (initial .default 0) actions = some s ∧
      ¬AcksAfterRedelivery s.log ∧ ¬CollectsAfterRedelivery s.log := by
  intro actions
  refine exists_run (fun s =>
    s.log = [.handedOut [1], .nacked 0 1, .handedOut [2], .acked 2, .collected 1, .collected 2])
    (by decide) fun s _ hLog => ⟨?_, ?_⟩
  · intro hAcks
    obtain ⟨offsets, hMem, hRead⟩ := hAcks [.handedOut [1]] 0 1 [.handedOut [2]] 2
      [.collected 1, .collected 2] hLog (by decide) 1 (by decide) (by decide)
    cases mem_singleton.mp hMem
    exact absurd hRead (by decide)
  · intro hCollects
    obtain ⟨offsets, hMem, hRead⟩ := hCollects [.handedOut [1]] 0 1 [.handedOut [2], .acked 2] 1
      [.collected 2] hLog (by decide) (by decide)
    have hTwo : offsets = [2] := by simpa using hMem
    rw [hTwo] at hRead
    exact absurd hRead (by decide)

end MqBridge.EventStore
