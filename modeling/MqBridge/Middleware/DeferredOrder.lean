import MqBridge.Machine.Run
import MqBridge.Middleware.DeferredCommit

/-! Nothing that was held runs ahead of a retained batch. The middlewares look
at the number of deliveries in flight only before they commit an emptied batch
at once. Everywhere else the order rests on a condition about the run, which is
stated here step by step. -/
namespace MqBridge.Deferred

open List Option Machine

def State.Committed (s : State) (batch : Nat) : Prop := (batch, .ok ()) ∈ s.log

/-- The inner commit of an emptied batch only ever ran after those of all
retained batches received before it had succeeded. -/
def CommitsInOrder (s : State) : Prop :=
  History.EachAfter
    (fun pre entry => entry.1 ∈ s.emptied → ∀ j ∈ s.retained, j < entry.1 → (j, .ok ()) ∈ pre) s.log

/-- What the middlewares do not check themselves. A drain and the disconnect
hook find nothing held or nothing in flight. A batch is emptied while the call
has kept nothing, or while something is in flight. A call that has kept
something does not fail and is not dropped. A handed-out commit that carries
held ones is called when every delivery before it has been committed. -/
def KeepsBack {Answer : Type} (c : Consumer Answer) (s : State) : Action Answer → Prop
  | .read answer => ∀ call, s.call = some call →
      match c.read call answer with
      | .failed _ | .handedBack => call.plan = []
      | .drained => call.plan = [] → s.held = [] ∨ s.inFlight = 0
      | .emptied _ => call.plan = [] ∨ s.inFlight ≠ 0
      | .kept _ _ => True
  | .cancel => planOf s.call = []
  | .disconnectHook => s.held = [] ∨ s.inFlight = 0
  | .call skip _ => ∀ delivery rest, s.waiting.drop skip = delivery :: rest →
      (∀ i ∈ delivery.plan, i ∉ s.emptied) ∨ (skip = 0 ∧ s.inFlight = s.waiting.length)
  | .receive _ | .release | .commit | .abort => True

def State.Accounted (s : State) : Prop :=
  ∃ lost, s.inFlight = s.waiting.length + s.running.toList.length + lost ∧
  ∀ j ∈ s.retained, s.Committed j ∨ 0 < lost ∨ j ∈ s.handedOut ∨ j ∈ planOf s.call

/-- Every retained batch is committed, or still has its place, or is lost and
stays counted. What is being run comes after all it has to wait for. -/
structure Safe (s : State) : Prop where
  place : s.Accounted
  running : ∀ before i after, s.running = some (before ++ i :: after) → i ∈ s.emptied →
    ∀ j ∈ s.retained, j < i → s.Committed j ∨ j ∈ before
  release : s.release ≠ none → ∀ j ∈ s.retained, s.Committed j
  ordered : CommitsInOrder s

def State.Placed (s : State) (j : Nat) : Prop := s.Committed j ∨ j ∈ s.handedOut ∨ j ∈ planOf s.call

theorem initial_safe : Safe initial where
  place := ⟨0, rfl, nofun⟩
  running := fun _ _ _ hRunning => by cases hRunning
  release := fun hRelease => absurd rfl hRelease
  ordered := History.eachAfter_nil

section Safe
variable {s t : State}

/-- With nothing in flight and nothing kept by the call, all is committed. -/
theorem Safe.committed_of_idle (h : Safe s) (hIdle : s.inFlight = 0) (hPlan : planOf s.call = []) :
    ∀ j ∈ s.retained, s.Committed j := by
  obtain ⟨lost, hCount, hPlace⟩ := h.place
  have hWait : s.waiting = [] := eq_nil_of_length_eq_zero (by omega)
  have hRunning : s.running = none := by
    cases hRun : s.running with
    | none => rfl
    | some plan =>
      rw [hRun] at hCount
      simp only [toList_some, length_singleton] at hCount
      omega
  intro j hRetained
  rcases hPlace j hRetained with hDone | hLost | hOut | hCall
  · exact hDone
  · omega
  · rw [State.handedOut, hWait, hRunning] at hOut
    cases hOut
  · rw [hPlan] at hCall
    cases hCall

/-- A new number is larger than everything logged or waiting, so the order of
what there is does not change. -/
theorem CommitsInOrder.grow (h : CommitsInOrder s) (hOrder : InOrder s) (hLog : t.log = s.log)
    (hRetained : ∀ j ∈ t.retained, j ∈ s.retained ∨ j = s.received)
    (hEmptied : ∀ i ∈ t.emptied, i ∈ s.emptied ∨ i = s.received) : CommitsInOrder t := by
  rw [CommitsInOrder, hLog]
  refine .imp h fun pre entry hEntry hBefore hMem j hJ hLess => ?_
  have hBound := hOrder.logged entry hEntry
  rcases hEmptied entry.1 hMem with hOld | hNew
  · rcases hRetained j hJ with hOldJ | rfl
    · exact hBefore hOld j hOldJ hLess
    · exact absurd hLess (Nat.not_lt_of_lt hBound)
  · exact absurd hBound (by rw [hNew]; exact lt_irrefl _)

/-- A lost delivery stays counted, and everything else keeps its place. -/
theorem Safe.accounted (h : Safe s)
    (hCount : ∀ lost, s.inFlight = s.waiting.length + s.running.toList.length + lost →
      t.inFlight = t.waiting.length + t.running.toList.length + lost)
    (hRetained : ∀ j ∈ t.retained, j ∈ s.retained ∨ t.Placed j)
    (hLog : ∀ entry ∈ s.log, entry ∈ t.log)
    (hOut : ∀ j ∈ s.handedOut, t.Placed j) (hPlan : ∀ j ∈ planOf s.call, t.Placed j) :
    t.Accounted := by
  obtain ⟨lost, hLost, hPlace⟩ := h.place
  refine ⟨lost, hCount lost hLost, fun j hJ => ?_⟩
  rcases hRetained j hJ with hOld | hNew
  · rcases hPlace j hOld with hDone | hLost | hBefore | hKept
    · exact .inl (hLog _ hDone)
    · exact .inr (.inl hLost)
    · exact (hOut j hBefore).imp_right .inr
    · exact (hPlan j hKept).imp_right .inr
  · exact hNew.imp_right .inr

/-- The call receives a batch; the handed-out commits and the log stay as they are. -/
theorem Safe.grow (h : Safe s) (hOrder : InOrder s) (hRunning : t.running = s.running)
    (hLog : t.log = s.log) (hRetained : ∀ j ∈ t.retained, j ∈ s.retained ∨ j = s.received)
    (hEmptied : ∀ i ∈ t.emptied, i ∈ s.emptied ∨ i = s.received) (hPlace : t.Accounted)
    (hRelease : t.release ≠ none → ∀ j ∈ t.retained, t.Committed j) : Safe t := by
  refine ⟨hPlace, ?_, hRelease, h.ordered.grow hOrder hLog hRetained hEmptied⟩
  intro before i after hPlan hMem j hJ hLess
  rw [hRunning] at hPlan
  have hBound : i < s.received := by
    refine hOrder.bound i ?_
    simp [State.queue, State.handedOut, hPlan]
  rw [State.Committed, hLog]
  rcases hEmptied i hMem with hOld | rfl
  · rcases hRetained j hJ with hOldJ | rfl
    · exact h.running before i after hPlan hOld j hOldJ hLess
    · exact absurd hLess (Nat.not_lt_of_lt hBound)
  · exact absurd hBound (lt_irrefl _)

/-- A call that has kept nothing starts or ends without a delivery. -/
theorem Safe.ended (h : Safe s) (hPlan : planOf s.call = []) {call : Option Call} {received : Nat}
    {held : Held} {release : Option Release}
    (hRelease : release ≠ none → ∀ j ∈ s.retained, s.Committed j) :
    Safe { s with call := call, received := received, held := held, release := release } := by
  refine { h with place := h.accounted (fun _ => id) (fun _ => .inl) (fun _ => id) ?_ ?_, release :=
    hRelease }
  · exact fun _ hOut => .inr (.inl hOut)
  · rw [hPlan]
    exact fun _ hNone => absurd hNone not_mem_nil

end Safe

section Read
variable {s : State} {call : Call}

/-- Once the call has returned them, the batches that were kept are waiting. -/
theorem Safe.delivered (h : Safe s) (hOrder : InOrder s) (hCall : s.call = some call)
    (hRelease : s.release = none)
    {retained : List Nat} {expected : Option Nat}
    (hRetained : ∀ j ∈ retained, j ∈ s.retained ∨ j = s.received) : Safe { s with
      call := none
      received := s.received + 1
      retained := retained
      held := []
      inFlight := s.inFlight + 1
      waiting := s.waiting ++ [⟨call.plan ++ s.held.map Prod.fst ++ [s.received], expected⟩] } := by
  refine h.grow hOrder rfl rfl hRetained (fun _ => .inl) (h.accounted ?_ ?_ (fun _ => id) ?_ ?_)
    fun hSome => absurd hRelease hSome
  · intro lost hCount
    simp only [length_append, length_singleton]
    omega
  · exact fun j hJ => (hRetained j hJ).imp_right fun hNew =>
      .inr (.inl (by simp [State.handedOut, hNew]))
  · intro j hOut
    refine .inr (.inl ?_)
    rw [State.handedOut, flatMap_append, ← append_assoc]
    exact mem_append_left _ hOut
  · rw [hCall]
    intro j hKept
    have hPlan : j ∈ call.plan := hKept
    exact .inr (.inl (by simp [State.handedOut, hPlan]))

theorem read_safe (hOrder : InOrder s) (h : Safe s) (hCall : s.call = some call)
    (hRelease : s.release = none) (outcome : Nat → CommitResult) (counts : Bool) {r : Read}
    (hGuard : match r with
      | .failed _ | .handedBack => call.plan = []
      | .drained => call.plan = [] → s.held = [] ∨ s.inFlight = 0
      | .emptied _ => call.plan = [] ∨ s.inFlight ≠ 0
      | .kept _ _ => True) :
    Safe (s.read outcome counts call r) := by
  have hPlanOf : planOf s.call = call.plan := by rw [hCall]; rfl
  have hNoRelease : s.release ≠ none → ∀ j ∈ s.retained, s.Committed j := absurd hRelease
  cases r with
  | failed received => exact h.ended (hPlanOf.trans hGuard) hNoRelease
  | handedBack =>
    refine ⟨h.accounted (fun _ => id) (fun _ => .inl) (fun _ => mem_append_left _) ?_ ?_, ?_,
      absurd hRelease, ?_⟩
    · exact fun _ hOut => .inr (.inl hOut)
    · rw [hPlanOf.trans hGuard]
      exact fun _ hNone => absurd hNone not_mem_nil
    · intro before i after hPlan hMem j hJ hLess
      exact (h.running before i after hPlan hMem j hJ hLess).imp_left (mem_append_left _)
    · refine .snoc h.ordered fun hMem => ?_
      exact absurd (hOrder.emptied _ hMem) (lt_irrefl _)
  | drained =>
    rw [State.read]
    split
    next hEmpty =>
      have hNone : call.plan = [] := isEmpty_iff.mp hEmpty
      refine h.ended (hPlanOf.trans hNone) fun hSome => ?_
      rcases hGuard hNone with hHeld | hIdle
      · exact absurd (by rw [hHeld]; rfl) hSome
      · exact h.committed_of_idle hIdle (hPlanOf.trans hNone)
    next => exact h.delivered hOrder hCall hRelease fun _ => .inl
  | emptied emptied =>
    rw [State.read]
    split_ifs with hIdle
    · have hNone : call.plan = [] := hGuard.resolve_right fun hBusy => hBusy hIdle
      refine h.grow hOrder rfl rfl (fun _ => .inl) old_or_new h.place fun _ => ?_
      exact h.committed_of_idle hIdle (hPlanOf.trans hNone)
    · exact h.grow hOrder rfl rfl (fun _ => .inl) old_or_new h.place hNoRelease
  | kept count last =>
    rw [State.read]
    split
    next => exact h.delivered hOrder hCall hRelease old_or_new
    next =>
      refine h.grow hOrder rfl rfl old_or_new (fun _ => .inl)
        (h.accounted (fun _ => id) ?_ (fun _ => id) ?_ ?_)
        fun hSome => absurd hRelease hSome
      · exact fun j hJ => (mem_append.mp hJ).imp_right fun hLast =>
          .inr (.inr (mem_append_right _ hLast))
      · exact fun _ hOut => .inr (.inl hOut)
      · rw [hPlanOf]
        exact fun j hKept => .inr (.inr (mem_append_left _ (mem_append_left _ hKept)))

end Read

section Commits
variable {s : State}

variable {batch : Nat}

/-- The receiving side runs a commit only when all retained batches are
committed, so it can run any of them. -/
theorem released_safe (h : Safe s) (hRelease : s.release ≠ none) {result : CommitResult}
    {call : Option Call} {release : Option Release} {held : Held} :
    Safe { s with log := s.log ++ [(batch, result)], call := call, release := release, held :=
      held } := by
  have hAll : ∀ j ∈ s.retained, (j, .ok ()) ∈ s.log ++ [(batch, result)] :=
    fun j hJ => mem_append_left _ (h.release hRelease j hJ)
  obtain ⟨lost, hCount, -⟩ := h.place
  refine ⟨⟨lost, hCount, fun j hJ => .inl (hAll j hJ)⟩, fun _ _ _ _ _ j hJ _ => .inl (hAll j hJ),
    fun _ => hAll, ?_⟩
  exact .snoc h.ordered fun _ j hJ _ => h.release hRelease j hJ

/-- A handed-out commit starts. Either it carries no held commit, or it is
the oldest delivery and nothing is lost: then what it has to wait for is
committed or comes before it in its own plan. -/
theorem called_safe (hOrder : InOrder s) (h : Safe s) {skip : Nat} {delivery : Delivery}
    {rest : List Delivery} (hRunning : s.running = none)
    (hDrop : s.waiting.drop skip = delivery :: rest)
    (hGuard : (∀ i ∈ delivery.plan, i ∉ s.emptied) ∨ (skip = 0 ∧ s.inFlight = s.waiting.length)) :
    Safe { s with waiting := rest, running := some delivery.plan } := by
  obtain ⟨lost, hCount, hPlace⟩ := h.place
  have hLen : s.waiting.length - skip = rest.length + 1 := by
    rw [← length_drop, hDrop, length_cons]
  rw [hRunning] at hCount
  simp only [toList_none, length_nil] at hCount
  refine ⟨⟨lost + skip, ?_, fun j hJ => ?_⟩, ?_, h.release, h.ordered⟩
  · simp only [toList_some, length_singleton]
    omega
  · rcases hPlace j hJ with hDone | hLost | hOut | hKept
    · exact .inl hDone
    · exact .inr (.inl (Nat.add_pos_left hLost skip))
    · by_cases hSkip : skip = 0
      · subst hSkip
        rw [drop_zero] at hDrop
        rw [State.handedOut, hRunning, hDrop] at hOut
        exact .inr (.inr (.inl hOut))
      · exact .inr (.inl (Nat.add_pos_right lost (Nat.pos_of_ne_zero hSkip)))
    · exact .inr (.inr (.inr hKept))
  · intro before i after hPlan hMem j hJ hLess
    have hSplit : delivery.plan = before ++ i :: after := some.inj hPlan
    rcases hGuard with hNone | ⟨rfl, hFirst⟩
    · refine absurd hMem (hNone i ?_)
      rw [hSplit]
      exact mem_append_right _ (mem_cons_self ..)
    · rw [drop_zero] at hDrop
      have hSorted := hOrder.sorted
      rw [State.queue, State.handedOut, hRunning, hDrop, flatMap_cons, hSplit] at hSorted
      simp only [getD_none, nil_append, append_assoc, cons_append] at hSorted
      -- What comes after the commit of an emptied batch has a larger number.
      have hAfter := (pairwise_cons.mp (pairwise_append.mp hSorted).2.1).1
      rcases hPlace j hJ with hDone | hLost | hOut | hKept
      · exact .inl hDone
      · omega
      · rw [State.handedOut, hRunning, hDrop, flatMap_cons, hSplit] at hOut
        simp only [getD_none, nil_append, append_assoc, cons_append, mem_append, mem_cons] at hOut
        rcases hOut with hBefore | rfl | hLater | hLater
        · exact .inr hBefore
        · exact absurd hLess (lt_irrefl _)
        · exact absurd hLess (Nat.not_lt_of_lt (hAfter j (by simp [hLater])))
        · exact absurd hLess (Nat.not_lt_of_lt (hAfter j (by
            simp only [mem_append]
            exact .inr (.inl hLater))))
      · exact absurd hLess (Nat.not_lt_of_lt (hAfter j (by simp [hKept])))

variable (h : Safe s)

include h

/-- A delivery that is called with the wrong number of dispositions is lost. -/
theorem refused_safe {skip : Nat} {delivery : Delivery} {rest : List Delivery}
    (hRunning : s.running = none) (hDrop : s.waiting.drop skip = delivery :: rest) :
    Safe { s with waiting := rest } := by
  obtain ⟨lost, hCount, -⟩ := h.place
  have hLen : s.waiting.length - skip = rest.length + 1 := by
    rw [← length_drop, hDrop, length_cons]
  refine { h with place := ⟨lost + skip + 1, ?_, fun j hJ => .inr (.inl (Nat.succ_pos _))⟩ }
  simp only [hRunning] at hCount ⊢
  omega

/-- A handed-out commit that fails or is dropped stays counted. -/
theorem aborted_safe {plan : List Nat} (hRunning : s.running = some plan) :
    Safe { s with running := none } := by
  obtain ⟨lost, hCount, -⟩ := h.place
  refine ⟨⟨lost + 1, ?_, fun j hJ => .inr (.inl (Nat.succ_pos _))⟩, ?_, h.release, h.ordered⟩
  · simp only [hRunning, toList_some, length_singleton, toList_none, length_nil] at hCount ⊢
    omega
  · intro before i after hPlan
    cases hPlan

/-- The next inner commit of the handed-out commit under way has run. -/
theorem logged_safe {rest : List Nat}
    (hRunning : s.running = some (batch :: rest)) (result : CommitResult) :
    Safe { s with log := s.log ++ [(batch, result)] } := by
  obtain ⟨lost, hCount, hPlace⟩ := h.place
  refine ⟨⟨lost, hCount, fun j hJ => (hPlace j hJ).imp_left (mem_append_left _)⟩, ?_, ?_, ?_⟩
  · intro before i after hPlan hMem j hJ hLess
    exact (h.running before i after hPlan hMem j hJ hLess).imp_left (mem_append_left _)
  · exact fun hSome j hJ => mem_append_left _ (h.release hSome j hJ)
  · refine .snoc h.ordered fun hMem j hJ hLess => ?_
    rcases h.running [] batch rest hRunning hMem j hJ hLess with hDone | hNone
    · exact hDone
    · cases hNone

theorem advanced_safe {rest : List Nat}
    (hRunning : s.running = some (batch :: rest)) (hDone : s.Committed batch) :
    Safe { s with running := some rest } := by
  refine { h with
    place := h.accounted ?_ (fun _ => .inl) (fun _ => id) ?_ fun _ hKept => .inr (.inr hKept)
    running := ?_ }
  · rw [hRunning]
    exact fun _ => id
  · rw [State.handedOut, hRunning]
    intro j hOut
    rcases mem_cons.mp hOut with rfl | hLater
    · exact .inl hDone
    · exact .inr (.inl hLater)
  · intro before i after hPlan hMem j hJ hLess
    have hWhole : s.running = some ((batch :: before) ++ i :: after) := by
      rw [hRunning, some.inj hPlan]
      rfl
    rcases h.running (batch :: before) i after hWhole hMem j hJ hLess with hBefore | hEarlier
    · exact .inl hBefore
    · rcases mem_cons.mp hEarlier with rfl | hIn
      · exact .inl hDone
      · exact .inr hIn

/-- A handed-out commit that has run all its inner commits is settled. -/
theorem settled_safe (hRunning : s.running = some []) :
    Safe { s with running := none, inFlight := s.inFlight - 1 } := by
  refine { h with
    place := h.accounted ?_ (fun _ => .inl) (fun _ => id) ?_ fun _ hKept => .inr (.inr hKept)
    running := fun _ _ _ hPlan => by cases hPlan }
  · intro lost hCount
    simp only [hRunning, toList_some, length_singleton, toList_none, length_nil] at hCount ⊢
    omega
  · rw [State.handedOut, hRunning]
    exact fun _ hOut => .inr (.inl hOut)

end Commits

variable {outcome : Nat → CommitResult}

section Steps
variable {Answer : Type} {c : Consumer Answer} {s t : State}

/-- A held commit runs on the receiving side; those after a failed one are kept. -/
theorem release_safe (hOrder : InOrder s) (h : Safe s)
    (hStep : step c outcome s .release = some t) : InOrder t ∧ Safe t := by
  rw [step] at hStep
  split at hStep
  next batch emptied rest requeue hRelease =>
    have hBatch : batch ∈ s.queue := by simp [State.queue, hRelease]
    have hLogged := hOrder.logged_snoc hBatch (outcome batch)
    have hReleased : s.release ≠ none := hRelease ▸ some_ne_none _
    split at hStep <;> cases hStep
    · refine ⟨hOrder.shrink ?_ hLogged, released_safe h hReleased⟩
      simp [State.queue, State.handedOut, hRelease]
    · have hKept : ((if requeue then rest else s.held).map Prod.fst).Sublist
          (planOf s.call ++ batch :: (rest.map Prod.fst ++ s.held.map Prod.fst)) := by
        refine .trans (.cons batch ?_) (sublist_append_right _ _)
        cases requeue with
        | false => exact sublist_append_right _ _
        | true => exact sublist_append_left _ _
      refine ⟨hOrder.shrink ?_ hLogged, released_safe h hReleased⟩
      simpa [State.queue, State.handedOut, hRelease] using hKept
  next => cases hStep

/-- A handed-out commit is called, whatever it is called with. -/
theorem call_safe {skip : Nat} {dispositions : Nat} (hOrder : InOrder s) (h : Safe s)
    (hGuard : KeepsBack c s (.call skip dispositions))
    (hStep : step c outcome s (.call skip dispositions) = some t) : InOrder t ∧ Safe t := by
  rw [step] at hStep
  split at hStep
  next delivery rest hRunning hDrop =>
    have hSuffix : (delivery :: rest).Sublist s.waiting := hDrop ▸ drop_sublist skip _
    have hPlans := hSuffix.flatMap Delivery.plan
    split_ifs at hStep <;> cases hStep
    · refine ⟨hOrder.shrink ?_ hOrder.logged,
        called_safe hOrder h hRunning hDrop (hGuard delivery rest hDrop)⟩
      simp only [State.queue, State.handedOut, hRunning]
      exact hPlans.append (.refl _)
    · refine ⟨hOrder.shrink ?_ hOrder.logged, refused_safe h hRunning hDrop⟩
      simp only [State.queue, State.handedOut, hRunning]
      exact ((sublist_append_right _ _).trans hPlans).append (.refl _)
  next => cases hStep

/-- The commit under way runs its next inner commit. -/
theorem commit_safe (hOrder : InOrder s) (h : Safe s)
    (hStep : step c outcome s .commit = some t) : InOrder t ∧ Safe t := by
  rw [step] at hStep
  split at hStep
  next batch rest hRunning =>
    have hBatch : batch ∈ s.queue := by simp [State.queue, State.handedOut, hRunning]
    have hSafe := logged_safe h hRunning (outcome batch)
    have hDone : outcome batch = .ok () →
        State.Committed { s with log := s.log ++ [(batch, outcome batch)] } batch := by
      intro hOk
      rw [hOk]
      exact mem_concat_self
    dsimp only at hStep
    split at hStep
    next hOk =>
      have hAdvanced := advanced_safe hSafe hRunning (hDone hOk)
      split_ifs at hStep with hLast <;> cases hStep
      · cases isEmpty_iff.mp hLast
        refine ⟨hOrder.shrink ?_ (hOrder.logged_snoc hBatch _), settled_safe hAdvanced rfl⟩
        simp [State.queue, State.handedOut]
      · refine ⟨hOrder.shrink ?_ (hOrder.logged_snoc hBatch _), hAdvanced⟩
        simp [State.queue, State.handedOut, hRunning]
    next =>
      cases hStep
      refine ⟨hOrder.shrink ?_ (hOrder.logged_snoc hBatch _), aborted_safe hSafe hRunning⟩
      simp [State.queue, State.handedOut]
  next => cases hStep

theorem step_safe {a : Action Answer} (hOrder : InOrder s) (h : Safe s) (hGuard : KeepsBack c s a)
    (hStep : step c outcome s a = some t) : InOrder t ∧ Safe t := by
  cases a with
  | receive maxMessages =>
    rw [step] at hStep
    split at hStep
    next hCall hRelease =>
      cases hStep
      refine ⟨hOrder.shrink ?_ hOrder.logged, h.ended (by rw [hCall]; rfl) fun hSome =>
        absurd hRelease hSome⟩
      simp [State.queue, State.handedOut]
    next => cases hStep
  | read answer =>
    rw [step] at hStep
    split at hStep
    next call hCall hRelease =>
      cases hStep
      exact ⟨read_inOrder hOrder hCall hRelease outcome _ _,
        read_safe hOrder h hCall hRelease outcome _ (hGuard call hCall)⟩
    next => cases hStep
  | release => exact release_safe hOrder h hStep
  | cancel =>
    rw [step] at hStep
    split at hStep
    next release hRelease =>
      cases hStep
      refine ⟨hOrder.shrink ?_ hOrder.logged, h.ended hGuard fun hSome => absurd rfl hSome⟩
      cases hRequeue : release.requeue with
      | false | true => simp [State.queue, State.handedOut, hRelease]
    next hRelease =>
      split_ifs at hStep
      cases hStep
      refine ⟨hOrder.shrink ?_ hOrder.logged, h.ended hGuard fun hSome => absurd hRelease hSome⟩
      simp [State.queue, State.handedOut]
  | disconnectHook =>
    rw [step] at hStep
    split at hStep
    next hCall hRelease =>
      cases hStep
      refine ⟨hOrder.shrink ?_ hOrder.logged, { h with release := fun hSome => ?_ }⟩
      · simp [State.queue, State.handedOut]
      · rcases hGuard with hHeld | hIdle
        · exact absurd (by rw [hHeld]; rfl) hSome
        · exact h.committed_of_idle hIdle (by rw [hCall]; rfl)
    next => cases hStep
  | call skip dispositions => exact call_safe hOrder h hGuard hStep
  | commit => exact commit_safe hOrder h hStep
  | abort =>
    rw [step] at hStep
    split_ifs at hStep with hSome
    cases hStep
    obtain ⟨plan, hRunning⟩ := isSome_iff_exists.mp hSome
    refine ⟨hOrder.shrink ?_ hOrder.logged, aborted_safe h hRunning⟩
    simp [State.queue, State.handedOut]

end Steps

/-- In every run that keeps held commits back where the middlewares do not
check it themselves, they stay behind the retained batches before them. -/
theorem run_commitsInOrder {Answer : Type} {c : Consumer Answer} {s : State}
    {actions : List (Action Answer)}
    (hGuarded : Machine.Guarded (step c outcome) (KeepsBack c) initial actions)
    (hRun : run (step c outcome) initial actions = some s) : CommitsInOrder s := by
  have hKeeps : ∀ s a t, InOrder s ∧ Safe s → KeepsBack c s a → step c outcome s a = some t →
      InOrder t ∧ Safe t :=
    fun s a t h => step_safe h.1 h.2
  exact (invariant_of_guarded hKeeps ⟨initial_inOrder, initial_safe⟩ hGuarded hRun).2.ordered

/-- For both middlewares, and whatever the inner commits return: in a run
that keeps held commits back, the inner commit of an emptied batch runs only
after those of all retained batches received before it have succeeded. -/
theorem emptied_commits_wait (outcome : Nat → CommitResult) :
    (∀ actions s, run (step Deduplication.consumer outcome) initial actions = some s →
      Machine.Guarded (step Deduplication.consumer outcome) (KeepsBack Deduplication.consumer)
        initial actions → CommitsInOrder s) ∧
    ∀ onError actions s,
      run (step (Filter.consumer onError) outcome) initial actions = some s →
      Machine.Guarded (step (Filter.consumer onError) outcome)
        (KeepsBack (Filter.consumer onError)) initial actions → CommitsInOrder s :=
  ⟨fun _ _ hRun hGuarded => run_commitsInOrder hGuarded hRun,
    fun _ _ _ hRun hGuarded => run_commitsInOrder hGuarded hRun⟩

/-- A duplicate that arrives while a delivery is in flight waits for it, and so does a
message that the filter drops. -/
theorem emptied_commits_wait_duplicate : let outcome : Nat → CommitResult := fun _ => .ok ()
    let actions : List (Action Deduplication.Answer) := [.receive 5, .read (.batch true [none]),
      .receive 5, .read (.batch true [some .ack]), .call 0 1, .commit,
      .read (.batch true [some .ack]), .release, .release]
    let filtered : List (Action Filter.Answer) := [.receive 1, .read (.batch [.ok true]),
      .receive 1, .read (.batch [.ok false]), .call 0 1, .commit, .read (.batch [.ok false]),
      .release, .release]
    (∃ s, run (step Deduplication.consumer outcome) initial actions = some s ∧
      s.log = [(0, .ok ()), (1, .ok ()), (2, .ok ())] ∧ CommitsInOrder s) ∧
    ∃ s, run (step (Filter.consumer .fail) outcome) initial filtered = some s ∧
      s.log = [(0, .ok ()), (1, .ok ()), (2, .ok ())] ∧ CommitsInOrder s := by
  intro outcome actions filtered
  have hGuarded : Machine.Guarded (step Deduplication.consumer outcome)
      (KeepsBack Deduplication.consumer) initial actions := by
    refine ⟨trivial, fun _ hStep => ?_⟩
    cases hStep
    refine ⟨fun _ _ => trivial, fun _ hStep => ?_⟩
    cases hStep
    refine ⟨trivial, fun _ hStep => ?_⟩
    cases hStep
    refine ⟨fun _ _ => .inr (Nat.succ_ne_zero 0), fun _ hStep => ?_⟩
    cases hStep
    refine ⟨fun _ _ _ => .inr ⟨rfl, rfl⟩, fun _ hStep => ?_⟩
    cases hStep
    refine ⟨trivial, fun _ hStep => ?_⟩
    cases hStep
    refine ⟨fun _ hCall => .inl (by cases hCall; rfl), fun _ hStep => ?_⟩
    exact ⟨trivial, fun _ _ => ⟨trivial, fun _ _ => trivial⟩⟩
  have hFiltered : Machine.Guarded (step (Filter.consumer .fail) outcome)
      (KeepsBack (Filter.consumer .fail)) initial filtered := by
    refine ⟨trivial, fun _ hStep => ?_⟩
    cases hStep
    refine ⟨fun _ hCall => by cases hCall; trivial, fun _ hStep => ?_⟩
    cases hStep
    refine ⟨trivial, fun _ hStep => ?_⟩
    cases hStep
    refine ⟨fun _ hCall => by cases hCall; exact .inr (Nat.succ_ne_zero 0), fun _ hStep => ?_⟩
    cases hStep
    refine ⟨fun _ _ _ => .inr ⟨rfl, rfl⟩, fun _ hStep => ?_⟩
    cases hStep
    refine ⟨trivial, fun _ hStep => ?_⟩
    cases hStep
    refine ⟨fun _ hCall => by cases hCall; exact .inl rfl, fun _ hStep => ?_⟩
    exact ⟨trivial, fun _ _ => ⟨trivial, fun _ _ => trivial⟩⟩
  constructor
  · refine exists_run (fun s => s.log = [(0, .ok ()), (1, .ok ()), (2, .ok ())]) (by decide)
      fun s hRun hLog => ?_
    exact ⟨hLog, (emptied_commits_wait outcome).1 actions s hRun hGuarded⟩
  · refine exists_run (fun s => s.log = [(0, .ok ()), (1, .ok ()), (2, .ok ())]) (by decide)
      fun s hRun hLog => ?_
    exact ⟨hLog, (emptied_commits_wait outcome).2 .fail filtered s hRun hFiltered⟩

/-- The deduplication is drained while batch 0 is uncommitted, and flushes the
duplicates of batch 1. The filter has kept a message of batch 0 in the same
call, and commits batch 1, which it drops, at once. -/
theorem emptied_commits_overtake : let outcome : Nat → CommitResult := fun _ => .ok ()
    (∃ s, run (step Deduplication.consumer outcome) initial
      [.receive 5, .read (.batch true [none]), .receive 5, .read (.batch true [some .ack]),
        .read (.batch true []), .release] = some s ∧ ¬CommitsInOrder s) ∧
    ∃ s, run (step (Filter.consumer .fail) outcome) initial
      [.receive 2, .read (.batch [.ok true, .ok false]), .read (.batch [.ok false]),
        .release] = some s ∧ ¬CommitsInOrder s := by
  intro outcome
  have hViolated : ∀ s : State, s.retained = [0] ∧ s.emptied = [1] ∧ s.log = [(1, .ok ())] →
      ¬CommitsInOrder s := by
    rintro s ⟨hRetained, hEmptied, hLog⟩ hOrdered
    have hFirst := hOrdered [] (1, .ok ()) [] hLog (by rw [hEmptied]; decide) 0
      (by rw [hRetained]; decide) (by decide)
    cases hFirst
  constructor
  · exact exists_run _ (by decide) fun s _ => hViolated s
  · exact exists_run _ (by decide) fun s _ => hViolated s

end MqBridge.Deferred
