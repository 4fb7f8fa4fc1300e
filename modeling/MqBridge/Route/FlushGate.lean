import Mathlib.Logic.Function.Basic
import MqBridge.Collections.Places
import MqBridge.Route.Sequencer

/-! The flush gate: a batch commit waits for a flush of the output that began
after the batch was sent. One task owns the gate; the wrapped commits talk to
it over an unbounded queue and wait on a one-shot channel for their go.

The environment decides when `send_batch` returns, when commits are called,
when the interval elapses, whether the reader is starved, and how each flush
ends. A flush that succeeds makes durable exactly the batches whose
`send_batch` had returned when it began. -/
namespace MqBridge.Route.FlushGate

open List Option Machine Function

/-- The `go` of a hold is named by its batch. -/
inductive GateEvent where
  | hold (batch : Nat) (urgent : Bool)
  /-- The source returned an empty batch. -/
  | nudge
  /-- The route is winding down cleanly. -/
  | close
  /-- The route failed. -/
  | abandon
  | shutdown
  deriving DecidableEq

def unflushed : String :=
  "the route stopped before the output was flushed; the batch stays uncommitted for redelivery"

def flushFailure (error : String) : String :=
  "flushing the output failed, the batch stays uncommitted for redelivery: " ++ error

inductive CommitState where
  | uncalled
  /-- Waits for its go. -/
  | waiting (dispositions : Dispositions)
  /-- About to call the inner commit. -/
  | cleared (dispositions : Dispositions)
  /-- Returned the error that nothing was flushed. -/
  | denied (reason : String)
  /-- Has called the inner commit. -/
  | ran (dispositions : Dispositions)
  deriving DecidableEq

inductive Phase where
  /-- In the `select!` of the loop. -/
  | selecting
  /-- A flush runs for the commits `released`. It covers the batches in
  `written`; `last` tells the flush of the shutdown from the others. -/
  | flushing (released written : List Nat) (last : Bool)
  | ended
  deriving DecidableEq

/-- `returned` batches are written, `durable` ones flushed. -/
structure State where
  held : List Nat
  closing : Bool
  failed : Option String
  phase : Phase
  queue : List GateEvent
  commits : Nat → CommitState
  sequencerClosed : Bool
  returned : List Nat
  durable : List Nat

def initial : State :=
  ⟨[], false, none, .selecting, [], fun _ => .uncalled, false, [], []⟩

/-- Nothing was written that a flush would have to make durable. -/
def allNack (dispositions : Dispositions) : Bool :=
  dispositions.all fun d => decide (d = .nack)

def urgent (dispositions : Dispositions) : Bool :=
  dispositions.any fun d => decide (d ≠ .ack)

def State.setCommit (s : State) (batch : Nat) (commit : CommitState) : State :=
  { s with commits := update s.commits batch commit }

def State.answer (s : State) (gos : List Nat) (reply : Dispositions → CommitState) : State :=
  { s with commits := fun batch =>
      if batch ∈ gos then
        match s.commits batch with
        | .waiting dispositions => reply dispositions
        | other => other
      else s.commits batch }

/-- Fails every held commit and closes the sequencer if there is any. The
first reason stays. -/
def State.fail (s : State) (reason : String) : State :=
  { s.answer s.held fun _ => .denied reason with
    sequencerClosed := s.sequencerClosed || !s.held.isEmpty
    held := []
    failed := s.failed.or (some reason) }

/-- The first half of `flush`: take what is held and ask the publisher. -/
def State.beginFlush (s : State) (last : Bool) : State :=
  { s with held := [], phase := .flushing s.held s.returned last }

def queuedHolds (queue : List GateEvent) : List Nat :=
  queue.filterMap fun
    | .hold batch _ => some batch
    | _ => none

/-- The end of the task drops its queue, and with it the `go` of each hold. -/
def State.finish (s : State) : State :=
  { (s.fail unflushed).answer (queuedHolds s.queue) fun _ => .denied unflushed with
    queue := []
    phase := .ended }

/-- What is held is flushed once more. -/
def State.windDown (s : State) : State :=
  if s.failed.isNone && !s.held.isEmpty then s.beginFlush true else s.finish

def State.flushIfHeld (s : State) : State :=
  if s.held.isEmpty then s else s.beginFlush false

def State.hold (maxHeld : Nat) (s : State) (batch : Nat) (urgent starved : Bool) : State :=
  match s.failed with
  | some reason =>
    { s.answer [batch] fun _ => .denied reason with sequencerClosed := true }
  | none =>
    let s := { s with held := s.held ++ [batch] }
    if urgent || s.closing || decide (max maxHeld 1 ≤ s.held.length) || starved then
      s.beginFlush false
    else s

def State.receive (maxHeld : Nat) (s : State) (starved : Bool) : GateEvent → State
  | .hold batch urgent => s.hold maxHeld batch urgent starved
  | .nudge => s.flushIfHeld
  | .close => State.flushIfHeld { s with closing := true }
  | .abandon => s.fail unflushed
  | .shutdown => s.windDown

/-- What follows a flush: the next round, or the end of the task. -/
def State.afterFlush (s : State) (last : Bool) : State :=
  if last then s.finish else { s with phase := .selecting }

inductive Action where
  | sendReturned (batch : Nat)
  /-- The caller runs the wrapped commit of a batch. -/
  | call (batch : Nat) (dispositions : Dispositions)
  /-- `nudge`, `close`, `abandon` or `shutdown` of the gate. -/
  | post (event : GateEvent)
  /-- The task takes an event; `starved` is what `reader_starved` would say. -/
  | recv (starved : Bool)
  /-- Every sender of the queue is gone. -/
  | hangUp
  | tick
  | flushed
  | flushFailed (error : String)
  /-- A cleared commit calls the inner commit. -/
  | runInner (batch : Nat)
  deriving DecidableEq

/-- `FlushGate::hold` up to its wait. A commit is called once, and only an
all-nack one without a `send_batch` that returned. -/
def State.call (s : State) (batch : Nat) (dispositions : Dispositions) : Option State :=
  match s.commits batch with
  | .uncalled =>
    if allNack dispositions then
      some (s.setCommit batch (.cleared dispositions))
    else if batch ∈ s.returned then
      if s.phase = .ended then
        some (s.setCommit batch (.denied unflushed))
      else
        some { s.setCommit batch (.waiting dispositions) with
          queue := s.queue ++ [.hold batch (urgent dispositions)] }
    else none
  | _ => none

/-- Holds enter the queue with the commit they belong to. -/
def GateEvent.isHold : GateEvent → Bool
  | .hold _ _ => true
  | .nudge | .close | .abandon | .shutdown => false

/-- Callers and the task of the gate take turns. -/
def step (maxHeld : Nat) (s : State) : Action → Option State
  | .sendReturned batch =>
    if batch ∈ s.returned then none else some { s with returned := s.returned ++ [batch] }
  | .call batch dispositions => s.call batch dispositions
  | .post event =>
    if event.isHold || decide (s.phase = .ended) then none
    else some { s with queue := s.queue ++ [event] }
  | .recv starved =>
    match s.phase, s.queue with
    | .selecting, event :: rest =>
      some (State.receive maxHeld { s with queue := rest } starved event)
    | _, _ => none
  | .hangUp =>
    match s.phase, s.queue with
    | .selecting, [] => some s.windDown
    | _, _ => none
  | .tick =>
    match s.phase with
    | .selecting => some s.flushIfHeld
    | _ => none
  | .flushed =>
    match s.phase with
    | .flushing released written last =>
      some (State.afterFlush
        { s.answer released .cleared with durable := s.durable ++ written } last)
    | _ => none
  | .flushFailed error =>
    match s.phase with
    | .flushing released _ last =>
      some (State.afterFlush (State.fail { s with held := released } (flushFailure error)) last)
    | _ => none
  | .runInner batch =>
    match s.commits batch with
    | .cleared dispositions =>
      some (s.setCommit batch (.ran dispositions))
    | _ => none

/-! ### Which commits get through -/

/-- A commit with something to make durable that has its go. -/
def CommitState.passed : CommitState → Bool
  | .cleared dispositions | .ran dispositions => !allNack dispositions
  | .uncalled | .waiting _ | .denied _ => false

/-- A commit the gate has no more say in. -/
def CommitState.final : CommitState → Bool
  | .denied _ | .ran _ => true
  | .uncalled | .waiting _ | .cleared _ => false

/-- A move that gives nobody a go: nobody passes who did not, nothing becomes
durable, and a failure stays. -/
structure Quiet (s t : State) : Prop where
  passed : ∀ batch, (t.commits batch).passed = true → (s.commits batch).passed = true
  final : ∀ batch, (s.commits batch).final = true → t.commits batch = s.commits batch
  durable : t.durable = s.durable
  failed : s.failed ≠ none → t.failed ≠ none

/-- A batch at the gate was sent, a failed gate holds nothing, and a flush
only runs on a gate that has not failed, for commits it covers. -/
structure Tidy (s : State) : Prop where
  held : ∀ batch ∈ s.held, batch ∈ s.returned
  queued : ∀ batch ∈ queuedHolds s.queue, batch ∈ s.returned
  failed : s.failed ≠ none → s.held = []
  flushing : ∀ released written last, s.phase = .flushing released written last →
    s.failed = none ∧ ∀ batch ∈ released, batch ∈ written

theorem Quiet.refl (s : State) : Quiet s s := ⟨fun _ => id, fun _ _ => rfl, rfl, id⟩

theorem Quiet.trans {s t u : State} (hFirst : Quiet s t) (hSecond : Quiet t u) : Quiet s u where
  passed := fun batch hPassed => hFirst.passed batch (hSecond.passed batch hPassed)
  final := by
    intro batch hFinal
    have hSame := hFirst.final batch hFinal
    rw [← hSame] at hFinal ⊢
    exact hSecond.final batch hFinal
  durable := hSecond.durable.trans hFirst.durable
  failed := fun hFailed => hSecond.failed (hFirst.failed hFailed)

theorem answer_denied_passed (s : State) (gos : List Nat) (reason : String) (batch : Nat)
    (hPassed : ((s.answer gos fun _ => .denied reason).commits batch).passed = true) :
    (s.commits batch).passed = true := by
  simp only [State.answer] at hPassed
  split_ifs at hPassed
  · cases hState : s.commits batch with rw [hState] at hPassed
    | uncalled | cleared | denied | ran => exact hPassed
    | waiting => cases hPassed
  · exact hPassed

theorem answer_final (s : State) (gos : List Nat) (reply : Dispositions → CommitState) (batch : Nat)
    (hFinal : (s.commits batch).final = true) :
    (s.answer gos reply).commits batch = s.commits batch := by
  simp only [State.answer]
  split_ifs
  · cases hState : s.commits batch with
    | uncalled | cleared | denied | ran => rfl
    | waiting dispositions =>
      rw [hState] at hFinal
      cases hFinal
  · rfl

variable {s : State}

theorem setCommit_final {other : Nat} (hOpen : (s.commits other).final = false)
    (commit : CommitState) (batch : Nat) (hFinal : (s.commits batch).final = true) :
    (s.setCommit other commit).commits batch = s.commits batch := by
  refine update_of_ne ?_ commit s.commits
  rintro rfl
  rw [hOpen] at hFinal
  cases hFinal

theorem setCommit_passed {other : Nat} {commit : CommitState}
    (hSame : commit.passed = true → (s.commits other).passed = true) (batch : Nat)
    (hPassed : ((s.setCommit other commit).commits batch).passed = true) :
    (s.commits batch).passed = true := by
  change (update s.commits other commit batch).passed = _ at hPassed
  by_cases hBatch : batch = other
  · rw [hBatch, update_self] at hPassed
    exact hBatch ▸ hSame hPassed
  · rwa [update_of_ne hBatch] at hPassed

theorem fail_failed (s : State) (reason : String) : (s.fail reason).failed ≠ none := by
  cases hFailed : s.failed <;> simp [State.fail]

section Operations
variable (s : State)

theorem fail_quiet (reason : String) : Quiet s (s.fail reason) where
  passed := answer_denied_passed s s.held reason
  final := answer_final s s.held _
  durable := rfl
  failed := fun _ => fail_failed s reason

theorem finish_quiet : Quiet s s.finish where
  passed := fun batch hPassed =>
    (fail_quiet s unflushed).passed batch
      (answer_denied_passed (s.fail unflushed) _ _ batch hPassed)
  final := by
    intro batch hFinal
    have hFail := (fail_quiet s unflushed).final batch hFinal
    rw [← hFail] at hFinal ⊢
    exact answer_final (s.fail unflushed) _ _ batch hFinal
  durable := rfl
  failed := fun _ => fail_failed s unflushed

theorem finish_tidy : Tidy s.finish where
  held := nofun
  queued := nofun
  failed := fun _ => rfl
  flushing := fun _ _ _ hFlushing => Phase.noConfusion hFlushing

/-- What gives nobody a go and leaves the gate in order. -/
def Moves (s t : State) : Prop := Quiet s t ∧ (Tidy s → Tidy t)

variable {s} in
theorem beginFlush_moves (hFailed : Tidy s → s.failed = none) (last : Bool) :
    Moves s (s.beginFlush last) := by
  refine ⟨{ Quiet.refl s with }, fun h =>
    { h with held := nofun, failed := fun _ => rfl, flushing := ?_ }⟩
  intro released written last' hFlushing
  cases hFlushing
  exact ⟨hFailed h, h.held⟩

theorem windDown_moves : Moves s s.windDown := by
  rw [State.windDown]
  split_ifs with hFlush
  · rw [Bool.and_eq_true, isNone_iff_eq_none] at hFlush
    exact beginFlush_moves (fun _ => hFlush.1) true
  · exact ⟨finish_quiet s, fun _ => finish_tidy s⟩

/-- A gate that holds something has not failed. -/
theorem flushIfHeld_moves : Moves s s.flushIfHeld := by
  rw [State.flushIfHeld]
  split_ifs with hEmpty
  · exact ⟨.refl s, id⟩
  · refine beginFlush_moves (fun h => ?_) false
    by_contra hFailed
    exact hEmpty (isEmpty_iff.mpr (h.failed hFailed))

theorem hold_moves (maxHeld batch : Nat) (urgent starved : Bool) :
    Quiet s (s.hold maxHeld batch urgent starved) ∧
    (Tidy s → batch ∈ s.returned → Tidy (s.hold maxHeld batch urgent starved)) := by
  rw [State.hold]
  split
  next reason hFailed =>
    exact ⟨⟨answer_denied_passed s [batch] _, answer_final s [batch] _, rfl, id⟩, fun h _ =>
      { h with }⟩
  next hFailed =>
    have hPushed (h : Tidy s) (hBatch : batch ∈ s.returned) :
        Tidy { s with held := s.held ++ [batch] } :=
      ⟨Places.forall_mem_snoc h.held hBatch, h.queued, absurd hFailed, h.flushing⟩
    dsimp only
    split_ifs
    · have hNot (_ : Tidy { s with held := s.held ++ [batch] }) : s.failed = none := hFailed
      obtain ⟨hQuiet, hTidy⟩ := beginFlush_moves hNot false
      exact ⟨{ hQuiet with }, fun h hBatch => hTidy (hPushed h hBatch)⟩
    · exact ⟨{ Quiet.refl s with }, hPushed⟩

variable {s} in
theorem receive_moves {event : GateEvent} {rest : List GateEvent} (hQueue : s.queue = event :: rest)
    (hPhase : s.phase = .selecting) (maxHeld : Nat) (starved : Bool) :
    Moves s (State.receive maxHeld { s with queue := rest } starved event) := by
  have hRest (h : Tidy s) : Tidy { s with queue := rest } := by
    refine { h with queued := fun batch hBatch => h.queued batch ?_ }
    rw [hQueue]
    rw [queuedHolds, mem_filterMap] at hBatch ⊢
    obtain ⟨other, hOther, hHold⟩ := hBatch
    exact ⟨other, mem_cons_of_mem _ hOther, hHold⟩
  have hMoves {t : State} (h : Moves { s with queue := rest } t) : Moves s t :=
    ⟨{ h.1 with }, fun hTidy => h.2 (hRest hTidy)⟩
  cases event with
  | hold batch urgent =>
    obtain ⟨hQuiet, hTidy⟩ := hold_moves { s with queue := rest } maxHeld batch urgent starved
    refine ⟨{ hQuiet with }, fun h => hTidy (hRest h) (h.queued batch ?_)⟩
    rw [hQueue]
    exact mem_cons_self
  | nudge => exact hMoves (flushIfHeld_moves _)
  | close =>
    obtain ⟨hQuiet, hTidy⟩ := flushIfHeld_moves { s with queue := rest, closing := true }
    exact hMoves ⟨{ hQuiet with }, fun h => hTidy { h with }⟩
  | abandon =>
    refine hMoves ⟨fail_quiet _ unflushed, fun h =>
      { h with held := nofun, failed := fun _ => rfl, flushing := ?_ }⟩
    exact fun _ _ _ hFlushing => Phase.noConfusion (hPhase.symm.trans hFlushing)
  | shutdown => exact hMoves (windDown_moves _)

/-- Back to the loop, or to the end, with a gate that is in order but for
the flush that is over. -/
theorem afterFlush_moves (last : Bool) : Quiet s (s.afterFlush last) ∧
    (Tidy { s with phase := .selecting } → Tidy (s.afterFlush last)) := by
  rw [State.afterFlush]
  split_ifs
  · exact ⟨finish_quiet s, fun _ => finish_tidy s⟩
  · exact ⟨{ Quiet.refl s with }, id⟩

end Operations

section Inversion
variable {maxHeld : Nat} {s t : State} {batch : Nat}

theorem step_recv {starved : Bool} (hStep : step maxHeld s (.recv starved) = some t) :
    ∃ event rest, s.phase = .selecting ∧ s.queue = event :: rest ∧
      t = State.receive maxHeld { s with queue := rest } starved event := by
  rw [step] at hStep
  split at hStep
  next event rest hPhase hQueue => exact ⟨event, rest, hPhase, hQueue, (some.inj hStep).symm⟩
  next => cases hStep

theorem step_flushFailed {error : String} (hStep : step maxHeld s (.flushFailed error) = some t) :
    ∃ released written last, s.phase = .flushing released written last ∧
      t = State.afterFlush
        (State.fail { s with held := released } (flushFailure error)) last := by
  rw [step] at hStep
  split at hStep
  next released written last hPhase =>
    exact ⟨released, written, last, hPhase, (some.inj hStep).symm⟩
  next => cases hStep

theorem step_runInner (hStep : step maxHeld s (.runInner batch) = some t) :
    ∃ dispositions, s.commits batch = .cleared dispositions ∧
      t = s.setCommit batch (.ran dispositions) := by
  rw [step] at hStep
  split at hStep
  next dispositions hCleared => exact ⟨dispositions, hCleared, (some.inj hStep).symm⟩
  next => cases hStep

end Inversion

variable {maxHeld : Nat} {s t : State} {a : Action}

/-- Only the success of a flush gives anybody a go: those it released, and
what it covers becomes durable. -/
structure Move (s : State) (a : Action) (t : State) : Prop where
  passed : ∀ batch, (t.commits batch).passed = true → (s.commits batch).passed = true ∨
    a = .flushed ∧ ∃ released written last, s.phase = .flushing released written last ∧
      batch ∈ released ∧
      written ⊆ t.durable
  final : ∀ batch, (s.commits batch).final = true → t.commits batch = s.commits batch
  durable : s.durable ⊆ t.durable
  failed : s.failed ≠ none → t.failed ≠ none
  tidy : Tidy s → Tidy t

theorem Quiet.move (h : Quiet s t) (hTidy : Tidy s → Tidy t) : Move s a t where
  passed := fun batch hPassed => .inl (h.passed batch hPassed)
  final := h.final
  durable := h.durable ▸ Subset.refl _
  failed := h.failed
  tidy := hTidy

theorem step_moves (hStep : step maxHeld s a = some t) : Move s a t := by
  cases a with
  | sendReturned batch =>
    obtain ⟨-, ⟨⟩⟩ := ite_none_left_eq_some.mp hStep
    refine Quiet.move { Quiet.refl s with } fun h => { h with held := ?_, queued := ?_ }
    · exact fun other hOther => mem_append_left _ (h.held other hOther)
    · exact fun other hOther => mem_append_left _ (h.queued other hOther)
  | call batch dispositions =>
    rw [step, State.call] at hStep
    split at hStep
    next hUncalled =>
      have hOpen : (s.commits batch).final = false := by rw [hUncalled]; rfl
      split_ifs at hStep with hNack hReturned hEnded
      · cases hStep
        refine Quiet.move ⟨setCommit_passed ?_, setCommit_final hOpen _, rfl, id⟩ fun h =>
          { h with }
        rw [CommitState.passed, hNack]
        exact Bool.noConfusion
      · cases hStep
        exact Quiet.move ⟨setCommit_passed Bool.noConfusion, setCommit_final hOpen _, rfl,
          id⟩ fun h => { h with }
      · cases hStep
        refine Quiet.move ⟨setCommit_passed Bool.noConfusion, setCommit_final hOpen _, rfl, id⟩
          fun h => { h with queued := ?_ }
        rw [queuedHolds, filterMap_append]
        exact Places.forall_mem_snoc h.queued hReturned
    next => cases hStep
  | post event =>
    obtain ⟨hRefused, ⟨⟩⟩ := ite_none_left_eq_some.mp hStep
    refine Quiet.move { Quiet.refl s with } fun h =>
      { h with queued := fun other hOther => h.queued other ?_ }
    cases event with
    | hold batch urgent => exact absurd rfl hRefused
    | nudge | close | abandon | shutdown => simpa [queuedHolds] using hOther
  | recv starved =>
    obtain ⟨event, rest, hPhase, hQueue, rfl⟩ := step_recv hStep
    obtain ⟨hQuiet, hTidy⟩ := receive_moves hQueue hPhase maxHeld starved
    exact hQuiet.move hTidy
  | hangUp =>
    rw [step] at hStep
    split at hStep <;> cases hStep
    exact (windDown_moves s).1.move (windDown_moves s).2
  | tick =>
    rw [step] at hStep
    split at hStep <;> cases hStep
    exact (flushIfHeld_moves s).1.move (flushIfHeld_moves s).2
  | flushed =>
    rw [step] at hStep
    split at hStep <;> cases hStep
    next released written last hPhase =>
      obtain ⟨hQuiet, hTidy⟩ := afterFlush_moves
        { s.answer released .cleared with durable := s.durable ++ written } last
      refine ⟨fun batch hPassed => ?_, fun batch hFinal => ?_, ?_, hQuiet.failed, fun h =>
        hTidy { h with flushing := fun _ _ _ hFlushing => Phase.noConfusion hFlushing }⟩
      · have hAnswered := hQuiet.passed batch hPassed
        by_cases hReleased : batch ∈ released
        · exact .inr ⟨rfl, released, written, last, hPhase, hReleased,
            hQuiet.durable ▸ subset_append_right _ _⟩
        · simp only [State.answer, if_neg hReleased] at hAnswered
          exact .inl hAnswered
      · have hAnswer := answer_final s released .cleared batch hFinal
        rw [← hAnswer] at hFinal ⊢
        exact hQuiet.final batch hFinal
      · exact hQuiet.durable ▸ subset_append_left _ _
  | flushFailed error =>
    obtain ⟨released, written, last, -, rfl⟩ := step_flushFailed hStep
    obtain ⟨hQuiet, hTidy⟩ :=
      afterFlush_moves (.fail { s with held := released } (flushFailure error)) last
    have hFail := fail_quiet { s with held := released } (flushFailure error)
    refine Quiet.move (.trans { hFail with } hQuiet) fun h =>
      hTidy { h with held := nofun, failed := fun _ => rfl, flushing := ?_ }
    exact fun _ _ _ => Phase.noConfusion
  | runInner batch =>
    obtain ⟨dispositions, hCleared, rfl⟩ := step_runInner hStep
    have hOpen : (s.commits batch).final = false := by rw [hCleared]; rfl
    refine Quiet.move ⟨setCommit_passed ?_, setCommit_final hOpen _, rfl, id⟩ fun h => { h with }
    rw [hCleared]
    exact id

/-! ### Runs -/

theorem initial_tidy : Tidy initial where
  held := nofun
  queued := nofun
  failed := fun _ => rfl
  flushing := fun _ _ _ hFlushing => Phase.noConfusion hFlushing

variable {actions : List Action}

/-- A failed gate stays failed and lets nobody else through. -/
theorem run_failed (h : Tidy s) (hFailed : s.failed ≠ none)
    (hRun : run (step maxHeld) s actions = some t)
    (batch : Nat) (hPassed : (t.commits batch).passed = true) :
    (s.commits batch).passed = true := by
  induction actions generalizing s with
  | nil =>
    cases hRun
    exact hPassed
  | cons a rest ih =>
    obtain ⟨m, hStep, hRest⟩ := run_cons_eq_some.mp hRun
    have hMove := step_moves hStep
    have hBefore := ih (hMove.tidy h) (hMove.failed hFailed) hRest
    rcases hMove.passed batch hBefore with hOld | ⟨-, released, written, last, hPhase, -⟩
    · exact hOld
    · exact absurd (h.flushing released written last hPhase).1 hFailed

/-- Whoever passes is durable. -/
def Covered (s : State) : Prop :=
  ∀ batch, (s.commits batch).passed = true → batch ∈ s.durable

theorem step_covered (h : Tidy s) (hCovered : Covered s) (hMove : Move s a t) : Covered t := by
  intro batch hPassed
  rcases hMove.passed batch hPassed
    with hBefore | ⟨-, released, written, last, hPhase, hReleased, hDurable⟩
  · exact hMove.durable (hCovered batch hBefore)
  · exact hDurable ((h.flushing released written last hPhase).2 batch hReleased)

theorem run_covered (hRun : run (step maxHeld) initial actions = some s) : Tidy s ∧ Covered s := by
  have hKeeps : ∀ s a t, Tidy s ∧ Covered s → step maxHeld s a = some t → Tidy t ∧ Covered t :=
    fun s a t h hStep => ⟨(step_moves hStep).tidy h.1, step_covered h.1 h.2 (step_moves hStep)⟩
  have hStart : Covered initial := fun _ hPassed => absurd hPassed Bool.false_ne_true
  exact invariant_of_run hKeeps ⟨initial_tidy, hStart⟩ hRun

/-- The step with which the gate gives up: a flush fails, or the task takes
an `Abandon` from its queue. -/
def State.GivesUp (s : State) (a : Action) : Prop :=
  (∃ error, a = .flushFailed error) ∨
    ∃ starved rest, a = .recv starved ∧ s.queue = .abandon :: rest

theorem givesUp_failed (hGivesUp : s.GivesUp a) (hStep : step maxHeld s a = some t) :
    t.failed ≠ none := by
  rcases hGivesUp with ⟨error, rfl⟩ | ⟨starved, rest, rfl, hQueue⟩
  · obtain ⟨released, written, last, -, rfl⟩ := step_flushFailed hStep
    exact (afterFlush_moves _ last).1.failed (fail_failed _ _)
  · obtain ⟨event, rest', -, hQueue', rfl⟩ := step_recv hStep
    rw [hQueue] at hQueue'
    cases hQueue'
    exact fail_failed _ _

/-- In every run, a commit that is not all-nack calls its inner commit only
when a flush that covers its batch has succeeded. After the gate has given
up, it calls it only if it already had its go before: neither what was held
then nor what arrives later does. -/
theorem flushGate_durable {maxHeld : Nat} {s : State} {actions : List Action}
    (hRun : run (step maxHeld) initial actions = some s) :
    (∀ batch dispositions, s.commits batch = .cleared dispositions ∨
        s.commits batch = .ran dispositions → allNack dispositions = false → batch ∈ s.durable) ∧
    ∀ a m later t, s.GivesUp a → step maxHeld s a = some m →
      run (step maxHeld) m later = some t →
      ∀ batch dispositions, t.commits batch = .ran dispositions → allNack dispositions = false →
        ∃ before, allNack before = false ∧
          (s.commits batch = .cleared before ∨ s.commits batch = .ran before) := by
  obtain ⟨hTidy, hCovered⟩ := run_covered hRun
  constructor
  · intro batch dispositions hState hWritten
    refine hCovered batch ?_
    rcases hState with hCleared | hRan
    · rw [hCleared, CommitState.passed, hWritten]
      rfl
    · rw [hRan, CommitState.passed, hWritten]
      rfl
  · intro a m later t hGivesUp hStep hLater batch dispositions hRan hWritten
    have hFailed := givesUp_failed hGivesUp hStep
    have hNot : a ≠ .flushed := by
      rintro rfl
      rcases hGivesUp with ⟨error, hEq⟩ | ⟨starved, rest, hEq, -⟩ <;> cases hEq
    have hPassed : (s.commits batch).passed = true := by
      have hMove := step_moves hStep
      have hGiven : (m.commits batch).passed = true := by
        apply run_failed (hMove.tidy hTidy) hFailed hLater
        rw [hRan, CommitState.passed, hWritten]
        rfl
      exact (hMove.passed batch hGiven).resolve_right fun hFlush => hNot hFlush.1
    cases hState : s.commits batch with
    | uncalled | waiting | denied =>
      rw [hState] at hPassed
      cases hPassed
    | cleared before =>
      rw [hState, CommitState.passed, Bool.not_eq_true'] at hPassed
      exact ⟨before, hPassed, .inl rfl⟩
    | ran before =>
      rw [hState, CommitState.passed, Bool.not_eq_true'] at hPassed
      exact ⟨before, hPassed, .inr rfl⟩

/-- The first batch waits for the tick and its flush. The second one arrives
during that flush, which does not release it. -/
theorem flushGate_durable_tick :
    let actions : List Action := [.sendReturned 0, .call 0 [.ack], .recv false, .tick,
      .sendReturned 1, .call 1 [.ack], .flushed, .runInner 0, .recv false]
    ∃ s, run (step 2) initial actions = some s ∧ s.commits 0 = .ran [.ack] ∧
      s.commits 1 = .waiting [.ack] ∧ 0 ∈ s.durable := by
  intro actions
  refine exists_run (fun s => s.commits 0 = .ran [.ack] ∧ s.commits 1 = .waiting [.ack])
    (by decide) ?_
  rintro s hRun ⟨hFirst, hSecond⟩
  exact ⟨hFirst, hSecond, (flushGate_durable hRun).1 0 [.ack] (.inr hFirst) (by decide)⟩

end MqBridge.Route.FlushGate
