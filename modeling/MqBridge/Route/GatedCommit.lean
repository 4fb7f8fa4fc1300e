import MqBridge.Route.FlushGate

/-! The flush gate in front of the ordered sequencer, as `run_concurrently`
wraps the commit of the batch with number `seq`: the gate holds the commit
that hands itself to the sequencer under that number. When the gate drops a
held commit it closes the channel of the sequencer. -/
namespace MqBridge.Route.GatedCommit

open Option Machine

structure State where
  gate : FlushGate.State
  sequencer : Sequencer.State

def initial : State := ⟨FlushGate.initial, Sequencer.initial⟩

inductive Action where
  /-- Anything at the gate but the call of an inner commit. -/
  | gate (a : FlushGate.Action)
  /-- A commit with its go, or an all-nack one, calls the wrapped commit. -/
  | forward (seq : Nat)
  /-- A step of the sequencer's own task. -/
  | task (a : Sequencer.Action)
  /-- The router abandons the sequencer, or the last sender is gone. -/
  | closeSequencer
  deriving DecidableEq

/-- `close_sequencer` closes a channel that is still open. -/
def closeIf (close : Bool) (q : Sequencer.State) : Sequencer.State :=
  { q with closed := q.closed || close }

/-- At the gate alone, the step that calls the inner commit. -/
def callsInner : FlushGate.Action → Bool
  | .runInner _ => true
  | _ => false

/-- The gate and the sequencer run side by side. -/
def step (maxHeld capacity : Nat) (s : State) : Action → Option State
  | .gate a =>
    if callsInner a then none
    else
      (FlushGate.step maxHeld s.gate a).map fun g =>
        ⟨g, closeIf g.sequencerClosed s.sequencer⟩
  | .forward seq =>
    match s.gate.commits seq with
    | .cleared dispositions =>
      (FlushGate.step maxHeld s.gate (.runInner seq)).bind fun g =>
        (Sequencer.step capacity s.sequencer
          (if s.sequencer.closed then .refuse seq else .send seq dispositions)).map fun q =>
            ⟨g, q⟩
    | _ => none
  | .task a =>
    if a.ofTask then
      (Sequencer.step capacity s.sequencer a).map fun q => { s with sequencer := q }
    else none
  | .closeSequencer =>
    (Sequencer.step capacity s.sequencer .close).map fun q => { s with sequencer := q }

/-- A channel that is closed twice is closed. -/
theorem closeIf_step (capacity : Nat) (close : Bool) (q : Sequencer.State) :
    closeIf close q = q ∨ Sequencer.step capacity q .close = some (closeIf close q) := by
  cases hClosed : q.closed with
  | true =>
    refine .inl ?_
    rw [closeIf, hClosed, Bool.true_or, ← hClosed]
  | false =>
    cases close with
    | false =>
      refine .inl ?_
      rw [closeIf, Bool.or_false]
    | true =>
      refine .inr ?_
      rw [Sequencer.step, if_neg (Bool.eq_false_iff.mp hClosed), closeIf, Bool.or_true]

variable {maxHeld capacity : Nat} {s t : State} {a : Action}

/-- A step is one at the gate, one of the sequencer, or both; and only what leaves the
gate in this step is handed to the sequencer. -/
theorem step_cases (hStep : step maxHeld capacity s a = some t) :
    (t.gate = s.gate ∨ ∃ b, FlushGate.step maxHeld s.gate b = some t.gate) ∧
      (t.sequencer = s.sequencer ∨ ∃ b, Sequencer.step capacity s.sequencer b = some t.sequencer ∧
        ∀ seq dispositions, b = .send seq dispositions →
          FlushGate.step maxHeld s.gate (.runInner seq) = some t.gate) := by
  cases a with rw [step] at hStep
  | gate a =>
    split_ifs at hStep
    obtain ⟨g, hGate, rfl⟩ := map_eq_some_iff.mp hStep
    refine ⟨.inr ⟨a, hGate⟩,
      (closeIf_step capacity g.sequencerClosed s.sequencer).imp_right fun hClose => ?_⟩
    exact ⟨.close, hClose, fun _ _ => Sequencer.Action.noConfusion⟩
  | forward seq =>
    split at hStep
    next dispositions hCleared =>
      obtain ⟨g, hGate, hRest⟩ := bind_eq_some_iff.mp hStep
      obtain ⟨q, hSeq, rfl⟩ := map_eq_some_iff.mp hRest
      refine ⟨.inr ⟨_, hGate⟩, .inr ⟨_, hSeq, fun other _ hSend => ?_⟩⟩
      split_ifs at hSend
      cases hSend
      exact hGate
    next => cases hStep
  | task a =>
    split_ifs at hStep with hTask
    obtain ⟨q, hSeq, rfl⟩ := map_eq_some_iff.mp hStep
    refine ⟨.inl rfl, .inr ⟨a, hSeq, ?_⟩⟩
    rintro _ _ rfl
    cases hTask
  | closeSequencer =>
    obtain ⟨q, hSeq, rfl⟩ := map_eq_some_iff.mp hStep
    exact ⟨.inl rfl, .inr ⟨_, hSeq, fun _ _ => Sequencer.Action.noConfusion⟩⟩

/-- The gate denies for good. -/
theorem step_final (hStep : step maxHeld capacity s a = some t) {seq : Nat}
    (hFinal : (s.gate.commits seq).final = true) : t.gate.commits seq = s.gate.commits seq := by
  rcases (step_cases hStep).1 with hSame | ⟨b, hGate⟩
  · rw [hSame]
  · exact (FlushGate.step_moves hGate).final _ hFinal

/-- What the sequencer was handed has left the gate. -/
def HandedOn (s : State) : Prop :=
  ∀ seq ∈ s.sequencer.accepted.map Prod.fst, ∃ dispositions,
    s.gate.commits seq = .ran dispositions

theorem accepted_of_not_send {capacity : Nat} {q r : Sequencer.State} {a : Sequencer.Action}
    (hStep : Sequencer.step capacity q a = some r)
    (hNot : ∀ seq dispositions, a ≠ .send seq dispositions) : r.accepted = q.accepted := by
  cases a with rw [Sequencer.step] at hStep
  | send seq dispositions => exact absurd rfl (hNot seq dispositions)
  | recv =>
    split at hStep <;> cases hStep
    rw [Sequencer.State.receive]
    split_ifs
    · rfl
    · rfl
  | refuse | close | start | finish | stop =>
    split at hStep <;> cases hStep
    rfl

theorem step_handedOn (h : HandedOn s) (hStep : step maxHeld capacity s a = some t) :
    HandedOn t := by
  have hKept : ∀ seq ∈ s.sequencer.accepted.map Prod.fst, ∃ dispositions,
      t.gate.commits seq = .ran dispositions := by
    intro seq hAccepted
    obtain ⟨dispositions, hRan⟩ := h seq hAccepted
    refine ⟨dispositions, ?_⟩
    rw [step_final hStep (by rw [hRan]; rfl), hRan]
  intro seq hAccepted
  rcases (step_cases hStep).2 with hSame | ⟨b, hSeq, hHanded⟩
  · rw [hSame] at hAccepted
    exact hKept seq hAccepted
  · by_cases hSend : ∃ other dispositions, b = .send other dispositions
    · obtain ⟨other, dispositions, rfl⟩ := hSend
      obtain ⟨given, -, hRan⟩ := FlushGate.step_runInner (hHanded other dispositions rfl)
      rw [← some.inj (ite_none_right_eq_some.mp hSeq).2] at hAccepted
      rcases List.mem_append.mp (List.map_append ▸ hAccepted) with hOld | hNew
      · exact hKept seq hOld
      · rw [List.mem_singleton.mp hNew, hRan]
        exact ⟨given, Function.update_self ..⟩
    · rw [accepted_of_not_send hSeq fun other dispositions hSame =>
        hSend ⟨other, dispositions, hSame⟩] at hAccepted
      exact hKept seq hAccepted

/-! ### No gaps -/

section Runs
variable {actions : List Action}

theorem run_accounts (hRun : run (step maxHeld capacity) initial actions = some s) :
    ∃ runs drained, Sequencer.Accounts s.sequencer runs drained := by
  obtain ⟨moves, hMoves⟩ := exists_run_of_component State.sequencer
    (fun _ _ _ hStep => (step_cases hStep).2.imp_right fun ⟨b, hMove, _⟩ => ⟨b, hMove⟩) hRun
  exact Sequencer.run_accounts hMoves

theorem run_handedOn (hRun : run (step maxHeld capacity) initial actions = some s) : HandedOn s :=
  invariant_of_run (fun _ _ _ h hStep => step_handedOn h hStep)
    (fun _ hAccepted => absurd hAccepted List.not_mem_nil) hRun

theorem run_denied {seq : Nat} {reason : String} (hDenied : s.gate.commits seq = .denied reason)
    (hRun : run (step maxHeld capacity) s actions = some t) :
    t.gate.commits seq = .denied reason := by
  have hKeeps : ∀ s a t, s.gate.commits seq = .denied reason →
      step maxHeld capacity s a = some t → t.gate.commits seq = .denied reason := by
    intro s a t hBefore hStep
    rw [step_final hStep (by rw [hBefore]; rfl), hBefore]
  exact invariant_of_run hKeeps hDenied hRun

variable (hRun : run (step maxHeld capacity) initial actions = some s)

include hRun

/-- Nothing that the gate denied, and nothing above it, is ever started. -/
theorem started_below {seq other : Nat} {reason : String} {dispositions : Dispositions}
    (hDenied : s.gate.commits seq = .denied reason)
    (hStarted : .started other dispositions ∈ s.sequencer.log) : other < seq := by
  obtain ⟨runs, drained, hAccounts⟩ := run_accounts hRun
  by_contra hAbove
  obtain ⟨dispositions', hRan⟩ := run_handedOn hRun seq
    (hAccounts.accepted_of_le hStarted (Nat.le_of_not_lt hAbove))
  rw [hDenied] at hRan
  cases hRan

/-- In every run the inner commits execute one after another in the order of
their numbers, without gaps. Once the hold of a batch has failed, no batch of
its number or above is ever committed, however the run goes on. -/
theorem gatedCommit_no_gap : (∃ k, Sequencer.SerialPrefix s.sequencer.log k) ∧
      ∀ seq reason, s.gate.commits seq = .denied reason →
        ∀ later t, run (step maxHeld capacity) s later = some t →
          ∀ other dispositions, .started other dispositions ∈ t.sequencer.log → other < seq := by
  constructor
  · obtain ⟨runs, drained, hAccounts⟩ := run_accounts hRun
    exact ⟨_, hAccounts.serialPrefix⟩
  · intro seq reason hDenied later t hLater other dispositions hStarted
    have hWhole : run (step maxHeld capacity) initial (actions ++ later) = some t :=
      run_append_eq_some.mpr ⟨s, hRun, hLater⟩
    exact started_below hWhole (run_denied hDenied hLater) hStarted

end Runs

/-- Batch 0 is held when a flush fails, batch 1 is nacked past the gate. The
nack reaches the sequencer's buffer first and waits there for number 0. -/
theorem gatedCommit_no_gap_nack :
    let actions : List Action := [.gate (.sendReturned 0), .gate (.call 0 [.ack]),
      .gate (.recv false), .gate (.call 1 [.nack]), .forward 1, .task .recv, .gate .tick,
      .gate (.flushFailed "disk"), .task .stop]
    ∃ s, run (step 2 2) initial actions = some s ∧
      s.gate.commits 0 = .denied (FlushGate.flushFailure "disk") ∧
      s.sequencer.notified = [(1, Sequencer.shuttingDown)] ∧
      ∀ other dispositions, .started other dispositions ∈ s.sequencer.log → other < 0 := by
  intro actions
  refine exists_run (fun s => s.gate.commits 0 = .denied (FlushGate.flushFailure "disk") ∧
    s.sequencer.notified = [(1, Sequencer.shuttingDown)]) (by decide) ?_
  rintro s hRun ⟨hDenied, hNotified⟩
  exact ⟨hDenied, hNotified, (gatedCommit_no_gap hRun).2 0 _ hDenied [] s rfl⟩

end MqBridge.Route.GatedCommit
