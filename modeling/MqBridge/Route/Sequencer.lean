import Mathlib.Data.List.Sort
import Mathlib.Data.List.Perm.Basic
import MqBridge.Machine.Run
import MqBridge.Consumer

/-! The commit sequencer. Wrapped commits reach one task over a bounded
channel, in any order; the task runs them one at a time in the order of their
sequence numbers and answers each of them over its own one-shot channel.

A step is one thing that the task or its environment does: a wrapped commit
enters the channel or is refused by it, the channel is closed, the task
receives, starts a commit, sees it finish, or ends. -/
namespace MqBridge.Route

open List Machine

namespace Sequencer

inductive Event where
  | started (seq : Nat) (dispositions : Dispositions)
  | finished (seq : Nat) (result : CommitResult)
  deriving DecidableEq

inductive Phase where
  /-- At the head of the loop. -/
  | ready
  /-- The commit of `nextSeq` was taken out of the buffer and is running. -/
  | committing (dispositions : Dispositions)
  | stopped
  deriving DecidableEq

structure State where
  channel : List (Nat × Dispositions)
  closed : Bool
  buffer : List (Nat × Dispositions)
  nextSeq : Nat
  phase : Phase
  accepted : List (Nat × Dispositions)
  refused : List Nat
  log : List Event
  notified : List (Nat × CommitResult)
  deriving DecidableEq

def initial : State :=
  ⟨[], false, [], 0, .ready, [], [], [], []⟩

inductive Action where
  /-- A wrapped commit is called and the channel takes it. -/
  | send (seq : Nat) (dispositions : Dispositions)
  /-- A wrapped commit is called and the closed channel refuses it. -/
  | refuse (seq : Nat)
  | close
  | recv
  | start
  | finish (result : CommitResult)
  | stop
  deriving DecidableEq

def lateItem (seq nextSeq : Nat) : CommitResult :=
  .error ("Sequencer received late item (seq " ++ toString seq ++ " < next_seq " ++
    toString nextSeq ++ ")")

def shuttingDown : CommitResult := .error "Sequencer is shutting down"

/-- `BTreeMap::insert`: entries in key order, one for a key. -/
def insert (entry : Nat × Dispositions) (buffer : List (Nat × Dispositions)) :
    List (Nat × Dispositions) :=
  (buffer.filter fun e => decide (e.1 ≠ entry.1)).orderedInsert (fun x y => x.1 ≤ y.1) entry

def lookup (seq : Nat) (buffer : List (Nat × Dispositions)) : Option (Nat × Dispositions) :=
  buffer.find? fun e => decide (e.1 = seq)

def State.called (s : State) (seq : Nat) : Bool :=
  decide (seq ∈ s.accepted.map Prod.fst) || decide (seq ∈ s.refused)

/-- The task at the head of its loop, with the buffer lacking `nextSeq`,
takes one item from the channel. -/
def State.receive (s : State) (item : Nat × Dispositions) (rest : List (Nat × Dispositions)) :
    State :=
  if item.1 < s.nextSeq then
    { s with channel := rest, notified := s.notified ++ [(item.1, lateItem item.1 s.nextSeq)] }
  else { s with channel := rest, buffer := insert item s.buffer }

/-- One step; `capacity` is the bound of the channel. -/
def step (capacity : Nat) (s : State) : Action → Option State
  | .send seq dispositions =>
    if s.closed = false ∧ s.channel.length < capacity ∧ s.called seq = false then
      some { s with
        channel := s.channel ++ [(seq, dispositions)]
        accepted := s.accepted ++ [(seq, dispositions)] }
    else none
  | .refuse seq =>
    if s.closed = true ∧ s.called seq = false then
      some { s with refused := s.refused ++ [seq] }
    else none
  | .close => if s.closed then none else some { s with closed := true }
  | .start =>
    match s.phase, lookup s.nextSeq s.buffer with
    | .ready, some entry =>
      some { s with
        buffer := s.buffer.erase entry
        phase := .committing entry.2
        log := s.log ++ [.started s.nextSeq entry.2] }
    | _, _ => none
  | .finish result =>
    match s.phase with
    | .committing _ =>
      some { s with
        phase := .ready
        nextSeq := s.nextSeq + 1
        log := s.log ++ [.finished s.nextSeq result]
        notified := s.notified ++ [(s.nextSeq, result)] }
    | _ => none
  | .recv =>
    match s.phase, lookup s.nextSeq s.buffer, s.channel with
    | .ready, none, item :: rest => some (s.receive item rest)
    | _, _, _ => none
  | .stop =>
    match s.phase, lookup s.nextSeq s.buffer, s.channel, s.closed with
    | .ready, none, [], true =>
      some { s with
        buffer := []
        phase := .stopped
        notified := s.notified ++ s.buffer.map fun e => (e.1, shuttingDown) }
    | _, _, _, _ => none

variable {buffer : List (Nat × Dispositions)} {entry : Nat × Dispositions} {seq : Nat}

/-- A new key adds its entry and keeps the others. -/
theorem insert_perm
    (hNew : entry.1 ∉ buffer.map Prod.fst) : (insert entry buffer).Perm (entry :: buffer) := by
  have hKeep : buffer.filter (fun e => decide (e.1 ≠ entry.1)) = buffer := by
    refine filter_eq_self.mpr fun e hEntry => decide_eq_true fun hSame => hNew ?_
    rw [← hSame]
    exact mem_map_of_mem hEntry
  rw [insert, hKeep]
  exact perm_orderedInsert _ _ _

/-- The steps of the task itself; the others belong to the senders. -/
def Action.ofTask : Action → Bool
  | .send _ _ | .refuse _ | .close => false
  | .recv | .start | .finish _ | .stop => true

/-! ### Every accepted commit is accounted for -/

def numbered (runs : List (Dispositions × CommitResult)) : List (Nat × Dispositions) :=
  runs.zipIdx.map fun r => (r.2, r.1.1)

def answers (runs : List (Dispositions × CommitResult)) : List (Nat × CommitResult) :=
  runs.zipIdx.map fun r => (r.2, r.1.2)

/-- One commit after another, numbered from zero: each finishes before the
next one starts. -/
def serialLog (runs : List (Dispositions × CommitResult)) : List Event :=
  runs.zipIdx.flatMap fun r => [.started r.2 r.1.1, .finished r.2 r.1.2]

section Snoc
variable (runs : List (Dispositions × CommitResult)) (dispositions : Dispositions)
  (result : CommitResult)

theorem numbered_snoc : numbered (runs ++ [(dispositions, result)]) =
      numbered runs ++ [(runs.length, dispositions)] := by
  simp [numbered, zipIdx_append]

end Snoc

variable (runs : List (Dispositions × CommitResult))

theorem numbered_keys :
    (numbered runs).map Prod.fst = List.range runs.length := by
  rw [numbered, map_map, range_eq_range', ← zipIdx_map_snd 0 runs]
  rfl

theorem answers_keys :
    (answers runs).map Prod.fst = List.range runs.length := by
  rw [answers, map_map, range_eq_range', ← zipIdx_map_snd 0 runs]
  rfl

def State.running (s : State) : List (Nat × Dispositions) :=
  match s.phase with
  | .committing dispositions => [(s.nextSeq, dispositions)]
  | .ready | .stopped => []

/-- The state after the commits `runs` have run, and after `drained` were
told that the task has ended. Each accepted commit is in one place. -/
structure Accounts (s : State) (runs : List (Dispositions × CommitResult))
    (drained : List (Nat × Dispositions)) : Prop where
  next : s.nextSeq = runs.length
  log : s.log = serialLog runs ++ s.running.map fun e => .started e.1 e.2
  distinct : (s.accepted.map Prod.fst).Nodup
  whole : s.accepted.Perm (s.channel ++ s.buffer ++ s.running ++ numbered runs ++ drained)
  notified : s.notified = answers runs ++ drained.map fun e => (e.1, shuttingDown)
  drains : s.phase ≠ .stopped → drained = []
  ends : s.phase = .stopped → s.channel = [] ∧ s.buffer = [] ∧ s.closed = true ∧
    ∀ e ∈ drained, e.1 ≠ s.nextSeq

theorem initial_accounts : Accounts initial [] [] where
  next := rfl
  log := rfl
  distinct := nodup_nil
  whole := List.Perm.refl _
  notified := rfl
  drains := fun _ => rfl
  ends := fun hStopped => by cases hStopped

section Places
variable {s : State} {runs : List (Dispositions × CommitResult)}
  {drained : List (Nat × Dispositions)}

/-- The places of the accepted commits hold distinct numbers. -/
theorem Accounts.places_nodup (h : Accounts s runs drained) :
    ((s.channel ++ s.buffer ++ s.running ++ numbered runs ++ drained).map Prod.fst).Nodup :=
  (h.whole.map Prod.fst).nodup_iff.mp h.distinct

/-- What waits in the channel is neither buffered nor already run. -/
theorem Accounts.received_fresh (h : Accounts s runs drained) {item : Nat × Dispositions}
    {rest : List (Nat × Dispositions)} (hChan : s.channel = item :: rest) :
    item.1 ∉ s.buffer.map Prod.fst ∧ ¬item.1 < s.nextSeq := by
  have hNodup := h.places_nodup
  rw [hChan] at hNodup
  simp only [cons_append, map_cons, map_append, nodup_cons, mem_append, numbered_keys, mem_range,
    not_or] at hNodup
  obtain ⟨⟨⟨⟨⟨-, hBuf⟩, -⟩, hRuns⟩, -⟩, -⟩ := hNodup
  rw [h.next]
  exact ⟨hBuf, hRuns⟩

end Places

/-- A bound on the steps the task can still take by itself. -/
def State.work (s : State) : Nat :=
  3 * s.channel.length + 2 * s.buffer.length +
    match s.phase with
    | .ready => 1
    | .committing _ => 2
    | .stopped => 0

theorem insert_length_le (entry : Nat × Dispositions) (buffer : List (Nat × Dispositions)) :
    (insert entry buffer).length ≤ buffer.length + 1 := by
  rw [insert, orderedInsert_length]
  exact Nat.succ_le_succ (length_filter_le _ _)

section Keeps
variable {capacity : Nat} {s t : State} {runs : List (Dispositions × CommitResult)}
  {drained : List (Nat × Dispositions)} {dispositions : Dispositions}

section

variable (h : Accounts s runs drained)

include h

theorem send_accounts (hOpen : s.closed = false) (hCalled : s.called seq = false)
    (dispositions : Dispositions) : Accounts { s with
      channel := s.channel ++ [(seq, dispositions)]
      accepted := s.accepted ++ [(seq, dispositions)] } runs drained := by
  have hNew : seq ∉ s.accepted.map Prod.fst := by
    intro hMem
    simp [State.called, hMem] at hCalled
  refine { h with distinct := ?_, whole := ?_, ends := fun hStopped => ?_ }
  · rw [map_append]
    exact nodup_append_comm.mp (nodup_cons.mpr ⟨hNew, h.distinct⟩)
  · refine perm_iff_count.mpr fun e => ?_
    have hCount := h.whole.count_eq e
    simp only [count_append, State.running] at hCount ⊢
    omega
  · have hClosed := (h.ends hStopped).2.2.1
    rw [hOpen] at hClosed
    cases hClosed

theorem start_accounts (hReady : s.phase = .ready) (hMem : (s.nextSeq, dispositions) ∈ s.buffer) :
    Accounts { s with
      buffer := s.buffer.erase (s.nextSeq, dispositions)
      phase := .committing dispositions
      log := s.log ++ [.started s.nextSeq dispositions] } runs drained := by
  have hIdle : s.running = [] := by rw [State.running, hReady]
  have hLog := h.log
  have hWhole := h.whole
  rw [hIdle] at hLog hWhole
  refine { h with log := ?_, whole := ?_, drains := fun _ => h.drains ?_, ends := fun hStopped =>
    ?_ }
  · rw [hLog]
    simp [State.running]
  · refine perm_iff_count.mpr fun e => ?_
    have hCount := hWhole.count_eq e
    have hErase := (perm_cons_erase hMem).count_eq e
    rw [← singleton_append] at hErase
    simp only [count_append, State.running, count_nil] at hCount hErase ⊢
    omega
  · rw [hReady]
    exact Phase.noConfusion
  · cases hStopped

theorem finish_accounts (hPhase : s.phase = .committing dispositions) (result : CommitResult) :
    Accounts { s with
      phase := .ready
      nextSeq := s.nextSeq + 1
      log := s.log ++ [.finished s.nextSeq result]
      notified :=
        s.notified ++ [(s.nextSeq, result)] } (runs ++ [(dispositions, result)]) drained := by
  have hBusy : s.running = [(runs.length, dispositions)] := by
    rw [State.running, hPhase, h.next]
  have hNone : drained = [] := h.drains (by rw [hPhase]; exact Phase.noConfusion)
  have hLog := h.log
  have hWhole := h.whole
  rw [hBusy] at hLog hWhole
  refine ⟨?_, ?_, h.distinct, ?_, ?_, fun _ => hNone, fun hStopped => ?_⟩
  · simp [h.next]
  · simp [hLog, serialLog, zipIdx_append, State.running, h.next]
  · refine perm_iff_count.mpr fun e => ?_
    have hCount := hWhole.count_eq e
    simp only [count_append, State.running, numbered_snoc, count_nil] at hCount ⊢
    omega
  · simp [h.notified, hNone, answers, zipIdx_append, h.next]
  · cases hStopped

theorem recv_accounts {item : Nat × Dispositions} {rest : List (Nat × Dispositions)}
    (hReady : s.phase = .ready)
    (hChan : s.channel = item :: rest) (hFresh : item.1 ∉ s.buffer.map Prod.fst) :
    Accounts { s with channel := rest, buffer := insert item s.buffer } runs drained := by
  refine { h with whole := ?_, ends := fun hStopped => ?_ }
  · refine perm_iff_count.mpr fun e => ?_
    have hCount := h.whole.count_eq e
    have hInsert := (insert_perm hFresh).count_eq e
    rw [hChan] at hCount
    rw [← singleton_append] at hCount hInsert
    simp only [count_append, State.running] at hCount hInsert ⊢
    omega
  · rw [hReady] at hStopped
    cases hStopped

theorem stop_accounts (hReady : s.phase = .ready) (hLookup : lookup s.nextSeq s.buffer = none)
    (hChan : s.channel = []) (hClosed : s.closed = true) : Accounts { s with
      buffer := []
      phase := .stopped
      notified := s.notified ++ s.buffer.map fun e => (e.1, shuttingDown) } runs s.buffer := by
  have hIdle : s.running = [] := by rw [State.running, hReady]
  have hNone : drained = [] := h.drains (by rw [hReady]; exact Phase.noConfusion)
  have hWhole := h.whole
  have hLog := h.log
  rw [hIdle, hNone] at hWhole
  rw [hIdle] at hLog
  refine ⟨h.next, hLog, h.distinct, ?_, ?_, absurd rfl, fun _ => ?_⟩
  · refine perm_iff_count.mpr fun e => ?_
    have hCount := hWhole.count_eq e
    simp only [count_append, State.running] at hCount ⊢
    omega
  · simp [h.notified, hNone]
  · exact ⟨hChan, rfl, hClosed, fun e hMem => by simpa using find?_eq_none.mp hLookup e hMem⟩

end

/-- Each step keeps every accepted commit in one place, and the task works
its own steps off. -/
theorem step_accounts {a : Action} (h : ∃ runs drained, Accounts s runs drained)
    (hStep : step capacity s a = some t) :
    (∃ runs drained, Accounts t runs drained) ∧ (a.ofTask = true → t.work < s.work) := by
  obtain ⟨runs, drained, h⟩ := h
  cases a with rw [step] at hStep
  | send seq dispositions =>
    split at hStep
    next hOpen =>
      cases hStep
      exact ⟨⟨runs, drained, send_accounts h hOpen.1 hOpen.2.2 dispositions⟩,
        fun hTask => by cases hTask⟩
    next => cases hStep
  | refuse seq =>
    split at hStep
    next =>
      cases hStep
      exact ⟨⟨runs, drained, { h with }⟩, fun hTask => by cases hTask⟩
    next => cases hStep
  | close =>
    split at hStep
    next => cases hStep
    next =>
      cases hStep
      refine ⟨⟨runs, drained, { h with ends := fun hStopped => ?_ }⟩, fun hTask => by cases hTask⟩
      obtain ⟨hChan, hBuf, -, hGap⟩ := h.ends hStopped
      exact ⟨hChan, hBuf, rfl, hGap⟩
  | recv =>
    split at hStep
    next item rest hReady hLookup hChan =>
      cases hStep
      obtain ⟨hFresh, hOnTime⟩ := h.received_fresh hChan
      rw [State.receive, if_neg hOnTime]
      refine ⟨⟨runs, drained, recv_accounts h hReady hChan hFresh⟩, fun _ => ?_⟩
      have hInsert := insert_length_le item s.buffer
      simp only [State.work, hChan, length_cons]
      omega
    next => cases hStep
  | start =>
    split at hStep
    next entry hReady hLookup =>
      cases hStep
      have hMem := mem_of_find?_eq_some hLookup
      have hKey := find?_some hLookup
      obtain ⟨seq, dispositions⟩ := entry
      cases of_decide_eq_true hKey
      refine ⟨⟨runs, drained, start_accounts h hReady hMem⟩, fun _ => ?_⟩
      have hErase := length_erase_of_mem hMem
      have hPos := length_pos_of_mem hMem
      simp only [State.work, hReady]
      omega
    next => cases hStep
  | finish result =>
    split at hStep
    next dispositions hPhase =>
      cases hStep
      refine ⟨⟨_, drained, finish_accounts h hPhase result⟩, fun _ => ?_⟩
      simp only [State.work, hPhase]
      omega
    next => cases hStep
  | stop =>
    split at hStep
    next hReady hLookup hChan hClosed =>
      cases hStep
      refine ⟨⟨runs, s.buffer, stop_accounts h hReady hLookup hChan hClosed⟩, fun _ => ?_⟩
      simp only [State.work, hReady, length_nil]
      omega
    next => cases hStep

end Keeps

variable {capacity : Nat} {s : State}

theorem run_accounts {actions : List Action}
    (hRun : run (step capacity) initial actions = some s) :
    ∃ runs drained, Accounts s runs drained :=
  invariant_of_run (fun _ _ _ h hStep => (step_accounts h hStep).1) ⟨[], [], initial_accounts⟩ hRun

/-! ### The order of the commits and their answers -/

variable {dispositions : Dispositions} {runs : List (Dispositions × CommitResult)}

theorem started_mem_serialLog :
    .started seq dispositions ∈ serialLog runs ↔ (seq, dispositions) ∈ numbered runs := by
  simp [serialLog, numbered]

/-- The first `k` commits were started, in order, each after the one before
it had finished. The last of them may still be running. -/
def SerialPrefix (log : List Event) (k : Nat) : Prop :=
  ∃ runs : List (Dispositions × CommitResult),
    (log = serialLog runs ∧ k = runs.length) ∨
      ∃ dispositions, log = serialLog runs ++ [.started runs.length dispositions] ∧
        k = runs.length + 1

def State.begun (s : State) : Nat := s.nextSeq + s.running.length

section Accounts
variable {s : State} {runs : List (Dispositions × CommitResult)}
  {drained : List (Nat × Dispositions)}

variable (h : Accounts s runs drained)

include h

theorem Accounts.serialPrefix : SerialPrefix s.log s.begun := by
  refine ⟨runs, ?_⟩
  rw [h.log, State.begun, h.next, State.running]
  cases s.phase with
  | ready | stopped => exact .inl ⟨append_nil _, rfl⟩
  | committing dispositions =>
    rw [h.next]
    exact .inr ⟨dispositions, rfl, rfl⟩

theorem Accounts.started_accepted (hStarted : .started seq dispositions ∈ s.log) :
    (seq, dispositions) ∈ s.accepted := by
  rw [h.log, mem_append, started_mem_serialLog] at hStarted
  refine h.whole.mem_iff.mpr ?_
  simp only [mem_append]
  rcases hStarted with hRan | hRunning
  · exact .inl (.inr hRan)
  · obtain ⟨entry, hEntry, hEvent⟩ := mem_map.mp hRunning
    cases hEvent
    exact .inl (.inl (.inr hEntry))

/-- Whatever is not above a commit that was started has been accepted. -/
theorem Accounts.accepted_of_le {seq other : Nat} (hStarted : .started seq dispositions ∈ s.log)
    (hLe : other ≤ seq) : other ∈ s.accepted.map Prod.fst := by
  have hSeq : seq ∈ s.accepted.map Prod.fst := mem_map_of_mem (h.started_accepted hStarted)
  have hBelow : ∀ n, n < runs.length → n ∈ s.accepted.map Prod.fst := by
    intro n hLess
    rw [(h.whole.map Prod.fst).mem_iff]
    simp only [map_append, mem_append, numbered_keys, mem_range]
    exact .inl (.inr hLess)
  have hBound : seq ≤ runs.length := by
    rw [h.log, mem_append, started_mem_serialLog] at hStarted
    rcases hStarted with hRan | hRunning
    · have hRange : seq ∈ range runs.length := by
        rw [← numbered_keys]
        exact mem_map_of_mem hRan
      exact (mem_range.mp hRange).le
    · rw [State.running] at hRunning
      cases hPhase : s.phase with
      | ready | stopped => simp [hPhase] at hRunning
      | committing current =>
        simp only [hPhase, map_cons, map_nil, mem_singleton, Event.started.injEq]
          at hRunning
        exact (hRunning.1.trans h.next).le
  rcases hLe.lt_or_eq with hLess | rfl
  · exact hBelow other (hLess.trans_le hBound)
  · exact hSeq

theorem Accounts.notified_keys :
    s.notified.map Prod.fst = (numbered runs ++ drained).map Prod.fst := by
  rw [h.notified, map_append, map_append, answers_keys, numbered_keys, map_map]
  rfl

theorem Accounts.notified_nodup : (s.notified.map Prod.fst).Nodup := by
  have hNodup := h.places_nodup
  rw [append_assoc, map_append] at hNodup
  rw [h.notified_keys]
  exact hNodup.of_append_right

theorem Accounts.notified_accepted (hNotified : seq ∈ s.notified.map Prod.fst) :
    seq ∈ s.accepted.map Prod.fst := by
  rw [h.notified_keys, map_append, mem_append] at hNotified
  rw [(h.whole.map Prod.fst).mem_iff]
  simp only [map_append, mem_append]
  rcases hNotified with hRan | hDrained
  · exact .inl (.inr hRan)
  · exact .inr hDrained

/-- A commit that ran is answered with its own result, any other one with
an error. -/
theorem Accounts.notified_result {result : CommitResult}
    (hNotified : (seq, result) ∈ s.notified) : (seq < s.begun ∧ .finished seq result ∈ s.log) ∨
      (s.begun ≤ seq ∧ ∃ text, result = .error text) := by
  rw [h.notified, mem_append] at hNotified
  rcases hNotified with hRan | hDrained
  · have hBelow : seq ∈ range runs.length := by
      rw [← answers_keys]
      exact mem_map_of_mem hRan
    refine .inl ⟨?_, ?_⟩
    · rw [State.begun, h.next]
      exact Nat.lt_add_right _ (mem_range.mp hBelow)
    · rw [h.log]
      exact mem_append_left _ (by simpa [serialLog, answers] using hRan)
  · obtain ⟨entry, hEntry, hPair⟩ := mem_map.mp hDrained
    cases hPair
    have hStopped : s.phase = .stopped := by
      by_contra hRunning
      rw [h.drains hRunning] at hEntry
      cases hEntry
    have hAbove : ¬entry.1 < runs.length := by
      have hNodup := h.notified_nodup
      rw [h.notified_keys, map_append, nodup_append] at hNodup
      intro hBelow
      refine hNodup.2.2 entry.1 ?_ entry.1 (mem_map_of_mem hEntry) rfl
      rw [numbered_keys]
      exact mem_range.mpr hBelow
    refine .inr ⟨?_, _, rfl⟩
    rw [State.begun, h.next, State.running, hStopped]
    exact Nat.le_of_not_lt hAbove

/-- Once the task has ended, everyone has been answered, and the number the
sequence stopped at was never handed in. -/
theorem Accounts.stopped (hStopped : s.phase = .stopped) :
    (∀ seq ∈ s.accepted.map Prod.fst, seq ∈ s.notified.map Prod.fst) ∧
      s.begun ∉ s.accepted.map Prod.fst := by
  obtain ⟨hChan, hBuf, -, hGap⟩ := h.ends hStopped
  have hIdle : s.running = [] := by rw [State.running, hStopped]
  have hKeys : ∀ seq, seq ∈ s.accepted.map Prod.fst ↔ seq ∈ s.notified.map Prod.fst := by
    intro seq
    rw [(h.whole.map Prod.fst).mem_iff, h.notified_keys, hChan, hBuf, hIdle]
    rfl
  refine ⟨fun seq hAccepted => (hKeys seq).mp hAccepted, ?_⟩
  rw [hKeys, h.notified_keys, State.begun, hIdle, map_append, mem_append, numbered_keys, mem_range,
    h.next]
  rintro (hBelow | hDrained)
  · exact lt_irrefl _ hBelow
  · obtain ⟨entry, hEntry, hKey⟩ := mem_map.mp hDrained
    refine hGap entry hEntry ?_
    rw [hKey, h.next]
    rfl

end Accounts

/-! ### The task comes to an end -/

theorem task_run_work {s t : State} {later : List Action}
    (h : ∃ runs drained, Accounts s runs drained) (hTask : ∀ a ∈ later, a.ofTask = true)
    (hRun : run (step capacity) s later = some t) : later.length + t.work ≤ s.work := by
  induction later generalizing s with
  | nil =>
    cases hRun
    rw [length_nil, zero_add]
  | cons a rest ih =>
    obtain ⟨m, hStep, hRest⟩ := run_cons_eq_some.mp hRun
    obtain ⟨hNext, hOne⟩ := step_accounts h hStep
    have hLess := hOne (hTask a (mem_cons_self ..))
    have hMore := ih hNext (fun b hMem => hTask b (mem_cons_of_mem _ hMem)) hRest
    rw [length_cons]
    omega

/-- On a closed channel the task can always go on until it has ended. -/
theorem stopped_of_stuck (hClosed : s.closed = true)
    (hStuck : ∀ a : Action, a.ofTask = true → step capacity s a = none) : s.phase = .stopped := by
  cases hPhase : s.phase with
  | stopped => rfl
  | committing dispositions =>
    have hFinish := hStuck (.finish (.ok ())) rfl
    simp [step, hPhase] at hFinish
  | ready =>
    cases hLookup : lookup s.nextSeq s.buffer with
    | some entry =>
      have hStart := hStuck .start rfl
      simp [step, hPhase, hLookup] at hStart
    | none =>
      cases hChan : s.channel with
      | nil =>
        have hStop := hStuck .stop rfl
        simp [step, hPhase, hLookup, hChan, hClosed] at hStop
      | cons item rest =>
        have hRecv := hStuck .recv rfl
        simp [step, hPhase, hLookup, hChan] at hRecv

/-- In every run the inner commits that were started are those of the numbers
below some `k`, in order and without overlap, each with the dispositions of
its own caller. No commit is answered twice; the answer is the commit's own
result below `k` and an error from `k` on. The task takes boundedly many steps
by itself. It can only be stuck on a closed channel when it has ended, and
then every accepted commit has its answer. -/
theorem sequencer_safe {capacity : Nat} {s : State} {actions : List Action}
    (hRun : run (step capacity) initial actions = some s) : (∃ k, SerialPrefix s.log k ∧
      (∀ seq dispositions, .started seq dispositions ∈ s.log → (seq, dispositions) ∈ s.accepted) ∧
      (s.notified.map Prod.fst).Nodup ∧
        (∀ seq result, (seq, result) ∈ s.notified → seq ∈ s.accepted.map Prod.fst ∧
        ((seq < k ∧ .finished seq result ∈ s.log) ∨ (k ≤ seq ∧ ∃ text, result = .error text))) ∧
      (s.phase = .stopped → (∀ seq ∈ s.accepted.map Prod.fst, seq ∈ s.notified.map Prod.fst) ∧
        k ∉ s.accepted.map Prod.fst)) ∧
    ∀ later t, (∀ a ∈ later, a.ofTask = true) → run (step capacity) s later = some t →
      later.length ≤ s.work ∧
        (t.closed = true → (∀ a : Action, a.ofTask = true → step capacity t a = none) →
          t.phase = .stopped) := by
  obtain ⟨runs, drained, h⟩ := run_accounts hRun
  refine ⟨⟨s.begun, h.serialPrefix, fun _ _ => h.started_accepted, h.notified_nodup, ?_, h.stopped⟩,
    ?_⟩
  · intro seq result hNotified
    exact ⟨h.notified_accepted (mem_map_of_mem hNotified), h.notified_result hNotified⟩
  · intro later t hTask hLater
    exact ⟨(Nat.le_add_right _ _).trans (task_run_work ⟨runs, drained, h⟩ hTask hLater),
      stopped_of_stuck⟩

/-- Two commits arrive in the wrong order and a third one behind a gap; the
gap is never filled and the channel is closed. -/
theorem sequencer_safe_gap :
    let actions : List Action := [.send 1 [.ack], .send 3 [.ack], .recv, .send 0 [.nack], .recv,
      .recv, .start, .close, .finish (.error "lost"), .start, .finish (.ok ()), .stop]
    ∃ s, run (step 2) initial actions = some s ∧
      s.notified = [(0, .error "lost"), (1, .ok ()), (3, shuttingDown)] ∧
      (s.notified.map Prod.fst).Nodup := by
  intro actions
  refine exists_run (fun s => s.notified = [(0, .error "lost"), (1, .ok ()), (3, shuttingDown)])
    (by decide) ?_
  intro s hRun hNotified
  obtain ⟨⟨k, -, -, hOnce, -⟩, -⟩ := sequencer_safe hRun
  exact ⟨hNotified, hOnce⟩

end Sequencer
end MqBridge.Route
