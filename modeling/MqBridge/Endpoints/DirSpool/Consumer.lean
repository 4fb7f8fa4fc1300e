import Mathlib.Order.Defs.LinearOrder
import MqBridge.Consumer
import MqBridge.Machine.Run

/-! The consumer of a spool directory. A listing skips the chunks that are claimed: those that are
handed out, and those that stay on disk. A chunk that goes back is unclaimed first and queued then.
Commits run beside the reads, so what both do is taken apart into steps. -/
namespace MqBridge.DirSpool

open List Option Machine

def readyCacheCapacity : Nat := 65536

def maxChunkReadFailures : Nat := 3

/-- Where the settlement of a batch is between two steps. -/
inductive Stage (N : Type) where
  | idle
  /-- The file of the first pending chunk is gone. -/
  | removed
  /-- Unclaimed and not yet queued. -/
  | releasing (names : List N)
  /-- Counted as settled, and still counted as open. -/
  | settled

/-- A delivered batch. `acks` is what a called commit does with the pending chunks. -/
structure SettleGuard (N : Type) where
  delivery : Nat
  pending : List N
  acks : Option (List Bool)
  stage : Stage N

/-- Where a call of `receive_batch` is. -/
inductive Phase (N : Type) where
  | sampling
  | absorbing
  | scanning (seen kept : List N)
  | taking
  | reading (todo delivered : List N)
  | loadingSettled
  | loadingCount
  | waiting
  deriving DecidableEq

/-- A call that is under way. -/
structure Call (N : Type) where
  maxMessages : Nat
  doneBeforeScan : Bool
  attempts : Nat
  settledBefore : Nat
  /-- The chunks that were there when the last scan began. -/
  present : List N
  phase : Phase N

/-- `count` is of the open batches, `settled` of the settled ones. -/
structure Consumer (N : Type) where
  drainOnRead : Bool
  stopOnDone : Bool
  exitOnEmpty : Bool
  /-- The chunks that a listing can reach. -/
  files : List N
  done : Bool
  claimed : List N
  ready : List N
  requeued : List N
  count : Nat
  settled : Nat
  readFailures : N → Nat
  call : Option (Call N)
  guards : List (SettleGuard N)
  deliveries : Nat
  answers : List (Except ConsumerError (List N))

/-- The writer's steps, those of a call, and those of a commit. -/
inductive Action (N : Type) where
  | write (name : N)
  | finish
  | receive (maxMessages : Nat)
  | sample
  | absorb
  | entry (name : N)
  | endScan
  | scanFails (cause : String)
  | take
  | read (succeeds : Bool)
  | handOut
  | loadSettled
  | loadCount
  | wake (notified : Bool)
  | commit (delivery : Nat) (dispositions : Dispositions)
  | settleNext (delivery : Nat) (removed : Bool)
  | unclaim (delivery : Nat)
  | queue (delivery : Nat)
  | drop (delivery : Nat)
  | settle (delivery : Nat)
  | leave (delivery : Nat)

variable {N : Type}

/-- Into its place among names in order, unless it is there. -/
def insertName [LinearOrder N] (name : N) : List N → List N
  | [] => [name]
  | first :: rest =>
    if name < first then name :: first :: rest
    else if first < name then first :: insertName name rest
    else first :: rest

namespace Consumer

section Steps

variable [LinearOrder N]

def new (drainOnRead stopOnDone exitOnEmpty : Bool) (files : List N) : Consumer N where
  drainOnRead := drainOnRead
  stopOnDone := stopOnDone
  exitOnEmpty := exitOnEmpty
  files := files
  done := false
  claimed := []
  ready := []
  requeued := []
  count := 0
  settled := 0
  readFailures := fun _ => 0
  call := none
  guards := []
  deliveries := 0
  answers := []

/-- The call returns. -/
def answer (s : Consumer N) (result : Except ConsumerError (List N)) : Consumer N :=
  { s with call := none, answers := s.answers ++ [result] }

/-- The call goes on. -/
def goto (s : Consumer N) (call : Call N) (phase : Phase N) : Consumer N :=
  { s with call := some { call with phase := phase } }

/-- An empty directory ends the call. -/
def endsWhenEmpty (s : Consumer N) (call : Call N) : Bool := call.doneBeforeScan || s.exitOnEmpty

/-- Folds what was released back into the listing, and scans if there is nothing in it. -/
def absorbRequeued (s : Consumer N) (call : Call N) : Consumer N :=
  let ready := s.requeued.foldr insertName s.ready
  let absorbed := { s with ready := ready, requeued := [] }
  if ready = [] then absorbed.goto { call with present := s.files } (.scanning [] [])
  else absorbed.goto call .taking

def capacity (call : Call N) : Nat := max call.maxMessages readyCacheCapacity

/-- The directory lists a chunk; one that is gone since the scan began may still be listed. -/
def scanEntry (s : Consumer N) (call : Call N) (seen kept : List N) (name : N) :
    Option (Consumer N) :=
  if name ∉ seen ∧ (name ∈ s.files ∨ name ∈ call.present) then
    some (s.goto call (.scanning (seen ++ [name])
      (if name ∈ s.claimed then kept else (insertName name kept).take (capacity call))))
  else none

/-- Every chunk that stays in the directory is listed, but a full scan stops. -/
def endScan (s : Consumer N) (call : Call N) (seen kept : List N) : Option (Consumer N) :=
  if (∀ name ∈ call.present, name ∈ s.files → name ∈ seen) ∨ kept.length = capacity call then
    some ({ s with ready := kept }.goto call .taking)
  else none

/-- A call that finds nothing looks at the counters if it may end. -/
def take (s : Consumer N) (call : Call N) : Consumer N :=
  match s.ready.take call.maxMessages with
  | [] => if s.endsWhenEmpty call then s.goto call .loadingSettled else s.answer (.ok [])
  | name :: taken =>
    { s with ready := s.ready.drop call.maxMessages }.goto call (.reading (name :: taken) [])

/-- A chunk that fails too often is set aside. -/
def recordReadFailure (s : Consumer N) (name : N) : Consumer N :=
  let failures := s.readFailures name + 1
  if failures < maxChunkReadFailures then
    { s with readFailures := Function.update s.readFailures name failures }
  else { s with readFailures := Function.update s.readFailures name 0, claimed :=
    name :: s.claimed }

/-- A chunk that is read is known to be there. -/
def readChunk (s : Consumer N) (call : Call N) (name : N) (todo delivered : List N)
    (succeeds : Bool) : Option (Consumer N) :=
  if succeeds then
    if name ∈ s.files then
      some ({ s with readFailures := Function.update s.readFailures name 0 }.goto call
        (.reading todo (delivered ++ [name])))
    else none
  else some ((s.recordReadFailure name).goto call (.reading todo delivered))

/-- A batch is handed out. Where no chunk could be read, the listing is dropped and scanned once
more. -/
def handOut (s : Consumer N) (call : Call N) (delivered : List N) : Consumer N :=
  if delivered ≠ [] then
    { s with
      claimed := delivered ++ s.claimed
      count := s.count + 1
      guards := s.guards ++ [(⟨s.deliveries, delivered, none, .idle⟩ : SettleGuard N)]
      deliveries := s.deliveries + 1 }.answer (.ok delivered)
  else if call.attempts + 1 < 2 then
    { s with ready := [] }.goto { call with attempts := call.attempts + 1 } .sampling
  else { s with ready := [] }.answer (.ok [])

/-- The answer of a call that ends. -/
def idle (s : Consumer N) (call : Call N) : Consumer N :=
  s.answer (if call.doneBeforeScan then .error .endOfStream else .ok [])

/-- One step of the call, by its phase. -/
def stepCall (s : Consumer N) (call : Call N) : Phase N → Action N → Option (Consumer N)
  | .sampling, .sample => some (s.goto { call with settledBefore := s.settled } .absorbing)
  | .absorbing, .absorb => some (s.absorbRequeued call)
  | .scanning seen kept, .entry name => s.scanEntry call seen kept name
  | .scanning seen kept, .endScan => s.endScan call seen kept
  | .scanning _ _, .scanFails cause => some (s.answer (.error (.connection cause)))
  | .taking, .take => some (s.take call)
  | .reading (name :: todo) delivered, .read succeeds =>
    s.readChunk call name todo delivered succeeds
  | .reading [] delivered, .handOut => some (s.handOut call delivered)
  | .loadingSettled, .loadSettled =>
    some (s.goto call (if s.settled = call.settledBefore then .loadingCount else .sampling))
  | .loadingCount, .loadCount => some (if s.count = 0 then s.idle call else s.goto call .waiting)
  | .waiting, .wake notified => some (s.goto call (if notified then .sampling else .loadingSettled))
  | _, _ => none

def replace (s : Consumer N) (guard : SettleGuard N) : Consumer N :=
  { s with guards := s.guards.map fun other =>
    if other.delivery = guard.delivery then guard else other }

def release (s : Consumer N) (guard : SettleGuard N) (names : List N) : Consumer N :=
  { s with claimed := s.claimed.filter (· ∉ names) }.replace
    { guard with stage := .releasing names }

/-- One round of the loop of a commit. The claim of an acknowledged chunk stays unless its file is
deleted. -/
def settleNext (s : Consumer N) (guard : SettleGuard N) (removed : Bool) : Option (Consumer N) :=
  match guard.pending, guard.acks with
  | name :: rest, some acks =>
    if acks.headD true then
      if s.drainOnRead && removed then
        some ({ s with files := s.files.filter (· ≠ name) }.replace
          { guard with acks := acks.tail, stage := .removed })
      else some (s.replace { guard with pending := rest, acks := acks.tail })
    else some (s.release { guard with pending := rest, acks := acks.tail } [name])
  | _, _ => none

/-- One step of a commit or of a dropped batch, by its stage. -/
def stepGuard (s : Consumer N) (guard : SettleGuard N) : Stage N → Action N → Option (Consumer N)
  | .idle, .commit _ dispositions =>
    if guard.acks = none then some (s.replace
      { guard with acks := some (dispositions.map fun d => decide (d ≠ .nack)) }) else none
  | .idle, .settleNext _ removed => s.settleNext guard removed
  | .removed, .unclaim _ =>
    some ({ s with claimed := s.claimed.filter fun name => guard.pending.head? ≠ some name }.replace
      { guard with pending := guard.pending.tail, stage := .idle })
  | .releasing names, .queue _ =>
    some ({ s with requeued := s.requeued ++ names }.replace { guard with stage := .idle })
  | .idle, .drop _ | .removed, .drop _ =>
    if guard.pending ≠ [] then
      some (s.release { guard with pending := [], acks := some [] } guard.pending) else none
  | .idle, .settle _ =>
    if guard.pending = [] then
      some ({ s with settled := s.settled + 1 }.replace { guard with stage := .settled })
    else none
  | .settled, .leave _ =>
    some { s with count := s.count - 1, guards := s.guards.eraseP fun other =>
      other.delivery = guard.delivery }
  | _, _ => none

/-- The writer, the call and the commits take turns in any order. -/
def step (s : Consumer N) (action : Action N) : Option (Consumer N) :=
  match action with
  | .write name => some { s with files := s.files ++ [name] }
  | .finish => some { s with done := true }
  | .receive maxMessages =>
    if s.call.isSome then none
    else some (s.goto ⟨maxMessages, s.stopOnDone && s.done, 0, 0, [], .sampling⟩ .sampling)
  | .commit delivery _ | .settleNext delivery _ | .unclaim delivery | .queue delivery
  | .drop delivery
  | .settle delivery | .leave delivery =>
    (s.guards.find? (·.delivery = delivery)).bind fun guard => s.stepGuard guard guard.stage action
  | _ => s.call.bind fun call => s.stepCall call call.phase action

end Steps

end Consumer

theorem insertName_ne_nil [LinearOrder N] (name : N) (names : List N) :
    insertName name names ≠ [] := by
  cases names with
  | nil => simp [insertName]
  | cons first rest =>
    rw [insertName]
    split_ifs <;> simp

/-! ### The end of a queue -/

namespace Consumer

def Stage.isSettled : Stage N → Bool
  | .settled => true
  | _ => false

/-- No batch was settled since the call looked, and none is still to be settled. -/
def Quiet (s : Consumer N) (call : Call N) : Prop :=
  s.settled = call.settledBefore ∧ ∀ guard ∈ s.guards, Stage.isSettled guard.stage = true

/-- Nothing waits to be redelivered, and the scan left nothing out. -/
def Listed (s : Consumer N) (call : Call N) : Prop :=
  s.requeued = [] ∧ ∀ name ∈ call.present, name ∈ s.claimed

/-- What a call knows when all is quiet. -/
def PhaseHolds (s : Consumer N) (call : Call N) : Phase N → Prop
  | .scanning seen kept =>
    s.Quiet call → s.requeued = [] ∧ (∀ name ∈ call.present, name ∈ s.files) ∧
      (kept = [] → ∀ name ∈ seen, name ∈ s.claimed)
  | .taking => s.Quiet call → s.ready = [] → s.Listed call
  | .loadingSettled | .waiting => s.ready = [] ∧ (s.Quiet call → s.Listed call)
  | .loadingCount => s.settled = call.settledBefore ∧ s.ready = [] ∧ (s.Quiet call → s.Listed call)
  | .reading todo delivered => todo ++ delivered ≠ []
  | .sampling | .absorbing => True

/-- A call asks for a chunk at least, no chunk fails to be read, and no batch is counted as settled
between the loads of the two counters. -/
def Undisturbed (s : Consumer N) : Action N → Prop
  | .receive maxMessages => 0 < maxMessages
  | .read succeeds => succeeds = true
  | .settle _ => ∀ call ∈ s.call, call.phase ≠ .loadingCount
  | _ => True

instance [DecidableEq N] (s : Consumer N) (action : Action N) :
    Decidable (s.Undisturbed action) :=
  match action with
  | .receive maxMessages => inferInstanceAs (Decidable (0 < maxMessages))
  | .read succeeds => inferInstanceAs (Decidable (succeeds = true))
  | .settle _ => inferInstanceAs (Decidable (∀ call ∈ s.call, call.phase ≠ .loadingCount))
  | .write _ | .finish | .sample | .absorb | .entry _ | .endScan | .scanFails _ | .take | .handOut
  | .loadSettled | .loadCount | .wake _ | .commit _ _ | .settleNext _ _ | .unclaim _ | .queue _
  | .drop _ | .leave _ => .isTrue trivial

/-- What holds in every state of an undisturbed run. -/
structure Checked (s : Consumer N) : Prop where
  counted : s.guards.length ≤ s.count
  positive : ∀ call ∈ s.call, 0 < call.maxMessages
  before : ∀ call ∈ s.call, call.settledBefore ≤ s.settled
  phase : ∀ call ∈ s.call, s.PhaseHolds call call.phase

variable {s t : Consumer N} {call : Call N} {action : Action N}

/-- What a commit can do: its batch leaves, stays to be settled, or is counted as settled now. -/
inductive GuardStep (s t : Consumer N) (action : Action N) : Prop
  | left (guard : SettleGuard N) (hGuard : Stage.isSettled guard.stage = true)
      (before after : List (SettleGuard N)) (hBefore : s.guards = before ++ guard :: after)
      (hLeft : t = { s with count := s.count - 1, guards := before ++ after })
  | kept (hFrame : t.call = s.call ∧ t.ready = s.ready ∧ t.answers = s.answers ∧ t.count = s.count ∧
      t.settled = s.settled)
      (hLen : t.guards.length = s.guards.length)
      (hOpen : ∃ guard ∈ t.guards, Stage.isSettled guard.stage = false)
  | counted (delivery : Nat) (hAction : action = .settle delivery)
      (hFrame : t.call = s.call ∧ t.ready = s.ready ∧ t.answers = s.answers ∧ t.count = s.count ∧
        t.settled = s.settled + 1)
      (hLen : t.guards.length = s.guards.length)

theorem GuardStep.replace {guard other : SettleGuard N} {files claimed requeued : List N}
    (hMem : guard ∈ s.guards)
    (hSame : other.delivery = guard.delivery) (hOpen : Stage.isSettled other.stage = false) :
    GuardStep s
      ({ s with files := files, claimed := claimed, requeued := requeued }.replace other) action :=
  .kept ⟨rfl, rfl, rfl, rfl, rfl⟩ (length_map ..)
    ⟨other, mem_map.mpr ⟨guard, hMem, if_pos hSame.symm⟩, hOpen⟩

/-- All the steps of a commit are of these three kinds. -/
theorem guardStep_of_step [LinearOrder N] {delivery : Nat}
    (hStep : ((s.guards.find? (·.delivery = delivery)).bind fun guard =>
      s.stepGuard guard guard.stage action) = some t) : GuardStep s t action := by
  obtain ⟨guard, hFind, hStep⟩ := bind_eq_some_iff.mp hStep
  have hMem := mem_of_find?_eq_some hFind
  generalize hOwn : guard.stage = stage at hStep
  unfold stepGuard at hStep
  split at hStep
  · obtain ⟨-, ⟨⟩⟩ := ite_none_right_eq_some.mp hStep
    exact .replace hMem rfl (hOwn ▸ rfl)
  · rw [settleNext] at hStep
    split at hStep
    · split_ifs at hStep
      · cases hStep
        exact .replace hMem rfl rfl
      · cases hStep
        exact .replace hMem rfl (hOwn ▸ rfl)
      · cases hStep
        exact .replace hMem rfl rfl
    · cases hStep
  · cases hStep
    exact .replace hMem rfl rfl
  · cases hStep
    exact .replace hMem rfl rfl
  · obtain ⟨-, ⟨⟩⟩ := ite_none_right_eq_some.mp hStep
    exact .replace hMem rfl rfl
  · obtain ⟨-, ⟨⟩⟩ := ite_none_right_eq_some.mp hStep
    exact .replace hMem rfl rfl
  · obtain ⟨-, ⟨⟩⟩ := ite_none_right_eq_some.mp hStep
    exact .counted _ rfl ⟨rfl, rfl, rfl, rfl, rfl⟩ (length_map ..)
  · cases hStep
    obtain ⟨hDelivery, before, after, hGuards, hFirst⟩ := find?_eq_some_iff_append.mp hFind
    have hErase :
        (s.guards.eraseP fun other => other.delivery = guard.delivery) = before ++ after := by
      have hSame : guard.delivery = delivery := of_decide_eq_true hDelivery
      rw [hGuards, hSame, eraseP_append_right _ (by simpa using hFirst),
        eraseP_cons_of_pos (by simpa using hSame)]
    exact .left guard (hOwn ▸ rfl) before after hGuards (by rw [hErase])
  · cases hStep

/-- What a call knows stays if what it is about does. -/
theorem PhaseHolds.frame (hHolds : s.PhaseHolds call call.phase) (hReady : t.ready = s.ready)
    (hSettled : call.phase = .loadingCount → t.settled = s.settled) (hQuiet : t.Quiet call →
      s.Quiet call ∧ t.requeued = s.requeued ∧ t.claimed = s.claimed ∧
        ∀ name ∈ s.files, name ∈ t.files) : t.PhaseHolds call call.phase := by
  have hListed (h : s.Quiet call → s.Listed call) (hNow : t.Quiet call) : t.Listed call := by
    obtain ⟨hBefore, hRequeued, hClaimed, -⟩ := hQuiet hNow
    rw [Listed, hRequeued, hClaimed]
    exact h hBefore
  cases hPhase : call.phase with rw [hPhase] at hHolds
  | scanning seen kept =>
    intro hNow
    obtain ⟨hBefore, hRequeued, hClaimed, hFiles⟩ := hQuiet hNow
    obtain ⟨hNone, hPresent, hSeen⟩ := hHolds hBefore
    exact ⟨hRequeued ▸ hNone, fun name hMem => hFiles name (hPresent name hMem), hClaimed ▸ hSeen⟩
  | taking =>
    exact fun hNow hEmpty => hListed (fun hBefore => hHolds hBefore (hReady ▸ hEmpty)) hNow
  | loadingSettled | waiting =>
    exact ⟨hReady.trans hHolds.1, hListed hHolds.2⟩
  | loadingCount =>
    exact ⟨(hSettled hPhase).trans hHolds.1, hReady.trans hHolds.2.1, hListed hHolds.2.2⟩
  | reading todo delivered =>
    exact hHolds
  | sampling | absorbing => trivial

/-- Commits do not disturb what a call knows. -/
theorem Checked.guardStep (hChecked : s.Checked) (hUndisturbed : s.Undisturbed action)
    (hStep : GuardStep s t action) : t.Checked := by
  obtain ⟨hCounted, hPos, hBefore, hPhase⟩ := hChecked
  cases hStep with
  | left guard hGuard before after hGuards hLeft =>
    subst hLeft
    refine ⟨?_, hPos, hBefore, fun call hCall =>
      (hPhase call hCall).frame rfl (fun _ => rfl) fun hQuiet => ?_⟩
    · rw [hGuards] at hCounted
      simp only [length_append, length_cons] at hCounted ⊢
      omega
    · refine ⟨⟨hQuiet.1, ?_⟩, rfl, rfl, fun _ hMem => hMem⟩
      have hOthers := hQuiet.2
      grind
  | kept hFrame hLen hOpen =>
    obtain ⟨hCall, hReady, -, hCount, hSettled⟩ := hFrame
    obtain ⟨guard, hMem, hOpen⟩ := hOpen
    rw [← hCall] at hPos hBefore hPhase
    refine ⟨by omega, hPos, hSettled ▸ hBefore, fun call hCall =>
      (hPhase call hCall).frame hReady (fun _ => hSettled) fun hQuiet => ?_⟩
    simp [hQuiet.2 guard hMem] at hOpen
  | counted delivery hAction hFrame hLen =>
    obtain ⟨hCall, hReady, -, hCount, hSettled⟩ := hFrame
    subst hAction
    rw [← hCall] at hPos hBefore hPhase
    refine ⟨by omega, hPos, fun call hMem => (hBefore call hMem).trans (by omega),
      fun call hMem =>
      (hPhase call hMem).frame hReady
        (fun hLoading => absurd hLoading (hUndisturbed call (hCall ▸ hMem))) fun hQuiet => ?_⟩
    have hOld := hBefore call hMem
    have hNow := hQuiet.1
    omega

/-- A call goes on in a phase that holds. -/
theorem Checked.goto (hCounted : s.guards.length ≤ s.count) {next : Call N} {phase : Phase N}
    (hHolds : s.PhaseHolds next phase) (hPos : 0 < next.maxMessages)
    (hBefore : next.settledBefore ≤ s.settled) : (s.goto next phase).Checked := by
  refine ⟨hCounted, ?_, ?_, ?_⟩
  · rintro _ ⟨⟩
    exact hPos
  · rintro _ ⟨⟩
    exact hBefore
  · rintro _ ⟨⟩
    cases phase <;> exact hHolds

theorem Checked.answer (hCounted : s.guards.length ≤ s.count)
    (result : Except ConsumerError (List N)) :
    (s.answer result).Checked := ⟨hCounted, nofun, nofun, nofun⟩

/-- The answers that tell a route to stop. -/
def Ends (s : Consumer N) (result : Except ConsumerError (List N)) : Prop :=
  result = .error .endOfStream ∨ result = .ok [] ∧ s.exitOnEmpty = true

/-- A call that takes a step keeps what is known, and it is the load of the count after which it
ends. -/
structure CallStep (s t : Consumer N) (call : Call N) (action : Action N) : Prop where
  checked : s.Undisturbed action → t.Checked
  ends : ∀ result, t.answers = s.answers ++ [result] → s.Ends result →
    call.phase = .loadingCount ∧ s.count = 0 ∧ t = s.idle call

theorem CallStep.goto (hSame : t.answers = s.answers) (hCounted : t.guards.length ≤ t.count)
    {next : Call N}
    {phase : Phase N} (hHolds : t.PhaseHolds next phase) (hPos : 0 < next.maxMessages)
    (hBefore : next.settledBefore ≤ t.settled) : CallStep s (t.goto next phase) call action := by
  refine ⟨fun _ => .goto hCounted hHolds hPos hBefore, fun result hAnswer => ?_⟩
  simp [Consumer.goto, hSame] at hAnswer

theorem CallStep.answer (hSame : t.answers = s.answers) (hCounted : t.guards.length ≤ t.count)
    {result : Except ConsumerError (List N)} (hGoesOn : ¬ s.Ends result) :
    CallStep s (t.answer result) call action := by
  refine ⟨fun _ => .answer hCounted result, fun other hAnswer hEnds => ?_⟩
  rw [Consumer.answer, hSame] at hAnswer
  cases append_cancel_left hAnswer
  exact absurd hEnds hGoesOn

theorem capacity_pos (hPos : 0 < call.maxMessages) : 0 < capacity call :=
  lt_max_of_lt_left hPos

/-- One more entry is kept, or it is claimed. -/
theorem PhaseHolds.scanEntry [LinearOrder N] {seen kept : List N}
    (hHolds : s.PhaseHolds call (.scanning seen kept))
    (hPos : 0 < call.maxMessages) (name : N) : s.PhaseHolds call (.scanning (seen ++ [name])
      (if name ∈ s.claimed then kept else (insertName name kept).take (capacity call))) := by
  intro hQuiet
  obtain ⟨hNone, hPresent, hSeen⟩ := hHolds hQuiet
  refine ⟨hNone, hPresent, fun hKept => ?_⟩
  split_ifs at hKept with hClaimed
  · exact forall_mem_append.mpr ⟨hSeen hKept, forall_mem_singleton.mpr hClaimed⟩
  · rcases take_eq_nil_iff.mp hKept with hZero | hNil
    · exact absurd hZero (capacity_pos hPos).ne'
    · exact absurd hNil (insertName_ne_nil name kept)

/-- A scan that kept nothing has seen only claimed chunks. -/
theorem PhaseHolds.endScan {seen kept : List N} (hHolds : s.PhaseHolds call (.scanning seen kept))
    (hPos : 0 < call.maxMessages)
    (hEnd : (∀ name ∈ call.present, name ∈ s.files → name ∈ seen) ∨ kept.length = capacity call) :
    { s with ready := kept }.PhaseHolds call .taking := by
  intro hQuiet hKept
  obtain ⟨hNone, hPresent, hSeen⟩ := hHolds hQuiet
  refine ⟨hNone, fun name hMem => ?_⟩
  rcases hEnd with hAll | hFull
  · exact hSeen hKept name (hAll name hMem (hPresent name hMem))
  · rw [show kept = [] from hKept] at hFull
    exact absurd hFull (capacity_pos hPos).ne

section Call

variable (hCounted : s.guards.length ≤ s.count)

include hCounted

theorem CallStep.handOut {delivered : List N} (hSome : delivered ≠ []) :
    CallStep s (s.handOut call delivered) call action := by
  rw [Consumer.handOut, if_pos hSome]
  apply CallStep.answer
  · rfl
  · simpa using hCounted
  · rintro (hEnd | ⟨hEnd, -⟩)
    · cases hEnd
    · exact hSome (Except.ok.inj hEnd)

variable (hPos : 0 < call.maxMessages) (hBefore : call.settledBefore ≤ s.settled)

include hPos hBefore

/-- A call that finds nothing to take answers at once only where it does not end. -/
theorem CallStep.take (hHolds : s.PhaseHolds call .taking) :
    CallStep s (s.take call) call action := by
  rw [Consumer.take]
  split
  · next hTaken =>
    have hReady := (take_eq_nil_iff.mp hTaken).resolve_left hPos.ne'
    split_ifs with hEnding
    · apply CallStep.goto
      exacts [rfl, hCounted, ⟨hReady, fun hQuiet => hHolds hQuiet hReady⟩, hPos, hBefore]
    · refine .answer rfl hCounted ?_
      rintro (hEnd | ⟨-, hExit⟩)
      · cases hEnd
      · simp [endsWhenEmpty, hExit] at hEnding
  · apply CallStep.goto
    exacts [rfl, hCounted, cons_ne_nil _ _, hPos, hBefore]

variable [LinearOrder N]

theorem CallStep.absorb : CallStep s (s.absorbRequeued call) call action := by
  rw [absorbRequeued]
  split_ifs with hNone
  · apply CallStep.goto
    exacts [rfl, hCounted, fun _ => ⟨rfl, fun _ hMem => hMem, nofun⟩, hPos, hBefore]
  · apply CallStep.goto
    exacts [rfl, hCounted, fun _ hReady => absurd hReady hNone, hPos, hBefore]

theorem CallStep.readChunk {name : N} {todo delivered : List N} {succeeds : Bool}
    (hStep : s.readChunk call name todo delivered succeeds = some t) :
    CallStep s t call (.read succeeds) := by
  rw [Consumer.readChunk] at hStep
  split_ifs at hStep with hRead
  · cases hStep
    apply CallStep.goto
    · rfl
    · exact hCounted
    · exact append_ne_nil_of_right_ne_nil _ (append_ne_nil_of_right_ne_nil _ (cons_ne_nil _ _))
    · exact hPos
    · exact hBefore
  · cases hStep
    refine ⟨fun hUndisturbed => absurd hUndisturbed hRead, fun result hAnswer => ?_⟩
    rw [recordReadFailure] at hAnswer
    split_ifs at hAnswer <;> simp [Consumer.goto] at hAnswer

end Call

variable [LinearOrder N]

/-- Every step of a call, by its phase. -/
theorem Checked.stepCall (hChecked : s.Checked) (hCall : s.call = some call)
    (hStep : s.stepCall call call.phase action = some t) : CallStep s t call action := by
  obtain ⟨hCounted, hPos, hBefore, hHolds⟩ := hChecked
  replace hPos := hPos call hCall
  replace hBefore := hBefore call hCall
  replace hHolds := hHolds call hCall
  generalize hPhase : call.phase = phase at hStep hHolds
  unfold Consumer.stepCall at hStep
  split at hStep
  · cases hStep
    apply CallStep.goto
    exacts [rfl, hCounted, trivial, hPos, le_refl _]
  · cases hStep
    exact .absorb hCounted hPos hBefore
  · obtain ⟨-, ⟨⟩⟩ := ite_none_right_eq_some.mp hStep
    apply CallStep.goto
    exacts [rfl, hCounted, hHolds.scanEntry hPos _, hPos, hBefore]
  · obtain ⟨hEnd, ⟨⟩⟩ := ite_none_right_eq_some.mp hStep
    apply CallStep.goto
    exacts [rfl, hCounted, hHolds.endScan hPos hEnd, hPos, hBefore]
  · cases hStep
    refine .answer rfl hCounted ?_
    rintro (hEnd | ⟨hEnd, -⟩) <;> cases hEnd
  · cases hStep
    exact .take hCounted hPos hBefore hHolds
  · exact .readChunk hCounted hPos hBefore hStep
  · cases hStep
    exact .handOut hCounted hHolds
  · cases hStep
    split_ifs with hSame
    · apply CallStep.goto
      exacts [rfl, hCounted, ⟨hSame, hHolds⟩, hPos, hBefore]
    · apply CallStep.goto
      exacts [rfl, hCounted, trivial, hPos, hBefore]
  · cases hStep
    split_ifs with hCount
    · exact ⟨fun _ => .answer hCounted _, fun _ _ _ => ⟨hPhase, hCount, rfl⟩⟩
    · apply CallStep.goto
      exacts [rfl, hCounted, hHolds.2, hPos, hBefore]
  · cases hStep
    split_ifs
    · apply CallStep.goto
      exacts [rfl, hCounted, trivial, hPos, hBefore]
    · apply CallStep.goto
      exacts [rfl, hCounted, hHolds, hPos, hBefore]
  · cases hStep

theorem Checked.step (hChecked : s.Checked) (hUndisturbed : s.Undisturbed action)
    (hStep : s.step action = some t) : t.Checked := by
  obtain ⟨hCounted, hPos, hBefore, hHolds⟩ := id hChecked
  cases action with
  | write name =>
    cases hStep
    exact ⟨hCounted, hPos, hBefore, fun call hCall =>
      (hHolds call hCall).frame rfl (fun _ => rfl) fun hQuiet =>
      ⟨hQuiet, rfl, rfl, fun _ hMem => mem_append_left _ hMem⟩⟩
  | finish =>
    cases hStep
    exact ⟨hCounted, hPos, hBefore, fun call hCall =>
      (hHolds call hCall).frame rfl (fun _ => rfl) fun hQuiet =>
      ⟨hQuiet, rfl, rfl, fun _ hMem => hMem⟩⟩
  | receive maxMessages =>
    rw [step] at hStep
    split_ifs at hStep
    cases hStep
    apply goto
    exacts [hCounted, trivial, hUndisturbed, Nat.zero_le _]
  | commit | settleNext | unclaim | queue | drop | settle | leave =>
    exact hChecked.guardStep hUndisturbed (guardStep_of_step hStep)
  | _ =>
    obtain ⟨call, hCall, hStep⟩ := bind_eq_some_iff.mp hStep
    exact (hChecked.stepCall hCall hStep).checked hUndisturbed

omit [LinearOrder N] in
theorem Checked.new (drainOnRead stopOnDone exitOnEmpty : Bool) (files : List N) :
    (Consumer.new drainOnRead stopOnDone exitOnEmpty files).Checked := by
  refine ⟨le_refl _, ?_, ?_, ?_⟩
  all_goals
    intro call hCall
    cases hCall

/-- A call ends the stream, or tells a draining route that the queue is empty, only when every batch
is settled, nothing waits for redelivery, and every chunk that the scan could have found is claimed.
The done marker was seen before the scan if the stream ends. -/
theorem ends_only_settled {drainOnRead stopOnDone exitOnEmpty : Bool} {files : List N}
    {actions : List (Action N)}
    (hUndisturbed : Machine.Guarded step Undisturbed
      (new drainOnRead stopOnDone exitOnEmpty files) actions)
    (hRun : run step (new drainOnRead stopOnDone exitOnEmpty files) actions = some s)
    (hStep : s.step action = some t) {result : Except ConsumerError (List N)}
    (hAnswer : t.answers = s.answers ++ [result]) (hEnds : s.Ends result) :
    ∃ call, s.call = some call ∧ t.guards = [] ∧ t.requeued = [] ∧ t.ready = [] ∧
      (∀ name ∈ call.present, name ∈ t.files → name ∈ t.claimed) ∧
      (result = .error .endOfStream → call.doneBeforeScan = true) := by
  have hChecked : s.Checked := invariant_of_guarded (fun _ _ _ hChecked => hChecked.step)
    (.new drainOnRead stopOnDone exitOnEmpty files) hUndisturbed hRun
  have hSilent (hSame : t.answers = s.answers) : False := by simp [hSame] at hAnswer
  obtain ⟨call, hCall, hStep⟩ :
      ∃ call, s.call = some call ∧ s.stepCall call call.phase action = some t := by
    cases action with
    | write | finish =>
      cases hStep
      exact (hSilent rfl).elim
    | receive =>
      rw [step] at hStep
      split_ifs at hStep
      cases hStep
      exact (hSilent rfl).elim
    | commit | settleNext | unclaim | queue | drop | settle | leave =>
      refine (hSilent ?_).elim
      cases guardStep_of_step hStep with
      | left _ _ _ _ _ hLeft => rw [hLeft]
      | kept hFrame | counted _ _ hFrame => exact hFrame.2.2.1
    | _ => exact bind_eq_some_iff.mp hStep
  obtain ⟨hPhase, hCount, rfl⟩ := (hChecked.stepCall hCall hStep).ends result hAnswer hEnds
  have hHolds := hChecked.phase call hCall
  rw [hPhase] at hHolds
  obtain ⟨hSettled, hReady, hListed⟩ := hHolds
  have hGuards : s.guards = [] := eq_nil_of_length_eq_zero (by have := hChecked.counted; omega)
  obtain ⟨hNone, hPresent⟩ := hListed ⟨hSettled, by simp [hGuards]⟩
  refine ⟨call, hCall, hGuards, hNone, hReady, fun name hMem _ => hPresent name hMem, ?_⟩
  rintro rfl
  have hRes := append_cancel_left hAnswer
  by_contra hDone
  simp [hDone] at hRes

/-- A chunk is handed out and nacked, handed out again and acknowledged; then a
call finds nothing more. -/
def redelivery : List (Action Nat) :=
  [.write 1, .finish,
    .receive 1, .sample, .absorb, .entry 1, .endScan, .take, .read true, .handOut,
    .commit 0 [.nack], .settleNext 0 false, .queue 0, .settle 0, .leave 0,
    .receive 1, .sample, .absorb, .take, .read true, .handOut,
    .commit 1 [.ack], .settleNext 1 true, .unclaim 1, .settle 1, .leave 1,
    .receive 1, .sample, .absorb, .endScan, .take, .loadSettled]

theorem ends_only_settled_redelivered : ∃ s : Consumer Nat,
    run step (new true true false []) redelivery = some s ∧ s.answers = [.ok [1], .ok [1]] ∧
      ∃ t, s.step .loadCount = some t ∧ t.answers = s.answers ++ [.error .endOfStream] ∧
        t.guards = [] ∧ t.requeued = [] := by
  have hUndisturbed : Guarded step Undisturbed (new true true false []) redelivery := by
    decide +kernel
  refine exists_run (fun s => s.answers = [.ok [1], .ok [1]] ∧ ∃ t ∈ s.step .loadCount,
    t.answers = [.ok [1], .ok [1], .error .endOfStream]) (by decide +kernel) ?_
  rintro s hRun ⟨hBefore, t, hStep, hAfter⟩
  have hAnswer : t.answers = s.answers ++ [.error .endOfStream] := by
    rw [hBefore, hAfter]
    rfl
  obtain ⟨-, -, hGuards, hRequeued, -⟩ :=
    ends_only_settled hUndisturbed hRun hStep hAnswer (.inl rfl)
  exact ⟨hBefore, t, hStep, hAnswer, hGuards, hRequeued⟩

/-- The batch is nacked between the loads of the two counters: the stream ends while the chunk
waits. -/
theorem nacked_between_loads : ∃ s : Consumer Nat, run step (new true true false [1])
        [.finish, .receive 1, .sample, .absorb, .entry 1, .endScan, .take, .read true, .handOut,
          .receive 1, .sample,
          .absorb, .entry 1, .endScan, .take, .loadSettled, .commit 0 [.nack], .settleNext 0 false,
            .queue 0, .settle 0, .leave 0, .loadCount] = some s ∧
      s.answers = [.ok [1], .error .endOfStream] ∧ s.requeued = [1] :=
  ⟨_, rfl, rfl, rfl⟩

end Consumer

end MqBridge.DirSpool
