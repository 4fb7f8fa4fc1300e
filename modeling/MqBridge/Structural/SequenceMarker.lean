import MqBridge.Collections.Places
import MqBridge.Structural.Sequence

/-! The marker of a sequence is never ahead of delivery. A batch is settled as
clean only if it was committed without a Nack; a phase ends with a marker only
if all its batches are settled and none of them failed, and a consumer that
has once missed this writes no marker any more. -/
namespace MqBridge.Sequence

open List Places Machine

open Text

variable {config : Config} {phase : Nat}

/-- A marker that was written is read back, or ignored. -/
theorem load_saved {k : Nat}
    (hLoad : config.load (some (toString phase ++ " " ++ config.shape)) = .ok k) :
    k = phase ∨ k = 0 := by
  rw [Config.load] at hLoad
  split_ifs at hLoad
  · have hText : (toString phase ++ " " ++ config.shape).toList =
        Nat.toDigits 10 phase ++ ' ' :: config.shape.toList := by
      simp
    have hDigits : ∀ c ∈ Nat.toDigits 10 phase, isWhitespace c = false := fun c hMem =>
      isWhitespace_of_isDigit (Nat.isDigit_of_mem_toDigits (by decide) (by decide) hMem)
    simp only [loadPhase, fst_splitOnce, hText, takeWhile_trim hDigits Nat.toDigits_ne_nil] at hLoad
    split at hLoad
    next => cases hLoad
    next =>
      split at hLoad
      next value hParsed =>
        split_ifs at hLoad
        · cases hLoad
          exact .inl (parseUnsigned_toDigits hParsed)
        · cases hLoad
          exact .inr rfl
      next =>
        cases hLoad
        exact .inr rfl
  · cases hLoad
    exact .inr rfl

def Progress.isOpen : Progress → Bool
  | .settled _ => false
  | _ => true

def Progress.clean : Progress → Bool
  | .dropping clean | .counting clean | .settled clean => clean
  | _ => false

def Progress.flagged : Progress → Bool
  | .counting clean | .settled clean => !clean
  | _ => false

def Batch.opensOn (tracker : Nat) (batch : Batch) : Bool :=
  batch.tracker = some tracker && batch.progress.isOpen

/-- What a step of a batch does, to it and to its tracker. -/
structure Advanced (batch after : Batch) (change : Unsettled → Unsettled) : Prop where
  run : after.run = batch.run
  phase : after.phase = batch.phase
  tracker : after.tracker = batch.tracker
  wasOpen : batch.progress.isOpen = true
  count : ∀ u, (change u).count = if after.progress.isOpen then u.count else u.count - 1
  failed : ∀ u, u.failed = true → (change u).failed = true
  flagged :
    after.progress.flagged = true → batch.progress.flagged = true ∨ ∀ u, (change u).failed = true
  delivered : (batch.progress.clean = true → batch.Delivered) →
    after.progress.clean = true → after.Delivered

theorem not_anyNack_iff {dispositions : Dispositions} :
    anyNack dispositions = false ↔ .nack ∉ dispositions := by
  rw [anyNack, any_eq_false]
  simp only [decide_eq_true_eq]
  exact ⟨fun hAll hMem => hAll _ hMem rfl, fun hNot d hMem hNack => hNot (hNack ▸ hMem)⟩

variable {change : Unsettled → Unsettled} {batch after : Batch}

theorem Batch.advance_spec {event : Event}
    (hAdv : batch.advance event = some (after, change)) : Advanced batch after change := by
  obtain ⟨run, phase, tracker, progress, outcome⟩ := batch
  cases event with simp only [advance] at hAdv
  | commit dispositions =>
    split at hAdv
    next =>
      cases hAdv
      exact ⟨rfl, rfl, rfl, rfl, fun _ => rfl, fun _ h => h, nofun, nofun⟩
    next => cases hAdv
  | committed result =>
    split at hAdv
    next dispositions =>
      cases hAdv
      refine ⟨rfl, rfl, rfl, rfl, fun _ => rfl, fun _ h => h, nofun, fun _ hClean =>
        ⟨dispositions, ?_⟩⟩
      simp only [Progress.clean, Bool.and_eq_true, Bool.not_eq_true'] at hClean
      obtain ⟨hNack, hOk⟩ := hClean
      cases result with
      | ok _ => exact ⟨rfl, not_anyNack_iff.mp hNack⟩
      | error error => cases hOk
    next => cases hAdv
  | drop =>
    split at hAdv
    next =>
      cases hAdv
      exact ⟨rfl, rfl, rfl, rfl, fun _ => rfl, fun _ h => h, nofun, nofun⟩
    next =>
      cases hAdv
      exact ⟨rfl, rfl, rfl, rfl, fun _ => rfl, fun _ h => h, nofun, nofun⟩
    next => cases hAdv
  | flag =>
    split at hAdv
    next clean =>
      cases hAdv
      refine ⟨rfl, rfl, rfl, rfl, fun u => ?_, fun u hFailed => ?_, fun hFlagged =>
        .inr fun u => ?_, id⟩
      · change (if clean = true then u else { u with failed := true }).count = u.count
        split_ifs <;> rfl
      · split_ifs
        · exact hFailed
        · rfl
      · have hUnclean : clean = false := by simpa [Progress.flagged] using hFlagged
        rw [if_neg (by rw [hUnclean]; exact Bool.false_ne_true)]
    next => cases hAdv
  | settle =>
    split at hAdv
    next clean =>
      cases hAdv
      exact ⟨rfl, rfl, rfl, rfl, fun _ => rfl, fun _ h => h, .inl, id⟩
    next => cases hAdv

/-- Every batch that the consumer handed out before the phase was delivered. -/
def State.DoneBefore (s : State) (run phase : Nat) : Prop :=
  ∀ batch ∈ s.batches, batch.run = run → batch.phase < phase → batch.progress = .settled true

/-- The phases that are over, once the consumer has begun to close one. -/
def State.boundary (s : State) : Nat := if s.control = .closing then s.phase + 1 else s.phase

/-- The invariant of a run. -/
structure Sound (config : Config) (s : State) : Prop where
  delivered : ∀ batch ∈ s.batches, batch.progress.clean = true → batch.Delivered
  current : s.unsettled < s.trackers.length
  known : ∀ batch ∈ s.batches, ∀ t ∈ batch.tracker, t < s.trackers.length
  count : ∀ t u, s.trackers[t]? = some u → u.count = s.batches.countP (Batch.opensOn t)
  runs : ∀ batch ∈ s.batches, batch.run ≤ s.run
  phases : ∀ batch ∈ s.batches, batch.run = s.run → batch.phase ≤ s.phase
  last : ∀ batch ∈ s.batches, batch.tracker = none → config.endpoints.length ≤ batch.phase + 1
  tracked : s.unconfirmed = false → ∀ batch ∈ s.batches, batch.run = s.run →
    ∀ t ∈ batch.tracker, t = s.unsettled
  failed : s.unconfirmed = false → ∀ batch ∈ s.batches, batch.progress.flagged = true →
    batch.tracker = some s.unsettled → ∀ u ∈ s.trackers[s.unsettled]?, u.failed = true
  before : s.unconfirmed = false → s.DoneBefore s.run s.boundary
  drained : s.control = .drained → ∀ batch ∈ s.batches, batch.tracker = some s.unsettled →
    batch.progress.isOpen = false
  inner : s.control ≠ .idle → s.control ≠ .saving → s.phase + 1 < config.endpoints.length
  saving : s.control = .saving → s.unconfirmed = false
  saved : ∀ entry ∈ s.saved, entry.1 ≤ s.run ∧ (entry.1 = s.run → entry.2 ≤ s.phase) ∧
    s.DoneBefore entry.1 entry.2
  marker : ∀ k, config.load s.marker = .ok k → k ≤ s.phase ∧ s.DoneBefore s.run k

section Steps

variable {config : Config} {s t : State}

theorem State.DoneBefore.set {run : Nat} (h : s.DoneBefore run phase) {index : Nat}
    (hBatch : s.batches[index]? = some batch)
    (hAdvanced : Advanced batch after change) (hBatches : t.batches = s.batches.set index after) :
    t.DoneBefore run phase := by
  rw [State.DoneBefore, hBatches]
  refine forall_mem_set h (fun hRun hPhase => ?_) index
  have hSettled := h batch (mem_of_getElem? hBatch) (hAdvanced.run.symm.trans hRun)
    (hAdvanced.phase ▸ hPhase)
  have hOpen := hAdvanced.wasOpen
  rw [hSettled] at hOpen
  cases hOpen

theorem State.DoneBefore.snoc {run : Nat} (h : s.DoneBefore run phase) {batch : Batch}
    (hBatches : t.batches = s.batches ++ [batch]) (hNew : batch.run = run → phase ≤ batch.phase) :
    t.DoneBefore run phase := by
  rw [State.DoneBefore, hBatches]
  exact forall_mem_snoc h fun hRun hPhase => absurd (hNew hRun) (not_le.mpr hPhase)

theorem State.DoneBefore.mono {run earlier : Nat} (h : s.DoneBefore run phase)
    (hLe : earlier ≤ phase) : s.DoneBefore run earlier :=
  fun batch hMem hRun hPhase => h batch hMem hRun (Nat.lt_of_lt_of_le hPhase hLe)

theorem State.phase_le_boundary : s.phase ≤ s.boundary := by
  rw [boundary]
  split_ifs
  · exact Nat.le_succ _
  · exact le_refl _

theorem State.boundary_of_ne (hControl : s.control ≠ .closing) : s.boundary = s.phase :=
  if_neg hControl

section Trackers

variable {tracker : Option Nat} {change : Unsettled → Unsettled}

theorem getElem?_modifyTracker {i : Nat} {u : Unsettled} :
    (s.modifyTracker tracker change)[i]? = some u ↔
    ∃ old, s.trackers[i]? = some old ∧ (if tracker = some i then change old else old) = u := by
  cases tracker with
  | none => simp [State.modifyTracker]
  | some t =>
    rw [State.modifyTracker, getElem?_modify, ← Option.map_eq_some_iff]
    simp only [Option.some.injEq]
    rfl

theorem length_modifyTracker : (s.modifyTracker tracker change).length = s.trackers.length := by
  cases tracker with
  | none => rfl
  | some t => exact length_modify ..

end Trackers

section

variable (h : Sound config s)

include h

/-- The consumer goes on; nothing else changes. -/
theorem Sound.goOn {control : Control}
    (hClosing : control = .closing → s.unconfirmed = false → s.DoneBefore s.run (s.phase + 1))
    (hDrained : control = .drained → ∀ batch ∈ s.batches, batch.tracker = some s.unsettled →
      batch.progress.isOpen = false)
    (hInner : control ≠ .idle → control ≠ .saving → s.phase + 1 < config.endpoints.length)
    (hSaving : control = .saving → s.unconfirmed = false) :
    Sound config { s with control := control } :=
  { h with
    before := fun hConf => by
      rw [State.boundary]
      split_ifs with hControl
      · exact hClosing hControl hConf
      · exact (h.before hConf).mono (State.phase_le_boundary (s := s))
    drained := hDrained
    inner := hInner
    saving := hSaving }

/-- A batch is handed out in the running phase. -/
theorem Sound.handOut (hIdle : s.control = .idle) (tracker : Option Nat)
    (hTracker : ∀ t ∈ tracker, t = s.unsettled)
    (hLast : tracker = none → config.endpoints.length ≤ s.phase + 1) : Sound config
      { s with
        trackers := s.modifyTracker tracker fun u => { u with count := u.count + 1 }
        batches := s.batches ++ [⟨s.run, s.phase, tracker, .handedOut, none⟩] } := by
  have hBoundary : s.boundary = s.phase := State.boundary_of_ne (by rw [hIdle]; decide)
  constructor
  case delivered => exact forall_mem_snoc h.delivered nofun
  case current => exact lt_of_lt_of_eq h.current length_modifyTracker.symm
  case known =>
    refine forall_mem_snoc (fun batch hMem t hT => ?_) fun t hT => ?_
    · exact lt_of_lt_of_eq (h.known batch hMem t hT) length_modifyTracker.symm
    · rw [hTracker t hT]
      exact lt_of_lt_of_eq h.current length_modifyTracker.symm
  case count =>
    intro t u hU
    obtain ⟨old, hOld, rfl⟩ := getElem?_modifyTracker.mp hU
    rw [countP_append, countP_singleton, ← h.count t old hOld]
    simp only [Batch.opensOn, Progress.isOpen, Bool.and_true, decide_eq_true_eq]
    split_ifs <;> rfl
  case runs => exact forall_mem_snoc h.runs (le_refl _)
  case phases => exact forall_mem_snoc h.phases fun _ => le_refl _
  case last => exact forall_mem_snoc h.last hLast
  case tracked =>
    intro hConf
    exact forall_mem_snoc (h.tracked hConf) fun _ => hTracker
  case failed =>
    intro hConf
    refine forall_mem_snoc (fun batch hMem hFlagged hOn u hU => ?_) nofun
    obtain ⟨old, hOld, rfl⟩ := getElem?_modifyTracker.mp hU
    have hFailed := h.failed hConf batch hMem hFlagged hOn old hOld
    split_ifs
    · exact hFailed
    · exact hFailed
  case before =>
    intro hConf
    exact (h.before hConf).snoc rfl fun _ => le_of_eq hBoundary
  case drained =>
    intro hDrained
    rw [hIdle] at hDrained
    cases hDrained
  case inner => exact h.inner
  case saving => exact h.saving
  case saved =>
    intro entry hMem
    obtain ⟨hRun, hPhase, hDone⟩ := h.saved entry hMem
    exact ⟨hRun, hPhase, hDone.snoc rfl fun hSame => hPhase hSame.symm⟩
  case marker =>
    intro k hLoad
    obtain ⟨hPhase, hDone⟩ := h.marker k hLoad
    exact ⟨hPhase, hDone.snoc rfl fun _ => hPhase⟩

/-- A batch goes on. -/
theorem Sound.advance {index : Nat} (hBatch : s.batches[index]? = some batch)
    (hAdvanced : Advanced batch after change) : Sound config
      { s with
        trackers := s.modifyTracker batch.tracker change
        batches := s.batches.set index after } := by
  have hMemBatch := mem_of_getElem? hBatch
  have hDone : ∀ {run phase}, s.DoneBefore run phase → State.DoneBefore
      { s with
        trackers := s.modifyTracker batch.tracker change
        batches := s.batches.set index after } run phase :=
          fun hDone => hDone.set hBatch hAdvanced rfl
  constructor
  case delivered =>
    exact forall_mem_set h.delivered (hAdvanced.delivered (h.delivered batch hMemBatch)) index
  case current => exact lt_of_lt_of_eq h.current length_modifyTracker.symm
  case known =>
    have hKnown := forall_mem_set h.known (hAdvanced.tracker ▸ h.known batch hMemBatch) index
    exact fun other hMem t hT => lt_of_lt_of_eq (hKnown other hMem t hT) length_modifyTracker.symm
  case count =>
    intro t u hU
    obtain ⟨old, hOld, rfl⟩ := getElem?_modifyTracker.mp hU
    obtain ⟨hLt, hGet⟩ := List.getElem?_eq_some_iff.mp hBatch
    rw [countP_set hLt, hGet, ← h.count t old hOld]
    simp only [Batch.opensOn, hAdvanced.tracker, hAdvanced.wasOpen, Bool.and_eq_true,
      decide_eq_true_eq]
    by_cases hOn : batch.tracker = some t
    · have hPos : 0 < old.count := by
        rw [h.count t old hOld, countP_pos_iff]
        exact ⟨batch, hMemBatch, by simp [Batch.opensOn, hOn, hAdvanced.wasOpen]⟩
      simp only [hOn, true_and, if_true, hAdvanced.count]
      split_ifs <;> omega
    · simp only [hOn, false_and, if_false]
      omega
  case runs => exact forall_mem_set h.runs (hAdvanced.run ▸ h.runs batch hMemBatch) index
  case phases =>
    refine forall_mem_set h.phases ?_ index
    rw [hAdvanced.run, hAdvanced.phase]
    exact h.phases batch hMemBatch
  case last =>
    refine forall_mem_set h.last ?_ index
    rw [hAdvanced.tracker, hAdvanced.phase]
    exact h.last batch hMemBatch
  case tracked =>
    intro hConf
    refine forall_mem_set (h.tracked hConf) ?_ index
    rw [hAdvanced.run, hAdvanced.tracker]
    exact h.tracked hConf batch hMemBatch
  case failed =>
    intro hConf other hMem hFlagged hOn u hU
    obtain ⟨old, hOld, rfl⟩ := getElem?_modifyTracker.mp hU
    have hKept : old.failed = true →
        (if batch.tracker = some s.unsettled then change old else old).failed = true := by
      intro hFailed
      split_ifs
      · exact hAdvanced.failed old hFailed
      · exact hFailed
    rcases mem_or_eq_of_mem_set hMem with hBefore | rfl
    · exact hKept (h.failed hConf other hBefore hFlagged hOn old hOld)
    · have hSame : batch.tracker = some s.unsettled := hAdvanced.tracker.symm.trans hOn
      rcases hAdvanced.flagged hFlagged with hWas | hNow
      · exact hKept (h.failed hConf batch hMemBatch hWas hSame old hOld)
      · rw [if_pos hSame]
        exact hNow old
  case before => exact fun hConf => hDone (h.before hConf)
  case drained =>
    intro hDrained
    refine forall_mem_set (h.drained hDrained) (fun hOn => ?_) index
    have hSettled := h.drained hDrained batch hMemBatch (hAdvanced.tracker.symm.trans hOn)
    rw [hAdvanced.wasOpen] at hSettled
    cases hSettled
  case inner => exact h.inner
  case saving => exact h.saving
  case saved =>
    intro entry hMem
    obtain ⟨hRun, hPhase, hEntry⟩ := h.saved entry hMem
    exact ⟨hRun, hPhase, hDone hEntry⟩
  case marker =>
    intro k hLoad
    obtain ⟨hPhase, hMarker⟩ := h.marker k hLoad
    exact ⟨hPhase, hDone hMarker⟩

end

variable {u : Unsettled}

/-- The trackers and the consumer are new; the batches stay as they are. -/
theorem Sound.freshTracker (h : Sound config s) {t : Nat}
    (hU : (s.trackers ++ [⟨0, false⟩])[t]? = some u) :
    u.count = s.batches.countP (Batch.opensOn t) := by
  rcases getElem?_snoc_eq_some.mp hU with hOld | ⟨rfl, rfl⟩
  · exact h.count t u hOld
  · refine (countP_eq_zero.mpr fun batch hMem hOpen => ?_).symm
    simp only [Batch.opensOn, Bool.and_eq_true, decide_eq_true_eq] at hOpen
    exact lt_irrefl _ (h.known batch hMem _ hOpen.1)

theorem Sound.timeout (h : Sound config s) (hWait : s.control = .waiting) : Sound config
      { s with
        unconfirmed := true
        trackers := s.trackers ++ [⟨0, false⟩]
        unsettled := s.trackers.length
        control := .closing } where
  __ := h
  current := by simp
  known := fun batch hMem t hT => by
    rw [length_append]
    exact Nat.lt_add_right _ (h.known batch hMem t hT)
  count := fun t u => h.freshTracker
  tracked := nofun
  failed := nofun
  before := nofun
  drained := nofun
  inner := fun _ _ => h.inner (by rw [hWait]; decide) (by rw [hWait]; decide)
  saving := nofun

/-- All batches of the phase are settled, and none of them has failed. -/
theorem Sound.doneBefore_succ (h : Sound config s) (hDrained : s.control = .drained)
    (hConf : s.unconfirmed = false) (hU : s.trackers[s.unsettled]? = some u)
    (hFailed : u.failed = false) : s.DoneBefore s.run (s.phase + 1) := by
  intro batch hMem hRun hPhase
  have hInner := h.inner (by rw [hDrained]; decide) (by rw [hDrained]; decide)
  cases hTracker : batch.tracker with
  | none =>
    have hLast := h.last batch hMem hTracker
    omega
  | some t =>
    have hOn : batch.tracker = some s.unsettled :=
      hTracker.trans (congrArg some (h.tracked hConf batch hMem hRun t hTracker))
    have hSettled := h.drained hDrained batch hMem hOn
    cases hProgress : batch.progress with
    | settled clean =>
      cases clean with
      | true => rfl
      | false =>
        have hFlag := h.failed hConf batch hMem (by rw [hProgress]; rfl) hOn u hU
        rw [hFailed] at hFlag
        cases hFlag
    | _ =>
      rw [hProgress] at hSettled
      cases hSettled

theorem Sound.swapFailed (h : Sound config s) (hDrained : s.control = .drained)
    (hU : s.trackers[s.unsettled]? = some u) : Sound config
      (if u.failed then
        { s with
          trackers := s.trackers.modify s.unsettled fun u => { u with failed := false }
          unconfirmed := true
          control := .idle }
      else { s with control := .closing }) := by
  split_ifs with hFailed
  · refine ⟨h.delivered, ?_, ?_, fun t u hU => ?_, h.runs, h.phases, h.last, nofun, nofun, nofun,
      nofun, absurd rfl, nofun, h.saved, h.marker⟩
    · rw [length_modify]
      exact h.current
    · intro batch hMem t hT
      rw [length_modify]
      exact h.known batch hMem t hT
    · rw [getElem?_modify] at hU
      obtain ⟨old, hOld, rfl⟩ := Option.map_eq_some_iff.mp hU
      rw [← h.count t old hOld]
      split_ifs <;> rfl
  · refine h.goOn (fun _ hConf => ?_) nofun (fun _ _ => ?_) nofun
    · exact h.doneBefore_succ hDrained hConf hU (Bool.eq_false_iff.mpr hFailed)
    · exact h.inner (by rw [hDrained]; decide) (by rw [hDrained]; decide)

theorem Sound.close (h : Sound config s) (hClosing : s.control = .closing) : Sound config
      { s with
        phase := s.phase + 1
        control := if config.checkpointed && !s.unconfirmed then .saving else .idle } := by
  have hControl :
      (if config.checkpointed && !s.unconfirmed then Control.saving else .idle) ≠ .closing := by
    split_ifs <;> decide
  have hBoundary : s.boundary = s.phase + 1 := if_pos hClosing
  refine
    { h with
      phases := fun batch hMem hRun => Nat.le_succ_of_le (h.phases batch hMem hRun)
      before := fun hConf => ?_
      drained := ?_
      inner := ?_
      saving := ?_
      saved := fun entry hMem => ?_
      marker := fun k hLoad => ?_ }
  · rw [State.boundary_of_ne hControl, ← hBoundary]
    exact h.before hConf
  · intro hDrained
    split_ifs at hDrained
  · intro hIdle hSaving
    split_ifs at hIdle hSaving
    · exact absurd rfl hSaving
    · exact absurd rfl hIdle
  · intro hSaving
    split_ifs at hSaving with hBoth
    rw [Bool.and_eq_true, Bool.not_eq_true'] at hBoth
    exact hBoth.2
  · obtain ⟨hRun, hPhase, hDone⟩ := h.saved entry hMem
    exact ⟨hRun, fun hSame => Nat.le_succ_of_le (hPhase hSame), hDone⟩
  · obtain ⟨hPhase, hDone⟩ := h.marker k hLoad
    exact ⟨Nat.le_succ_of_le hPhase, hDone⟩

theorem Sound.save (h : Sound config s) (hSaving : s.control = .saving) : Sound config
      { s with
        marker := some (toString s.phase ++ " " ++ config.shape)
        saved := s.saved ++ [(s.run, s.phase)]
        control := .idle } := by
  have hDone : s.DoneBefore s.run s.phase :=
    (h.before (h.saving hSaving)).mono State.phase_le_boundary
  refine
    { h with
      before := fun _ => hDone
      drained := nofun
      inner := absurd rfl
      saving := nofun
      saved := forall_mem_snoc h.saved ⟨le_refl _, fun _ => le_refl _, hDone⟩
      marker := fun k hLoad => ?_ }
  have hLe : k ≤ s.phase := by
    rcases load_saved hLoad with rfl | rfl
    · exact le_refl _
    · exact Nat.zero_le _
  exact ⟨hLe, hDone.mono hLe⟩

/-- A new consumer has handed out nothing yet. -/
theorem Sound.restart (h : Sound config s) (hLoad : config.load s.marker = .ok phase) :
    Sound config (s.start (s.run + 1) phase) := by
  have hEarlier : ∀ {batch}, batch ∈ s.batches → batch.run ≠ s.run + 1 := fun hMem =>
    ne_of_lt (Nat.lt_succ_of_le (h.runs _ hMem))
  have hNone : ∀ k, (s.start (s.run + 1) phase).DoneBefore (s.run + 1) k :=
    fun k batch hMem hRun => absurd hRun (hEarlier hMem)
  constructor
  case delivered => exact h.delivered
  case current => simp [State.start]
  case known =>
    intro batch hMem t hT
    rw [State.start, length_append]
    exact Nat.lt_add_right _ (h.known batch hMem t hT)
  case count => exact fun t u => h.freshTracker
  case runs => exact fun batch hMem => Nat.le_succ_of_le (h.runs batch hMem)
  case phases => exact fun batch hMem hRun => absurd hRun (hEarlier hMem)
  case last => exact h.last
  case tracked => exact fun _ batch hMem hRun => absurd hRun (hEarlier hMem)
  case failed =>
    intro _ batch hMem _ hOn
    exact absurd (h.known batch hMem _ hOn) (lt_irrefl _)
  case before => exact fun _ => hNone _
  case drained => exact nofun
  case inner => exact absurd rfl
  case saving => exact nofun
  case saved =>
    intro entry hMem
    obtain ⟨hRun, -, hDone⟩ := h.saved entry hMem
    exact ⟨Nat.le_succ_of_le hRun, fun hSame => absurd hSame (ne_of_lt (Nat.lt_succ_of_le hRun)),
      hDone⟩
  case marker =>
    intro k hAgain
    cases hLoad.symm.trans hAgain
    exact ⟨le_refl _, hNone _⟩

theorem Sound.receive (h : Sound config s) (hIdle : s.control = .idle)
    (answer : Except ConsumerError (List CanonicalMessage)) :
    Sound config (s.receive config answer) := by
  have hLook : s.isLastPhase config ≠ true → Sound config { s with control := .looking } := by
    intro hLast
    rw [State.isLastPhase, ne_eq, decide_eq_true_eq, not_le] at hLast
    exact h.goOn nofun nofun (fun _ _ => hLast) nofun
  rw [State.receive.eq_def]
  split
  next messages =>
    split_ifs with hLast hEmpty
    · rw [State.isLastPhase, decide_eq_true_eq] at hLast
      exact h.handOut hIdle none nofun fun _ => hLast
    · exact hLook hLast
    · exact h.handOut hIdle (some s.unsettled) (fun t hT => (Option.some.inj hT).symm) nofun
  next =>
    split_ifs with hLast
    · exact h
    · exact hLook hLast
  next => exact h

theorem step_sound {action : Action} (h : Sound config s) (hStep : step config s action = some t) :
    Sound config t := by
  cases action with simp only [step] at hStep
  | receive answer =>
    split_ifs at hStep with hIdle
    cases hStep
    exact h.receive hIdle answer
  | look =>
    split_ifs at hStep with hLooking
    obtain ⟨u, hU, rfl⟩ := Option.map_eq_some_iff.mp hStep
    have hInner := h.inner (by rw [hLooking]; decide) (by rw [hLooking]; decide)
    split_ifs with hZero
    · refine h.goOn nofun (fun _ batch hMem hOn => ?_) (fun _ _ => hInner) nofun
      have hNone := countP_eq_zero.mp ((h.count _ u hU).symm.trans hZero) batch hMem
      simpa [Batch.opensOn, hOn] using hNone
    · exact h.goOn nofun nofun (fun _ _ => hInner) nofun
  | changed =>
    split_ifs at hStep with hWait
    cases hStep
    exact h.goOn nofun nofun (fun _ _ =>
      h.inner (by rw [hWait]; decide) (by rw [hWait]; decide)) nofun
  | timeout =>
    split_ifs at hStep with hWait
    cases hStep
    exact h.timeout hWait
  | swapFailed =>
    split_ifs at hStep with hDrained
    obtain ⟨u, hU, rfl⟩ := Option.map_eq_some_iff.mp hStep
    exact h.swapFailed hDrained hU
  | close =>
    obtain ⟨hClosing, ⟨⟩⟩ := Option.ite_none_right_eq_some.mp hStep
    exact h.close hClosing
  | save written =>
    split_ifs at hStep with hSaving
    · cases hStep
      exact h.save hSaving
    · cases hStep
      exact h.goOn nofun nofun (absurd rfl) nofun
  | cancel =>
    split_ifs at hStep
    cases hStep
    exact h.goOn nofun nofun (absurd rfl) nofun
  | batch index event =>
    obtain ⟨batch, hBatch, hMap⟩ := Option.bind_eq_some_iff.mp hStep
    obtain ⟨⟨after, change⟩, hAdv, rfl⟩ := Option.map_eq_some_iff.mp hMap
    exact h.advance hBatch (Batch.advance_spec hAdv)
  | restart =>
    split at hStep
    next phase hLoad =>
      cases hStep
      exact h.restart hLoad
    next => cases hStep

end Steps

theorem new_sound {marker : Option String} {s : State}
    (hNew : new config marker = .ok s) : Sound config s := by
  rw [new] at hNew
  cases hLoad : config.load marker with
  | error error =>
    rw [hLoad] at hNew
    cases hNew
  | ok phase =>
    rw [hLoad] at hNew
    cases hNew
    constructor
    case marker =>
      intro k hAgain
      cases hLoad.symm.trans hAgain
      exact ⟨le_refl _, nofun⟩
    case count =>
      intro t u hU
      rcases getElem?_snoc_eq_some.mp hU with hOld | ⟨-, rfl⟩
      · cases hOld
      · rfl
    case current => exact zero_lt_one
    case inner => exact absurd rfl
    case before => exact fun _ => nofun
    all_goals exact nofun

/-- The marker is never ahead of delivery. When a marker is written, every
batch that the consumer has handed out from the phases before it was committed
successfully and without a Nack; and at any moment a restart would resume at a
phase before which the consumer has handed out nothing else. -/
theorem marker_never_ahead {config : Config} {stored : Option String} {s t : State}
    {actions : List Action} (hNew : new config stored = .ok s)
    (hRun : run (step config) s actions = some t) :
    (∀ entry ∈ t.saved, ∀ batch ∈ t.batches, batch.run = entry.1 → batch.phase < entry.2 →
      batch.Delivered) ∧
    ∀ k, config.load t.marker = .ok k → ∀ batch ∈ t.batches, batch.run = t.run → batch.phase < k →
      batch.Delivered := by
  have h : Sound config t :=
    invariant_of_run (fun _ _ _ => step_sound) (new_sound hNew) hRun
  have hDelivered : ∀ {run phase}, t.DoneBefore run phase → ∀ batch ∈ t.batches, batch.run = run →
      batch.phase < phase → batch.Delivered := by
    intro run phase hDone batch hMem hOf hPhase
    refine h.delivered batch hMem ?_
    rw [hDone batch hMem hOf hPhase]
    rfl
  exact ⟨fun entry hMem => hDelivered (h.saved entry hMem).2.2, fun k hLoad =>
    hDelivered (h.marker k hLoad).2⟩

/-- A backfill of one batch before a stream. The phase is drained while the
batch is being committed. -/
def backfill : List Action :=
  [.receive (.ok [⟨1, [], ∅⟩]), .batch 0 (.commit [.ack]), .receive (.ok []), .look,
    .batch 0 (.committed (.ok ())), .batch 0 .flag, .batch 0 .settle, .changed, .look, .swapFailed,
    .close, .save true]

theorem marker_never_ahead_backfill : ∃ s t, new ⟨["file", "kafka"], true⟩ none = .ok s ∧
      run (step ⟨["file", "kafka"], true⟩) s backfill = some t ∧ t.saved = [(0, 1)] ∧
      t.batches.map (fun batch => (batch.run, batch.phase)) = [(0, 0)] ∧
      ∀ batch ∈ t.batches, batch.Delivered := by
  have hNew : new ⟨["file", "kafka"], true⟩ none =
      .ok (State.start ⟨none, 0, 0, .idle, [], 0, false, [], []⟩ 0 0) := rfl
  obtain ⟨t, hRun, hSaved, hBatches⟩ : ∃ t ∈ run (step ⟨["file", "kafka"], true⟩)
      (State.start ⟨none, 0, 0, .idle, [], 0, false, [], []⟩ 0 0) backfill, t.saved = [(0, 1)] ∧
        t.batches.map (fun batch => (batch.run, batch.phase)) = [(0, 0)] := by decide
  refine ⟨_, t, hNew, hRun, hSaved, hBatches, fun batch hMem => ?_⟩
  have hPair : (batch.run, batch.phase) = (0, 0) := by
    have hMapped := mem_map_of_mem (f := fun batch : Batch => (batch.run, batch.phase)) hMem
    rw [hBatches] at hMapped
    exact mem_singleton.mp hMapped
  obtain ⟨hOf, hPhase⟩ := Prod.mk.inj hPair
  have hEntry : (0, 1) ∈ t.saved := hSaved ▸ mem_singleton.mpr rfl
  exact (marker_never_ahead hNew hRun).1 (0, 1) hEntry batch hMem hOf (hPhase ▸ Nat.zero_lt_one)

end MqBridge.Sequence
