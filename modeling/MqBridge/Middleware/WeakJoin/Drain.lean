import MqBridge.Middleware.WeakJoin.Join

/-! Where the messages of the source are. Each one is in a group, in a join or
discarded, and no step loses or copies any. A route that drains the source
stops on the first empty batch; every message was handed out or discarded by
then if each batch of messages completed a group, or ended the time of one. -/
namespace MqBridge.WeakJoin

open List Option Machine

namespace Intake

variable {config : Config} {intake : Intake}

theorem closeGroup_members (entry : String × Group) :
    (closeGroup config intake entry).members.Perm (intake.members ++ entry.2.members) := by
  unfold closeGroup
  split <;>
  · simp only [members, perm_iff_count, count_append, flatMap_append, flatMap_singleton]
    intro member
    omega

variable (entries : List (String × Group))

theorem closeGroups_members :
    (entries.foldl (closeGroup config) intake).members.Perm
      (intake.members ++ entries.flatMap fun entry => entry.2.members) := by
  induction entries generalizing intake with
  | nil => simp
  | cons entry rest ih =>
    refine ih.trans ?_
    rw [flatMap_cons, ← append_assoc]
    exact (closeGroup_members entry).append_right _

theorem closeGroups_pending :
    (entries.foldl (closeGroup config) intake).pending = intake.pending := by
  induction entries generalizing intake with
  | nil => rfl
  | cons entry rest ih =>
    refine ih.trans ?_
    unfold closeGroup
    split <;> rfl

theorem checkTimeouts_members (config : Config) (intake : Intake) (now : Nat) :
    (intake.checkTimeouts config now).members.Perm intake.members := by
  refine (closeGroups_members _).trans ?_
  have hSplit := (filter_append_perm (fun entry => expired config now entry.2)
    intake.pending).flatMap_right fun entry => entry.2.members
  rw [flatMap_append] at hSplit
  simp only [members, perm_iff_count, count_append] at hSplit ⊢
  intro member
  have hCount := hSplit member
  omega

theorem flushAllPending_members (config : Config) (intake : Intake) :
    (intake.flushAllPending config).members.Perm intake.members := by
  refine (closeGroups_members _).trans ?_
  simp only [members, perm_iff_count, count_append, flatMap_nil, count_nil]
  intro member
  omega

end Intake

theorem takeGroup_members (key : String) (pending : List (String × Group)) :
    (pending.flatMap fun entry => entry.2.members).Perm
      ((takeGroup key pending).1.elim [] Group.members ++
        (takeGroup key pending).2.flatMap fun entry => entry.2.members) := by
  induction pending with
  | nil => rfl
  | cons entry rest ih =>
    rw [takeGroup]
    split
    · rfl
    · simp only [perm_iff_count, count_append, flatMap_cons] at ih ⊢
      intro member
      have hCount := ih member
      omega

namespace Intake

variable {config : Config} {intake : Intake}

theorem enter_members (now : Nat) (member : Member) :
    (intake.enter config now member).members.Perm (intake.members ++ [member]) := by
  unfold enter
  have hTake := takeGroup_members (keyOf config member.message) intake.pending
  have hGroup (found : Option Group) :
      (found.getD ⟨now, []⟩).members = found.elim [] Group.members := by cases found <;> rfl
  simp only [perm_iff_count, count_append] at hTake
  dsimp only
  split <;>
  · simp only [members, perm_iff_count, count_append, flatMap_append, flatMap_singleton, hGroup]
    intro other
    have hCount := hTake other
    omega

theorem enters_members (now : Nat) (entering : List Member) :
    (entering.foldl (fun intake => enter config intake now) intake).members.Perm
      (intake.members ++ entering) := by
  induction entering generalizing intake with
  | nil => simp
  | cons member rest ih =>
    refine ih.trans ?_
    rw [append_cons]
    exact (enter_members now member).append_right _

variable {order : List (String × Group)}

theorem checked_members {s : State} (checked : Nat)
    (hOrder : order.Perm s.pending) : (checkTimeouts config ⟨order, [], []⟩ checked).members.Perm
      (s.pending.flatMap fun entry => entry.2.members) := by
  refine (checkTimeouts_members config _ checked).trans ?_
  simpa [members] using hOrder.flatMap_right fun entry => entry.2.members

theorem enterAll_members {s : State} (entering : List Member)
    (checked now : Nat) (hReady : s.ready = []) (hOrder : order.Perm s.pending) :
    (s.enterAll config entering order checked now).members.Perm
      ((s.pending.flatMap fun entry => entry.2.members) ++ entering) := by
  unfold State.enterAll
  simp only [hReady]
  refine (enters_members now entering).trans (.append_right _ ?_)
  split
  · exact (flushAllPending_members config _).trans (checked_members checked hOrder)
  · exact checked_members checked hOrder

end Intake

namespace State

def inside (s : State) : List Member :=
  (Intake.mk s.pending s.ready (s.call.elim [] Prod.fst)).members ++
    s.waiting.flatMap fun joins => joins.flatMap Join.members

def outside (s : State) : List Member :=
  (s.called.flatMap fun entry => entry.1.flatMap Join.members) ++ s.dropped

/-- Every message that was taken in is in one place. -/
def Accounts (s : State) : Prop := s.received.flatten.Perm (s.inside ++ s.outside)

variable {s : State} {config : Config}

variable (h : s.Accounts)

include h

theorem Accounts.takeReady (max : Nat) : (s.takeReady max).Accounts := by
  have hReady : s.ready.flatMap Join.members =
      (s.ready.take max).flatMap Join.members ++ (s.ready.drop max).flatMap Join.members := by
    rw [← flatMap_append, take_append_drop]
  refine h.trans ?_
  simp only [inside, outside, State.takeReady, Intake.members, flatMap_append,
    flatMap_singleton, hReady, perm_iff_count, count_append]
  intro member
  omega

theorem Accounts.finish (settling : Settling) : (s.finish settling).Accounts := by
  unfold State.finish
  split
  · exact h
  · exact takeReady h _
  · exact h

theorem Accounts.runCommit (settling : Settling) (result : CommitResult) :
    (s.runCommit config settling result).Accounts := by
  unfold State.runCommit
  split
  · split
    · exact h
    · refine finish ?_ _
      exact h
  · split
    · refine finish ?_ _
      exact h
    · exact h

theorem Accounts.settle (owner : Owner) (entries : List (Slot × MessageDisposition)) :
    (s.settle config owner entries).Accounts := by
  unfold State.settle
  split <;> exact h

/-- The discarded messages of a call are dropped when it goes on or ends. -/
theorem Accounts.drop {discarded : List Member} {max : Nat}
    (hCall : s.call = some (discarded, max)) :
    State.Accounts { s with call := none, dropped := s.dropped ++ discarded } := by
  refine h.trans ?_
  simp only [inside, outside, Intake.members, hCall, elim_some, elim_none, perm_iff_count,
    count_append, count_nil]
  intro member
  omega

/-- The commit of a handed-out batch is called. -/
theorem Accounts.call {index : Nat} {joins : List Join}
    (hJoins : s.waiting[index]? =
      some joins) (dispositions : Dispositions) : State.Accounts { s with
      waiting := s.waiting.eraseIdx index
      called := s.called ++ [(joins, dispositions)] } := by
  obtain ⟨hLt, rfl⟩ := List.getElem?_eq_some_iff.mp hJoins
  have hWait := (getElem_cons_eraseIdx_perm hLt).flatMap_right
    fun joins => joins.flatMap Join.members
  simp only [flatMap_cons, perm_iff_count, count_append] at hWait
  refine h.trans ?_
  simp only [inside, outside, flatMap_append, flatMap_singleton, perm_iff_count, count_append]
  intro member
  have hCount := hWait member
  omega

/-- What a call has gathered is stored, with the messages of a new batch. -/
theorem Accounts.store (hCall : s.call = none) (hReady : s.ready = [])
    {intake : Intake} {entering : List Member} {batches : List (List Member)}
    (hIntake : intake.members.Perm ((s.pending.flatMap fun entry => entry.2.members) ++ entering))
    (hBatches : batches.flatten = entering) {t : State}
    (hRecv : t.received = s.received ++ batches)
    (hWait : t.waiting = s.waiting) (hOutside : t.outside = s.outside) (max : Nat) :
    (t.store intake max).Accounts := by
  have hOld : s.received.flatten.Perm _ := h
  simp only [inside, Intake.members, hCall, hReady, elim_none, flatMap_nil,
    perm_iff_count, count_append, count_nil] at hOld hIntake
  have hSame : (t.store intake max).outside = s.outside := hOutside
  unfold Accounts
  rw [hSame]
  simp only [inside, State.store, Intake.members, hRecv, hWait, hBatches, elim_some,
    flatten_append, perm_iff_count, count_append]
  intro member
  have hBefore := hOld member
  have hNow := hIntake member
  omega

end State

theorem call_of_idle {s : State} (h : s.idle = true) : s.call = none := by
  simp only [State.idle, Bool.and_eq_true, isNone_iff_eq_none] at h
  exact h.1

variable {config : Config}

theorem step_accounts {s t : State} {action : Action} (h : s.Accounts)
    (hStep : step config s action = some t) : t.Accounts := by
  cases step_moves hStep with
  | takeReady hIdle => exact h.takeReady _
  | fail | abandon => exact h
  | empty hAsks =>
    exact h.store (call_of_idle hAsks.idle) hAsks.ready
      (Intake.enterAll_members [] _ _ hAsks.ready hAsks.order) flatten_nil
      (append_nil _).symm rfl rfl _
  | register hAsks | take hAsks =>
    apply h.store (call_of_idle hAsks.idle) hAsks.ready
      (Intake.enterAll_members _ _ _ hAsks.ready hAsks.order) flatten_singleton <;> rfl
  | tick hAsks =>
    refine h.store (call_of_idle hAsks.idle) hAsks.ready ?_ flatten_nil
      (append_nil _).symm rfl rfl _
    rw [append_nil]
    exact Intake.checked_members _ hAsks.order
  | ackDiscarded hCall => exact (h.drop hCall).settle _ _
  | handOut hCall => exact (h.drop hCall).takeReady _
  | forget hJoins => exact h.call hJoins _
  | commit hJoins => exact (h.call hJoins _).settle _ _
  | runCommit => exact h.runCommit _ _
  | cancel hCall => exact h.drop hCall

theorem run_accounts {actions : List Action} {state : State}
    (hRun : run (step config) new actions = some state) : state.Accounts := by
  have hNew : new.Accounts := .nil
  exact invariant_of_run (fun s action t => step_accounts) hNew hRun

/-! ### What is emitted -/

/-- A group whose time is up is emitted. -/
def Fires (config : Config) (pending : List (String × Group)) (now : Nat) : Prop :=
  config.onTimeout = .fire ∧ ∃ entry ∈ pending, Intake.expired config now entry.2 = true

def unexpired (config : Config) (pending : List (String × Group)) (now : Nat) :
    List (String × Group) :=
  pending.filter fun entry => !Intake.expired config now entry.2

/-- The messages that wait under a key. -/
def waitingFor (key : String) (pending : List (String × Group)) : List Member :=
  (takeGroup key pending).1.elim [] Group.members

/-- With the messages of the batch one of their groups is complete. -/
def Completes (config : Config) (pending : List (String × Group))
    (messages : List CanonicalMessage) : Prop :=
  ∃ message ∈ messages, isComplete config
    ((waitingFor (keyOf config message) pending).map Member.message ++
      messages.filter fun other => decide (keyOf config other = keyOf config message)) = true

theorem takeGroup_keys (key : String) (pending : List (String × Group)) :
    (takeGroup key pending).2.map Prod.fst = (pending.map Prod.fst).erase key := by
  induction pending with
  | nil => rfl
  | cons entry rest ih =>
    rw [takeGroup, map_cons, erase_cons]
    by_cases hKey : entry.1 = key
    · simp [hKey]
    · simp [hKey, ih]

theorem takeGroup_append_fst (key : String) (pending later : List (String × Group)) :
    (takeGroup key (pending ++ later)).1 =
      (takeGroup key pending).1.or (takeGroup key later).1 := by
  induction pending with
  | nil => rfl
  | cons entry rest ih =>
    rw [cons_append, takeGroup, takeGroup]
    split_ifs
    · rfl
    · exact ih

theorem takeGroup_fst_of_notMem {key : String} {pending : List (String × Group)}
    (hKey : key ∉ pending.map Prod.fst) : (takeGroup key pending).1 = none := by
  induction pending with
  | nil => rfl
  | cons entry rest ih =>
    obtain ⟨hFirst, hRest⟩ := not_or.mp (mt mem_cons.mpr hKey)
    rw [takeGroup, if_neg (Ne.symm hFirst)]
    exact ih hRest

theorem takeGroup_fst_of_ne {key other : String} (hOther : other ≠ key)
    (pending : List (String × Group)) :
    (takeGroup other (takeGroup key pending).2).1 = (takeGroup other pending).1 := by
  induction pending with
  | nil => rfl
  | cons entry rest ih =>
    rw [takeGroup]
    split_ifs with hKey
    · rw [takeGroup, if_neg (hKey ▸ Ne.symm hOther)]
    · rw [takeGroup, takeGroup]
      split_ifs
      · rfl
      · exact ih

namespace Intake

variable {config : Config} {intake : Intake}

theorem closeGroups_ready (entries : List (String × Group)) :
    (entries.foldl (closeGroup config) intake).ready = intake.ready ++
      if config.onTimeout = .discard then []
      else entries.map fun entry => ⟨entry.1, entry.2.members⟩ := by
  induction entries generalizing intake with
  | nil => simp
  | cons entry rest ih =>
    rw [foldl_cons, ih, closeGroup]
    split_ifs <;> simp

theorem enter_keys (hKeys : (intake.pending.map Prod.fst).Nodup) (now : Nat) (member : Member) :
    ((intake.enter config now member).pending.map Prod.fst).Nodup := by
  have hTaken := hKeys.erase (keyOf config member.message)
  rw [← takeGroup_keys] at hTaken
  rw [enter]
  dsimp only
  split_ifs
  · exact hTaken
  · rw [map_append, map_singleton]
    refine hTaken.append (nodup_singleton _) (disjoint_singleton.mpr ?_)
    rw [takeGroup_keys]
    exact hKeys.not_mem_erase

theorem enters_keys (hKeys : (intake.pending.map Prod.fst).Nodup) (now : Nat)
    (entering : List Member) :
    ((entering.foldl (fun intake => enter config intake now) intake).pending.map
      Prod.fst).Nodup := by
  induction entering generalizing intake with
  | nil => exact hKeys
  | cons member rest ih => exact ih (enter_keys hKeys now member)

theorem enters_ready_ne_nil (hReady : intake.ready ≠ []) (now : Nat) (entering : List Member) :
    (entering.foldl (fun intake => enter config intake now) intake).ready ≠ [] := by
  induction entering generalizing intake with
  | nil => exact hReady
  | cons member rest ih =>
    refine ih ?_
    unfold enter
    dsimp only
    split_ifs
    · simp
    · exact hReady

/-- A message that completes no group waits behind those of its key. -/
theorem enter_waiting (hKeys : (intake.pending.map Prod.fst).Nodup) {now : Nat} {member : Member}
    (hReady : (intake.enter config now member).ready = []) (key : String) :
    waitingFor key (intake.enter config now member).pending =
        waitingFor key intake.pending ++ [member].filter
          (fun other => decide (keyOf config other.message = key)) ∧
      (keyOf config member.message = key →
        ¬isComplete config
          ((waitingFor key intake.pending ++ [member]).map Member.message) = true) := by
  have hGroup (found : Option Group) :
      (found.getD ⟨now, []⟩).members = found.elim [] Group.members := by cases found <;> rfl
  unfold enter at hReady ⊢
  dsimp only at hReady ⊢
  rw [hGroup] at hReady ⊢
  split_ifs at hReady ⊢ with hComplete
  · exact absurd hReady (by simp)
  · refine ⟨?_, fun hSame => hSame ▸ hComplete⟩
    rw [waitingFor, takeGroup_append_fst]
    by_cases hSame : keyOf config member.message = key
    · subst hSame
      have hNone := takeGroup_fst_of_notMem ((takeGroup_keys _ intake.pending).symm ▸
        hKeys.not_mem_erase (a := keyOf config member.message))
      simp [hNone, takeGroup, waitingFor]
    · rw [takeGroup_fst_of_ne (Ne.symm hSame)]
      simp [hSame, takeGroup, waitingFor]

theorem enters_ready_of_complete (hKeys : (intake.pending.map Prod.fst).Nodup) {now : Nat}
    {entering : List Member} {key : String}
    (hMem : ∃ member ∈ entering, keyOf config member.message = key)
    (hComplete : isComplete config
      ((waitingFor key intake.pending ++ entering.filter
        fun other => decide (keyOf config other.message = key)).map Member.message) = true) :
    (entering.foldl (fun intake => enter config intake now) intake).ready ≠ [] := by
  -- as long as nothing is emitted, what waits under the key grows by the batch
  induction entering generalizing intake with
  | nil => exact absurd hMem (by simp)
  | cons first rest ih =>
    by_cases hReady : (intake.enter config now first).ready = []
    · obtain ⟨hWait, hIncomplete⟩ := enter_waiting hKeys hReady key
      by_cases hLater : ∃ member ∈ rest, keyOf config member.message = key
      · refine ih (enter_keys hKeys now first) hLater ?_
        rw [hWait, append_assoc, ← filter_append]
        exact hComplete
      · have hFirst : keyOf config first.message = key := by
          obtain ⟨member, hMem, hKey⟩ := hMem
          rcases mem_cons.mp hMem with rfl | hRest
          · exact hKey
          · exact absurd ⟨member, hRest, hKey⟩ hLater
        have hNone : rest.filter (fun other => decide (keyOf config other.message = key)) = [] :=
          filter_eq_nil_iff.mpr fun member hRest hKey =>
            hLater ⟨member, hRest, of_decide_eq_true hKey⟩
        rw [filter_cons, if_pos (decide_eq_true hFirst), hNone] at hComplete
        exact absurd hComplete (hIncomplete hFirst)
    · exact enters_ready_ne_nil hReady now rest

theorem checkTimeouts_pending (order : List (String × Group)) (now : Nat) :
    (checkTimeouts config ⟨order, [], []⟩ now).pending = unexpired config order now :=
  closeGroups_pending _

theorem checkTimeouts_ready_ne_nil {order : List (String × Group)} {now : Nat}
    (hFires : Fires config order now) : (checkTimeouts config ⟨order, [], []⟩ now).ready ≠ [] := by
  obtain ⟨hFire, entry, hMem, hExpired⟩ := hFires
  rw [checkTimeouts, closeGroups_ready, hFire, if_neg nofun, nil_append]
  exact ne_nil_of_mem (mem_map_of_mem (mem_filter.mpr ⟨hMem, hExpired⟩))

theorem checkTimeouts_ready_of_discard (hDiscard : config.onTimeout = .discard)
    (order : List (String × Group)) (now : Nat) :
    (checkTimeouts config ⟨order, [], []⟩ now).ready = [] := by
  rw [checkTimeouts, closeGroups_ready, if_pos hDiscard, append_nil]

variable {s : State} {order : List (String × Group)} (checked now : Nat)

theorem enterAll_keys (hKeys : (order.map Prod.fst).Nodup) (entering : List Member) :
    ((s.enterAll config entering order checked now).pending.map Prod.fst).Nodup := by
  refine enters_keys ?_ now entering
  split
  · rw [flushAllPending, closeGroups_pending]
    exact nodup_nil
  · rw [checkTimeouts_pending]
    exact hKeys.sublist (filter_sublist.map _)

theorem enterAll_ready {messages : List CanonicalMessage} {entering : List Member}
    (hEntering : entering.map Member.message = messages) (hSome : messages ≠ [])
    (hReady : s.ready = []) (hKeys : (order.map Prod.fst).Nodup)
    (hYields : Fires config order checked ∨
      Completes config (unexpired config order checked) messages) :
    (s.enterAll config entering order checked now).ready ≠ [] := by
  have hEmpty : entering.isEmpty = false := by
    rw [← hEntering] at hSome
    simpa using hSome
  simp only [State.enterAll, hReady, hEmpty, Bool.false_and, Bool.false_eq_true, if_false,
    nil_append]
  rcases hYields with hFires | ⟨message, hMem, hComplete⟩
  · exact enters_ready_ne_nil (checkTimeouts_ready_ne_nil hFires) now entering
  · rw [← hEntering] at hMem hComplete
    obtain ⟨member, hMember, rfl⟩ := mem_map.mp hMem
    refine enters_ready_of_complete ?_ ⟨member, hMember, rfl⟩ ?_
    · rw [checkTimeouts_pending]
      exact hKeys.sublist (filter_sublist.map _)
    · rw [checkTimeouts_pending, map_append]
      rw [List.filter_map] at hComplete
      exact hComplete

theorem enterAll_empty (hExit : config.exitOnEmpty = true) (hReady : s.ready = []) :
    (s.enterAll config [] order checked now).pending = [] ∧
      (config.onTimeout = .discard ∨ order = [] →
        (s.enterAll config [] order checked now).ready = []) := by
  simp only [State.enterAll, hExit, hReady, isEmpty_nil, Bool.and_true, if_true, foldl_nil,
    nil_append]
  refine ⟨closeGroups_pending _, ?_⟩
  rw [flushAllPending, closeGroups_ready]
  rintro (hDiscard | rfl)
  · rw [checkTimeouts_ready_of_discard hDiscard, if_pos hDiscard, append_nil]
  · split_ifs <;> rfl

end Intake

theorem membersOf_message (seq : Option Nat) (messages : List CanonicalMessage) :
    (membersOf seq messages).map Member.message = messages := by
  rw [membersOf, List.map_map]
  exact zipIdx_map_fst 0 messages

/-! ### An empty batch -/

/-- The call hands out a join, or it leaves nothing behind and the source has answered
with an empty batch. -/
def Action.Yields (config : Config) (s : State) : Action → Prop
  | takeReady max => 0 < max
  | receive _ (.error _) _ _ _ _ => True
  | receive max (.ok []) _ order _ _ => 0 < max ∨ config.onTimeout = .discard ∨ order = []
  | receive max (.ok messages) onReceive order checked _ =>
    config.ack = .onReceive ∧ onReceive ≠ .ok () ∨
      0 < max ∧
        (Fires config order checked ∨ Completes config (unexpired config order checked) messages)
  | tick max order now =>
    0 < max ∧ Fires config order now ∨
      s.drained = true ∧ unexpired config order now = [] ∧
        (config.onTimeout = .discard ∨ order = [])
  | _ => True

/-- The source has answered with an empty batch and nothing is left. -/
def State.Drained (s : State) : Prop := s.drained = true ∧ s.pending = [] ∧ s.ready = []

/-- What is handed out, at most so many joins, is empty only if nothing is left. -/
def State.Due (s : State) (max : Nat) : Prop := 0 < max ∧ s.ready ≠ [] ∨ s.Drained

structure Drains (s : State) : Prop where
  keys : (s.pending.map Prod.fst).Nodup
  call : ∀ discarded max, s.call = some (discarded, max) → s.Due max
  settling : ∀ settling max, s.settling = some settling → settling.owner = .receive max →
    s.Due max ∧ s.call = none
  returned : s.returned = some (.ok []) → s.Drained ∧ s.call = none

namespace Drains

variable {s : State} {config : Config}

section

variable (h : Drains s)

include h

theorem takeReady (hCall : s.call = none) {max : Nat} (hDue : s.Due max)
    (hFree : ∀ settling other, s.settling = some settling → settling.owner ≠ .receive other) :
    Drains (s.takeReady max) := by
  refine ⟨h.keys, fun discarded other hSome => ?_, fun settling other hSome hOwner => ?_,
    fun hReturned => ⟨?_, hCall⟩⟩
  · cases hCall.symm.trans hSome
  · exact absurd hOwner (hFree settling other hSome)
  · simp only [State.takeReady, some.injEq, Except.ok.injEq] at hReturned
    rcases hDue with ⟨hMax, hReady⟩ | ⟨hDrained, hPend, hReady⟩
    · exact absurd hReturned (mt take_eq_nil_iff.mp (not_or.mpr ⟨hMax.ne', hReady⟩))
    · exact ⟨hDrained, hPend, by simp [State.takeReady, hReady]⟩

theorem unlock : Drains { s with settling := none } :=
  { h with settling := nofun }

theorem finish {settling last : Settling} (hSettling : s.settling = some settling)
    (hOwner : last.owner = settling.owner) : Drains (s.finish last) := by
  unfold State.finish
  split
  · exact h.unlock
  case h_2 hReceive _ =>
    obtain ⟨hDue, hCall⟩ := h.settling _ _ hSettling (hOwner.symm.trans hReceive)
    exact h.unlock.takeReady hCall hDue nofun
  · exact ⟨h.keys, h.call, nofun, nofun⟩

theorem runCommit {settling : Settling} (hSettling : s.settling = some settling)
    (result : CommitResult) : Drains (s.runCommit config settling result) := by
  unfold State.runCommit
  split
  · split
    · exact { h with }
    · refine finish ?_ hSettling rfl
      exact { h with }
  · split
    · refine finish ?_ hSettling rfl
      exact { h with }
    · refine { h with settling := fun next max hNext hOwner => ?_ }
      cases hNext
      exact h.settling _ _ hSettling hOwner

theorem settle {owner : Owner} (hOwner : ∀ max, owner = .receive max → s.Due max ∧ s.call = none)
    (entries : List (Slot × MessageDisposition)) : Drains (s.settle config owner entries) := by
  unfold State.settle
  split
  · exact { h with }
  · refine { h with settling := fun settling max hSettling => ?_ }
    cases hSettling
    exact hOwner max

theorem drop (dropped : List Member) : Drains { s with call := none, dropped := dropped } :=
  ⟨h.keys, nofun, fun settling max hSettling hOwner =>
    ⟨(h.settling settling max hSettling hOwner).1, rfl⟩,
    fun hReturned => ⟨(h.returned hReturned).1, rfl⟩⟩

end

theorem free_of_idle (hIdle : s.idle = true) {settling : Settling} {max : Nat}
    (hSettling : s.settling = some settling) : settling.owner ≠ .receive max := by
  intro hOwner
  simp only [State.idle, hSettling, all_some, hOwner, Bool.and_eq_true] at hIdle
  cases hIdle.2

theorem store (hIdle : s.idle = true) {intake : Intake} {max : Nat}
    (hKeys : (intake.pending.map Prod.fst).Nodup) (hDue : (s.store intake max).Due max) :
    Drains (s.store intake max) := by
  refine ⟨hKeys, fun discarded other hCall => ?_, fun settling other hSettling hOwner => ?_, nofun⟩
  · cases hCall
    exact hDue
  · exact absurd hOwner (free_of_idle hIdle hSettling)

end Drains

theorem drains_new : Drains new := ⟨nodup_nil, nofun, nofun, nofun⟩

theorem due_of_empty (hExit : config.exitOnEmpty = true) {s : State} {max checked now : Nat}
    {order : List (String × Group)} (hAsks : s.Asks order)
    (hYields : 0 < max ∨ config.onTimeout = .discard ∨ order = []) :
    (State.store { s with drained := true } (s.enterAll config [] order checked now) max).Due
      max := by
  obtain ⟨hPend, hReady⟩ := @Intake.enterAll_empty config s order checked now hExit hAsks.ready
  by_cases hNone : (s.enterAll config [] order checked now).ready = []
  · exact .inr ⟨rfl, hPend, hNone⟩
  · exact .inl ⟨hYields.resolve_right (mt hReady hNone), hNone⟩

theorem emits_of_yields {s : State} {max checked now : Nat} {messages : List CanonicalMessage}
    {onReceive : CommitResult} {order : List (String × Group)} (hMsgs : messages ≠ [])
    (hTaken : config.ack = .onReceive → onReceive = .ok ())
    (hYields : (Action.receive max (.ok messages) onReceive order checked now).Yields config s) :
    0 < max ∧
      (Fires config order checked ∨
        Completes config (unexpired config order checked) messages) := by
  cases messages with
  | nil => exact absurd rfl hMsgs
  | cons message rest => exact hYields.resolve_left fun ⟨hAck, hFailed⟩ => hFailed (hTaken hAck)

theorem step_drains (hExit : config.exitOnEmpty = true) {s t : State}
    {action : Action} (h : Drains s) (hYields : action.Yields config s)
    (hStep : step config s action = some t) : Drains t := by
  have hOrdered {order : List (String × Group)} (hAsks : s.Asks order) :
      (order.map Prod.fst).Nodup := (hAsks.order.map _).nodup_iff.mpr h.keys
  cases step_moves hStep with
  | takeReady hIdle hReady =>
    exact h.takeReady (call_of_idle hIdle) (.inl ⟨hYields, hReady⟩)
      fun _ _ hSettling => Drains.free_of_idle hIdle hSettling
  | fail hIdle => exact ⟨h.keys, h.call, h.settling, nofun⟩
  | empty hAsks =>
    refine .store (s := { s with drained := true }) hAsks.idle
      (Intake.enterAll_keys _ _ (hOrdered hAsks) _) ?_
    exact due_of_empty hExit hAsks hYields
  | @register max _ _ messages _ _ hAsks hMsgs hAck =>
    refine .store (s := (s.register messages).1) hAsks.idle
      (Intake.enterAll_keys _ _ (hOrdered hAsks) _) (.inl ?_)
    obtain ⟨hMax, hEmits⟩ :=
      emits_of_yields hMsgs (fun hOther => by cases hAck.symm.trans hOther) hYields
    exact ⟨hMax, Intake.enterAll_ready _ _ (membersOf_message _ _) hMsgs hAsks.ready
      (hOrdered hAsks) hEmits⟩
  | @take max _ _ messages _ hAsks hMsgs hAck =>
    refine .store (s := { s with received := s.received ++ [membersOf none messages] }) hAsks.idle
      (Intake.enterAll_keys _ _ (hOrdered hAsks) _) (.inl ?_)
    obtain ⟨hMax, hEmits⟩ := emits_of_yields hMsgs (fun _ => rfl) hYields
    exact ⟨hMax, Intake.enterAll_ready _ _ (membersOf_message _ _) hMsgs hAsks.ready
      (hOrdered hAsks) hEmits⟩
  | tick hAsks =>
    refine .store hAsks.idle ?_ ?_
    · rw [Intake.checkTimeouts_pending]
      exact (hOrdered hAsks).sublist (filter_sublist.map _)
    · rcases hYields with ⟨hMax, hFires⟩ | ⟨hDrained, hPend, hReady⟩
      · exact .inl ⟨hMax, Intake.checkTimeouts_ready_ne_nil hFires⟩
      · refine .inr ⟨hDrained, (Intake.checkTimeouts_pending ..).trans hPend, ?_⟩
        rcases hReady with hDiscard | rfl
        · exact Intake.checkTimeouts_ready_of_discard hDiscard _ _
        · rfl
  | ackDiscarded hCall =>
    refine (h.drop _).settle (fun max hOwner => ⟨?_, rfl⟩) _
    cases hOwner
    exact h.call _ _ hCall
  | handOut hCall =>
    refine (h.drop _).takeReady rfl (h.call _ _ hCall) fun settling max hSettling hOwner => ?_
    cases hCall.symm.trans (h.settling settling max hSettling hOwner).2
  | forget => exact { h with }
  | commit =>
    apply Drains.settle
    · exact { h with }
    · nofun
  | runCommit hSettling => exact h.runCommit hSettling _
  | abandon => exact h.unlock
  | cancel => exact h.drop _

/-- A call returns an empty batch only after the source has answered with one. By
then no message waits in a group or in a join, and each one that was taken in
was handed out in a join or discarded. -/
theorem empty_after_drained {config : Config} (hExit : config.exitOnEmpty = true)
    {actions : List Action}
    (hYields : Guarded (step config) (fun s a => a.Yields config s) new actions)
    {state : State} (hRun : run (step config) new actions = some state)
    (hReturned : state.returned = some (.ok [])) :
    state.drained = true ∧ state.pending = [] ∧ state.ready = [] ∧
      state.received.flatten.Perm
        ((state.waiting.flatMap fun joins => joins.flatMap Join.members) ++
          (state.called.flatMap fun entry => entry.1.flatMap Join.members) ++ state.dropped) := by
  have hAccounts := run_accounts hRun
  have hDrains : Drains state :=
    invariant_of_guarded (fun _ _ _ => step_drains hExit) drains_new hYields hRun
  obtain ⟨⟨hDrained, hPend, hReady⟩, hCall⟩ := hDrains.returned hReturned
  refine ⟨hDrained, hPend, hReady, hAccounts.trans ?_⟩
  simp [State.inside, State.outside, Intake.members, hPend, hReady, hCall]

def pairs : Config where
  groupBy := "group_id"
  expectedCount := 2
  timeoutMs := 1000
  branchBy := none
  required := []
  onTimeout := .fire
  ack := .onJoin
  commitRequiresOrder := true
  exitOnEmpty := true

instance (s : State) : DecidablePred (Action.Yields pairs s) := fun action => by
  unfold Action.Yields Fires Completes
  split <;> infer_instance

/-- The first batch completes a pair and leaves a message, which is handed out alone
when the source is drained; the next call returns an empty batch. -/
theorem empty_after_drained_single : ∃ state, run (step pairs) new
        [.receive 10 (.ok [⟨1, [], ∅⟩, ⟨2, [], ∅⟩, ⟨3, [], ∅⟩]) (.ok ()) [] 0 0, .ackDiscarded,
          .receive 10 (.ok []) (.ok ()) [("default", ⟨0, [⟨⟨3, [], ∅⟩, some ⟨0, 2⟩⟩]⟩)] 5 5,
          .ackDiscarded, .receive 10 (.ok []) (.ok ()) [] 6 6, .ackDiscarded] = some state ∧
      state.returned = some (.ok []) ∧ state.drained = true ∧ state.pending = [] ∧
      state.ready = [] ∧ state.received.flatten.Perm
        ((state.waiting.flatMap fun joins => joins.flatMap Join.members) ++
          (state.called.flatMap fun entry => entry.1.flatMap Join.members) ++ state.dropped) := by
  refine exists_run (fun state => state.returned = some (.ok [])) (by decide +kernel) ?_
  intro state hRun hReturned
  exact ⟨hReturned, empty_after_drained rfl (by decide +kernel) hRun hReturned⟩

/-- The first message of a pair arrives. The call returns an empty batch
although the source has messages left, and the message waits in its group. -/
theorem empty_before_drained : (run (step pairs) new
        [.receive 10 (.ok [⟨1, [], ∅⟩]) (.ok ()) [] 0 0, .ackDiscarded]).map
      (fun state => (state.returned, state.drained, state.pending)) =
    some (some (.ok []), false, [("default", ⟨0, [⟨⟨1, [], ∅⟩, some ⟨0, 0⟩⟩]⟩)]) := by decide

end MqBridge.WeakJoin
