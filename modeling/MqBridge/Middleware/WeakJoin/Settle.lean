import Mathlib.Data.List.Range
import MqBridge.Middleware.WeakJoin.Drain

/-! The acknowledgements of the weak join. A message is settled once, with the
disposition of its join or as dropped on purpose, and the commit of a source
batch is called once, when all its messages are settled. -/
namespace MqBridge.WeakJoin

open List Machine

/-- What became of a message: the disposition that its join was committed
with, or an acknowledgement if it was discarded. -/
def State.Decides (s : State) (member : Member) (disposition : MessageDisposition) : Prop :=
  (∃ entry ∈ s.called, ∃ (j : Nat) (join : Join), entry.1[j]? = some join ∧ member ∈ join.members ∧
    entry.2[j]? = some disposition) ∨ member ∈ s.dropped ∧ disposition = .ack

theorem State.Decides.mem_outside {s : State} {member : Member} {disposition : MessageDisposition}
    (h : s.Decides member disposition) : member ∈ s.outside := by
  rcases h with ⟨entry, hEntry, j, join, hJoin, hMember, -⟩ | ⟨hDropped, -⟩
  · refine mem_append_left _ (mem_flatMap.mpr ⟨entry, hEntry, ?_⟩)
    exact mem_flatMap.mpr ⟨join, mem_of_getElem? hJoin, hMember⟩
  · exact mem_append_right _ hDropped

def State.due (s : State) : DueCommits := s.settling.elim [] Settling.due

/-- Each message has the slot of its place in its batch. -/
structure Numbered (received : List (List Member)) : Prop where
  slot : ∀ (seq : Nat) (batch : List Member) (idx : Nat) (member : Member),
    received[seq]? = some batch → batch[idx]? = some member → member.slot = some ⟨seq, idx⟩
  nodup : (received.flatten.filterMap Member.slot).Nodup

namespace Numbered

variable {received : List (List Member)}

theorem find (h : Numbered received) {member : Member} (hMem : member ∈ received.flatten)
    {slot : Slot} (hSlot : member.slot = some slot) :
    ∃ batch, received[slot.seq]? = some batch ∧ batch[slot.idx]? = some member := by
  obtain ⟨batch, hBatch, hMember⟩ := mem_flatten.mp hMem
  obtain ⟨seq, hSeq⟩ := getElem?_of_mem hBatch
  obtain ⟨idx, hIdx⟩ := getElem?_of_mem hMember
  cases hSlot.symm.trans (h.slot seq batch idx member hSeq hIdx)
  exact ⟨batch, hSeq, hIdx⟩

theorem place (h : Numbered received) {slot : Slot}
    (hMem : slot ∈ received.flatten.filterMap Member.slot) :
    ∃ size, (received.map List.length)[slot.seq]? = some size ∧ slot.idx < size := by
  obtain ⟨member, hMember, hSlot⟩ := mem_filterMap.mp hMem
  obtain ⟨batch, hBatch, hIdx⟩ := h.find hMember hSlot
  exact ⟨batch.length, by rw [getElem?_map, hBatch]; rfl, (List.getElem?_eq_some_iff.mp hIdx).1⟩

theorem slots_membersOf (seq : Nat) (messages : List CanonicalMessage) :
    (membersOf (some seq) messages).filterMap Member.slot =
      (List.range' 0 messages.length).map (Slot.mk seq) := by
  rw [membersOf, filterMap_map, ← zipIdx_map_snd 0 messages, map_map]
  exact congrFun filterMap_eq_map' _

theorem register (h : Numbered received) (messages : List CanonicalMessage) :
    Numbered (received ++ [membersOf (some received.length) messages]) := by
  constructor
  case slot =>
    intro seq batch idx member hBatch hMember
    rcases Places.getElem?_snoc_eq_some.mp hBatch with hOld | ⟨rfl, rfl⟩
    · exact h.slot seq batch idx member hOld hMember
    · simp only [membersOf, getElem?_map, getElem?_zipIdx, Option.map_map, Option.map_eq_some_iff]
        at hMember
      obtain ⟨message, -, rfl⟩ := hMember
      simp
  case nodup =>
    rw [flatten_append, flatten_singleton, filterMap_append, slots_membersOf]
    refine nodup_append.mpr ⟨h.nodup, (nodup_range' ..).map fun a b hEq => ?_, ?_⟩
    · exact (Slot.mk.inj hEq).2
    · rintro slot hOld other hNew rfl
      obtain ⟨idx, -, rfl⟩ := mem_map.mp hNew
      obtain ⟨size, hSize, -⟩ := h.place hOld
      have hLt := (List.getElem?_eq_some_iff.mp hSize).1
      rw [length_map] at hLt
      exact lt_irrefl _ hLt

end Numbered

/-- The tracker beside what the machine has received, settled and called. -/
structure Sound (config : Config) (s : State) : Prop where
  accounts : s.Accounts
  numbered : Numbered s.received
  tracks : Tracks config.commitRequiresOrder (s.received.map List.length) s.settled s.tracker
    (s.commits ++ s.due)
  due : config.commitRequiresOrder = true → s.due = []
  decided : ∀ entry ∈ s.settled, ∃ member, member.slot = some entry.1 ∧ s.Decides member entry.2
  whole : s.panicked = false

namespace Sound

variable {config : Config} {s : State}

section

variable (h : Sound config s)

include h

theorem slots_nodup : ((s.inside ++ s.outside).filterMap Member.slot).Nodup :=
  (h.accounts.filterMap Member.slot).nodup_iff.mp h.numbered.nodup

variable {entries : List (Slot × MessageDisposition)} {members : List Member}

/-- Messages that leave the inside are not settled yet. -/
theorem fresh (hMembers : members.Sublist s.inside)
    (hEntries : (entries.map Prod.fst).Sublist (members.filterMap Member.slot)) :
    (s.settled.map Prod.fst ++ entries.map Prod.fst).Nodup ∧
      ∀ entry ∈ entries, ∃ size, (s.received.map List.length)[entry.1.seq]? = some size ∧
        entry.1.idx < size := by
  have hSub : (entries.map Prod.fst).Sublist (s.inside.filterMap Member.slot) :=
    hEntries.trans (hMembers.filterMap Member.slot)
  have hNodup := h.slots_nodup
  rw [filterMap_append] at hNodup
  obtain ⟨hInside, -, hApart⟩ := nodup_append.mp hNodup
  constructor
  · refine nodup_append.mpr ⟨h.tracks.settlement.nodup, hInside.sublist hSub, ?_⟩
    rintro slot hSettled other hNew rfl
    obtain ⟨entry, hEntry, rfl⟩ := mem_map.mp hSettled
    obtain ⟨member, hSlot, hDecided⟩ := h.decided entry hEntry
    have hOutside := mem_filterMap.mpr ⟨member, hDecided.mem_outside, hSlot⟩
    exact hApart _ (hSub.subset hNew) _ hOutside rfl
  · intro entry hMem
    refine h.numbered.place ((h.accounts.filterMap Member.slot).mem_iff.mpr ?_)
    rw [filterMap_append]
    exact mem_append_left _ (hSub.subset (mem_map_of_mem hMem))

/-- Messages leave the inside and are settled. -/
theorem settle (hFree : s.settling = none) (hMembers : members.Sublist s.inside)
    (hEntries : (entries.map Prod.fst).Sublist (members.filterMap Member.slot))
    {call : Option (List Member × Nat)}
    {dropped : List Member} {waiting : List (List Join)} {called : List (List Join × Dispositions)}
    (owner : Owner) :
    let t : State :=
      { s with call := call, dropped := dropped, waiting := waiting, called := called }
    t.Accounts →
      (∀ member disposition, s.Decides member disposition → t.Decides member disposition) →
      (∀ entry ∈ entries, ∃ member, member.slot = some entry.1 ∧ t.Decides member entry.2) →
      Sound config (t.settle config owner entries) := by
  intro t hAccounts hDecides hNew
  obtain ⟨hFresh, hPlace⟩ := h.fresh hMembers hEntries
  have hOld := h.tracks
  rw [State.due, hFree, Option.elim_none, append_nil] at hOld
  obtain ⟨tracker, due, hSettle, hTracks, hDue⟩ := hOld.settleAll hFresh hPlace
  have hDecided : ∀ entry ∈ s.settled ++ entries, ∃ member, member.slot = some entry.1 ∧
      t.Decides member entry.2 := by
    refine forall_mem_append.mpr ⟨fun entry hMem => ?_, hNew⟩
    obtain ⟨member, hSlot, hOld⟩ := h.decided entry hMem
    exact ⟨member, hSlot, hDecides member _ hOld⟩
  obtain ⟨later, last, hPop, hLast, hLater⟩ : ∃ later last,
      (if config.commitRequiresOrder = true then ([], tracker)
        else tracker.popAll tracker.batches.length) = (later, last) ∧
      Tracks config.commitRequiresOrder (s.received.map length) (s.settled ++ entries) last
        (s.commits ++ (due ++ later)) ∧
          (config.commitRequiresOrder = true → due ++ later = []) := by
    split
    case isTrue hOrdered =>
      refine ⟨[], tracker, rfl, ?_, fun _ => ?_⟩
      · rwa [append_nil]
      · rw [hDue hOrdered, append_nil]
    case isFalse hUnordered =>
      refine ⟨_, _, rfl, ?_, fun hOrdered => absurd hOrdered hUnordered⟩
      rw [← append_assoc]
      exact hTracks.popAll _
  simp only [State.settle, t, hSettle, hPop]
  exact ⟨hAccounts, h.numbered, hLast, hLater, hDecided, h.whole⟩

theorem ackDiscarded {discarded : List Member} {max : Nat}
    (hCall : s.call = some (discarded, max)) (hFree : s.settling = none) :
    Sound config (State.settle config { s with call := none, dropped := s.dropped ++ discarded }
      (.receive max) ((discarded.filterMap Member.slot).map fun slot => (slot, .ack))) := by
  have hMembers : discarded.Sublist s.inside := by
    simp only [State.inside, hCall]
    exact (sublist_append_right _ _).trans (sublist_append_left _ _)
  refine h.settle hFree hMembers ?_ _ (h.accounts.drop hCall) ?_ ?_
  · rw [map_map, Function.comp_def, map_id']
  · exact fun member disposition hOld => hOld.imp_right
      fun hDropped => ⟨mem_append_left _ hDropped.1, hDropped.2⟩
  · intro entry hMem
    obtain ⟨slot, hSlot, rfl⟩ := mem_map.mp hMem
    obtain ⟨member, hMember, hSlot⟩ := mem_filterMap.mp hSlot
    exact ⟨member, hSlot, .inr ⟨mem_append_right _ hMember, rfl⟩⟩

end

/-- The dispositions may be fewer than the joins: these are left unsettled. -/
theorem slots_settlements (joins : List Join) (dispositions : Dispositions) :
    ((settlements joins dispositions).map Prod.fst).Sublist
      ((joins.flatMap Join.members).filterMap Member.slot) := by
  induction joins generalizing dispositions with
  | nil => exact nil_sublist _
  | cons join rest ih =>
    cases dispositions with
    | nil => exact nil_sublist _
    | cons disposition later =>
      simp only [settlements, zip_cons_cons, flatMap_cons, map_append, map_map,
        filterMap_append, Function.comp_def, map_id']
      exact (Sublist.refl _).append (ih later)

variable (h : Sound config s)

include h

theorem commit {index : Nat} {joins : List Join}
    (hJoins : s.waiting[index]? = some joins) (hFree : s.settling = none)
    (dispositions : Dispositions) : Sound config (State.settle config { s with
        waiting := s.waiting.eraseIdx index
        called :=
          s.called ++ [(joins, dispositions)] } .commit (settlements joins dispositions)) := by
  have hMembers : (joins.flatMap Join.members).Sublist s.inside := by
    refine trans ?_ (sublist_append_right _ _)
    exact sublist_flatten_of_mem (mem_map_of_mem (mem_of_getElem? hJoins))
  refine h.settle hFree hMembers (slots_settlements joins dispositions) _
    (h.accounts.call hJoins dispositions) ?_ ?_
  · refine fun member disposition hOld => hOld.imp_left ?_
    rintro ⟨entry, hMem, hRest⟩
    exact ⟨entry, mem_append_left _ hMem, hRest⟩
  · intro entry hMem
    obtain ⟨⟨join, disposition⟩, hPair, hMem⟩ := mem_flatMap.mp hMem
    obtain ⟨slot, hSlot, rfl⟩ := mem_map.mp hMem
    obtain ⟨member, hMember, hSlot⟩ := mem_filterMap.mp hSlot
    obtain ⟨j, hJ⟩ := getElem?_of_mem hPair
    obtain ⟨hJoin, hDisposition⟩ := getElem?_zip_eq_some.mp hJ
    exact ⟨member, hSlot, .inl ⟨(joins, dispositions), mem_concat_self, j, join,
      hJoin, hMember, hDisposition⟩⟩

theorem drop {discarded : List Member} {max : Nat}
    (hCall : s.call = some (discarded, max)) :
    Sound config { s with call := none, dropped := s.dropped ++ discarded } := by
  refine { h with accounts := h.accounts.drop hCall, decided := fun entry hMem => ?_ }
  obtain ⟨member, hSlot, hDecides⟩ := h.decided entry hMem
  exact ⟨member, hSlot, hDecides.imp_right fun hDropped =>
    ⟨mem_append_left _ hDropped.1, hDropped.2⟩⟩

theorem takeReady (max : Nat) : Sound config (s.takeReady max) :=
  { h with accounts := h.accounts.takeReady max }

theorem unlock : Sound config { s with settling := none } := by
  refine { h with tracks := ?_, due := fun _ => rfl }
  exact (append_nil s.commits).symm ▸ h.tracks.forget h.due

theorem finish (settling : Settling) : Sound config (s.finish settling) := by
  unfold State.finish
  split
  · exact h.unlock
  · exact h.unlock.takeReady _
  · have hFree := h.unlock
    exact { hFree with }

theorem runCommit {settling : Settling} (hSettling : s.settling = some settling)
    (result : CommitResult) : Sound config (s.runCommit config settling result) := by
  have hDue : s.due = settling.due := by rw [State.due, hSettling, Option.elim_some]
  unfold State.runCommit
  split
  case h_1 due tracker hPop =>
    -- only an ordered source pops here, and it has nothing else that is due
    have hOrdered : config.commitRequiresOrder = true := by
      by_contra hUnordered
      rw [if_neg hUnordered] at hPop
      cases hPop
    have hPopped := h.tracks.popDue
    rw [if_pos hOrdered] at hPop
    rw [hPop, h.due hOrdered, append_nil] at hPopped
    have hNext : Sound config { s with tracker := tracker, commits := s.commits ++ [due] } := by
      refine { h with tracks := ?_ }
      have hNone : State.due { s with tracker := tracker, commits := s.commits ++ [due] } = [] :=
        h.due hOrdered
      rw [hNone, append_nil]
      exact hPopped
    split
    · exact hNext
    · exact hNext.finish _
  case h_2 tracker hPop =>
    have hNext : Sound config { s with tracker := tracker } := by
      refine { h with tracks := ?_ }
      by_cases hOrdered : config.commitRequiresOrder = true
      · have hPopped := h.tracks.popDue
        rw [if_pos hOrdered] at hPop
        rw [hPop, Option.toList_none, append_nil] at hPopped
        exact hPopped
      · rw [if_neg hOrdered] at hPop
        cases hPop
        exact h.tracks
    split
    · exact hNext.finish _
    case h_2 due rest hRest =>
      rw [hRest] at hDue
      refine { h with tracks := ?_, due := fun hOrdered => ?_ }
      · have hTracks := hNext.tracks
        have hSame : State.due { s with tracker := tracker } = due :: rest := hDue
        rw [hSame, append_cons] at hTracks
        exact hTracks
      · rw [h.due hOrdered] at hDue
        cases hDue

/-- A batch is taken in. -/
theorem register {messages : List CanonicalMessage} (hMsgs : messages ≠ []) :
    Numbered (s.register messages).1.received ∧
      Tracks config.commitRequiresOrder ((s.register messages).1.received.map List.length) s.settled
        (s.register messages).1.tracker (s.commits ++ s.due) := by
  obtain ⟨hSeq, hTracks⟩ := h.tracks.register (length_pos_iff.mpr hMsgs)
  have hNumbered := h.numbered.register messages
  rw [length_map] at hSeq
  rw [← hSeq] at hNumbered
  exact ⟨hNumbered, by simpa [State.register, membersOf] using hTracks⟩

end Sound

theorem step_sound {config : Config} (hAck : config.ack = .onJoin) {s t : State} {action : Action}
    (h : Sound config s) (hStep : step config s action = some t) : Sound config t := by
  have hAccounts := step_accounts h.accounts hStep
  cases step_moves hStep with
  | takeReady => exact h.takeReady _
  | fail | empty | tick =>
    exact { h with accounts := hAccounts }
  | register hAsks hMsgs =>
    obtain ⟨hNumbered, hTracks⟩ := h.register hMsgs
    exact { h with accounts := hAccounts, numbered := hNumbered, tracks := hTracks }
  | take _ _ hOther | forget _ hOther =>
    rw [hAck] at hOther
    cases hOther
  | ackDiscarded hCall _ hFree => exact h.ackDiscarded hCall hFree
  | handOut hCall => exact (h.drop hCall).takeReady _
  | commit hJoins _ hFree => exact h.commit hJoins hFree _
  | runCommit hSettling => exact h.runCommit hSettling _
  | abandon => exact h.unlock
  | cancel hCall => exact h.drop hCall

theorem sound_new (config : Config) : Sound config new :=
  ⟨List.Perm.nil, ⟨nofun, nodup_nil⟩, tracks_new _, fun _ => rfl, nofun, rfl⟩

/-- The commit of a source batch is called at most once, and not before each
of its messages is in a join whose commit was called, or discarded; it is
called with what became of each. An ordered source has its commits called in
the order of the batches. No place is computed below zero or out of range. -/
theorem settles_each_batch_once {config : Config} (hAck : config.ack = .onJoin)
    {actions : List Action} {state : State} (hRun : run (step config) new actions = some state) :
    (state.commits.map Prod.fst).Nodup ∧
      (∀ entry ∈ state.commits, ∃ batch, state.received[entry.1]? = some batch ∧
        entry.2.length = batch.length ∧ ∀ (idx : Nat) (member : Member), batch[idx]? = some member →
          ∃ disposition, entry.2[idx]? = some disposition ∧ state.Decides member disposition) ∧
      (state.outside.filterMap Member.slot).Nodup ∧
      (config.commitRequiresOrder = true → state.commits.map Prod.fst =
        List.range state.commits.length) ∧ state.panicked = false := by
  have h : Sound config state :=
    invariant_of_run (fun _ _ _ => step_sound hAck) (sound_new config) hRun
  have hTracks := h.tracks.forget h.due
  refine ⟨hTracks.once, fun entry hMem => ?_, ?_, fun hOrdered => ?_, h.whole⟩
  · obtain ⟨size, hSize, hLen, hAnswers⟩ := hTracks.answers entry hMem
    rw [getElem?_map] at hSize
    obtain ⟨batch, hBatch, rfl⟩ := Option.map_eq_some_iff.mp hSize
    refine ⟨batch, hBatch, hLen, fun idx member hMember => ?_⟩
    obtain ⟨disposition, hGet, hSettled⟩ := hAnswers idx (List.getElem?_eq_some_iff.mp hMember).1
    obtain ⟨found, hSlot, hDecides⟩ := h.decided _ hSettled
    have hFound : found ∈ state.received.flatten :=
      h.accounts.mem_iff.mpr (mem_append_right _ hDecides.mem_outside)
    obtain ⟨other, hOther, hIdx⟩ := h.numbered.find hFound hSlot
    cases hBatch.symm.trans hOther
    cases hMember.symm.trans hIdx
    exact ⟨disposition, hGet, hDecides⟩
  · have hNodup := h.slots_nodup
    rw [filterMap_append] at hNodup
    exact (nodup_append.mp hNodup).2.1
  · have hOrder := hTracks.order hOrdered
    have hLen := congrArg length hOrder
    rw [length_map, length_range] at hLen
    rw [hOrder, hLen]

/-- The first batch is spread over two joins, the second of which is settled
first; it takes the only message of the second batch with it. -/
theorem settles_each_batch_once_crossed : ∃ state, run (step pairs) new
        [.receive 10 (.ok [⟨1, [], ∅⟩, ⟨2, [], ∅⟩, ⟨3, [], ∅⟩]) (.ok ()) [] 0 0, .ackDiscarded,
          .receive 10 (.ok [⟨4, [], ∅⟩]) (.ok ())
            [("default", ⟨0, [⟨⟨3, [], ∅⟩, some ⟨0, 2⟩⟩]⟩)] 5 5,
          .ackDiscarded, .commit 1 [.nack], .runCommit (.ok ()), .commit 0 [.ack],
          .runCommit (.ok ()), .runCommit (.error "down")] = some state ∧
      state.commits = [(0, [.ack, .ack, .nack]), (1, [.nack])] ∧
      (state.commits.map Prod.fst).Nodup ∧ state.panicked = false := by
  refine exists_run (fun state => state.commits = [(0, [.ack, .ack, .nack]), (1, [.nack])])
    (by decide) ?_
  intro state hRun hCommits
  obtain ⟨hOnce, -, -, -, hWhole⟩ := settles_each_batch_once rfl hRun
  exact ⟨hCommits, hOnce, hWhole⟩

end MqBridge.WeakJoin
