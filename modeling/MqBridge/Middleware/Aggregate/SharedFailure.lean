import MqBridge.Collections.Places
import MqBridge.Middleware.Aggregate.Shared

/-! What a failed `fold_shared` leaves behind. The rows of the store are what
the writes that were carried out made of the first ones, and a call has one
among them as soon as one of its rounds did not lose every write. -/
namespace MqBridge.Aggregate.Shared

open List Machine

universe u v
variable {n : Nat} {σ : Type u} {τ : Type v} {A : Aggregate n σ τ}

theorem Call.answers_stored (call : Call n σ τ) (writes : List (Planned n τ)) (lost : List Nat) :
    (call.stored A writes lost).answers = call.answers ++ [(writes.map Planned.write, lost)] := by
  rw [stored]
  split_ifs <;> rfl

def StoredNothing (s : State n σ τ) (index : Nat) : Prop := ∀ entry ∈ s.log, entry.1 ≠ index

/-- Every `store_many` of the call reported each of its writes as lost. -/
def Call.LostAll (call : Call n σ τ) : Prop :=
  ∀ answer ∈ call.answers, answer.2.length = answer.1.length

/-- What the log says about the rows and about the calls. -/
structure LogSound (first : Rows) (s : State n σ τ) : Prop where
  rows : s.rows = s.log.foldl (fun rows entry => rows.put entry.2.write) first
  known : ∀ entry ∈ s.log, entry.1 < s.calls.length
  answers : ∀ (index : Nat) (call : Call n σ τ), s.calls[index]? = some call →
    (StoredNothing s index ↔ call.LostAll)

variable {first : Rows} {s t : State n σ τ} {index : Nat}

/-- A call changes, but neither the store nor its answers do. -/
theorem LogSound.set (h : LogSound first s) {call after : Call n σ τ}
    (hCall : s.calls[index]? = some call) (hAnswers : after.answers = call.answers) :
    LogSound first { s with calls := s.calls.set index after } where
  rows := h.rows
  known := fun entry hMem => by
    rw [length_set]
    exact h.known entry hMem
  answers := fun j other hOther => by
    rcases (Places.getElem?_set_eq_some hCall).mp hOther with ⟨rfl, rfl⟩ | ⟨-, hBefore⟩
    · rw [Call.LostAll, hAnswers]
      exact h.answers j call hCall
    · exact h.answers j other hBefore

variable {call : Call n σ τ}

theorem storedNothing_store {index j : Nat} {writes : List (Planned n τ)} :
    StoredNothing (s.store A index call writes) j ↔
      StoredNothing s j ∧ (j = index → s.rows.carriedOut Planned.write writes = []) := by
  simp only [StoredNothing, State.store, mem_append, mem_map]
  constructor
  · intro hNone
    refine ⟨fun entry hMem => hNone entry (.inl hMem), fun hSame => ?_⟩
    rw [eq_nil_iff_forall_not_mem]
    exact fun planned hMem => hNone (index, planned) (.inr ⟨planned, hMem, rfl⟩) hSame.symm
  · rintro ⟨hOld, hNew⟩ entry (hMem | ⟨planned, hMem, rfl⟩) hSame
    · exact hOld entry hMem hSame
    · rw [hNew hSame.symm] at hMem
      exact not_mem_nil hMem

theorem LogSound.store (h : LogSound first s) (hCall : s.calls[index]? = some call)
    (writes : List (Planned n τ)) : LogSound first (s.store A index call writes) where
  rows := by
    refine @Rows.storeFrom_rule _ Planned.write s.rows writes (fun rows done =>
      rows = (s.log ++ done.map fun planned => (index, planned)).foldl
        (fun rows entry => rows.put entry.2.write) first) [] 0 ?_ fun rows done planned _ hRows _ =>
          ?_
    · rw [map_nil, append_nil]
      exact h.rows
    · rw [map_append, ← append_assoc, foldl_append, ← hRows]
      rfl
  known := fun entry hMem => by
    simp only [State.store, length_set]
    rcases mem_append.mp hMem with hMem | hMem
    · exact h.known entry hMem
    · obtain ⟨planned, -, rfl⟩ := mem_map.mp hMem
      exact (List.getElem?_eq_some_iff.mp hCall).1
  answers := fun j other hOther => by
    rw [storedNothing_store]
    rcases (Places.getElem?_set_eq_some hCall).mp hOther with ⟨rfl, rfl⟩ | ⟨hNe, hBefore⟩
    · rw [Call.LostAll, Call.answers_stored, forall_mem_append, forall_mem_singleton,
        h.answers j call hCall, Rows.carriedOut_eq_nil_iff, length_map]
      simp only [Call.LostAll, forall_const, Rows.storeMany]
    · rw [← h.answers j other hBefore]
      exact and_iff_left fun hSame => absurd hSame hNe

theorem step_logSound {action : Action τ} (h : LogSound first s)
    (hStep : step A s action = some t) : LogSound first t := by
  rcases step_cases hStep with ⟨messages, -, rfl⟩ | ⟨index, call, clock, -, hCall, -, rfl⟩ |
    ⟨index, call, writes, -, hCall, -, rfl⟩ | ⟨index, call, error, -, hCall, rfl⟩
  · refine ⟨h.rows, fun entry hMem => ?_, fun index call hCall => ?_⟩
    · rw [length_append]
      exact Nat.lt_add_right _ (h.known entry hMem)
    · rcases Places.getElem?_snoc_eq_some.mp hCall with hOld | ⟨hNew, rfl⟩
      · exact h.answers index call hOld
      · refine ⟨nofun, fun _ entry hMem hSame => ?_⟩
        exact ne_of_lt (h.known entry hMem) (hSame.trans hNew)
  · refine h.set hCall ?_
    rw [Call.load]
    simp only
    split
    · rfl
    · split <;> rfl
  · exact h.store hCall writes
  · exact h.set hCall rfl

theorem logSound_init (first : Rows) : LogSound first (init first : State n σ τ) :=
  ⟨rfl, nofun, fun index call hCall => by cases hCall⟩

/-- The rows are what the writes carried out made of the first ones, and a
call, whether it has failed or not, has no write among them exactly when every
`store_many` it made lost all of its writes. -/
theorem storedNothing_iff_lostAll {actions : List (Action τ)}
    (hRun : run (step A) (init first) actions = some s) {index : Nat} {call : Call n σ τ}
    (hCall : s.calls[index]? = some call) :
    s.rows = s.log.foldl (fun rows entry => rows.put entry.2.write) first ∧
      (StoredNothing s index ↔ call.LostAll) := by
  have h : LogSound first s :=
    invariant_of_run (fun _ _ _ => step_logSound) (logSound_init first) hRun
  exact ⟨h.rows, h.answers index call hCall⟩

def Call.error (call : Call n σ τ) : Option String :=
  match call.phase with
  | .returned (.error error) => some error
  | _ => none

/-- One entry that counts the messages of a key: message 1 has the key `a`,
every other one the key `b`. -/
def tally : Aggregate 1 String Unit where
  into := fun _ => ["total"]
  onError := .drop
  readOnly := false
  keyOf := fun _ msg => some (if msg.messageId = 1 then "a" else "b")
  keyAt := fun _ msg _ => some (if msg.messageId = 1 then "a" else "b")
  read := fun _ => .ok ()
  evaluate := fun _ _ _ previous => .next (previous.getD "" ++ "1") [] false
  leaves := fun _ _ _ _ => none
  writePayload := fun payload _ => .ok payload
  parseState := fun _ json => .ok json
  writeJson := fun state => .ok state

/-- A call loads, another one stores the key `b` first, and the first call
loses `b` and stores `a`. -/
def contended (last : List (Action Unit)) : List (Action Unit) :=
  [.start [⟨1, [], ∅⟩, ⟨2, [], ∅⟩], .start [⟨2, [], ∅⟩], .load 0 fun _ => (), .load 1 fun _ => (),
    .store 1] ++ last

/-- Two calls load the key `b`. The first one loses the write of its only round, and
fails to load again. -/
theorem storedNothing_iff_lostAll_lost : ∃ s call, run (step tally) (init fun _ => none)
        [.start [⟨2, [], ∅⟩], .start [⟨2, [], ∅⟩], .load 0 fun _ => (), .load 1 fun _ => (),
          .store 1, .store 0, .loadFails 0 "down"] = some s ∧ s.calls[0]? = some call ∧
      call.error = some "down" ∧ call.answers.length = 1 ∧ StoredNothing s 0 := by
  have hEnd : (run (step tally) (init fun _ => none)
        [.start [⟨2, [], ∅⟩], .start [⟨2, [], ∅⟩], .load 0 fun _ => (), .load 1 fun _ => (),
          .store 1, .store 0, .loadFails 0 "down"]).map (fun s => s.calls[0]?.map fun call =>
        (call.error, call.answers.map fun answer => (answer.1.length, answer.2.length))) =
      some (some (some "down", [(1, 1)])) := by decide
  obtain ⟨s, hRun, hState⟩ := Option.map_eq_some_iff.mp hEnd
  obtain ⟨call, hCall, hFailed⟩ := Option.map_eq_some_iff.mp hState
  obtain ⟨hError, hAnswers⟩ := Prod.mk.inj hFailed
  have hOne : call.answers.length = 1 := by
    rw [← length_map (f := fun answer => (answer.1.length, answer.2.length)), hAnswers]
    rfl
  refine ⟨s, call, hRun, hCall, hError, hOne, (storedNothing_iff_lostAll hRun hCall).2.mpr ?_⟩
  intro answer hMem
  have hLost := mem_map_of_mem (f := fun answer => (answer.1.length, answer.2.length)) hMem
  rw [hAnswers, mem_singleton] at hLost
  obtain ⟨hSent, hReported⟩ := Prod.mk.inj hLost
  rw [hSent, hReported]

/-- A call that stored `a` in its first round and fails to load `b` again
returns an error, and its state of `a` is in the store. -/
theorem failed_fold_leaves_state : ∃ s call, run (step tally) (init fun _ => none)
        (contended [.store 0, .loadFails 0 "down"]) = some s ∧ s.calls[0]? = some call ∧
      call.error = some "down" ∧ s.rows "total:a" = some ("1", 1) ∧ ¬ StoredNothing s 0 := by
  have hEnd :
      (run (step tally) (init fun _ => none) (contended [.store 0, .loadFails 0 "down"])).map
        (fun s => (s.calls[0]?.map Call.error, s.rows "total:a", s.log.map Prod.fst)) =
      some (some (some "down"), some ("1", 1), [1, 0]) := by decide
  obtain ⟨s, hRun, hState⟩ := Option.map_eq_some_iff.mp hEnd
  simp only [Prod.mk.injEq] at hState
  obtain ⟨hCall, hRow, hLog⟩ := hState
  obtain ⟨call, hCall, hError⟩ := Option.map_eq_some_iff.mp hCall
  refine ⟨s, call, hRun, hCall, hError, hRow, fun hNone => ?_⟩
  have hMem : (0 : Nat) ∈ s.log.map Prod.fst := by
    rw [hLog]
    exact mem_cons_of_mem _ (mem_cons_self ..)
  obtain ⟨entry, hEntry, hZero⟩ := mem_map.mp hMem
  exact hNone entry hEntry hZero

end MqBridge.Aggregate.Shared
