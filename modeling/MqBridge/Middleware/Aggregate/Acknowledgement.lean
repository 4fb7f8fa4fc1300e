import MqBridge.Collections.Places
import MqBridge.Middleware.Aggregate.Writer

/-! What a commit learns from `flushed`. Between two failed flushes, an epoch,
memory only grows ahead of the store, and each flush writes everything folded
before its snapshot. The ranges of the failed flushes tell the batches they
dropped, as long as the writer remembers them. -/
namespace MqBridge.Aggregate

open List Machine Function

universe u
variable {n : Nat} {σ : Type u}

namespace Inner

theorem get_change (inner : Inner n σ) (c : Change n σ) (owner : Owner n) :
    (inner.change c).get owner = if c.owner = owner then some c.state else inner.get owner :=
  Memory.get_insert inner.states c.owner owner c.state

theorem isDirty_change {inner : Inner n σ} {c : Change n σ} {owner : Owner n} :
    (inner.change c).isDirty owner ↔ c.owner = owner ∨ inner.isDirty owner := by
  simp only [isDirty, change]
  by_cases hEntry : owner.1 = c.owner.1
  · rw [hEntry, update_self, mem_insert_iff]
    simp only [Prod.ext_iff, hEntry, true_and, eq_comm]
  · rw [update_of_ne hEntry]
    exact (or_iff_right fun h => hEntry (congrArg Prod.fst h.symm)).symm

/-- The counters stay, and what is known of failed flushes. -/
structure Still (inner after : Inner n σ) : Prop where
  seq : after.seq = inner.seq
  flushed : after.flushed = inner.flushed
  lost : after.lost = inner.lost

/-- What the changes of a batch do to memory. -/
structure Changed (inner after : Inner n σ) (changes : List (Change n σ)) :
    Prop extends inner.Still after where
  get : ∀ owner, after.get owner = overwrite owner (inner.get owner) changes
  isDirty : ∀ owner, after.isDirty owner ↔ inner.isDirty owner ∨ ∃ c ∈ changes, c.owner = owner

theorem changed_foldl (inner : Inner n σ) (changes : List (Change n σ)) :
    inner.Changed (changes.foldl change inner) changes := by
  induction changes generalizing inner with
  | nil => exact ⟨⟨rfl, rfl, rfl⟩, fun _ => rfl, fun _ => by simp⟩
  | cons c rest ih =>
    obtain ⟨hStill, hGet, hDirty⟩ := ih (inner.change c)
    refine ⟨{ hStill with }, fun owner => ?_, fun owner => ?_⟩
    · rw [foldl_cons, hGet, get_change]
      rfl
    · rw [foldl_cons, hDirty, isDirty_change, exists_mem_cons_iff]
      tauto

end Inner

namespace Writer

variable (w : Writer n σ)

/-- The state that the batches of an epoch up to a number left for a key. -/
def lastChange (folds : List (Fold n σ)) (epoch upto : Nat) (owner : Owner n) : Option σ :=
  overwrite owner none
    (folds.flatMap fun f => if f.epoch = epoch ∧ f.seq ≤ upto then f.changes else [])

/-- A `store_many` that lost no write, with a snapshot taken after the batch
folded and before its state was dropped, wrote the state the key then had. -/
def ChangeStored (folds : List (Fold n σ)) (stored : List (Flushed n)) (f : Fold n σ)
    (owner : Owner n) : Prop :=
  ∃ flush ∈ stored, flush.epoch = f.epoch ∧ f.seq ≤ flush.upto ∧
    ∃ state write, lastChange folds flush.epoch flush.upto owner = some state ∧
      w.writeJson state = .ok write.state ∧ write.key = w.storeKey owner ∧
      (owner, write) ∈ flush.writes

def BatchStored (record : Record n σ) (f : Fold n σ) : Prop :=
  ∀ change ∈ f.changes, w.ChangeStored record.folds record.stored f change.owner

/-- A failed flush dropped the states of the batch before they were written. -/
def BatchDropped (record : Record n σ) (f : Fold n σ) : Prop :=
  f.epoch < record.epoch ∧ ¬ w.BatchStored record f

/-- At least `lostKept` flushes failed after the one that dropped the batch. -/
def BatchForgotten (record : Record n σ) (f : Fold n σ) : Prop :=
  w.BatchDropped record f ∧ f.epoch + 1 + lostKept ≤ record.epoch

/-- A call of `flushed` that looks now tells the truth about the batch: it
succeeds only when its states are written, and fails when they were dropped. -/
def Acknowledged (s : State n σ) (f : Fold n σ) : Prop :=
  (flushed s.inner f.seq = some (.ok ()) → w.BatchStored s.record f) ∧
    (w.BatchDropped s.record f → flushed s.inner f.seq = some (.error lostText))

variable {w}

section Recorded

variable {folds : List (Fold n σ)} {stored : List (Flushed n)}

theorem lastChange_snoc (folds : List (Fold n σ)) (f : Fold n σ) (epoch upto : Nat)
    (owner : Owner n) : lastChange (folds ++ [f]) epoch upto owner =
      if f.epoch = epoch ∧ f.seq ≤ upto then
        overwrite owner (lastChange folds epoch upto owner) f.changes
      else lastChange folds epoch upto owner := by
  rw [lastChange, flatMap_append, overwrite_append, flatMap_singleton]
  split_ifs <;> rfl

/-- Up to any number that no batch exceeds, the batches are the same. -/
theorem lastChange_of_le {epoch first second : Nat} (owner : Owner n)
    (hFirst : ∀ f ∈ folds, f.seq ≤ first) (hSecond : first ≤ second) :
    lastChange folds epoch second owner = lastChange folds epoch first owner := by
  rw [lastChange]
  congr 1
  refine flatMap_congr fun f hMem => ?_
  have hLe := hFirst f hMem
  have hLater : f.seq ≤ second := hLe.trans hSecond
  simp only [hLe, hLater]

theorem ChangeStored.snoc_stored {f : Fold n σ} {owner : Owner n}
    (h : w.ChangeStored folds stored f owner) (flush : Flushed n) :
    w.ChangeStored folds (stored ++ [flush]) f owner := by
  obtain ⟨r, hMem, hRest⟩ := h
  exact ⟨r, mem_append_left _ hMem, hRest⟩

/-- A later batch does not touch what was stored before it. -/
theorem ChangeStored.snoc_folds {f g : Fold n σ} {owner : Owner n}
    (h : w.ChangeStored folds stored f owner) (hLater : ∀ r ∈ stored, r.upto < g.seq) :
    w.ChangeStored (folds ++ [g]) stored f owner := by
  obtain ⟨r, hMem, hEpoch, hUpto, state, write, hLast, hWrite⟩ := h
  refine ⟨r, hMem, hEpoch, hUpto, state, write, ?_, hWrite⟩
  have hNot : ¬(g.epoch = r.epoch ∧ g.seq ≤ r.upto) := fun hBoth =>
    absurd (hLater r hMem) (not_lt.mpr hBoth.2)
  rw [lastChange_snoc, if_neg hNot, hLast]

end Recorded

/-- What draining changed keys may do: only their marks go. -/
structure Drained (inner after : Inner n σ) : Prop extends inner.Still after where
  get : ∀ owner, after.get owner = inner.get owner
  isDirty : ∀ owner, after.isDirty owner → inner.isDirty owner

/-- A write carries the state in memory under the key of its owner. -/
def Carries (w : Writer n σ) (inner : Inner n σ) (p : Owner n × StateWrite) : Prop :=
  p.2.key = w.storeKey p.1 ∧ ∃ state, inner.get p.1 = some state ∧ w.writeJson state = .ok p.2.state

theorem writesOf_carries {inner : Inner n σ} {i : Fin n} {keys : List String}
    {writes : List (Owner n × StateWrite)} (hWrites : w.writesOf inner i keys = .ok writes) :
    (∀ p ∈ writes, p.1.1 = i ∧ p.1.2 ∈ keys ∧ w.Carries inner p) ∧
      ∀ key ∈ keys, (inner.get (i, key)).isSome → ∃ write, ((i, key), write) ∈ writes := by
  induction keys generalizing writes with
  | nil =>
    cases hWrites
    exact ⟨nofun, nofun⟩
  | cons key rest ih =>
    rw [writesOf] at hWrites
    cases hGet : (inner.states i).get key with
    | none =>
      rw [hGet] at hWrites
      obtain ⟨hSound, hFull⟩ := ih hWrites
      refine ⟨fun p hMem => ?_, fun k hMem hSome => ?_⟩
      · obtain ⟨hEntry, hKey, hCarries⟩ := hSound p hMem
        exact ⟨hEntry, mem_cons_of_mem _ hKey, hCarries⟩
      · rcases mem_cons.mp hMem with rfl | hMem
        · rw [Inner.get, Memory.get, hGet] at hSome
          cases hSome
        · exact hFull k hMem hSome
    | some state =>
      rw [hGet] at hWrites
      obtain ⟨json, hJson, hWrites⟩ := Outcome.bind_eq_ok.mp hWrites
      obtain ⟨later, hLater, hWrites⟩ := Outcome.bind_eq_ok.mp hWrites
      cases hWrites
      obtain ⟨hSound, hFull⟩ := ih hLater
      refine ⟨fun p hMem => ?_, fun k hMem hSome => ?_⟩
      · rcases mem_cons.mp hMem with rfl | hMem
        · exact ⟨rfl, mem_cons_self .., rfl, state, hGet, hJson⟩
        · obtain ⟨hEntry, hKey, hCarries⟩ := hSound p hMem
          exact ⟨hEntry, mem_cons_of_mem _ hKey, hCarries⟩
      · rcases mem_cons.mp hMem with rfl | hMem
        · exact ⟨_, mem_cons_self ..⟩
        · obtain ⟨write, hWrite⟩ := hFull k hMem hSome
          exact ⟨write, mem_cons_of_mem _ hWrite⟩

theorem isDirty_drainEntry {inner : Inner n σ} {i : Fin n} {owner : Owner n} :
    ({ inner with dirty := update inner.dirty i [] } : Inner n σ).isDirty owner ↔
      inner.isDirty owner ∧ owner.1 ≠ i := by
  simp only [Inner.isDirty]
  by_cases hEntry : owner.1 = i
  · rw [hEntry, update_self]
    exact ⟨nofun, fun h => absurd rfl h.2⟩
  · rw [update_of_ne hEntry]
    exact (and_iff_left hEntry).symm

/-- Draining takes no other marks, and to its end it writes every changed key
of the entries. -/
theorem drain_spec {inner after : Inner n σ} {entries : List (Fin n)}
    {answer : Except String (List (Owner n × StateWrite))}
    (hDrain : w.drain inner entries = (after, answer)) :
    Drained inner after ∧ ∀ writes, answer = .ok writes →
      (∀ p ∈ writes, inner.isDirty p.1 ∧ w.Carries inner p) ∧
      ∀ owner, owner.1 ∈ entries → inner.isDirty owner → (inner.get owner).isSome →
        ∃ write, (owner, write) ∈ writes := by
  induction entries generalizing inner after answer with
  | nil =>
    cases hDrain
    refine ⟨⟨⟨rfl, rfl, rfl⟩, fun _ => rfl, fun _ => id⟩, fun writes hWrites => ?_⟩
    cases hWrites
    exact ⟨nofun, nofun⟩
  | cons i rest ih =>
    rw [drain] at hDrain
    cases hFirst : w.writesOf inner i (inner.dirty i) with
    | error error =>
      rw [hFirst] at hDrain
      cases hDrain
      exact ⟨⟨⟨rfl, rfl, rfl⟩, fun _ => rfl, fun _ h => (isDirty_drainEntry.mp h).1⟩,
        fun writes hWrites => by cases hWrites⟩
    | ok first =>
      obtain ⟨hSound, hFull⟩ := writesOf_carries hFirst
      rcases hRest : w.drain { inner with dirty := update inner.dirty i [] } rest with
        ⟨final, result⟩
      obtain ⟨hDrained, hSpec⟩ := ih hRest
      have hOnly : Drained inner final :=
        { hDrained with isDirty := fun owner h =>
          (isDirty_drainEntry.mp (hDrained.isDirty owner h)).1 }
      rw [hFirst, hRest] at hDrain
      cases result with
      | error error =>
        cases hDrain
        exact ⟨hOnly, fun writes hWrites => by cases hWrites⟩
      | ok later =>
        cases hDrain
        refine ⟨hOnly, fun writes hWrites => ?_⟩
        cases hWrites
        obtain ⟨hLater, hAll⟩ := hSpec later rfl
        refine ⟨fun p hMem => ?_, fun owner hMem hDirty hSome => ?_⟩
        · rcases mem_append.mp hMem with hMem | hMem
          · obtain ⟨hEntry, hKey, hCarries⟩ := hSound p hMem
            refine ⟨?_, hCarries⟩
            rw [Inner.isDirty, hEntry]
            exact hKey
          · obtain ⟨hDirty, hCarries⟩ := hLater p hMem
            exact ⟨(isDirty_drainEntry.mp hDirty).1, hCarries⟩
        · by_cases hEntry : owner.1 = i
          · subst hEntry
            obtain ⟨write, hWrite⟩ := hFull owner.2 hDirty hSome
            exact ⟨write, mem_append_left _ hWrite⟩
          · obtain ⟨write, hWrite⟩ := hAll owner
              ((mem_cons.mp hMem).resolve_left hEntry)
              (isDirty_drainEntry.mpr ⟨hDirty, hEntry⟩) hSome
            exact ⟨write, mem_append_right _ hWrite⟩

/-- What taking over loaded states may do: only they change. -/
structure TakenOver (inner after : Inner n σ) (owners : List (Owner n)) :
    Prop extends inner.Still after where
  get : ∀ owner ∉ owners, after.get owner = inner.get owner
  isDirty : ∀ owner, after.isDirty owner ↔ inner.isDirty owner

theorem takeOver_spec {inner after : Inner n σ} {loaded : Rows} {owners : List (Owner n)}
    (hTake : w.takeOver inner loaded owners = .ok after ∨ w.takeOver inner loaded owners =
      .error after) : TakenOver inner after owners := by
  induction owners generalizing inner loaded with
  | nil =>
    rcases hTake with hTake | hTake
    · cases hTake
      exact ⟨⟨rfl, rfl, rfl⟩, fun _ _ => rfl, fun _ => .rfl⟩
    · cases hTake
  | cons owner rest ih =>
    rw [takeOver] at hTake
    cases hRow : loaded (w.storeKey owner) with
    | none =>
      rw [hRow] at hTake
      have hRest := ih hTake
      exact { hRest with
        get := fun o hNot => hRest.get o fun hMem => hNot (mem_cons_of_mem _ hMem) }
    | some row =>
      obtain ⟨json, version⟩ := row
      cases hParse : w.parseState owner.1 json with
      | error error =>
        simp only [hRow, hParse] at hTake
        rcases hTake with hTake | hTake
        · cases hTake
        · cases hTake
          exact ⟨⟨rfl, rfl, rfl⟩, fun _ _ => rfl, fun _ => .rfl⟩
      | ok state =>
        simp only [hRow, hParse] at hTake
        have hRest := ih hTake
        refine { hRest with get := fun o hNot => ?_ }
        obtain ⟨hNe, hNot⟩ := not_or.mp (mem_cons.not.mp hNot)
        rw [hRest.get o hNot]
        exact (Inner.get_change inner ⟨owner, state⟩ o).trans (if_neg (Ne.symm hNe))

/-- What is known of memory and the record, whatever the loop does. -/
structure Books (w : Writer n σ) (inner : Inner n σ) (record : Record n σ) : Prop where
  flushed_le : inner.flushed ≤ inner.seq
  lost : inner.lost = record.dropped.drop (record.epoch - lostKept)
  ranges : record.dropped.Pairwise fun a b => a.2 ≤ b.1
  behind : ∀ range ∈ record.dropped, range.2 ≤ inner.flushed
  numbered : ∀ f ∈ record.folds, f.seq ≤ inner.seq ∧ f.epoch ≤ record.epoch
  upto : ∀ flush ∈ record.stored, flush.upto ≤ inner.seq
  past : ∀ f ∈ record.folds, ∀ range, record.dropped[f.epoch]? = some range →
    f.seq ≤ range.2 ∧ (f.seq ≤ range.1 → w.BatchStored record f)
  current : ∀ f ∈ record.folds, f.epoch = record.epoch → f.seq ≤ inner.flushed →
    w.BatchStored record f
  memory : ∀ owner, inner.isDirty owner → ∃ state, inner.get owner = some state ∧
    lastChange record.folds record.epoch inner.seq owner = some state

/-- Every change of the current epoch is marked, or written. -/
def Marked (w : Writer n σ) (inner : Inner n σ) (record : Record n σ) : Prop :=
  ∀ f ∈ record.folds, f.epoch = record.epoch → ∀ change ∈ f.changes,
    inner.isDirty change.owner ∨ w.ChangeStored record.folds record.stored f change.owner

/-- A snapshot that is being stored has every change before it that is not
written yet; those after it are marked. -/
structure Snapshot (w : Writer n σ) (inner : Inner n σ) (record : Record n σ)
    (writes : List (Owner n × StateWrite)) (upto : Nat) : Prop where
  flushed_le : inner.flushed ≤ upto
  le_seq : upto ≤ inner.seq
  carries : ∀ p ∈ writes, p.2.key = w.storeKey p.1 ∧ ∃ state,
    lastChange record.folds record.epoch upto p.1 = some state ∧ w.writeJson state = .ok p.2.state
  before : ∀ f ∈ record.folds, f.epoch = record.epoch → f.seq ≤ upto → ∀ change ∈ f.changes,
    (∃ write, (change.owner, write) ∈ writes) ∨
      w.ChangeStored record.folds record.stored f change.owner
  after : ∀ f ∈ record.folds, f.epoch = record.epoch → upto < f.seq → ∀ change ∈ f.changes,
    inner.isDirty change.owner

def FlushSound (w : Writer n σ) (inner : Inner n σ) (record : Record n σ) : Phase n → Prop
  | .storing writes upto => w.Snapshot inner record writes upto
  | .answered writes upto answer => w.Snapshot inner record writes upto ∧
      (answer = .ok [] → ⟨record.epoch, upto, writes⟩ ∈ record.stored)
  | .failed => True
  | .ready | .trimming | .idle | .waiting | .ended => w.Marked inner record

/-- The keys that a fold is loading stay out of memory. -/
def LoadSound (inner : Inner n σ) (loading : Option (List (Owner n) × Option Rows)) : Prop :=
  ∀ owners rows, loading = some (owners, rows) → ∀ owner ∈ owners, inner.get owner = none

/-- The invariant of a run. -/
structure Sound (w : Writer n σ) (s : State n σ) : Prop where
  books : w.Books s.inner s.record
  flush : w.FlushSound s.inner s.record s.phase
  loading : LoadSound s.inner s.loading

section Steps

variable {inner after : Inner n σ} {record : Record n σ}

/-- Memory may lose marks and states that are not marked. -/
theorem Books.forget (h : w.Books inner record) (hDirty : ∀ owner, after.isDirty owner →
      inner.isDirty owner ∧ after.get owner = inner.get owner) (hStill : inner.Still after) :
    w.Books after record where
  __ := h
  flushed_le := by rw [hStill.flushed, hStill.seq]; exact h.flushed_le
  lost := hStill.lost.trans h.lost
  behind := hStill.flushed ▸ h.behind
  numbered := hStill.seq ▸ h.numbered
  upto := hStill.seq ▸ h.upto
  current := hStill.flushed ▸ h.current
  memory := fun owner hAfter => by
    obtain ⟨hBefore, hGet⟩ := hDirty owner hAfter
    rw [hStill.seq, hGet]
    exact h.memory owner hBefore

variable {upto : Nat}

/-- The batches up to a number turn out to be written. -/
theorem Books.advance (h : w.Books inner record) (hUp : inner.flushed ≤ upto)
    (hSeq : upto ≤ inner.seq) (hStored : ∀ f ∈ record.folds, f.epoch = record.epoch →
      f.seq ≤ upto → w.BatchStored record f) (versions : Fin n → HashMap Int) :
    w.Books { inner with versions := versions, flushed := upto } record :=
  { h with
    flushed_le := hSeq
    behind := fun range hMem => (h.behind range hMem).trans hUp
    current := hStored }

theorem Books.snoc_stored (h : w.Books inner record) {flush : Flushed n}
    (hUpto : flush.upto ≤ inner.seq) :
    w.Books inner { record with stored := record.stored ++ [flush] } :=
  { h with
    upto := Places.forall_mem_snoc h.upto hUpto
    past := fun f hMem range hRange => by
      obtain ⟨hLe, hStored⟩ := h.past f hMem range hRange
      exact ⟨hLe, fun hSeq change hChange => (hStored hSeq change hChange).snoc_stored flush⟩
    current := fun f hMem hEpoch hSeq change hChange =>
      (h.current f hMem hEpoch hSeq change hChange).snoc_stored flush }

theorem lost_drop {dropped : List (Nat × Nat)} (range : Nat × Nat) :
    (if (dropped.drop (dropped.length - lostKept)).length = lostKept then
        (dropped.drop (dropped.length - lostKept)).drop 1
      else dropped.drop (dropped.length - lostKept)) ++ [range] =
      (dropped ++ [range]).drop ((dropped ++ [range]).length - lostKept) := by
  rw [length_append, length_singleton, length_drop, drop_drop]
  have hKept : lostKept = 64 := rfl
  split_ifs with hFull
  · have hShift : dropped.length + 1 - lostKept = dropped.length - lostKept + 1 := by omega
    rw [hShift, drop_append_of_le_length (by omega)]
  · have hNone : dropped.length - lostKept = 0 := by omega
    have hNext : dropped.length + 1 - lostKept = 0 := by omega
    rw [hNone, hNext, drop_zero, drop_zero]

/-- A failed flush ends the epoch with everything in it that is not written. -/
theorem Books.drop (h : w.Books inner record) : w.Books inner.drop
      { record with dropped := record.dropped ++ [(inner.flushed, inner.seq)] } where
  flushed_le := Nat.le_refl _
  lost := by
    simp only [Inner.drop, h.lost]
    exact lost_drop _
  ranges := Places.pairwise_snoc h.ranges h.behind
  behind :=
    Places.forall_mem_snoc (fun range hMem => (h.behind range hMem).trans h.flushed_le) (le_refl _)
  numbered := fun f hMem => by
    obtain ⟨hSeq, hEpoch⟩ := h.numbered f hMem
    refine ⟨hSeq, ?_⟩
    rw [Record.epoch, length_append]
    exact Nat.le_add_right_of_le hEpoch
  upto := h.upto
  past := fun f hMem range hRange => by
    obtain ⟨hSeq, hEpoch⟩ := h.numbered f hMem
    rcases lt_or_eq_of_le hEpoch with hPast | hNow
    · exact h.past f hMem range (by rwa [getElem?_append_left hPast] at hRange)
    · have hRange : some (inner.flushed, inner.seq) = some range := by
        rwa [hNow, Record.epoch, getElem?_concat_length] at hRange
      cases hRange
      exact ⟨hSeq, h.current f hMem hNow⟩
  current := fun f hMem hEpoch => by
    have hLe := (h.numbered f hMem).2
    rw [Record.epoch, length_append] at hEpoch
    exact absurd hEpoch (ne_of_lt (Nat.lt_succ_of_le hLe))
  memory := nofun

@[simp] theorem Record.epoch_fold (seq : Nat) (changes : List (Change n σ)) :
    (record.fold seq changes).epoch = record.epoch := rfl

theorem BatchStored.fold {f : Fold n σ} (hStored : w.BatchStored record f) {seq : Nat}
    (hSeq : ∀ flush ∈ record.stored, flush.upto < seq) (changes : List (Change n σ)) :
    w.BatchStored (record.fold seq changes) f :=
  fun change hMem => (hStored change hMem).snoc_folds hSeq

/-- A batch folds into memory and is recorded. -/
theorem Books.fold (h : w.Books inner record) (changes : List (Change n σ)) :
    w.Books (changes.foldl Inner.change inner).folded
      (record.fold (inner.seq + 1) changes) := by
  have hChanged := inner.changed_foldl changes
  have hUpto : ∀ flush ∈ record.stored, flush.upto < inner.seq + 1 :=
    fun flush hMem => Nat.lt_succ_of_le (h.upto flush hMem)
  refine ⟨?_, ?_, h.ranges, ?_, ?_, fun flush hMem => ?_,
    fun f hMem range hRange => ?_, fun f hMem hEpoch hSeq => ?_, fun owner hDirty => ?_⟩
  · simp only [Inner.folded, hChanged.seq, hChanged.flushed]
    exact Nat.le_succ_of_le h.flushed_le
  · exact hChanged.lost.trans h.lost
  · simp only [Inner.folded, hChanged.flushed]
    exact h.behind
  · simp only [Inner.folded, hChanged.seq]
    refine Places.forall_mem_snoc (fun f hMem => ?_) ⟨le_refl _, le_refl _⟩
    exact ⟨Nat.le_succ_of_le (h.numbered f hMem).1, (h.numbered f hMem).2⟩
  · simp only [Inner.folded, hChanged.seq]
    exact Nat.le_succ_of_le (h.upto flush hMem)
  · rcases mem_append.mp hMem with hMem | hMem
    · obtain ⟨hLe, hStored⟩ := h.past f hMem range hRange
      exact ⟨hLe, fun hSeq => (hStored hSeq).fold hUpto changes⟩
    · rw [mem_singleton.mp hMem] at hRange
      exact absurd (List.getElem?_eq_some_iff.mp hRange).1 (lt_irrefl _)
  · simp only [Inner.folded, hChanged.flushed] at hSeq
    rcases mem_append.mp hMem with hMem | hMem
    · exact (h.current f hMem hEpoch hSeq).fold hUpto changes
    · rw [mem_singleton.mp hMem] at hSeq
      exact absurd (hSeq.trans h.flushed_le) (Nat.not_succ_le_self _)
  · have hGet : (changes.foldl .change inner).folded.get owner =
        overwrite owner (inner.get owner) changes := hChanged.get owner
    have hLast : lastChange (record.fold (inner.seq + 1) changes).folds record.epoch
        (inner.seq + 1) owner =
          overwrite owner (lastChange record.folds record.epoch inner.seq owner) changes := by
      rw [Record.fold, lastChange_snoc, if_pos ⟨rfl, le_refl _⟩,
        lastChange_of_le owner (fun f hMem => (h.numbered f hMem).1) (Nat.le_succ _)]
    have hSeq : (changes.foldl .change inner).folded.seq = inner.seq + 1 :=
      congrArg Nat.succ hChanged.seq
    rw [Record.epoch_fold, hSeq, hGet, hLast]
    by_cases hTouched : ∃ c ∈ changes, c.owner = owner
    · obtain ⟨state, hState⟩ := overwrite_of_mem hTouched
      exact ⟨state, hState _, hState _⟩
    · rw [overwrite_of_not_mem hTouched, overwrite_of_not_mem hTouched]
      exact h.memory owner (((hChanged.isDirty owner).mp hDirty).resolve_right hTouched)

/-- The loop keeps what it knows while memory keeps its marks. -/
theorem FlushSound.keep {phase : Phase n} (h : w.FlushSound inner record phase)
    (hDirty : ∀ owner, inner.isDirty owner → after.isDirty owner) (hStill : inner.Still after) :
    w.FlushSound after record phase := by
  have hMarked : w.Marked inner record → w.Marked after record :=
    fun hMarked f hMem hEpoch c hChange =>
    (hMarked f hMem hEpoch c hChange).imp_left (hDirty _)
  have hSnap : ∀ writes upto, w.Snapshot inner record writes upto →
      w.Snapshot after record writes upto := fun writes upto hSnap =>
    { hSnap with
      flushed_le := hStill.flushed ▸ hSnap.flushed_le
      le_seq := hStill.seq ▸ hSnap.le_seq
      after := fun f hMem hEpoch hSeq c hChange =>
        hDirty _ (hSnap.after f hMem hEpoch hSeq c hChange) }
  cases phase with
  | storing writes upto => exact hSnap writes upto h
  | answered writes upto answer => exact ⟨hSnap writes upto h.1, h.2⟩
  | failed => trivial
  | ready | trimming | idle | waiting | ended => exact hMarked h

theorem Marked.fold (h : w.Marked inner record) (hBooks : w.Books inner record)
    (changes : List (Change n σ)) :
    w.Marked (changes.foldl Inner.change inner).folded (record.fold (inner.seq + 1) changes) := by
  have hChanged := inner.changed_foldl changes
  intro f hMem hEpoch c hChange
  rcases mem_append.mp hMem with hMem | hMem
  · rcases h f hMem hEpoch c hChange with hDirty | hStored
    · exact .inl ((hChanged.isDirty _).mpr (.inl hDirty))
    · exact .inr (hStored.snoc_folds fun flush hMem => Nat.lt_succ_of_le (hBooks.upto flush hMem))
  · rw [mem_singleton.mp hMem] at hChange
    exact .inl ((hChanged.isDirty _).mpr (.inr ⟨c, hChange, rfl⟩))

variable {writes : List (Owner n × StateWrite)}

/-- A batch that folds while a snapshot is being stored comes after it. -/
theorem Snapshot.fold (h : w.Snapshot inner record writes upto) (hBooks : w.Books inner record)
    (changes : List (Change n σ)) :
    w.Snapshot (changes.foldl Inner.change inner).folded (record.fold (inner.seq + 1) changes)
      writes upto := by
  have hChanged := inner.changed_foldl changes
  have hLater : upto < inner.seq + 1 := Nat.lt_succ_of_le h.le_seq
  refine ⟨?_, ?_, fun p hMem => ?_, fun f hMem hEpoch hSeq c hChange => ?_,
    fun f hMem hEpoch hSeq c hChange => ?_⟩
  · simp only [Inner.folded, hChanged.flushed]
    exact h.flushed_le
  · simp only [Inner.folded, hChanged.seq]
    exact Nat.le_succ_of_le h.le_seq
  · obtain ⟨hKey, state, hLast, hJson⟩ := h.carries p hMem
    refine ⟨hKey, state, ?_, hJson⟩
    rw [Record.epoch_fold, Record.fold, lastChange_snoc,
      if_neg fun hBoth => absurd hLater (not_lt.mpr hBoth.2), hLast]
  · rcases mem_append.mp hMem with hMem | hMem
    · exact (h.before f hMem hEpoch hSeq c hChange).imp_right fun hStored =>
        hStored.snoc_folds fun flush hMem => Nat.lt_succ_of_le (hBooks.upto flush hMem)
    · rw [mem_singleton.mp hMem] at hSeq
      exact absurd hSeq (not_le.mpr hLater)
  · rcases mem_append.mp hMem with hMem | hMem
    · exact (hChanged.isDirty _).mpr (.inl (h.after f hMem hEpoch hSeq c hChange))
    · rw [mem_singleton.mp hMem] at hChange
      exact (hChanged.isDirty _).mpr (.inr ⟨c, hChange, rfl⟩)

theorem FlushSound.fold {phase : Phase n} (h : w.FlushSound inner record phase)
    (hBooks : w.Books inner record) (changes : List (Change n σ)) :
    w.FlushSound (changes.foldl Inner.change inner).folded
      (record.fold (inner.seq + 1) changes) phase := by
  cases phase with
  | storing writes upto => exact Snapshot.fold h hBooks changes
  | answered writes upto answer => exact ⟨h.1.fold hBooks changes, h.2⟩
  | failed => trivial
  | ready | trimming | idle | waiting | ended => exact Marked.fold h hBooks changes

variable {s : State n σ}

/-- A fold that holds the gate takes over what it loaded, and folds. -/
theorem Sound.fold (h : w.Sound s) {owners : List (Owner n)} {rows : Rows}
    (hLoading : s.loading = some (owners, some rows)) (changes : List (Change n σ)) :
    w.Sound (w.fold s owners rows changes) := by
  have hTaken : ∀ mid, TakenOver s.inner mid owners →
      w.Books mid s.record ∧ w.FlushSound mid s.record s.phase := by
    intro mid hMid
    refine ⟨h.books.forget (fun owner hDirty => ?_) hMid.toStill,
      h.flush.keep (fun owner => (hMid.isDirty owner).mpr) hMid.toStill⟩
    -- a marked key has a state, so it is not one that memory lacked
    have hDirty := (hMid.isDirty owner).mp hDirty
    obtain ⟨state, hGet, -⟩ := h.books.memory owner hDirty
    refine ⟨hDirty, hMid.get owner fun hMem => ?_⟩
    rw [h.loading owners _ hLoading owner hMem] at hGet
    cases hGet
  rw [Writer.fold]
  cases hTake : w.takeOver s.inner rows owners with
  | error mid =>
    obtain ⟨hBooks, hFlush⟩ := hTaken mid (takeOver_spec (.inr hTake))
    exact ⟨hBooks, hFlush, fun _ _ hNone => by cases hNone⟩
  | ok mid =>
    have hMid := takeOver_spec (.inl hTake)
    obtain ⟨hBooks, hFlush⟩ := hTaken mid hMid
    rw [← hMid.seq]
    exact ⟨hBooks.fold changes, hFlush.fold hBooks changes, fun _ _ hNone => by cases hNone⟩

/-- The loop takes its snapshot. -/
theorem Sound.flush_step (h : w.Sound s) (hMarked : w.Marked s.inner s.record) :
    w.Sound (w.flush s) := by
  by_cases hClean : ((finRange n).all fun i => (s.inner.dirty i).isEmpty) = true
  · rw [Writer.flush, take, if_pos hClean]
    have hNone : ∀ owner, ¬ s.inner.isDirty owner := fun owner hDirty => by
      have hEmpty := isEmpty_iff.mp (all_eq_true.mp hClean owner.1 (mem_finRange _))
      rw [Inner.isDirty, hEmpty] at hDirty
      exact not_mem_nil hDirty
    have hStored : ∀ f ∈ s.record.folds, f.epoch = s.record.epoch → w.BatchStored s.record f :=
      fun f hMem hEpoch c hChange => (hMarked f hMem hEpoch c hChange).resolve_left (hNone _)
    refine ⟨h.books.advance ?_ ?_ (fun f hMem hEpoch _ => hStored f hMem hEpoch) s.inner.versions,
      hMarked, h.loading⟩
    · split_ifs with hBehind
      · exact le_of_lt hBehind
      · exact le_refl _
    · split_ifs
      · exact le_refl _
      · exact h.books.flushed_le
  · rcases hDrain : w.drain s.inner (finRange n) with ⟨after, answer⟩
    rw [Writer.flush, take, if_neg hClean, hDrain]
    obtain ⟨hDrained, hSpec⟩ := drain_spec hDrain
    have hBooks : w.Books after s.record :=
      h.books.forget (fun owner hDirty => ⟨hDrained.isDirty owner hDirty, hDrained.get owner⟩)
        hDrained.toStill
    have hLoading : LoadSound after s.loading := fun owners rows hSome owner hMem => by
      rw [hDrained.get]
      exact h.loading owners rows hSome owner hMem
    cases answer with
    | error error => exact ⟨hBooks, trivial, hLoading⟩
    | ok writes =>
      obtain ⟨hCarries, hAll⟩ := hSpec writes rfl
      refine ⟨hBooks, ⟨?_, le_of_eq hDrained.seq.symm, fun p hMem => ?_,
        fun f hMem hEpoch _ c hChange => ?_, fun f hMem _ hSeq => ?_⟩, hLoading⟩
      · rw [hDrained.flushed]
        exact h.books.flushed_le
      · obtain ⟨hDirty, hKey, state, hGet, hJson⟩ := hCarries p hMem
        obtain ⟨latest, hLatest, hLast⟩ := h.books.memory p.1 hDirty
        cases hGet.symm.trans hLatest
        exact ⟨hKey, state, hLast, hJson⟩
      · refine (hMarked f hMem hEpoch c hChange).imp_left fun hDirty => ?_
        obtain ⟨state, hGet, -⟩ := h.books.memory c.owner hDirty
        exact hAll c.owner (mem_finRange _) hDirty (Option.isSome_iff_exists.mpr ⟨state, hGet⟩)
      · exact absurd (h.books.numbered f hMem).1 (not_le.mpr hSeq)

theorem Snapshot.snoc_stored (h : w.Snapshot inner record writes upto) (flush : Flushed n) :
    w.Snapshot inner { record with stored := record.stored ++ [flush] } writes upto :=
  { h with
    before := fun f hMem hEpoch hSeq c hChange =>
      (h.before f hMem hEpoch hSeq c hChange).imp_right fun hStored => hStored.snoc_stored flush }

/-- The writes of a snapshot reach the store. -/
theorem Sound.store_step (h : w.Sound s) (hSnap : w.Snapshot s.inner s.record writes upto) :
    w.Sound (store s writes upto) := by
  rw [store]
  rcases s.rows.storeMany (writes.map Prod.snd) with ⟨rows, lost⟩
  cases lost with
  | nil =>
    exact ⟨h.books.snoc_stored hSnap.le_seq,
      ⟨hSnap.snoc_stored _, fun _ => mem_concat_self⟩, h.loading⟩
  | cons index rest => exact ⟨h.books, ⟨hSnap, fun hNone => by cases hNone⟩, h.loading⟩

/-- A flush that lost no write wrote every batch before its snapshot. -/
theorem Snapshot.batchStored
    (h : w.Snapshot inner record writes upto)
    (hStored : ⟨record.epoch, upto, writes⟩ ∈ record.stored)
    {f : Fold n σ} (hMem : f ∈ record.folds) (hEpoch : f.epoch = record.epoch)
    (hSeq : f.seq ≤ upto) : w.BatchStored record f := by
  intro c hChange
  rcases h.before f hMem hEpoch hSeq c hChange with ⟨write, hWrite⟩ | hDone
  · obtain ⟨hKey, state, hLast, hJson⟩ := h.carries _ hWrite
    exact ⟨_, hStored, hEpoch.symm, hSeq, state, write, hLast, hJson, hKey, hWrite⟩
  · exact hDone

theorem Sound.finish_step (h : w.Sound s) {answer : Except String (List Nat)}
    (hFlush : w.FlushSound s.inner s.record (.answered writes upto answer)) :
    w.Sound (finish s writes upto answer) := by
  obtain ⟨hSnap, hAnswer⟩ := hFlush
  match answer with
  | .error _ | .ok (_ :: _) => exact ⟨h.books, trivial, h.loading⟩
  | .ok [] =>
    have hStored := hAnswer rfl
    refine ⟨h.books.advance hSnap.flushed_le hSnap.le_seq
      (fun f => hSnap.batchStored hStored) _,
      fun f hMem hEpoch c hChange => ?_, h.loading⟩
    rcases lt_or_ge upto f.seq with hLater | hSeq
    · exact .inl (hSnap.after f hMem hEpoch hLater c hChange)
    · exact .inr (hSnap.batchStored hStored hMem hEpoch hSeq c hChange)

theorem get_of_mem_missing {keys : List (Fin n → Option String)} {owner : Owner n}
    (hMem : owner ∈ missing inner keys) : inner.get owner = none := by
  rw [missing, mem_flatMap] at hMem
  obtain ⟨i, -, hMem⟩ := hMem
  obtain ⟨key, hKey, rfl⟩ := mem_map.mp hMem
  obtain ⟨-, hAbsent⟩ := mem_filter.mp (mem_dedup.mp hKey)
  rw [States.containsKey_eq, Bool.not_eq_true', Option.isSome_eq_false_iff] at hAbsent
  exact Option.isNone_iff_eq_none.mp hAbsent

theorem LoadSound.of_isNone {loading : Option (List (Owner n) × Option Rows)}
    (hGate : loading.isNone) : LoadSound inner loading := by
  cases Option.isNone_iff_eq_none.mp hGate
  exact fun _ _ hSome => by cases hSome

theorem Sound.enter_step {t : State n σ} {keys : List (Fin n → Option String)} (h : w.Sound s)
    (hStep : w.step s (.enter keys) = some t) : w.Sound t := by
  simp only [step] at hStep
  split_ifs at hStep with hGate
  split at hStep
  next =>
    cases hStep
    exact { h with loading := fun _ _ hSome owner hMem => by cases hSome; cases hMem }
  next =>
    cases hStep
    refine { h with loading := fun _ _ hSome owner hMem => ?_ }
    cases hSome
    exact get_of_mem_missing hMem

/-- Trimming forgets states that are not marked, while no batch is loading. -/
theorem Sound.trim_step (h : w.Sound s) (hMarked : w.Marked s.inner s.record)
    (hGate : s.loading.isNone) : w.Sound { s with inner := s.inner.trim, phase := .ready } := by
  refine ⟨h.books.forget (fun owner hDirty => ⟨hDirty, ?_⟩) ⟨rfl, rfl, rfl⟩, hMarked,
    .of_isNone hGate⟩
  exact States.get_turn_of_keep _ (decide_eq_true hDirty)

/-- Dropping memory begins an epoch that has no batch yet. -/
theorem Sound.drop_step (h : w.Sound s) (hGate : s.loading.isNone) :
    w.Sound { s with
      inner := s.inner.drop
      phase := .ready
      record := { s.record with
        dropped := s.record.dropped ++ [(s.inner.flushed, s.inner.seq)] } } := by
  refine ⟨h.books.drop, fun f hMem hEpoch => ?_, .of_isNone hGate⟩
  have hLe := (h.books.numbered f hMem).2
  rw [Record.epoch, length_append] at hEpoch
  exact absurd hEpoch (ne_of_lt (Nat.lt_succ_of_le hLe))

theorem step_sound {t : State n σ} {action : Action n σ} (h : w.Sound s)
    (hStep : w.step s action = some t) : w.Sound t := by
  have hFlush := h.flush
  cases action with simp only [step] at hStep
  | enter keys => exact h.enter_step hStep
  | load =>
    split at hStep <;> cases hStep
    next owners hLoading =>
      refine { h with loading := fun _ _ hSome => ?_ }
      cases hSome
      exact h.loading owners none hLoading
  | loadFails =>
    split at hStep <;> cases hStep
    exact { h with loading := .of_isNone rfl }
  | fold changes =>
    split at hStep <;> cases hStep
    next hLoading => exact h.fold hLoading changes
  | take =>
    split at hStep <;> cases hStep
    next hPhase =>
      rw [hPhase] at hFlush
      exact h.flush_step hFlush
  | store =>
    split at hStep <;> cases hStep
    next hPhase =>
      rw [hPhase] at hFlush
      exact h.store_step hFlush
  | storeFails reached =>
    split at hStep <;> try cases hStep
    next hPhase =>
      split_ifs at hStep
      cases hStep
      rw [hPhase] at hFlush
      exact ⟨h.books, ⟨hFlush, fun hNone => by cases hNone⟩, h.loading⟩
  | finish =>
    split at hStep <;> cases hStep
    next hPhase =>
      rw [hPhase] at hFlush
      exact h.finish_step hFlush
  | trim =>
    split at hStep <;> try cases hStep
    next hPhase =>
      rw [hPhase] at hFlush
      split_ifs at hStep with hFull hGate
      · cases hStep
        exact h.trim_step hFlush hGate
      · cases hStep
        exact { h with flush := hFlush }
  | drop =>
    split at hStep <;> try cases hStep
    split_ifs at hStep with hGate
    cases hStep
    exact h.drop_step hGate
  | rest =>
    split at hStep <;> cases hStep
    next hPhase =>
      rw [hPhase] at hFlush
      refine { h with flush := ?_ }
      cases s.closed <;> exact hFlush
  | wake =>
    split at hStep <;> try cases hStep
    next hPhase =>
      split_ifs at hStep
      cases hStep
      rw [hPhase] at hFlush
      exact { h with flush := hFlush }
  | close | foreign =>
    cases hStep
    exact { h with }

theorem init_sound (rows : Rows) : w.Sound (w.init rows) :=
  ⟨⟨Nat.le_refl _, rfl, List.Pairwise.nil, by simp [init], by simp [init], by simp [init],
    by simp [init], by simp [init], nofun⟩,
    by simp [init, FlushSound, Marked], fun _ _ hSome => by cases hSome⟩

end Steps

section Answers

variable {s : State n σ} {f : Fold n σ}

section

variable (h : w.Books s.inner s.record)

include h

variable (hMem : f ∈ s.record.folds)

include hMem

/-- What a failed flush dropped lies in its range. -/
theorem Books.range_of_dropped (hDropped : w.BatchDropped s.record f) :
    ∃ range, s.record.dropped[f.epoch]? = some range ∧ range.1 < f.seq ∧ f.seq ≤ range.2 := by
  obtain ⟨hPast, hLost⟩ := hDropped
  have hRange := getElem?_eq_getElem (hPast)
  obtain ⟨hLe, hStored⟩ := h.past f hMem _ hRange
  exact ⟨_, hRange, Nat.lt_of_not_le fun hSeq => hLost (hStored hSeq), hLe⟩

/-- A range the writer remembers answers for the batches in it. -/
theorem Books.flushed_of_remembered
    (hDropped : w.BatchDropped s.record f) (hKept : s.record.epoch < f.epoch + 1 + lostKept) :
    flushed s.inner f.seq = some (.error lostText) := by
  obtain ⟨range, hRange, hLow, hHigh⟩ := h.range_of_dropped hMem hDropped
  have hLost : range ∈ s.inner.lost := by
    rw [h.lost, mem_iff_getElem?]
    refine ⟨f.epoch - (s.record.epoch - lostKept), ?_⟩
    rw [getElem?_drop, Nat.add_sub_cancel' (by omega), hRange]
  have hAny : (s.inner.lost.any fun r => r.1 < f.seq && f.seq ≤ r.2) = true :=
    any_eq_true.mpr ⟨range, hLost, by simp [hLow, hHigh]⟩
  rw [flushed, if_pos hAny]

/-- Once its range is gone, a dropped batch passes for written. -/
theorem Books.flushed_of_forgotten
    (hForgotten : w.BatchForgotten s.record f) : flushed s.inner f.seq = some (.ok ()) := by
  obtain ⟨hDropped, hGone⟩ := hForgotten
  obtain ⟨range, hRange, -, hHigh⟩ := h.range_of_dropped hMem hDropped
  have hNone : ¬(s.inner.lost.any fun r => r.1 < f.seq && f.seq ≤ r.2) = true := by
    rw [any_eq_true]
    rintro ⟨later, hLater, hIn⟩
    rw [h.lost, mem_iff_getElem?] at hLater
    obtain ⟨index, hIdx⟩ := hLater
    rw [getElem?_drop] at hIdx
    -- the ranges still remembered begin behind the one that is gone
    obtain ⟨hBound, hLaterAt⟩ := List.getElem?_eq_some_iff.mp hIdx
    obtain ⟨hFirst, hRangeAt⟩ := List.getElem?_eq_some_iff.mp hRange
    have hOrder := pairwise_iff_getElem.mp h.ranges f.epoch _ hFirst hBound (by omega)
    rw [hLaterAt, hRangeAt] at hOrder
    simp only [Bool.and_eq_true, decide_eq_true_eq] at hIn
    omega
  have hBehind := h.behind range (mem_of_getElem? hRange)
  rw [flushed, if_neg hNone, if_pos (hHigh.trans hBehind)]

end

/-- A commit that asks whether its batch is stored gets the right answer, at
any time in any run, unless a failed flush dropped the batch and at least
`lostKept` more flushes have failed since. -/
theorem flushed_acknowledges {rows : Rows} {actions : List (Action n σ)}
    (hRun : run w.step (w.init rows) actions = some s) (hMem : f ∈ s.record.folds) :
    w.Acknowledged s f ↔ ¬ w.BatchForgotten s.record f := by
  have h : w.Sound s := invariant_of_run (fun _ _ _ => step_sound) (init_sound rows) hRun
  constructor
  · intro hTruth hForgotten
    have hError := hTruth.2 hForgotten.1
    rw [h.books.flushed_of_forgotten hMem hForgotten] at hError
    cases hError
  · intro hKept
    have hError : w.BatchDropped s.record f → flushed s.inner f.seq = some (.error lostText) :=
      fun hDropped => h.books.flushed_of_remembered hMem hDropped
        (Nat.lt_of_not_le fun hGone => hKept ⟨hDropped, hGone⟩)
    refine ⟨fun hOk => ?_, hError⟩
    rcases lt_or_eq_of_le (h.books.numbered f hMem).2 with hPast | hNow
    · by_contra hLost
      rw [hError ⟨hPast, hLost⟩] at hOk
      cases hOk
    · rw [flushed] at hOk
      split_ifs at hOk with hAny hSeq
      · cases hOk
      · exact h.books.current f hMem hNow hSeq

def textWriter : Writer 1 String where
  prefixes := fun _ => "total"
  maxKeys := 0
  parseState := fun _ json => .ok json
  writeJson := fun state => .ok state

def failedFlush : List (Action 1 String) :=
  [.enter [], .fold [⟨(0, "a"), "1"⟩], .take, .storeFails [], .finish, .drop]

theorem flushed_acknowledges_two : ∃ s, run textWriter.step (textWriter.init fun _ => none)
        (failedFlush ++ [.enter [], .fold [⟨(0, "a"), "1"⟩], .take, .store, .finish]) = some s ∧
      textWriter.Acknowledged s ⟨1, 0, [⟨(0, "a"), "1"⟩]⟩ ∧
      textWriter.Acknowledged s ⟨2, 1, [⟨(0, "a"), "1"⟩]⟩ := by
  refine exists_run
    (fun s => s.record.folds = [⟨1, 0, [⟨(0, "a"), "1"⟩]⟩, ⟨2, 1, [⟨(0, "a"), "1"⟩]⟩] ∧
    s.record.epoch = 1) (by decide) ?_
  rintro s hRun ⟨hFolds, hEpoch⟩
  have hKept : ∀ f : Fold 1 String, ¬ textWriter.BatchForgotten s.record f := fun f hForgotten => by
    have hLe := hForgotten.2
    rw [hEpoch] at hLe
    exact absurd hLe (by simp [lostKept])
  refine ⟨(flushed_acknowledges hRun ?_).mpr (hKept _),
    (flushed_acknowledges hRun ?_).mpr (hKept _)⟩
  · rw [hFolds]
    exact mem_cons_self ..
  · rw [hFolds]
    exact mem_cons_of_mem _ (mem_cons_self ..)

/-- After the 65th failed flush, a commit of the first batch that asks late is
told that its states are stored, while nothing was ever stored. -/
theorem dropped_batch_acknowledged : ∃ s f, run textWriter.step (textWriter.init fun _ => none)
        (List.replicate 65 failedFlush).flatten = some s ∧
      f ∈ s.record.folds ∧ flushed s.inner f.seq = some (.ok ()) ∧
      textWriter.BatchDropped s.record f := by
  have hEnd : (run textWriter.step (textWriter.init fun _ => none)
      (List.replicate 65 failedFlush).flatten).map
        (fun s => (s.record.folds.head?, s.record.stored, s.record.epoch, flushed s.inner 1)) =
      some (some ⟨1, 0, [⟨(0, "a"), "1"⟩]⟩, [], 65, some (.ok ())) := by decide +kernel
  obtain ⟨s, hRun, hState⟩ := Option.map_eq_some_iff.mp hEnd
  simp only [Prod.mk.injEq] at hState
  obtain ⟨hFold, hStored, hEpoch, hFlushed⟩ := hState
  refine ⟨s, _, hRun, mem_of_head? hFold, hFlushed, ?_, fun hBatch => ?_⟩
  · rw [hEpoch]
    decide
  · obtain ⟨flush, hMem, -⟩ := hBatch _ (mem_cons_self ..)
    rw [hStored] at hMem
    cases hMem

end Answers

end Writer

end MqBridge.Aggregate
