import MqBridge.Collections.InsertionMap
import MqBridge.Message

/-! The publisher of a spool directory, and when it marks its production as
finished. A write that fails is counted under the id of the message and the hash
of its payload, and a later write of that message takes one failure back. -/
namespace MqBridge.DirSpool

open List hiding lookup
open InsertionMap

inductive SpoolDone where
  | never
  | success
  | atEnd

inductive SpoolFsync where
  | chunk
  | off

inductive DisconnectOutcome where
  | completed
  | stopped
  | failed

structure Publisher where
  emitDone : SpoolDone
  fsync : SpoolFsync
  writeFailed : Bool
  unwritten : List ((Nat × UInt64) × Nat)
  unwrittenLen : Nat

def maxUnwrittenTracked : Nat := 10000

/-- A write of a message, with the text of its error. -/
abbrev Attempt := CanonicalMessage × Option String

/-- A call of `send_batch`: the writes, and the first directory that cannot be synced. -/
structure Batch where
  attempts : List Attempt
  unsynced : Option String

namespace Publisher

def new (emitDone : SpoolDone) (fsync : SpoolFsync) : Publisher := ⟨emitDone, fsync, false, [], 0⟩

def shouldEmitDone (p : Publisher) (outcome : DisconnectOutcome) : Bool :=
  match p.emitDone, outcome with
  | .never, _ => false
  | .atEnd, _ => true
  | .success, .completed => !p.writeFailed && p.unwrittenLen == 0
  | .success, _ => false

variable (hash : List UInt8 → UInt64)

def unwrittenKey (message : CanonicalMessage) : Nat × UInt64 :=
  (message.messageId, hash message.payload)

def track (p : Publisher) (unwritten : List ((Nat × UInt64) × Nat)) : Publisher :=
  { p with unwritten := unwritten, unwrittenLen := unwritten.length }

def noteUnwritten (p : Publisher) (message : CanonicalMessage) : Publisher :=
  let key := unwrittenKey hash message
  match lookup key p.unwritten with
  | none =>
    if maxUnwrittenTracked ≤ p.unwritten.length then { p with writeFailed := true }
    else p.track (insert key 1 p.unwritten)
  | some count => p.track (insert key (count + 1) p.unwritten)

def noteWritten (p : Publisher) (message : CanonicalMessage) : Publisher :=
  let key := unwrittenKey hash message
  if p.unwrittenLen = 0 then p
  else match lookup key p.unwritten with
    | none => p.track p.unwritten
    | some count =>
      if count - 1 = 0 then p.track (remove key p.unwritten)
      else p.track (insert key (count - 1) p.unwritten)

def note (p : Publisher) (attempt : Attempt) : Publisher :=
  match attempt.2 with
  | none => p.noteWritten hash attempt.1
  | some _ => p.noteUnwritten hash attempt.1

def sendBatch (p : Publisher) (batch : Batch) : Publisher × SendResult :=
  let sent := batch.attempts.foldl (note hash) p
  match p.fsync, batch.unsynced with
  | .chunk, some dir =>
    ({ sent with writeFailed := true },
      .error (.retryable ("Failed to sync dir_spool directory " ++ dir)))
  | _, _ =>
    match batch.attempts.filterMap fun attempt => attempt.2.map fun error =>
      (attempt.1, .retryable error) with
    | [] => (sent, .ok .ack)
    | failed => (sent, .ok (.partly none failed))

/-- The publisher after one call after the other. -/
def sendBatches (p : Publisher) (batches : List Batch) : Publisher :=
  batches.foldl (fun p batch => (p.sendBatch hash batch).1) p

/-- The publisher tracks each message of `waiting` once: those that were sent and not written. -/
structure Tracks (attempts : List Attempt) (waiting : List CanonicalMessage) (p : Publisher) :
    Prop where
  marks : p.emitDone = .success
  intact : p.writeFailed = false
  entries : p.unwritten = waiting.map fun message => (unwrittenKey hash message, 1)
  len : p.unwrittenLen = waiting.length
  few : waiting.length ≤ attempts.countP fun attempt => attempt.2.isSome
  waits :
    ∀ message, message ∈ waiting ↔ message ∈ attempts.map Prod.fst ∧ (message, none) ∉ attempts

section

variable {hash} {p : Publisher} {attempts : List Attempt} {waiting : List CanonicalMessage}
  {message : CanonicalMessage}
  (hKey : ∀ other ∈ waiting, unwrittenKey hash other = unwrittenKey hash message → other = message)

include hKey

theorem lookup_waiting : lookup (unwrittenKey hash message)
    (waiting.map fun other => (unwrittenKey hash other, 1)) = if message ∈ waiting then some 1 else
      none := by
  induction waiting with
  | nil => rfl
  | cons other rest ih =>
    rw [map_cons, lookup, ih fun later hLater => hKey later (mem_cons_of_mem _ hLater)]
    by_cases hSame : other = message
    · simp [hSame]
    · have hOther : unwrittenKey hash other ≠ unwrittenKey hash message :=
        fun hEq => hSame (hKey other mem_cons_self hEq)
      simp [hOther, Ne.symm hSame]

theorem remove_waiting : remove (unwrittenKey hash message)
      (waiting.map fun other => (unwrittenKey hash other, 1)) =
    (waiting.filter fun other => other ≠ message).map fun other =>
      (unwrittenKey hash other, 1) := by
  rw [remove, filter_map]
  congr 1
  refine filter_congr fun other hOther => decide_eq_decide.mpr (not_congr ⟨hKey other hOther, ?_⟩)
  intro hSame
  rw [hSame]

variable (h : Tracks hash attempts waiting p)

include h

theorem noteUnwritten_tracks (hFirst : message ∉ attempts.map Prod.fst)
    (hFew : attempts.countP (fun attempt => attempt.2.isSome) < maxUnwrittenTracked)
    (cause : String) :
    Tracks hash (attempts ++ [(message, some cause)]) (waiting ++ [message])
      (p.noteUnwritten hash message) := by
  have hNew : message ∉ waiting := fun hMem => hFirst ((h.waits message).mp hMem).1
  have hLookup := lookup_waiting hKey
  rw [← h.entries, if_neg hNew] at hLookup
  have hLength : p.unwritten.length < maxUnwrittenTracked := by
    rw [h.entries, length_map]
    exact h.few.trans_lt hFew
  simp only [noteUnwritten, hLookup, if_neg hLength.not_ge,
    insert_of_notMem (lookup_eq_none.mp hLookup)]
  refine { h with entries := ?_, len := ?_, few := ?_, waits := fun other => ?_ }
  · simp [track, h.entries]
  · simp [track, h.entries]
  · simpa using h.few
  · by_cases hOther : other = message
    · have hUnwritten : (message, none) ∉ attempts :=
        fun hWritten => hFirst (mem_map.mpr ⟨_, hWritten, rfl⟩)
      simp [hOther, hUnwritten]
    · simp [hOther, h.waits other]

theorem noteWritten_tracks : Tracks hash (attempts ++ [(message, none)])
    (waiting.filter fun other => other ≠ message) (p.noteWritten hash message) := by
  have hLookup := lookup_waiting hKey
  have hRemove := remove_waiting hKey
  rw [← h.entries] at hLookup hRemove
  have hNoted :
      p.noteWritten hash message = p.track (remove (unwrittenKey hash message) p.unwritten) := by
    by_cases hMem : message ∈ waiting
    · have hLen : p.unwrittenLen ≠ 0 := h.len ▸ (length_pos_of_mem hMem).ne'
      simp [noteWritten, hLen, hLookup, hMem]
    · have hSame : p.track p.unwritten = p := by
        rw [track, h.entries, length_map, ← h.len, ← h.entries]
      have hFilter : waiting.filter (fun other => other ≠ message) = waiting :=
        filter_eq_self.mpr fun other hOther => decide_eq_true fun hEq => hMem (hEq ▸ hOther)
      rw [hRemove, hFilter, ← h.entries]
      simp [noteWritten, hLookup, hMem, hSame]
  rw [hNoted, hRemove]
  refine { h with entries := rfl, len := length_map _, few := ?_, waits := fun other => ?_ }
  · simpa using (length_filter_le _ _).trans h.few
  · by_cases hOther : other = message
    · simp [hOther]
    · simp [hOther, h.waits other]

end

/-- No two messages share a key, a write fails only when its message is sent for the first time,
and there is room for all that fail. -/
structure Regular (all : List Attempt) : Prop where
  keys : ∀ a ∈ all, ∀ b ∈ all, unwrittenKey hash a.1 = unwrittenKey hash b.1 → a.1 = b.1
  first : all.Pairwise fun earlier later => later.2.isSome = true → earlier.1 ≠ later.1
  few : all.countP (fun attempt => attempt.2.isSome) ≤ maxUnwrittenTracked

variable {hash}

theorem notes_tracks {all attempts : List Attempt} (fsync : SpoolFsync) (hAll : Regular hash all)
    (hPre : attempts <+: all) :
    ∃ waiting, Tracks hash attempts waiting (attempts.foldl (note hash) (new .success fsync)) := by
  induction attempts using reverseRecOn with
  | nil => exact ⟨[], rfl, rfl, rfl, rfl, Nat.zero_le _, by simp⟩
  | append_singleton attempts attempt ih =>
    obtain ⟨waiting, h⟩ := ih ((prefix_append _ _).trans hPre)
    have hKey : ∀ other ∈ waiting, unwrittenKey hash other = unwrittenKey hash attempt.1 →
        other = attempt.1 := by
      intro other hOther
      obtain ⟨sent, hSent, rfl⟩ := mem_map.mp ((h.waits other).mp hOther).1
      exact hAll.keys sent (hPre.subset (by simp [hSent])) attempt (hPre.subset (by simp))
    rw [foldl_append]
    obtain ⟨message, failure⟩ := attempt
    cases failure with
    | none => exact ⟨_, noteWritten_tracks hKey h⟩
    | some cause =>
      have hCount := hPre.sublist.countP_le (p := fun attempt : Attempt => attempt.2.isSome)
      rw [countP_append] at hCount
      have hEarlier := (pairwise_append.mp (hAll.first.sublist hPre.sublist)).2.2
      have hFirst : message ∉ attempts.map Prod.fst := by
        intro hSent
        obtain ⟨sent, hMem, hSame⟩ := mem_map.mp hSent
        exact hEarlier sent hMem _ mem_cons_self rfl hSame
      exact ⟨_, noteUnwritten_tracks hKey h hFirst (hCount.trans hAll.few) cause⟩

/-- The marker is due if and only if each message that was sent has been written. -/
theorem done_iff_all_written {batches : List Batch} (fsync : SpoolFsync)
    (hSynced : ∀ batch ∈ batches, batch.unsynced = none)
    (hAll : Regular hash (batches.flatMap Batch.attempts)) :
    (sendBatches hash (new .success fsync) batches).shouldEmitDone .completed = true ↔
      ∀ attempt ∈ batches.flatMap Batch.attempts, (attempt.1, none) ∈
        batches.flatMap Batch.attempts := by
  have hSends : sendBatches hash (new .success fsync) batches =
      (batches.flatMap Batch.attempts).foldl (note hash) (new .success fsync) := by
    rw [foldl_flatMap]
    refine foldl_ext _ _ _ fun p batch hBatch => ?_
    rw [sendBatch, hSynced batch hBatch]
    cases p.fsync with
    | chunk | off =>
      dsimp only
      split
      · rfl
      · rfl
  obtain ⟨waiting, h⟩ := notes_tracks fsync hAll (prefix_refl _)
  have hDone : (sendBatches hash (new .success fsync) batches).shouldEmitDone .completed = true ↔
      waiting = [] := by
    simp [hSends, shouldEmitDone, h.marks, h.intact, h.len]
  rw [hDone, eq_nil_iff_forall_not_mem]
  constructor
  · intro hNone attempt hMem
    by_contra hUnwritten
    exact hNone _ ((h.waits attempt.1).mpr ⟨mem_map_of_mem hMem, hUnwritten⟩)
  · intro hWritten message hWaits
    obtain ⟨hSent, hUnwritten⟩ := (h.waits message).mp hWaits
    obtain ⟨attempt, hMem, rfl⟩ := mem_map.mp hSent
    exact hUnwritten (hWritten attempt hMem)

/-- One of two messages is written by a second call. -/
theorem done_iff_all_written_retried : (sendBatches (fun _ => 0) (new .success .chunk)
    [⟨[(⟨1, [], ∅⟩, some "disk full"), (⟨2, [], ∅⟩, none)], none⟩,
      ⟨[(⟨1, [], ∅⟩, none)], none⟩]).shouldEmitDone .completed = true :=
  (done_iff_all_written .chunk (by decide) ⟨by decide, by decide, by decide⟩).mpr (by decide)

/-- A message that fails twice is tracked for good. -/
theorem done_missing_after_two_failures :
    let batches : List Batch := [⟨[(⟨1, [], ∅⟩, some "disk full")], none⟩,
      ⟨[(⟨1, [], ∅⟩, some "disk full")], none⟩, ⟨[(⟨1, [], ∅⟩, none)], none⟩]
    (sendBatches (fun _ => 0) (new .success .chunk) batches).shouldEmitDone .completed = false ∧
      ∀ attempt ∈ batches.flatMap Batch.attempts, (attempt.1, none) ∈
        batches.flatMap Batch.attempts := by
  decide

end Publisher
end MqBridge.DirSpool
