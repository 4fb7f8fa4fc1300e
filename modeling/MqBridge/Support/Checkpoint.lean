import Mathlib.Data.List.TakeWhile
import Mathlib.Data.String.Basic

/-! The keys under which a checkpoint store, which several sources may share,
keeps their cursors. -/
namespace MqBridge.Checkpoint

open List

def sanitizeIdent (source : String) : String :=
  String.ofList (source.toList.map fun c => if c.isAlphanum ∨ c = '_' then c else '_')

def checkpointKey (source cursorId : String) : String := sanitizeIdent source ++ ":" ++ cursorId

theorem toList_checkpointKey (source cursorId : String) :
    (checkpointKey source cursorId).toList =
      (sanitizeIdent source).toList ++ ':' :: cursorId.toList := by
  simp [checkpointKey]

theorem colon_notMem_sanitizeIdent (source : String) : ':' ∉ (sanitizeIdent source).toList := by
  rw [sanitizeIdent, String.toList_ofList, mem_map]
  rintro ⟨c, -, hColon⟩
  split_ifs at hColon with hKept
  · rw [hColon] at hKept
    revert hKept
    decide
  · cases hColon

/-- The first colon of a key ends the identifier. -/
theorem takeWhile_checkpointKey (source cursorId : String) :
    (checkpointKey source cursorId).toList.takeWhile (· ≠ ':') = (sanitizeIdent source).toList := by
  rw [toList_checkpointKey, takeWhile_append_of_pos, takeWhile_cons_of_neg (by simp), append_nil]
  intro c hMem
  exact decide_eq_true fun hColon => colon_notMem_sanitizeIdent source (hColon ▸ hMem)

variable {source source' cursorId cursorId' : String}

theorem checkpointKey_inj : checkpointKey source cursorId = checkpointKey source' cursorId' ↔
    sanitizeIdent source = sanitizeIdent source' ∧ cursorId = cursorId' := by
  constructor
  · intro hSame
    have hIdent : sanitizeIdent source = sanitizeIdent source' := by
      rw [← String.toList_inj, ← takeWhile_checkpointKey source cursorId, hSame,
        takeWhile_checkpointKey]
    refine ⟨hIdent, ?_⟩
    rw [checkpointKey, checkpointKey, hIdent] at hSame
    simpa using hSame
  · rintro ⟨hIdent, rfl⟩
    rw [checkpointKey, hIdent, checkpointKey]

/-- Two cursors do not share a key exactly when they are one, or their sources are
sanitized to different identifiers, or their ids differ. -/
theorem checkpointKey_ne_iff :
    ((source, cursorId) ≠ (source', cursorId') →
        checkpointKey source cursorId ≠ checkpointKey source' cursorId') ↔
      (source, cursorId) = (source', cursorId') ∨ sanitizeIdent source ≠ sanitizeIdent source' ∨
        cursorId ≠ cursorId' := by
  rw [ne_eq, ne_eq, checkpointKey_inj]
  tauto

/-- A dot and an underscore become one character. -/
theorem checkpointKey_shared_dot :
    ("a.b", "c") ≠ ("a_b", "c") ∧ checkpointKey "a.b" "c" = checkpointKey "a_b" "c" := by
  decide

end MqBridge.Checkpoint
