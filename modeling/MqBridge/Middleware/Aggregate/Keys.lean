import MqBridge.Machine.Outcome
import MqBridge.Middleware.Aggregate.Shared
import MqBridge.Support.Text

/-! Which state a message is folded into. The paths that the entries write to are
checked when an aggregate is made; in the store, the path and a colon stand before
the key. -/
namespace MqBridge.Aggregate

open List

universe u v
variable {n : Nat} {σ : Type u} {τ : Type v}

def parseInto (into : String) : Except String (List String) :=
  let text := ((Text.trim into.toList).dropWhile (· = '$')).dropWhile (· = '.')
  let path := (text.splitOn '.').map String.ofList
  if path.any String.isEmpty then
    .error ("aggregate: invalid `into` path '" ++ ".".intercalate path ++ "'")
  else .ok path

/-- The paths of the entries, in order. -/
def checkInto (configured : List String) : Except String (List (List String)) := do
  let paths ← configured.mapM parseInto
  if paths.isEmpty then .error "aggregate: set `key`, `expression` and `into`, or list `entries`"
  else if paths.Nodup then .ok paths
  else .error "aggregate: two entries write to the same `into`"

def intoText (A : Aggregate n σ τ) (i : Fin n) : String := ".".intercalate (A.into i)

/-- The text of a path tells its segments. -/
theorem splitOn_of_parseInto {into : String} {path : List String}
    (hPath : parseInto into = .ok path) :
    ((".".intercalate path).toList.splitOn '.').map String.ofList = path := by
  rw [parseInto] at hPath
  split_ifs at hPath
  cases hPath
  rw [String.toList_intercalate, map_map]
  simp only [Function.comp_def, String.toList_ofList, map_id']
  exact congrArg _ (congrArg _ (intercalate_splitOn '.'))

theorem splitOn_of_mem {configured : List String} {paths : List (List String)}
    (hPaths : configured.mapM parseInto = .ok paths) : ∀ path ∈ paths,
      ((".".intercalate path).toList.splitOn '.').map String.ofList = path := by
  induction configured generalizing paths with
  | nil =>
    cases hPaths
    exact nofun
  | cons into rest ih =>
    rw [mapM_cons] at hPaths
    obtain ⟨path, hPath, hPaths⟩ := Outcome.bind_eq_ok.mp hPaths
    obtain ⟨later, hLater, hPaths⟩ := Outcome.bind_eq_ok.mp hPaths
    cases hPaths
    exact forall_mem_cons.mpr ⟨splitOn_of_parseInto hPath, ih hLater⟩

/-- Different entries have paths of different text. -/
theorem intoText_injective {A : Aggregate n σ τ} {configured : List String}
    (hValid : checkInto configured = .ok (ofFn A.into)) : Function.Injective A.intoText := by
  obtain ⟨paths, hPaths, hChecked⟩ := Outcome.bind_eq_ok.mp hValid
  split_ifs at hChecked with hNone hNodup
  cases hChecked
  intro i j hText
  apply nodup_ofFn.mp hNodup
  rw [← splitOn_of_mem hPaths (A.into i) (mem_ofFn.mpr ⟨i, rfl⟩),
    ← splitOn_of_mem hPaths (A.into j) (mem_ofFn.mpr ⟨j, rfl⟩)]
  exact congrArg (fun text : String => (text.toList.splitOn '.').map String.ofList) hText

theorem toList_storeKey (A : Aggregate n σ τ) (owner : Owner n) :
    (A.storeKey owner).toList = (A.intoText owner.1).toList ++ ':' :: owner.2.toList := by
  simp [storeKey, intoText]

/-- A longer path goes on with a colon. -/
theorem eq_of_longer {A : Aggregate n σ τ} (hTexts : Function.Injective A.intoText)
    (hColon : ∀ i j, ¬ (A.intoText i ++ ":").toList <+: (A.intoText j).toList)
    {owner other : Owner n}
    {more : List Char} (hText : (A.intoText other.1).toList = (A.intoText owner.1).toList ++ more)
    (hKeys : ':' :: owner.2.toList = more ++ ':' :: other.2.toList) : owner = other := by
  cases more with
  | nil =>
    rw [append_nil, String.toList_inj] at hText
    exact Prod.ext (hTexts hText.symm) (String.toList_inj.mp (cons.inj hKeys).2)
  | cons c more =>
    obtain rfl := (cons.inj hKeys).1
    refine absurd ⟨more, ?_⟩ (hColon owner.1 other.1)
    rw [hText, String.toList_append, append_assoc]
    rfl

/-- Two states share a key in the store exactly if the path of one entry goes on after a
colon where that of another one ends. -/
theorem storeKey_injective_iff (A : Aggregate n σ τ) {configured : List String}
    (hValid : checkInto configured = .ok (ofFn A.into)) :
    Function.Injective A.storeKey ↔
      ∀ i j, ¬ (A.intoText i ++ ":").toList <+: (A.intoText j).toList := by
  constructor
  · rintro hInjective i j ⟨rest, hRest⟩
    have hSame : A.storeKey (j, "") = A.storeKey (i, .ofList rest ++ ":") := by
      rw [← String.toList_inj, toList_storeKey, toList_storeKey, ← hRest]
      simp
    have hKey := congrArg (fun owner : Owner n => owner.2.toList) (hInjective hSame)
    simp at hKey
  · intro hColon owner other hSame
    have hTexts := intoText_injective hValid
    rw [← String.toList_inj, toList_storeKey, toList_storeKey] at hSame
    rcases append_eq_append_iff.mp hSame with ⟨more, hText, hKeys⟩ | ⟨more, hText, hKeys⟩
    · exact eq_of_longer hTexts hColon hText hKeys
    · exact (eq_of_longer hTexts hColon hText hKeys).symm

def writingTo (paths : List (List String)) : Aggregate paths.length String Unit where
  into := paths.get
  onError := .drop
  readOnly := false
  keyOf := fun _ _ => none
  keyAt := fun _ _ _ => none
  read := fun _ => .ok ()
  evaluate := fun _ _ _ _ => .failed ""
  leaves := fun _ _ _ _ => none
  writePayload := fun payload _ => .ok payload
  parseState := fun _ json => .ok json
  writeJson := .ok

theorem storeKey_injective_dotted : checkInto ["$.a", "a.b"] = .ok [["a"], ["a", "b"]] ∧
    Function.Injective (writingTo [["a"], ["a", "b"]]).storeKey := by
  have hValid : checkInto ["$.a", "a.b"] = .ok [["a"], ["a", "b"]] := by decide
  exact ⟨hValid, (storeKey_injective_iff (writingTo _) hValid).mpr (by decide)⟩

/-- The path `a:b` goes on where `a` ends. -/
theorem storeKey_shared_colon : checkInto ["a", "a:b"] = .ok [["a"], ["a:b"]] ∧
    (writingTo [["a"], ["a:b"]]).storeKey (0, "b:c") =
      (writingTo [["a"], ["a:b"]]).storeKey (1, "c") := by
  decide

end MqBridge.Aggregate
