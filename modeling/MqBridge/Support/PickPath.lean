import MqBridge.Json.Value

/-! The value at a dotted path of a payload. `walk` takes it out of a parsed
document; `pickPath` builds only that value while the document is read, and
skips everything beside the path. What is skipped has to be well formed, but
its strings and numbers are not looked at. -/
namespace MqBridge.PickPath

open List hiding lookup

open Option InsertionMap

open Json

variable (floats : Floats)

def segmentsOf (path : String) : List String := (path.toList.splitOn '.').map String.ofList

def pathSegments (path : String) : List String := (segmentsOf path).filter fun part => !part.isEmpty

def parseIndex (part : String) : Option Nat := (Text.parseUnsigned part).map UInt64.toNat

def enter (value : Value) (part : String) : Option Value :=
  match value with
  | .object members => InsertionMap.lookup part members
  | .array items => (parseIndex part).bind fun index => items[index]?
  | _ => none

def walk (value : Value) (path : String) : Option Value :=
  (segmentsOf path).foldlM
    (fun current part => if part.isEmpty then some current else enter current part) value

mutual
/-- Fails if the path runs into a scalar. -/
def pick : Nat → List String → Doc → Option (Option Value)
  | depth, [], doc => (doc.value floats depth).map some
  | _, _ :: _, .scalar _ => none
  | depth, _ :: _, .emptyArray _ => if depth ≤ 1 then none else some none
  | depth, head :: rest, .array items =>
    if depth ≤ 1 then none else visitSeq (depth - 1) (parseIndex head) rest 0 none items
  | depth, _ :: _, .emptyObject _ => if depth ≤ 1 then none else some none
  | depth, head :: rest, .object members =>
    if depth ≤ 1 then none else visitMap (depth - 1) head rest none members

def visitSeq : Nat → Option Nat → List String → Nat → Option Value → Items → Option (Option Value)
  | depth, want, rest, index, found, .last _ doc _ =>
    if some index = want then pick depth rest doc else some found
  | depth, want, rest, index, found, .next _ doc _ items =>
    (if some index = want then pick depth rest doc else some found).bind fun found =>
      visitSeq depth want rest (index + 1) found items

/-- The last member of the name counts. -/
def visitMap : Nat → String → List String → Option Value → Members → Option (Option Value)
  | depth, head, rest, found, .last label doc _ =>
    (stringValue label.key).bind fun key =>
      if key = head then pick depth rest doc else some found
  | depth, head, rest, found, .next label doc _ members =>
    (stringValue label.key).bind fun key =>
      (if key = head then pick depth rest doc else some found).bind fun found =>
        visitMap depth head rest found members
end

def pickPath (bytes : List UInt8) (segments : List String) : Option Value :=
  (scan bytes).bind fun doc => (pick floats recursionLimit segments doc).join

/-! ### Where a path leads -/

mutual
/-- The path goes through the document, along every member of a name: it is stopped
by no scalar, and what it passes can be read, which are the keys of the objects on
its way, their nesting, and the values at its end. -/
def passes : Nat → List String → Doc → Bool
  | depth, [], doc => (doc.value floats depth).isSome
  | _, _ :: _, .scalar _ => false
  | depth, _ :: _, .emptyArray _ => decide (1 < depth)
  | depth, head :: rest, .array items =>
    decide (1 < depth) && passesItems (depth - 1) (parseIndex head) rest 0 items
  | depth, _ :: _, .emptyObject _ => decide (1 < depth)
  | depth, head :: rest, .object members =>
    decide (1 < depth) && passesMembers (depth - 1) head rest members

def passesItems : Nat → Option Nat → List String → Nat → Items → Bool
  | depth, want, rest, index, .last _ doc _ => some index != want || passes depth rest doc
  | depth, want, rest, index, .next _ doc _ items =>
    (some index != want || passes depth rest doc) &&
      passesItems depth want rest (index + 1) items

def passesMembers : Nat → String → List String → Members → Bool
  | depth, head, rest, .last label doc _ =>
    (stringValue label.key).isSome &&
      (stringValue label.key != some head || passes depth rest doc)
  | depth, head, rest, .next label doc _ members =>
    (stringValue label.key).isSome &&
      (stringValue label.key != some head || passes depth rest doc) &&
        passesMembers depth head rest members
end

mutual
/-- There is something at the path. Of the members of a name the last one counts. -/
def leads : List String → Doc → Bool
  | [], _ => true
  | _ :: _, .scalar _ | _ :: _, .emptyArray _ | _ :: _, .emptyObject _ => false
  | head :: rest, .array items => leadsItems (parseIndex head) rest 0 false items
  | head :: rest, .object members => leadsMembers head rest false members

def leadsItems : Option Nat → List String → Nat → Bool → Items → Bool
  | want, rest, index, found, .last _ doc _ => if some index = want then leads rest doc else found
  | want, rest, index, found, .next _ doc _ items =>
    leadsItems want rest (index + 1) (if some index = want then leads rest doc else found) items

def leadsMembers : String → List String → Bool → Members → Bool
  | head, rest, found, .last label doc _ =>
    if stringValue label.key = some head then leads rest doc else found
  | head, rest, found, .next label doc _ members =>
    leadsMembers head rest
      (if stringValue label.key = some head then leads rest doc else found) members
end

/-! ### Picking is walking -/

def walkSegments (segments : List String) (value : Value) : Option Value :=
  segments.foldlM enter value

theorem walk_eq (value : Value) (path : String) :
    walk value path = walkSegments (pathSegments path) value := by
  rw [walk, pathSegments]
  induction segmentsOf path generalizing value with
  | nil => rfl
  | cons part rest ih =>
    rw [foldlM_cons]
    cases hEmpty : part.isEmpty with
    | true =>
      rw [filter_cons_of_neg (by simp [hEmpty])]
      exact ih value
    | false =>
      rw [filter_cons_of_pos (by simp [hEmpty]), walkSegments, foldlM_cons]
      cases enter value part with
      | none => rfl
      | some next => exact ih next

section Spec

variable {floats} {head : String} {rest : List String}

/-- A scalar, or a container without members, has nothing inside. -/
theorem walkSegments_cons_of_enter {value : Value} (hEnter : enter value head = none) :
    walkSegments (head :: rest) value = none := by
  rw [walkSegments, List.foldlM_cons, hEnter]
  rfl

theorem enter_scalar {scalar : Scalar} {value : Value} (hVal : scalar.value floats = some value)
    (head : String) : enter value head = none := by
  cases scalar with
  | null | bool =>
    cases hVal
    rfl
  | number token =>
    obtain ⟨number, -, rfl⟩ := map_eq_some_iff.mp hVal
    rfl
  | string pieces =>
    obtain ⟨text, -, rfl⟩ := map_eq_some_iff.mp hVal
    rfl

theorem bind_getElem?_snoc (want : Option Nat) (seen : List Value) (value : Value) :
    (want.bind fun index => (seen ++ [value])[index]?) =
      if some seen.length = want then some value else want.bind fun index => seen[index]? := by
  cases want with
  | none => rfl
  | some index =>
    rw [bind_some, bind_some]
    split_ifs with hIdx
    · rw [← some.inj hIdx, getElem?_concat_length]
    · have hNe : index ≠ seen.length := fun hSame => hIdx (congrArg some hSame.symm)
      rcases lt_or_gt_of_ne hNe with hLt | hGt
      · exact getElem?_append_left hLt
      · have hLe : (seen ++ [value]).length ≤ index := by rwa [length_append]
        rw [getElem?_eq_none hLe, getElem?_eq_none hGt.le]

/-- A visit ends where it does not pass, and it finds something where the path leads. -/
inductive Visit (result : Option (Option Value)) (passes leads : Bool) : Prop
  | fails (hRes : result = none) (hPasses : passes = false)
  | finds (found : Option Value) (hRes : result = some found) (hPasses : passes = true)
      (hLeads : found.isSome = leads)

mutual
theorem pick_visit (doc : Doc) (depth : Nat) (segments : List String) :
    Visit (pick floats depth segments doc) (passes floats depth segments doc)
      (leads segments doc) := by
  cases segments with
  | nil =>
    rw [pick, passes, leads]
    cases doc.value floats depth with
    | none => exact .fails rfl rfl
    | some value => exact .finds (some value) rfl rfl rfl
  | cons head rest =>
    cases doc with
    | scalar =>
      rw [pick, passes]
      exact .fails rfl rfl
    | emptyArray | emptyObject =>
      rw [pick, passes, leads]
      by_cases hDepth : depth ≤ 1
      · exact .fails (if_pos hDepth) (by simpa using hDepth)
      · exact .finds none (if_neg hDepth) (by simpa using hDepth) rfl
    | array items =>
      rw [pick, passes, leads]
      by_cases hDepth : depth ≤ 1
      · exact .fails (if_pos hDepth) (by simp [Nat.not_lt.mpr hDepth])
      · rw [if_neg hDepth, decide_eq_true (Nat.not_le.mp hDepth), Bool.true_and]
        exact visitSeq_visit items (depth - 1) (parseIndex head) rest 0 none
    | object members =>
      rw [pick, passes, leads]
      by_cases hDepth : depth ≤ 1
      · exact .fails (if_pos hDepth) (by simp [Nat.not_lt.mpr hDepth])
      · rw [if_neg hDepth, decide_eq_true (Nat.not_le.mp hDepth), Bool.true_and]
        exact visitMap_visit members (depth - 1) head rest none

theorem visitSeq_visit (items : Items) (depth : Nat) (want : Option Nat) (rest : List String)
    (index : Nat) (found : Option Value) :
    Visit (visitSeq floats depth want rest index found items)
      (passesItems floats depth want rest index items)
      (leadsItems want rest index found.isSome items) := by
  cases items with
  | last before doc after =>
    rw [visitSeq, passesItems, leadsItems]
    by_cases hIdx : some index = want
    · simpa [hIdx] using pick_visit doc depth rest
    · exact .finds found (if_neg hIdx) (by simp [hIdx]) (by simp [hIdx])
  | next before doc after items =>
    rw [visitSeq, passesItems, leadsItems]
    by_cases hIdx : some index = want
    · rw [if_pos hIdx, if_pos hIdx, hIdx, bne_self_eq_false, Bool.false_or]
      cases pick_visit doc depth rest with
      | fails hRes hPasses => exact .fails (by rw [hRes]; rfl) (by rw [hPasses]; rfl)
      | finds next hRes hPasses hLeads =>
        rw [hRes, hPasses, ← hLeads, Bool.true_and]
        exact visitSeq_visit items depth want rest (index + 1) next
    · rw [if_neg hIdx, if_neg hIdx, bne_iff_ne.mpr hIdx, Bool.true_or, Bool.true_and]
      exact visitSeq_visit items depth want rest (index + 1) found

theorem visitMap_visit (members : Members) (depth : Nat) (head : String) (rest : List String)
    (found : Option Value) :
    Visit (visitMap floats depth head rest found members)
      (passesMembers floats depth head rest members)
      (leadsMembers head rest found.isSome members) := by
  cases members with
  | last label doc after =>
    rw [visitMap, passesMembers, leadsMembers]
    cases hKey : stringValue label.key with
    | none => exact .fails rfl rfl
    | some key =>
      by_cases hHead : key = head
      · simpa [hHead] using pick_visit doc depth rest
      · exact .finds found (by simp [hHead]) (by simp [hHead]) (by simp [hHead])
  | next label doc after members =>
    rw [visitMap, passesMembers, leadsMembers]
    cases hKey : stringValue label.key with
    | none => exact .fails rfl rfl
    | some key =>
      by_cases hHead : key = head
      · subst hHead
        rw [bind_some, if_pos rfl, if_pos rfl, bne_self_eq_false, Bool.false_or]
        cases pick_visit doc depth rest with
        | fails hRes hPasses => exact .fails (by rw [hRes]; rfl) (by rw [hPasses]; rfl)
        | finds next hRes hPasses hLeads =>
          rw [hRes, hPasses, ← hLeads, isSome_some, Bool.true_and, Bool.true_and]
          exact visitMap_visit members depth key rest next
      · have hNe : some key ≠ some head := fun hSame => hHead (some.inj hSame)
        rw [bind_some, if_neg hHead, if_neg hNe, bne_iff_ne.mpr hNe, Bool.true_or, isSome_some,
          Bool.true_and, Bool.true_and]
        exact visitMap_visit members depth head rest found
end

/-- A walk finds something where the path leads, and what is picked is what it finds. -/
def Agrees (expected : Option Value) (result : Option (Option Value)) (leads : Bool) : Prop :=
  expected.isSome = leads ∧ ∀ found, result = some found → found = expected

mutual
theorem pick_agrees (doc : Doc) {depth : Nat} {segments : List String} {value : Value}
    (hVal : doc.value floats depth = some value) :
    Agrees (walkSegments segments value) (pick floats depth segments doc) (leads segments doc) := by
  cases segments with
  | nil =>
    rw [pick, leads, hVal]
    exact ⟨rfl, fun found hFound => (some.inj hFound).symm⟩
  | cons head rest =>
    have hNothing (hEnter : enter value head = none) (result : Option (Option Value))
        (hRes : result = none ∨ result = some none) :
        Agrees (walkSegments (head :: rest) value) result false := by
      rw [walkSegments_cons_of_enter hEnter]
      refine ⟨rfl, fun found hFound => ?_⟩
      rcases hRes with rfl | rfl <;> cases hFound
      rfl
    cases doc with
      simp only [Doc.value, ite_none_left_eq_some, map_eq_some_iff, some.injEq] at hVal
    | scalar scalar =>
      rw [pick, leads]
      exact hNothing (enter_scalar hVal head) none (.inl rfl)
    | emptyArray space =>
      obtain ⟨hDepth, rfl⟩ := hVal
      rw [pick, leads, if_neg hDepth]
      exact hNothing (by cases hIdx : parseIndex head <;> simp [enter]) _ (.inr rfl)
    | emptyObject space =>
      obtain ⟨hDepth, rfl⟩ := hVal
      rw [pick, leads, if_neg hDepth]
      exact hNothing rfl _ (.inr rfl)
    | array items =>
      obtain ⟨hDepth, values, hValues, rfl⟩ := hVal
      rw [pick, if_neg hDepth, leads]
      exact visitSeq_agrees items [] hValues (by cases parseIndex head <;> rfl)
    | object members =>
      obtain ⟨hDepth, entries, hEntries, rfl⟩ := hVal
      rw [pick, if_neg hDepth, leads]
      exact visitMap_agrees members [] hEntries rfl

/-- The items seen so far hold what was found so far. -/
theorem visitSeq_agrees (items : Items) {depth : Nat} {want : Option Nat} {rest : List String}
    (seen : List Value) {values : List Value} {found : Option Value}
    (hValues : items.values floats depth = some values)
    (hSeen : found = (want.bind fun index => seen[index]?).bind (walkSegments rest)) :
    Agrees ((want.bind fun index => (seen ++ values)[index]?).bind (walkSegments rest))
      (visitSeq floats depth want rest seen.length found items)
      (leadsItems want rest seen.length found.isSome items) := by
  cases items with
  | last before doc after =>
    obtain ⟨value, hVal, rfl⟩ := map_eq_some_iff.mp hValues
    rw [visitSeq, leadsItems, bind_getElem?_snoc]
    split_ifs with hIdx
    · exact pick_agrees doc hVal
    · rw [← hSeen]
      exact ⟨rfl, fun next hNext => (some.inj hNext).symm⟩
  | next before doc after items =>
    obtain ⟨value, hVal, hValues⟩ := bind_eq_some_iff.mp hValues
    obtain ⟨others, hOthers, rfl⟩ := map_eq_some_iff.mp hValues
    have hSnoc := bind_getElem?_snoc want seen value
    have hLen : (seen ++ [value]).length = seen.length + 1 := by simp
    rw [visitSeq, leadsItems, ← hLen, ← singleton_append, ← append_assoc]
    split_ifs at hSnoc ⊢ with hIdx
    · obtain ⟨hLeads, hFound⟩ : Agrees (walkSegments rest value) _ _ := pick_agrees doc hVal
      rw [← hLeads]
      have hNow : walkSegments rest value =
          (want.bind fun index => (seen ++ [value])[index]?).bind (walkSegments rest) := by
        rw [hSnoc, bind_some]
      have hLater := visitSeq_agrees items (seen ++ [value]) hOthers hNow
      refine ⟨hLater.1, fun result hRes => hLater.2 result ?_⟩
      obtain ⟨next, hNext, hRes⟩ := bind_eq_some_iff.mp hRes
      rwa [← hFound next hNext]
    · exact visitSeq_agrees items (seen ++ [value]) hOthers (by rw [hSnoc, hSeen])

/-- The map holds what was found so far. -/
theorem visitMap_agrees (members : Members) {depth : Nat} {head : String} {rest : List String}
    (map : List (String × Value)) {entries : List (String × Value)} {found : Option Value}
    (hEntries : members.entries floats depth = some entries)
    (hMap : found = (lookup head map).bind (walkSegments rest)) :
    Agrees ((lookup head (insertAll map entries)).bind (walkSegments rest))
      (visitMap floats depth head rest found members)
      (leadsMembers head rest found.isSome members) := by
  cases members with
    obtain ⟨key, hKey, hEntries⟩ := bind_eq_some_iff.mp hEntries
  | last label doc after =>
    obtain ⟨value, hVal, rfl⟩ := map_eq_some_iff.mp hEntries
    rw [visitMap, leadsMembers, hKey, bind_some]
    change Agrees ((lookup head (insert key value map)).bind _) _ _
    rw [lookup_insert]
    simp only [some.injEq]
    split_ifs with hHead
    · exact pick_agrees doc hVal
    · rw [← hMap]
      exact ⟨rfl, fun next hNext => (some.inj hNext).symm⟩
  | next label doc after members =>
    obtain ⟨value, hVal, hEntries⟩ := bind_eq_some_iff.mp hEntries
    obtain ⟨others, hOthers, rfl⟩ := map_eq_some_iff.mp hEntries
    have hInsert := lookup_insert key head value map
    rw [visitMap, leadsMembers, hKey, bind_some]
    simp only [some.injEq]
    split_ifs at hInsert ⊢ with hHead
    · obtain ⟨hLeads, hFound⟩ : Agrees (walkSegments rest value) _ _ := pick_agrees doc hVal
      rw [← hLeads]
      have hNow : walkSegments rest value =
          (lookup head (insert key value map)).bind (walkSegments rest) := by
        rw [hInsert, bind_some]
      have hLater := visitMap_agrees members (insert key value map) hOthers hNow
      refine ⟨hLater.1, fun result hRes => hLater.2 result ?_⟩
      obtain ⟨next, hNext, hRes⟩ := bind_eq_some_iff.mp hRes
      rwa [← hFound next hNext]
    · exact visitMap_agrees members (insert key value map) hOthers (by rw [hInsert, hMap])
end

end Spec

/-- Picking a path is parsing the document and walking it, if and only if the path
leads nowhere, or the document can be read as a whole exactly where the path goes
through it. -/
theorem pickPath_eq_walk_iff (floats : Floats) (bytes : List UInt8) (path : String) :
    pickPath floats bytes (pathSegments path) = (fromSlice floats bytes).bind (walk · path) ↔
      ∀ doc, scan bytes = some doc → leads (pathSegments path) doc = false ∨
        ((doc.value floats recursionLimit).isSome =
          passes floats recursionLimit (pathSegments path) doc) := by
  rw [pickPath, fromSlice]
  cases hScan : scan bytes with
  | none => exact iff_of_true rfl nofun
  | some doc =>
    have hVisit : Visit (pick floats recursionLimit (pathSegments path) doc) _ _ :=
      pick_visit doc _ _
    simp only [bind_some, some.injEq, forall_eq']
    cases hVal : doc.value floats recursionLimit with
    | none =>
      rw [bind_none, isSome_none]
      cases hVisit with
      | fails hRes hPasses => simp [hRes, hPasses]
      | finds found hRes hPasses hLeads => simp [hRes, hPasses, ← hLeads]
    | some value =>
      obtain ⟨hLeads, hFound⟩ : Agrees (walkSegments (pathSegments path) value) _ _ :=
        pick_agrees doc hVal
      rw [bind_some, walk_eq, isSome_some]
      cases hVisit with
      | fails hRes hPasses =>
        rw [hRes, hPasses, join_none, ← hLeads, isSome_eq_false_iff, isNone_iff_eq_none, eq_comm]
        exact (or_iff_left Bool.noConfusion).symm
      | finds found hRes hPasses _ =>
        rw [hRes, hPasses, hFound found hRes, join_some]
        exact iff_of_true rfl (.inr rfl)

def scalarReplaced : List UInt8 := Text.bytesOf "\x7b\"a\":1,\"a\":\x7b\"b\":2\x7d\x7d"

theorem pickPath_of_scalar_replaced :
    pickPath integersOnly scalarReplaced (pathSegments "a.b") = none ∧
      (fromSlice integersOnly scalarReplaced).bind (walk · "a.b") = some (.number (.posInt 2)) :=
  ⟨rfl, rfl⟩

end MqBridge.PickPath
