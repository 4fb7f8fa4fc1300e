import MqBridge.Json.Compose
import MqBridge.Middleware.Transform.Path

/-! The mapping stage of a transform: the rules that pick values out of a document. When no path
leads through another one, the picked values are moved out instead of copied, which leaves nulls
behind. -/
namespace MqBridge.SchemaTransform

open List Json

/-! ### Errors -/

inductive ErrorKind where
  | parse
  | coercion
  | content
  | missingRequired
  | typeMismatch
  | enum
  deriving DecidableEq

structure TransformError where
  path : String
  kind : ErrorKind
  detail : String
  deriving DecidableEq

inductive Crumb where
  | key (name : String)
  | index (position : Nat)

def isQuoteOrBackslash (c : Char) : Bool := c.toNat == 0x27 || c.toNat == 0x5c

/-- Dots, brackets and quotes would read ambiguously. -/
def isAmbiguous (c : Char) : Bool :=
  c == '.' || c == '[' || c == ']' || c.toNat == 0x27 || c.toNat == 0x22

def Crumb.render : Crumb → String
  | .key name =>
    if name.isEmpty || name.toList.any isAmbiguous then
      let escaped := name.toList.flatMap fun c =>
        if isQuoteOrBackslash c then [Char.ofNat 0x5c, c] else [c]
      "['" ++ String.ofList escaped ++ "']"
    else "." ++ name
  | .index position => "[" ++ toString position ++ "]"

def renderPath (crumbs : List Crumb) : String :=
  crumbs.foldl (fun out crumb => out ++ crumb.render) "$"

def isInteger : Number → Bool
  | .float _ => false
  | _ => true

def typeName : Value → String
  | .null => "null"
  | .bool _ => "boolean"
  | .number number => if isInteger number then "integer" else "number"
  | .string _ => "string"
  | .array _ => "array"
  | .object _ => "object"

/-! ### Moving values out -/

def Seg.get : Seg → Value → Option Value
  | .key name, .object members => InsertionMap.lookup name members
  | .index position, .array items => items[position]?
  | _, _ => none

def Seg.put (child : Value) : Seg → Value → Value
  | .key name, .object members => .object (InsertionMap.insert name child members)
  | .index position, .array items => .array (items.set position child)
  | _, other => other

def get : List Seg → Value → Option Value
  | [], root => some root
  | seg :: rest, root => (seg.get root).bind (get rest)

/-- What is moved out, and the document with a null in its place. -/
def take : List Seg → Value → Option (Value × Value)
  | [], root => some (root, .null)
  | seg :: rest, root =>
    (seg.get root).bind fun child => (take rest child).map (Prod.map id (seg.put · root))

structure CompiledRule where
  out : List String
  path : CompiledPath
  default : Option Value
  required : Bool

/-- One of the two paths leads through the other. -/
def overlap (a b : CompiledRule) : Bool :=
  let shared := min a.path.segs.length b.path.segs.length
  a.path.segs.take shared == b.path.segs.take shared

def pathsAreDisjoint (rules : List CompiledRule) : Bool :=
  !rules.zipIdx.any fun entry => (rules.take entry.2).any (overlap entry.1)

def renderOutputPath (path : List String) : String := renderPath (path.map .key)

def insertUnder (path : List String) (value : Value) :
    List String → Value → Except TransformError Value
  | [], root => .ok root
  | [last], .object members => .ok (.object (InsertionMap.insert last value members))
  | [last], other => .error ⟨renderOutputPath path, .typeMismatch,
      "cannot set '" ++ last ++ "': parent is a " ++ typeName other⟩
  | key :: rest, .object members =>
    (insertUnder path value rest ((InsertionMap.lookup key members).getD (.object []))).map
      fun child => .object (InsertionMap.insert key child members)
  | key :: _, other => .error ⟨renderOutputPath path, .typeMismatch,
      "cannot nest under '" ++ key ++ "': it is already a " ++ typeName other⟩

def insertAt (root : Value) (path : List String) (value : Value) : Except TransformError Value :=
  insertUnder path value path root

def applyRules (takeInputs : Bool) : List CompiledRule → Value → Value → Except TransformError Value
  | [], _, out => .ok out
  | rule :: rules, input, out =>
    let taken := take rule.path.segs input
    let found := if takeInputs then taken.map Prod.fst else get rule.path.segs input
    let left := if takeInputs then (taken.map Prod.snd).getD input else input
    match found.or rule.default with
    | some picked => insertAt out rule.out picked >>= applyRules takeInputs rules left
    | none =>
      if rule.required then .error ⟨rule.path.spec, .missingRequired,
        "required source field is missing (mapped to '" ++ ".".intercalate rule.out ++ "')"⟩
      else applyRules takeInputs rules left out

def applyMapping (takeInputs : Bool) (rules : List CompiledRule) (input : Value) :
    Except TransformError Value :=
  applyRules takeInputs rules input (.object [])

theorem take_fst (segs : List Seg) (root : Value) :
    (take segs root).map Prod.fst = get segs root := by
  induction segs generalizing root with
  | nil => rfl
  | cons seg rest ih =>
    rw [take, get]
    cases seg.get root with
    | none => rfl
    | some child => rw [Option.bind_some, Option.bind_some, ← ih child, Option.map_map]; rfl

theorem Seg.get_put {seg : Seg} {root child : Value} (hChild : seg.get root = some child)
    (left : Value) (other : Seg) :
    other.get (seg.put left root) = if other = seg then some left else other.get root := by
  cases seg with
  | key name =>
    cases root with
    | object members =>
      cases other with
      | key key => simp only [get, put, InsertionMap.lookup_insert, Seg.key.injEq, eq_comm]
      | index => simp [get, put]
    | _ => cases hChild
  | index position =>
    cases root with
    | array items =>
      cases other with
      | key => simp [get, put]
      | index place =>
        have hLt : position < items.length := (List.getElem?_eq_some_iff.mp hChild).1
        simp only [get, put, getElem?_set, hLt, if_true, index.injEq, eq_comm]
    | _ => cases hChild

/-- The hole is not seen from a path that neither leads to it nor through it. -/
theorem get_of_take {segs other : List Seg} {root value left : Value}
    (hTake : take segs root = some (value, left))
    (hThrough : ¬ segs <+: other) (hAbove : ¬ other <+: segs) :
    get other left = get other root := by
  induction segs generalizing root left other with
  | nil => exact absurd nil_prefix hThrough
  | cons seg rest ih =>
    obtain ⟨child, hChild, hTake⟩ := Option.bind_eq_some_iff.mp hTake
    obtain ⟨⟨taken, hole⟩, hRest, hLeft⟩ := Option.map_eq_some_iff.mp hTake
    cases hLeft
    cases other with
    | nil => exact absurd nil_prefix hAbove
    | cons first later =>
      rw [get, get, Seg.get_put hChild]
      split_ifs with hSame
      · rw [hSame, prefix_cons_inj] at hThrough hAbove
        rw [hSame, hChild]
        exact ih hRest hThrough hAbove
      · rfl

variable {rules : List CompiledRule}

theorem pairwise_of_disjoint (hDisjoint : pathsAreDisjoint rules = true) :
    rules.Pairwise fun b a => ¬ b.path.segs <+: a.path.segs ∧ ¬ a.path.segs <+: b.path.segs := by
  rw [pairwise_iff_getElem]
  intro i j hi hj hLt
  rw [pathsAreDisjoint, Bool.not_eq_true', any_eq_false] at hDisjoint
  have hEach := hDisjoint (rules[j], j) (mem_zipIdx_iff_getElem?.mpr (getElem?_eq_getElem hj))
  rw [Bool.not_eq_true, any_eq_false] at hEach
  have hApart := hEach rules[i] (mem_take_iff_getElem.mpr ⟨i, by omega, rfl⟩)
  rw [overlap, beq_iff_eq] at hApart
  refine ⟨fun hPre => hApart ?_, fun hPre => hApart ?_⟩
  · rw [min_eq_right hPre.length_le, take_length, ← prefix_iff_eq_take.mp hPre]
  · rw [min_eq_left hPre.length_le, take_length, ← prefix_iff_eq_take.mp hPre]

/-- Rule by rule: the document with its holes reads like the whole one for the rules that are left.
-/
theorem applyRules_take {holed input : Value} (out : Value)
    (hApart : rules.Pairwise fun b a => ¬ b.path.segs <+: a.path.segs ∧
      ¬ a.path.segs <+: b.path.segs)
    (hReads : ∀ rule ∈ rules, get rule.path.segs holed = get rule.path.segs input) :
    applyRules true rules holed out = applyRules false rules input out := by
  induction rules generalizing holed out with
  | nil => rfl
  | cons rule rules ih =>
    obtain ⟨hRule, hApart⟩ := pairwise_cons.mp hApart
    obtain ⟨hFirst, hReads⟩ := forall_mem_cons.mp hReads
    have hLeft : ∀ later ∈ rules, get later.path.segs
        (((take rule.path.segs holed).map Prod.snd).getD holed) =
        get later.path.segs input := by
      intro later hMem
      rw [← hReads later hMem]
      cases hTake : take rule.path.segs holed with
      | none => rfl
      | some taken => exact get_of_take hTake (hRule later hMem).1 (hRule later hMem).2
    have hNext := funext fun next => ih next hApart hLeft
    simp only [applyRules, if_true, take_fst, hFirst, Bool.false_eq_true, if_false, hNext]

/-- When no path leads through another one, moving values out gives what copying them gives. -/
theorem applyMapping_take (hDisjoint : pathsAreDisjoint rules = true) (input : Value) :
    applyMapping true rules input = applyMapping false rules input :=
  applyRules_take _ (pairwise_of_disjoint hDisjoint) fun _ _ => rfl

def cityAndStreet : List CompiledRule :=
  [⟨["city"], ⟨[.key "address", .key "city"], "$.address.city"⟩, none, true⟩,
    ⟨["street"], ⟨[.key "address", .key "street"], "$.address.street"⟩, none, true⟩]

theorem applyMapping_take_address : pathsAreDisjoint cityAndStreet = true ∧ ∀ input,
    applyMapping true cityAndStreet input = applyMapping false cityAndStreet input :=
  ⟨by decide, applyMapping_take (by decide)⟩

end MqBridge.SchemaTransform
