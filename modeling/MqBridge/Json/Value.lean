import MqBridge.Collections.InsertionMap
import MqBridge.Json.Scalar
import MqBridge.Json.SyntaxRoundTrip

/-! JSON values. A text is read into a value with a limit on how deep it may be
nested, and the last member of a name counts. -/
namespace Json

open Option

inductive Value where
  | null
  | bool (value : Bool)
  | number (number : Number)
  | string (text : String)
  | array (items : List Value)
  | object (members : List (String × Value))

section Reading

variable (floats : Floats)

def Scalar.value : Scalar → Option Value
  | .null => some .null
  | .bool value => some (.bool value)
  | .number token => (floats.number token).map .number
  | .string pieces => (stringValue pieces).map .string

mutual
/-- What a text stands for, if it may be nested so deep. -/
def Doc.value : Nat → Doc → Option Value
  | _, .scalar scalar => scalar.value floats
  | depth, .emptyArray _ => if depth ≤ 1 then none else some (.array [])
  | depth, .array items => if depth ≤ 1 then none else (items.values (depth - 1)).map .array
  | depth, .emptyObject _ => if depth ≤ 1 then none else some (.object [])
  | depth, .object members =>
    if depth ≤ 1 then none
    else (members.entries (depth - 1)).map fun entries =>
      .object (InsertionMap.insertAll [] entries)

def Items.values : Nat → Items → Option (List Value)
  | depth, .last _ doc _ => (doc.value depth).map fun value => [value]
  | depth, .next _ doc _ rest =>
    (doc.value depth).bind fun value => (rest.values depth).map (value :: ·)

def Members.entries : Nat → Members → Option (List (String × Value))
  | depth, .last label doc _ =>
    (stringValue label.key).bind fun key => (doc.value depth).map fun value => [(key, value)]
  | depth, .next label doc _ rest =>
    (stringValue label.key).bind fun key => (doc.value depth).bind fun value =>
      (rest.entries depth).map ((key, value) :: ·)
end

/-- The parser gives up at this depth. -/
def recursionLimit : Nat := 128

def fromSlice (bytes : List UInt8) : Option Value :=
  (scan bytes).bind fun doc => doc.value floats recursionLimit

end Reading

section Cases

variable {floats : Floats} {depth : Nat} {doc : Doc} {value : Value}

/-- A text of a value is a scalar or begins with a bracket, and an object has
every name once. -/
theorem Doc.value_cases (hVal : doc.value floats depth = some value) :
    (∃ scalar, doc = .scalar scalar ∧ scalar.value floats = some value) ∨
      (∃ items tail, value = .array items ∧ doc.text = 0x5b :: tail) ∨
      ∃ members tail, value = .object members ∧ doc.text = 0x7b :: tail ∧
        (members.map Prod.fst).Nodup := by
  have hNil : (([] : List (String × Value)).map Prod.fst).Nodup := List.nodup_nil
  cases doc with
  | scalar scalar => exact .inl ⟨scalar, rfl, hVal⟩
  | emptyArray space =>
    rw [Doc.value] at hVal
    split_ifs at hVal
    cases hVal
    exact .inr (.inl ⟨_, _, rfl, rfl⟩)
  | array items =>
    rw [Doc.value] at hVal
    split_ifs at hVal
    obtain ⟨values, -, rfl⟩ := map_eq_some_iff.mp hVal
    exact .inr (.inl ⟨_, _, rfl, rfl⟩)
  | emptyObject space =>
    rw [Doc.value] at hVal
    split_ifs at hVal
    cases hVal
    exact .inr (.inr ⟨_, _, rfl, rfl, hNil⟩)
  | object members =>
    rw [Doc.value] at hVal
    split_ifs at hVal
    obtain ⟨entries, -, rfl⟩ := map_eq_some_iff.mp hVal
    exact .inr (.inr ⟨_, _, rfl, rfl, InsertionMap.nodup_insertAll hNil entries⟩)

end Cases

def noSpace : Space := ⟨[], nofun⟩

/-! ### Equality -/

/-- Zeros are equal whatever their sign. -/
def Number.same : Number → Number → Bool
  | .float a, .float b => a == b || (a &&& 0x7fffffffffffffff == 0 && b &&& 0x7fffffffffffffff == 0)
  | a, b => decide (a = b)

mutual
/-- Members may come in any order. -/
def Value.same : Value → Value → Bool
  | .null, .null => true
  | .bool a, .bool b => a == b
  | .number a, .number b => a.same b
  | .string a, .string b => a == b
  | .array a, .array b => sameItems a b
  | .object a, .object b => a.length == b.length && sameMembers a b
  | _, _ => false

def sameItems : List Value → List Value → Bool
  | [], [] => true
  | a :: as, b :: bs => a.same b && sameItems as bs
  | _, _ => false

def sameMembers : List (String × Value) → List (String × Value) → Bool
  | [], _ => true
  | (key, a) :: rest, others =>
    (match InsertionMap.lookup key others with
      | some b => a.same b
      | none => false) && sameMembers rest others
end

end Json
