import MqBridge.Middleware.RawJson

/-! What a filter takes from its expression: the paths it reads, split into
payload and metadata, those it compares against a number, and a predicate that
can be decided without the engine. The engine itself, its decimals and its
variables come from a library and are parameters. -/
namespace MqBridge.FilterExpression

open List

open Json

/-- The reserved name under which an expression sees the metadata. -/
def metadataPrefix : String := "meta"

inductive Target where
  | root
  | begin
  | string (name : String)
  | number (index : Nat)

def Target.name : Target → Option String
  | .string name => some name
  | _ => none

def Target.isNumber : Target → Bool
  | .number _ => true
  | _ => false

inductive Compare where
  | more
  | moreOrEqual
  | less
  | lessOrEqual

inductive Jump where
  | ifFalse
  | ifTrue
  /-- The jumps that no fast predicate has. -/
  | other

/-- The instructions that a filter looks at. -/
inductive Opcode (D : Type) where
  | fetchEnv (name : String)
  | fetchFast (targets : List Target)
  | pushNull
  | pushBool (value : Bool)
  | pushNumber (value : D)
  | pushString (text : String)
  | equal
  | not
  | compare (compare : Compare)
  | jump (kind : Jump) (offset : Nat)
  | pop
  /-- Every other instruction. -/
  | other (code : Nat)

/-! ### Paths -/

structure Referenced where
  payload : List (List String)
  metadata : List String
  usesAllMetadata : Bool
  hasUnsupportedPath : Bool

def Referenced.add (r : Referenced) : List String → Referenced
  | [] => r
  | first :: rest =>
    if first = metadataPrefix then
      match rest with
      -- a bare `meta` reads the whole map
      | [] => { r with usesAllMetadata := true }
      | key :: _ => if key ∈ r.metadata then r else { r with metadata := r.metadata ++ [key] }
    else if first :: rest ∈ r.payload then r
    else { r with payload := r.payload ++ [first :: rest] }

section Compile

variable {D : Type}

def Opcode.path : Opcode D → List String
  | .fetchEnv name => [name]
  | .fetchFast targets => targets.filterMap Target.name
  | _ => []

def Opcode.isIndexed : Opcode D → Bool
  | .fetchFast targets => targets.any Target.isNumber
  | _ => false

def reference (r : Referenced) (opcode : Opcode D) : Referenced :=
  if opcode.isIndexed then { r with hasUnsupportedPath := true } else r.add opcode.path

def referencedPaths (opcodes : List (Opcode D)) : Referenced :=
  opcodes.foldl reference ⟨[], [], false, false⟩

def parseFastFetch : Opcode D → Option (List String)
  | .fetchEnv name => some [name]
  | .fetchFast targets =>
    if targets.any Target.isNumber then none else some (targets.filterMap Target.name)
  | _ => none

def isComparison : Opcode D → Bool
  | .compare _ | .equal => true
  | _ => false

/-- A bare field against a bare number. -/
def comparedFetch : Opcode D → Opcode D → Opcode D → Option (Opcode D)
  | .pushNumber _, operand, last => if isComparison last then some operand else none
  | operand, .pushNumber _, last => if isComparison last then some operand else none
  | _, _, _ => none

def dotted (path : List String) : String := String.intercalate "." path

def numericallyComparedPaths : List (Opcode D) → List String → List String
  | a :: b :: c :: rest, paths =>
    let found := (((comparedFetch a b c).bind parseFastFetch).filter (!·.isEmpty)).map dotted
    numericallyComparedPaths (b :: c :: rest)
      (match found with
        | some path => if path ∈ paths then paths else paths ++ [path]
        | none => paths)
  | _, paths => paths

/-! ### Fast predicates -/

inductive FastOp where
  | eq
  | ne
  | lt
  | le
  | gt
  | ge
  deriving DecidableEq

def FastOp.fromCompare : Compare → FastOp
  | .more => .gt
  | .moreOrEqual => .ge
  | .less => .lt
  | .lessOrEqual => .le

def FastOp.flipped : FastOp → FastOp
  | .lt => .gt
  | .gt => .lt
  | .le => .ge
  | .ge => .le
  | op => op

def FastOp.isOrdering (op : FastOp) : Bool := op != .eq && op != .ne

def FastOp.accepts (op : FastOp) (ordering : Ordering) : Bool :=
  match op with
  | .eq => ordering == .eq
  | .ne => ordering != .eq
  | .lt => ordering == .lt
  | .le => ordering != .gt
  | .gt => ordering == .gt
  | .ge => ordering != .lt

inductive FastLiteral (D : Type) where
  | null
  | bool (value : Bool)
  | number (value : D)
  | string (text : String)

def FastLiteral.isNumber : FastLiteral D → Bool
  | .number _ => true
  | _ => false

structure FastTerm (D : Type) where
  path : List String
  op : FastOp
  literal : FastLiteral D

inductive FastPredicate (D : Type) where
  | term (term : FastTerm D)
  | and (left right : FastPredicate D)
  | or (left right : FastPredicate D)

def parseFastLiteral : Opcode D → Option (FastLiteral D)
  | .pushNull => some .null
  | .pushBool value => some (.bool value)
  | .pushNumber value => some (.number value)
  | .pushString text => some (.string text)
  | _ => none

def parseOperands (left right : Opcode D) (op : FastOp) : Option (FastTerm D) :=
  match parseFastFetch left, parseFastLiteral right with
  | some path, some literal => some ⟨path, op, literal⟩
  | _, _ =>
    -- a literal written on the left reverses the test
    match parseFastLiteral left, parseFastFetch right with
    | some literal, some path => some ⟨path, op.flipped, literal⟩
    | _, _ => none

def parseFastTerm (opcodes : List (Opcode D)) : Option (FastTerm D) :=
  let parsed :=
    match opcodes with
    | [left, right, .equal] => parseOperands left right .eq
    | [left, right, .equal, .not] => parseOperands left right .ne
    | [left, right, .compare compare] => parseOperands left right (.fromCompare compare)
    | _ => none
  parsed.filter fun term =>
    !term.path.isEmpty && (!term.op.isOrdering || term.literal.isNumber)

/-- The first jump to the end is the outermost operator; its place is counted
from where the search begins. -/
def outermostJump (last : Nat) : Nat → List (Opcode D) → Option (Nat × Bool)
  | index, .jump .ifFalse offset :: .pop :: rest =>
    if index + offset = last then some (index, true)
    else outermostJump last (index + 1) (.pop :: rest)
  | index, .jump .ifTrue offset :: .pop :: rest =>
    if index + offset = last then some (index, false)
    else outermostJump last (index + 1) (.pop :: rest)
  | index, _ :: rest => outermostJump last (index + 1) rest
  | _, [] => none

/-- Both sides of an operator are shorter; the number bounds the calls. -/
def parseFastNode : Nat → List (Opcode D) → Option (FastPredicate D)
  | 0, _ => none
  | fuel + 1, opcodes =>
    match outermostJump (opcodes.length - 1) 0 opcodes with
    | some (index, isAnd) =>
      (parseFastNode fuel (opcodes.take index)).bind fun left =>
        (parseFastNode fuel (opcodes.drop (index + 2))).map fun right =>
          if isAnd then .and left right else .or left right
    | none => (parseFastTerm opcodes).map .term

def compileFastPredicate (opcodes : List (Opcode D)) : Option (FastPredicate D) :=
  parseFastNode opcodes.length opcodes

def FastTerm.metadataKey (term : FastTerm D) : Option String :=
  match term.path with
  | [first, key] => if first = metadataPrefix then some key else none
  | _ => none

def FastTerm.payloadKey (term : FastTerm D) : Option String :=
  match term.path with
  | [key] => if key = metadataPrefix then none else some key
  | _ => none

/-- Every term reads a metadata key or a single top-level field. -/
def FastPredicate.readsSpans : FastPredicate D → Bool
  | .term leaf => leaf.metadataKey.isSome || leaf.payloadKey.isSome
  | .and left right | .or left right => left.readsSpans && right.readsSpans

def FastPredicate.readsPayload : FastPredicate D → Bool
  | .term leaf => leaf.metadataKey.isNone
  | .and left right | .or left right => left.readsPayload || right.readsPayload

end Compile

/-! ### Expressions -/

def backslash : Char := Char.ofNat 0x5c

def isQuote (c : Char) : Bool := c.toNat == 0x22 || c.toNat == 0x27

/-- Rewrites `&&` and `||`, outside of literals, to what the engine accepts. -/
def normalize : Option Char → Bool → List Char → List Char
  | _, _, [] => []
  | some delimiter, escaped, c :: rest =>
    c ::
      if escaped then normalize (some delimiter) false rest
      else if c = backslash then normalize (some delimiter) true rest
      else if c = delimiter then normalize none false rest
      else normalize (some delimiter) false rest
  | none, _, '&' :: '&' :: rest => " and ".toList ++ normalize none false rest
  | none, _, '|' :: '|' :: rest => " or ".toList ++ normalize none false rest
  | none, _, c :: rest =>
    c :: (if isQuote c then normalize (some c) false rest else normalize none false rest)

def normalizeExpression (expression : String) : String :=
  String.ofList (normalize none false expression.toList)

/-- A `=` that is not part of another operator stands outside of literals. -/
def loneEquals : Option Char → Option Char → Bool → List Char → Bool
  | _, _, _, [] => false
  | _, some delimiter, escaped, c :: rest =>
    if escaped then loneEquals (some c) (some delimiter) false rest
    else if c = backslash then loneEquals (some c) (some delimiter) true rest
    else if c = delimiter then loneEquals (some c) none false rest
    else loneEquals (some c) (some delimiter) false rest
  | before, none, _, c :: rest =>
    if isQuote c then loneEquals (some c) (some c) false rest
    else if c = '=' ∧ rest.head? ≠ some '=' ∧
        before.all (fun b => b ≠ '=' ∧ b ≠ '!' ∧ b ≠ '<' ∧ b ≠ '>') then true
    else loneEquals (some c) none false rest

def hasLoneEquals (expression : String) : Bool := loneEquals none none false expression.toList

/-- What the filter uses of the expression library. -/
structure Engine where
  Decimal : Type
  Variable : Type
  compile : String → Except String (List (Opcode Decimal))
  evaluate : List (Opcode Decimal) → Variable → Except String Variable
  asBool : Variable → Option Bool
  ofValue : Value → Variable
  dotText : Variable → String → Option String
  dotInsert : Variable → String → Decimal → Variable
  ofText : String → Option Decimal
  ofNumber : Number → Option Decimal
  cmp : Decimal → Decimal → Ordering

/-- Text as the engine's own cast reads it. -/
def Engine.parseNumber (engine : Engine) (text : String) : Option engine.Decimal :=
  engine.ofText (String.ofList (Text.trim text.toList))

structure CompiledFilter (D : Type) where
  opcodes : List (Opcode D)
  fastPredicate : Option (FastPredicate D)
  fastReadsSpans : Bool
  fastReadsPayload : Bool
  payloadPaths : List (List String)
  metadataKeys : List String
  numericPaths : List String
  usesAllMetadata : Bool
  loneEquals : Bool

def CompiledFilter.ofOpcodes {D : Type} (opcodes : List (Opcode D)) (loneEquals : Bool) :
    CompiledFilter D :=
  let referenced := referencedPaths opcodes
  let fast := compileFastPredicate opcodes
  { opcodes
    fastPredicate := fast
    fastReadsSpans := fast.any FastPredicate.readsSpans
    fastReadsPayload := fast.any FastPredicate.readsPayload
    payloadPaths := referenced.payload
    metadataKeys := referenced.metadata
    numericPaths := numericallyComparedPaths opcodes []
    usesAllMetadata := referenced.usesAllMetadata
    loneEquals }

def CompiledFilter.new (engine : Engine) (expression : String) :
    Except String (CompiledFilter engine.Decimal) :=
  let normalized := normalizeExpression expression
  match engine.compile normalized with
  | .error error =>
    .error (error ++ ". Comparisons are ==, !=, <, <=, >, >=, in and not in, combined with " ++
      "and/or/not; string tests are functions, e.g. contains(name, \"x\")")
  | .ok opcodes =>
    if (referencedPaths opcodes).hasUnsupportedPath then
      .error ("filter expression uses an indexed path, which is unsupported; " ++
        "index into the array before the filter, or compare a scalar field")
    else .ok (CompiledFilter.ofOpcodes opcodes (hasLoneEquals normalized))

/-! ### What was read off the instructions -/

section Referenced

variable {D : Type} {r : Referenced} {opcodes : List (Opcode D)}

/-- The path leads into the payload and not to the metadata. -/
def OfPayload (path : List String) : Prop :=
  ∃ first rest, path = first :: rest ∧ first ≠ metadataPrefix

/-- Paths of the payload begin with another name. -/
def Referenced.Split (r : Referenced) : Prop :=
  ∀ path ∈ r.payload, ∃ first rest, path = first :: rest ∧ first ≠ metadataPrefix

theorem Referenced.Split.add (h : r.Split) (path : List String) : (r.add path).Split := by
  cases path with
  | nil => exact h
  | cons first rest =>
    rw [add.eq_def]
    dsimp only
    split_ifs with hMeta hMem
    · cases rest with
      | nil => exact h
      | cons key others =>
        dsimp only
        split_ifs <;> exact h
    · exact h
    · intro path hPath
      rcases mem_append.mp hPath with hOld | hNew
      · exact h path hOld
      · exact ⟨first, rest, mem_singleton.mp hNew, hMeta⟩

theorem Referenced.Split.reference (h : r.Split) (opcode : Opcode D) :
    (FilterExpression.reference r opcode).Split := by
  rw [FilterExpression.reference]
  split_ifs
  · exact h
  · exact h.add _

theorem referencedPaths_split (opcodes : List (Opcode D)) : (referencedPaths opcodes).Split := by
  have hFold : ∀ {r : Referenced}, r.Split → (opcodes.foldl reference r).Split := by
    intro r h
    induction opcodes generalizing r with
    | nil => exact h
    | cons opcode rest ih => exact ih (h.reference opcode)
  exact hFold nofun

/-- What is found is not lost again. -/
structure Referenced.Within (r s : Referenced) : Prop where
  metadata : r.metadata ⊆ s.metadata
  all : r.usesAllMetadata = true → s.usesAllMetadata = true
  unsupported : r.hasUnsupportedPath = true → s.hasUnsupportedPath = true

theorem Referenced.Within.refl (r : Referenced) : r.Within r := ⟨List.Subset.refl _, id, id⟩

theorem Referenced.Within.trans {r s t : Referenced} (h : r.Within s) (hNext : s.Within t) :
    r.Within t :=
  ⟨List.Subset.trans h.metadata hNext.metadata, fun hAll => hNext.all (h.all hAll),
    fun hUnsupported => hNext.unsupported (h.unsupported hUnsupported)⟩

theorem Referenced.within_add (r : Referenced) (path : List String) : r.Within (r.add path) := by
  cases path with
  | nil => exact .refl r
  | cons first rest =>
    rw [add.eq_def]
    dsimp only
    split_ifs
    · cases rest with
      | nil => exact ⟨.refl _, fun _ => rfl, id⟩
      | cons key others =>
        dsimp only
        split_ifs
        · exact .refl r
        · exact ⟨subset_append_left .., id, id⟩
    · exact .refl r
    · exact ⟨.refl _, id, id⟩

theorem Referenced.within_reference (r : Referenced) (opcode : Opcode D) :
    r.Within (FilterExpression.reference r opcode) := by
  rw [reference]
  split_ifs
  · exact ⟨.refl _, id, fun _ => rfl⟩
  · exact r.within_add _

theorem Referenced.within_foldl (opcodes : List (Opcode D)) (r : Referenced) :
    r.Within (opcodes.foldl FilterExpression.reference r) := by
  induction opcodes generalizing r with
  | nil => exact .refl r
  | cons opcode rest ih => exact (r.within_reference opcode).trans (ih _)

/-- The instruction reads the key, by its name or with the whole map. -/
def Opcode.reads (opcode : Opcode D) (key : String) : Prop :=
  opcode.path = [metadataPrefix] ∨ ∃ rest, opcode.path = metadataPrefix :: key :: rest

theorem Referenced.add_reads {opcode : Opcode D} {key : String} (hReads : opcode.reads key) :
    (r.add opcode.path).usesAllMetadata = true ∨ key ∈ (r.add opcode.path).metadata := by
  rcases hReads with hPath | ⟨rest, hPath⟩
  · rw [hPath]
    exact .inl rfl
  · rw [hPath, add, if_pos rfl]
    split_ifs with hKnown
    · exact .inr hKnown
    · exact .inr mem_concat_self

theorem referencedPaths_reads {opcode : Opcode D} {key : String}
    (hSupported : (referencedPaths opcodes).hasUnsupportedPath = false) (hMem : opcode ∈ opcodes)
    (hReads : opcode.reads key) :
    (referencedPaths opcodes).usesAllMetadata = true ∨
      key ∈ (referencedPaths opcodes).metadata := by
  obtain ⟨before, after, rfl⟩ := append_of_mem hMem
  rw [referencedPaths, foldl_append, foldl_cons] at hSupported ⊢
  generalize before.foldl reference ⟨[], [], false, false⟩ = r at hSupported ⊢
  have hAfter := Referenced.within_foldl after (reference r opcode)
  have hDirect : reference r opcode = r.add opcode.path := by
    refine if_neg fun hIndexed => ?_
    have hUnsupported : (reference r opcode).hasUnsupportedPath = true := by
      rw [reference, if_pos hIndexed]
    rw [hAfter.unsupported hUnsupported] at hSupported
    cases hSupported
  rw [hDirect] at hAfter ⊢
  exact (Referenced.add_reads hReads).imp (hAfter.all) fun hKey => hAfter.metadata hKey

end Referenced

theorem CompiledFilter.new_spec {engine : Engine} {expression : String}
    {filter : CompiledFilter engine.Decimal}
    (hNew : CompiledFilter.new engine expression = .ok filter) :
    ∃ loneEquals, filter = CompiledFilter.ofOpcodes filter.opcodes loneEquals ∧
      (referencedPaths filter.opcodes).hasUnsupportedPath = false := by
  rw [new] at hNew
  split at hNew
  next => cases hNew
  next opcodes hCompiled =>
    split_ifs at hNew with hUnsupported
    cases hNew
    exact ⟨_, rfl, Bool.eq_false_iff.mpr hUnsupported⟩

end MqBridge.FilterExpression
