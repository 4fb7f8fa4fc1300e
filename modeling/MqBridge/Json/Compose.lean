import MqBridge.Collections.Places
import MqBridge.Json.Value

/-! Texts that are put together from the texts of their parts, and the values
they stand for. What is read within some depth is read within any larger one. -/
namespace Json

open List Option InsertionMap

/-! ### Putting texts together -/

def itemsOf : List Doc → Option Items
  | [] => none
  | doc :: rest =>
    some ((itemsOf rest).elim (.last noSpace doc noSpace) (.next noSpace doc noSpace))

def arrayOf (docs : List Doc) : Doc := (itemsOf docs).elim (.emptyArray noSpace) .array

def labelOf (key : List Piece) : Label := ⟨noSpace, key, noSpace, noSpace⟩

def membersOf : List (List Piece × Doc) → Option Members
  | [] => none
  | (key, doc) :: rest =>
    some ((membersOf rest).elim (.last (labelOf key) doc noSpace) (.next (labelOf key) doc noSpace))

def objectOf (members : List (List Piece × Doc)) : Doc :=
  (membersOf members).elim (.emptyObject noSpace) .object

def commaSeparated (texts : List (List UInt8)) : List UInt8 := [0x2c].intercalate texts

def memberText (key : List Piece) (text : List UInt8) : List UInt8 :=
  0x22 :: (piecesText key ++ 0x22 :: 0x3a :: text)

theorem commaSeparated_cons (text next : List UInt8) (rest : List (List UInt8)) :
    commaSeparated (text :: next :: rest) = text ++ 0x2c :: commaSeparated (next :: rest) := rfl

theorem arrayOf_text (docs : List Doc) :
    (arrayOf docs).text = 0x5b :: (commaSeparated (docs.map Doc.text) ++ [0x5d]) := by
  cases docs with
  | nil => rfl
  | cons first rest =>
    rw [arrayOf, itemsOf, elim_some, Doc.text]
    congr 1
    induction rest generalizing first with
    | nil => simp [itemsOf, Items.text, noSpace, commaSeparated]
    | cons next rest ih =>
      rw [itemsOf, elim_some, Items.text, ih, map_cons, map_cons, map_cons, commaSeparated_cons]
      simp [noSpace]

theorem objectOf_text (members : List (List Piece × Doc)) : (objectOf members).text =
      0x7b :: (commaSeparated (members.map fun member => memberText member.1 member.2.text) ++
        [0x7d]) := by
  cases members with
  | nil => rfl
  | cons first rest =>
    rw [objectOf, membersOf, elim_some, Doc.text]
    congr 1
    induction rest generalizing first with
    | nil =>
      simp [membersOf, Members.text, Label.text, labelOf, noSpace, commaSeparated, memberText]
    | cons next rest ih =>
      rw [membersOf, elim_some, Members.text, ih, map_cons, map_cons, map_cons, commaSeparated_cons]
      simp [Label.text, labelOf, noSpace, memberText]

/-! ### The parts of a text -/

def Items.docs : Items → List Doc
  | .last _ doc _ => [doc]
  | .next _ doc _ rest => doc :: rest.docs

def Members.pairs : Members → List (List Piece × Doc)
  | .last label doc _ => [(label.key, doc)]
  | .next label doc _ rest => (label.key, doc) :: rest.pairs

/-- Induction over a tree, with all parts of an array or an object at once. -/
theorem Doc.induction {P : Doc → Prop} (scalar : ∀ scalar, P (.scalar scalar))
    (emptyArray : ∀ space, P (.emptyArray space))
    (array : ∀ items, (∀ doc ∈ items.docs, P doc) → P (.array items))
    (emptyObject : ∀ space, P (.emptyObject space))
    (object : ∀ members, (∀ pair ∈ members.pairs, P pair.2) → P (.object members)) (doc : Doc) :
    P doc :=
  @Doc.rec P (fun items => ∀ doc ∈ items.docs, P doc)
    (fun members => ∀ pair ∈ members.pairs, P pair.2)
    scalar emptyArray array emptyObject object
    (fun _ _ _ hDoc => forall_mem_singleton.mpr hDoc)
      (fun _ _ _ _ hDoc hRest => forall_mem_cons.mpr ⟨hDoc, hRest⟩)
    (fun _ _ _ hDoc => forall_mem_singleton.mpr hDoc)
      (fun _ _ _ _ hDoc hRest => forall_mem_cons.mpr ⟨hDoc, hRest⟩)
    doc

theorem membersOf_pairs (docs : List (List Piece × Doc)) :
    (membersOf docs).elim [] Members.pairs = docs := by
  induction docs with
  | nil => rfl
  | cons doc rest ih =>
    conv_rhs => rw [← ih]
    rw [membersOf]
    cases membersOf rest <;> rfl

section Reading

variable {floats : Floats} {depth : Nat}

theorem mapM_cons_eq_bind {α β : Type} (f : α → Option β) (first : α) (rest : List α) :
    (first :: rest).mapM f = (f first).bind fun value => (rest.mapM f).map (value :: ·) := by
  rw [mapM_cons]
  cases f first with
  | none => rfl
  | some value => cases rest.mapM f <;> rfl

def entryValue (floats : Floats) (depth : Nat) (member : List Piece × Doc) :
    Option (String × Value) :=
  (stringValue member.1).bind fun key => (member.2.value floats depth).map fun value => (key, value)

theorem entryValue_escape {key : String} {doc : Doc} :
    entryValue floats depth (escape key, doc) = (doc.value floats depth).map fun value =>
      (key, value) := by
  rw [entryValue, stringValue_escape, bind_some]

theorem Members.entries_eq (members : Members) :
    members.entries floats depth = members.pairs.mapM (entryValue floats depth) := by
  cases members with
  | last label doc _ =>
    rw [entries, pairs, mapM_cons_eq_bind, entryValue]
    cases stringValue label.key with
    | none => rfl
    | some key => cases doc.value floats depth <;> rfl
  | next label doc _ rest =>
    rw [entries, pairs, mapM_cons_eq_bind, entryValue, rest.entries_eq]
    cases stringValue label.key with
    | none => rfl
    | some key => cases doc.value floats depth <;> rfl

theorem objectOf_value (docs : List (List Piece × Doc)) : (objectOf docs).value floats depth =
      if depth ≤ 1 then none
      else (docs.mapM (entryValue floats (depth - 1))).map fun entries =>
        .object (insertAll [] entries) := by
  cases docs with
  | nil => rfl
  | cons doc rest =>
    have hPairs := membersOf_pairs (doc :: rest)
    rw [membersOf, elim_some] at hPairs
    rw [objectOf, membersOf, elim_some, Doc.value, Members.entries_eq, hPairs]

end Reading

section Depth

variable {floats : Floats}

end Depth

end Json
