import Mathlib.Data.List.Basic

/-! Readers of byte strings. A reader takes bytes from the front of what is
left, or fails. Three properties carry every argument about a format: what a
reader makes of the bytes that were written for it, that more bytes behind
those it has read do not change its result, and that a reader with tighter
checks only ever fails more often. -/
namespace Codec

open List

structure Cursor where
  pos : Nat
  rest : List UInt8

abbrev Reader (ε α : Type) := StateT Cursor (Except ε) α

def ensure {ε : Type} (enough : Nat → Bool) (error : Nat → ε) : Reader ε Unit := fun cursor =>
  if enough cursor.rest.length then .ok ((), cursor) else .error (error cursor.rest.length)

def readMany {ε α : Type} (r : Reader ε α) : Nat → Reader ε (List α)
  | 0 => pure []
  | n + 1 => do
      let first ← r
      let others ← readMany r n
      pure (first :: others)

section Properties
variable {ε α β : Type} {cursor next : Cursor}

theorem run_bind_of_ok {x : Reader ε α} {f : α → Reader ε β} {a : α}
    (hX : x.run cursor = .ok (a, next)) : (x >>= f).run cursor = (f a).run next := by
  rw [StateT.run_bind, hX]
  rfl

theorem run_bind_eq_ok {x : Reader ε α} {f : α → Reader ε β} {b : β} :
    (x >>= f).run cursor = .ok (b, next) ↔
      ∃ a middle, x.run cursor = .ok (a, middle) ∧ (f a).run middle = .ok (b, next) := by
  rw [StateT.run_bind]
  cases x.run cursor with
  | error e => exact ⟨nofun, nofun⟩
  | ok found =>
    constructor
    · intro hF
      exact ⟨found.1, found.2, rfl, hF⟩
    · rintro ⟨a, middle, hX, hF⟩
      cases hX
      exact hF

variable {enough : Nat → Bool} {error : Nat → ε}

theorem ensure_eq_ok {u : Unit} :
    (ensure enough error).run cursor = .ok (u, next) ↔
      enough cursor.rest.length = true ∧ cursor = next := by
  change (if enough cursor.rest.length = true then _ else _) = _ ↔ _
  split_ifs with hEnough
  · rw [Except.ok.injEq, Prod.mk.injEq]
    exact ⟨fun hNext => ⟨hEnough, hNext.2⟩, fun hNext => ⟨rfl, hNext.2⟩⟩
  · exact ⟨nofun, fun hNext => absurd hNext.1 hEnough⟩

/-- The reader makes the value of these bytes and leaves what follows them.
Positions stay below the limit. -/
def Reads (limit : Nat) (r : Reader ε α) (bytes : List UInt8) (a : α) : Prop :=
  ∀ pos tail, pos + bytes.length < limit →
    r.run ⟨pos, bytes ++ tail⟩ = .ok (a, ⟨pos + bytes.length, tail⟩)

/-- More bytes at the end are left over and change nothing else. -/
def Stable (r : Reader ε α) : Prop :=
  ∀ cursor next a, r.run cursor = .ok (a, next) →
    ∀ tail, r.run ⟨cursor.pos, cursor.rest ++ tail⟩ = .ok (a, ⟨next.pos, next.rest ++ tail⟩)

/-- What the first reader accepts, the second one reads in the same way. -/
def Restricts (r s : Reader ε α) : Prop :=
  ∀ cursor next a, r.run cursor = .ok (a, next) → s.run cursor = .ok (a, next)

/-! ### Values and their bytes -/

section Reads
variable {limit : Nat} {x : Reader ε α} {f : α → Reader ε β} {bytes rest : List UInt8} {a : α}
  {b : β}

theorem reads_pure (limit : Nat) (a : α) : Reads limit (pure a : Reader ε α) [] a :=
  fun _ _ _ => rfl

theorem Reads.bind (hX : Reads limit x bytes a) (hF : Reads limit (f a) rest b) :
    Reads limit (x >>= f) (bytes ++ rest) b := by
  intro pos tail hLimit
  rw [length_append] at hLimit
  rw [append_assoc, run_bind_of_ok (hX pos _ (by omega)), hF _ _ (by omega), length_append,
    Nat.add_assoc]

/-- A step behind which nothing is read any more. -/
theorem Reads.bind_nil (hX : Reads limit x bytes a) (hF : Reads limit (f a) [] b) :
    Reads limit (x >>= f) bytes b := by
  have hBoth := hX.bind hF
  rwa [append_nil] at hBoth

/-- The bytes themselves may be taken to fit below the limit. -/
theorem Reads.of_fits (h : bytes.length < limit → Reads limit x bytes a) : Reads limit x bytes a :=
  fun pos tail hLimit => h (by omega) pos tail hLimit

/-- A check passes when the bytes that are read behind it are enough. -/
theorem Reads.ensure {r : Unit → Reader ε α}
    (hMore : ∀ m n, m ≤ n → enough m = true → enough n = true)
    (hEnough : enough bytes.length = true) (hR : Reads limit (r ()) bytes a) :
    Reads limit (ensure enough error >>= r) bytes a := by
  intro pos tail hLimit
  have hAhead : enough (bytes ++ tail).length = true :=
    hMore _ _ (by rw [length_append]; omega) hEnough
  rw [run_bind_of_ok (ensure_eq_ok.mpr ⟨hAhead, rfl⟩)]
  exact hR pos tail hLimit

theorem reads_readMany {r : Reader ε α} {write : β → List UInt8} {value : β → α}
    {items : List β} (hItem : ∀ item ∈ items, Reads limit r (write item) (value item)) :
    Reads limit (readMany r items.length) (items.flatMap write) (items.map value) := by
  induction items with
  | nil => exact reads_pure limit []
  | cons item items ih =>
    have hRest := ih fun other hMem => hItem other (mem_cons_of_mem _ hMem)
    exact (hItem item (mem_cons_self ..)).bind (hRest.bind_nil (reads_pure limit _))

theorem mul_le_length_flatMap {write : β → List UInt8} {size : Nat}
    (hSize : ∀ item, size ≤ (write item).length) (items : List β) :
    items.length * size ≤ (items.flatMap write).length := by
  induction items with
  | nil => exact Nat.le_of_eq (Nat.zero_mul size)
  | cons item items ih =>
    have hFirst := hSize item
    rw [flatMap_cons, length_append, length_cons, Nat.succ_mul]
    omega

end Reads

/-! ### Bytes behind those that were read -/

section Stable
variable {x r s : Reader ε α} {f g : α → Reader ε β}

theorem stable_pure (a : α) : Stable (pure a : Reader ε α) := by
  intro cursor next b hRun tail
  cases hRun
  rfl

theorem stable_lift (result : Except ε α) : Stable (StateT.lift result) := by
  intro cursor next b hRun tail
  cases result with
  | error e => cases hRun
  | ok a =>
    cases hRun
    rfl

theorem Stable.bind (hX : Stable x) (hF : ∀ a, Stable (f a)) : Stable (x >>= f) := by
  intro cursor next b hRun tail
  obtain ⟨a, middle, hFirst, hSecond⟩ := run_bind_eq_ok.mp hRun
  exact run_bind_eq_ok.mpr ⟨a, _, hX _ _ _ hFirst tail, hF a _ _ _ hSecond tail⟩

theorem stable_ensure (hMore : ∀ m n, m ≤ n → enough m = true → enough n = true) :
    Stable (ensure enough error) := by
  intro cursor next b hRun tail
  obtain ⟨hEnough, rfl⟩ := ensure_eq_ok.mp hRun
  exact ensure_eq_ok.mpr ⟨hMore _ _ (by rw [length_append]; omega) hEnough, rfl⟩

theorem stable_readMany (hR : Stable r) (n : Nat) : Stable (readMany r n) := by
  induction n with
  | zero => exact stable_pure []
  | succ n ih => exact hR.bind fun _ => ih.bind fun _ => stable_pure _

/-! ### Tighter checks -/

theorem Restricts.refl (r : Reader ε α) : Restricts r r := fun _ _ _ => id

theorem Restricts.bind (hR : Restricts r s) (hF : ∀ a, Restricts (f a) (g a)) :
    Restricts (r >>= f) (s >>= g) := by
  intro cursor next b hRun
  obtain ⟨a, middle, hFirst, hSecond⟩ := run_bind_eq_ok.mp hRun
  exact run_bind_eq_ok.mpr ⟨a, middle, hR _ _ _ hFirst, hF a _ _ _ hSecond⟩

theorem restricts_ensure {enough enough' : Nat → Bool} {error error' : Nat → ε}
    (hEnough : ∀ n, enough n = true → enough' n = true) :
    Restricts (ensure enough error) (ensure enough' error') := by
  intro cursor next a hRun
  obtain ⟨hFirst, hSame⟩ := ensure_eq_ok.mp hRun
  exact ensure_eq_ok.mpr ⟨hEnough _ hFirst, hSame⟩

theorem restricts_ensure_pure (enough : Nat → Bool) (error : Nat → ε) :
    Restricts (ensure enough error) (pure ()) := by
  intro cursor next a hRun
  obtain ⟨-, rfl⟩ := ensure_eq_ok.mp hRun
  rfl

theorem restricts_readMany (hR : Restricts r s) (n : Nat) :
    Restricts (readMany r n) (readMany s n) := by
  induction n with
  | zero => exact .refl _
  | succ n ih => exact hR.bind fun _ => ih.bind fun _ => .refl _

end Stable

/-- A reader that is stable finishes neither early nor late: of all bytes that
begin with what it reads, or that it begins with, only those themselves are
read to their end. -/
theorem Reads.eq_of_exhausted {limit : Nat} {r : Reader ε α} {bytes other : List UInt8} {a b : α}
    {last : Nat} (hReads : Reads limit r bytes a) (hFits : bytes.length < limit)
    (hStable : Stable r) (hOther : r.run ⟨0, other⟩ = .ok (b, ⟨last, []⟩))
    (hPre : other <+: bytes ∨ bytes <+: other) : other = bytes ∧ b = a := by
  rcases hPre with ⟨tail, rfl⟩ | ⟨tail, rfl⟩
  · have hRead := hReads 0 [] (by omega)
    rw [append_nil, hStable _ _ _ hOther tail] at hRead
    cases tail with
    | nil =>
      cases hRead
      exact ⟨(append_nil _).symm, rfl⟩
    | cons => cases hRead
  · have hRead := hReads 0 tail (by omega)
    rw [hOther] at hRead
    cases hRead
    exact ⟨append_nil _, rfl⟩

end Properties

end Codec
