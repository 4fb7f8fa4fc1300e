import MqBridge.Codec.Number

/-! Writers whose bytes can be split off the front of any longer byte string.
A writer with that property on the values it is used for makes the bytes of
several fields unambiguous. -/
namespace Codec

open List

variable {A : Type}

/-- Whatever follows, the bytes tell the value and where they end. -/
def Splits (domain : A → Prop) (write : A → List UInt8) : Prop :=
  ∀ a b s t, domain a → domain b → write a ++ s = write b ++ t → a = b ∧ s = t

/-- Big-endian numbers of a fixed width; what does not fit is cut off. -/
def beBytes (width value : Nat) : List UInt8 := (leBytes width value).reverse

@[simp] theorem length_beBytes (width value : Nat) : (beBytes width value).length = width := by
  rw [beBytes, length_reverse, length_leBytes]

theorem splits_beBytes (width : Nat) : Splits (· < 256 ^ width) (beBytes width) := by
  intro a b s t hA hB hSame
  obtain ⟨hBytes, hRest⟩ := append_inj hSame (by rw [length_beBytes, length_beBytes])
  have hVal := congrArg ofLeBytes (reverse_inj.mp hBytes)
  rw [ofLeBytes_leBytes, ofLeBytes_leBytes, Nat.mod_eq_of_lt hA, Nat.mod_eq_of_lt hB] at hVal
  exact ⟨hVal, hRest⟩

def framed (width : Nat) (bytes : List UInt8) : List UInt8 := beBytes width bytes.length ++ bytes

theorem splits_framed (width : Nat) : Splits (·.length < 256 ^ width) (framed width) := by
  intro a b s t hA hB hSame
  rw [framed, framed, append_assoc, append_assoc] at hSame
  obtain ⟨hLen, hRest⟩ := splits_beBytes width _ _ _ _ hA hB hSame
  exact append_inj hRest hLen

def optional (write : A → List UInt8) : Option A → List UInt8
  | some a => 1 :: write a
  | none => [0]

theorem Splits.optional {domain : A → Prop} {write : A → List UInt8} (h : Splits domain write) :
    Splits (fun a => ∀ value ∈ a, domain value) (Codec.optional write) := by
  intro a b s t hA hB hSame
  cases a with
  | none =>
    cases b with
    | none => exact ⟨rfl, (cons.inj hSame).2⟩
    | some b => cases (cons.inj hSame).1
  | some a =>
    cases b with
    | none => cases (cons.inj hSame).1
    | some b =>
      obtain ⟨rfl, hRest⟩ := h a b s t (hA a rfl) (hB b rfl) (cons.inj hSame).2
      exact ⟨rfl, hRest⟩

/-- Fields that are written one after another are told apart one by one. -/
theorem Splits.flatMap {K : Type} {domain : A → Prop} {write : A → List UInt8}
    (h : Splits domain write) {keys : List K} {tag : K → List UInt8} {f g : K → A}
    (hF : ∀ key ∈ keys, domain (f key)) (hG : ∀ key ∈ keys, domain (g key))
    (hSame : keys.flatMap (fun key => tag key ++ write (f key)) =
      keys.flatMap fun key => tag key ++ write (g key)) : ∀ key ∈ keys, f key = g key := by
  induction keys with
  | nil => exact nofun
  | cons first rest ih =>
    rw [flatMap_cons, flatMap_cons, append_assoc, append_assoc] at hSame
    obtain ⟨hFirst, hRest⟩ := h _ _ _ _ (hF first (mem_cons_self ..))
      (hG first (mem_cons_self ..)) (append_cancel_left hSame)
    have hLater := ih (fun key hMem => hF key (mem_cons_of_mem _ hMem))
      (fun key hMem => hG key (mem_cons_of_mem _ hMem)) hRest
    exact forall_mem_cons.mpr ⟨hFirst, hLater⟩

end Codec
