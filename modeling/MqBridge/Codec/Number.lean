import Mathlib.Algebra.GroupWithZero.Nat
import MqBridge.Codec.Reader

/-! Numbers in bytes: little-endian with a fixed width, and LEB128 with as many
bytes as the number needs, seven bits to the byte. -/
namespace Codec

def leBytes : Nat → Nat → List UInt8
  | 0, _ => []
  | width + 1, value => UInt8.ofNat value :: leBytes width (value / 256)

def ofLeBytes : List UInt8 → Nat
  | [] => 0
  | byte :: rest => byte.toNat + 256 * ofLeBytes rest

@[simp] theorem length_leBytes (width value : Nat) : (leBytes width value).length = width := by
  induction width generalizing value with
  | zero => rfl
  | succ width ih => rw [leBytes, List.length_cons, ih]

theorem ofLeBytes_leBytes (width value : Nat) :
    ofLeBytes (leBytes width value) = value % 256 ^ width := by
  induction width generalizing value with
  | zero => rw [leBytes, ofLeBytes, pow_zero, Nat.mod_one]
  | succ width ih =>
    have hByte : (UInt8.ofNat value).toNat = value % 256 := UInt8.toNat_ofNat'
    rw [leBytes, ofLeBytes, ih, hByte, pow_succ, mul_comm (256 ^ width), Nat.mod_mul]

/-- All bytes but the last have the top bit. Nine of them and the last one are
enough for 64 bits. -/
def putUvarintLoop : Nat → Nat → List UInt8
  | 0, value => [UInt8.ofNat value]
  | more + 1, value =>
    if 128 ≤ value then (UInt8.ofNat value ||| 0x80) :: putUvarintLoop more (value / 128)
    else [UInt8.ofNat value]

def putUvarint (value : Nat) : List UInt8 := putUvarintLoop 9 value

/-- The reader adds seven bits a byte; what does not fit 64 bits is cut off. -/
def getUvarintLoop {ε : Type} (truncated overlong : ε) :
    List UInt8 → Nat → Nat → Nat → Except ε (Nat × Cursor)
  | [], _, _, _ => .error truncated
  | byte :: rest, pos, value, shift =>
    let value := value ||| ((byte &&& 0x7f).toNat <<< shift) % 2 ^ 64
    if byte &&& 0x80 = 0 then .ok (value, ⟨pos + 1, rest⟩)
    else if 63 < shift + 7 then .error overlong
    else getUvarintLoop truncated overlong rest (pos + 1) value (shift + 7)

def getUvarint {ε : Type} (truncated overlong : ε) : Reader ε Nat := fun cursor =>
  getUvarintLoop truncated overlong cursor.rest cursor.pos 0 0

theorem one_le_length_putUvarint (value : Nat) : 1 ≤ (putUvarint value).length := by
  rw [putUvarint, putUvarintLoop]
  split_ifs
  · exact Nat.le_add_left 1 _
  · exact Nat.le_refl 1

/-- The seven low bits and the top bit of a byte. -/
theorem and_masks (byte : UInt8) :
    (byte &&& 0x7f).toNat = byte.toNat % 128 ∧ (byte &&& 0x80 = 0 ↔ byte.toNat < 128) := by
  have hBits : ∀ n : Fin 256, n.val &&& 127 = n.val % 128 ∧ (n.val &&& 128 = 0 ↔ n.val < 128) := by
    decide +kernel
  obtain ⟨hLow, hTop⟩ := hBits ⟨byte.toNat, byte.toNat_lt⟩
  refine ⟨?_, ?_⟩
  · exact hLow
  · rw [← UInt8.toNat_inj]
    exact hTop

theorem or_top (value : Nat) : (UInt8.ofNat value ||| 0x80).toNat = value % 128 + 128 := by
  have hBits : ∀ n : Fin 256, n.val ||| 128 = n.val % 128 + 128 := by decide +kernel
  have hByte := hBits ⟨value % 256, Nat.mod_lt _ (by omega)⟩
  refine .trans hByte ?_
  simp only
  omega

/-- One byte adds its seven bits above those already read. -/
theorem or_shift {value shift bits : Nat} (hVal : value < 2 ^ shift)
    (hFits : bits * 2 ^ shift < 2 ^ 64) :
    value ||| (bits <<< shift) % 2 ^ 64 = value + bits * 2 ^ shift := by
  rw [Nat.shiftLeft_eq, Nat.mod_eq_of_lt hFits, Nat.or_comm, mul_comm,
    ← Nat.two_pow_add_eq_or_of_lt hVal, add_comm]

section Uvarint
variable {ε : Type} {truncated overlong : ε}

theorem getUvarintLoop_last {value shift read : Nat} (hVal : value < 128)
    (hRead : read < 2 ^ shift) (hFits : value * 2 ^ shift < 2 ^ 64) (pos : Nat)
    (tail : List UInt8) :
    getUvarintLoop truncated overlong (UInt8.ofNat value :: tail) pos read shift =
      .ok (read + value * 2 ^ shift, ⟨pos + 1, tail⟩) := by
  obtain ⟨hLow, hTop⟩ := and_masks (.ofNat value)
  have hByte : (UInt8.ofNat value).toNat = value :=
    UInt8.toNat_ofNat_of_lt' (by change value < 256; omega)
  rw [hByte, Nat.mod_eq_of_lt hVal] at hLow
  rw [getUvarintLoop, hLow, or_shift hRead hFits, if_pos (hTop.mpr (by omega))]

/-- The loops in step: `more` bytes may follow, and those read so far make up
`read` below the shift. -/
theorem getUvarintLoop_put {more shift read value : Nat} (hShift : shift + 7 * more = 63)
    (hRead : read < 2 ^ shift) (hFits : value * 2 ^ shift < 2 ^ 64) (pos : Nat)
    (tail : List UInt8) :
    getUvarintLoop truncated overlong (putUvarintLoop more value ++ tail) pos read shift =
      .ok (read + value * 2 ^ shift, ⟨pos + (putUvarintLoop more value).length, tail⟩) := by
  induction more generalizing shift read value pos with
  | zero =>
    have hVal : value < 2 := by
      rw [show shift = 63 by omega] at hFits
      omega
    exact getUvarintLoop_last (by omega) hRead hFits pos tail
  | succ more ih =>
    rw [putUvarintLoop]
    split_ifs with hMore
    · obtain ⟨hLow, hTop⟩ := and_masks (.ofNat value ||| 0x80)
      rw [or_top] at hLow hTop
      have hNotLast : ¬(UInt8.ofNat value ||| 0x80) &&& 0x80 = 0 := fun hLast => by
        have hSmall := hTop.mp hLast
        omega
      have hPow : 2 ^ (shift + 7) = 128 * 2 ^ shift := by
        rw [Nat.pow_add, mul_comm]
      have hSplit : value * 2 ^ shift =
          value % 128 * 2 ^ shift + value / 128 * 2 ^ (shift + 7) := by
        rw [hPow, ← mul_assoc, ← Nat.add_mul, mul_comm (value / 128), Nat.mod_add_div]
      have hBits : value % 128 * 2 ^ shift ≤ 127 * 2 ^ shift :=
        Nat.mul_le_mul_right _ (by omega)
      rw [List.cons_append, getUvarintLoop, hLow, Nat.add_mod_right, Nat.mod_mod,
        or_shift hRead (by omega), if_neg hNotLast, if_neg (by omega),
        ih (by omega) (by omega) (by omega), hSplit, add_assoc, List.length_cons, add_assoc,
          add_comm 1]
    · exact getUvarintLoop_last (by omega) hRead hFits pos tail

theorem reads_getUvarint {limit value : Nat} (hVal : value < 2 ^ 64) :
    Reads limit (getUvarint truncated overlong) (putUvarint value) value := by
  intro pos tail _
  have hFits : value * 2 ^ 0 < 2 ^ 64 := by rwa [pow_zero, mul_one]
  have hLoop : getUvarintLoop truncated overlong (putUvarintLoop 9 value ++ tail) pos 0 0 = _ :=
    getUvarintLoop_put rfl Nat.zero_lt_one hFits pos tail
  rw [pow_zero, mul_one, zero_add] at hLoop
  exact hLoop

theorem stable_getUvarintLoop {rest : List UInt8} {pos value shift a : Nat} {next : Cursor}
    (hLoop : getUvarintLoop truncated overlong rest pos value shift = .ok (a, next))
    (tail : List UInt8) : getUvarintLoop truncated overlong (rest ++ tail) pos value shift =
      .ok (a, ⟨next.pos, next.rest ++ tail⟩) := by
  induction rest generalizing pos value shift with
  | nil => cases hLoop
  | cons byte rest ih =>
    rw [getUvarintLoop] at hLoop
    rw [List.cons_append, getUvarintLoop]
    split_ifs at hLoop ⊢ with hLast
    · cases hLoop
      rfl
    · exact ih hLoop

theorem stable_getUvarint : Stable (getUvarint truncated overlong) :=
  fun _ _ _ hRun tail => stable_getUvarintLoop hRun tail

end Uvarint

end Codec
