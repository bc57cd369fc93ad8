import Overtos.Lib.CString

/-! The byte encodings of the MQTT client: the Remaining Length digits and 16-bit prefixes. -/
namespace Overtos.Mqtt
open CStr (Bytes)

def encodeRemainingLength (len : ℕ) : Bytes :=
  let byte := UInt8.ofNat (len % 128)
  if 0 < len / 128 then (byte ||| 0x80) :: encodeRemainingLength (len / 128) else [byte]
termination_by len

def remainingLengthBytes (len : ℕ) : ℕ :=
  if 128 ≤ len then remainingLengthBytes (len / 128) + 1 else 1
termination_by len

def decodeLoop : ℕ → ℕ → ℕ → ℕ → Bytes → ℕ × ℕ
  | 0, _, _, value, _ => (0, value)
  | _ + 1, _, _, value, [] => (0, value)
  | k + 1, i, multiplier, value, b :: bs =>
    let value := value + (b &&& 0x7F).toNat * multiplier
    if b &&& 0x80 = 0 then (i + 1, value) else decodeLoop k (i + 1) (multiplier * 128) value bs

def decodeRemainingLength (buf : Bytes) : ℕ × ℕ := decodeLoop 4 0 1 0 buf

def putU16 (val : UInt16) : Bytes := [(val >>> 8).toUInt8, (val &&& 0xFF).toUInt8]

def getU16 (b₀ b₁ : UInt8) : UInt16 := (b₀.toUInt16 <<< 8) ||| b₁.toUInt16

theorem length_encodeRemainingLength (n : ℕ) :
    (encodeRemainingLength n).length = remainingLengthBytes n := by
  induction n using Nat.strongRecOn with
  | ind n ih =>
    rw [encodeRemainingLength, remainingLengthBytes]
    by_cases h : 128 ≤ n
    · rw [if_pos (by omega), if_pos h, List.length_cons, ih (n / 128) (by omega)]
    · rw [if_neg (by omega), if_neg h, List.length_singleton]

theorem remainingLengthBytes_pos (n : ℕ) : 0 < remainingLengthBytes n := by
  rw [remainingLengthBytes]
  split_ifs <;> omega

theorem remainingLengthBytes_le_iff (k n : ℕ) :
    remainingLengthBytes n ≤ k + 1 ↔ n < 128 ^ (k + 1) := by
  induction k generalizing n with
  | zero =>
    have hp := remainingLengthBytes_pos (n / 128)
    rw [remainingLengthBytes]
    split_ifs <;> omega
  | succ k ih =>
    have hi := ih (n / 128)
    rw [Nat.div_lt_iff_lt_mul (by decide), ← pow_succ] at hi
    rw [remainingLengthBytes]
    split_ifs with h
    · omega
    · have hk : 128 ≤ 128 ^ (k + 1 + 1) := Nat.le_self_pow (by omega) 128
      omega

theorem digit_more {d : ℕ} (h : d < 128) :
    ((UInt8.ofNat d ||| 0x80) &&& 0x7F).toNat = d ∧ (UInt8.ofNat d ||| 0x80) &&& 0x80 ≠ 0 := by
  have hall : ∀ d : Fin 128, ((UInt8.ofNat d.val ||| 0x80) &&& 0x7F).toNat = d.val ∧
      (UInt8.ofNat d.val ||| 0x80) &&& 0x80 ≠ 0 := by decide +kernel
  exact hall ⟨d, h⟩

theorem digit_last {d : ℕ} (h : d < 128) :
    (UInt8.ofNat d &&& 0x7F).toNat = d ∧ UInt8.ofNat d &&& 0x80 = 0 := by
  have hall : ∀ d : Fin 128, (UInt8.ofNat d.val &&& 0x7F).toNat = d.val ∧
      UInt8.ofNat d.val &&& 0x80 = 0 := by decide +kernel
  exact hall ⟨d, h⟩

theorem decodeLoop_encode (k i mult value n : ℕ) (rest : Bytes)
    (h : remainingLengthBytes n ≤ k) :
    decodeLoop k i mult value (encodeRemainingLength n ++ rest) =
      (i + remainingLengthBytes n, value + n * mult) := by
  induction k generalizing i mult value n with
  | zero => exact absurd (remainingLengthBytes_pos n) (by omega)
  | succ k ih =>
    have hd := digit_more (Nat.mod_lt n (by decide : 128 > 0))
    have hl := digit_last (Nat.mod_lt n (by decide : 128 > 0))
    rw [remainingLengthBytes] at h ⊢
    rw [encodeRemainingLength]
    by_cases hn : 128 ≤ n
    · rw [if_pos hn] at h ⊢
      rw [if_pos (by omega), List.cons_append, decodeLoop]
      rw [if_neg hd.2, hd.1, ih _ _ _ _ (by omega)]
      have hsplit : n % 128 * mult + n / 128 * (mult * 128) = n * mult := by
        calc n % 128 * mult + n / 128 * (mult * 128) = (n % 128 + 128 * (n / 128)) * mult := by ring
          _ = n * mult := by rw [Nat.mod_add_div]
      exact Prod.ext (by dsimp only; omega) (by dsimp only; omega)
    · rw [if_neg hn, if_neg (by omega), List.cons_append, decodeLoop]
      rw [if_pos hl.2, hl.1, Nat.mod_eq_of_lt (by omega)]

theorem decodeLoop_encode_long (k i mult value n : ℕ) (rest : Bytes)
    (h : k < remainingLengthBytes n) :
    (decodeLoop k i mult value (encodeRemainingLength n ++ rest)).1 = 0 := by
  induction k generalizing i mult value n with
  | zero => rw [decodeLoop]
  | succ k ih =>
    have hd := digit_more (Nat.mod_lt n (by decide : 128 > 0))
    rw [remainingLengthBytes] at h
    have hn : 128 ≤ n := by
      by_contra hn
      rw [if_neg hn] at h
      omega
    rw [if_pos hn] at h
    rw [encodeRemainingLength, if_pos (by omega), List.cons_append, decodeLoop]
    rw [if_neg hd.2]
    exact ih _ _ _ _ (by omega)

theorem decodeRemainingLength_encode {n : ℕ} (h : n < 128 ^ 4) (rest : Bytes) :
    decodeRemainingLength (encodeRemainingLength n ++ rest) = (remainingLengthBytes n, n) := by
  have hk := (remainingLengthBytes_le_iff 3 n).mpr h
  rw [decodeRemainingLength, decodeLoop_encode 4 0 1 0 n rest hk]
  simp

theorem getU16_putU16 (v : UInt16) : getU16 (v >>> 8).toUInt8 (v &&& 0xFF).toUInt8 = v := by
  apply UInt16.toNat_inj.mp
  simp only [getU16, UInt16.toNat_or, UInt16.toNat_shiftLeft, UInt8.toNat_toUInt16,
    UInt16.toNat_toUInt8, UInt16.toNat_shiftRight, UInt16.toNat_and]
  have hv := v.toNat_lt
  have hlo : v.toNat &&& 255 = v.toNat % 256 := Nat.and_two_pow_sub_one_eq_mod v.toNat 8
  change (v.toNat >>> 8 % 256) <<< 8 % 65536 ||| (v.toNat &&& 255) % 256 = v.toNat
  rw [hlo, Nat.shiftRight_eq_div_pow, Nat.shiftLeft_eq,
    Nat.mod_eq_of_lt (by omega : v.toNat / 2 ^ 8 % 256 * 2 ^ 8 < 65536), Nat.mod_mod,
    ← Nat.shiftLeft_eq,
    ← Nat.shiftLeft_add_eq_or_of_lt (by omega : v.toNat % 256 < 2 ^ 8), Nat.shiftLeft_eq]
  omega

end Overtos.Mqtt
