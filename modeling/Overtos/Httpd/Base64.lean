import Overtos.Lib.Base64
import Overtos.Lib.Checked
import Overtos.Lib.CString
import Overtos.Lib.Word
import Overtos.Types

/-! `ove_base64_encode`, which the WebSocket handshake uses. -/
namespace Overtos.Httpd.B64
open CStr Checked List Option

def b64 : Bytes := ascii "ABCDEFGHIJKLMNOPQRSTUVWXYZabcdefghijklmnopqrstuvwxyz0123456789+/"

def b64At (v shift : UInt32) : Option UInt8 := b64[((v >>> shift) &&& 0x3F).toNat]?

def putChars (chars : List (Option UInt8)) (j : ℕ) (dst : Bytes) : Option (ℕ × Bytes) :=
  match chars with
  | [] => some (j, dst)
  | c :: rest => do
    let c ← c
    let dst ← Checked.put dst j [c]
    putChars rest (j + 1) dst

def encodeLoop (src : Bytes) (srcLen : ℕ) : ℕ → ℕ → ℕ → Bytes → Option (ℕ × ℕ × Bytes)
  | 0, i, j, dst => some (i, j, dst)
  | fuel + 1, i, j, dst =>
    if i + 2 < srcLen then do
      let a ← src[i]?
      let b ← src[i + 1]?
      let c ← src[i + 2]?
      let v := a.toUInt32 <<< 16 ||| b.toUInt32 <<< 8 ||| c.toUInt32
      let (j, dst) ← putChars [b64At v 18, b64At v 12, b64At v 6, b64At v 0] j dst
      encodeLoop src srcLen fuel (i + 3) j dst
    else some (i, j, dst)

def encodeRest (src : Bytes) (srcLen i j : ℕ) (dst : Bytes) : Option (ℕ × Bytes) :=
  if i < srcLen then do
    let a ← src[i]?
    let v := a.toUInt32 <<< 16
    if i + 1 < srcLen then do
      let b ← src[i + 1]?
      let v := v ||| b.toUInt32 <<< 8
      putChars [b64At v 18, b64At v 12, b64At v 6, some 61] j dst
    else putChars [b64At v 18, b64At v 12, some 61, some 61] j dst
  else some (j, dst)

def oveBase64Encode (arch : Arch) (src : Bytes) (srcLen : ℕ) (dst : Bytes) (dstLen : ℕ) :
    Option (ℤ × Bytes) :=
  let outLen := Word.wrap arch.bits (4 * (Word.wrap arch.bits (srcLen + 2) / 3))
  if dstLen < Word.wrap arch.bits (outLen + 1) then some (-1, dst) else do
  let (i, j, dst) ← encodeLoop src srcLen srcLen 0 0 dst
  let (j, dst) ← encodeRest src srcLen i j dst
  let dst ← Checked.put dst j [0]
  return ((BitVec.ofNat 32 j).toInt, dst)

theorem b64_getElem? {v : ℕ} (h : v < 64) : b64[v]? = some (Base64.char v) := by
  revert v
  decide +kernel

theorem b64At_eq {v shift : UInt32} {k s : ℕ} (hk : shift.toNat = k) (hlt : k < 32)
    (hs : v.toNat / 2 ^ k % 64 = s) : b64At v shift = some (Base64.char s) := by
  have hbits : ((v >>> shift) &&& 0x3F).toNat = s := by
    rw [UInt32.toNat_and, UInt32.toNat_shiftRight, hk, Nat.mod_eq_of_lt hlt,
      Nat.shiftRight_eq_div_pow, ← hs]
    exact Nat.and_two_pow_sub_one_eq_mod _ 6
  rw [b64At, hbits, b64_getElem? (hs ▸ Nat.mod_lt _ (by decide))]

theorem group_toNat (a b c : UInt8) :
    (a.toUInt32 <<< 16 ||| b.toUInt32 <<< 8 ||| c.toUInt32).toNat =
      a.toNat * 256 ^ 2 + b.toNat * 256 + c.toNat := by
  have h := Word.toNat_join_bytes 0 a b c
  simpa using h

theorem putChars_run (cs : List UInt8) {written free : Bytes} (h : cs.length ≤ free.length) :
    putChars (cs.map some) written.length (written ++ free) =
      some ((written ++ cs).length, written ++ cs ++ free.drop cs.length) := by
  induction cs generalizing written free with
  | nil => simp [putChars]
  | cons c cs ih =>
    rw [length_cons] at h
    have hput : Checked.put (written ++ free) written.length [c] = _ :=
      Checked.put_append rfl (by rw [length_singleton]; omega)
    have hrest := @ih (written ++ [c]) (free.drop 1) (by rw [length_drop]; omega)
    rw [drop_drop, append_assoc written [c] cs, Nat.add_comm 1] at hrest
    rw [map_cons, putChars, bind_eq_bind, bind_some, hput, bind_eq_bind, bind_some]
    simpa using hrest

section

variable {src written free : Bytes} {i : ℕ}

theorem b64At_group (a b c : UInt8) {v : UInt32}
    (hv : v.toNat = a.toNat * 256 ^ 2 + b.toNat * 256 + c.toNat) :
    b64At v 18 = some (Base64.char (a.toNat / 4)) ∧
      b64At v 12 = some (Base64.char (a.toNat % 4 * 16 + b.toNat / 16)) ∧
      b64At v 6 = some (Base64.char (b.toNat % 16 * 4 + c.toNat / 64)) ∧
      b64At v 0 = some (Base64.char (c.toNat % 64)) := by
  have ha := a.toNat_lt
  have hb := b.toNat_lt
  have hc := c.toNat_lt
  refine ⟨b64At_eq (k := 18) rfl (by decide) ?_, b64At_eq (k := 12) rfl (by decide) ?_,
    b64At_eq (k := 6) rfl (by decide) ?_, b64At_eq (k := 0) rfl (by decide) ?_⟩
  all_goals
    rw [hv]
    omega

theorem encodeLoop_run {fuel : ℕ} (hfuel : src.length ≤ i + fuel) (hi : i ≤ src.length)
    (hroom : (Base64.encode (src.drop i)).length ≤ free.length) :
    ∃ i' chars, encodeLoop src src.length fuel i written.length (written ++ free) =
        some (i', (written ++ chars).length, written ++ chars ++ free.drop chars.length) ∧
      i' ≤ src.length ∧ src.length ≤ i' + 2 ∧
      Base64.encode (src.drop i) = chars ++ Base64.encode (src.drop i') := by
  induction fuel generalizing i written free with
  | zero => exact ⟨i, [], by simp [encodeLoop], hi, by omega, rfl⟩
  | succ fuel ih =>
    rw [encodeLoop]
    split_ifs with hgroup
    · obtain ⟨a, b, c, ha, hb, hc, hdrop⟩ : ∃ a b c, src[i]? = some a ∧ src[i + 1]? = some b ∧
          src[i + 2]? = some c ∧ src.drop i = a :: b :: c :: src.drop (i + 3) :=
        ⟨src[i], src[i + 1], src[i + 2], by simp, by simp, by simp, by simp⟩
      obtain ⟨h18, h12, h6, h0⟩ := b64At_group a b c (group_toNat a b c)
      obtain ⟨four, hfour⟩ : ∃ four, four = [Base64.char (a.toNat / 4),
        Base64.char (a.toNat % 4 * 16 + b.toNat / 16),
        Base64.char (b.toNat % 16 * 4 + c.toNat / 64), Base64.char (c.toNat % 64)] := ⟨_, rfl⟩
      have hlength : four.length = 4 := by rw [hfour]; rfl
      have hencode : Base64.encode (src.drop i) = four ++ Base64.encode (src.drop (i + 3)) := by
        rw [hdrop, hfour, Base64.encode]
        rfl
      rw [hencode, length_append, hlength] at hroom
      have hput := @putChars_run four written free (by omega)
      have hmap : [some (Base64.char (a.toNat / 4)),
          some (Base64.char (a.toNat % 4 * 16 + b.toNat / 16)),
          some (Base64.char (b.toNat % 16 * 4 + c.toNat / 64)),
          some (Base64.char (c.toNat % 64))] = four.map some := by
        rw [hfour]
        rfl
      obtain ⟨i', chars, hloop, hi', hend, hchars⟩ := @ih (written ++ four)
        (free.drop four.length) (i + 3) (by omega) (by omega) (by rw [length_drop]; omega)
      rw [drop_drop, append_assoc written four chars, ← length_append] at hloop
      rw [ha, hb, hc]
      simp only [bind_eq_bind, bind_some, h18, h12, h6, h0, hmap, hput]
      exact ⟨i', four ++ chars, hloop, hi', hend, by rw [hencode, hchars, append_assoc]⟩
    · exact ⟨i, [], by simp, hi, by omega, rfl⟩

theorem encodeRest_run (hi : i ≤ src.length) (hend : src.length ≤ i + 2)
    (hroom : (Base64.encode (src.drop i)).length ≤ free.length) :
    encodeRest src src.length i written.length (written ++ free) =
      some ((written ++ Base64.encode (src.drop i)).length, written ++ Base64.encode (src.drop i) ++
        free.drop (Base64.encode (src.drop i)).length) := by
  rw [encodeRest]
  by_cases hrest : i < src.length
  · rw [if_pos hrest]
    by_cases htwo : i + 1 < src.length
    · obtain ⟨a, b, ha, hb, hdrop⟩ : ∃ a b, src[i]? = some a ∧ src[i + 1]? = some b ∧
          src.drop i = [a, b] := by
        refine ⟨src[i], src[i + 1], by simp, by simp, ?_⟩
        rw [drop_eq_getElem_cons hrest, drop_eq_getElem_cons htwo, drop_of_length_le hend]
      obtain ⟨h18, h12, h6, -⟩ := b64At_group a b 0
        (v := a.toUInt32 <<< 16 ||| b.toUInt32 <<< 8) (by simpa using group_toNat a b 0)
      rw [ha, hb]
      simp only [bind_eq_bind, bind_some, if_pos htwo, h18, h12, h6]
      rw [hdrop] at hroom ⊢
      exact putChars_run [_, _, _, _] hroom
    · obtain ⟨a, ha, hdrop⟩ : ∃ a, src[i]? = some a ∧ src.drop i = [a] := by
        refine ⟨src[i], by simp, ?_⟩
        rw [drop_eq_getElem_cons hrest, drop_of_length_le (by omega)]
      obtain ⟨h18, h12, -, -⟩ := b64At_group a 0 0 (v := a.toUInt32 <<< 16)
        (by simpa using group_toNat a 0 0)
      rw [ha]
      simp only [bind_eq_bind, bind_some, if_neg htwo, h18, h12]
      rw [hdrop] at hroom ⊢
      exact putChars_run [_, _, _, _] hroom
  · rw [if_neg hrest, drop_of_length_le (by omega), Base64.encode]
    simp

end

theorem wrap_outLen (arch : Arch) {n : ℕ} (h : n < 2 ^ 29) :
    Word.wrap arch.bits (Word.wrap arch.bits (4 * (Word.wrap arch.bits (n + 2) / 3)) + 1) =
      4 * ((n + 2) / 3) + 1 := by
  have hword := arch.two_pow_bits_ge
  have hsum : Word.wrap arch.bits (n + 2) = n + 2 := Word.wrap_of_lt (by omega)
  have hprod : Word.wrap arch.bits (4 * ((n + 2) / 3)) = 4 * ((n + 2) / 3) :=
    Word.wrap_of_lt (by omega)
  rw [hsum, hprod]
  exact Word.wrap_of_lt (by omega)

theorem oveBase64Encode_run (arch : Arch) {src dst : Bytes} (hsrc : src.length < 2 ^ 29)
    (hdst : 4 * ((src.length + 2) / 3) + 1 ≤ dst.length) :
    oveBase64Encode arch src src.length dst dst.length =
      some (((4 * ((src.length + 2) / 3) : ℕ) : ℤ),
        Base64.encode src ++ 0 :: dst.drop (4 * ((src.length + 2) / 3) + 1)) := by
  have hlength := Base64.length_encode src
  obtain ⟨i, chars, hloop, hi, hend, hchars⟩ := @encodeLoop_run src [] dst 0 src.length
    (by omega) (by omega) (by rw [drop_zero]; omega)
  rw [drop_zero] at hchars
  have hparts := congrArg length hchars
  rw [length_append] at hparts
  have hrest := @encodeRest_run src chars (dst.drop chars.length) i hi hend
    (by rw [length_drop]; omega)
  rw [← hchars, drop_drop, ← hparts] at hrest
  have hnul : Checked.put (Base64.encode src ++ dst.drop (Base64.encode src).length)
      (Base64.encode src).length [0] = _ :=
    Checked.put_append rfl (by rw [length_drop, length_singleton]; omega)
  have hint : (BitVec.ofNat 32 (4 * ((src.length + 2) / 3))).toInt =
      ((4 * ((src.length + 2) / 3) : ℕ) : ℤ) := by
    have hnat : (BitVec.ofNat 32 (4 * ((src.length + 2) / 3))).toNat =
        4 * ((src.length + 2) / 3) := by
      rw [BitVec.toNat_ofNat, Nat.mod_eq_of_lt (by omega)]
    rw [BitVec.toInt_eq_toNat_of_lt (by omega), hnat]
  rw [length_nil, nil_append, nil_append] at hloop
  rw [oveBase64Encode, wrap_outLen arch hsrc, if_neg (by omega), hloop]
  simp only [bind_eq_bind, bind_some, hrest, hnul]
  rw [hlength, hint, drop_drop, append_assoc]
  rfl

/-- A destination that is too short is refused and left as it was; otherwise it gets the characters,
from which a decoder gets the source back. -/
theorem oveBase64Encode_spec (arch : Arch) (src dst : Bytes) (hsrc : src.length < 2 ^ 29) :
    (oveBase64Encode arch src src.length dst dst.length = some (-1, dst) ↔
      dst.length < 4 * ((src.length + 2) / 3) + 1) ∧
    (4 * ((src.length + 2) / 3) + 1 ≤ dst.length →
      oveBase64Encode arch src src.length dst dst.length =
        some (((4 * ((src.length + 2) / 3) : ℕ) : ℤ),
          Base64.encode src ++ 0 :: dst.drop (4 * ((src.length + 2) / 3) + 1)) ∧
      (Base64.encode src).length = 4 * ((src.length + 2) / 3) ∧
      (∃ body, Base64.encode src = body ++
          replicate ((3 - src.length % 3) % 3) Base64.pad ∧
        ∀ c ∈ body, ∃ v < 64, c = Base64.char v) ∧
      Base64.decode (Base64.encode src) = some src ∧
      ∀ other, Base64.encode other = Base64.encode src → other = src) := by
  refine ⟨?_, fun hroom => ⟨oveBase64Encode_run arch hsrc hroom, Base64.length_encode src,
    Base64.encode_eq src, Base64.decode_encode src, fun _ h => Base64.encode_injective h⟩⟩
  constructor
  · intro hresult
    by_contra hroom
    rw [oveBase64Encode_run arch hsrc (Nat.not_lt.mp hroom)] at hresult
    have hneg := (Prod.mk.inj (some.inj hresult)).1
    omega
  · intro hroom
    rw [oveBase64Encode, wrap_outLen arch hsrc, if_pos hroom]

theorem oveBase64Encode_two :
    oveBase64Encode .arm32 [0xff, 0xfe] 2 [7, 7, 7, 7, 7, 7] 6 = some (4, ascii "//4=" ++ [0, 7]) :=
  ((oveBase64Encode_spec .arm32 [0xff, 0xfe] [7, 7, 7, 7, 7, 7] (by decide)).2
    (by decide)).1.trans (by decide +kernel)

end Overtos.Httpd.B64
