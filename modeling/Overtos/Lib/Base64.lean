import Mathlib.Tactic

/-! The base 64 encoding of RFC 4648, and a decoder that takes nothing else. -/
namespace Base64
open List Option

def pad : UInt8 := 61

def char (v : ℕ) : UInt8 :=
  if v < 26 then .ofNat (65 + v)
  else if v < 52 then .ofNat (97 + (v - 26))
  else if v < 62 then .ofNat (48 + (v - 52))
  else if v = 62 then 43
  else 47

def sextet (c : UInt8) : Option ℕ :=
  if 65 ≤ c.toNat ∧ c.toNat ≤ 90 then some (c.toNat - 65)
  else if 97 ≤ c.toNat ∧ c.toNat ≤ 122 then some (c.toNat - 97 + 26)
  else if 48 ≤ c.toNat ∧ c.toNat ≤ 57 then some (c.toNat - 48 + 52)
  else if c = 43 then some 62
  else if c = 47 then some 63
  else none

theorem sextet_char {v : ℕ} (h : v < 64) : sextet (char v) = some v := by
  revert v
  decide +kernel

theorem char_ne_pad {v : ℕ} (h : v < 64) : char v ≠ pad := by
  revert v
  decide +kernel

def encode : List UInt8 → List UInt8
  | [] => []
  | [a] => [char (a.toNat / 4), char (a.toNat % 4 * 16), pad, pad]
  | [a, b] => [char (a.toNat / 4), char (a.toNat % 4 * 16 + b.toNat / 16),
      char (b.toNat % 16 * 4), pad]
  | a :: b :: c :: rest => char (a.toNat / 4) :: char (a.toNat % 4 * 16 + b.toNat / 16) ::
      char (b.toNat % 16 * 4 + c.toNat / 64) :: char (c.toNat % 64) :: encode rest

def decode : List UInt8 → Option (List UInt8)
  | [] => some []
  | p :: q :: r :: s :: rest => do
    let w ← sextet p
    let x ← sextet q
    if s = pad then
      if rest ≠ [] then none
      else if r = pad then if x % 16 = 0 then some [.ofNat (w * 4 + x / 16)] else none
      else do
        let y ← sextet r
        if y % 4 = 0 then some [.ofNat (w * 4 + x / 16), .ofNat (x % 16 * 16 + y / 4)] else none
    else do
      let y ← sextet r
      let z ← sextet s
      let bytes ← decode rest
      return .ofNat (w * 4 + x / 16) :: .ofNat (x % 16 * 16 + y / 4) :: .ofNat (y % 4 * 64 + z) ::
        bytes
  | _ => none

theorem length_encode (bs : List UInt8) : (encode bs).length = 4 * ((bs.length + 2) / 3) := by
  fun_induction encode bs with
  | case1 => rfl
  | case2 a => simp
  | case3 a b => simp
  | case4 a b c rest ih =>
    simp only [length_cons, ih]
    omega

theorem encode_eq (bs : List UInt8) : ∃ body,
    encode bs = body ++ replicate ((3 - bs.length % 3) % 3) pad ∧
      ∀ c ∈ body, ∃ v < 64, c = char v := by
  fun_induction encode bs with
  | case1 => exact ⟨[], rfl, by simp⟩
  | case2 a =>
    have ha := a.toNat_lt
    refine ⟨[char (a.toNat / 4), char (a.toNat % 4 * 16)], rfl, ?_⟩
    simp only [forall_mem_cons, not_mem_nil, false_implies, implies_true, and_true]
    exact ⟨⟨_, by omega, rfl⟩, ⟨_, by omega, rfl⟩⟩
  | case3 a b =>
    have ha := a.toNat_lt
    have hb := b.toNat_lt
    refine ⟨[char (a.toNat / 4), char (a.toNat % 4 * 16 + b.toNat / 16),
      char (b.toNat % 16 * 4)], rfl, ?_⟩
    simp only [forall_mem_cons, not_mem_nil, false_implies, implies_true, and_true]
    exact ⟨⟨_, by omega, rfl⟩, ⟨_, by omega, rfl⟩, ⟨_, by omega, rfl⟩⟩
  | case4 a b c rest ih =>
    have ha := a.toNat_lt
    have hb := b.toNat_lt
    have hc := c.toNat_lt
    obtain ⟨body, hbody, hchars⟩ := ih
    refine ⟨char (a.toNat / 4) :: char (a.toNat % 4 * 16 + b.toNat / 16) ::
      char (b.toNat % 16 * 4 + c.toNat / 64) :: char (c.toNat % 64) :: body, ?_, ?_⟩
    · have hmod : (a :: b :: c :: rest).length % 3 = rest.length % 3 := by
        simp only [length_cons]
        omega
      rw [hbody, hmod]
      rfl
    · simp only [forall_mem_cons]
      exact ⟨⟨_, by omega, rfl⟩, ⟨_, by omega, rfl⟩, ⟨_, by omega, rfl⟩, ⟨_, by omega, rfl⟩, hchars⟩

section

variable {w x y z : ℕ}

theorem decode_one (hw : w < 64) (hx : x < 64) (hzero : x % 16 = 0) :
    decode [char w, char x, pad, pad] = some [.ofNat (w * 4 + x / 16)] := by
  rw [decode, sextet_char hw, sextet_char hx]
  simp only [bind_eq_bind, bind_some, if_pos, ne_eq, not_true_eq_false, if_false, hzero]

theorem decode_two (hw : w < 64) (hx : x < 64) (hy : y < 64) (hzero : y % 4 = 0) :
    decode [char w, char x, char y, pad] =
      some [.ofNat (w * 4 + x / 16), .ofNat (x % 16 * 16 + y / 4)] := by
  rw [decode, sextet_char hw, sextet_char hx, sextet_char hy]
  simp only [bind_eq_bind, bind_some, if_pos, ne_eq, not_true_eq_false, if_false,
    char_ne_pad hy, hzero]

theorem decode_three (hw : w < 64) (hx : x < 64) (hy : y < 64) (hz : z < 64) (rest : List UInt8) :
    decode (char w :: char x :: char y :: char z :: rest) = (decode rest).map fun bytes =>
      .ofNat (w * 4 + x / 16) :: .ofNat (x % 16 * 16 + y / 4) :: .ofNat (y % 4 * 64 + z) ::
        bytes := by
  rw [decode, sextet_char hw, sextet_char hx, sextet_char hy, sextet_char hz]
  simp only [bind_eq_bind, bind_some, if_neg (char_ne_pad hz), map_eq_bind]
  rfl

end

private theorem ofNat_eq_byte {a : UInt8} {n : ℕ} (h : n = a.toNat) : UInt8.ofNat n = a := by
  rw [h, UInt8.ofNat_toNat]

theorem decode_encode (bs : List UInt8) : decode (encode bs) = some bs := by
  fun_induction encode bs with
  | case1 => rfl
  | case2 a =>
    have ha := a.toNat_lt
    rw [decode_one (by omega) (by omega) (by omega), ofNat_eq_byte (a := a) (by omega)]
  | case3 a b =>
    have ha := a.toNat_lt
    have hb := b.toNat_lt
    rw [decode_two (by omega) (by omega) (by omega) (by omega), ofNat_eq_byte (a := a) (by omega),
      ofNat_eq_byte (a := b) (by omega)]
  | case4 a b c rest ih =>
    have ha := a.toNat_lt
    have hb := b.toNat_lt
    have hc := c.toNat_lt
    rw [decode_three (by omega) (by omega) (by omega) (by omega), ih, map_some,
      ofNat_eq_byte (a := a) (by omega), ofNat_eq_byte (a := b) (by omega),
      ofNat_eq_byte (a := c) (by omega)]

theorem encode_injective : Function.Injective encode := by
  intro bs bs' h
  have hdecode := decode_encode bs
  rw [h, decode_encode] at hdecode
  exact (some.inj hdecode).symm

end Base64
