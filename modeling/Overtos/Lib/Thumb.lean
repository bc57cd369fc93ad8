import Overtos.Lib.Memory

/-! The 32-bit Thumb branches `BL` and `B.W`: the displacement in their two halfwords, and where
they lead. -/
namespace Thumb
open Memory

def branchImm (hw1 hw2 : ℕ) : ℤ :=
  let s := hw1 / 2 ^ 10 % 2
  let i1 := if hw2 / 2 ^ 13 % 2 = s then 1 else 0
  let i2 := if hw2 / 2 ^ 11 % 2 = s then 1 else 0
  2 ^ 23 * i1 + 2 ^ 22 * i2 + 2 ^ 12 * (hw1 % 2 ^ 10 : ℕ) + 2 * (hw2 % 2 ^ 11 : ℕ) - 2 ^ 24 * s

def Reach (d : ℤ) : Prop := -2 ^ 24 ≤ d ∧ d ≤ 2 ^ 24 - 2

instance (d : ℤ) : Decidable (Reach d) := inferInstanceAs (Decidable (_ ∧ _))

def SameOpcode (old new : ℕ × ℕ) : Prop :=
  new.1 / 2 ^ 11 = old.1 / 2 ^ 11 ∧ new.2 / 2 ^ 14 = old.2 / 2 ^ 14 ∧
    new.2 / 2 ^ 12 % 2 = old.2 / 2 ^ 12 % 2

def withImm (hw : ℕ × ℕ) (u : ℕ) : ℕ × ℕ :=
  let s := u / 2 ^ 24 % 2
  let j1 := if u / 2 ^ 23 % 2 = s then 1 else 0
  let j2 := if u / 2 ^ 22 % 2 = s then 1 else 0
  (hw.1 / 2 ^ 11 * 2 ^ 11 + (s * 2 ^ 10 + u / 2 ^ 12 % 2 ^ 10),
    hw.2 / 2 ^ 14 * 2 ^ 14 + (j1 * 2 ^ 13 + (hw.2 / 2 ^ 12 % 2 * 2 ^ 12 +
      (j2 * 2 ^ 11 + u / 2 % 2 ^ 11))))

theorem halfword_fields {a i b j y : ℕ} (hi : i < 2) (hb : b < 2) (hj : j < 2) (hy : y < 2 ^ 11) :
    (a * 2 ^ 14 + (i * 2 ^ 13 + (b * 2 ^ 12 + (j * 2 ^ 11 + y)))) / 2 ^ 14 = a ∧
    (a * 2 ^ 14 + (i * 2 ^ 13 + (b * 2 ^ 12 + (j * 2 ^ 11 + y)))) / 2 ^ 13 % 2 = i ∧
    (a * 2 ^ 14 + (i * 2 ^ 13 + (b * 2 ^ 12 + (j * 2 ^ 11 + y)))) / 2 ^ 12 % 2 = b ∧
    (a * 2 ^ 14 + (i * 2 ^ 13 + (b * 2 ^ 12 + (j * 2 ^ 11 + y)))) / 2 ^ 11 % 2 = j ∧
    (a * 2 ^ 14 + (i * 2 ^ 13 + (b * 2 ^ 12 + (j * 2 ^ 11 + y)))) % 2 ^ 11 = y := by
  omega

theorem bit_lt {c : Prop} [Decidable c] : (if c then 1 else 0) < 2 := by
  split_ifs <;> decide

theorem withImm_snd (hw : ℕ × ℕ) (u : ℕ) : (withImm hw u).2 / 2 ^ 14 = hw.2 / 2 ^ 14 ∧
    (withImm hw u).2 / 2 ^ 13 % 2 = (if u / 2 ^ 23 % 2 = u / 2 ^ 24 % 2 then 1 else 0) ∧
    (withImm hw u).2 / 2 ^ 12 % 2 = hw.2 / 2 ^ 12 % 2 ∧
    (withImm hw u).2 / 2 ^ 11 % 2 = (if u / 2 ^ 22 % 2 = u / 2 ^ 24 % 2 then 1 else 0) ∧
    (withImm hw u).2 % 2 ^ 11 = u / 2 % 2 ^ 11 :=
  halfword_fields bit_lt (Nat.mod_lt _ Nat.zero_lt_two) bit_lt (Nat.mod_lt _ (Nat.two_pow_pos _))

theorem withImm_sameOpcode (hw : ℕ × ℕ) (u : ℕ) : SameOpcode hw (withImm hw u) := by
  obtain ⟨hhigh, -, hbit, -, -⟩ := withImm_snd hw u
  refine ⟨?_, hhigh, hbit⟩
  unfold withImm
  dsimp only
  omega

theorem withImm_lt {hw : ℕ × ℕ} (h1 : hw.1 < 2 ^ 16) (h2 : hw.2 < 2 ^ 16) (u : ℕ) :
    (withImm hw u).1 < 2 ^ 16 ∧ (withImm hw u).2 < 2 ^ 16 := by
  have hhigh := (withImm_snd hw u).1
  refine ⟨?_, by omega⟩
  unfold withImm
  dsimp only
  omega

theorem branchImm_withImm (hw : ℕ × ℕ) (u : ℕ) : branchImm (withImm hw u).1 (withImm hw u).2 =
      (u % 2 ^ 25 / 2 * 2 : ℕ) - 2 ^ 25 * (u / 2 ^ 24 % 2 : ℕ) := by
  have hs : (withImm hw u).1 / 2 ^ 10 % 2 = u / 2 ^ 24 % 2 := by
    unfold withImm
    dsimp only
    omega
  have hx : (withImm hw u).1 % 2 ^ 10 = u / 2 ^ 12 % 2 ^ 10 := by
    unfold withImm
    dsimp only
    omega
  obtain ⟨-, hj1, -, hj2, hy⟩ := withImm_snd hw u
  -- the two bits are stored as their equality with the sign, and read back the same way
  have h1 : (withImm hw u).2 / 2 ^ 13 % 2 = u / 2 ^ 24 % 2 ↔ u / 2 ^ 23 % 2 = 1 := by
    rw [hj1]
    split_ifs <;> omega
  have h2 : (withImm hw u).2 / 2 ^ 11 % 2 = u / 2 ^ 24 % 2 ↔ u / 2 ^ 22 % 2 = 1 := by
    rw [hj2]
    split_ifs <;> omega
  clear hj1 hj2
  simp only [branchImm, hs, hx, hy, h1, h2]
  split_ifs <;> omega

theorem branchImm_even (hw1 hw2 : ℕ) : branchImm hw1 hw2 % 2 = 0 := by
  unfold branchImm
  dsimp only
  split_ifs <;> omega

theorem branchImm_reach (hw1 hw2 : ℕ) : Reach (branchImm hw1 hw2) := by
  unfold branchImm Reach
  dsimp only
  split_ifs <;> omega

theorem branchImm_withImm_eq_iff (hw : ℕ × ℕ) (d : ℤ) :
    branchImm (withImm hw (d % 2 ^ 32).toNat).1 (withImm hw (d % 2 ^ 32).toNat).2 = d ↔
      Reach d ∧ d % 2 = 0 := by
  constructor
  · intro h
    rw [← h]
    exact ⟨branchImm_reach _ _, branchImm_even _ _⟩
  · rintro ⟨⟨hlo, hhi⟩, heven⟩
    rw [branchImm_withImm]
    omega

def instrAt (m : Mem) (a : ℕ) : ℕ × ℕ := (load m a 2, load m (a + 2) 2)

def immAt (m : Mem) (a : ℕ) : ℤ := branchImm (load m a 2) (load m (a + 2) 2)

def landing (m : Mem) (a : ℕ) : ℤ := (a + 4 + immAt m a) % 2 ^ 32

def literalJump (m : Mem) (a : ℕ) : ℕ := load m (a + 4) 4 / 2 * 2

end Thumb
