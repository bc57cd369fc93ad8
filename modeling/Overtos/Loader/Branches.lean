import Overtos.Lib.Thumb
import Overtos.Loader.Applied

/-! What the ARM relocations make of Thumb branches, direct and through veneers. -/
namespace Overtos.Loader
open Word Memory Traced Thumb

section
variable {hw1 hw2 : ℕ}

theorem join_fields {s i1 i2 x y : ℕ} (h1 : i1 < 2) (h2 : i2 < 2) (hx : x < 2 ^ 10)
    (hy : y < 2 ^ 11) :
    (s <<< 24) ||| (i1 <<< 23) ||| (i2 <<< 22) ||| (x <<< 12) ||| (y <<< 1) =
      s * 2 ^ 24 + (i1 * 2 ^ 23 + (i2 * 2 ^ 22 + (x * 2 ^ 12 + y * 2))) := by
  have h12 : x <<< 12 ||| y <<< 1 = x * 2 ^ 12 + y * 2 := by
    rw [Nat.shiftLeft_eq y, shiftLeft_or (by omega), pow_one]
  have h22 : i2 <<< 22 ||| (x * 2 ^ 12 + y * 2) = i2 * 2 ^ 22 + (x * 2 ^ 12 + y * 2) :=
    shiftLeft_or (by omega)
  have h23 : i1 <<< 23 ||| (i2 * 2 ^ 22 + (x * 2 ^ 12 + y * 2)) =
      i1 * 2 ^ 23 + (i2 * 2 ^ 22 + (x * 2 ^ 12 + y * 2)) := shiftLeft_or (by omega)
  rw [Nat.or_assoc, Nat.or_assoc, Nat.or_assoc, h12, h22, h23, shiftLeft_or (by omega)]

theorem signExtend_eq {raw : ℕ} (h : raw < 2 ^ 25) :
    (if raw &&& 0x01000000 ≠ 0 then int32 (raw ||| 0xfe000000) else int32 raw) =
      (raw : ℤ) - 2 ^ 25 * (raw / 2 ^ 24 : ℕ) := by
  have hbit : raw &&& 0x01000000 = (raw.testBit 24).toNat * 2 ^ 24 := Nat.and_two_pow raw 24
  have hor : raw ||| 0xfe000000 = 0x7f * 2 ^ 25 + raw := by
    rw [Nat.or_comm, show 0xfe000000 = 0x7f <<< 25 by decide, shiftLeft_or h]
  have htest : (raw.testBit 24).toNat = raw / 2 ^ 24 := by
    rw [Nat.toNat_testBit]
    omega
  rw [hbit, hor, htest]
  unfold int32 wrap
  split_ifs <;> omega

theorem thmAddend_eq (hw1 hw2 : ℕ) : thmAddend hw1 hw2 = branchImm hw1 hw2 := by
  have h10 : hw1 &&& 0x3ff = hw1 % 2 ^ 10 := Nat.and_two_pow_sub_one_eq_mod hw1 10
  have h11 : hw2 &&& 0x7ff = hw2 % 2 ^ 11 := Nat.and_two_pow_sub_one_eq_mod hw2 11
  have hs := Nat.mod_lt (hw1 / 2 ^ 10) (by decide : 0 < 2)
  have hj1 := Nat.mod_lt (hw2 / 2 ^ 13) (by decide : 0 < 2)
  have hj2 := Nat.mod_lt (hw2 / 2 ^ 11) (by decide : 0 < 2)
  have hx := Nat.mod_lt hw1 (by decide : 0 < 2 ^ 10)
  have hy := Nat.mod_lt hw2 (by decide : 0 < 2 ^ 11)
  simp only [thmAddend, branchImm, Nat.shiftRight_eq_div_pow, Nat.and_one_is_mod, h10, h11]
  rw [xnor_bit hj1 hs, xnor_bit hj2 hs, join_fields (by split_ifs <;> omega)
    (by split_ifs <;> omega) hx hy, signExtend_eq (by split_ifs <;> omega)]
  split_ifs <;> omega

theorem land_d000 (h : hw2 < 2 ^ 16) :
    hw2 &&& 0xd000 = (hw2 / 2 ^ 14) <<< 14 ||| (hw2 / 2 ^ 12 % 2) <<< 12 := by
  have h14 : hw2 &&& 0xc000 = hw2 / 2 ^ 14 * 2 ^ 14 := by
    rw [← land_comp_mask (k := 14) (by decide) h, show comp 16 (2 ^ 14 - 1) = 0xc000 by decide]
  have h12 : hw2 &&& 0x1000 = (hw2.testBit 12).toNat * 2 ^ 12 := Nat.and_two_pow hw2 12
  rw [show 0xd000 = 0xc000 ||| 0x1000 by decide, Nat.and_or_distrib_left, h14, h12,
    Nat.toNat_testBit, Nat.shiftLeft_eq, Nat.shiftLeft_eq]

theorem thmEncode_eq (h1 : hw1 < 2 ^ 16) (h2 : hw2 < 2 ^ 16) (want : ℤ) :
    thmEncode hw1 hw2 want = withImm (hw1, hw2) (want % 2 ^ 32).toNat := by
  have h11 : hw1 &&& 0xf800 = (hw1 / 2 ^ 11) <<< 11 := by
    rw [Nat.shiftLeft_eq, ← land_comp_mask (k := 11) (by decide) h1,
      show comp 16 (2 ^ 11 - 1) = 0xf800 by decide]
  simp only [thmEncode, withImm]
  generalize (want % 2 ^ 32).toNat = u
  have hx : u / 2 ^ 12 &&& 0x3ff = u / 2 ^ 12 % 2 ^ 10 := Nat.and_two_pow_sub_one_eq_mod _ 10
  have hy : u / 2 ^ 1 &&& 0x7ff = u / 2 % 2 ^ 11 := Nat.and_two_pow_sub_one_eq_mod _ 11
  have hs := Nat.mod_lt (u / 2 ^ 24) (by decide : 0 < 2)
  have hi1 := Nat.mod_lt (u / 2 ^ 23) (by decide : 0 < 2)
  have hi2 := Nat.mod_lt (u / 2 ^ 22) (by decide : 0 < 2)
  have hb := Nat.mod_lt (hw2 / 2 ^ 12) (by decide : 0 < 2)
  have hx' := Nat.mod_lt (u / 2 ^ 12) (by decide : 0 < 2 ^ 10)
  have hy' := Nat.mod_lt (u / 2) (by decide : 0 < 2 ^ 11)
  simp only [Nat.shiftRight_eq_div_pow, Nat.and_one_is_mod, hx, hy]
  rw [Nat.xor_right_comm (u / 2 ^ 23 % 2), Nat.xor_right_comm (u / 2 ^ 22 % 2), xnor_bit hi1 hs,
    xnor_bit hi2 hs]
  have hj1 : (if u / 2 ^ 23 % 2 = u / 2 ^ 24 % 2 then 1 else 0) < 2 := by split_ifs <;> omega
  have hj2 : (if u / 2 ^ 22 % 2 = u / 2 ^ 24 % 2 then 1 else 0) < 2 := by split_ifs <;> omega
  generalize (if u / 2 ^ 23 % 2 = u / 2 ^ 24 % 2 then 1 else 0) = j1 at hj1 ⊢
  generalize (if u / 2 ^ 22 % 2 = u / 2 ^ 24 % 2 then 1 else 0) = j2 at hj2 ⊢
  refine Prod.ext ?_ ?_
  · dsimp only
    rw [h11, Nat.or_assoc, shiftLeft_or hx', shiftLeft_or (by omega)]
  · dsimp only
    have h11 : j2 <<< 11 ||| u / 2 % 2 ^ 11 = j2 * 2 ^ 11 + u / 2 % 2 ^ 11 := shiftLeft_or hy'
    have h12 : (hw2 / 2 ^ 12 % 2) <<< 12 ||| (j2 * 2 ^ 11 + u / 2 % 2 ^ 11) =
        hw2 / 2 ^ 12 % 2 * 2 ^ 12 + (j2 * 2 ^ 11 + u / 2 % 2 ^ 11) := shiftLeft_or (by omega)
    have h13 : j1 <<< 13 ||| (hw2 / 2 ^ 12 % 2 * 2 ^ 12 + (j2 * 2 ^ 11 + u / 2 % 2 ^ 11)) =
        j1 * 2 ^ 13 + (hw2 / 2 ^ 12 % 2 * 2 ^ 12 + (j2 * 2 ^ 11 + u / 2 % 2 ^ 11)) :=
      shiftLeft_or (by omega)
    rw [land_d000 h2, Nat.or_assoc, Nat.or_assoc, Nat.or_assoc, h11, Nat.or_left_comm _ (j1 <<< 13),
      h12, h13, shiftLeft_or (by omega)]

end

def branchDisplacement (S loc : ℕ) (addend : ℤ) : ℤ :=
  Int.bmod ((S / 2 * 2 : ℕ) - loc + addend) (2 ^ 32)

section
variable {A : Args} {S loc hw1 hw2 : ℕ}

theorem int32_mod (n : ℕ) : int32 n % 2 ^ 32 = (n : ℤ) % 2 ^ 32 := by
  unfold int32 wrap
  split_ifs <;> omega

theorem int32_bounds (n : ℕ) : -2 ^ 31 ≤ int32 n ∧ int32 n < 2 ^ 31 := by
  unfold int32 wrap
  split_ifs <;> omega

theorem strip_mod (A : Args) (S : ℕ) :
    (S &&& comp A.arch.bits 1) % 2 ^ 32 = S / 2 * 2 % 2 ^ 32 := by
  have hlt : S &&& comp A.arch.bits 1 < 2 ^ A.arch.bits := by
    refine (Nat.and_le_right).trans_lt ?_
    unfold comp
    have := Nat.two_pow_pos A.arch.bits
    omega
  have hmod : S &&& comp A.arch.bits 1 = S % 2 ^ A.arch.bits &&& comp A.arch.bits 1 := by
    have hc : comp A.arch.bits 1 < 2 ^ A.arch.bits := by
      unfold comp
      have := Nat.two_pow_pos A.arch.bits
      omega
    rw [← Nat.mod_eq_of_lt hlt, Nat.and_mod_two_pow, Nat.mod_eq_of_lt hc]
  have hbits : 1 ≤ A.arch.bits := by rcases A.arch.bits_cases with h | h <;> omega
  have hmask := land_comp_mask hbits (Nat.mod_lt S (Nat.two_pow_pos A.arch.bits))
  rw [hmod]
  change (S % 2 ^ A.arch.bits &&& comp A.arch.bits (2 ^ 1 - 1)) % 2 ^ 32 = _
  rw [hmask]
  rcases A.arch.bits_cases with h | h <;> rw [h] <;> omega

theorem displacement_mod (t : ℕ) (hloc : loc < 2 ^ 64) :
    displacement t loc % 2 ^ 32 = ((t : ℤ) - loc) % 2 ^ 32 := by
  rw [displacement, int32_mod]
  omega

theorem displacement_bounds (t loc : ℕ) :
    -2 ^ 31 ≤ displacement t loc ∧ displacement t loc < 2 ^ 31 := int32_bounds _

theorem thmWant_mod (A : Args) (S hw1 hw2 : ℕ) (hloc : loc < 2 ^ 64) :
    thmWant A loc S hw1 hw2 % 2 ^ 32 =
      ((S / 2 * 2 : ℕ) - (loc : ℤ) + branchImm hw1 hw2) % 2 ^ 32 := by
  have hd := displacement_mod (S &&& comp A.arch.bits 1) hloc
  have hs := strip_mod A S
  rw [thmWant, thmAddend_eq]
  generalize S &&& comp A.arch.bits 1 = t at *
  generalize displacement t loc = d at *
  omega

theorem thmWant_bounds (A : Args) (loc S hw1 hw2 : ℕ) :
    -2 ^ 31 - 2 ^ 24 ≤ thmWant A loc S hw1 hw2 ∧ thmWant A loc S hw1 hw2 < 2 ^ 31 + 2 ^ 24 := by
  have hb := displacement_bounds (S &&& comp A.arch.bits 1) loc
  obtain ⟨hlo, hhi⟩ := branchImm_reach hw1 hw2
  rw [thmWant, thmAddend_eq]
  omega

theorem thmWant_eq (hloc : loc < 2 ^ 64)
    (h : Reach (branchDisplacement S loc (branchImm hw1 hw2))) :
    thmWant A loc S hw1 hw2 = branchDisplacement S loc (branchImm hw1 hw2) := by
  have hm := thmWant_mod A S hw1 hw2 hloc
  have hb := thmWant_bounds A loc S hw1 hw2
  unfold branchDisplacement Reach Int.bmod at *
  generalize thmWant A loc S hw1 hw2 = want at *
  generalize ((S / 2 * 2 : ℕ) - (loc : ℤ) + branchImm hw1 hw2) = d at *
  dsimp only at *
  split_ifs at * <;> omega

theorem outOfReach_thmWant (A : Args) (hloc : loc < 2 ^ 64) : outOfReach (thmWant A loc S hw1 hw2) ↔
      ¬Reach (branchDisplacement S loc (branchImm hw1 hw2)) := by
  have hm := thmWant_mod A S hw1 hw2 hloc
  have hb := thmWant_bounds A loc S hw1 hw2
  unfold branchDisplacement Reach outOfReach Int.bmod
  generalize thmWant A loc S hw1 hw2 = want at *
  generalize ((S / 2 * 2 : ℕ) - (loc : ℤ) + branchImm hw1 hw2) = d at *
  dsimp only
  split_ifs <;> omega

theorem not_outOfReach {want : ℤ} : ¬outOfReach want ↔ Reach want := by
  unfold outOfReach Reach
  omega

end

section
variable {A : Args} {mod : Module} {m : Mem} {loc S : ℕ}

def patched (m : Mem) (loc : ℕ) (hw : ℕ × ℕ) : Mem := store (store m loc 2 hw.1) (loc + 2) 2 hw.2

theorem load_patched {hw : ℕ × ℕ} (h1 : hw.1 < 2 ^ 16) (h2 : hw.2 < 2 ^ 16) :
    (load (patched m loc hw) loc 2, load (patched m loc hw) (loc + 2) 2) = hw := by
  have h : 256 ^ 2 = 2 ^ 16 := by norm_num
  rw [patched, load_store_disjoint (Or.inl le_rfl), load_store_self, load_store_self, h,
    Nat.mod_eq_of_lt h1, Nat.mod_eq_of_lt h2]

theorem instrAt_lt (m : Mem) (loc : ℕ) :
    (instrAt m loc).1 < 2 ^ 16 ∧ (instrAt m loc).2 < 2 ^ 16 := ⟨load_lt m _ 2, load_lt m _ 2⟩

theorem instrAt_patched (m m' : Mem) (loc : ℕ) (want : ℤ) :
    instrAt (patched m' loc (thmEncode (load m loc 2) (load m (loc + 2) 2) want)) loc =
      withImm (instrAt m loc) (want % 2 ^ 32).toNat := by
  obtain ⟨h1, h2⟩ := instrAt_lt m loc
  have henc := thmEncode_eq h1 h2 want
  obtain ⟨h1', h2'⟩ := withImm_lt h1 h2 (want % 2 ^ 32).toNat
  unfold instrAt at *
  rw [henc]
  exact load_patched h1' h2'

theorem immAt_eq (m : Mem) (loc : ℕ) :
    immAt m loc = branchImm (instrAt m loc).1 (instrAt m loc).2 := rfl

theorem immAt_patched (m m' : Mem) (loc : ℕ) (want : ℤ) :
    immAt (patched m' loc (thmEncode (load m loc 2) (load m (loc + 2) 2) want)) loc = want ↔
      Reach want ∧ want % 2 = 0 := by
  rw [immAt_eq, instrAt_patched, branchImm_withImm_eq_iff]

theorem thmBranch_ends (h : Reach (branchDisplacement S loc (immAt m loc))) (hloc : loc < 2 ^ 64)
    {Q : Module → Mem → Prop} : Ends (thmBranch A mod loc S) m Q ↔
      Q mod (patched m loc (thmEncode (load m loc 2) (load m (loc + 2) 2)
        (branchDisplacement S loc (immAt m loc)))) := by
  have hw : thmWant A loc S (load m loc 2) (load m (loc + 2) 2) =
      branchDisplacement S loc (immAt m loc) := thmWant_eq hloc h
  have hin := not_outOfReach.mpr h
  simp only [thmBranch, ends_bind, ends_get, hw]
  rw [if_neg hin]
  simp only [thmPatch, ends_bind, ends_put, ends_pure]
  rfl

end

theorem word_lt (A : Args) (n : ℕ) : A.word n < 2 ^ 64 := by
  refine (wrap_lt _ _).trans_le (Nat.pow_le_pow_right (by decide) ?_)
  rcases A.arch.bits_cases with h | h <;> omega

def place (A : Args) (mod : Module) (tgt : ℕ) (rel : Record) : ℕ :=
  A.word (mod.secAddr tgt + rel 0 4)

def IsBranch (rel : Record) : Prop :=
  ArmReloc.ofType (rel 4 4 % 2 ^ 8) = some .thmCall ∨
    ArmReloc.ofType (rel 4 4 % 2 ^ 8) = some .thmJump24

instance (rel : Record) : Decidable (IsBranch rel) := inferInstanceAs (Decidable (_ ∨ _))

section
variable {A : Args} {mod : Module} {tgt : ℕ} {rel : Record} {m : Mem} {S : ℕ}

theorem place_lt : place A mod tgt rel < 2 ^ 64 := word_lt _ _

theorem applyRelArm_branch (hb : IsBranch rel)
    (hS : (symbolOf elf32 A mod (rel 4 4 / 2 ^ 8) m).result = .ok S)
    {Q : Module → Mem → Prop} : Ends (applyRelArm A mod tgt rel) m Q ↔
      Ends (thmBranch A mod (place A mod tgt rel) S) m Q := by
  have hmem := symbolOf_mem S hS
  rw [applyRelArm, ends_bind]
  constructor
  · rintro ⟨S', hS', h⟩
    obtain rfl := Except.ok.inj (hS.symm.trans hS')
    rw [hmem] at h
    rcases hb with hb | hb <;> rw [hb] at h <;> simpa [ArmReloc.patch, place] using h
  · intro h
    refine ⟨S, hS, ?_⟩
    rw [hmem]
    rcases hb with hb | hb <;> rw [hb] <;> simpa [ArmReloc.patch, place] using h

theorem branchDisplacement_even {loc : ℕ} (h : loc % 2 = 0) (m : Mem) :
    branchDisplacement S loc (immAt m loc) % 2 = 0 := by
  have hi := branchImm_even (load m loc 2) (load m (loc + 2) 2)
  unfold branchDisplacement immAt Int.bmod
  dsimp only
  split_ifs <;> omega

end

/-- A branch within reach is rewritten to encode exactly its displacement, with its opcode bits
kept. -/
theorem branch_reencoded (A : Args) (mod : Module) (tgt : ℕ) (rel : Record) (m : Mem) (S : ℕ)
    (hb : IsBranch rel) (hS : (symbolOf elf32 A mod (rel 4 4 / 2 ^ 8) m).result = .ok S)
    (heven : place A mod tgt rel % 2 = 0)
    (hr : Reach (branchDisplacement S (place A mod tgt rel) (immAt m (place A mod tgt rel)))) :
    (applyRelArm A mod tgt rel m).result = .ok mod ∧
    immAt (applyRelArm A mod tgt rel m).mem (place A mod tgt rel) =
      branchDisplacement S (place A mod tgt rel) (immAt m (place A mod tgt rel)) ∧
    SameOpcode (instrAt m (place A mod tgt rel))
      (instrAt (applyRelArm A mod tgt rel m).mem (place A mod tgt rel)) := by
  have hends : Ends (applyRelArm A mod tgt rel) m fun mod' m' => mod' = mod ∧
      immAt m' (place A mod tgt rel) =
        branchDisplacement S (place A mod tgt rel) (immAt m (place A mod tgt rel)) ∧
      SameOpcode (instrAt m (place A mod tgt rel)) (instrAt m' (place A mod tgt rel)) := by
    rw [applyRelArm_branch hb hS, thmBranch_ends hr place_lt, immAt_patched, instrAt_patched]
    exact ⟨rfl, ⟨hr, branchDisplacement_even heven m⟩, withImm_sameOpcode _ _⟩
  obtain ⟨mod', hok, rfl, himm, hop⟩ := hends
  exact ⟨hok, himm, hop⟩

def callImage : Mem := layOut 0x1000
  [(4, 4, 0x3001), (14, 2, 0xfff1), (0x1000, 2, 0xf7ff), (0x1002, 2, 0xfffe)]

def callModule : Module := ⟨4, 1, fun _ => 0x2000, 0x1000, 1, 0x1000, 0, false⟩

def callEntry : Record := fun off _ => if off = 4 then 10 else 0

theorem branch_reencoded_call :
    immAt (applyRelArm strayArgs callModule 0 callEntry callImage).mem 0x2000 = 0xffc := by
  have h := branch_reencoded strayArgs callModule 0 callEntry callImage 0x3001 (Or.inl rfl)
    (by decide +kernel) (by decide +kernel) (by decide +kernel)
  have hp : place strayArgs callModule 0 callEntry = 0x2000 := by decide +kernel
  rw [hp] at h
  rw [h.2.1]
  decide +kernel

section
variable {A : Args} {mod : Module} {m : Mem} {loc S : ℕ}

def veneer (A : Args) (mod : Module) : ℕ := A.word (A.region.addr + veneerOff A mod)

def veneered (m : Mem) (v S : ℕ) : Mem :=
  store (store (store m v 2 0xf8df) (v + 2) 2 0xf000) (v + 4) 4 (wrap 32 S)

theorem load_veneered (m : Mem) (v S : ℕ) :
    load (veneered m v S) v 2 = 0xf8df ∧ load (veneered m v S) (v + 2) 2 = 0xf000 ∧
      load (veneered m v S) (v + 4) 4 = wrap 32 S := by
  have h4 : 256 ^ 4 = 2 ^ 32 := by norm_num
  refine ⟨?_, ?_, ?_⟩
  · rw [veneered, load_store_disjoint (Or.inl (by omega)), load_store_disjoint (Or.inl (by omega)),
      load_store_self]
    norm_num
  · rw [veneered, load_store_disjoint (Or.inl (by omega)), load_store_self]
    norm_num
  · rw [veneered, load_store_self, h4, Nat.mod_eq_of_lt (wrap_lt _ _)]

theorem load_patched_disjoint {hw : ℕ × ℕ} {a n : ℕ} (h : loc + 4 ≤ a ∨ a + n ≤ loc) :
    load (patched m loc hw) a n = load m a n := by
  rw [patched, load_store_disjoint (by omega), load_store_disjoint (by omega)]

theorem veneerOff_mod (A : Args) (mod : Module) : veneerOff A mod % 4 = 0 := by
  have hbits : 2 ≤ A.arch.bits := by rcases A.arch.bits_cases with h | h <;> omega
  have hmask := land_comp_mask hbits (wrap_lt A.arch.bits (mod.regionUsed + 3))
  change (wrap A.arch.bits (mod.regionUsed + 3) &&& comp A.arch.bits (2 ^ 2 - 1)) % 4 = 0
  rw [hmask]
  exact Nat.mul_mod_left _ _

theorem veneer_mod (halign : A.region.addr % 4 = 0) : veneer A mod % 4 = 0 := by
  have hoff := veneerOff_mod A mod
  have hdvd : 4 ∣ 2 ^ A.arch.bits := by
    rcases A.arch.bits_cases with h | h <;> rw [h] <;> norm_num
  rw [veneer, Space.word, wrap, Nat.mod_mod_of_dvd _ hdvd]
  omega

theorem thmBranch_far (hsize : 52 ≤ A.image.size) (hreg : A.region.addr ≠ 0)
    (hu : mod.regionUsed ≤ A.region.size) (hloc : loc < 2 ^ 64)
    (h : ¬Reach (branchDisplacement S loc (immAt m loc))) {Q : Module → Mem → Prop} :
    Ends (thmBranch A mod loc S) m Q ↔ veneerOff A mod + 8 ≤ A.region.size ∧
      Q { mod with regionUsed := veneerOff A mod + 8 }
        (patched (veneered m (veneer A mod) S) loc (thmEncode (load m loc 2) (load m (loc + 2) 2)
          (displacement (veneer A mod) loc + immAt m loc))) := by
  have hout := (outOfReach_thmWant A hloc).mpr h
  simp only [thmBranch, ends_bind, ends_get]
  rw [if_pos hout]
  simp only [armVeneer, word_veneer hsize hu]
  by_cases hroom : veneerOff A mod + 8 ≤ A.region.size
  · have hv : A.word (A.region.addr + veneerOff A mod) ≠ 0 := by
      have := A.regionFits
      rw [Space.word_of_lt (by omega)]
      omega
    rw [if_neg (by omega), and_iff_right hroom, thmAddend_eq]
    simp only [ends_bind, ends_put, ends_pure, ends_require, thmPatch, and_iff_right hv]
    rfl
  · rw [if_pos (by omega), ends_bind, ends_pure, ends_bind, ends_require]
    exact ⟨fun hz => absurd rfl hz.1, fun hz => absurd hz.1 hroom⟩

end

def Entry.Detours (A : Args) (x : Entry) (S : ℕ) : Prop :=
  let loc := place A x.mod x.tgt x.rel
  let v := veneer A x.mod
  let m := (x.apply A x.mem).mem
  (loc + 4 ≤ v ∨ v + 8 ≤ loc) ∧ landing m loc = (v : ℤ) % 2 ^ 32 ∧ instrAt m v = (0xf8df, 0xf000) ∧
    load m (v + 4) 4 % 2 = 1 ∧
    (literalJump m v : ℤ) = ((S / 2 * 2 : ℕ) + immAt x.mem loc + 4) % 2 ^ 32

def Entry.DetourFits (A : Args) (x : Entry) : Prop :=
  let loc := place A x.mod x.tgt x.rel
  let v := veneer A x.mod
  (loc + 4 ≤ v ∨ v + 8 ≤ loc) ∧ loc % 2 = 0 ∧ immAt x.mem loc = -4 ∧ Reach (displacement v loc - 4)

instance (A : Args) (x : Entry) (S : ℕ) : Decidable (x.Detours A S) :=
  inferInstanceAs (Decidable (_ ∧ _))

instance (A : Args) (x : Entry) : Decidable (x.DetourFits A) := inferInstanceAs (Decidable (_ ∧ _))

section
variable {A : Args} {x : Entry} {S : ℕ}

theorem literal_iff {imm : ℤ} (hr : Reach imm) (S : ℕ) :
    ((wrap 32 S / 2 * 2 : ℕ) : ℤ) = ((S / 2 * 2 : ℕ) + imm + 4) % 2 ^ 32 ↔ imm = -4 := by
  obtain ⟨hlo, hhi⟩ := hr
  unfold wrap
  omega

theorem landing_iff {m m' : Mem} {loc v : ℕ} (hloc : loc < 2 ^ 64) (hv : v % 4 = 0) :
    landing (patched m' loc (thmEncode (load m loc 2) (load m (loc + 2) 2)
      (displacement v loc + -4))) loc = (v : ℤ) % 2 ^ 32 ↔
        loc % 2 = 0 ∧ Reach (displacement v loc - 4) := by
  have hm := displacement_mod v hloc
  have hb := displacement_bounds v loc
  have himm := immAt_patched m m' loc (displacement v loc + -4)
  have hr := branchImm_reach (load (patched m' loc (thmEncode (load m loc 2) (load m (loc + 2) 2)
    (displacement v loc + -4))) loc 2) (load (patched m' loc (thmEncode (load m loc 2)
    (load m (loc + 2) 2) (displacement v loc + -4))) (loc + 2) 2)
  change Reach (immAt _ loc) at hr
  unfold landing Reach at *
  generalize immAt (patched m' loc (thmEncode (load m loc 2) (load m (loc + 2) 2)
    (displacement v loc + -4))) loc = imm at *
  generalize displacement v loc = d at *
  have heq : (↑loc + 4 + imm) % 2 ^ 32 = (v : ℤ) % 2 ^ 32 ↔ imm = d + -4 := by omega
  rw [heq, himm]
  omega

end

/-- A branch out of reach gets to its symbol exactly if it lies at an even address beside the
veneer, encodes -4 and has the veneer within reach. -/
theorem veneer_reaches_iff (A : Args) (m : Mem) (mod : Module)
    (hok : (oveLoaderLoad A m).result = .ok mod) (halign : A.region.addr % 4 = 0) (x : Entry)
    (hx : x ∈ reached A m) (harm : x.mod.isElf64 = false) (hb : IsBranch x.rel) (S : ℕ)
    (hS : (symbolOf elf32 A x.mod (x.rel 4 4 / 2 ^ 8) x.mem).result = .ok S) (hodd : S % 2 = 1)
    (hfar : ¬Reach (branchDisplacement S (place A x.mod x.tgt x.rel)
      (immAt x.mem (place A x.mod x.tgt x.rel)))) : x.Detours A S ↔ x.DetourFits A := by
  obtain ⟨hsize, hreg, hu, hends⟩ := reached_applied hok x hx
  have happ : x.apply A = applyRelArm A x.mod x.tgt x.rel := by simp [Entry.apply, harm]
  have hend : Ends (x.apply A) x.mem fun _ m' =>
      m' = (x.apply A x.mem).mem := hends.elim fun a ha => ⟨a, ha.1, rfl⟩
  rw [happ, applyRelArm_branch hb hS, thmBranch_far hsize hreg hu place_lt hfar, ← happ] at hend
  unfold Entry.Detours Entry.DetourFits
  dsimp only
  rw [← hend.2]
  refine and_congr_right fun hdis => ?_
  obtain ⟨h0, h2, h4⟩ := load_veneered x.mem (veneer A x.mod) S
  have hr : Reach (immAt x.mem (place A x.mod x.tgt x.rel)) := branchImm_reach _ _
  have hthumb : wrap 32 S % 2 = 1 := by
    unfold wrap
    omega
  have hinstr {hw : ℕ × ℕ} : instrAt (patched (veneered x.mem (veneer A x.mod) S)
      (place A x.mod x.tgt x.rel) hw) (veneer A x.mod) = (0xf8df, 0xf000) := by
    rw [instrAt, load_patched_disjoint (by omega), load_patched_disjoint (by omega), h0, h2]
  rw [literalJump, load_patched_disjoint (by omega), h4, literal_iff hr]
  simp only [hinstr, hthumb, true_and]
  constructor
  · rintro ⟨hland, himm⟩
    rw [himm, landing_iff place_lt (veneer_mod halign)] at hland
    exact ⟨hland.1, himm, hland.2⟩
  · rintro ⟨heven, himm, hreach⟩
    rw [himm, landing_iff place_lt (veneer_mod halign)]
    exact ⟨⟨heven, hreach⟩, rfl⟩

def farImage (hw : ℕ × ℕ) : Mem := layOut 0x1000
  [(0, 4, 0x464c457f), (4, 1, 1), (5, 1, 1), (16, 2, 1), (18, 2, 40), (32, 4, 52), (46, 2, 40),
    (48, 2, 3),
    (56, 4, 1), (60, 4, 2), (68, 4, 196), (72, 4, 4),
    (96, 4, 2), (108, 4, 172), (112, 4, 16), (116, 4, 1), (128, 4, 16),
    (136, 4, 9), (148, 4, 188), (152, 4, 8), (168, 4, 8),
    (176, 4, 0x4000001), (186, 2, 0xfff1),
    (192, 4, 10),
    (196, 2, hw.1), (198, 2, hw.2)]

theorem farRegion_fits : 0x2000 + 16 < 2 ^ Arch.arm32.bits := by decide

def farArgs : Args where
  arch := .arm32
  image := ⟨0x1000, 200⟩
  region := ⟨0x2000, 16⟩
  imports := []
  importsNull := false
  importMem := fun _ => false
  imageFits := by decide
  regionFits := farRegion_fits
  apart := by decide

theorem veneer_reaches_far :
    ∃ x ∈ reached farArgs (farImage (0xf7ff, 0xfffe)), x.Detours farArgs 0x4000001 := by
  obtain ⟨mod, hok⟩ := ok_of_toBool (show
    (oveLoaderLoad farArgs (farImage (0xf7ff, 0xfffe))).result.toBool = true by decide +kernel)
  obtain ⟨x, hx, harm, hb, hS, hfar, hfits⟩ : ∃ x ∈ reached farArgs (farImage (0xf7ff, 0xfffe)),
      x.mod.isElf64 = false ∧ IsBranch x.rel ∧
      (symbolOf elf32 farArgs x.mod (x.rel 4 4 / 2 ^ 8) x.mem).result = .ok 0x4000001 ∧
      ¬Reach (branchDisplacement 0x4000001 (place farArgs x.mod x.tgt x.rel)
        (immAt x.mem (place farArgs x.mod x.tgt x.rel))) ∧ x.DetourFits farArgs := by
    decide +kernel
  exact ⟨x, hx, (veneer_reaches_iff farArgs _ mod hok (by decide) x hx harm hb 0x4000001 hS
    (by decide) hfar).mpr hfits⟩

theorem veneer_missed :
    (oveLoaderLoad farArgs (farImage (0xf000, 0xf800))).result.toBool = true ∧
    ∃ x ∈ reached farArgs (farImage (0xf000, 0xf800)), x.mod.isElf64 = false ∧ IsBranch x.rel ∧
      (symbolOf elf32 farArgs x.mod (x.rel 4 4 / 2 ^ 8) x.mem).result = .ok 0x4000001 ∧
      ¬Reach (branchDisplacement 0x4000001 (place farArgs x.mod x.tgt x.rel)
        (immAt x.mem (place farArgs x.mod x.tgt x.rel))) ∧
      ¬x.Detours farArgs 0x4000001 := by
  decide +kernel

end Overtos.Loader
