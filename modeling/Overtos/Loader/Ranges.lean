import Overtos.Loader.Branches

/-! The values of relocations. Except for direct Thumb branches the loader stores whatever is left
of a value in its field. -/
namespace Overtos.Loader
open Word Memory Traced Thumb

section
variable {A : Args} {mod : Module} {tgt : ℕ} {rel : Record} {m : Mem} {S loc a : ℕ}

def X86Reloc.reading : X86Reloc → Reading
  | .none | .abs64 => .either
  | .pc32 | .plt32 | .abs32s => .signed
  | .abs32 => .unsigned

def X86Reloc.value (S a P : ℤ) : X86Reloc → ℤ
  | .none => 0
  | .abs64 | .abs32 | .abs32s => S + a
  | .pc32 | .plt32 => S + a - P

theorem X86Reloc.patch_stores (hloc : loc < 2 ^ 64) (k : X86Reloc) :
    Post (k.patch loc S a) m fun _ m' => (load m' loc k.width : ℤ) =
      k.value S (Int.bmod a (2 ^ 64)) loc % 2 ^ (8 * k.width) := by
  have hmod := bmod_two_pow a 64
  generalize Int.bmod a (2 ^ 64) = b at hmod ⊢
  cases k with
  | none => simp [patch, width, value, load]
  | abs64 =>
    simp only [patch, post_put, width, value, load_store_self, wrap, Nat.reduceMul]
    omega
  | pc32 | plt32 | abs32 | abs32s =>
    simp only [patch, post_put, width, value, load_store_self, wrap, Nat.reduceMul]
    omega

def placeRela (A : Args) (mod : Module) (tgt : ℕ) (rel : Record) : ℕ :=
  A.word (mod.secAddr tgt + rel 0 8)

theorem applyRela64_stores {k : X86Reloc} (hk : X86Reloc.ofType (rel 8 8 % 2 ^ 32) = some k)
    (hS : (symbolOf elf64 A mod (rel 8 8 / 2 ^ 32) m).result = .ok S) :
    Post (applyRela64 A mod tgt rel) m fun _ m' =>
      (load m' (placeRela A mod tgt rel) k.width : ℤ) =
        k.value S (Int.bmod (rel 16 8) (2 ^ 64)) (placeRela A mod tgt rel) %
          2 ^ (8 * k.width) := by
  rw [applyRela64, post_bind]
  intro S' hS'
  obtain rfl := Except.ok.inj (hS.symm.trans hS')
  rw [symbolOf_mem _ hS, hk]
  simp only [post_bind, post_pure]
  exact X86Reloc.patch_stores (word_lt _ _) k

end

section
variable {A : Args} {mod : Module} {tgt : ℕ} {rel : Record} {m m' : Mem} {S loc : ℕ}

def branchTarget (A : Args) (mod : Module) (m : Mem) (loc S : ℕ) : ℕ :=
  if Reach (branchDisplacement S loc (immAt m loc)) then S / 2 * 2 else veneer A mod

def ArmReloc.value (A : Args) (mod : Module) (m : Mem) (loc S : ℕ) : ArmReloc → ℤ
  | .none => 0
  | .abs32 | .target1 => S + Int.bmod (load m loc 4) (2 ^ 32)
  | .rel32 => S + Int.bmod (load m loc 4) (2 ^ 32) - loc
  | .prel31 => S + Int.bmod (load m loc 4 % 2 ^ 31 : ℕ) (2 ^ 31) - loc
  | .thmCall | .thmJump24 => branchTarget A mod m loc S - loc + immAt m loc

def ArmReloc.Holds (m : Mem) (loc : ℕ) (v : ℤ) : ArmReloc → Prop
  | .none => True
  | .abs32 | .target1 | .rel32 => Reading.either.Denotes 32 (load m loc 4) v
  | .prel31 => Reading.signed.Denotes 31 (load m loc 4 % 2 ^ 31) v
  | .thmCall | .thmJump24 => immAt m loc = v

def ArmReloc.Fits (v : ℤ) : ArmReloc → Prop
  | .none => True
  | .abs32 | .target1 | .rel32 => Reading.either.Fits 32 v
  | .prel31 => Reading.signed.Fits 31 v
  | .thmCall | .thmJump24 => Reach v ∧ v % 2 = 0

theorem thmEncode_congr {want want' : ℤ} (h : want % 2 ^ 32 = want' % 2 ^ 32) (hw1 hw2 : ℕ) :
    thmEncode hw1 hw2 want = thmEncode hw1 hw2 want' := by
  simp only [thmEncode, h]

theorem branchDisplacement_mod (S loc : ℕ) (imm : ℤ) : branchDisplacement S loc imm % 2 ^ 32 =
    (((S / 2 * 2 : ℕ) : ℤ) - loc + imm) % 2 ^ 32 := by
  rw [branchDisplacement, bmod_two_pow]

theorem thmBranch_stores (hsize : 52 ≤ A.image.size) (hreg : A.region.addr ≠ 0)
    (hu : mod.regionUsed ≤ A.region.size) (hloc : loc < 2 ^ 64) :
    Post (thmBranch A mod loc S) m fun _ m' => immAt m' loc =
        branchTarget A mod m loc S - loc + immAt m loc ↔
      Reach (branchTarget A mod m loc S - loc + immAt m loc) ∧
        (branchTarget A mod m loc S - loc + immAt m loc) % 2 = 0 := by
  rw [post_iff_ends]
  intro hends
  by_cases hr : Reach (branchDisplacement S loc (immAt m loc))
  · rw [thmBranch_ends hr hloc, branchTarget, if_pos hr,
      thmEncode_congr (branchDisplacement_mod S loc _)]
    exact immAt_patched m m loc _
  · have hd : (displacement (veneer A mod) loc + immAt m loc) % 2 ^ 32 =
        ((veneer A mod : ℤ) - loc + immAt m loc) % 2 ^ 32 := by
      rw [Int.add_emod, displacement_mod _ hloc, ← Int.add_emod]
    rw [thmBranch_far hsize hreg hu hloc hr] at hends ⊢
    rw [branchTarget, if_neg hr, thmEncode_congr hd]
    exact ⟨hends.1, immAt_patched m _ loc _⟩

variable {a : ℕ}

theorem abs32_stores :
    ((wrap 32 (S + a) % 2 ^ 32 : ℕ) : ℤ) = (S + Int.bmod a (2 ^ 32)) % 2 ^ 32 := by
  have hmod := bmod_two_pow a 32
  generalize Int.bmod a (2 ^ 32) = b at hmod ⊢
  unfold wrap
  omega

theorem rel32_stores (hloc : loc < 2 ^ 64) : ((wrap 32 (S + a + 2 ^ 64 - loc) % 2 ^ 32 : ℕ) : ℤ) =
      (S + Int.bmod a (2 ^ 32) - loc) % 2 ^ 32 := by
  have hmod := bmod_two_pow a 32
  generalize Int.bmod a (2 ^ 32) = b at hmod ⊢
  unfold wrap
  omega

theorem prel31_stores (hloc : loc < 2 ^ 64) :
    (((wrap 32 (S + a + 2 ^ 64 - loc) &&& 0x7fffffff ||| a &&& 0x80000000) % 2 ^ 31 : ℕ) : ℤ) =
      (S + Int.bmod (a % 2 ^ 31 : ℕ) (2 ^ 31) - loc) % 2 ^ 31 := by
  have hlow : wrap 32 (S + a + 2 ^ 64 - loc) &&& 0x7fffffff =
      wrap 32 (S + a + 2 ^ 64 - loc) % 2 ^ 31 := Nat.and_two_pow_sub_one_eq_mod _ 31
  have hsign : (a &&& 0x80000000) % 2 ^ 31 = 0 := by
    rw [Nat.and_mod_two_pow, show 0x80000000 % 2 ^ 31 = 0 by norm_num, Nat.and_zero]
  have hmod := bmod_two_pow (a % 2 ^ 31 : ℕ) 31
  generalize Int.bmod (a % 2 ^ 31 : ℕ) (2 ^ 31) = b at hmod ⊢
  rw [Nat.or_mod_two_pow, hsign, Nat.or_zero, hlow]
  unfold wrap
  omega

theorem ArmReloc.patch_holds (hsize : 52 ≤ A.image.size) (hreg : A.region.addr ≠ 0)
    (hu : mod.regionUsed ≤ A.region.size) (hloc : loc < 2 ^ 64) (k : ArmReloc) :
    Post (k.patch A mod loc S (load m loc 4)) m fun _ m' =>
      k.Holds m' loc (k.value A mod m loc S) ↔ k.Fits (k.value A mod m loc S) := by
  have h4 : 256 ^ 4 = 2 ^ 32 := by norm_num
  cases k with
  | none => simp [patch, Holds, Fits]
  | thmCall | thmJump24 => exact thmBranch_stores hsize hreg hu hloc
  | prel31 =>
    rw [patch, post_bind, post_put, post_pure, Holds, Fits, load_store_self, h4,
      Nat.mod_mod_of_dvd _ (pow_dvd_pow 2 (by decide))]
    exact Reading.denotes_iff (prel31_stores hloc)
  | abs32 | target1 =>
    rw [patch, post_bind, post_put, post_pure, Holds, Fits, load_store_self, h4]
    exact Reading.denotes_iff abs32_stores
  | rel32 =>
    rw [patch, post_bind, post_put, post_pure, Holds, Fits, load_store_self, h4]
    exact Reading.denotes_iff (rel32_stores hloc)

theorem applyRelArm_holds (hsize : 52 ≤ A.image.size) (hreg : A.region.addr ≠ 0)
    (hu : mod.regionUsed ≤ A.region.size) {k : ArmReloc}
    (hk : ArmReloc.ofType (rel 4 4 % 2 ^ 8) = some k)
    (hS : (symbolOf elf32 A mod (rel 4 4 / 2 ^ 8) m).result = .ok S) :
    Post (applyRelArm A mod tgt rel) m fun _ m' =>
      k.Holds m' (place A mod tgt rel) (k.value A mod m (place A mod tgt rel) S) ↔
        k.Fits (k.value A mod m (place A mod tgt rel) S) := by
  rw [applyRelArm, post_bind]
  intro S' hS'
  obtain rfl := Except.ok.inj (hS.symm.trans hS')
  rw [symbolOf_mem _ hS, post_bind, post_get, hk]
  exact ArmReloc.patch_holds hsize hreg hu place_lt k

end

def Entry.Exact (A : Args) (x : Entry) : Prop :=
  if x.mod.isElf64 then
    ∀ S, (symbolOf elf64 A x.mod (x.rel 8 8 / 2 ^ 32) x.mem).result = .ok S →
      ∀ k, X86Reloc.ofType (x.rel 8 8 % 2 ^ 32) = some k → k.reading.Denotes (8 * k.width)
        (load (x.apply A x.mem).mem (placeRela A x.mod x.tgt x.rel) k.width)
        (k.value S (Int.bmod (x.rel 16 8) (2 ^ 64)) (placeRela A x.mod x.tgt x.rel))
  else
    ∀ S, (symbolOf elf32 A x.mod (x.rel 4 4 / 2 ^ 8) x.mem).result = .ok S →
      ∀ k, ArmReloc.ofType (x.rel 4 4 % 2 ^ 8) = some k →
        k.Holds (x.apply A x.mem).mem (place A x.mod x.tgt x.rel)
          (k.value A x.mod x.mem (place A x.mod x.tgt x.rel) S)

def Entry.InRange (A : Args) (x : Entry) : Prop :=
  if x.mod.isElf64 then
    ∀ S, (symbolOf elf64 A x.mod (x.rel 8 8 / 2 ^ 32) x.mem).result = .ok S →
      ∀ k, X86Reloc.ofType (x.rel 8 8 % 2 ^ 32) = some k → k.reading.Fits (8 * k.width)
        (k.value S (Int.bmod (x.rel 16 8) (2 ^ 64)) (placeRela A x.mod x.tgt x.rel))
  else
    ∀ S, (symbolOf elf32 A x.mod (x.rel 4 4 / 2 ^ 8) x.mem).result = .ok S →
      ∀ k, ArmReloc.ofType (x.rel 4 4 % 2 ^ 8) = some k →
        k.Fits (k.value A x.mod x.mem (place A x.mod x.tgt x.rel) S)

theorem Entry.Applied.exact_iff {A : Args} {x : Entry} (h : x.Applied A) :
    x.Exact A ↔ x.InRange A := by
  obtain ⟨hsize, hreg, hu, mod, hok, -⟩ := h
  unfold Entry.Exact Entry.InRange
  cases hcls : x.mod.isElf64 with
  | true =>
    have happ : x.apply A = applyRela64 A x.mod x.tgt x.rel := by simp [Entry.apply, hcls]
    rw [happ] at hok ⊢
    exact forall₄_congr fun S hS k hk => Reading.denotes_iff (applyRela64_stores hk hS _ hok)
  | false =>
    have happ : x.apply A = applyRelArm A x.mod x.tgt x.rel := by simp [Entry.apply, hcls]
    rw [happ] at hok ⊢
    exact forall₄_congr fun S hS k hk => applyRelArm_holds hsize hreg hu hk hS _ hok

def LoadExact (A : Args) (m : Mem) : Prop :=
  Post (oveLoaderLoad A) m fun _ _ => ∀ x ∈ reached A m, x.Exact A

/-- Stored values are exact if and only if every relocation reached has a value in the range of its
field. -/
theorem load_exact_iff (A : Args) (m : Mem) : LoadExact A m ↔
    Post (oveLoaderLoad A) m fun _ _ => ∀ x ∈ reached A m, x.InRange A :=
  forall₂_congr fun _ hok => forall₂_congr fun x hx => (reached_applied hok x hx).exact_iff

def highImage : Mem := layOut 0x1000
  [(0, 4, 0x464c457f), (4, 1, 2), (5, 1, 1), (16, 2, 1), (18, 2, 62), (40, 8, 64), (58, 2, 64),
    (60, 2, 3),
    (68, 4, 8), (72, 8, 2), (96, 8, 4),
    (132, 4, 2), (152, 8, 256), (160, 8, 24), (168, 4, 1), (184, 8, 24),
    (196, 4, 4), (216, 8, 280), (224, 8, 24), (248, 8, 24),
    (262, 2, 0xfff1), (264, 8, 2 ^ 40),
    (288, 8, 2)]

def highArgs : Args where
  arch := .host64
  image := ⟨0x1000, 304⟩
  region := ⟨0x2000, 4⟩
  imports := []
  importsNull := false
  importMem := fun _ => false
  imageFits := by decide
  regionFits := by decide
  apart := by decide

theorem load_truncates : (oveLoaderLoad highArgs highImage).result.toBool = true ∧
    ¬LoadExact highArgs highImage := by
  have hload : (oveLoaderLoad highArgs highImage).result.toBool = true := by decide +kernel
  obtain ⟨mod, hok⟩ := ok_of_toBool hload
  refine ⟨hload, fun h => ?_⟩
  obtain ⟨x, hx, hcls, hS, hk, hv⟩ : ∃ x ∈ reached highArgs highImage, x.mod.isElf64 = true ∧
      (symbolOf elf64 highArgs x.mod (x.rel 8 8 / 2 ^ 32) x.mem).result = .ok (2 ^ 40) ∧
      X86Reloc.ofType (x.rel 8 8 % 2 ^ 32) = some .pc32 ∧
      Int.bmod (load (x.apply highArgs x.mem).mem (placeRela highArgs x.mod x.tgt x.rel) 4)
        (2 ^ 32) ≠ X86Reloc.pc32.value (2 ^ 40 : ℕ) (Int.bmod (x.rel 16 8) (2 ^ 64))
          (placeRela highArgs x.mod x.tgt x.rel) := by
    decide +kernel
  have hexact := h mod hok x hx
  rw [Entry.Exact, if_pos hcls] at hexact
  exact hv (hexact _ hS _ hk).symm

end Overtos.Loader
