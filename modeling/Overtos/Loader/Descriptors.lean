import Overtos.Loader.Segments

/-! The descriptor pool of an FDPIC load, and how far it is filled. -/
namespace Overtos.Loader
open Word Memory Traced

variable (A : FdpicArgs) (X : Job) (fuel : ℕ)

def symAddr (m : Mem) (r_sym : ℕ) : ℕ := A.word (rt A X.plan m X.dyn.symV + wrap 32 (r_sym * 16))

def noSlot (r_sym : ℕ) (m : Mem) : Bool :=
  match (findDescriptor A X fuel r_sym m).result with
  | .ok d => d == 0
  | .error _ => false

def wantsFresh (m : Mem) (r_sym used : ℕ) : Prop :=
  X.dyn.symV ≠ 0 ∧ load m (symAddr A X m r_sym + 14) 2 ≠ 0 ∧ noSlot A X fuel r_sym m = true ∧
    wrap 32 (used + 8) ≤ wrap 32 (X.dyn.maxFd * 8)

def NeedsFresh (t : Pool × Mem) : Prop :=
  let r := A.word (X.rel0 + t.1.o)
  rt A X.plan t.2 (load t.2 r 4) ≠ 0 ∧
    FdpicReloc.ofType (load t.2 (r + 4) 4 % 256) = some .funcdesc ∧
    wantsFresh A X fuel t.2 (load t.2 (r + 4) 4 / 256) t.1.used

instance (m : Mem) (r_sym used : ℕ) : Decidable (wantsFresh A X fuel m r_sym used) :=
  inferInstanceAs (Decidable (_ ∧ _))

instance : DecidablePred (NeedsFresh A X fuel) := fun _ => inferInstanceAs (Decidable (_ ∧ _))

def freshCount (m : Mem) : ℕ :=
  (turns (Relocating A X) (relocStep A X fuel) fuel ⟨0, 0⟩ m).countP (NeedsFresh A X fuel)

variable {A X fuel} {m : Mem} {place used r_sym : ℕ}

theorem freshDescriptor_used {sym : ℕ} :
    Post (freshDescriptor A X sym place used) m fun d _ => d.2 = wrap 32 (used + 8) := by
  simp [freshDescriptor]

theorem funcdescAddr_used : Post (funcdescAddr A X fuel r_sym place used) m fun d _ =>
      d.2 = if wantsFresh A X fuel m r_sym used then wrap 32 (used + 8) else used := by
  simp only [funcdescAddr, dynSym, definedSym, post_bind, fdpicRt_post, post_pure, post_ite,
    post_get]
  refine ⟨fun hs => ⟨fun hd => ?_, fun hd => ?_⟩, fun hs => ⟨fun hd => absurd hd (by decide),
    fun _ => ?_⟩⟩
  · intro d hr
    have hslot : noSlot A X fuel r_sym m = (d == 0) := by
      rw [noSlot, hr]
    have hdef : load m (symAddr A X m r_sym + 14) 2 ≠ 0 := bne_iff_ne.mp hd
    refine ⟨fun hf => ?_, fun hf => ?_⟩
    · rw [if_pos ⟨hs, hdef, by rw [hslot, hf.1]; rfl, hf.2⟩]
      exact freshDescriptor_used
    · rw [if_neg]
      rintro ⟨-, -, h0, hroom⟩
      rw [hslot, beq_iff_eq] at h0
      exact hf ⟨h0, hroom⟩
  · rw [if_neg]
    rintro ⟨-, hdef, -⟩
    exact hd (bne_iff_ne.mpr hdef)
  · rw [if_neg fun h => hs h.1]

theorem FdpicReloc.apply_used {k : FdpicReloc} :
    Post (k.apply A X fuel r_sym place used) m fun u _ =>
      u = if k = .funcdesc ∧ wantsFresh A X fuel m r_sym used then wrap 32 (used + 8)
        else used := by
  cases k with
  | abs32 | relative => simp [apply]
  | funcdescValue =>
    rw [apply, post_bind]
    exact fun _ _ => by simp
  | funcdesc =>
    rw [apply, post_bind]
    refine funcdescAddr_used.mono fun d _ hd => ?_
    simp only [post_bind, post_put, post_pure, true_and, hd]

theorem relocStep_post {s : Pool} : Post (relocStep A X fuel s) m fun s' _ =>
    s'.o = wrap 32 (s.o + X.dyn.relEnt) ∧
    s'.used = if NeedsFresh A X fuel (s, m) then wrap 32 (s.used + 8) else s.used := by
  simp only [relocStep, applyEntry, post_bind, post_get, fdpicRt_post, post_ite, post_pure]
  refine ⟨fun h0 => ⟨trivial, ?_⟩, fun h0 => ?_⟩
  · rw [if_neg fun h => h.1 h0]
  · cases hk : FdpicReloc.ofType (load m (A.word (X.rel0 + s.o) + 4) 4 % 256) with
    | none =>
      refine post_pure.mpr ⟨trivial, ?_⟩
      rw [if_neg]
      rintro ⟨-, h, -⟩
      exact absurd (hk.symm.trans h) (by simp)
    | some k =>
      refine FdpicReloc.apply_used.mono fun u _ hu => ⟨trivial, hu.trans (if_congr ?_ rfl rfl)⟩
      constructor
      · rintro ⟨rfl, hf⟩
        exact ⟨h0, hk, hf⟩
      · rintro ⟨-, h, hf⟩
        exact ⟨Option.some.inj (hk.symm.trans h), hf⟩

theorem sum_eights {α : Type} (p : α → Prop) [DecidablePred p] (l : List α) :
    (l.map fun x => if p x then 8 else 0).sum = 8 * l.countP p := by
  induction l with
  | nil => rfl
  | cons x l ih =>
    by_cases hp : p x
    · simp [hp, ih]
      omega
    · simp [hp, ih]

theorem fdpicRelocate_spins (hent : X.dyn.relEnt = 8) (hsz : 2 ^ 32 - 8 ≤ X.dyn.relSz)
    (hrel : Relocating A X ⟨0, 0⟩) : Post (fdpicRelocate A X fuel) m fun _ _ => False := by
  unfold fdpicRelocate
  refine (post_repeatWhile (I := fun s _ => s.o % 8 = 0) (fun s _ _ ho => ?_) rfl).mono
    fun s _ hs => hs.2 ⟨hrel.1, hrel.2.1, hrel.2.2.1, ?_⟩
  · refine relocStep_post.mono fun s' _ hs => ?_
    rw [hs.1, hent]
    unfold wrap
    omega
  · have := hs.1
    rw [hent]
    unfold wrap
    omega

theorem fdpicRelocate_used (hent : X.dyn.relEnt = 8) : Post (fdpicRelocate A X fuel) m
    fun pool _ => pool.used = 8 * freshCount A X fuel m := by
  by_cases hspin : 2 ^ 32 - 8 ≤ X.dyn.relSz ∧ Relocating A X ⟨0, 0⟩
  · exact (fdpicRelocate_spins hent hspin.1 hspin.2).mono fun _ _ h => h.elim
  have hfd : X.dyn.maxFd = X.dyn.relSz / 8 := by rw [Dynamic.maxFd, hent, if_pos (by decide)]
  unfold fdpicRelocate
  refine (post_repeatWhile_sum (I := fun s _ => s.used ≤ X.dyn.maxFd * 8)
    (f := fun s => s.used) (g := fun t => if NeedsFresh A X fuel t then 8 else 0)
    (fun s m' hc hs => relocStep_post.mono fun s' _ h => ?_) (Nat.zero_le _)).mono fun s _ hs => ?_
  · have hlt : X.dyn.relSz < 2 ^ 32 - 8 := by
      by_contra hge
      refine hspin ⟨by omega, hc.1, hc.2.1, hc.2.2.1, (wrap_le _ _).trans ?_⟩
      dsimp only
      omega
    rw [h.2]
    split_ifs with hf
    · have hroom := hf.2.2.2.2.2
      dsimp only at hroom
      rw [wrap_of_lt (by omega), wrap_of_lt (by omega)] at hroom
      rw [wrap_of_lt (by omega)]
      exact ⟨hroom, rfl⟩
    · exact ⟨hs, rfl⟩
  · rw [hs, sum_eights, freshCount, Nat.zero_add]

end Overtos.Loader
