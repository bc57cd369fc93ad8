import Overtos.Loader.Descriptors

/-! `R_ARM_RELATIVE` and `R_ARM_ABS32` in an FDPIC program: the word in place is translated through
the loadmap. -/
namespace Overtos.Loader
open Word Memory Traced

section
variable (A : FdpicArgs) (X : Job)

def Phdr.loadAddr (P : Plan) (p : Phdr) : ℕ :=
  if p.IsExec then
    if A.copyText then wrap 32 A.region.addr else wrap 32 (A.image.addr + p.off)
  else wrap 32 (A.word (fdBase A P.segs + wrap 32 (p.vaddr + 2 ^ 32 - P.segs.rwLo)))

def Phdr.runtime (P : Plan) (p : Phdr) (v : ℕ) : ℕ := wrap 32 (p.loadAddr A P + (v - p.vaddr))

def Phdr.Holds (p : Phdr) (v : ℕ) : Prop := p.IsLoad ∧ p.vaddr ≤ v ∧ v < p.vaddr + p.memsz

instance (p : Phdr) (v : ℕ) : Decidable (p.Holds v) := inferInstanceAs (Decidable (_ ∧ _))

def Meant (h : Header) (m : Mem) (i v : ℕ) : Prop :=
  (phdr A h m i).Holds v ∨ (phdr A h m i).IsLoad ∧
    v = (phdr A h m i).vaddr + (phdr A h m i).memsz ∧ ∀ j < h.phnum, ¬(phdr A h m j).Holds v

instance (h : Header) (m : Mem) (i v : ℕ) : Decidable (Meant A h m i v) :=
  inferInstanceAs (Decidable (_ ∨ _))

variable (t : Pool × Mem)

def relAddr : ℕ := A.word (X.rel0 + t.1.o)

def relOffset : ℕ := load t.2 (relAddr A X t) 4

def relKind : Option FdpicReloc := FdpicReloc.ofType (load t.2 (relAddr A X t + 4) 4 % 256)

def relSym : ℕ := load t.2 (relAddr A X t + 4) 4 / 256

def relPlace : ℕ := rt A X.plan t.2 (relOffset A X t)

def relValue : ℕ :=
  if relKind A X t = some .abs32 ∧ X.dyn.symV ≠ 0 then
    load t.2 (symAddr A X t.2 (relSym A X t) + 4) 4
  else 0

def relWord : ℕ := load t.2 (relPlace A X t) 4

def relTarget : ℕ := wrap 32 (relValue A X t + relWord A X t)

def Rebases (p : Phdr) : Prop :=
  (relKind A X t = some .relative ∨ relKind A X t = some .abs32) ∧ p.IsData ∧
    p.vaddr ≤ relOffset A X t ∧ relOffset A X t + 4 ≤ p.vaddr + p.memsz

instance (p : Phdr) : Decidable (Rebases A X t p) := inferInstanceAs (Decidable (_ ∧ _))

def Covers (P : Plan) (m : Mem) (v k : ℕ) : Prop :=
  load m (entryAddr A P k + 4) 4 ≤ v ∧
    v < wrap 32 (load m (entryAddr A P k + 4) 4 + load m (entryAddr A P k + 8) 4)

instance (P : Plan) (m : Mem) (v k : ℕ) : Decidable (Covers A P m v k) :=
  inferInstanceAs (Decidable (_ ∧ _))

def coverFrom (P : Plan) (m : Mem) (v : ℕ) : ℕ → ℕ → Option ℕ
  | 0, _ => none
  | n + 1, i => if Covers A P m v i then some i else coverFrom P m v n (i + 1)

/-- The loadmap moves the word in place by the distance from `p`'s link-time to its runtime address
and the symbol's value. -/
def MovesAlike (p : Phdr) : Prop :=
  match coverFrom A X.plan t.2 (relWord A X t) X.plan.segs.nload 0 with
  | some k => wrap 32 (load t.2 (entryAddr A X.plan k) 4 + p.vaddr) =
      wrap 32 (p.loadAddr A X.plan + load t.2 (entryAddr A X.plan k + 4) 4 + relValue A X t)
  | none => p.runtime A X.plan (relTarget A X t) = 0

def TurnRebased (m : Mem) (fuel : ℕ) : Prop :=
  ∀ j < X.plan.header.phnum, Rebases A X t (phdr A X.plan.header m j) →
    relPlace A X t = (phdr A X.plan.header m j).runtime A X.plan (relOffset A X t) ∧
    relPlace A X t ≠ 0 ∧
    ∀ i < X.plan.header.phnum, Meant A X.plan.header m i (relTarget A X t) →
      load (relocStep A X fuel t.1 t.2).mem (relPlace A X t) 4 =
        (phdr A X.plan.header m i).runtime A X.plan (relTarget A X t)

def TurnMovable (m : Mem) : Prop :=
  ∀ j < X.plan.header.phnum, Rebases A X t (phdr A X.plan.header m j) →
    relPlace A X t = (phdr A X.plan.header m j).runtime A X.plan (relOffset A X t) ∧
    relPlace A X t ≠ 0 ∧
    ∀ i < X.plan.header.phnum, Meant A X.plan.header m i (relTarget A X t) →
      MovesAlike A X t (phdr A X.plan.header m i)

end

section
variable {A : FdpicArgs} {X : Job} {P : Plan} {m : Mem} {t : Pool × Mem} {fuel : ℕ}

variable {v n i k : ℕ} {Q : ℕ → Mem → Prop}

theorem ends_fdpicRtFrom : Ends (fdpicRtFrom A P v n i) m Q ↔ Q (rtFrom A P m v n i) m := by
  induction n generalizing i with
  | zero => exact ends_pure
  | succ n ih =>
    simp only [fdpicRtFrom, rtFrom, ends_bind, ends_get, ends_ite, ends_pure, ih]
    split_ifs with hc
    · simp [hc]
    · simp only [hc, false_imp_iff, not_false_eq_true, true_imp_iff, true_and]

@[simp] theorem ends_fdpicRt : Ends (fdpicRt A P v) m Q ↔ Q (rt A P m v) m := ends_fdpicRtFrom

theorem rtFrom_eq : rtFrom A P m v n i =
    ((coverFrom A P m v n i).map fun k => wrap 32 (load m (entryAddr A P k) 4 +
      (v - load m (entryAddr A P k + 4) 4))).getD 0 := by
  induction n generalizing i with
  | zero => rfl
  | succ n ih =>
    change (if Covers A P m v i then _ else _) = _
    rw [coverFrom]
    split_ifs with hc
    · rfl
    · exact ih

theorem coverFrom_some (h : coverFrom A P m v n i = some k) : k < i + n ∧ Covers A P m v k := by
  induction n generalizing i with
  | zero => cases h
  | succ n ih =>
    rw [coverFrom] at h
    split_ifs at h with hc
    · cases h
      exact ⟨by omega, hc⟩
    · obtain ⟨hlt, hk⟩ := ih h
      exact ⟨by omega, hk⟩

theorem coverFrom_none (h : coverFrom A P m v n i = none) (hik : i ≤ k) (hk : k < i + n) :
    ¬Covers A P m v k := by
  induction n generalizing i with
  | zero => omega
  | succ n ih =>
    rw [coverFrom] at h
    split_ifs at h with hc
    · rcases Nat.eq_or_lt_of_le hik with rfl | hlt
      · exact hc
      · exact ih h hlt (by omega)

theorem rt_lt (v : ℕ) : rt A P m v < 2 ^ 32 := by
  rw [rt, rtFrom_eq]
  cases coverFrom A P m v P.segs.nload 0 with
  | none => exact Nat.two_pow_pos 32
  | some k => exact wrap_lt _ _

theorem Meant.le {h : Header} (hm : Meant A h m i v) : (phdr A h m i).vaddr ≤ v := by
  rcases hm with hm | ⟨-, hm, -⟩
  · exact hm.2.1
  · exact hm ▸ Nat.le_add_right _ _

theorem rt_relWord_iff {p : Phdr} (h : p.vaddr ≤ relTarget A X t) :
    rt A X.plan t.2 (relWord A X t) = p.runtime A X.plan (relTarget A X t) ↔
      MovesAlike A X t p := by
  rw [rt, rtFrom_eq, MovesAlike]
  cases hc : coverFrom A X.plan t.2 (relWord A X t) X.plan.segs.nload 0 with
  | none => exact eq_comm
  | some k =>
    have hle := (coverFrom_some hc).2.1
    simp only [Option.map_some, Option.getD_some, Phdr.runtime]
    unfold relTarget wrap at *
    generalize load t.2 (entryAddr A X.plan k) 4 = a at *
    generalize load t.2 (entryAddr A X.plan k + 4) 4 = b at *
    omega

theorem relocStep_rebase (hk : relKind A X t = some .relative ∨ relKind A X t = some .abs32)
    (h0 : relPlace A X t ≠ 0) : load (relocStep A X fuel t.1 t.2).mem (relPlace A X t) 4 =
      rt A X.plan t.2 (relWord A X t) := by
  have hends : Ends (relocStep A X fuel t.1) t.2 fun _ m' =>
      load m' (relPlace A X t) 4 = rt A X.plan t.2 (relWord A X t) := by
    simp only [relocStep, applyEntry, ends_bind, ends_get, ends_fdpicRt]
    rw [if_neg (show rt A X.plan t.2 (load t.2 (A.word (X.rel0 + t.1.o)) 4) ≠ 0 from h0)]
    have hlt : rt A X.plan t.2 (relWord A X t) < 256 ^ 4 := rt_lt _
    have hstore : load (store t.2 (relPlace A X t) 4 (rt A X.plan t.2 (relWord A X t)))
        (relPlace A X t) 4 = rt A X.plan t.2 (relWord A X t) := by
      rw [load_store_self, Nat.mod_eq_of_lt hlt]
    unfold relKind relAddr at hk
    rcases hk with hk | hk <;> rw [hk] <;>
      simp only [FdpicReloc.apply, ends_bind, ends_get, ends_fdpicRt, ends_put, ends_pure] <;>
      exact hstore
  obtain ⟨_, -, h⟩ := hends
  exact h

theorem turnRebased_iff : TurnRebased A X t m fuel ↔ TurnMovable A X t m := by
  unfold TurnRebased TurnMovable
  refine forall₃_congr fun j _ hj => and_congr_right fun _ => and_congr_right fun h0 => ?_
  refine forall₃_congr fun i _ hi => ?_
  rw [relocStep_rebase hj.1 h0]
  exact rt_relWord_iff hi.le

end

def relocTurns (A : FdpicArgs) (fuel : ℕ) (m : Mem) (X : Job) : List (Pool × Mem) :=
  turns (Relocating A X) (relocStep A X fuel) fuel ⟨0, 0⟩ (fdpicPrepare A fuel m).mem

def RebaseExact (A : FdpicArgs) (fuel : ℕ) (m : Mem) : Prop :=
  Post (fdpicRun A fuel) m fun r _ => ∀ t ∈ relocTurns A fuel m r.1, TurnRebased A r.1 t m fuel

theorem rebase_exact_iff (A : FdpicArgs) (fuel : ℕ) (m : Mem) : RebaseExact A fuel m ↔
    Post (fdpicRun A fuel) m fun r _ => ∀ t ∈ relocTurns A fuel m r.1, TurnMovable A r.1 t m :=
  forall₂_congr fun _ _ => forall₂_congr fun _ _ => turnRebased_iff

def IsEntryOf (A : FdpicArgs) (P : Plan) (m : Mem) (k : ℕ) (p : Phdr) : Prop :=
  load m (entryAddr A P k) 4 = p.loadAddr A P ∧ load m (entryAddr A P k + 4) 4 = p.vaddr ∧
    load m (entryAddr A P k + 8) 4 = p.memsz

structure LoadmapIntact (A : FdpicArgs) (P : Plan) (m m' : Mem) : Prop where
  headers : ∀ i < P.header.phnum, (phdr A P.header m i).IsLoad →
    ∃ k < P.segs.nload, IsEntryOf A P m' k (phdr A P.header m i)
  entries : ∀ k < P.segs.nload, ∃ i < P.header.phnum, (phdr A P.header m i).IsLoad ∧
    IsEntryOf A P m' k (phdr A P.header m i)

section
variable {A : FdpicArgs} {X : Job} {m : Mem} {t : Pool × Mem} {i : ℕ}

/-- While the loadmap is intact and the segments do not overlap, an `R_ARM_RELATIVE` whose word is
inside a segment moves with it. -/
theorem movesAlike_of_inside (hmap : LoadmapIntact A X.plan m t.2)
    (hdis : ∀ i < X.plan.header.phnum, ∀ j < X.plan.header.phnum, i ≠ j → ∀ v,
      ¬((phdr A X.plan.header m i).Holds v ∧ (phdr A X.plan.header m j).Holds v))
    (hend : ∀ i < X.plan.header.phnum, (phdr A X.plan.header m i).IsLoad →
      (phdr A X.plan.header m i).vaddr + (phdr A X.plan.header m i).memsz < 2 ^ 32)
    (hk : relKind A X t = some .relative) (hi : i < X.plan.header.phnum)
    (hin : (phdr A X.plan.header m i).Holds (relWord A X t)) :
    MovesAlike A X t (phdr A X.plan.header m i) := by
  have hval : relValue A X t = 0 := if_neg fun h => by simp [hk] at h
  rw [MovesAlike, hval]
  cases hc : coverFrom A X.plan t.2 (relWord A X t) X.plan.segs.nload 0 with
  | none =>
    obtain ⟨k, hlt, -, hv, hsz⟩ := hmap.headers i hi hin.1
    refine absurd ?_ (coverFrom_none hc (Nat.zero_le k) (by omega))
    unfold Covers
    rw [hv, hsz, wrap_of_lt (hend i hi hin.1)]
    exact hin.2
  | some k =>
    obtain ⟨hlt, hcov⟩ := coverFrom_some hc
    obtain ⟨j, hj, hload, haddr, hv, hsz⟩ := hmap.entries k (by omega)
    unfold Covers at hcov
    rw [hv, hsz, wrap_of_lt (hend j hj hload)] at hcov
    have hij : i = j := by
      by_contra hne
      exact hdis i hi j hj hne _ ⟨hin, hload, hcov⟩
    subst hij
    dsimp only
    rw [haddr, hv, Nat.add_zero]

end

def endImage : Mem := layOut 0x1000
  [(0, 4, 0x464c457f), (4, 1, 1), (7, 1, 65), (16, 2, 3), (18, 2, 40), (28, 4, 52),
    (42, 2, 32), (44, 2, 3),
    (52, 4, 1), (68, 4, 236), (72, 4, 236), (76, 4, 5),
    (84, 4, 1), (88, 4, 228), (92, 4, 0x1000), (100, 4, 8), (104, 4, 8), (108, 4, 6),
    (116, 4, 2), (124, 4, 148), (136, 4, 32),
    (148, 4, 17), (152, 4, 180), (156, 4, 18), (160, 4, 16), (164, 4, 6), (168, 4, 196),
    (180, 4, 0x1000), (184, 4, 23), (188, 4, 0x1004), (192, 4, 258),
    (216, 4, 0x10), (226, 2, 1),
    (228, 4, 0x1008)]

theorem endRegion_fits : 0x2000 + 64 < 2 ^ Arch.arm32.bits := by decide

def endArgs : FdpicArgs where
  arch := .arm32
  image := ⟨0x1000, 236⟩
  region := ⟨0x2000, 64⟩
  imageFits := by decide
  regionFits := endRegion_fits
  apart := by decide
  isInterp := false
  copyText := false

theorem rebase_fails : (fdpicRun endArgs 8 endImage).result.toBool = true ∧
    load (fdpicRun endArgs 8 endImage).mem 0x2000 4 = 0 ∧
    load (fdpicRun endArgs 8 endImage).mem 0x2004 4 = 0x1000 ∧
    ¬RebaseExact endArgs 8 endImage := by
  have hrun : (fdpicRun endArgs 8 endImage).result.toBool = true := by decide +kernel
  obtain ⟨r, hr⟩ := ok_of_toBool hrun
  refine ⟨hrun, by decide +kernel, by decide +kernel, fun h => ?_⟩
  have hbad : (fdpicRun endArgs 8 endImage).result.toOption.all (fun r =>
      1 < r.1.plan.header.phnum ∧ ∃ t ∈ relocTurns endArgs 8 endImage r.1,
      Rebases endArgs r.1 t (phdr endArgs r.1.plan.header endImage 1) ∧
      Meant endArgs r.1.plan.header endImage 1 (relTarget endArgs r.1 t) ∧
      load (relocStep endArgs r.1 8 t.1 t.2).mem (relPlace endArgs r.1 t) 4 ≠
        (phdr endArgs r.1.plan.header endImage 1).runtime endArgs r.1.plan
          (relTarget endArgs r.1 t)) = true := by
    decide +kernel
  rw [hr] at hbad
  obtain ⟨hphnum, t, ht, hreb, hmeant, hne⟩ := of_decide_eq_true hbad
  exact hne ((h r hr t ht 1 hphnum hreb).2.2 1 hphnum hmeant)

end Overtos.Loader
