import Overtos.Audio.Cycle

/-! Where a build puts the buffers: size, separation, storage and alignment. -/
namespace Overtos.Audio
open Word Circular

def SampleFmt.alignment : SampleFmt → ℕ
  | .s16 => 2
  | .s32 => 4
  | .f32 => 4
  | .other => 1

def capacity (arch : Arch) (g : Graph) : ℕ :=
  if 0 < g.bufStorageSize then g.bufStorageSize else (totalSize arch g g.nodeCount).getD 0

structure LaidOut (arch : Arch) (g : Graph) : Prop where
  size : ∀ i < g.nodeCount, (g.nodes i).type ≠ .sink → reserved g i =
    g.framesPerPeriod * (g.nodes i).outFmt.channels *
      oveAudioSampleSize (g.nodes i).outFmt.sampleFmt
  apart : ∀ i < g.nodeCount, ∀ j < g.nodeCount, i ≠ j →
    (g.nodes i).type ≠ .sink → (g.nodes j).type ≠ .sink →
      (g.buffers i).data + fullSize g (g.buffers i) ≤ (g.buffers j).data ∨
        (g.buffers j).data + fullSize g (g.buffers j) ≤ (g.buffers i).data
  inside : ∀ i < g.nodeCount, (g.nodes i).type ≠ .sink → g.bufStorage ≤ (g.buffers i).data ∧
    (g.buffers i).data + fullSize g (g.buffers i) ≤ g.bufStorage + capacity arch g
  aligned : ∀ i < g.nodeCount, (g.nodes i).type ≠ .sink →
    (g.buffers i).data % (g.nodes i).outFmt.sampleFmt.alignment = 0

def OffsetsAligned (arch : Arch) (g : Graph) : Prop :=
  ∀ i < g.nodeCount, (g.nodes i).type ≠ .sink →
    oveAudioSampleSize (g.nodes i).outFmt.sampleFmt = 4 → (totalSize arch g i).getD 0 % 4 = 0

section

variable {arch : Arch} {g : Graph}

theorem reserved_even (g : Graph) (i : ℕ) : reserved g i % 2 = 0 := by
  unfold reserved
  split_ifs
  · rfl
  · have heven : oveAudioSampleSize (g.nodes i).outFmt.sampleFmt % 2 = 0 := by
      cases (g.nodes i).outFmt.sampleFmt <;> rfl
    rw [bufByteSize, wrap, Nat.mod_mod_of_dvd _ (by norm_num), Nat.mul_mod, heven, Nat.mul_zero]

theorem totalSize_even {n total : ℕ} (h : totalSize arch g n = some total) : total % 2 = 0 := by
  induction n generalizing total with
  | zero =>
    cases h
    rfl
  | succ n ih =>
    obtain ⟨before, hbefore, rfl⟩ := totalSize_succ h
    have hbytes := ih hbefore
    have hnext := reserved_even g n
    omega

theorem aligned_iff {base offset : ℕ} (hbase : base % 4 = 0) (heven : offset % 2 = 0)
    (fmt : SampleFmt) :
    (base + offset) % fmt.alignment = 0 ↔ (oveAudioSampleSize fmt = 4 → offset % 4 = 0) := by
  cases fmt <;> simp [SampleFmt.alignment, oveAudioSampleSize] <;> omega

end

section

variable {arch : Arch} {g : Graph}

theorem Built.laidOut_iff (hb : Built arch g) (haligned : g.bufStorage % 4 = 0)
    (hroom : ∀ total, totalSize arch g g.nodeCount = some total → total ≤ capacity arch g) :
    LaidOut arch g ↔ SizesExact g ∧ OffsetsAligned arch g := by
  obtain ⟨total, htotal, -⟩ := hb.storage
  have hoffset {i : ℕ} (hi : i < g.nodeCount) : (totalSize arch g i).getD 0 % 2 = 0 := by
    obtain ⟨before, hbefore⟩ := totalSize_isSome htotal hi.le
    rw [hbefore]
    exact totalSize_even hbefore
  constructor
  · intro h
    constructor
    · intro i hi hsink
      rw [← h.size i hi hsink, reserved, if_neg hsink]
      exact wrap_lt 64 _
    · intro i hi hsink
      have hdata := h.aligned i hi hsink
      rw [(hb.data_of_not_sink hi hsink).1] at hdata
      exact (aligned_iff haligned (hoffset hi) _).mp hdata
  · rintro ⟨hexact, hoffsets⟩
    have hsize : ∀ i < g.nodeCount, (g.nodes i).type ≠ .sink → reserved g i =
        g.framesPerPeriod * (g.nodes i).outFmt.channels *
          oveAudioSampleSize (g.nodes i).outFmt.sampleFmt := by
      intro i hi hsink
      rw [reserved, if_neg hsink, hexact.reserved_eq hi hsink]
    refine ⟨hsize, ?_, ?_, ?_⟩
    · intro i hi j hj hne _ _
      rcases Nat.lt_or_gt_of_ne hne with hlt | hgt
      · exact hb.apart hexact hi hj hlt
      · exact (hb.apart hexact hj hi hgt).symm
    · intro i hi hsink
      obtain ⟨hdata, hfull⟩ := hb.data_of_not_sink hi hsink
      have hle := totalSize_mono htotal hi
      have hcap := hroom total htotal
      rw [hsize i hi hsink] at hle
      rw [hdata, hfull]
      omega
    · intro i hi hsink
      rw [(hb.data_of_not_sink hi hsink).1]
      exact (aligned_iff haligned (hoffset hi) _).mpr (hoffsets i hi hsink)

end

/-- A successful build lays the buffers out right exactly if their sizes are 64-bit numbers and
four-byte samples follow multiples of four bytes. -/
theorem buffers_laid_out_iff {arch : Arch} {framesPerPeriod alloc : ℕ} {m m' m'' : Mem}
    {ops : List GraphOp} {configure : Configure} {g g' : Graph}
    (h : graphAfter arch framesPerPeriod m ops = .ok (g, m')) (hstorage : g.bufStorage % 4 = 0)
    (halloc : alloc % 4 = 0)
    (hbuild : oveAudioGraphBuild arch g m' configure alloc = (.ok, g', m'')) :
    LaidOut arch g' ↔ SizesExact g' ∧ OffsetsAligned arch g' := by
  have hinv := build_inv (graphAfter_inv h) m' configure alloc
  obtain ⟨g₁, total, -, -, hconf, htotal, hstored, hg'⟩ := build_ok (congrArg Prod.fst hbuild)
  rw [hbuild] at hinv hg'
  dsimp only at hinv hg'
  have hsame := configureAll_same configure (topoSort g).2.execOrder (topoSort g).2
  rw [hconf] at hsame
  dsimp only at hsame
  have hbase : g₁.bufStorage = g.bufStorage := by
    rw [hsame.rest]
    rfl
  have hready : g'.state ≠ .idle := by
    rw [hg']
    exact nofun
  -- the storage is the caller's or was allocated
  have hfrom : g'.bufStorage = g.bufStorage ∨ g'.bufStorage = alloc := by
    rw [hg', ← hbase]
    simp only [setBuffers, buildStorage]
    split_ifs with _ _ _ hnull
    · exact .inl rfl
    · exact .inl rfl
    · exact .inr hnull.symm
    · exact .inr rfl
    · exact .inl rfl
  have hkeep : g'.nodes = g₁.nodes ∧ g'.framesPerPeriod = g₁.framesPerPeriod ∧
      g'.nodeCount = g₁.nodeCount ∧ g'.bufStorageSize = g₁.bufStorageSize := by
    rw [hg']
    simp only [setBuffers, buildStorage]
    split_ifs <;> exact ⟨rfl, rfl, rfl, rfl⟩
  have hsizes := @totalSize_congr arch g₁ g' hkeep.1 hkeep.2.1
  apply (hinv.built hready).laidOut_iff
  · rcases hfrom with hown | hnew
    · rw [hown]
      exact hstorage
    · rw [hnew]
      exact halloc
  · intro t ht
    rw [hsizes, hkeep.2.2.1, htotal] at ht
    cases ht
    unfold capacity
    split_ifs with hsize
    · rw [hkeep.2.2.2] at hsize ⊢
      exact buildStorage_room hstored hsize
    · rw [hsizes, hkeep.2.2.1, htotal]
      exact le_rfl

def chain (framesPerPeriod : ℕ) (first second : Fmt) : Rc × Graph × Mem :=
  let s := [.addNode .source, .addNode .processor, .connect 0 1].foldl (graphStep .arm32)
    (.zero framesPerPeriod, fun _ => 0)
  oveAudioGraphBuild .arm32 s.1 s.2 (fun i _ _ => (.ok, if i = 0 then first else second)) 4096

theorem stereo_laid_out : (chain 64 ⟨48000, 2, .s16⟩ ⟨48000, 2, .s32⟩).1 = .ok ∧
    LaidOut .arm32 (chain 64 ⟨48000, 2, .s16⟩ ⟨48000, 2, .s32⟩).2.1 := by
  have hok : (chain 64 ⟨48000, 2, .s16⟩ ⟨48000, 2, .s32⟩).1 = .ok := by decide +kernel
  have hfits : SizesExact (chain 64 ⟨48000, 2, .s16⟩ ⟨48000, 2, .s32⟩).2.1 ∧
      OffsetsAligned .arm32 (chain 64 ⟨48000, 2, .s16⟩ ⟨48000, 2, .s32⟩).2.1 := by
    unfold SizesExact OffsetsAligned
    decide +kernel
  refine ⟨hok, (@buffers_laid_out_iff .arm32 64 4096 (fun _ => 0) _ _
    [.addNode .source, .addNode .processor, .connect 0 1] _ _ _ rfl (by decide +kernel) rfl
    (Prod.ext hok rfl)).mpr hfits⟩

theorem buffers_misplaced :
    ((chain 1 ⟨48000, 1, .s16⟩ ⟨48000, 1, .s32⟩).1 = .ok ∧
      ¬LaidOut .arm32 (chain 1 ⟨48000, 1, .s16⟩ ⟨48000, 1, .s32⟩).2.1) ∧
    ((chain (2 ^ 31) ⟨48000, 2 ^ 31, .s32⟩ ⟨48000, 2 ^ 31, .s32⟩).1 = .ok ∧
      ¬LaidOut .arm32 (chain (2 ^ 31) ⟨48000, 2 ^ 31, .s32⟩ ⟨48000, 2 ^ 31, .s32⟩).2.1) := by
  refine ⟨⟨by decide +kernel, fun h => ?_⟩, by decide +kernel, fun h => ?_⟩
  · exact absurd (h.aligned 1 (by decide +kernel) (by decide +kernel)) (by decide +kernel)
  · exact absurd (h.size 0 (by decide +kernel) (by decide +kernel)) (by decide +kernel)

end Overtos.Audio
