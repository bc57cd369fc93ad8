import Overtos.Loader.Descriptors

/-! Where an FDPIC load puts things: the second capacity check misses the text of a `copy_text`
load. -/
namespace Overtos.Loader
open Word Memory Traced List

structure Area where
  start : ℕ
  len : ℕ
  deriving DecidableEq

def Area.stop (a : Area) : ℕ := a.start + a.len

def Area.Apart (a b : Area) : Prop := a.len = 0 ∨ b.len = 0 ∨ a.stop ≤ b.start ∨ b.stop ≤ a.start

def Phdr.Sound (p : Phdr) (imageSize : ℕ) : Prop :=
  p.filesz ≤ p.memsz ∧ p.off + p.filesz ≤ imageSize ∧ p.vaddr + p.memsz < 2 ^ 32

def Phdr.IsText (p : Phdr) : Prop := p.IsLoad ∧ p.IsExec

def Phdr.Clear (p q : Phdr) : Prop := p.vaddr + p.memsz ≤ q.vaddr ∨ q.vaddr + q.memsz ≤ p.vaddr

instance (p : Phdr) (n : ℕ) : Decidable (p.Sound n) := inferInstanceAs (Decidable (_ ∧ _))

instance (p : Phdr) : Decidable p.IsText := inferInstanceAs (Decidable (_ ∧ _))

instance (p q : Phdr) : Decidable (p.Clear q) := inferInstanceAs (Decidable (_ ∨ _))

section
variable (A : FdpicArgs) (m : Mem)

def textFilesz (h : Header) : ℕ → ℕ
  | 0 => 0
  | n + 1 =>
    if (phdr A h m n).IsText then (phdr A h m n).filesz
    else textFilesz h n

def fixedAreas (P : Plan) : List Area :=
  (if A.copyText then [⟨0, textFilesz A m P.header P.header.phnum⟩] else []) ++
    [⟨textA A P.segs, P.segs.rwSpan⟩, ⟨textA A P.segs + P.segs.rwA, P.segs.loadmapSz⟩]

def poolAreas (P : Plan) (used : ℕ) : List Area :=
  (range (used / 8)).map fun j => ⟨textA A P.segs + P.segs.poolOff + 8 * j, 8⟩

structure WellFormed : Prop where
  loads : ∀ i < (headerOf A m).phnum, (phdr A (headerOf A m) m i).IsLoad →
    (phdr A (headerOf A m) m i).Sound A.image.size
  oneText : ∃ i < (headerOf A m).phnum, (phdr A (headerOf A m) m i).IsText ∧
    ∀ j < (headerOf A m).phnum, (phdr A (headerOf A m) m j).IsText → j = i
  apart : ∀ i < (headerOf A m).phnum, ∀ j < (headerOf A m).phnum, i ≠ j →
    (phdr A (headerOf A m) m i).IsData → (phdr A (headerOf A m) m j).IsData →
    (phdr A (headerOf A m) m i).Clear (phdr A (headerOf A m) m j)

structure LayoutSound (P : Plan) (used : ℕ) (prog : Flat) : Prop where
  apart : (fixedAreas A m P ++ poolAreas A P used).Pairwise Area.Apart
  inside : ∀ a ∈ fixedAreas A m P ++ poolAreas A P used, a.stop ≤ A.region.size
  holds : ∀ i < P.header.phnum, (phdr A P.header m i).IsData →
    P.segs.rwLo ≤ (phdr A P.header m i).vaddr ∧ (phdr A P.header m i).vaddr +
      (phdr A P.header m i).memsz ≤ P.segs.rwLo + P.segs.rwSpan
  covered : ∀ a ∈ fixedAreas A m P ++ poolAreas A P used, a.stop ≤ prog.regionUsed
  bounded : prog.regionUsed ≤ A.region.size

def LayoutFits (P : Plan) (n : ℕ) : Prop :=
  let total := textA A P.segs +
    roundUp 8 (roundUp 4 P.segs.rwSpan + (4 + P.segs.nload * 12)) + 8 * n
  (A.copyText = true →
    textFilesz A m P.header P.header.phnum = 0 ∨ P.segs.textSz + 15 < 2 ^ 32) ∧
  total ≤ A.region.size ∧ total < 2 ^ 32

instance (P : Plan) (n : ℕ) : Decidable (LayoutFits A m P n) := inferInstanceAs (Decidable (_ ∧ _))

end

section
variable {A : FdpicArgs} {m : Mem} {P : Plan} (s : Segments)

theorem Segments.rwA_eq : s.rwA = wrap 32 (s.rwSpan + 3) / 4 * 4 :=
  land_comp_mask (k := 2) (by omega) (wrap_lt 32 _)

theorem Segments.poolOff_eq : s.poolOff = wrap 32 (wrap 32 (s.rwA + s.loadmapSz) + 7) / 8 * 8 :=
  land_comp_mask (k := 3) (by omega) (wrap_lt 32 _)

theorem textA_eq : textA A s = if A.copyText then wrap 32 (s.textSz + 15) / 16 * 16 else 0 := by
  have hm := land_comp_mask (w := 32) (k := 4) (by omega) (wrap_lt 32 (s.textSz + 15))
  rw [textA]
  exact if_congr Iff.rfl hm rfl

end

section
variable {A : FdpicArgs} {h : Header} {m : Mem}

theorem scan_holds {n : ℕ} (hl : ∀ i < n, (phdr A h m i).IsLoad →
    (phdr A h m i).vaddr + (phdr A h m i).memsz < 2 ^ 32) :
    ∀ i < n, (phdr A h m i).IsData →
      (scan A h m n).rwLo ≤ (phdr A h m i).vaddr ∧
      (phdr A h m i).vaddr + (phdr A h m i).memsz ≤ (scan A h m n).rwHi := by
  induction n with
  | zero => exact fun i hi => absurd hi (by omega)
  | succ n ih =>
    intro i hi hdata
    have hold := fun hlt => ih (fun j hj => hl j (by omega)) i hlt hdata
    rw [scan]
    by_cases hn : (phdr A h m n).IsLoad
    · by_cases hx : (phdr A h m n).IsExec
      · have hne : i ≠ n := fun e => hdata.2 (e ▸ hx)
        obtain ⟨-, e2, e3, -⟩ := Segments.step_exec (s := scan A h m n) hn hx
        rw [e2, e3]
        exact hold (by omega)
      · obtain ⟨-, e2, e3, -⟩ := Segments.step_data (s := scan A h m n) ⟨hn, hx⟩
        rw [e2, e3, wrap_of_lt (hl n (by omega) hn)]
        rcases Nat.lt_succ_iff_lt_or_eq.mp hi with hlt | rfl
        · have := hold hlt
          omega
        · omega
    · have hne : i ≠ n := fun e => hn (e ▸ hdata.1)
      obtain ⟨-, e2, e3, -⟩ := Segments.step_other (s := scan A h m n) hn
      rw [e2, e3]
      exact hold (by omega)

theorem textFilesz_le {n : ℕ} (hl : ∀ i < n, (phdr A h m i).IsLoad →
    (phdr A h m i).filesz ≤ (phdr A h m i).memsz) :
    textFilesz A m h n ≤ (scan A h m n).textSz := by
  induction n with
  | zero => exact le_rfl
  | succ n ih =>
    have hold := ih fun j hj => hl j (by omega)
    rw [scan, textFilesz]
    by_cases hn : (phdr A h m n).IsLoad
    · by_cases hx : (phdr A h m n).IsExec
      · rw [if_pos ⟨hn, hx⟩, (Segments.step_exec hn hx).1]
        exact hl n (by omega) hn
      · rw [if_neg fun hc => hx hc.2, (Segments.step_data ⟨hn, hx⟩).1]
        exact hold
    · rw [if_neg fun hc => hn hc.1, (Segments.step_other hn).1]
      exact hold

end

section
variable {A : FdpicArgs} {m : Mem} {P : Plan} {n : ℕ}

theorem mem_fixedAreas {a : Area} : a ∈ fixedAreas A m P ↔
    (A.copyText = true ∧ a = ⟨0, textFilesz A m P.header P.header.phnum⟩) ∨
    a = ⟨textA A P.segs, P.segs.rwSpan⟩ ∨
    a = ⟨textA A P.segs + P.segs.rwA, P.segs.loadmapSz⟩ := by
  unfold fixedAreas
  split_ifs with hc <;> simp [hc]

theorem mem_poolAreas {a : Area} : a ∈ poolAreas A P (8 * n) ↔
    ∃ j < n, (⟨textA A P.segs + P.segs.poolOff + 8 * j, 8⟩ : Area) = a := by
  simp [poolAreas]

theorem apart_parts (h : (fixedAreas A m P ++ poolAreas A P (8 * n)).Pairwise Area.Apart) :
    Area.Apart ⟨textA A P.segs, P.segs.rwSpan⟩
      ⟨textA A P.segs + P.segs.rwA, P.segs.loadmapSz⟩ ∧
    (A.copyText = true →
      Area.Apart ⟨0, textFilesz A m P.header P.header.phnum⟩ ⟨textA A P.segs, P.segs.rwSpan⟩ ∧
      Area.Apart ⟨0, textFilesz A m P.header P.header.phnum⟩
        ⟨textA A P.segs + P.segs.rwA, P.segs.loadmapSz⟩) ∧
    ∀ j < n, Area.Apart ⟨textA A P.segs + P.segs.rwA, P.segs.loadmapSz⟩
      ⟨textA A P.segs + P.segs.poolOff + 8 * j, 8⟩ := by
  rw [pairwise_append] at h
  obtain ⟨hfix, -, hcross⟩ := h
  refine ⟨?_, fun hc => ?_, fun j hj => ?_⟩
  · rw [fixedAreas, pairwise_append] at hfix
    simpa using hfix.2.1
  · simp only [fixedAreas, hc, if_true, cons_append, nil_append,
      pairwise_cons, mem_cons, forall_eq_or_imp] at hfix
    exact ⟨hfix.1.1, hfix.1.2.1⟩
  · exact hcross _ (mem_fixedAreas.mpr (.inr (.inr rfl))) _ (mem_poolAreas.mpr ⟨j, hj, rfl⟩)

theorem apart_of_fixed (h : (fixedAreas A m P).Pairwise Area.Apart)
    (hstop : ∀ a ∈ fixedAreas A m P, a.stop ≤ textA A P.segs + P.segs.poolOff) :
    (fixedAreas A m P ++ poolAreas A P (8 * n)).Pairwise Area.Apart := by
  rw [pairwise_append]
  refine ⟨h, ?_, ?_⟩
  · rw [poolAreas, pairwise_map]
    refine pairwise_lt_range.imp fun {i j} hij => ?_
    unfold Area.Apart Area.stop
    dsimp only
    omega
  · rintro a ha b hb
    obtain ⟨j, -, rfl⟩ := mem_poolAreas.mp hb
    have := hstop a ha
    unfold Area.Apart
    dsimp only
    omega

end

section
variable {A : FdpicArgs} {m : Mem} {P : Plan} {n : ℕ} {prog : Flat}

theorem rwSpan_lt (hP : Planned A m P) : P.segs.rwSpan < 2 ^ 32 := by
  have := hP.words.rwHi
  unfold Segments.rwSpan
  split_ifs <;> omega

theorem textA_cases : textA A P.segs < 2 ^ 32 ∧
    (A.copyText = true → textA A P.segs = (P.segs.textSz + 15) % 2 ^ 32 / 16 * 16) := by
  rw [textA_eq]
  unfold wrap
  split_ifs with hc
  · exact ⟨by omega, fun _ => rfl⟩
  · exact ⟨by omega, fun h => absurd h hc⟩

theorem LayoutSound.fits (hP : Planned A m P)
    (hu : prog.regionUsed = wrap 32 (textA A P.segs + P.segs.poolOff + 8 * n))
    (S : LayoutSound A m P (8 * n) prog) : LayoutFits A m P n := by
  have hR := rwSpan_lt hP
  obtain ⟨hT, hTc⟩ := textA_cases (A := A) (P := P)
  have ha := P.segs.rwA_eq
  have hl := hP.loadmapSz
  have hl1 := hP.nload
  have hl2 := hP.nload_lt
  have hq := P.segs.poolOff_eq
  have hts := hP.words.textSz
  obtain ⟨hRL, hText, hLD⟩ := apart_parts S.apart
  have hlm := S.covered _ (mem_append_left _ (mem_fixedAreas.mpr (.inr (.inr rfl))))
  have hlast : 0 < n →
      textA A P.segs + P.segs.poolOff + 8 * (n - 1) + 8 ≤ prog.regionUsed := fun h0 =>
    S.covered _ (mem_append_right _ (mem_poolAreas.mpr ⟨n - 1, by omega, rfl⟩))
  have hb := S.bounded
  unfold Area.Apart at hRL hText hLD
  unfold Area.stop at hRL hText hLD hlm
  unfold wrap at ha hq hu
  unfold LayoutFits roundUp
  dsimp only at hRL hText hLD hlm ⊢
  generalize textA A P.segs = T at *
  generalize P.segs.rwSpan = R at *
  generalize P.segs.rwA = a at *
  generalize P.segs.loadmapSz = l at *
  generalize P.segs.poolOff = q at *
  generalize textFilesz A m P.header P.header.phnum = F at *
  have hR3 : R + 3 < 2 ^ 32 := by omega
  have haq : a + l + 7 < 2 ^ 32 := by
    by_contra hc
    have hlt : q < a + l := by omega
    by_cases hj : (a + l - 1 - q) / 8 < n
    · have := hLD _ hj
      omega
    · omega
  have hN : T + q + 8 * n < 2 ^ 32 := by
    by_contra hc
    rcases Nat.eq_zero_or_pos n with h0 | h0
    · subst h0
      omega
    · have := hlast h0
      omega
  refine ⟨fun hc => ?_, ?_, ?_⟩
  · obtain ⟨h1, h2⟩ := hText hc
    have := hTc hc
    omega
  · omega
  · omega

theorem LayoutFits.sound (hP : Planned A m P)
    (hF : textFilesz A m P.header P.header.phnum ≤ P.segs.textSz)
    (hholds : ∀ i < P.header.phnum, (phdr A P.header m i).IsData →
      P.segs.rwLo ≤ (phdr A P.header m i).vaddr ∧
        (phdr A P.header m i).vaddr + (phdr A P.header m i).memsz ≤ P.segs.rwHi)
    (hu : prog.regionUsed = wrap 32 (textA A P.segs + P.segs.poolOff + 8 * n))
    (hfit : LayoutFits A m P n) : LayoutSound A m P (8 * n) prog := by
  have hR := rwSpan_lt hP
  obtain ⟨hT, hTc⟩ := textA_cases (A := A) (P := P)
  have ha := P.segs.rwA_eq
  have hl := hP.loadmapSz
  have hl2 := hP.nload_lt
  have hq := P.segs.poolOff_eq
  have hts := hP.words.textSz
  obtain ⟨htext, hsize, hword⟩ := hfit
  unfold roundUp at hsize hword
  unfold wrap at ha hq
  have hrw : P.segs.rwSpan ≤ P.segs.rwA := by omega
  have hpool : P.segs.rwA + P.segs.loadmapSz ≤ P.segs.poolOff := by omega
  have htotal : textA A P.segs + P.segs.poolOff + 8 * n ≤ A.region.size ∧
      textA A P.segs + P.segs.poolOff + 8 * n < 2 ^ 32 := by omega
  have hcopy : A.copyText = true →
      textFilesz A m P.header P.header.phnum ≤ textA A P.segs := by
    intro hc
    have := hTc hc
    have := htext hc
    omega
  have hused : prog.regionUsed = textA A P.segs + P.segs.poolOff + 8 * n :=
    hu.trans (wrap_of_lt htotal.2)
  have hstop : ∀ a ∈ fixedAreas A m P, a.stop ≤ textA A P.segs + P.segs.poolOff := by
    intro a hmem
    unfold Area.stop
    rcases mem_fixedAreas.mp hmem with ⟨hc, rfl⟩ | rfl | rfl
    · have := hcopy hc
      dsimp only
      omega
    · dsimp only
      omega
    · dsimp only
      omega
  have hpart : (fixedAreas A m P).Pairwise Area.Apart := by
    unfold fixedAreas
    split_ifs with hc
    · have := hcopy hc
      simp [Area.Apart, Area.stop]
      omega
    · simp [Area.Apart, Area.stop]
      omega
  have hall : ∀ a ∈ fixedAreas A m P ++ poolAreas A P (8 * n),
      a.stop ≤ textA A P.segs + P.segs.poolOff + 8 * n := by
    intro a hmem
    rcases mem_append.mp hmem with h | h
    · exact (hstop a h).trans (by omega)
    · obtain ⟨j, hj, rfl⟩ := mem_poolAreas.mp h
      unfold Area.stop
      dsimp only
      omega
  refine ⟨apart_of_fixed hpart hstop, fun a h => (hall a h).trans htotal.1, ?_,
    fun a h => hused ▸ hall a h, hused ▸ htotal.1⟩
  intro i hi hdata
  have := hholds i hi hdata
  unfold Segments.rwSpan
  split_ifs <;> omega

end

theorem fdpicRun_layout {A : FdpicArgs} {m : Mem} {fuel : ℕ} : Post (fdpicRun A fuel) m
    fun r _ => r.1.dyn.relEnt = 8 → Planned A m r.1.plan ∧
      r.2.1.used = 8 * freshCount A r.1 fuel (fdpicPrepare A fuel m).mem ∧
      r.2.2.regionUsed =
        wrap 32 (textA A r.1.plan.segs + r.1.plan.segs.poolOff + r.2.1.used) := by
  simp only [fdpicRun, post_bind, post_pure]
  intro X hX pool hpool
  refine fdpicResult_post.mono fun prog _ hprog hent => ?_
  exact ⟨fdpicPrepare_planned X hX, fdpicRelocate_used hent pool hpool, hprog.2.1⟩

/-- The areas are apart and inside the region, and `region_used` is right, exactly if all areas fit
the region together. -/
theorem fdpic_layout_iff {A : FdpicArgs} {m : Mem} {fuel : ℕ} {X : Job} {pool : Pool}
    {prog : Flat} (hw : WellFormed A m)
    (hok : (fdpicRun A fuel m).result = .ok (X, pool, prog)) (hent : X.dyn.relEnt = 8) :
    LayoutSound A m X.plan pool.used prog ↔
      LayoutFits A m X.plan (freshCount A X fuel (fdpicPrepare A fuel m).mem) := by
  obtain ⟨hP, hused, hu⟩ := fdpicRun_layout (X, pool, prog) hok hent
  dsimp only at hP hused hu
  rw [hused] at hu ⊢
  have hheader := hP.header
  refine ⟨fun S => S.fits hP hu, fun hfit => hfit.sound hP ?_ ?_ hu⟩
  · rw [hP.segs]
    refine textFilesz_le fun i hi hload => ?_
    rw [hheader] at hi hload ⊢
    exact (hw.loads i hi hload).1
  · rw [hP.segs]
    refine scan_holds fun i hi hload => ?_
    rw [hheader] at hi hload ⊢
    exact (hw.loads i hi hload).2.2

def twoSegments : Mem := layOut 0x1000
  [(0, 4, 0x464c457f), (4, 1, 1), (7, 1, 65), (16, 2, 3), (18, 2, 40), (28, 4, 52),
    (42, 2, 32), (44, 2, 2),
    (52, 4, 1), (68, 4, 16), (72, 4, 16), (76, 4, 5),
    (84, 4, 1), (92, 4, 0x1000), (108, 4, 6)]

def roomyArgs : FdpicArgs where
  arch := .arm32
  image := ⟨0x1000, 116⟩
  region := ⟨0x2000, 64⟩
  imageFits := by decide
  regionFits := by decide
  apart := by decide
  isInterp := false
  copyText := true

def tightArgs : FdpicArgs :=
  { roomyArgs with region := ⟨0x2000, 44⟩, regionFits := by decide, apart := by decide }

theorem roomy_layout_sound : WellFormed roomyArgs twoSegments ∧
    ∃ r, (fdpicRun roomyArgs 8 twoSegments).result = .ok r ∧
      LayoutSound roomyArgs twoSegments r.1.plan r.2.1.used r.2.2 := by
  have hw : WellFormed roomyArgs twoSegments :=
    ⟨by decide +kernel, ⟨0, by decide +kernel, by decide +kernel⟩, by decide +kernel⟩
  have hrun : (match (fdpicRun roomyArgs 8 twoSegments).result with
    | .ok r => decide (r.1.dyn.relEnt = 8 ∧ LayoutFits roomyArgs twoSegments r.1.plan
        (freshCount roomyArgs r.1 8 (fdpicPrepare roomyArgs 8 twoSegments).mem))
    | .error _ => false) = true := by decide +kernel
  refine ⟨hw, ?_⟩
  cases hr : (fdpicRun roomyArgs 8 twoSegments).result with
  | error e => rw [hr] at hrun; cases hrun
  | ok r =>
    rw [hr] at hrun
    obtain ⟨hent, hfits⟩ := of_decide_eq_true hrun
    exact ⟨r, rfl, (fdpic_layout_iff hw hr hent).mpr hfits⟩

theorem region_used_exceeds_region : WellFormed tightArgs twoSegments ∧
    ∃ r, (fdpicRun tightArgs 8 twoSegments).result = .ok r ∧ r.1.dyn.relEnt = 8 ∧
      r.2.2.regionUsed = 48 ∧
      ¬LayoutSound tightArgs twoSegments r.1.plan r.2.1.used r.2.2 := by
  have hw : WellFormed tightArgs twoSegments :=
    ⟨by decide +kernel, ⟨0, by decide +kernel, by decide +kernel⟩, by decide +kernel⟩
  have hrun : (match (fdpicRun tightArgs 8 twoSegments).result with
    | .ok r => decide (r.1.dyn.relEnt = 8 ∧ r.2.2.regionUsed = 48)
    | .error _ => false) = true := by decide +kernel
  refine ⟨hw, ?_⟩
  cases hr : (fdpicRun tightArgs 8 twoSegments).result with
  | error e => rw [hr] at hrun; cases hrun
  | ok r =>
    rw [hr] at hrun
    obtain ⟨hent, hused⟩ := of_decide_eq_true hrun
    refine ⟨r, rfl, hent, hused, fun S => ?_⟩
    have hb := S.bounded
    rw [hused] at hb
    exact absurd hb (by decide)

end Overtos.Loader
