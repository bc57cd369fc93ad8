import Overtos.Loader.Accept

/-! How often the loops of an FDPIC load turn, whatever the image declares. -/
namespace Overtos.Loader
open Word Memory Traced

section
variable (A : FdpicArgs) (m : Mem)

structure FdpicBounded : Prop where
  pass1 : ∀ h, (readHeader A m).result = .ok h →
    (rounds (classify A h) h.phnum 0 Segments.none m).length ≤ A.image.size
  pass2 : ∀ P, (fdpicPlan A m).result = .ok P →
    (rounds (placeSegment A P) P.header.phnum 0 ⟨0, 0, 0, 0⟩ (fdpicClear A P m).mem).length ≤
      A.image.size
  loops : Stops (oveLoaderLoadFdpic A A.image.size) m fun e => e ≠ .spin

def dynTag (dp i : ℕ) : ℕ := load m (A.word (dp + wrap 32 (8 * i))) 4

def WalkEnds (P : Plan) (n : ℕ) : Prop :=
  P.segs.dynOff ≠ 0 → rt A P m P.segs.dynOff ≠ 0 →
    (∃ j ≤ n, P.segs.dynSz < wrap 32 (8 * j + 8)) ∨
      ∃ i < n, dynTag A m (rt A P m P.segs.dynOff) i = 0

def StrideEnds (X : Job) (n : ℕ) : Prop :=
  ∃ j ≤ n, X.dyn.relSz < wrap 32 (wrap 32 (j * X.dyn.relEnt) + X.dyn.relEnt)

structure FdpicShort : Prop where
  headers : ∀ h, (readHeader A m).result = .ok h → h.phentsize = 0 → h.phnum ≤ A.image.size
  walk : ∀ P, (fdpicPlan A m).result = .ok P →
    Post (fdpicPlace A P) m fun _ m' => WalkEnds A m' P A.image.size
  strides : Post (fdpicPrepare A A.image.size) m fun X _ =>
    Relocating A X ⟨0, 0⟩ → StrideEnds X A.image.size

end

section
variable {A : FdpicArgs} {P : Plan} {m : Mem} {n : ℕ}

theorem note_done (d : Dynamic) (tag val : ℕ) :
    (d.note tag val).done = true ↔ d.done = true ∨ tag = 0 := by
  unfold Dynamic.note
  split <;> simp_all

def Walked (A : FdpicArgs) (m : Mem) (dp j : ℕ) (d : Dynamic) (m' : Mem) : Prop :=
  m' = m ∧ d.o = wrap 32 (8 * j) ∧ (d.done = true ↔ ∃ i < j, dynTag A m dp i = 0)

theorem walkStep_walked {dp j : ℕ} {d : Dynamic} {m' : Mem} (h : Walked A m dp j d m') :
    Post (walkStep A dp d) m' (Walked A m dp (j + 1)) ∧
      Stops (walkStep A dp d) m' fun e => e ≠ .spin := by
  obtain ⟨rfl, ho, hdone⟩ := h
  refine ⟨?_, by simp [walkStep]⟩
  simp only [walkStep, post_bind, post_get, post_pure]
  refine ⟨rfl, ?_, ?_⟩
  · dsimp only
    rw [ho]
    unfold wrap
    omega
  · rw [note_done, hdone, ho]
    constructor
    · rintro (⟨i, hi, ht⟩ | ht)
      · exact ⟨i, by omega, ht⟩
      · exact ⟨j, by omega, ht⟩
    · rintro ⟨i, hi, ht⟩
      by_cases hij : i = j
      · subst hij
        exact .inr ht
      · exact .inl ⟨i, by omega, ht⟩

theorem walked_start (dp : ℕ) : Walked A m dp 0 Dynamic.start m :=
  ⟨rfl, rfl, by simp [Dynamic.start]⟩

theorem fdpicDynamic_ends : Stops (fdpicDynamic A P n) m (fun e => e ≠ .spin) ↔
    WalkEnds A m P n := by
  unfold fdpicDynamic WalkEnds
  rw [stops_ite, and_iff_left fun _ => stops_pure]
  refine imp_congr_right fun _ => ?_
  simp only [stops_bind, fdpicRt_stops, fdpicRt_post, true_and]
  generalize rt A P m P.segs.dynOff = dp
  constructor
  · intro hstops hdp
    by_contra hno
    obtain ⟨hsize, htags⟩ := not_or.mp hno
    refine Post.spins (post_repeatWhile_never (I := Walked A m dp)
      (fun j x m' _ h => (walkStep_walked h).1) (walked_start dp) fun k _ hk y m' h => ?_)
      (stops_repeatWhile (E := fun e => e = Halt.spin) rfl fun x m' => by simp [walkStep]) hstops
    obtain ⟨-, ho, hdone⟩ := h
    refine ⟨hdp, ?_, ?_⟩
    · by_contra hd
      obtain ⟨i, hi, ht⟩ := hdone.mp (by simpa using hd)
      exact htags ⟨i, by omega, ht⟩
    · by_contra hlt
      refine hsize ⟨k, by omega, ?_⟩
      rw [ho] at hlt
      unfold wrap at hlt ⊢
      omega
  · intro hends
    by_cases hdp : dp = 0
    · refine stops_repeatWhile_within (I := fun _ _ _ => True) (fun j x m' hc => absurd hdp hc.1)
        trivial ⟨0, le_rfl, by omega, fun _ _ _ hc => hc.1 hdp⟩
    refine stops_repeatWhile_within (I := Walked A m dp) (fun j x m' _ h => walkStep_walked h)
      (walked_start dp) ?_
    rcases hends hdp with ⟨j, hj, hlt⟩ | ⟨i, hi, ht⟩
    · refine ⟨j, Nat.zero_le j, by omega, fun y m' h hc => ?_⟩
      have hle := hc.2.2
      rw [h.2.1] at hle
      unfold wrap at hle hlt
      omega
    · refine ⟨i + 1, Nat.zero_le _, by omega, fun y m' h hc => ?_⟩
      have hdone := h.2.2.mpr ⟨i, by omega, ht⟩
      rw [hc.2.1] at hdone
      cases hdone

end

section
variable {A : FdpicArgs} {X : Job} {m : Mem} {n fuel : ℕ}

theorem wrap_stride (j : ℕ) :
    wrap 32 (wrap 32 (j * X.dyn.relEnt) + X.dyn.relEnt) = wrap 32 ((j + 1) * X.dyn.relEnt) := by
  rw [Nat.succ_mul]
  unfold wrap
  omega

theorem findDescriptor_ends (hends : StrideEnds X n) (r_sym : ℕ) :
    Stops (findDescriptor A X n r_sym) m fun e => e ≠ .spin := by
  obtain ⟨j, hj, hlt⟩ := hends
  rw [findDescriptor, stops_bind]
  refine ⟨stops_repeatWhile_within
    (I := fun k (s : Search) _ => s.found = false → s.p = wrap 32 (k * X.dyn.relEnt))
    (fun k s m' hc h => ⟨?_, by simp [searchStep]⟩) (fun _ => by simp [wrap])
    ⟨j, Nat.zero_le j, by omega, fun s m' h hc => ?_⟩, fun _ _ => stops_pure⟩
  · simp only [searchStep, post_bind, post_get, post_ite, fdpicRt_post, post_pure]
    refine ⟨fun _ hf => absurd hf (by simp), fun _ _ => ?_⟩
    rw [h hc.1, wrap_stride]
  · have hle := hc.2
    rw [h hc.1] at hle
    omega

theorem relocStep_ends (hends : StrideEnds X n) (s : Pool) :
    Stops (relocStep A X n s) m fun e => e ≠ .spin := by
  simp only [relocStep, applyEntry, stops_bind, stops_get, post_get, fdpicRt_stops, fdpicRt_post,
    stops_ite, stops_pure, imp_true_iff, true_and]
  refine ⟨fun _ => ?_, fun _ _ => trivial⟩
  cases FdpicReloc.ofType (load m (A.word (X.rel0 + s.o) + 4) 4 % 256) with
  | none => exact stops_pure
  | some k =>
    cases k with
    | abs32 | relative => simp [FdpicReloc.apply]
    | funcdescValue =>
      simp [FdpicReloc.apply, descriptorValue, dynSym, definedSym, localAddend]
    | funcdesc =>
      simp [FdpicReloc.apply, funcdescAddr, dynSym, definedSym, freshDescriptor,
        findDescriptor_ends hends]

theorem fdpicRelocate_ends : Stops (fdpicRelocate A X n) m (fun e => e ≠ .spin) ↔
    (Relocating A X ⟨0, 0⟩ → StrideEnds X n) := by
  constructor
  · intro hstops hrel
    by_contra hno
    refine Post.spins ?_ fdpicRelocate_stops hstops
    have hstart : (0 : ℕ) = wrap 32 (0 * X.dyn.relEnt) := by simp [wrap]
    refine post_repeatWhile_never (I := fun j (s : Pool) _ => s.o = wrap 32 (j * X.dyn.relEnt))
      (fun j s m' _ h => relocStep_post.mono fun s' _ hs => ?_) hstart
      fun k _ hk s m' h => ⟨hrel.1, hrel.2.1, hrel.2.2.1, ?_⟩
    · rw [hs.1, h, wrap_stride]
    · rw [h]
      by_contra hlt
      exact hno ⟨k, by omega, by omega⟩
  · intro hends
    by_cases hrel : Relocating A X ⟨0, 0⟩
    · obtain ⟨j, hj, hlt⟩ := hends hrel
      refine stops_repeatWhile_within
        (I := fun j (s : Pool) _ => s.o = wrap 32 (j * X.dyn.relEnt))
        (fun j s m' _ h => ⟨relocStep_post.mono fun s' _ hs => ?_, relocStep_ends (hends hrel) s⟩)
        (by simp [wrap]) ⟨j, Nat.zero_le j, by omega, fun s m' h hc => ?_⟩
      · rw [hs.1, h, wrap_stride]
      · have hle := hc.2.2.2
        rw [h] at hle
        omega
    · exact stops_repeatWhile_within (I := fun _ s _ => s = ⟨0, 0⟩)
        (fun j s m' hc h => absurd (h ▸ hc) hrel) rfl
        ⟨0, le_rfl, by omega, fun s m' h hc => hrel (h ▸ hc)⟩

end

section
variable {A : FdpicArgs} {m : Mem} {n : ℕ}

theorem classify_stops {h : Header} {E : Halt → Prop} (i : ℕ) (s : Segments) :
    Stops (classify A h i s) m E := by
  simp [classify]

theorem fdpicPlan_ends : Stops (fdpicPlan A) m fun e => e ≠ .spin := by
  rw [fdpicPlan, stops_bind]
  refine ⟨by simp [readHeader], fun h _ => stops_bind.mpr ⟨stops_loop fun i s m => ?_, ?_⟩⟩
  · exact classify_stops i s
  · exact fun s _ => by simp

theorem fdpicPlace_ends {P : Plan} : Stops (fdpicPlace A P) m fun e => e ≠ .spin := by
  rw [fdpicPlace, stops_bind]
  refine ⟨by simp [fdpicClear, clearRw], fun _ _ => stops_loop fun i s m => ?_⟩
  simp [placeSegment, copySegment]

theorem fdpicPrepare_ends : Stops (fdpicPrepare A n) m (fun e => e ≠ .spin) ↔
    ∀ P, (fdpicPlan A m).result = .ok P →
      Post (fdpicPlace A P) m fun _ m' => WalkEnds A m' P n := by
  rw [fdpicPrepare, stops_bind, and_iff_right fdpicPlan_ends]
  refine forall₂_congr fun P hP => ?_
  rw [(fdpicPlan_post P hP).2]
  dsimp only
  rw [stops_bind, and_iff_right fdpicPlace_ends]
  simp [fdpicDynamic_ends]

theorem oveLoaderLoadFdpic_ends : Stops (oveLoaderLoadFdpic A n) m (fun e => e ≠ .spin) ↔
    (∀ P, (fdpicPlan A m).result = .ok P →
      Post (fdpicPlace A P) m fun _ m' => WalkEnds A m' P n) ∧
    Post (fdpicPrepare A n) m fun X _ => Relocating A X ⟨0, 0⟩ → StrideEnds X n := by
  simp only [oveLoaderLoadFdpic, fdpicRun, stops_bind, stops_pure, fdpicResult_stops, post_true,
    and_true, fdpicPrepare_ends, fdpicRelocate_ends]

theorem headers_le (h : Header) (hh : (readHeader A m).result = .ok h) (hent : h.phentsize ≠ 0) :
    h.phnum ≤ A.image.size := by
  obtain ⟨-, -, -, -, hin⟩ := readHeader_post h hh
  have hle : h.phnum ≤ h.phnum * h.phentsize := Nat.le_mul_of_pos_right _ (Nat.pos_of_ne_zero hent)
  omega

theorem fdpicPlan_header : Post (fdpicPlan A) m fun P _ =>
    (readHeader A m).result = .ok P.header := by
  rw [fdpicPlan, post_bind]
  intro h hh
  simp only [post_bind, post_require, post_pure]
  exact fun _ _ _ _ => hh

end

/-- The loops are bounded by the image size exactly if headers of size zero are not more than that,
and the tables end within so many entries. -/
theorem fdpic_bounded_iff (A : FdpicArgs) (m : Mem) : FdpicBounded A m ↔ FdpicShort A m := by
  constructor
  · intro hb
    obtain ⟨hwalk, hstrides⟩ := oveLoaderLoadFdpic_ends.mp hb.loops
    refine ⟨fun h hh _ => ?_, hwalk, hstrides⟩
    have hlen := hb.pass1 h hh
    rwa [length_rounds fun i s m => classify_stops i s] at hlen
  · intro hs
    have hnum : ∀ h, (readHeader A m).result = .ok h → h.phnum ≤ A.image.size := by
      intro h hh
      by_cases hent : h.phentsize = 0
      · exact hs.headers h hh hent
      · exact headers_le h hh hent
    refine ⟨fun h hh => ?_, fun P hP => ?_, oveLoaderLoadFdpic_ends.mpr ⟨hs.walk, hs.strides⟩⟩
    · exact length_rounds_le.trans (hnum h hh)
    · exact length_rounds_le.trans (hnum _ (fdpicPlan_header P hP))

def zeroStride : Mem := layOut 0x1000
  [(0, 4, 0x464c457f), (4, 1, 1), (7, 1, 65), (16, 2, 3), (18, 2, 40), (28, 4, 52),
    (42, 2, 32), (44, 2, 2),
    -- a PT_LOAD of 160 bytes at 256 and a PT_DYNAMIC of 24 bytes at 372
    (52, 4, 1), (60, 4, 256), (68, 4, 160), (72, 4, 160), (76, 4, 5),
    (84, 4, 2), (92, 4, 372), (104, 4, 24),
    -- DT_RELENT 0, DT_REL 256, DT_NULL
    (116, 4, 19), (124, 4, 17), (128, 4, 256)]

def zeroStrideArgs : FdpicArgs where
  arch := .arm32
  image := ⟨0x1000, 160⟩
  region := ⟨0x3000, 64⟩
  imageFits := by decide
  regionFits := by decide
  apart := by decide
  isInterp := false
  copyText := false

def emptyHeaders : Mem := layOut 0x1000
  [(0, 4, 0x464c457f), (4, 1, 1), (7, 1, 65), (16, 2, 3), (18, 2, 40), (28, 4, 52), (44, 2, 0xffff)]

def emptyHeadersArgs : FdpicArgs where
  arch := .arm32
  image := ⟨0x1000, 52⟩
  region := ⟨0x3000, 64⟩
  imageFits := by decide
  regionFits := by decide
  apart := by decide
  isInterp := false
  copyText := false

theorem zero_sizes_unbounded :
    (∀ fuel, 160 ≤ fuel →
      (oveLoaderLoadFdpic zeroStrideArgs fuel zeroStride).result = .error .spin) ∧
    ¬FdpicBounded zeroStrideArgs zeroStride ∧ ¬FdpicBounded emptyHeadersArgs emptyHeaders := by
  have hprep : ((fdpicPrepare zeroStrideArgs 160 zeroStride).result.toOption.map fun X =>
      (X.dyn.relEnt, decide (Relocating zeroStrideArgs X ⟨0, 0⟩))) = some (0, true) := by
    decide +kernel
  have hspin : ∀ fuel, 160 ≤ fuel →
      ¬Stops (oveLoaderLoadFdpic zeroStrideArgs fuel) zeroStride fun e => e ≠ .spin := by
    intro fuel hfuel hstops
    cases hr : (fdpicPrepare zeroStrideArgs 160 zeroStride).result with
    | error e =>
      rw [hr] at hprep
      cases hprep
    | ok X =>
      rw [hr] at hprep
      obtain ⟨hent, hrel⟩ := Prod.mk.inj (Option.some.inj hprep)
      have hsame := fdpicPrepare_extends (A := zeroStrideArgs) hfuel zeroStride
        (by rw [hr]; exact fun h => by cases h)
      have hstrides := (oveLoaderLoadFdpic_ends.mp hstops).2 X (by rw [hsame, hr])
      obtain ⟨j, -, hlt⟩ := hstrides (of_decide_eq_true hrel)
      rw [hent] at hlt
      simp [wrap] at hlt
  refine ⟨fun fuel hfuel => ?_, fun hb => hspin 160 le_rfl hb.loops, fun hb => ?_⟩
  · have hne := hspin fuel hfuel
    simp only [Stops, not_forall, not_not] at hne
    obtain ⟨e, he, rfl⟩ := hne
    exact he
  · cases hr : (readHeader emptyHeadersArgs emptyHeaders).result with
    | error e =>
      have hok : (readHeader emptyHeadersArgs emptyHeaders).result.toBool = true := by
        decide +kernel
      rw [hr] at hok
      cases hok
    | ok h =>
      have hlen := hb.pass1 h hr
      rw [length_rounds fun i s m => classify_stops i s, (readHeader_post h hr).1] at hlen
      revert hlen
      decide +kernel

end Overtos.Loader
