import Overtos.Loader.Fdpic

/-! The program headers as the FDPIC loader sees them, and the translation through the loadmap. -/
namespace Overtos.Loader
open Word Memory Traced

structure Phdr where
  type : ℕ
  off : ℕ
  vaddr : ℕ
  filesz : ℕ
  memsz : ℕ
  flags : ℕ

def Phdr.IsLoad (p : Phdr) : Prop := p.type = ptLoad

def Phdr.IsExec (p : Phdr) : Prop := p.flags &&& pfX ≠ 0

def Phdr.IsData (p : Phdr) : Prop := p.IsLoad ∧ ¬p.IsExec

instance (p : Phdr) : Decidable p.IsLoad := inferInstanceAs (Decidable (_ = _))

instance (p : Phdr) : Decidable p.IsExec := inferInstanceAs (Decidable (_ ≠ _))

instance (p : Phdr) : Decidable p.IsData := inferInstanceAs (Decidable (_ ∧ _))

section
variable (A : FdpicArgs) (h : Header) (m : Mem)

def phdr (i : ℕ) : Phdr where
  type := load m (phdrAddr A h i) 4
  off := load m (phdrAddr A h i + 4) 4
  vaddr := load m (phdrAddr A h i + 8) 4
  filesz := load m (phdrAddr A h i + 16) 4
  memsz := load m (phdrAddr A h i + 20) 4
  flags := load m (phdrAddr A h i + 24) 4

def headerOf : Header where
  entry := load m (A.image.addr + 24) 4
  phoff := load m (A.image.addr + 28) 4
  phentsize := load m (A.image.addr + 42) 2
  phnum := load m (A.image.addr + 44) 2

def Segments.step (s : Segments) (p : Phdr) : Segments :=
  if p.type = ptDynamic then { s with dynOff := p.vaddr, dynSz := p.memsz }
  else if p.type = ptLoad then s.add p.off p.vaddr p.memsz p.flags
  else s

def scan : ℕ → Segments
  | 0 => Segments.none
  | n + 1 => (scan n).step (phdr A h m n)

end

section
variable {A : FdpicArgs} {h : Header} {m : Mem} {s : Segments} {p : Phdr} {P : Plan}

theorem classify_post {i : ℕ} {Q : Segments → Mem → Prop} :
    Post (classify A h i s) m Q ↔ Q (s.step (phdr A h m i)) m := by
  simp only [classify, post_bind, post_get, post_ite, post_pure, Segments.step]
  by_cases hd : (phdr A h m i).type = ptDynamic
  · rw [if_pos hd]
    exact ⟨fun hq => hq.1 hd, fun hq => ⟨fun _ => hq, fun hn => absurd hd hn⟩⟩
  · rw [if_neg hd]
    by_cases hl : (phdr A h m i).type = ptLoad
    · rw [if_pos hl]
      exact ⟨fun hq => (hq.2 hd).1 hl,
        fun hq => ⟨fun hn => absurd hn hd, fun _ => ⟨fun _ => hq, fun hn => absurd hl hn⟩⟩⟩
    · rw [if_neg hl]
      exact ⟨fun hq => (hq.2 hd).2 hl,
        fun hq => ⟨fun hn => absurd hn hd, fun _ => ⟨fun hn => absurd hn hl, fun _ => hq⟩⟩⟩

theorem scan_post {n : ℕ} : Post (loop (classify A h) n 0 Segments.none) m
    fun s m' => s = scan A h m n ∧ m' = m := by
  have hl := post_loop (I := fun i s m' => s = scan A h m i ∧ m' = m) (f := classify A h)
    (fun i s m' hs => by
      obtain ⟨rfl, rfl⟩ := hs
      exact classify_post.mpr ⟨rfl, rfl⟩) (n := n) (i := 0) ⟨rfl, rfl⟩
  rwa [Nat.zero_add] at hl

theorem readHeader_post : Post (readHeader A) m fun h m' => h = headerOf A m ∧ m' = m ∧
    A.region.addr ≠ 0 ∧ 52 ≤ A.image.size ∧
    h.phoff + h.phnum * h.phentsize ≤ A.image.size := by
  simp only [readHeader, post_bind, post_require, post_get, post_pure]
  exact fun hn _ _ _ hin => ⟨rfl, trivial, hn.2.1, hn.2.2, hin⟩

structure Planned (A : FdpicArgs) (m : Mem) (P : Plan) : Prop where
  header : P.header = headerOf A m
  segs : P.segs = scan A P.header m P.header.phnum
  region : A.region.addr ≠ 0
  image : 52 ≤ A.image.size
  headers : P.header.phoff + P.header.phnum * P.header.phentsize ≤ A.image.size
  nload : 1 ≤ P.segs.nload
  room : textA A P.segs + P.segs.rwA + P.segs.loadmapSz ≤ A.region.size

theorem fdpicPlan_post : Post (fdpicPlan A) m fun P m' => Planned A m P ∧ m' = m := by
  rw [fdpicPlan, post_bind]
  refine readHeader_post.mono ?_
  rintro h _ ⟨rfl, rfl, hreg, himg, hin⟩
  rw [post_bind]
  refine scan_post.mono ?_
  rintro s _ ⟨rfl, rfl⟩
  simp only [post_bind, post_require, post_pure]
  exact fun hl hr => ⟨⟨rfl, rfl, hreg, himg, hin, hl.2, hr⟩, trivial⟩

theorem Segments.step_other (hl : ¬p.IsLoad) :
    (s.step p).textSz = s.textSz ∧ (s.step p).rwLo = s.rwLo ∧ (s.step p).rwHi = s.rwHi ∧
      (s.step p).nload = s.nload := by
  unfold Segments.step
  rw [if_neg (c := p.type = ptLoad) hl]
  split_ifs <;> exact ⟨rfl, rfl, rfl, rfl⟩

theorem Segments.step_load (hl : p.IsLoad) : s.step p = s.add p.off p.vaddr p.memsz p.flags := by
  have hd : p.type ≠ ptDynamic := by
    rw [show p.type = ptLoad from hl]
    decide
  rw [Segments.step, if_neg hd, if_pos (c := p.type = ptLoad) hl]

theorem Segments.step_exec (hl : p.IsLoad) (hx : p.IsExec) :
    (s.step p).textSz = p.memsz ∧ (s.step p).rwLo = s.rwLo ∧ (s.step p).rwHi = s.rwHi ∧
      (s.step p).nload = s.nload + 1 := by
  rw [Segments.step_load hl, Segments.add, if_pos (c := p.flags &&& pfX ≠ 0) hx]
  exact ⟨rfl, rfl, rfl, rfl⟩

theorem Segments.step_data (hd : p.IsData) :
    (s.step p).textSz = s.textSz ∧ (s.step p).rwLo = min p.vaddr s.rwLo ∧
      (s.step p).rwHi = max (wrap 32 (p.vaddr + p.memsz)) s.rwHi ∧
      (s.step p).nload = s.nload + 1 := by
  rw [Segments.step_load hd.1, Segments.add, if_neg (c := p.flags &&& pfX ≠ 0) hd.2]
  refine ⟨rfl, ?_, ?_, rfl⟩ <;> dsimp only <;> split_ifs <;> omega

theorem scan_nload_le (n : ℕ) : (scan A h m n).nload ≤ n := by
  induction n with
  | zero => exact le_rfl
  | succ n ih =>
    rw [scan]
    by_cases hl : (phdr A h m n).IsLoad
    · by_cases hx : (phdr A h m n).IsExec
      · have := (Segments.step_exec (s := scan A h m n) hl hx).2.2.2
        omega
      · have := (Segments.step_data (s := scan A h m n) ⟨hl, hx⟩).2.2.2
        omega
    · have := (Segments.step_other (s := scan A h m n) hl).2.2.2
      omega

theorem load4_lt (a : ℕ) : load m a 4 < 2 ^ 32 := load_lt m a 4

structure Segments.Words (s : Segments) : Prop where
  textSz : s.textSz < 2 ^ 32
  rwLo : s.rwLo < 2 ^ 32
  rwHi : s.rwHi < 2 ^ 32

theorem scan_words (n : ℕ) : (scan A h m n).Words := by
  induction n with
  | zero => constructor <;> simp [scan, Segments.none]
  | succ n ih =>
    obtain ⟨ht, hlo, hhi⟩ := ih
    rw [scan]
    by_cases hl : (phdr A h m n).IsLoad
    · by_cases hx : (phdr A h m n).IsExec
      · obtain ⟨e1, e2, e3, -⟩ := Segments.step_exec (s := scan A h m n) hl hx
        exact ⟨e1 ▸ load4_lt _, e2 ▸ hlo, e3 ▸ hhi⟩
      · obtain ⟨e1, e2, e3, -⟩ := Segments.step_data (s := scan A h m n) ⟨hl, hx⟩
        exact ⟨e1 ▸ ht, e2 ▸ min_lt_of_right_lt hlo, e3 ▸ max_lt (wrap_lt _ _) hhi⟩
    · obtain ⟨e1, e2, e3, -⟩ := Segments.step_other (s := scan A h m n) hl
      exact ⟨e1 ▸ ht, e2 ▸ hlo, e3 ▸ hhi⟩

theorem Planned.nload_lt (hP : Planned A m P) : P.segs.nload < 2 ^ 16 := by
  have hn : P.header.phnum < 2 ^ 16 := by
    rw [hP.header]
    exact load_lt m _ 2
  have hs : (scan A P.header m P.header.phnum).nload ≤ P.header.phnum := scan_nload_le _
  rw [← hP.segs] at hs
  omega

theorem Planned.words (hP : Planned A m P) : P.segs.Words := by
  rw [hP.segs]
  exact scan_words _

theorem Planned.loadmapSz (hP : Planned A m P) : P.segs.loadmapSz = 4 + P.segs.nload * 12 := by
  have := hP.nload_lt
  exact wrap_of_lt (by omega)

end

section
variable (A : FdpicArgs) (P : Plan) (m : Mem)

def rtFrom (vaddr : ℕ) : ℕ → ℕ → ℕ
  | 0, _ => 0
  | n + 1, i =>
    let pv := load m (entryAddr A P i + 4) 4
    if pv ≤ vaddr ∧ vaddr < wrap 32 (pv + load m (entryAddr A P i + 8) 4) then
      wrap 32 (load m (entryAddr A P i) 4 + (vaddr - pv))
    else rtFrom vaddr n (i + 1)

def rt (vaddr : ℕ) : ℕ := rtFrom A P m vaddr P.segs.nload 0

variable {A P m} {vaddr n i : ℕ} {Q : ℕ → Mem → Prop}

theorem fdpicRtFrom_post : Post (fdpicRtFrom A P vaddr n i) m Q ↔ Q (rtFrom A P m vaddr n i) m := by
  induction n generalizing i with
  | zero => exact post_pure
  | succ n ih =>
    simp only [fdpicRtFrom, rtFrom, post_bind, post_get, post_ite, post_pure, ih]
    split_ifs with hc
    · simp [hc]
    · simp only [hc, false_imp_iff, not_false_eq_true, true_imp_iff, true_and]

@[simp] theorem fdpicRt_post : Post (fdpicRt A P vaddr) m Q ↔ Q (rt A P m vaddr) m := fdpicRtFrom_post

end

variable {A : FdpicArgs} {m : Mem} {fuel : ℕ}

theorem fdpicPrepare_planned : Post (fdpicPrepare A fuel) m fun X _ => Planned A m X.plan := by
  rw [fdpicPrepare, post_bind]
  refine fdpicPlan_post.mono fun P _ hP => ?_
  simp only [post_bind, post_require, post_pure]
  exact fun _ _ _ _ _ _ _ _ _ => hP.1

theorem fdpicResult_post {X : Job} {used : ℕ} :
    Post (fdpicResult A X used) m fun prog m' => m' = m ∧
      prog.regionUsed = wrap 32 (textA A X.plan.segs + X.plan.segs.poolOff + used) ∧
      prog.bssSize = wrap 32 (X.placed.dataMsz + 2 ^ 32 - X.placed.dataFsz) := by
  simp only [fdpicResult, dynamicAddr, post_bind, fdpicRt_post, post_ite, post_pure]
  exact ⟨fun _ => ⟨trivial, trivial, trivial⟩, fun _ => ⟨trivial, trivial, trivial⟩⟩

end Overtos.Loader
