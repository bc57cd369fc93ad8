import Overtos.Loader.Layout
import Overtos.Loader.Rebase

/-! Function pointers of an FDPIC program: the descriptors from the pool are not shared, those in
slots are. -/
namespace Overtos.Loader
open Word Memory Traced List

instance (a b : Area) : Decidable (a.Apart b) := inferInstanceAs (Decidable (_ ∨ _))

section
variable (A : FdpicArgs) (X : Job) (t : Pool × Mem)

def relSymAddr : ℕ := symAddr A X t.2 (relSym A X t)

def stShndx : ℕ := load t.2 (relSymAddr A X t + 14) 2

def stValue : ℕ := load t.2 (relSymAddr A X t + 4) 4

def stInfo : ℕ := load t.2 (relSymAddr A X t + 12) 1

def IsDefined : Prop := X.dyn.symV ≠ 0 ∧ stShndx A X t ≠ 0

instance : Decidable (IsDefined A X t) := inferInstanceAs (Decidable (_ ∧ _))

def slotAddend : ℕ := if stInfo A X t / 16 = 0 then relWord A X t else 0

def TakesAddress : Prop :=
  relKind A X t = some .funcdesc ∧ relPlace A X t ≠ 0 ∧ IsDefined A X t ∧ relWord A X t = 0

instance : Decidable (TakesAddress A X t) := inferInstanceAs (Decidable (_ ∧ _))

def freshAddr : ℕ := A.word (fdpool A X.plan.segs + t.1.used)

def relWrites (fuel : ℕ) : List Area :=
  if relPlace A X t = 0 then []
  else match relKind A X t with
    | none => []
    | some .abs32 | some .relative => [⟨relPlace A X t, 4⟩]
    | some .funcdescValue => [⟨relPlace A X t, 8⟩]
    | some .funcdesc => ⟨relPlace A X t, 4⟩ ::
        if wantsFresh A X fuel t.2 (relSym A X t) t.1.used then [⟨freshAddr A X t, 8⟩] else []

variable (ts : List (Pool × Mem))

def slotTurn (r_sym : ℕ) : Option (Pool × Mem) :=
  ts.find? fun t => relKind A X t = some .funcdescValue ∧ relSym A X t = r_sym

def slot (r_sym : ℕ) : ℕ := ((slotTurn A X ts r_sym).map (relPlace A X)).getD 0

def readAreas (m : Mem) : List Area :=
  (range X.plan.segs.nload).map (fun k => ⟨entryAddr A X.plan k, 12⟩) ++
    ts.map (fun t => ⟨relAddr A X t, 8⟩) ++
    ts.map (fun t => ⟨symAddr A X m (relSym A X t), 16⟩)

/-- Relocations that write each byte once, and nothing that they read besides their places. -/
@[mk_iff]
structure Tidy (fuel : ℕ) (m : Mem) : Prop where
  stride : 0 < X.dyn.relEnt ∧ X.dyn.relSz + X.dyn.relEnt < 2 ^ 32
  pool : fdpool A X.plan.segs + X.dyn.maxFd * 8 < 2 ^ 32
  own : ∀ t ∈ ts, (relWrites A X t fuel).Pairwise Area.Apart
  reads : ∀ t ∈ ts, ∀ w ∈ relWrites A X t fuel, ∀ r ∈ readAreas A X ts m, w.Apart r
  others : ts.Pairwise fun t t' =>
    ∀ w ∈ relWrites A X t fuel, ∀ w' ∈ relWrites A X t' fuel, w.Apart w'

instance (fuel : ℕ) (m : Mem) : Decidable (Tidy A X ts fuel m) :=
  decidable_of_iff _ (tidy_iff A X ts fuel m).symm

@[mk_iff]
structure PointersCanonical (m : Mem) : Prop where
  descriptor : ∀ t ∈ ts, TakesAddress A X t →
    load m (load m (relPlace A X t) 4) 4 = rt A X.plan m (stValue A X t) ∧
    load m (load m (relPlace A X t) 4 + 4) 4 = X.gotBase
  same : ts.Pairwise fun t t' => TakesAddress A X t → TakesAddress A X t' →
    relSym A X t = relSym A X t' → load m (relPlace A X t) 4 = load m (relPlace A X t') 4
  different : ∀ t ∈ ts, ∀ t' ∈ ts, TakesAddress A X t → TakesAddress A X t' →
    stValue A X t ≠ stValue A X t' → load m (relPlace A X t) 4 ≠ load m (relPlace A X t') 4

instance (m : Mem) : Decidable (PointersCanonical A X ts m) :=
  decidable_of_iff _ (pointersCanonical_iff A X ts m).symm

@[mk_iff]
structure SlotsSuffice : Prop where
  shared : ts.Pairwise fun t t' => TakesAddress A X t → TakesAddress A X t' →
    relSym A X t = relSym A X t' → slot A X ts (relSym A X t) ≠ 0
  plain : ∀ t ∈ ts, TakesAddress A X t → ∀ t₀ ∈ slotTurn A X ts (relSym A X t),
    relPlace A X t₀ ≠ 0 → rt A X.plan t.2 (wrap 32 (stValue A X t + slotAddend A X t₀)) =
      rt A X.plan t.2 (stValue A X t)

instance : Decidable (SlotsSuffice A X ts) := decidable_of_iff _ (slotsSuffice_iff A X ts).symm

end

section
variable {A : FdpicArgs} {X : Job} {t : Pool × Mem} {fuel : ℕ} {r_sym : ℕ} {m : Mem}

theorem findDescriptor_mem : Post (findDescriptor A X fuel r_sym) m fun _ m' => m' = m := by
  rw [findDescriptor, post_bind]
  refine (post_repeatWhile (I := fun _ m' => m' = m) (fun s m' _ hm => ?_) rfl).mono
    fun _ _ h => post_pure.mpr h.1
  subst hm
  simp only [searchStep, post_bind, post_get, post_ite, fdpicRt_post, post_pure]
  exact ⟨fun _ => trivial, fun _ => trivial⟩

theorem descriptorValue_mem {place : ℕ} :
    Post (descriptorValue A X r_sym place) m fun _ m' => m' = m := by
  simp only [descriptorValue, dynSym, definedSym, localAddend, post_bind, fdpicRt_post, post_pure,
    post_ite, post_get]
  simp

def freshMem (A : FdpicArgs) (X : Job) (t : Pool × Mem) : Mem :=
  store (store t.2 (freshAddr A X t) 4
    (rt A X.plan t.2 (wrap 32 (stValue A X t + relWord A X t)))) (freshAddr A X t + 4) 4 X.gotBase

theorem dynSym_post {Q : ℕ → Mem → Prop} :
    Post (dynSym A X r_sym) m Q ↔ Q (symAddr A X m r_sym) m := by
  rw [dynSym, post_bind, fdpicRt_post, post_pure, symAddr]

theorem definedSym_post {sym : ℕ} {Q : Bool → Mem → Prop} :
    Post (definedSym X sym) m Q ↔ Q (decide (X.dyn.symV ≠ 0 ∧ load m (sym + 14) 2 ≠ 0)) m := by
  rw [definedSym]
  by_cases hs : X.dyn.symV = 0
  · simp [hs]
  · have hb : (load m (sym + 14) 2 != 0) =
        decide (X.dyn.symV ≠ 0 ∧ load m (sym + 14) 2 ≠ 0) := Bool.eq_iff_iff.mpr (by simp [hs])
    rw [if_pos hs, post_bind, post_get, post_pure, hb]

theorem relocStep_apply {k : FdpicReloc} (hk : relKind A X t = some k) (h0 : relPlace A X t ≠ 0)
    {Q : Pool → Mem → Prop} : Post (relocStep A X fuel t.1) t.2 Q ↔
      Post (k.apply A X fuel (relSym A X t) (relPlace A X t) t.1.used) t.2 fun u m' =>
        Q ⟨wrap 32 (t.1.o + X.dyn.relEnt), u⟩ m' := by
  simp only [relocStep, applyEntry, post_bind, post_get, fdpicRt_post, post_pure]
  rw [if_neg (show rt A X.plan t.2 (load t.2 (A.word (X.rel0 + t.1.o)) 4) ≠ 0 from h0)]
  unfold relKind relAddr at hk
  rw [hk]
  rfl

theorem wantsFresh_iff (hd : IsDefined A X t) {descr : ℕ}
    (hr : (findDescriptor A X fuel (relSym A X t) t.2).result = .ok descr) :
    wantsFresh A X fuel t.2 (relSym A X t) t.1.used ↔
      descr = 0 ∧ wrap 32 (t.1.used + 8) ≤ wrap 32 (X.dyn.maxFd * 8) := by
  have hslot : noSlot A X fuel (relSym A X t) t.2 = true ↔ descr = 0 := by
    rw [noSlot, hr]
    exact beq_iff_eq
  unfold wantsFresh
  rw [hslot]
  exact ⟨fun h => h.2.2, fun h => ⟨hd.1, hd.2, h⟩⟩

theorem funcdescAddr_defined (hd : IsDefined A X t) :
    Post (funcdescAddr A X fuel (relSym A X t) (relPlace A X t) t.1.used) t.2 fun d m' =>
      ∃ descr, (findDescriptor A X fuel (relSym A X t) t.2).result = .ok descr ∧
        if wantsFresh A X fuel t.2 (relSym A X t) t.1.used then
          d.1 = wrap 32 (freshAddr A X t) ∧ m' = freshMem A X t
        else d.1 = descr ∧ m' = t.2 := by
  have hdef : decide (X.dyn.symV ≠ 0 ∧ load t.2 (symAddr A X t.2 (relSym A X t) + 14) 2 ≠ 0) =
      true := decide_eq_true hd
  rw [funcdescAddr, post_bind, dynSym_post, post_bind, definedSym_post, if_pos hdef, post_bind]
  intro descr hr
  rw [findDescriptor_mem _ hr]
  by_cases hf : descr = 0 ∧ wrap 32 (t.1.used + 8) ≤ wrap 32 (X.dyn.maxFd * 8)
  · rw [if_pos hf]
    simp only [freshDescriptor, post_bind, post_get, fdpicRt_post, post_put, post_pure]
    refine ⟨descr, hr, ?_⟩
    rw [if_pos ((wantsFresh_iff hd hr).mpr hf)]
    exact ⟨rfl, rfl⟩
  · rw [if_neg hf, post_pure]
    refine ⟨descr, hr, ?_⟩
    rw [if_neg fun h => hf ((wantsFresh_iff hd hr).mp h)]
    exact ⟨rfl, rfl⟩

theorem funcdescAddr_undefined (hd : ¬IsDefined A X t) :
    Post (funcdescAddr A X fuel (relSym A X t) (relPlace A X t) t.1.used) t.2 fun _ m' =>
      m' = t.2 := by
  have hdef : ¬decide (X.dyn.symV ≠ 0 ∧ load t.2 (symAddr A X t.2 (relSym A X t) + 14) 2 ≠ 0) =
      true := fun h => hd (of_decide_eq_true h)
  rw [funcdescAddr, post_bind, dynSym_post, post_bind, definedSym_post, if_neg hdef]
  exact post_pure.mpr rfl

theorem relocStep_funcdesc (hk : relKind A X t = some .funcdesc) (h0 : relPlace A X t ≠ 0)
    (hd : IsDefined A X t) : Post (relocStep A X fuel t.1) t.2 fun _ m' =>
      ∃ descr, (findDescriptor A X fuel (relSym A X t) t.2).result = .ok descr ∧
        m' = if wantsFresh A X fuel t.2 (relSym A X t) t.1.used then
            store (freshMem A X t) (relPlace A X t) 4 (wrap 32 (freshAddr A X t))
          else store t.2 (relPlace A X t) 4 descr := by
  rw [relocStep_apply hk h0, FdpicReloc.apply, post_bind]
  refine (funcdescAddr_defined hd).mono fun d m' h => ?_
  obtain ⟨descr, hr, h⟩ := h
  simp only [post_bind, post_put, post_pure]
  refine ⟨descr, hr, ?_⟩
  split_ifs at h ⊢
  · rw [h.1, h.2]
  · rw [h.1, h.2]

theorem relocStep_value (hk : relKind A X t = some .funcdescValue) (h0 : relPlace A X t ≠ 0)
    (hd : IsDefined A X t) : Post (relocStep A X fuel t.1) t.2 fun _ m' =>
      m' = store (store t.2 (relPlace A X t) 4
        (rt A X.plan t.2 (wrap 32 (stValue A X t + slotAddend A X t))))
          (relPlace A X t + 4) 4 X.gotBase := by
  have hdef : decide (X.dyn.symV ≠ 0 ∧ load t.2 (symAddr A X t.2 (relSym A X t) + 14) 2 ≠ 0) =
      true := decide_eq_true hd
  rw [relocStep_apply hk h0, FdpicReloc.apply, post_bind, descriptorValue, post_bind, dynSym_post,
    post_bind, definedSym_post, if_pos hdef]
  simp only [post_bind, post_get, localAddend, fdpicRt_post, post_ite, post_pure, post_put]
  unfold slotAddend
  constructor
  · intro hl
    rw [if_pos (show stInfo A X t / 16 = 0 from hl)]
    rfl
  · intro hl
    rw [if_neg (show ¬stInfo A X t / 16 = 0 from hl)]
    rfl

theorem relocStep_frame : Post (relocStep A X fuel t.1) t.2 fun _ m' =>
    ∀ a, (∀ w ∈ relWrites A X t fuel, a < w.start ∨ w.stop ≤ a) → m' a = t.2 a := by
  by_cases h0 : relPlace A X t = 0
  · simp only [relocStep, applyEntry, post_bind, post_get, fdpicRt_post, post_pure]
    rw [if_pos (show rt A X.plan t.2 (load t.2 (A.word (X.rel0 + t.1.o)) 4) = 0 from h0)]
    exact post_pure.mpr fun _ _ => rfl
  cases hk : relKind A X t with
  | none =>
    simp only [relocStep, applyEntry, post_bind, post_get, fdpicRt_post, post_pure]
    rw [if_neg (show rt A X.plan t.2 (load t.2 (A.word (X.rel0 + t.1.o)) 4) ≠ 0 from h0)]
    unfold relKind relAddr at hk
    rw [hk]
    exact post_pure.mpr fun _ _ => rfl
  | some k =>
    rw [relocStep_apply hk h0]
    unfold relWrites
    rw [if_neg h0, hk]
    cases k with
    | abs32 | relative =>
      simp only [FdpicReloc.apply, post_bind, post_get, fdpicRt_post, post_put, post_pure]
      intro a ha
      exact store_of_notMem (ha _ mem_cons_self)
    | funcdescValue =>
      rw [FdpicReloc.apply, post_bind]
      intro w hw
      rw [descriptorValue_mem _ hw]
      simp only [post_bind, post_put, post_pure]
      intro a ha
      have ha := ha _ mem_cons_self
      unfold Area.stop at ha
      dsimp only at ha
      rw [store_of_notMem (by omega), store_of_notMem (by omega)]
    | funcdesc =>
      rw [FdpicReloc.apply, post_bind]
      by_cases hd : IsDefined A X t
      · refine (funcdescAddr_defined hd).mono fun d m' h => ?_
        obtain ⟨descr, -, h⟩ := h
        simp only [post_bind, post_put, post_pure]
        intro a ha
        rw [forall_mem_cons] at ha
        rw [store_of_notMem ha.1]
        split_ifs at h with hf
        · rw [if_pos hf] at ha
          have ha := ha.2 _ mem_cons_self
          unfold Area.stop at ha
          dsimp only at ha
          rw [h.2, freshMem, store_of_notMem (by omega), store_of_notMem (by omega)]
        · rw [h.2]
      · refine (funcdescAddr_undefined hd).mono fun d m' h => ?_
        simp only [post_bind, post_put, post_pure]
        intro a ha
        rw [store_of_notMem (ha _ mem_cons_self), h]

end

def SameOn (areas : List Area) (m m' : Mem) : Prop :=
  ∀ r ∈ areas, ∀ a, r.start ≤ a → a < r.stop → m' a = m a

variable {r w : Area}

theorem SameOn.load_eq {areas : List Area} {m m' : Mem} (h : SameOn areas m m') (hr : r ∈ areas)
    {a k : ℕ} (hlo : r.start ≤ a) (hhi : a + k ≤ r.stop) : load m' a k = load m a k :=
  load_congr fun x h1 h2 => h r hr x (by omega) (by omega)

theorem Area.Apart.outside (h : w.Apart r) {a : ℕ} (hlo : r.start ≤ a) (hhi : a < r.stop) :
    a < w.start ∨ w.stop ≤ a := by
  unfold Area.Apart Area.stop at *
  omega

theorem Area.Apart.symm (h : w.Apart r) : r.Apart w := by
  unfold Area.Apart at *
  omega

section
variable {A : FdpicArgs} {X : Job} {ts : List (Pool × Mem)} {m m' : Mem} {t : Pool × Mem}

theorem rtFrom_same (hm : SameOn (readAreas A X ts m) m m') {v n i : ℕ}
    (h : i + n ≤ X.plan.segs.nload) :
    rtFrom A X.plan m' v n i = rtFrom A X.plan m v n i := by
  induction n generalizing i with
  | zero => rfl
  | succ n ih =>
    have hr : (⟨entryAddr A X.plan i, 12⟩ : Area) ∈ readAreas A X ts m := by
      refine mem_append_left _ (mem_append_left _ (mem_map.mpr ⟨i, ?_, rfl⟩))
      exact mem_range.mpr (by omega)
    have h0 := hm.load_eq hr (a := entryAddr A X.plan i) (k := 4) le_rfl (by simp [Area.stop])
    have h4 := hm.load_eq hr (a := entryAddr A X.plan i + 4) (k := 4) (by simp)
      (by simp [Area.stop])
    have h8 := hm.load_eq hr (a := entryAddr A X.plan i + 8) (k := 4) (by simp)
      (by simp [Area.stop])
    rw [rtFrom, rtFrom, h0, h4, h8, ih (by omega)]

theorem SameOn.rt_eq (hm : SameOn (readAreas A X ts m) m m') (v : ℕ) :
    rt A X.plan m' v = rt A X.plan m v := rtFrom_same hm (by omega)

theorem SameOn.entry_eq (hm : SameOn (readAreas A X ts m) m m') (ht : t ∈ ts) :
    relOffset A X (t.1, m') = relOffset A X (t.1, m) ∧
      relKind A X (t.1, m') = relKind A X (t.1, m) ∧
      relSym A X (t.1, m') = relSym A X (t.1, m) := by
  have hr : (⟨relAddr A X t, 8⟩ : Area) ∈ readAreas A X ts m :=
    mem_append_left _ (mem_append_right _ (mem_map.mpr ⟨t, ht, rfl⟩))
  have h0 := hm.load_eq hr (a := relAddr A X t) (k := 4) le_rfl (by simp [Area.stop])
  have h4 := hm.load_eq hr (a := relAddr A X t + 4) (k := 4) (by simp) (by simp [Area.stop])
  refine ⟨h0, ?_, ?_⟩
  · exact congrArg (fun x => FdpicReloc.ofType (x % 256)) h4
  · exact congrArg (fun x => x / 256) h4

theorem SameOn.symAddr_eq (hm : SameOn (readAreas A X ts m) m m') (s : ℕ) :
    symAddr A X m' s = symAddr A X m s := by
  rw [symAddr, hm.rt_eq, symAddr]

theorem SameOn.symbol_eq (hm : SameOn (readAreas A X ts m) m m') (ht : t ∈ ts) {k w : ℕ}
    (hk : k + w ≤ 16) : load m' (symAddr A X m (relSym A X t) + k) w =
      load m (symAddr A X m (relSym A X t) + k) w := by
  have hr : (⟨symAddr A X m (relSym A X t), 16⟩ : Area) ∈ readAreas A X ts m :=
    mem_append_right _ (mem_map.mpr ⟨t, ht, rfl⟩)
  exact hm.load_eq hr (Nat.le_add_right _ _) (by dsimp only [Area.stop]; omega)

theorem turn_same (hm : SameOn (readAreas A X ts m) m t.2)
    (hm' : SameOn (readAreas A X ts m) m m') (ht : t ∈ ts) :
    relKind A X (t.1, m') = relKind A X t ∧ relSym A X (t.1, m') = relSym A X t ∧
      relPlace A X (t.1, m') = relPlace A X t := by
  obtain ⟨ho, hk, hs⟩ := hm.entry_eq ht
  obtain ⟨ho', hk', hs'⟩ := hm'.entry_eq ht
  refine ⟨hk'.trans hk.symm, hs'.trans hs.symm, ?_⟩
  rw [relPlace, relPlace, hm'.rt_eq, hm.rt_eq, ho']
  exact congrArg _ ho.symm

theorem symbol_first (hm : SameOn (readAreas A X ts m) m t.2) (ht : t ∈ ts) :
    stShndx A X t = load m (symAddr A X m (relSym A X t) + 14) 2 ∧
      stValue A X t = load m (symAddr A X m (relSym A X t) + 4) 4 := by
  rw [stShndx, stValue, relSymAddr, hm.symAddr_eq, hm.symbol_eq ht (by decide),
    hm.symbol_eq ht (by decide)]
  exact ⟨rfl, rfl⟩

theorem ofType_value {k : ℕ} : FdpicReloc.ofType k = some .funcdescValue ↔ k = 164 := by
  unfold FdpicReloc.ofType
  split <;> simp_all

end

section
variable {A : FdpicArgs} {X : Job} {fuel : ℕ} {m n : Mem} {s z : Pool}
  {ts : List (Pool × Mem)} {t : Pool × Mem}

theorem reads_kept (hp : Path (Relocating A X) (relocStep A X fuel) s m ts z n)
    (ht : Tidy A X ts fuel m) :
    (∀ t ∈ ts, SameOn (readAreas A X ts m) m t.2) ∧ SameOn (readAreas A X ts m) m n := by
  refine hp.keeps (V := fun _ m' => SameOn (readAreas A X ts m) m m') ?_ fun _ _ _ _ _ => rfl
  intro t hts _ hsame
  refine relocStep_frame.mono fun _ m' hf r hr a hlo hhi => ?_
  rw [hf a fun w hw => (ht.reads t hts w hw r hr).outside hlo hhi, hsame r hr a hlo hhi]

variable {a k r_sym : ℕ} {t₀ : Pool × Mem}

theorem final_write (hp : Path (Relocating A X) (relocStep A X fuel) s m ts z n)
    (ht : Tidy A X ts fuel m) (hts : t ∈ ts) {w : Area} (hw : w ∈ relWrites A X t fuel)
    (hlo : w.start ≤ a) (hhi : a + k ≤ w.stop) :
    ∃ y, (relocStep A X fuel t.1 t.2).result = .ok y ∧
      load n a k = load (relocStep A X fuel t.1 t.2).mem a k := by
  obtain ⟨pre, post, rfl⟩ := append_of_mem hts
  obtain ⟨-, y, hy, hafter⟩ := hp.after
  have hothers := (pairwise_cons.mp (pairwise_append.mp ht.others).2.1).1
  have hkeep := hafter.keeps
    (V := fun _ m' => ∀ a, w.start ≤ a → a < w.stop → m' a = (relocStep A X fuel t.1 t.2).mem a)
    (fun u hu _ hsame => relocStep_frame.mono fun _ m' hf a h1 h2 => by
      rw [hf a fun w' hw' => ?_, hsame a h1 h2]
      have hapart := hothers u hu w hw w' hw'
      unfold Area.Apart Area.stop at *
      omega) fun _ _ _ => rfl
  exact ⟨y, hy, load_congr fun x h1 h2 => hkeep.2 x (by omega) (by omega)⟩

theorem room (hp : Path (Relocating A X) (relocStep A X fuel) ⟨0, 0⟩ m ts z n)
    (ht : Tidy A X ts fuel m) (hts : t ∈ ts) : t.1.used + 8 ≤ X.dyn.maxFd * 8 := by
  obtain ⟨hpos, hlt⟩ := ht.stride
  have hfd : X.dyn.maxFd = X.dyn.relSz / X.dyn.relEnt := if_pos (by omega)
  have hcount := hp.keeps (V := fun s _ => ∃ k, s.o = k * X.dyn.relEnt ∧ s.used ≤ 8 * k ∧
    s.o ≤ X.dyn.relSz) (fun u _ hc hu => by
      obtain ⟨k, ho, hused, hle⟩ := hu
      refine relocStep_post.mono fun s' _ hs => ⟨k + 1, ?_, ?_, ?_⟩
      · rw [hs.1, wrap_of_lt (by omega), ho, Nat.succ_mul]
      · have := wrap_le 32 (u.1.used + 8)
        rw [hs.2]
        split_ifs <;> omega
      · rw [hs.1]
        exact hc.2.2.2) ⟨0, by simp⟩
  obtain ⟨k, ho, hused, hle⟩ := hcount.1 t hts
  obtain ⟨pre, post, rfl⟩ := append_of_mem hts
  have hc := hp.after.1.2.2.2
  rw [wrap_of_lt (by omega), ho, ← Nat.succ_mul] at hc
  have := (Nat.le_div_iff_mul_le hpos).mpr hc
  omega

theorem search_slot {m' : Mem} (hp : Path (Relocating A X) (relocStep A X fuel) s m ts z n)
    (hstat : A.isInterp = false ∧ X.dyn.isDynamic = false ∧ X.rel0 ≠ 0)
    (hsame : ∀ t ∈ ts, relKind A X (t.1, m') = relKind A X t ∧
      relSym A X (t.1, m') = relSym A X t ∧ relPlace A X (t.1, m') = relPlace A X t)
    (r_sym k : ℕ) :
    Post (repeatWhile .spin
      (fun q : Search => q.found = false ∧ wrap 32 (q.p + X.dyn.relEnt) ≤ X.dyn.relSz)
      (searchStep A X r_sym) k ⟨s.o, 0, false⟩) m' fun q _ => q.descr = slot A X ts r_sym := by
  induction hp generalizing k with
  | done h =>
    rw [repeatWhile_of_not fun hc => h ⟨hstat.1, hstat.2.1, hstat.2.2, hc.2⟩]
    exact post_pure.mpr rfl
  | @turn x y _ m₀ _ ts hc hr _ ih =>
    rw [forall_mem_cons] at hsame
    obtain ⟨hhead, htail⟩ := hsame
    cases k with
    | zero =>
      rw [repeatWhile, if_pos ⟨rfl, hc.2.2.2⟩]
      exact post_stop
    | succ k =>
      have hmatch : load m' (A.word (X.rel0 + x.o) + 4) 4 % 256 = 164 ∧
          load m' (A.word (X.rel0 + x.o) + 4) 4 / 256 = r_sym ↔
          relKind A X (x, m₀) = some .funcdescValue ∧ relSym A X (x, m₀) = r_sym := by
        rw [← hhead.1, ← hhead.2.1, ← ofType_value]
        rfl
      rw [repeatWhile, if_pos ⟨rfl, hc.2.2.2⟩]
      simp only [searchStep, post_bind, post_get, post_ite, fdpicRt_post, post_pure]
      rw [hmatch]
      unfold slot slotTurn
      rw [find?_cons]
      refine ⟨fun hv => ?_, fun hv => ?_⟩
      · rw [repeatWhile_of_not fun h => Bool.noConfusion h.1, decide_eq_true hv]
        exact post_pure.mpr hhead.2.2
      · rw [decide_eq_false hv, ← (relocStep_post _ hr).1]
        exact ih htail k

theorem findDescriptor_slot (hp : Path (Relocating A X) (relocStep A X fuel) ⟨0, 0⟩ m ts z n)
    (ht : Tidy A X ts fuel m) (hts : t ∈ ts) {m' : Mem} (hm' : SameOn (readAreas A X ts m) m m')
    {d : ℕ} (hr : (findDescriptor A X k r_sym m').result = .ok d) : d = slot A X ts r_sym := by
  have hcond : Relocating A X t.1 := by
    obtain ⟨pre, post, rfl⟩ := append_of_mem hts
    exact hp.after.1
  have hkept := (reads_kept hp ht).1
  have hsearch := search_slot hp ⟨hcond.1, hcond.2.1, hcond.2.2.1⟩
    (fun u hu => turn_same (hkept u hu) hm' hu) r_sym k
  have hfind : Post (findDescriptor A X k r_sym) m' fun d _ => d = slot A X ts r_sym := by
    rw [findDescriptor, post_bind]
    exact hsearch.mono fun q _ hq => post_pure.mpr hq
  exact hfind d hr

theorem slotTurn_spec (h : slotTurn A X ts r_sym = some t₀) :
    t₀ ∈ ts ∧ relKind A X t₀ = some .funcdescValue ∧ relSym A X t₀ = r_sym := by
  unfold slotTurn at h
  have hspec := find?_some h
  exact ⟨mem_of_find?_eq_some h, of_decide_eq_true hspec⟩

theorem slot_turn (h : slot A X ts r_sym ≠ 0) :
    ∃ t₀ ∈ ts, slotTurn A X ts r_sym = some t₀ ∧ relKind A X t₀ = some .funcdescValue ∧
      relSym A X t₀ = r_sym ∧ relPlace A X t₀ = slot A X ts r_sym := by
  unfold slot at h ⊢
  cases hs : slotTurn A X ts r_sym with
  | none => simp [hs] at h
  | some t₀ =>
    obtain ⟨hmem, hk, hsym⟩ := slotTurn_spec hs
    exact ⟨t₀, hmem, rfl, hk, hsym, rfl⟩

theorem value_writes (hk : relKind A X t = some .funcdescValue) (h0 : relPlace A X t ≠ 0) :
    ⟨relPlace A X t, 8⟩ ∈ relWrites A X t fuel := by
  rw [relWrites, if_neg h0, hk]
  exact mem_singleton.mpr rfl

def pointer (A : FdpicArgs) (X : Job) (ts : List (Pool × Mem)) (t : Pool × Mem) : ℕ :=
  if slot A X ts (relSym A X t) = 0 then freshAddr A X t else slot A X ts (relSym A X t)

theorem takes_turn (hp : Path (Relocating A X) (relocStep A X fuel) ⟨0, 0⟩ m ts z n)
    (ht : Tidy A X ts fuel m) (hts : t ∈ ts) (htake : TakesAddress A X t)
    {y : Pool} (hy : (relocStep A X fuel t.1 t.2).result = .ok y) :
    (relWrites A X t fuel = ⟨relPlace A X t, 4⟩ ::
      if slot A X ts (relSym A X t) = 0 then [⟨freshAddr A X t, 8⟩] else []) ∧
    (relocStep A X fuel t.1 t.2).mem = store
      (if slot A X ts (relSym A X t) = 0 then freshMem A X t else t.2)
        (relPlace A X t) 4 (pointer A X ts t) := by
  obtain ⟨hk, h0, hd, -⟩ := htake
  obtain ⟨descr, hr, hmem⟩ := relocStep_funcdesc hk h0 hd y hy
  have hdescr := findDescriptor_slot hp ht hts ((reads_kept hp ht).1 t hts) hr
  have hroom := room hp ht hts
  have hpool := ht.pool
  have hfree : wrap 32 (t.1.used + 8) ≤ wrap 32 (X.dyn.maxFd * 8) := by
    rw [wrap_of_lt (by omega), wrap_of_lt (by omega)]
    exact hroom
  have hfresh : wantsFresh A X fuel t.2 (relSym A X t) t.1.used ↔
      slot A X ts (relSym A X t) = 0 := by
    rw [wantsFresh_iff hd hr, hdescr]
    exact and_iff_left hfree
  have haddr : wrap 32 (freshAddr A X t) = freshAddr A X t :=
    wrap_of_lt ((wrap_le _ _).trans_lt (by omega))
  rw [relWrites, if_neg h0, hk, hmem, pointer]
  by_cases hs : slot A X ts (relSym A X t) = 0
  · simp only [if_pos (hfresh.mpr hs), if_pos hs, haddr]
    exact ⟨trivial, trivial⟩
  · simp only [if_neg (mt hfresh.mp hs), if_neg hs, hdescr]
    exact ⟨trivial, trivial⟩

theorem turn_ends (hp : Path (Relocating A X) (relocStep A X fuel) s m ts z n) (hts : t ∈ ts) :
    ∃ y, (relocStep A X fuel t.1 t.2).result = .ok y := by
  obtain ⟨pre, post, rfl⟩ := append_of_mem hts
  obtain ⟨-, y, hy, -⟩ := hp.after
  exact ⟨y, hy⟩

theorem fresh_writes (hp : Path (Relocating A X) (relocStep A X fuel) ⟨0, 0⟩ m ts z n)
    (ht : Tidy A X ts fuel m) (hts : t ∈ ts) (htake : TakesAddress A X t)
    (hs : slot A X ts (relSym A X t) = 0) : ⟨freshAddr A X t, 8⟩ ∈ relWrites A X t fuel := by
  obtain ⟨y, hy⟩ := turn_ends hp hts
  rw [(takes_turn hp ht hts htake hy).1, if_pos hs]
  exact mem_cons_of_mem _ mem_cons_self

theorem load_place (hp : Path (Relocating A X) (relocStep A X fuel) ⟨0, 0⟩ m ts z n)
    (ht : Tidy A X ts fuel m) (hts : t ∈ ts) (htake : TakesAddress A X t) :
    load n (relPlace A X t) 4 = pointer A X ts t := by
  have hw : ⟨relPlace A X t, 4⟩ ∈ relWrites A X t fuel := by
    rw [relWrites, if_neg htake.2.1, htake.1]
    exact mem_cons_self
  obtain ⟨y, hy, hload⟩ := final_write hp ht hts hw (a := relPlace A X t) (k := 4) le_rfl le_rfl
  have hlt : pointer A X ts t < 256 ^ 4 := by
    have hroom := room hp ht hts
    have hpool := ht.pool
    unfold pointer
    split_ifs with hs
    · exact (wrap_le _ _).trans_lt (by omega)
    · obtain ⟨t₀, -, -, -, -, hplace⟩ := slot_turn hs
      rw [← hplace]
      exact rt_lt _
  rw [hload, (takes_turn hp ht hts htake hy).2, load_store_self, Nat.mod_eq_of_lt hlt]

theorem pointer_owner (hp : Path (Relocating A X) (relocStep A X fuel) ⟨0, 0⟩ m ts z n)
    (ht : Tidy A X ts fuel m) (hts : t ∈ ts) (htake : TakesAddress A X t) :
    ∃ u ∈ ts, relSym A X u = relSym A X t ∧ ⟨pointer A X ts t, 8⟩ ∈ relWrites A X u fuel := by
  by_cases hs : slot A X ts (relSym A X t) = 0
  · rw [pointer, if_pos hs]
    exact ⟨t, hts, rfl, fresh_writes hp ht hts htake hs⟩
  · obtain ⟨t₀, hmem, -, hk, hsym, hplace⟩ := slot_turn hs
    refine ⟨t₀, hmem, hsym, ?_⟩
    rw [pointer, if_neg hs, ← hplace]
    exact value_writes hk (hplace ▸ hs)

theorem slot_content (hp : Path (Relocating A X) (relocStep A X fuel) ⟨0, 0⟩ m ts z n)
    (ht : Tidy A X ts fuel m) (hts : t ∈ ts) (htake : TakesAddress A X t)
    (h₀ : slotTurn A X ts (relSym A X t) = some t₀) (hplace : relPlace A X t₀ ≠ 0)
    (hgot : X.gotBase < 2 ^ 32) :
    load n (relPlace A X t₀) 4 = rt A X.plan m (wrap 32 (stValue A X t + slotAddend A X t₀)) ∧
      load n (relPlace A X t₀ + 4) 4 = X.gotBase := by
  obtain ⟨hmem, hk, hsym⟩ := slotTurn_spec h₀
  have hkept := (reads_kept hp ht).1
  obtain ⟨hndx, hval⟩ := symbol_first (hkept t hts) hts
  obtain ⟨hndx₀, hval₀⟩ := symbol_first (hkept t₀ hmem) hmem
  have hd : IsDefined A X t₀ := by
    refine ⟨htake.2.2.1.1, ?_⟩
    rw [hndx₀, hsym, ← hndx]
    exact htake.2.2.1.2
  have hvalue : stValue A X t₀ = stValue A X t := by rw [hval₀, hsym, hval]
  have hw : ⟨relPlace A X t₀, 8⟩ ∈ relWrites A X t₀ fuel := value_writes hk hplace
  obtain ⟨y, hy, hload⟩ := final_write hp ht hmem hw (a := relPlace A X t₀) (k := 4) le_rfl
    (by simp [Area.stop])
  obtain ⟨-, -, hload'⟩ := final_write hp ht hmem hw (a := relPlace A X t₀ + 4) (k := 4) (by simp)
    (by simp [Area.stop])
  rw [hload, hload', relocStep_value hk hplace hd y hy, load_store_disjoint (by omega),
    load_store_self, load_store_self, hvalue, (hkept t₀ hmem).rt_eq]
  exact ⟨Nat.mod_eq_of_lt (rt_lt _), Nat.mod_eq_of_lt hgot⟩

theorem fresh_content (hp : Path (Relocating A X) (relocStep A X fuel) ⟨0, 0⟩ m ts z n)
    (ht : Tidy A X ts fuel m) (hts : t ∈ ts) (htake : TakesAddress A X t)
    (hs : slot A X ts (relSym A X t) = 0) (hgot : X.gotBase < 2 ^ 32) :
    load n (freshAddr A X t) 4 = rt A X.plan m (stValue A X t) ∧
      load n (freshAddr A X t + 4) 4 = X.gotBase := by
  obtain ⟨y, hy⟩ := turn_ends hp hts
  obtain ⟨hwrites, hmem⟩ := takes_turn hp ht hts htake hy
  rw [if_pos hs] at hwrites hmem
  have hw := fresh_writes hp ht hts htake hs
  have hown : Area.Apart ⟨relPlace A X t, 4⟩ ⟨freshAddr A X t, 8⟩ := by
    have hpair := ht.own t hts
    rw [hwrites] at hpair
    exact rel_of_pairwise_cons hpair mem_cons_self
  unfold Area.Apart Area.stop at hown
  dsimp only at hown
  obtain ⟨-, -, hload⟩ := final_write hp ht hts hw (a := freshAddr A X t) (k := 4) le_rfl
    (by simp [Area.stop])
  obtain ⟨-, -, hload'⟩ := final_write hp ht hts hw (a := freshAddr A X t + 4) (k := 4) (by simp)
    (by simp [Area.stop])
  have hst : wrap 32 (stValue A X t + relWord A X t) = stValue A X t := by
    rw [htake.2.2.2]
    exact wrap_of_lt (load_lt _ _ _)
  rw [hload, hload', hmem, load_store_disjoint (by omega), load_store_disjoint (by omega), freshMem,
    load_store_disjoint (by omega), load_store_self, load_store_self, hst,
    ((reads_kept hp ht).1 t hts).rt_eq]
  exact ⟨Nat.mod_eq_of_lt (rt_lt _), Nat.mod_eq_of_lt hgot⟩

theorem start_ne (ht : Tidy A X ts fuel m) {t' : Pool × Mem} (hts : t ∈ ts) (hts' : t' ∈ ts)
    (hne : t ≠ t') {a' : ℕ} (hk : 0 < k) (hw : ⟨a, k⟩ ∈ relWrites A X t fuel)
    (hw' : ⟨a', k⟩ ∈ relWrites A X t' fuel) : a ≠ a' := by
  have hsymm : Std.Symm fun t t' : Pool × Mem =>
      ∀ w ∈ relWrites A X t fuel, ∀ w' ∈ relWrites A X t' fuel, w.Apart w' :=
    ⟨fun _ _ h w hw w' hw' => (h w' hw' w hw).symm⟩
  have hapart := ht.others.forall hts hts' hne _ hw _ hw'
  unfold Area.Apart Area.stop at hapart
  dsimp only at hapart
  omega

theorem path_canonical_iff (hp : Path (Relocating A X) (relocStep A X fuel) ⟨0, 0⟩ m ts z n)
    (ht : Tidy A X ts fuel m) (hgot : X.gotBase < 2 ^ 32) :
    PointersCanonical A X ts n ↔ SlotsSuffice A X ts := by
  obtain ⟨hkept, hend⟩ := reads_kept hp ht
  constructor
  · intro hcanon
    refine ⟨?_, fun t hts htake t₀ h₀ hplace => ?_⟩
    · refine (ht.others.and hcanon.same).imp_of_mem ?_
      intro t t' hts hts' hboth htake htake' hsym hs
      have heq := hboth.2 htake htake' hsym
      rw [load_place hp ht hts htake, load_place hp ht hts' htake', pointer, pointer, ← hsym,
        if_pos hs, if_pos hs] at heq
      have hapart := hboth.1 _ (fresh_writes hp ht hts htake hs) _
        (fresh_writes hp ht hts' htake' (hsym ▸ hs))
      unfold Area.Apart Area.stop at hapart
      dsimp only at hapart
      omega
    · have hslot : slot A X ts (relSym A X t) = relPlace A X t₀ := by
        rw [slot, h₀]
        rfl
      have hd := (hcanon.descriptor t hts htake).1
      rw [load_place hp ht hts htake, pointer, hslot, if_neg hplace,
        (slot_content hp ht hts htake h₀ hplace hgot).1, hend.rt_eq] at hd
      rw [(hkept t hts).rt_eq, (hkept t hts).rt_eq]
      exact hd
  · intro hslots
    refine ⟨fun t hts htake => ?_, ?_, fun t hts t' hts' htake htake' hne => ?_⟩
    · rw [load_place hp ht hts htake, hend.rt_eq, pointer]
      by_cases hs : slot A X ts (relSym A X t) = 0
      · rw [if_pos hs]
        exact fresh_content hp ht hts htake hs hgot
      · obtain ⟨t₀, -, h₀, -, -, hplace⟩ := slot_turn hs
        obtain ⟨hvalue, hbase⟩ := slot_content hp ht hts htake h₀ (hplace ▸ hs) hgot
        have hplain := hslots.plain t hts htake t₀ h₀ (hplace ▸ hs)
        rw [(hkept t hts).rt_eq, (hkept t hts).rt_eq] at hplain
        rw [if_neg hs, ← hplace, hvalue]
        exact ⟨hplain, hbase⟩
    · refine hslots.shared.imp_of_mem ?_
      intro t t' hts hts' hshared htake htake' hsym
      have hs := hshared htake htake' hsym
      rw [load_place hp ht hts htake, load_place hp ht hts' htake', pointer, pointer, ← hsym,
        if_neg hs, if_neg hs]
    · rw [load_place hp ht hts htake, load_place hp ht hts' htake']
      obtain ⟨u, hu, hsym, hw⟩ := pointer_owner hp ht hts htake
      obtain ⟨u', hu', hsym', hw'⟩ := pointer_owner hp ht hts' htake'
      refine start_ne ht hu hu' ?_ (by decide) hw hw'
      rintro rfl
      rw [(symbol_first (hkept t hts) hts).2, (symbol_first (hkept t' hts') hts').2, ← hsym,
        hsym'] at hne
      exact hne rfl

end

section
variable {A : FdpicArgs} {fuel : ℕ} {m : Mem}

theorem fdpicPrepare_gotBase : Post (fdpicPrepare A fuel) m fun X _ => X.gotBase < 2 ^ 32 := by
  rw [fdpicPrepare, post_bind]
  intro P _
  rw [post_bind]
  intro placed _
  rw [post_bind]
  intro dyn _
  simp only [post_bind, fdpicRt_post, post_require, post_pure]
  exact fun _ => rt_lt _

theorem fdpicRun_path : Post (fdpicRun A fuel) m fun r n => r.1.gotBase < 2 ^ 32 ∧
    ∃ z, Path (Relocating A r.1) (relocStep A r.1 fuel) ⟨0, 0⟩ (fdpicPrepare A fuel m).mem
      (relocTurns A fuel m r.1) z n := by
  rw [fdpicRun, post_bind]
  intro X hX
  rw [post_bind]
  intro pool hpool
  rw [post_bind]
  refine fdpicResult_post.mono fun prog n hprog => post_pure.mpr ⟨fdpicPrepare_gotBase X hX, ?_⟩
  rw [hprog.1]
  exact ⟨pool, path_of_repeatWhile hpool⟩

end

/-- Function pointers are canonical exactly if the image's `R_ARM_FUNCDESC_VALUE` entries provide
the slots. -/
theorem canonical_iff (A : FdpicArgs) (fuel : ℕ) (m : Mem) (r : Job × Pool × Flat)
    (hok : (fdpicRun A fuel m).result = .ok r)
    (htidy : Tidy A r.1 (relocTurns A fuel m r.1) fuel (fdpicPrepare A fuel m).mem) :
    PointersCanonical A r.1 (relocTurns A fuel m r.1) (fdpicRun A fuel m).mem ↔
      SlotsSuffice A r.1 (relocTurns A fuel m r.1) := by
  obtain ⟨hgot, z, hp⟩ := fdpicRun_path r hok
  exact path_canonical_iff hp htidy hgot

def pointerImage (k : ℕ) : Mem := layOut 0x1000
  [(0, 4, 0x464c457f), (4, 1, 1), (7, 1, 65), (16, 2, 3), (18, 2, 40), (28, 4, 52),
    (42, 2, 32), (44, 2, 3),
    (52, 4, 1), (68, 4, 288), (72, 4, 288), (76, 4, 5),
    (84, 4, 1), (88, 4, 268), (92, 4, 0x1000), (100, 4, 20), (104, 4, 20), (108, 4, 6),
    (116, 4, 2), (124, 4, 148), (136, 4, 40),
    (148, 4, 17), (152, 4, 188), (156, 4, 18), (160, 4, 32), (164, 4, 6), (168, 4, 220),
    (172, 4, 3), (176, 4, 0x1000),
    (188, 4, 0x1000), (192, 4, 256 + 163), (196, 4, 0x1004), (200, 4, 256 + 163),
    (204, 4, 0x1008), (208, 4, 256 + k), (212, 4, 0x1010), (216, 4, 512 + 163),
    (240, 4, 0x10), (250, 2, 1), (256, 4, 0x20), (266, 2, 1)]

def pointerArgs : FdpicArgs where
  arch := .arm32
  image := ⟨0x1000, 288⟩
  region := ⟨0x2000, 128⟩
  imageFits := by decide
  regionFits := by decide
  apart := by decide
  isInterp := false
  copyText := false

theorem canonical_with_slot : ∃ r, (fdpicRun pointerArgs 8 (pointerImage 164)).result = .ok r ∧
    (relocTurns pointerArgs 8 (pointerImage 164) r.1).countP
      (fun t => TakesAddress pointerArgs r.1 t) = 3 ∧
    PointersCanonical pointerArgs r.1 (relocTurns pointerArgs 8 (pointerImage 164) r.1)
      (fdpicRun pointerArgs 8 (pointerImage 164)).mem := by
  have hrun : (fdpicRun pointerArgs 8 (pointerImage 164)).result.toBool = true := by decide +kernel
  obtain ⟨r, hr⟩ := ok_of_toBool hrun
  have hall : (fdpicRun pointerArgs 8 (pointerImage 164)).result.toOption.all (fun r =>
      let ts := relocTurns pointerArgs 8 (pointerImage 164) r.1
      ts.countP (fun t => TakesAddress pointerArgs r.1 t) = 3 ∧
      Tidy pointerArgs r.1 ts 8 (fdpicPrepare pointerArgs 8 (pointerImage 164)).mem ∧
      SlotsSuffice pointerArgs r.1 ts) = true := by
    decide +kernel
  rw [hr] at hall
  obtain ⟨hcount, htidy, hslots⟩ := of_decide_eq_true hall
  exact ⟨r, hr, hcount, (canonical_iff pointerArgs 8 (pointerImage 164) r hr htidy).mpr hslots⟩

theorem pointers_differ : ∃ r, (fdpicRun pointerArgs 8 (pointerImage 0)).result = .ok r ∧
    Tidy pointerArgs r.1 (relocTurns pointerArgs 8 (pointerImage 0) r.1) 8
      (fdpicPrepare pointerArgs 8 (pointerImage 0)).mem ∧
    load (fdpicRun pointerArgs 8 (pointerImage 0)).mem 0x2000 4 ≠
      load (fdpicRun pointerArgs 8 (pointerImage 0)).mem 0x2004 4 ∧
    ¬PointersCanonical pointerArgs r.1 (relocTurns pointerArgs 8 (pointerImage 0) r.1)
      (fdpicRun pointerArgs 8 (pointerImage 0)).mem := by
  have hrun : (fdpicRun pointerArgs 8 (pointerImage 0)).result.toBool = true := by decide +kernel
  obtain ⟨r, hr⟩ := ok_of_toBool hrun
  have hall : (fdpicRun pointerArgs 8 (pointerImage 0)).result.toOption.all (fun r =>
      let ts := relocTurns pointerArgs 8 (pointerImage 0) r.1
      Tidy pointerArgs r.1 ts 8 (fdpicPrepare pointerArgs 8 (pointerImage 0)).mem ∧
      ¬PointersCanonical pointerArgs r.1 ts (fdpicRun pointerArgs 8 (pointerImage 0)).mem) =
        true := by
    decide +kernel
  rw [hr] at hall
  obtain ⟨htidy, hnot⟩ := of_decide_eq_true hall
  exact ⟨r, hr, htidy, by decide +kernel, hnot⟩

end Overtos.Loader
