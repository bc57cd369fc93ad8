import Overtos.Rings.TraceRing

/-! The sample ring of `ove_profiler_ring.c`, called by one producer and one consumer. -/
namespace Overtos.Rings
open Word IndexRing Function

structure ProfilerSample (arch : Arch) (maxDepth : ℕ) where
  tsUs : UInt64
  tid : UInt32
  depth : UInt8
  state : UInt8
  pcs : Fin maxDepth → BitVec arch.bits

structure ProfilerRing (ρ : Type) where
  buf : ℕ → ρ
  committed : ℕ → Bool
  write : ℕ
  read : ℕ
  dropped : ℕ

def profilerRingSize (config : ℕ) : ℕ := wrap 32 config

def ProfilerRing.init {ρ : Type} (zero : ρ) : ProfilerRing ρ := ⟨fun _ => zero, fun _ => false, 0, 0, 0⟩

def ProfilerSample.zero (arch : Arch) (maxDepth : ℕ) : ProfilerSample arch maxDepth :=
  ⟨0, 0, 0, 0, fun _ => 0⟩

variable {ρ : Type}

def oveProfilerRingPush (size : ℕ) (s : ProfilerRing ρ) (x : ρ) : ProfilerRing ρ × Bool :=
  let w := s.write
  let r := s.read
  if size ≤ sub 32 w r then ({ s with dropped := wrap 32 (s.dropped + 1) }, false)
  else
    let idx := w % size
    ({ s with
      write := wrap 32 (w + 1)
      buf := update s.buf idx x
      committed := update s.committed idx true }, true)

def drainLoop (size w : ℕ) : ℕ → ProfilerRing ρ → ℕ → ProfilerRing ρ × ℕ × List ρ
  | 0, s, r => (s, r, [])
  | n + 1, s, r =>
    if r ≠ w then
      let idx := r % size
      if s.committed idx then
        let rest := drainLoop size w n
          { s with committed := update s.committed idx false } (wrap 32 (r + 1))
        (rest.1, rest.2.1, s.buf idx :: rest.2.2)
      else (s, r, [])
    else (s, r, [])

def oveProfilerRingDrain (size : ℕ) (s : ProfilerRing ρ) (max : ℕ) : ProfilerRing ρ × List ρ :=
  let r := s.read
  let w := s.write
  let o := drainLoop size w (wrap 32 max) s r
  ({ o.1 with read := o.2.1 }, o.2.2)

def profilerStep (size : ℕ) (s : ProfilerRing ρ) : Op ρ → ProfilerRing ρ × Fifo.Out ρ
  | .push x =>
    let o := oveProfilerRingPush size s x
    (o.1, .stored o.2.toNat)
  | .drain max =>
    let o := oveProfilerRingDrain size s max
    (o.1, .items o.2)

structure ProfilerView (size : ℕ) (s : ProfilerRing ρ) (c : Slots ρ) : Prop where
  view : c = ⟨s.buf, s.write, s.read⟩
  write : s.write < 2 ^ 32
  read : s.read < 2 ^ 32
  committed : ∀ i < sub 32 s.write s.read, s.committed (slot 32 size (s.read + i)) = true

variable {size : ℕ} {s : ProfilerRing ρ} {w n r : ℕ}

theorem push_follows (hsize : size < 2 ^ 32) {c : Slots ρ} (h : ProfilerView size s c) (x : ρ) :
    ProfilerView size (profilerStep size s (.push x)).1 (step 32 size c (.push x)).1 ∧
      (profilerStep size s (.push x)).2 = (step 32 size c (.push x)).2 := by
  obtain ⟨rfl, hw, hr, hc⟩ := h
  by_cases hfull : size ≤ sub 32 s.write s.read
  · simp only [profilerStep, oveProfilerRingPush, step, avail, hfull, if_true]
    exact ⟨⟨rfl, hw, hr, hc⟩, rfl⟩
  · have hslot : slot 32 size s.write = s.write % size := slot_of_lt hw
    have hdist := sub_succ_left hw hr (by omega)
    simp only [profilerStep, oveProfilerRingPush, step, avail, hfull, if_false, hslot]
    refine ⟨⟨rfl, wrap_lt _ _, hr, ?_⟩, rfl⟩
    intro i hi
    show update s.committed (s.write % size) true (slot 32 size (s.read + i)) = true
    by_cases hi' : i < sub 32 s.write s.read
    · by_cases hs : slot 32 size (s.read + i) = s.write % size
      · rw [hs, update_self]
      · rw [update_of_ne hs, hc i hi']
    · have hlast : i = sub 32 s.write s.read := by
        have : i < sub 32 s.write s.read + 1 := hdist ▸ hi
        omega
      have hs : slot 32 size (s.read + i) = s.write % size := by
        rw [hlast, slot, wrap_add_sub hw hr]
      rw [hs, update_self]

theorem drainLoop_spec (hw : w < 2 ^ 32) (hr : r < 2 ^ 32)
    (hc : ∀ i < sub 32 w r, s.committed (slot 32 size (r + i)) = true)
    (hapart : Apart 32 size r (sub 32 w r)) :
    ∃ flags : ℕ → Bool,
      drainLoop size w n s r = ({ s with committed := flags },
        wrap 32 (r + min n (sub 32 w r)),
        (List.range (min n (sub 32 w r))).map fun i => s.buf (slot 32 size (r + i))) ∧
      ∀ i < sub 32 w r, n ≤ i → flags (slot 32 size (r + i)) = true := by
  induction n generalizing s r with
  | zero =>
    refine ⟨s.committed, ?_, fun i hi _ => hc i hi⟩
    simp [drainLoop, wrap_of_lt hr]
  | succ n ih =>
    by_cases hend : r = w
    · have hzero : sub 32 w r = 0 := (sub_eq_zero_iff hw hr).mpr hend.symm
      refine ⟨s.committed, ?_, fun i hi _ => hc i hi⟩
      simp [drainLoop, hend, wrap_of_lt hw, hend ▸ hzero]
    · have hpos : 0 < sub 32 w r := by
        apply Nat.pos_of_ne_zero
        intro h
        exact hend ((sub_eq_zero_iff hw hr).mp h).symm
      have hnext : sub 32 w (wrap 32 (r + 1)) = sub 32 w r - 1 := sub_add_right hw hr hpos
      have hslot : slot 32 size (r + 0) = r % size := slot_of_lt hr
      have hfirst : s.committed (r % size) = true := hslot ▸ hc 0 hpos
      have hshift : ∀ i, slot 32 size (wrap 32 (r + 1) + i) = slot 32 size (r + (i + 1)) := by
        intro i
        rw [slot_wrap_add, Nat.add_assoc, Nat.add_comm 1]
      have hc' : ∀ i < sub 32 w (wrap 32 (r + 1)), update s.committed (r % size) false
          (slot 32 size (wrap 32 (r + 1) + i)) = true := by
        intro i hi
        rw [hnext] at hi
        have hne : slot 32 size (r + (i + 1)) ≠ r % size := by
          intro heq
          have := hapart (i + 1) (by omega) 0 hpos (heq.trans hslot.symm)
          omega
        rw [hshift, update_of_ne hne, hc (i + 1) (by omega)]
      have hapart' : Apart 32 size (wrap 32 (r + 1)) (sub 32 w (wrap 32 (r + 1))) := by
        intro i hi j hj hij
        rw [hnext] at hi hj
        rw [hshift, hshift] at hij
        have := hapart (i + 1) (by omega) (j + 1) (by omega) hij
        omega
      obtain ⟨flags, hrun, hflags⟩ := ih
        (s := { s with committed := update s.committed (r % size) false })
        (wrap_lt 32 (r + 1)) hc' hapart'
      refine ⟨flags, ?_, ?_⟩
      · have hmin : min (n + 1) (sub 32 w r) = min n (sub 32 w r - 1) + 1 := by omega
        have hidx : wrap 32 (wrap 32 (r + 1) + min n (sub 32 w r - 1)) =
            wrap 32 (r + (min n (sub 32 w r - 1) + 1)) := by
          rw [wrap_wrap_add, Nat.add_assoc, Nat.add_comm 1]
        simp only [drainLoop, ne_eq, hend, not_false_eq_true, if_true, hfirst, hrun, hnext, hmin,
          hshift, hidx, List.range_succ_eq_map, List.map_cons, List.map_map, hslot]
        rfl
      · intro i hi hni
        obtain ⟨j, rfl⟩ : ∃ j, i = j + 1 := ⟨i - 1, by omega⟩
        rw [← hshift]
        exact hflags j (by omega) (by omega)

theorem profiler_follows (hsize : size < 2 ^ 32) :
    Follows 32 size (wrap 32) (profilerStep (ρ := ρ) size) (ProfilerView size) := by
  refine ⟨fun n => wrap_of_lt, fun s c x h => push_follows hsize h x, ?_, ?_⟩
  · rintro s c n ⟨rfl, hw, hr, hc⟩ hapart
    obtain ⟨flags, hrun, hflags⟩ := drainLoop_spec (n := wrap 32 n) hw hr hc hapart
    have hle : min (wrap 32 n) (sub 32 s.write s.read) ≤ sub 32 s.write s.read := by omega
    have hdist := sub_add_right hw hr hle
    simp only [profilerStep, oveProfilerRingDrain, hrun]
    refine ⟨⟨rfl, hw, wrap_lt _ _, ?_⟩, rfl⟩
    intro i hi
    have hi' : i < sub 32 s.write s.read - min (wrap 32 n) (sub 32 s.write s.read) := hdist ▸ hi
    show flags (slot 32 size (wrap 32 (s.read + _) + i)) = true
    rw [slot_wrap_add, Nat.add_assoc]
    exact hflags _ (by omega) (by omega)
  · rintro s c ⟨rfl, hw, hr, hc⟩
    have hone : wrap 32 1 = 1 := wrap_of_lt (by norm_num)
    by_cases hend : s.read = s.write
    · have hzero := (sub_eq_zero_iff hw hr).mpr hend.symm
      simp [profilerStep, oveProfilerRingDrain, hone, drainLoop, hend, step, avail, hend ▸ hzero]
    · have hpos : 0 < sub 32 s.write s.read := by
        apply Nat.pos_of_ne_zero
        intro h
        exact hend ((sub_eq_zero_iff hw hr).mp h).symm
      have hslot : slot 32 size s.read = s.read % size := slot_of_lt hr
      have hfirst : s.committed (s.read % size) = true := hslot ▸ hc 0 hpos
      have hmin : min 1 (sub 32 s.write s.read) = 1 := by omega
      simp [profilerStep, oveProfilerRingDrain, hone, drainLoop, hend, hfirst, step, avail, hmin,
        hslot]

theorem drainLoop_dropped : (drainLoop size w n s r).1.dropped = s.dropped := by
  induction n generalizing s r with
  | zero => rfl
  | succ n ih =>
    simp only [drainLoop]
    split
    · split
      · exact ih
      · rfl
    · rfl

theorem profiler_counts : Counts 32 (profilerStep (ρ := ρ) size) ProfilerRing.dropped := by
  refine ⟨fun s x => ?_, fun s n => drainLoop_dropped⟩
  simp only [profilerStep, oveProfilerRingPush]
  split
  · exact Or.inr ⟨rfl, rfl⟩
  · exact Or.inl ⟨rfl, rfl⟩

def traceRun (arch : Arch) (config : ℕ) (ops : List (Op TraceRecord)) :
    TraceRing × Fifo.History TraceRecord :=
  Fifo.trace (Op.toFifo id) (traceStep arch config) .init ops

def profilerRun (arch : Arch) (maxDepth config : ℕ) (ops : List (Op (ProfilerSample arch maxDepth))) :
    ProfilerRing (ProfilerSample arch maxDepth) × Fifo.History (ProfilerSample arch maxDepth) :=
  Fifo.trace (Op.toFifo (wrap 32)) (profilerStep (profilerRingSize config))
    (.init (ProfilerSample.zero arch maxDepth)) ops

theorem traceView_init : TraceView .init ⟨TraceRing.init.buf, 0, 0⟩ :=
  ⟨rfl, by norm_num [TraceRing.init], rfl⟩

theorem profilerView_init (zero : ρ) :
    ProfilerView size (.init zero) ⟨(ProfilerRing.init zero).buf, 0, 0⟩ :=
  ⟨rfl, by norm_num [ProfilerRing.init], by norm_num [ProfilerRing.init],
    by simp [ProfilerRing.init, sub, wrap]⟩

theorem size_cond_iff {config : ℕ} (hw : 2 ^ 32 ≤ 2 ^ w) :
    config = wrap w config ∧ wrap w config ∣ 2 ^ 32 ∧ wrap w config < 2 ^ 32 ↔
      config ∣ 2 ^ 32 ∧ config < 2 ^ 32 := by
  constructor
  · rintro ⟨heq, hdvd, hlt⟩
    rw [heq]
    exact ⟨hdvd, hlt⟩
  · rintro ⟨hdvd, hlt⟩
    have heq : wrap w config = config := wrap_of_lt (hlt.trans_le hw)
    rw [heq]
    exact ⟨rfl, hdvd, hlt⟩

theorem distinct_records : (⟨0, 0, 0, 0, 0⟩ : TraceRecord) ≠ ⟨1, 0, 0, 0, 0⟩ := by simp

theorem distinct_samples (arch : Arch) (maxDepth : ℕ) :
    ProfilerSample.zero arch maxDepth ≠ ⟨1, 0, 0, 0, fun _ => 0⟩ := by
  simp [ProfilerSample.zero]

/-- The records drained are the accepted ones in order exactly for sizes below `2 ^ 32` that divide
it; the dropped counter balances below `2 ^ 32` refusals. -/
theorem rings_fifo_iff (arch : Arch) (maxDepth config : ℕ) (hpos : 0 < config) :
    ((∀ ops, Fifo.Behaves config (Op.toFifo id) (traceStep arch config) .init ops) ↔
      config ∣ 2 ^ 32 ∧ config < 2 ^ 32) ∧
    ((∀ ops, Fifo.Behaves config (Op.toFifo (wrap 32)) (profilerStep (profilerRingSize config))
        (.init (ProfilerSample.zero arch maxDepth)) ops) ↔
      config ∣ 2 ^ 32 ∧ config < 2 ^ 32) ∧
    (∀ ops, (traceRun arch config ops).2.accepted.length + (traceRun arch config ops).1.dropped =
        ops.countP Op.isPush ↔
      ops.countP Op.isPush < (traceRun arch config ops).2.accepted.length + 2 ^ 32) ∧
    (∀ ops, (profilerRun arch maxDepth config ops).2.accepted.length +
        (profilerRun arch maxDepth config ops).1.dropped = ops.countP Op.isPush ↔
      ops.countP Op.isPush <
        (profilerRun arch maxDepth config ops).2.accepted.length + 2 ^ 32) := by
  refine ⟨?_, ?_, ?_, ?_⟩
  · rw [(trace_follows arch config).behaves_iff traceView_init distinct_records hpos]
    exact size_cond_iff arch.two_pow_bits_ge
  · have hsize : profilerRingSize config < 2 ^ 32 := wrap_lt 32 config
    rw [(profiler_follows hsize).behaves_iff (profilerView_init _)
      (distinct_samples arch maxDepth) hpos]
    exact size_cond_iff le_rfl
  · exact (trace_counts arch config).balance_iff id rfl
  · exact profiler_counts.balance_iff (wrap 32) rfl

theorem rings_fifo_1024 : 0 < 1024 ∧
    (∀ ops, Fifo.Behaves 1024 (Op.toFifo id) (traceStep .arm32 1024) .init ops) :=
  ⟨by norm_num, (rings_fifo_iff .arm32 16 1024 (by norm_num)).1.mpr (by decide)⟩

theorem trace_ring_1000_disordered :
    let h := (traceRun .arm32 1000 (wrapOps 32 1000 ⟨0, 0, 0, 0, 0⟩ ⟨1, 0, 0, 0, 0⟩)).2
    ¬h.returned <+: h.accepted := by
  have hsize : traceRingSize .arm32 1000 = 1000 := wrap_of_lt (by decide)
  have hfollows := trace_follows .arm32 1000
  rw [hsize] at hfollows
  unfold traceRun
  exact hfollows.wrapOps_disordered traceView_init distinct_records (by norm_num) (by norm_num)
    (by norm_num)

end Overtos.Rings
