import Mathlib.Order.Bounds.Basic
import Overtos.Lib.Word

/-! The RT scope's lifetime record, and the dispatch latencies that are printed from it. -/
namespace Overtos.RtScope
open List
open Word (wrap wrap_of_lt)

def ticksPerUs : ℕ := 54

def histUpperUs : List ℕ := [1, 2, 3, 4, 5, 6, 8, 10, 12, 16, 20, 32, 50, 100, 250, 500, 750, 1000]

structure Metrics where
  executions : ℕ := 0
  missed : ℕ := 0
  lateFinish : ℕ := 0
  dispatchMin : ℕ := 2 ^ 32 - 1
  dispatchMax : ℕ := 0
  oldestReleaseAgeMax : ℕ := 0
  maxConsecutiveMissed : ℕ := 0
  preemptLockedDispatchMax : ℕ := 0
  preemptLockedDispatchMaxOwner : ℕ := 0
  preemptUnlockedDispatchMax : ℕ := 0
  dispatchSum : ℕ := 0
  workMin : ℕ := 2 ^ 32 - 1
  workMax : ℕ := 0
  dispatchHist : ℕ → ℕ := fun _ => 0

/-- The arguments of one `metrics_add`. -/
structure Sample where
  dispatch : ℕ
  dispatch_lt : dispatch < 2 ^ 32 := by decide
  oldestReleaseAge : ℕ := 0
  work : ℕ := 0
  missed : ℕ := 0
  lateFinish : Bool := false
  preemptLocked : Bool := false
  owner : ℕ := 0

def histogramBin (ticks : ℕ) : ℕ := (histUpperUs.findIdx? fun us => ticks ≤ us * ticksPerUs).getD 17

def Metrics.add (m : Metrics) (s : Sample) : Metrics where
  executions := wrap 32 (m.executions + 1)
  missed := wrap 32 (m.missed + s.missed)
  lateFinish := wrap 32 (m.lateFinish + s.lateFinish.toNat)
  dispatchMin := min m.dispatchMin s.dispatch
  dispatchMax := max m.dispatchMax s.dispatch
  oldestReleaseAgeMax := max m.oldestReleaseAgeMax s.oldestReleaseAge
  maxConsecutiveMissed := max m.maxConsecutiveMissed s.missed
  preemptLockedDispatchMax :=
    if s.preemptLocked then max m.preemptLockedDispatchMax s.dispatch
    else m.preemptLockedDispatchMax
  preemptLockedDispatchMaxOwner :=
    if s.preemptLocked && m.preemptLockedDispatchMax < s.dispatch then s.owner
    else m.preemptLockedDispatchMaxOwner
  preemptUnlockedDispatchMax :=
    if s.preemptLocked then m.preemptUnlockedDispatchMax
    else max m.preemptUnlockedDispatchMax s.dispatch
  dispatchSum := wrap 64 (m.dispatchSum + s.dispatch)
  workMin := min m.workMin s.work
  workMax := max m.workMax s.work
  dispatchHist :=
    Function.update m.dispatchHist (histogramBin s.dispatch)
      (wrap 32 (m.dispatchHist (histogramBin s.dispatch) + 1))

def recorded (samples : List Sample) : Metrics := samples.foldl Metrics.add {}

-- With 32-bit ticks the product stays below `2 ^ 63`.
def ticksToNs (ticks : ℕ) : ℕ := (ticks * 1000000000 + ticksPerUs * 500000) / (ticksPerUs * 1000000)

structure Report where
  dispatchMinNs : ℕ
  dispatchAvgNs : ℕ
  dispatchMaxNs : ℕ

def rtScopeProcRead (m : Metrics) : Report where
  dispatchMinNs := ticksToNs (if m.executions = 0 then 0 else m.dispatchMin)
  dispatchAvgNs :=
    ticksToNs (if m.executions = 0 then 0 else wrap 32 (m.dispatchSum / m.executions))
  dispatchMaxNs := ticksToNs m.dispatchMax

/-- The three latencies reported after `samples`: the least, the greatest, and an average between
them. -/
def Faithful (samples : List Sample) : Prop :=
  let r := rtScopeProcRead (recorded samples)
  let ns := {t | ∃ s ∈ samples, t = ticksToNs s.dispatch}
  IsLeast ns r.dispatchMinNs ∧ IsGreatest ns r.dispatchMaxNs ∧
    r.dispatchMinNs ≤ r.dispatchAvgNs ∧ r.dispatchAvgNs ≤ r.dispatchMaxNs

theorem ticksToNs_mono {a b : ℕ} (h : a ≤ b) : ticksToNs a ≤ ticksToNs b := by
  unfold ticksToNs
  gcongr

theorem recorded_concat (l : List Sample) (s : Sample) :
    recorded (l ++ [s]) = (recorded l).add s := by
  simp [recorded]

theorem recorded_executions (l : List Sample) : (recorded l).executions = wrap 32 l.length := by
  induction l using reverseRecOn with
  | nil => rfl
  | append_singleton l s ih =>
    rw [recorded_concat, Metrics.add, ih, Word.wrap_wrap_add, length_append, length_singleton]

theorem recorded_sum (l : List Sample) :
    (recorded l).dispatchSum = wrap 64 (l.map Sample.dispatch).sum := by
  induction l using reverseRecOn with
  | nil => rfl
  | append_singleton l s ih =>
    rw [recorded_concat, Metrics.add, ih, Word.wrap_wrap_add]
    simp

theorem recorded_bounds (l : List Sample) :
    ∀ s ∈ l, (recorded l).dispatchMin ≤ s.dispatch ∧ s.dispatch ≤ (recorded l).dispatchMax := by
  induction l using reverseRecOn with
  | nil => simp
  | append_singleton l s ih =>
    intro t ht
    rw [recorded_concat]
    obtain ht | rfl := by simpa using ht
    · exact ⟨(min_le_left _ _).trans (ih t ht).1, (ih t ht).2.trans (le_max_left _ _)⟩
    · exact ⟨min_le_right _ _, le_max_right _ _⟩

theorem recorded_attained (l : List Sample) (hl : l ≠ []) :
    (∃ s ∈ l, s.dispatch = (recorded l).dispatchMin) ∧
      ∃ s ∈ l, s.dispatch = (recorded l).dispatchMax := by
  induction l using reverseRecOn with
  | nil => exact absurd rfl hl
  | append_singleton l s ih =>
    rw [recorded_concat]
    rcases eq_or_ne l [] with rfl | hne
    · -- The first sample replaces both initial values.
      have hs := s.dispatch_lt
      refine ⟨⟨s, by simp, ?_⟩, ⟨s, by simp, ?_⟩⟩ <;> simp [recorded, Metrics.add]
      omega
    · obtain ⟨⟨a, ha, hmin⟩, ⟨b, hb, hmax⟩⟩ := ih hne
      constructor
      · rcases min_choice (recorded l).dispatchMin s.dispatch with h | h
        · exact ⟨a, by simp [ha], hmin.trans h.symm⟩
        · exact ⟨s, by simp, h.symm⟩
      · rcases max_choice (recorded l).dispatchMax s.dispatch with h | h
        · exact ⟨b, by simp [hb], hmax.trans h.symm⟩
        · exact ⟨s, by simp, h.symm⟩

theorem average_bounds {l : List Sample} (hl : l ≠ []) (hlt : l.length < 2 ^ 32) :
    (recorded l).dispatchMin ≤ wrap 32 ((recorded l).dispatchSum / (recorded l).executions) ∧
      wrap 32 ((recorded l).dispatchSum / (recorded l).executions) ≤
        (recorded l).dispatchMax := by
  have hpos := length_pos_iff.mpr hl
  obtain ⟨b, -, hb⟩ := (recorded_attained l hl).2
  have hmax := hb ▸ b.dispatch_lt
  have hlow : l.length * (recorded l).dispatchMin ≤ (l.map Sample.dispatch).sum := by
    simpa using card_nsmul_le_sum (l.map Sample.dispatch) (recorded l).dispatchMin
      (by simpa using fun s hs => (recorded_bounds l s hs).1)
  have hhigh : (l.map Sample.dispatch).sum ≤ l.length * (recorded l).dispatchMax := by
    simpa using sum_le_card_nsmul (l.map Sample.dispatch) (recorded l).dispatchMax
      (by simpa using fun s hs => (recorded_bounds l s hs).2)
  have hfit : l.length * (recorded l).dispatchMax < 2 ^ 64 := by nlinarith
  rw [recorded_executions, recorded_sum, wrap_of_lt hlt, wrap_of_lt (hhigh.trans_lt hfit)]
  have hdiv := Nat.div_le_of_le_mul hhigh
  rw [wrap_of_lt (hdiv.trans_lt hmax)]
  exact ⟨(Nat.le_div_iff_mul_le hpos).mpr (by rwa [Nat.mul_comm]), hdiv⟩

theorem faithful_of_lt {l : List Sample} (hl : l ≠ []) (hlt : l.length < 2 ^ 32) : Faithful l := by
  have hne : (recorded l).executions ≠ 0 := by
    rw [recorded_executions, wrap_of_lt hlt]
    exact (length_pos_iff.mpr hl).ne'
  obtain ⟨⟨a, ha, hmin⟩, ⟨b, hb, hmax⟩⟩ := recorded_attained l hl
  obtain ⟨hlow, hhigh⟩ := average_bounds hl hlt
  simp only [Faithful, rtScopeProcRead, if_neg hne]
  refine ⟨⟨⟨a, ha, by rw [hmin]⟩, ?_⟩, ⟨⟨b, hb, by rw [hmax]⟩, ?_⟩, ticksToNs_mono hlow,
    ticksToNs_mono hhigh⟩
  · rintro _ ⟨s, hs, rfl⟩
    exact ticksToNs_mono (recorded_bounds l s hs).1
  · rintro _ ⟨s, hs, rfl⟩
    exact ticksToNs_mono (recorded_bounds l s hs).2

theorem not_faithful_of_wrap_eq_zero {n : ℕ} (hn : wrap 32 n = 0) :
    ¬ Faithful (replicate n { dispatch := 1 }) := by
  rintro ⟨⟨⟨s, hs, hmin⟩, -⟩, -⟩
  rw [eq_of_mem_replicate hs] at hmin
  simp only [rtScopeProcRead, recorded_executions, length_replicate, hn, if_true] at hmin
  exact absurd hmin (by decide)

theorem not_faithful_of_wrap {n e : ℕ} (he : 0 < e) (hn : wrap 32 n = e) (hle : 2 * e ≤ n) :
    ¬ Faithful (replicate (2 * e) { dispatch := 1 } ++
      replicate (n - 2 * e) { dispatch := 0 }) := by
  have hlt : e < 2 ^ 32 := hn ▸ Word.wrap_lt 32 n
  rintro ⟨-, ⟨⟨s, hs, hmax⟩, -⟩, -, hhigh⟩
  have hs : s.dispatch ≤ 1 := by
    rcases mem_append.mp hs with h | h <;> simp [eq_of_mem_replicate h]
  have hns := ticksToNs_mono hs
  rw [hmax] at hhigh
  simp only [rtScopeProcRead, recorded_executions, recorded_sum, length_append, length_replicate,
    Nat.add_sub_cancel' hle, hn, if_neg he.ne', map_append, map_replicate, sum_append,
    sum_replicate, smul_eq_mul, Nat.mul_one, Nat.mul_zero, Nat.add_zero,
    wrap_of_lt (show 2 * e < 2 ^ 64 by omega), Nat.mul_div_cancel _ he] at hhigh
  exact absurd (hhigh.trans hns) (by decide)

theorem average_overshoots : ¬ Faithful (replicate 2 { dispatch := 1 } ++
    replicate (2 ^ 32 - 1) { dispatch := 0 }) :=
  not_faithful_of_wrap (n := 2 ^ 32 + 1) Nat.one_pos (by decide) (by decide)

theorem faithful_iff_length (n : ℕ) :
    (∀ samples : List Sample, samples.length = n + 1 → Faithful samples) ↔ n + 1 < 2 ^ 32 := by
  constructor
  · intro h
    by_contra hge
    rcases Nat.eq_zero_or_pos (wrap 32 (n + 1)) with h0 | hpos
    · exact not_faithful_of_wrap_eq_zero h0 (h _ (length_replicate ..))
    · have hle : 2 * wrap 32 (n + 1) ≤ n + 1 := by unfold wrap; omega
      exact not_faithful_of_wrap hpos rfl hle
        (h _ (by simp only [length_append, length_replicate, Nat.add_sub_cancel' hle]))
  · intro hlt samples hlen
    exact faithful_of_lt (by rintro rfl; simp at hlen) (hlen ▸ hlt)

end Overtos.RtScope
