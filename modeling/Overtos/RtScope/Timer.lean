import Overtos.Lib.Runs
import Overtos.RtScope.Metrics

/-! The RT scope's timer interrupt, on a 32-bit microsecond clock and a phase read with some error.
-/
namespace Overtos.RtScope
open Runs
open Word (wrap sub)

def periodUs : ℕ := 1000

structure Timer where
  lastDeadlineUs : ℕ
  deadlineCount : ℕ := 0
  irqOverrunCount : ℕ := 0
  irqEntryAgeMax : ℕ := 0
  irqSignalAgeMax : ℕ := 0
  irqPreemptLockedSamples : ℕ := 0
  releasePreemptLocked : Bool := false
  releaseOwner : ℕ := 0
  releaseGeneration : ℕ := 0

structure Readings where
  nowUs : ℕ
  phaseTicks : ℕ
  signalAge : ℕ := 0
  preemptLocked : Bool := false
  owner : ℕ := 0

def Readings.deadlineUs (r : Readings) : ℕ := sub 32 r.nowUs (r.phaseTicks / ticksPerUs)

def Timer.periods (s : Timer) (r : Readings) : ℕ :=
  max 1 (wrap 32 (sub 32 r.deadlineUs s.lastDeadlineUs + periodUs / 2) / periodUs)

def timerUpdate (s : Timer) (r : Readings) : Timer where
  lastDeadlineUs := wrap 32 (s.lastDeadlineUs + s.periods r * periodUs)
  deadlineCount := wrap 32 (s.deadlineCount + s.periods r)
  irqOverrunCount := wrap 32 (s.irqOverrunCount + (s.periods r - 1))
  irqEntryAgeMax :=
    max s.irqEntryAgeMax
      (min ((s.periods r - 1) * (periodUs * ticksPerUs) + r.phaseTicks) (2 ^ 32 - 1))
  irqSignalAgeMax := max s.irqSignalAgeMax r.signalAge
  irqPreemptLockedSamples := wrap 32 (s.irqPreemptLockedSamples + r.preemptLocked.toNat)
  releasePreemptLocked := r.preemptLocked
  releaseOwner := r.owner
  releaseGeneration := wrap 32 (s.releaseGeneration + 2)

/-- The timer, with the true time of its last interrupt and their number. -/
structure Clocked where
  timer : Timer
  time : ℕ
  interrupts : ℕ

/-- The edges come every 1000 microseconds after the anchor at true time `base`. -/
def edges (base time : ℕ) : ℕ := (time - base) / periodUs

/-- How far the measured edge lies from the latest true one, on the 32-bit clock. -/
def edgeError (base time : ℕ) (r : Readings) : ℤ :=
  Int.bmod (r.deadlineUs - (base + edges base time * periodUs : ℕ)) (2 ^ 32)

variable (base : ℕ)

def anchored : Clocked := ⟨{ lastDeadlineUs := wrap 32 base }, base, 0⟩

/-- An edge elapsed, it is measured to within 500 microseconds, and the last interrupt is not too
long ago. -/
def Timely (c : Clocked) (i : ℕ × Readings) : Prop :=
  |edgeError base i.1 i.2| < 500 ∧ edges base c.time < edges base i.1 ∧
    i.1 < c.time + (2 ^ 32 - 1000)

instance (c : Clocked) (i : ℕ × Readings) : Decidable (Timely base c i) := by
  unfold Timely; infer_instance

def interrupt (c : Clocked) (i : ℕ × Readings) : Option Clocked :=
  if Timely base c i then some ⟨timerUpdate c.timer i.2, i.1, c.interrupts + 1⟩ else none

def Exact (c : Clocked) : Prop :=
  c.timer.deadlineCount = wrap 32 (edges base c.time) ∧
    c.interrupts ≤ edges base c.time ∧
    c.timer.irqOverrunCount = wrap 32 (edges base c.time - c.interrupts)

def elapsedEdges (c : Clocked) (i : ℕ × Readings) : ℕ := edges base i.1 - edges base c.time

/-- Rounded to a period, the measured distance from the last edge fits the 32-bit clock. -/
def RoundsInRange (c : Clocked) (i : ℕ × Readings) : Prop :=
  elapsedEdges base c i * periodUs + edgeError base i.1 i.2 + 500 < 2 ^ 32

def Anchor (c : Clocked) : Prop :=
  c.timer.lastDeadlineUs = wrap 32 (base + edges base c.time * periodUs)

variable {base} {c d : Clocked} {i : ℕ × Readings}

theorem elapsed_eq (hc : Anchor base c) (h : Timely base c i) :
    (sub 32 i.2.deadlineUs c.timer.lastDeadlineUs : ℤ) =
      (elapsedEdges base c i * periodUs + edgeError base i.1 i.2) % 2 ^ 32 := by
  have herr := Word.bmod_two_pow (i.2.deadlineUs - (base + edges base i.1 * periodUs : ℕ)) 32
  have hlt := Word.wrap_lt 32 (base + edges base c.time * periodUs)
  have hedge := h.2.1
  rw [hc, edgeError, elapsedEdges]
  generalize Int.bmod _ _ = e at *
  unfold periodUs sub wrap at *
  omega

theorem elapsedEdges_bounds (h : Timely base c i) :
    1 ≤ elapsedEdges base c i ∧ elapsedEdges base c i * periodUs < 2 ^ 32 := by
  obtain ⟨-, hedge, htime⟩ := h
  unfold elapsedEdges edges periodUs at *
  omega

theorem round_cases {l k : ℕ} {e : ℤ} (hl : (l : ℤ) = (k * periodUs + e) % 2 ^ 32)
    (he : |e| < 500) (hk : 1 ≤ k ∧ k * periodUs < 2 ^ 32) :
    k * periodUs + e + 500 < 2 ^ 32 ∧ max 1 (wrap 32 (l + periodUs / 2) / periodUs) = k ∨
      ¬ k * periodUs + e + 500 < 2 ^ 32 ∧
        max 1 (wrap 32 (l + periodUs / 2) / periodUs) = 1 ∧ 1 < k := by
  rw [abs_lt] at he
  unfold periodUs wrap at *
  by_cases hr : k * (1000 : ℕ) + e + 500 < 2 ^ 32
  · rw [Int.emod_eq_of_lt (by omega) (by omega)] at hl
    exact .inl ⟨hr, by omega⟩
  · exact .inr ⟨hr, by omega⟩

theorem periods_eq (hc : Anchor base c) (h : Timely base c i) :
    RoundsInRange base c i ∧ c.timer.periods i.2 = elapsedEdges base c i ∨
      ¬ RoundsInRange base c i ∧ c.timer.periods i.2 = 1 ∧ 1 < elapsedEdges base c i :=
  round_cases (elapsed_eq hc h) h.1 (elapsedEdges_bounds h)

theorem exact_iff (hexact : Exact base c) (hc : Anchor base c) (h : Timely base c i) :
    Exact base ⟨timerUpdate c.timer i.2, i.1, c.interrupts + 1⟩ ↔ RoundsInRange base c i := by
  obtain ⟨hcount, hle, hover⟩ := hexact
  have hfar := (elapsedEdges_bounds h).2
  have hedge := h.2.1
  have hsplit : edges base i.1 = edges base c.time + elapsedEdges base c i := by
    unfold elapsedEdges
    omega
  simp only [Exact, timerUpdate, hcount, hover, Word.wrap_wrap_add]
  obtain ⟨hr, hp⟩ | ⟨hr, hp, hlt⟩ := periods_eq hc h
  · have hsum : edges base c.time - c.interrupts + (elapsedEdges base c i - 1) =
        edges base i.1 - (c.interrupts + 1) := by omega
    rw [hp, hsum, ← hsplit]
    simp only [hr, true_and, and_true, iff_true]
    omega
  · simp only [hr, iff_false, hp]
    intro hexact
    unfold periodUs at hfar
    have heq := Word.eq_of_wrap_eq (by omega) (by omega) hexact.1.symm
    omega

theorem anchor_timerUpdate (hc : Anchor base c) (h : Timely base c i)
    (hr : RoundsInRange base c i) :
    Anchor base ⟨timerUpdate c.timer i.2, i.1, c.interrupts + 1⟩ := by
  have hedge := h.2.1
  obtain ⟨-, hp⟩ | ⟨hn, -⟩ := periods_eq hc h
  · simp only [Anchor, timerUpdate, hp, elapsedEdges] at hc ⊢
    rw [hc, Word.wrap_wrap_add, Nat.add_assoc, ← Nat.add_mul, Nat.add_sub_cancel' hedge.le]
  · exact absurd hr hn

variable (base) in
/-- The count stays exact as long as each rounding stays inside the 32-bit range: an error of one
measurement never reaches the next. -/
theorem exact_iff_rounds_in_range (irqs : List (ℕ × Readings)) :
    Always (interrupt base) (Exact base) (anchored base) irqs ↔
      Each (interrupt base) (RoundsInRange base) (anchored base) irqs := by
  apply always_iff_each (I := fun c => Exact base c → Anchor base c)
  · intro c i d hc hexact h
    unfold interrupt at h
    split_ifs at h with ht
    cases h
    have hiff := exact_iff hexact (hc hexact) ht
    exact ⟨fun he => anchor_timerUpdate (hc hexact) ht (hiff.mp he), hiff⟩
  · intro _
    simp [Anchor, anchored, edges]
  · simp [Exact, anchored, edges, wrap]

/-- Interrupts 4294966001 microseconds apart, both edges measured without error: half a period
added to the distance wraps, and 4294967 edges count as one. -/
theorem rounding_wraps :
    ¬ Always (interrupt 0) (Exact 0) (anchored 0)
      [(1999, ⟨1999, 53946, 0, false, 0⟩), (4294968000, ⟨704, 0, 0, false, 0⟩)] := by
  intro h
  exact absurd ((h.2 _ rfl).2 _ rfl).1 (by decide)

end Overtos.RtScope
