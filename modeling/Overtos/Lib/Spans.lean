import Mathlib.Tactic

/-! Ranges laid out one behind the other from zero on. -/
namespace Spans
open List

structure Span where
  off : ℕ
  size : ℕ
  align : ℕ
  deriving DecidableEq, Repr

def Span.stop (s : Span) : ℕ := s.off + s.size

def stopOf (l : List Span) : ℕ := (l.getLast?.map Span.stop).getD 0

@[simp] theorem stopOf_concat (l : List Span) (s : Span) : stopOf (l ++ [s]) = s.stop := by
  simp [stopOf]

structure Laid (n : ℕ) (l : List Span) : Prop where
  ordered : l.Pairwise fun s t => s.stop ≤ t.off
  inside : ∀ s ∈ l, s.stop ≤ n
  aligned : ∀ s ∈ l, s.align ∣ s.off

variable {n : ℕ} {l : List Span} {s : Span}

theorem laid_nil : Laid n [] :=
  ⟨.nil, fun _ h => absurd h not_mem_nil, fun _ h => absurd h not_mem_nil⟩

theorem Laid.le_stopOf (h : Laid n l) (hs : s ∈ l) : s.stop ≤ stopOf l := by
  induction l using reverseRecOn with
  | nil => exact absurd hs not_mem_nil
  | append_singleton l t _ =>
    rw [stopOf_concat]
    rcases mem_append.mp hs with hs | hs
    · have hst := (pairwise_append.mp h.ordered).2.2 s hs t mem_cons_self
      exact hst.trans (Nat.le_add_right _ _)
    · rw [mem_singleton.mp hs]

theorem Laid.stopOf_le (h : Laid n l) : stopOf l ≤ n := by
  induction l using reverseRecOn with
  | nil => exact Nat.zero_le n
  | append_singleton l t _ =>
    rw [stopOf_concat]
    exact h.inside t (mem_append_right l mem_cons_self)

theorem Laid.concat (h : Laid n l) (hoff : stopOf l ≤ s.off) (hin : s.stop ≤ n)
    (hal : s.align ∣ s.off) : Laid n (l ++ [s]) := by
  refine ⟨pairwise_append.mpr ⟨h.ordered, pairwise_singleton _ _, ?_⟩, ?_, ?_⟩
  · intro t ht u hu
    rw [mem_singleton.mp hu]
    exact (h.le_stopOf ht).trans hoff
  · intro t ht
    rcases mem_append.mp ht with ht | ht
    · exact h.inside t ht
    · rwa [mem_singleton.mp ht]
  · intro t ht
    rcases mem_append.mp ht with ht | ht
    · exact h.aligned t ht
    · rwa [mem_singleton.mp ht]

end Spans
