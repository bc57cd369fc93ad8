import Mathlib.Tactic

/-! A scan that keeps the first longest element that fits. -/
namespace Longest
open List

variable {α : Type*} (fits : α → Bool) (len : α → ℕ)

def pick (best : Option α × ℕ) (a : α) : Option α × ℕ :=
  if fits a ∧ best.2 < len a then (some a, len a) else best

def longest (l : List α) : Option α := (l.foldl (pick fits len) (none, 0)).1

structure Best (l : List α) (s : Option α × ℕ) : Prop where
  bound : ∀ a ∈ l, fits a → len a ≤ s.2
  empty : s.1 = none → s.2 = 0
  found : ∀ a, s.1 = some a → a ∈ l ∧ fits a ∧ len a = s.2 ∧ 0 < s.2

variable {fits len} {l : List α}

theorem Best.pick {s : Option α × ℕ} (h : Best fits len l s) (a : α) :
    Best fits len (l ++ [a]) (pick fits len s a) := by
  rw [Longest.pick]
  split_ifs with hbetter
  · refine ⟨fun b hb hfits => ?_, by simp, fun b hb => ?_⟩
    · rcases mem_append.mp hb with hb | hb
      · exact (h.bound b hb hfits).trans hbetter.2.le
      · rw [mem_singleton.mp hb]
    · cases hb
      exact ⟨by simp, hbetter.1, rfl, Nat.zero_lt_of_lt hbetter.2⟩
  · refine ⟨fun b hb hfits => ?_, h.empty, fun b hb => ?_⟩
    · rcases mem_append.mp hb with hb | hb
      · exact h.bound b hb hfits
      · rw [mem_singleton.mp hb] at hfits ⊢
        exact Nat.le_of_not_lt fun hlt => hbetter ⟨hfits, hlt⟩
    · obtain ⟨hmem, hrest⟩ := h.found b hb
      exact ⟨mem_append_left _ hmem, hrest⟩

theorem best_foldl (l : List α) : Best fits len l (l.foldl (pick fits len) (none, 0)) := by
  induction l using reverseRecOn with
  | nil => exact ⟨by simp, fun _ => rfl, by simp⟩
  | append_singleton l a ih =>
    rw [foldl_append, foldl_cons, foldl_nil]
    exact ih.pick a

theorem longest_some {a : α} (h : longest fits len l = some a) :
    a ∈ l ∧ fits a ∧ 0 < len a ∧ ∀ b ∈ l, fits b → len b ≤ len a := by
  have hbest : Best fits len l (l.foldl (pick fits len) (none, 0)) := best_foldl l
  obtain ⟨hmem, hfits, hlen, hpos⟩ := hbest.found a h
  rw [← hlen] at hpos
  exact ⟨hmem, hfits, hpos, fun b hb hf => (hbest.bound b hb hf).trans hlen.ge⟩

theorem longest_eq_none_iff : longest fits len l = none ↔ ∀ a ∈ l, fits a → len a = 0 := by
  have hbest : Best fits len l (l.foldl (pick fits len) (none, 0)) := best_foldl l
  constructor
  · intro h a ha hf
    have hle := hbest.bound a ha hf
    rw [hbest.empty h] at hle
    exact Nat.le_zero.mp hle
  · intro h
    by_contra hne
    obtain ⟨a, ha⟩ := Option.ne_none_iff_exists'.mp hne
    obtain ⟨hmem, hfits, hpos, -⟩ := longest_some ha
    exact hpos.ne' (h a hmem hfits)

theorem longest_eq_some_iff (hinj : ∀ a ∈ l, ∀ b ∈ l, fits a → fits b → len a = len b → a = b)
    {a : α} : longest fits len l = some a ↔
      a ∈ l ∧ fits a ∧ 0 < len a ∧ ∀ b ∈ l, fits b → len b ≤ len a := by
  refine ⟨longest_some, fun h => ?_⟩
  obtain ⟨hmem, hfits, hpos, hmax⟩ := h
  cases hfound : longest fits len l with
  | none => exact absurd (longest_eq_none_iff.mp hfound a hmem hfits) hpos.ne'
  | some b =>
    obtain ⟨hmem', hfits', -, hmax'⟩ := longest_some hfound
    rw [hinj b hmem' a hmem hfits' hfits (Nat.le_antisymm (hmax b hmem' hfits')
      (hmax' a hmem hfits))]

end Longest
