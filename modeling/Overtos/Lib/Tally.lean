import Mathlib.Tactic
import Mathlib.Algebra.BigOperators.Fin

/-! Counting threads by the places they are at: sums of weights that change at one thread at a
time. -/
namespace Tally

variable {ι π : Type*} [Fintype ι] {w v : π → ℕ} {pos : ι → π}

def tally (w : π → ℕ) (pos : ι → π) : ℕ := ∑ i, w (pos i)

theorem le_tally (w : π → ℕ) (pos : ι → π) (i : ι) : w (pos i) ≤ tally w pos := by
  unfold tally
  exact Finset.single_le_sum (f := fun j => w (pos j)) (fun _ _ => Nat.zero_le _)
    (Finset.mem_univ i)

theorem tally_mono (h : ∀ p, w p ≤ v p) (pos : ι → π) : tally w pos ≤ tally v pos :=
  Finset.sum_le_sum fun i _ => h (pos i)

theorem tally_eq_zero (h : ∀ i, w (pos i) = 0) : tally w pos = 0 :=
  Finset.sum_eq_zero fun i _ => h i

theorem tally_update [DecidableEq ι] (w : π → ℕ) (pos : ι → π) (i : ι) (p : π) :
    tally w (Function.update pos i p) + w (pos i) = tally w pos + w p := by
  have hmap : ∀ j, w (Function.update pos i p j) =
      Function.update (fun j => w (pos j)) i (w p) j :=
    fun j => congrFun (Function.comp_update w pos i p) j
  have hsum := Finset.sum_update_of_mem (Finset.mem_univ i) (fun j => w (pos j)) (w p)
  have hrest := Finset.add_sum_erase Finset.univ (fun j => w (pos j)) (Finset.mem_univ i)
  unfold tally
  simp only [hmap]
  rw [hsum, ← hrest, Finset.sdiff_singleton_eq_erase]
  omega

end Tally
