import Mathlib.Tactic

/-! Tables of slots that each are free or hold a key with its value, as a partial map. -/
namespace Slots
open Function

variable {ι κ ν : Type*}

structure Holds (t : ι → Option (κ × ν)) (m : κ → Option ν) : Prop where
  mem : ∀ k v, m k = some v ↔ ∃ i, t i = some (k, v)
  unique : ∀ i j k v v', t i = some (k, v) → t j = some (k, v') → i = j

theorem holds_empty : Holds (fun _ : ι => none) (fun _ : κ => (none : Option ν)) :=
  ⟨by simp, by simp⟩

theorem Holds.set [DecidableEq ι] [DecidableEq κ] {t : ι → Option (κ × ν)} {m : κ → Option ν}
    (h : Holds t m) {i : ι} {k : κ} (hi : ∀ k' v, t i = some (k', v) → k' = k)
    (hk : ∀ j v, t j = some (k, v) → j = i) (e : Option ν) :
    Holds (update t i (e.map (k, ·))) (update m k e) := by
  have hother {k' : κ} (hne : k' ≠ k) (j : ι) (v : ν) :
      update t i (e.map (k, ·)) j = some (k', v) ↔ t j = some (k', v) := by
    by_cases hj : j = i
    · subst hj
      rw [update_self]
      refine iff_of_false (fun h' => ?_) fun h' => hne (hi k' v h')
      obtain ⟨_, -, heq⟩ := Option.map_eq_some_iff.mp h'
      exact hne (Prod.ext_iff.mp heq).1.symm
    · rw [update_of_ne hj]
  have hthis (j : ι) (v : ν) :
      update t i (e.map (k, ·)) j = some (k, v) ↔ j = i ∧ e = some v := by
    by_cases hj : j = i
    · subst hj
      simp
    · rw [update_of_ne hj]
      exact iff_of_false (fun h' => hj (hk j v h')) fun h' => hj h'.1
  constructor
  · intro k' v
    by_cases hne : k' = k
    · subst hne
      simp [hthis]
    · simp only [update_of_ne hne, hother hne]
      exact h.mem k' v
  · intro j j' k' v v' hj hj'
    by_cases hne : k' = k
    · subst hne
      exact ((hthis j v).mp hj).1.trans ((hthis j' v').mp hj').1.symm
    · exact h.unique j j' k' v v' ((hother hne j v).mp hj) ((hother hne j' v').mp hj')

end Slots
