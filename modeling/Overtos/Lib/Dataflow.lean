import Mathlib.Tactic

/-! Values that flow along a forest: one sweep in a sorted order, and evaluation by recursion. -/
namespace Dataflow
open List

variable {β : Type*} (upstream : ℕ → Option ℕ) (f : ℕ → β → Option β → β)

def visit (v : ℕ → β) (i : ℕ) : ℕ → β := Function.update v i (f i (v i) ((upstream i).map v))

def sweep (order : List ℕ) (v : ℕ → β) : ℕ → β := order.foldl (visit upstream f) v

def eval (v : ℕ → β) : ℕ → ℕ → Option β
  | 0, _ => none
  | n + 1, i =>
    match upstream i with
    | none => some (f i (v i) none)
    | some u => (eval v n u).map fun x => f i (v i) (some x)

def Sorted (order : List ℕ) : Prop :=
  ∀ pre i post, order = pre ++ i :: post → ∀ u, upstream i = some u → u ∈ pre

variable {upstream f} {order : List ℕ} {v : ℕ → β} {i k : ℕ}

theorem sweep_snoc :
    sweep upstream f (order ++ [k]) v = visit upstream f (sweep upstream f order v) k := by
  simp [sweep]

theorem Sorted.init (h : Sorted upstream (order ++ [k])) : Sorted upstream order := by
  intro pre i post heq u hu
  exact h pre i (post ++ [k]) (by simp [heq]) u hu

theorem Sorted.last (h : Sorted upstream (order ++ [k])) {u : ℕ} (hu : upstream k = some u) :
    u ∈ order :=
  h order k [] rfl u hu

theorem sweep_of_notMem (hi : i ∉ order) : sweep upstream f order v i = v i := by
  induction order using reverseRecOn with
  | nil => rfl
  | append_singleton order k ih =>
    simp only [mem_append, mem_singleton, not_or] at hi
    rw [sweep_snoc, visit, Function.update_of_ne hi.2, ih hi.1]

theorem sweep_snoc_of_mem (hk : k ∉ order) (hi : i ∈ order) :
    sweep upstream f (order ++ [k]) v i = sweep upstream f order v i := by
  have hne : i ≠ k := fun h => hk (h ▸ hi)
  rw [sweep_snoc, visit, Function.update_of_ne hne]

theorem sweep_snoc_self (hk : k ∉ order) : sweep upstream f (order ++ [k]) v k =
    f k (v k) ((upstream k).map (sweep upstream f order v)) := by
  rw [sweep_snoc, visit, Function.update_self, sweep_of_notMem hk]

theorem eval_succ {n : ℕ} {x : β} (h : eval upstream f v n i = some x) :
    eval upstream f v (n + 1) i = some x := by
  induction n generalizing i x with
  | zero => cases h
  | succ n ih =>
    unfold eval at h ⊢
    cases hu : upstream i with
    | none => simpa [hu] using h
    | some u =>
      simp only [hu, Option.map_eq_some_iff] at h ⊢
      obtain ⟨y, hy, rfl⟩ := h
      exact ⟨y, ih hy, rfl⟩

theorem exists_of_eval {n : ℕ} {x : β} (h : eval upstream f v n i = some x) :
    ∃ old up, x = f i old up := by
  cases n with
  | zero => cases h
  | succ n =>
    unfold eval at h
    cases hu : upstream i with
    | none =>
      simp only [hu, Option.some.injEq] at h
      exact ⟨_, _, h.symm⟩
    | some u =>
      simp only [hu, Option.map_eq_some_iff] at h
      obtain ⟨y, -, rfl⟩ := h
      exact ⟨_, _, rfl⟩

theorem eval_eq_sweep (hnodup : order.Nodup) (hsorted : Sorted upstream order) (hi : i ∈ order) :
    eval upstream f v order.length i = some (sweep upstream f order v i) := by
  induction order using reverseRecOn generalizing i with
  | nil => cases hi
  | append_singleton order k ih =>
    obtain ⟨hinit, -, hdisj⟩ := nodup_append.mp hnodup
    have hk : k ∉ order := fun hmem => hdisj k hmem k (mem_singleton_self k) rfl
    rw [length_append, length_singleton]
    rcases mem_append.mp hi with hold | hnew
    · rw [sweep_snoc_of_mem hk hold]
      exact eval_succ (ih hinit hsorted.init hold)
    · obtain rfl := mem_singleton.mp hnew
      rw [sweep_snoc_self hk, eval]
      cases hu : upstream i with
      | none => rfl
      | some u =>
        simp only [ih hinit hsorted.init (hsorted.last hu), Option.map_some]

end Dataflow
