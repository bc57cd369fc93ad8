import Mathlib.Tactic

/-! Deterministic machines that answer each input: runs, and forward simulation between two. -/
namespace Machine

variable {σ τ ι ο : Type*}

def run (step : σ → ι → σ × ο) : σ → List ι → σ × List ο
  | s, [] => (s, [])
  | s, i :: is =>
    let o := step s i
    let r := run step o.1 is
    (r.1, o.2 :: r.2)

variable {step : σ → ι → σ × ο} {stepT : τ → ι → τ × ο}

@[simp] theorem run_nil (s : σ) : run step s [] = (s, []) := rfl

@[simp] theorem run_cons (s : σ) (i : ι) (is : List ι) : run step s (i :: is) =
      ((run step (step s i).1 is).1, (step s i).2 :: (run step (step s i).1 is).2) := rfl

def Throughout (step : σ → ι → σ × ο) (P : σ → Prop) : σ → List ι → Prop
  | s, [] => P s
  | s, i :: is => P s ∧ Throughout step P (step s i).1 is

instance Throughout.decidable {P : σ → Prop} [DecidablePred P] :
    (s : σ) → (is : List ι) → Decidable (Throughout step P s is)
  | s, [] => inferInstanceAs (Decidable (P s))
  | s, i :: is =>
    @instDecidableAnd (P s) (Throughout step P (step s i).1 is) inferInstance
      (Throughout.decidable (step s i).1 is)

variable {s : σ} {is : List ι} {R : σ → τ → Prop}

theorem Throughout.head {P : σ → Prop} (h : Throughout step P s is) : P s := by
  cases is with
  | nil => exact h
  | cons i is => exact h.1

theorem run_simulates_within {P : τ → Prop} (hstep : ∀ s t i, R s t → P t → P (stepT t i).1 →
      R (step s i).1 (stepT t i).1 ∧ (step s i).2 = (stepT t i).2) {t : τ} (h : R s t)
    (hP : Throughout stepT P t is) :
    R (run step s is).1 (run stepT t is).1 ∧ (run step s is).2 = (run stepT t is).2 := by
  induction is generalizing s t with
  | nil => exact ⟨h, rfl⟩
  | cons i is ih =>
    obtain ⟨hR, ho⟩ := hstep s t i h hP.1 hP.2.head
    obtain ⟨hR', hos⟩ := ih hR hP.2
    exact ⟨hR', by simp [ho, hos]⟩

theorem run_simulates
    (hstep : ∀ s t i, R s t → R (step s i).1 (stepT t i).1 ∧ (step s i).2 = (stepT t i).2) {t : τ}
    (h : R s t) (is : List ι) :
    R (run step s is).1 (run stepT t is).1 ∧ (run step s is).2 = (run stepT t is).2 := by
  induction is generalizing s t with
  | nil => exact ⟨h, rfl⟩
  | cons i is ih =>
    obtain ⟨hR, ho⟩ := hstep s t i h
    obtain ⟨hR', hos⟩ := ih hR
    exact ⟨hR', by simp [ho, hos]⟩

end Machine
