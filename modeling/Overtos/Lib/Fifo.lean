import Mathlib.Tactic

/-! The bounded queue, and what a channel of a given capacity shows to the parties that use it. -/
namespace Fifo

variable {α σ ι : Type*}

inductive Op (α : Type*) where
  | put (xs : List α)
  | take (gate n : ℕ)
  | reset

inductive Out (α : Type*) where
  | stored (n : ℕ)
  | items (xs : List α)

def step (cap : ℕ) (q : List α) : Op α → List α × Out α
  | .put xs => (q ++ xs.take (cap - q.length), .stored (min xs.length (cap - q.length)))
  | .take gate n => if q.length < gate then (q, .items []) else (q.drop n, .items (q.take n))
  | .reset => ([], .stored 0)

structure History (α : Type*) where
  accepted : List α
  returned : List α

def History.start : History α := ⟨[], []⟩

def History.record (h : History α) : Op α → Out α → History α
  | .put xs, .stored n => { h with accepted := h.accepted ++ xs.take n }
  | .take _ _, .items xs => { h with returned := h.returned ++ xs }
  | .reset, _ => .start
  | _, _ => h

def track (φ : ι → Op α) (f : σ → ι → σ × Out α) (p : σ × History α) (i : ι) : σ × History α :=
  ((f p.1 i).1, p.2.record (φ i) (f p.1 i).2)

def trace (φ : ι → Op α) (f : σ → ι → σ × Out α) (s : σ) (is : List ι) : σ × History α :=
  is.foldl (track φ f) (s, .start)

/-- The items returned are the first ones accepted, those missing can still be had, and an item is
refused only when full. -/
structure Behaves (cap : ℕ) (φ : ι → Op α) (f : σ → ι → σ × Out α) (s : σ) (is : List ι) :
    Prop where
  inOrder : (trace φ f s is).2.returned <+: (trace φ f s is).2.accepted
  complete : ∃ i n, φ i = .take 0 n ∧ (f (trace φ f s is).1 i).2 =
    .items ((trace φ f s is).2.accepted.drop (trace φ f s is).2.returned.length)
  refuses : ∀ i x, φ i = .put [x] → (f (trace φ f s is).1 i).2 = .stored 0 →
    (trace φ f s is).2.accepted.length = (trace φ f s is).2.returned.length + cap

variable {cap : ℕ} {q : List α}

theorem record_step {h : History α} (hq : h.accepted = h.returned ++ q) (hcap : q.length ≤ cap)
    (op : Op α) : let h' := h.record op (step cap q op).2
    h'.accepted = h'.returned ++ (step cap q op).1 ∧ (step cap q op).1.length ≤ cap := by
  cases op with
  | put xs =>
    have hx : xs.take (min xs.length (cap - q.length)) = xs.take (cap - q.length) := by
      rw [List.take_eq_take_iff]
      omega
    constructor
    · simp [History.record, step, hq, hx]
    · simp [step]
      omega
  | take gate n =>
    by_cases hg : q.length < gate
    · simpa [History.record, step, hg, hq] using hcap
    · constructor
      · simp [History.record, step, hg, hq]
      · simp [step, hg]
        omega
  | reset => simp [History.record, step, History.start]

section

variable {cap : ℕ} {φ : ι → Op α} {f : σ → ι → σ × Out α} {R : σ → List α → Prop}
  (hstep : ∀ s q i, R s q →
    R (f s i).1 (step cap q (φ i)).1 ∧ (f s i).2 = (step cap q (φ i)).2)

include hstep

theorem foldl_track {q : List α} {p : σ × History α} (hR : R p.1 q)
    (hq : p.2.accepted = p.2.returned ++ q) (hcap : q.length ≤ cap) (is : List ι) :
    let p' := is.foldl (track φ f) p
    ∃ q', R p'.1 q' ∧ p'.2.accepted = p'.2.returned ++ q' ∧ q'.length ≤ cap := by
  induction is generalizing p q with
  | nil => exact ⟨q, hR, hq, hcap⟩
  | cons i is ih =>
    obtain ⟨hR', hout⟩ := hstep p.1 q i hR
    obtain ⟨hq', hcap'⟩ := record_step hq hcap (φ i)
    rw [← hout] at hq'
    exact ih (p := track φ f p i) hR' hq' hcap'

theorem trace_simulates {s : σ} (h : R s []) (is : List ι) : ∃ q, R (trace φ f s is).1 q ∧
      (trace φ f s is).2.accepted = (trace φ f s is).2.returned ++ q ∧ q.length ≤ cap :=
  foldl_track hstep (p := (s, .start)) h rfl (Nat.zero_le _) is

end

inductive Accepts (cap : ℕ) : List (Op α × Out α) → List α → Prop where
  | start : Accepts cap [] []
  | next {evs : List (Op α × Out α)} {q : List α} (op : Op α) :
      Accepts cap evs q → Accepts cap (evs ++ [(op, (step cap q op).2)]) (step cap q op).1

def history (evs : List (Op α × Out α)) : History α :=
  evs.foldl (fun h e => h.record e.1 e.2) .start

theorem step_put_one (h : q.length < cap) (x : α) :
    step cap q (.put [x]) = (q ++ [x], .stored 1) := by
  have htake : [x].take (cap - q.length) = [x] := List.take_of_length_le (by simp; omega)
  have hmin : min [x].length (cap - q.length) = 1 := by
    rw [List.length_singleton]
    omega
  rw [step, htake, hmin]

theorem step_take_one (cap : ℕ) (x : α) (q : List α) :
    step cap (x :: q) (.take 0 1) = (q, .items [x]) := rfl

end Fifo
