import Mathlib.Tactic

/-! Runs of a partial step function: what holds in every state passed, and at every step taken. -/
namespace Runs

variable {σ α : Type*} (step : σ → α → Option σ)

def Always (P : σ → Prop) : σ → List α → Prop
  | s, [] => P s
  | s, a :: as => P s ∧ ∀ t, step s a = some t → Always P t as

def Each (C : σ → α → Prop) : σ → List α → Prop
  | _, [] => True
  | s, a :: as => ∀ t, step s a = some t → C s a ∧ Each C t as

instance decidableEach {C : σ → α → Prop} [∀ s a, Decidable (C s a)] :
    ∀ s as, Decidable (Each step C s as)
  | _, [] => .isTrue trivial
  | s, a :: as =>
    match h : step s a with
    | none => .isTrue fun _ ht => absurd (h.symm.trans ht) nofun
    | some t =>
      have : Decidable (Each step C t as) := decidableEach t as
      decidable_of_iff (C s a ∧ Each step C t as)
        ⟨fun hc _ hu => Option.some.inj (h.symm.trans hu) ▸ hc, fun hc => hc t h⟩

variable {step} {P Q I : σ → Prop} {s t : σ} {as : List α} {C D : σ → α → Prop}

theorem Always.head (h : Always step P s as) : P s := by
  cases as with
  | nil => exact h
  | cons a as => exact h.1

theorem Always.mono (h : ∀ s, P s → Q s) (ha : Always step P s as) : Always step Q s as := by
  induction as generalizing s with
  | nil => exact h s ha
  | cons a as ih => exact ⟨h s ha.1, fun t ht => ih (ha.2 t ht)⟩

theorem Always.last (h : Always step P s as) (ht : as.foldlM step s = some t) : P t := by
  induction as generalizing s with
  | nil =>
    cases ht
    exact h
  | cons a as ih =>
    obtain ⟨u, hu, ht⟩ := Option.bind_eq_some_iff.mp ht
    exact ih (h.2 u hu) ht

theorem always_of_each (hP : ∀ s a t, P s → C s a → step s a = some t → P t) (hs : P s)
    (h : Each step C s as) : Always step P s as := by
  induction as generalizing s with
  | nil => exact hs
  | cons a as ih =>
    refine ⟨hs, fun t ht => ?_⟩
    obtain ⟨hc, hrest⟩ := h t ht
    exact ih (hP s a t hs hc ht) hrest

theorem always_of_invariant (hP : ∀ s a t, P s → step s a = some t → P t) (hs : P s) (as : List α) :
    Always step P s as := by
  induction as generalizing s with
  | nil => exact hs
  | cons a as ih => exact ⟨hs, fun t ht => ih (hP s a t hs ht)⟩

theorem always_congr (hI : ∀ s a t, I s → step s a = some t → I t) (h : ∀ s, I s → (P s ↔ Q s))
    (hs : I s) (as : List α) : Always step P s as ↔ Always step Q s as := by
  induction as generalizing s with
  | nil => exact h s hs
  | cons a as ih =>
    exact and_congr (h s hs) (forall₂_congr fun t ht => ih (hI s a t hs ht))

theorem Each.imp (hstep : ∀ s a t, I s → step s a = some t → C s a → D s a ∧ I t) (hs : I s)
    (h : Each step C s as) : Each step D s as := by
  induction as generalizing s with
  | nil => trivial
  | cons a as ih =>
    intro t ht
    obtain ⟨hc, hrest⟩ := h t ht
    obtain ⟨hd, hI⟩ := hstep s a t hs ht hc
    exact ⟨hd, ih hI hrest⟩

theorem each_congr (hI : ∀ s a t, I s → step s a = some t → I t)
    (h : ∀ s a t, I s → step s a = some t → (C s a ↔ D s a)) (hs : I s) (as : List α) :
    Each step C s as ↔ Each step D s as := by
  constructor
  · exact Each.imp (fun s a t hs ht hc => ⟨(h s a t hs ht).mp hc, hI s a t hs ht⟩) hs
  · exact Each.imp (fun s a t hs ht hd => ⟨(h s a t hs ht).mpr hd, hI s a t hs ht⟩) hs

theorem Each.cons {a : α} (ht : step s a = some t) (hc : C s a) (h : Each step C t as) :
    Each step C s (a :: as) := by
  intro u hu
  rw [ht] at hu
  cases hu
  exact ⟨hc, h⟩

theorem Each.right {bs : List α} (h : Each step C s (as ++ bs)) (ht : as.foldlM step s = some t) :
    Each step C t bs := by
  induction as generalizing s with
  | nil =>
    cases ht
    exact h
  | cons a as ih =>
    obtain ⟨u, hu, ht⟩ := Option.bind_eq_some_iff.mp ht
    exact ih (h u hu).2 ht

variable {I P : σ → Prop} {C : σ → α → Prop}
  (hstep : ∀ s a t, I s → P s → step s a = some t → I t ∧ (P t ↔ C s a))

include hstep

theorem always_and_of_each {s : σ} (hs : I s) (hp : P s) {as : List α} (h : Each step C s as) :
    Always step (fun s => I s ∧ P s) s as := by
  apply always_of_each _ ⟨hs, hp⟩ h
  intro s a t hs hc ht
  obtain ⟨hIt, hPt⟩ := hstep s a t hs.1 hs.2 ht
  exact ⟨hIt, hPt.mpr hc⟩

theorem always_iff_each {s : σ} (hs : I s) (hp : P s) (as : List α) :
    Always step P s as ↔ Each step C s as := by
  constructor
  · intro h
    induction as generalizing s with
    | nil => trivial
    | cons a as ih =>
      intro t ht
      have hrest := h.2 t ht
      obtain ⟨hIt, hPt⟩ := hstep s a t hs hp ht
      exact ⟨hPt.mp hrest.head, ih hIt hrest.head hrest⟩
  · intro h
    exact (always_and_of_each hstep hs hp h).mono fun t ht => ht.2

end Runs
