import Mathlib.Tactic

/-! Numbered resources, the slots that hold them, and the record of what was released. -/
namespace Ledgers
open Function Option

structure Ledger (σ κ : Type*) where
  slot : σ → Option ℕ
  kinds : List κ
  released : List ℕ

variable {σ κ : Type*} [DecidableEq σ]

def empty : Ledger σ κ := ⟨fun _ => none, [], []⟩

section
variable (L : Ledger σ κ) (s t : σ)

def acquire (k : κ) : Ledger σ κ :=
  { L with slot := update L.slot s (some L.kinds.length), kinds := L.kinds ++ [k] }

def clear : Ledger σ κ := { L with slot := update L.slot s none }

def release : Ledger σ κ :=
  { L with slot := update L.slot s none, released := L.released ++ (L.slot s).toList }

def move : Ledger σ κ := { L with slot := update (update L.slot t (L.slot s)) s none }

end

structure Balanced (L : Ledger σ κ) : Prop where
  slot_lt : ∀ s i, L.slot s = some i → i < L.kinds.length
  slot_inj : ∀ s t i, L.slot s = some i → L.slot t = some i → s = t
  slot_live : ∀ s i, L.slot s = some i → i ∉ L.released
  once : L.released.Nodup
  released_lt : ∀ i ∈ L.released, i < L.kinds.length
  kept : ∀ i < L.kinds.length, i ∈ L.released ∨ ∃ s, L.slot s = some i

def Lost (L : Ledger σ κ) : Prop := ∃ i < L.kinds.length, i ∉ L.released ∧ ∀ s, L.slot s ≠ some i

def Accounted (L : Ledger σ κ) : Prop := ∀ i < L.kinds.length, L.released.count i = 1

instance (L : Ledger σ κ) : Decidable (Accounted L) :=
  inferInstanceAs (Decidable (∀ i < L.kinds.length, _))

variable {L : Ledger σ κ} {s t : σ}

theorem acquire_slot (k : κ) (t : σ) :
    (acquire L s k).slot t = if t = s then some L.kinds.length else L.slot t :=
  update_apply ..

theorem clear_slot (t : σ) : (clear L s).slot t = if t = s then none else L.slot t :=
  update_apply ..

theorem release_slot (t : σ) : (release L s).slot t = if t = s then none else L.slot t :=
  update_apply ..

theorem move_slot (t u : σ) :
    (move L s t).slot u = if u = s then none else if u = t then L.slot s else L.slot u := by
  simp only [move, update_apply]

omit [DecidableEq σ] in
theorem balanced_empty : Balanced (empty : Ledger σ κ) where
  slot_lt := by simp [empty]
  slot_inj := by simp [empty]
  slot_live := by simp [empty]
  once := List.nodup_nil
  released_lt := by simp [empty]
  kept := by simp [empty]

theorem Balanced.acquire (h : Balanced L) (hs : L.slot s = none) (k : κ) :
    Balanced (acquire L s k) := by
  have hlen : (Ledgers.acquire L s k).kinds.length = L.kinds.length + 1 := by
    simp [Ledgers.acquire]
  have hslot : ∀ t i, (Ledgers.acquire L s k).slot t = some i →
      (t = s ∧ i = L.kinds.length) ∨ (t ≠ s ∧ L.slot t = some i) := by
    intro t i ht
    rw [acquire_slot] at ht
    split_ifs at ht with hts
    · exact .inl ⟨hts, (some.inj ht).symm⟩
    · exact .inr ⟨hts, ht⟩
  constructor
  · intro t i ht
    rw [hlen]
    rcases hslot t i ht with ⟨-, rfl⟩ | ⟨-, ht⟩
    · omega
    · have := h.slot_lt t i ht
      omega
  · intro t u i ht hu
    rcases hslot t i ht with ⟨hts, hi⟩ | ⟨-, ht'⟩ <;> rcases hslot u i hu with ⟨hus, hi'⟩ | ⟨-, hu'⟩
    · rw [hts, hus]
    · have := h.slot_lt u i hu'
      omega
    · have := h.slot_lt t i ht'
      omega
    · exact h.slot_inj t u i ht' hu'
  · intro t i ht
    rcases hslot t i ht with ⟨-, rfl⟩ | ⟨-, ht⟩
    · exact fun hr => absurd (h.released_lt _ hr) (lt_irrefl _)
    · exact h.slot_live t i ht
  · exact h.once
  · intro i hi
    have := h.released_lt i hi
    omega
  · intro i hi
    rw [hlen] at hi
    by_cases hnew : i = L.kinds.length
    · exact .inr ⟨s, by rw [acquire_slot, if_pos rfl, hnew]⟩
    rcases h.kept i (by omega) with hr | ⟨t, ht⟩
    · exact .inl hr
    · have hts : t ≠ s := by
        rintro rfl
        rw [hs] at ht
        cases ht
      exact .inr ⟨t, by rw [acquire_slot, if_neg hts, ht]⟩

theorem Balanced.release (h : Balanced L) (s : σ) : Balanced (release L s) := by
  have hslot : ∀ t i, (Ledgers.release L s).slot t = some i → t ≠ s ∧ L.slot t = some i := by
    intro t i ht
    rw [release_slot] at ht
    split_ifs at ht with hts
    exact ⟨hts, ht⟩
  have hmem : ∀ i, i ∈ (Ledgers.release L s).released ↔ i ∈ L.released ∨ L.slot s = some i := by
    intro i
    simp [Ledgers.release]
  constructor
  · exact fun t i ht => h.slot_lt t i (hslot t i ht).2
  · exact fun t u i ht hu => h.slot_inj t u i (hslot t i ht).2 (hslot u i hu).2
  · intro t i ht hr
    obtain ⟨hts, ht⟩ := hslot t i ht
    rcases (hmem i).mp hr with hr | hr
    · exact h.slot_live t i ht hr
    · exact hts (h.slot_inj t s i ht hr)
  · refine List.Nodup.append h.once ?_ ?_
    · cases L.slot s <;> simp
    · intro i hi hs
      rw [mem_toList] at hs
      exact h.slot_live s i hs hi
  · intro i hi
    rcases (hmem i).mp hi with hr | hr
    · exact h.released_lt i hr
    · exact h.slot_lt s i hr
  · intro i hi
    rw [hmem]
    rcases h.kept i hi with hr | ⟨t, ht⟩
    · exact .inl (.inl hr)
    · by_cases hts : t = s
      · exact .inl (.inr (hts ▸ ht))
      · exact .inr ⟨t, by rw [release_slot, if_neg hts, ht]⟩

theorem Balanced.move (h : Balanced L) (hst : s ≠ t) (ht : L.slot t = none) :
    Balanced (move L s t) := by
  have hslot : ∀ u i, (Ledgers.move L s t).slot u = some i →
      u ≠ s ∧ L.slot (if u = t then s else u) = some i := by
    intro u i hu
    rw [move_slot] at hu
    by_cases hus : u = s
    · rw [if_pos hus] at hu
      cases hu
    · rw [if_neg hus] at hu
      refine ⟨hus, ?_⟩
      rw [← hu]
      split_ifs <;> rfl
  constructor
  · exact fun u i hu => h.slot_lt _ i (hslot u i hu).2
  · intro u v i hu hv
    obtain ⟨hus, hu⟩ := hslot u i hu
    obtain ⟨hvs, hv⟩ := hslot v i hv
    have heq := h.slot_inj _ _ i hu hv
    split_ifs at heq with hut hvt hvt
    · rw [hut, hvt]
    · exact absurd heq.symm hvs
    · exact absurd heq hus
    · exact heq
  · exact fun u i hu => h.slot_live _ i (hslot u i hu).2
  · exact h.once
  · exact h.released_lt
  · intro i hi
    rcases h.kept i hi with hr | ⟨u, hu⟩
    · exact .inl hr
    · by_cases hus : u = s
      · exact .inr ⟨t, by rw [move_slot, if_neg hst.symm, if_pos rfl, ← hus, hu]⟩
      · have hut : u ≠ t := by
          rintro rfl
          rw [ht] at hu
          cases hu
        exact .inr ⟨u, by rw [move_slot, if_neg hus, if_neg hut, hu]⟩

theorem clear_of_none (hs : L.slot s = none) : clear L s = L := by
  rw [clear, ← hs, update_eq_self]

theorem Balanced.lost_acquire (h : Balanced L) (hs : L.slot s ≠ none) (k : κ) :
    Lost (Ledgers.acquire L s k) := by
  obtain ⟨i, hi⟩ := ne_none_iff_exists'.mp hs
  have hlt := h.slot_lt s i hi
  refine ⟨i, by simp [Ledgers.acquire]; omega, h.slot_live s i hi, fun t ht => ?_⟩
  rw [acquire_slot] at ht
  split_ifs at ht with hts
  · have := some.inj ht
    omega
  · exact hts (h.slot_inj t s i ht hi)

theorem Balanced.lost_clear (h : Balanced L) (hs : L.slot s ≠ none) : Lost (clear L s) := by
  obtain ⟨i, hi⟩ := ne_none_iff_exists'.mp hs
  refine ⟨i, h.slot_lt s i hi, h.slot_live s i hi, fun t ht => ?_⟩
  rw [clear_slot] at ht
  split_ifs at ht with hts
  exact hts (h.slot_inj t s i ht hi)

theorem Lost.acquire (h : Lost L) (s : σ) (k : κ) : Lost (acquire L s k) := by
  obtain ⟨i, hi, hr, hslot⟩ := h
  refine ⟨i, by simp [Ledgers.acquire]; omega, hr, fun t ht => ?_⟩
  rw [acquire_slot] at ht
  split_ifs at ht
  · have := some.inj ht
    omega
  · exact hslot t ht

theorem Lost.clear (h : Lost L) (s : σ) : Lost (clear L s) := by
  obtain ⟨i, hi, hr, hslot⟩ := h
  refine ⟨i, hi, hr, fun t ht => ?_⟩
  rw [clear_slot] at ht
  split_ifs at ht
  exact hslot t ht

theorem Lost.release (h : Lost L) (s : σ) : Lost (release L s) := by
  obtain ⟨i, hi, hr, hslot⟩ := h
  refine ⟨i, hi, ?_, fun t ht => ?_⟩
  · have hs := hslot s
    simp [Ledgers.release, hr, hs]
  · rw [release_slot] at ht
    split_ifs at ht
    exact hslot t ht

theorem Lost.move (h : Lost L) (s t : σ) : Lost (move L s t) := by
  obtain ⟨i, hi, hr, hslot⟩ := h
  refine ⟨i, hi, hr, fun u hu => ?_⟩
  rw [move_slot] at hu
  split_ifs at hu
  · exact hslot s hu
  · exact hslot u hu

omit [DecidableEq σ] in
theorem Lost.not_accounted (h : Lost L) : ¬Accounted L := by
  obtain ⟨i, hi, hr, -⟩ := h
  intro ha
  have hone := ha i hi
  rw [List.count_eq_zero_of_not_mem hr] at hone
  omega

omit [DecidableEq σ] in
theorem Balanced.accounted_iff (h : Balanced L) : Accounted L ↔ ∀ s, L.slot s = none := by
  constructor
  · intro ha s
    by_contra hs
    obtain ⟨i, hi⟩ := ne_none_iff_exists'.mp hs
    have hone := ha i (h.slot_lt s i hi)
    rw [List.count_eq_zero_of_not_mem (h.slot_live s i hi)] at hone
    omega
  · intro hnone i hi
    rcases h.kept i hi with hr | ⟨s, hs⟩
    · exact List.count_eq_one_of_mem h.once hr
    · rw [hnone s] at hs
      cases hs

end Ledgers
