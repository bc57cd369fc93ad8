import Mathlib.Tactic

/-! A region tiled by blocks, each a header of fixed size with its payload behind it. -/
namespace Tiling
open List

structure Cell where
  payload : ℕ
  free : Bool
  deriving DecidableEq, Repr

variable (hdr : ℕ)

def stop (a : ℕ) : List Cell → ℕ
  | [] => a
  | c :: cs => stop (a + hdr + c.payload) cs

def blocks (a : ℕ) : List Cell → List (ℕ × Cell)
  | [] => []
  | c :: cs => (a, c) :: blocks (a + hdr + c.payload) cs

def footprint (cs : List Cell) : ℕ := (cs.map fun c => if c.free then 0 else hdr + c.payload).sum

def Coalesced (cs : List Cell) : Prop := cs.IsChain fun c d => ¬(c.free = true ∧ d.free = true)

@[simp] theorem stop_append (a : ℕ) (xs ys : List Cell) :
    stop hdr a (xs ++ ys) = stop hdr (stop hdr a xs) ys := by
  induction xs generalizing a with
  | nil => rfl
  | cons c cs ih => exact ih _

@[simp] theorem blocks_append (a : ℕ) (xs ys : List Cell) :
    blocks hdr a (xs ++ ys) = blocks hdr a xs ++ blocks hdr (stop hdr a xs) ys := by
  induction xs generalizing a with
  | nil => rfl
  | cons c cs ih => simp [blocks, stop, ih]

theorem le_stop (a : ℕ) (cs : List Cell) : a ≤ stop hdr a cs := by
  induction cs generalizing a with
  | nil => exact le_rfl
  | cons c cs ih => exact (by omega : a ≤ a + hdr + c.payload).trans (ih _)

theorem length_le_stop (a : ℕ) (cs : List Cell) : a + hdr * cs.length ≤ stop hdr a cs := by
  induction cs generalizing a with
  | nil => simp [stop]
  | cons c cs ih =>
    have h := ih (a + hdr + c.payload)
    simp only [stop, length_cons, Nat.mul_succ]
    omega

@[simp] theorem footprint_append (xs ys : List Cell) :
    footprint hdr (xs ++ ys) = footprint hdr xs + footprint hdr ys := by
  simp [footprint]

@[simp] theorem footprint_cons (c : Cell) (cs : List Cell) :
    footprint hdr (c :: cs) = (if c.free then 0 else hdr + c.payload) + footprint hdr cs := by
  simp [footprint]

@[simp] theorem footprint_nil : footprint hdr [] = 0 := rfl

theorem footprint_le_stop (a : ℕ) (cs : List Cell) : a + footprint hdr cs ≤ stop hdr a cs := by
  induction cs generalizing a with
  | nil => simp [stop]
  | cons c cs ih =>
    have h := ih (a + hdr + c.payload)
    rw [footprint_cons, stop]
    split_ifs <;> omega

variable {a x k : ℕ} {cs ds : List Cell} {c : Cell}

theorem mem_blocks_bounds (h : (x, c) ∈ blocks hdr a cs) :
    a ≤ x ∧ x + hdr + c.payload ≤ stop hdr a cs := by
  induction cs generalizing a with
  | nil => simp [blocks] at h
  | cons d cs ih =>
    rcases mem_cons.mp h with he | h
    · obtain ⟨rfl, rfl⟩ := Prod.mk.inj he
      exact ⟨le_rfl, le_stop hdr _ cs⟩
    · have := ih h
      exact ⟨by omega, this.2⟩

theorem blocks_pairwise (a : ℕ) (cs : List Cell) :
    (blocks hdr a cs).Pairwise fun p q => p.1 + hdr + p.2.payload ≤ q.1 := by
  induction cs generalizing a with
  | nil => simp [blocks]
  | cons c cs ih =>
    refine pairwise_cons.mpr ⟨fun q hq => ?_, ih _⟩
    exact (mem_blocks_bounds hdr hq).1

theorem blocks_apart {q r : ℕ × Cell} (hq : q ∈ blocks hdr a cs) (hr : r ∈ blocks hdr a cs)
    (hne : q.1 ≠ r.1) : q.1 + hdr + q.2.payload ≤ r.1 ∨ r.1 + hdr + r.2.payload ≤ q.1 := by
  have hs : Std.Symm fun q r : ℕ × Cell => q.1 ≠ r.1 →
      q.1 + hdr + q.2.payload ≤ r.1 ∨ r.1 + hdr + r.2.payload ≤ q.1 :=
    ⟨fun q r h hne => (h hne.symm).symm⟩
  have hp := (blocks_pairwise hdr a cs).imp fun {q r} h (_ : q.1 ≠ r.1) =>
    (Or.inl h : q.1 + hdr + q.2.payload ≤ r.1 ∨ r.1 + hdr + r.2.payload ≤ q.1)
  exact hp.forall hq hr (fun he => hne (congrArg Prod.fst he)) hne

theorem mem_of_mem_blocks (h : (x, c) ∈ blocks hdr a cs) : c ∈ cs := by
  induction cs generalizing a with
  | nil => simp [blocks] at h
  | cons d cs ih =>
    rcases mem_cons.mp h with he | h
    · simp [(Prod.mk.inj he).2]
    · exact mem_cons_of_mem _ (ih h)

theorem exists_mem_blocks (a : ℕ) (h : c ∈ cs) : ∃ x, (x, c) ∈ blocks hdr a cs := by
  obtain ⟨xs, ys, rfl⟩ := append_of_mem h
  exact ⟨stop hdr a xs, by simp [blocks]⟩

@[simp] theorem blocks_snd (a : ℕ) (cs : List Cell) : (blocks hdr a cs).map Prod.snd = cs := by
  induction cs generalizing a with
  | nil => rfl
  | cons c cs ih => simp [blocks, ih]

theorem split_at_block (h : (x, c) ∈ blocks hdr a cs) :
    ∃ xs ys, cs = xs ++ c :: ys ∧ x = stop hdr a xs := by
  induction cs generalizing a with
  | nil => simp [blocks] at h
  | cons d cs ih =>
    rcases mem_cons.mp h with he | h
    · obtain ⟨rfl, rfl⟩ := Prod.mk.inj he
      exact ⟨[], cs, rfl, rfl⟩
    · obtain ⟨xs, ys, rfl, rfl⟩ := ih h
      exact ⟨d :: xs, ys, rfl, rfl⟩

theorem stop_mod (hk : hdr % k = 0) (ha : a % k = 0) (hc : ∀ c ∈ cs, c.payload % k = 0) :
    stop hdr a cs % k = 0 := by
  induction cs generalizing a with
  | nil => exact ha
  | cons c cs ih =>
    apply ih
    · have hp := hc c (by simp)
      rw [Nat.add_mod, Nat.add_mod a, ha, hk, hp]
      simp
    · exact fun d hd => hc d (by simp [hd])

def held (a : ℕ) (cs : List Cell) : List ℕ :=
  ((blocks hdr a cs).filter fun q => !q.2.free).map Prod.fst

@[simp] theorem held_append (a : ℕ) (xs ys : List Cell) :
    held hdr a (xs ++ ys) = held hdr a xs ++ held hdr (stop hdr a xs) ys := by
  simp [held]

@[simp] theorem held_cons (a : ℕ) (c : Cell) (cs : List Cell) : held hdr a (c :: cs) =
      (if c.free then [] else [a]) ++ held hdr (a + hdr + c.payload) cs := by
  cases hc : c.free <;> simp [held, blocks, hc]

@[simp] theorem held_nil (a : ℕ) : held hdr a [] = [] := rfl

theorem mem_held : x ∈ held hdr a cs ↔ ∃ c, (x, c) ∈ blocks hdr a cs ∧ c.free = false := by
  simp [held]

def inUse (a : ℕ) (cs : List Cell) : List (ℕ × Cell) := (blocks hdr a cs).filter fun q => !q.2.free

@[simp] theorem inUse_nil (a : ℕ) : inUse hdr a [] = [] := rfl

@[simp] theorem inUse_append (a : ℕ) (xs ys : List Cell) :
    inUse hdr a (xs ++ ys) = inUse hdr a xs ++ inUse hdr (stop hdr a xs) ys := by
  simp [inUse]

@[simp] theorem inUse_cons (a : ℕ) (c : Cell) (cs : List Cell) : inUse hdr a (c :: cs) =
      (if c.free then [] else [(a, c)]) ++ inUse hdr (a + hdr + c.payload) cs := by
  cases hc : c.free <;> simp [inUse, blocks, hc]

theorem mem_inUse {q : ℕ × Cell} : q ∈ inUse hdr a cs ↔ q ∈ blocks hdr a cs ∧ q.2.free = false := by
  simp [inUse]

theorem head_inUse (c : Cell) (cs : List Cell) (hh : 0 < hdr) :
    ((inUse hdr a (c :: cs)).head?.map Prod.fst = some a) ↔ c.free = false := by
  cases hc : c.free with
  | false => simp [hc]
  | true =>
    simp only [inUse_cons, hc, if_true, nil_append, Option.map_eq_some_iff, reduceCtorEq,
      iff_false, not_exists, not_and]
    intro q hq he
    have hm := (mem_inUse hdr).mp (mem_of_mem_head? hq)
    have hb := (mem_blocks_bounds hdr (x := q.1) (c := q.2) hm.1).1
    omega

theorem free_head_stop (hc : c.free = true) (h : Coalesced (c :: cs)) : a + hdr + c.payload =
      ((inUse hdr a (c :: cs)).head?.map Prod.fst).getD (stop hdr a (c :: cs)) := by
  cases cs with
  | nil => simp [hc, stop]
  | cons d ds =>
    have hd : d.free = false := by
      have hn := (isChain_cons_cons.mp h).1
      simpa [hc] using hn
    simp [hc, hd]

theorem eq_of_inUse (hh : 0 < hdr) (hc : Coalesced cs) (hd : Coalesced ds)
    (hs : stop hdr a cs = stop hdr a ds) (hu : inUse hdr a cs = inUse hdr a ds) : cs = ds := by
  induction cs generalizing a ds with
  | nil =>
    cases ds with
    | nil => rfl
    | cons d ds =>
      have hl := le_stop hdr (a + hdr + d.payload) ds
      simp only [stop] at hs
      omega
  | cons c cs ih =>
    cases ds with
    | nil =>
      have hl := le_stop hdr (a + hdr + c.payload) cs
      simp only [stop] at hs
      omega
    | cons d ds =>
      have hfree : c.free = d.free := by
        have h1 := head_inUse hdr (a := a) c cs hh
        rw [hu, head_inUse hdr d ds hh] at h1
        cases hcf : c.free <;> cases hdf : d.free <;> simp_all
      have hcd : c = d := by
        cases hcf : c.free with
        | false =>
          have hdf : d.free = false := hfree ▸ hcf
          simp only [inUse_cons, hcf, hdf, if_false, Bool.false_eq_true, singleton_append,
            cons.injEq, Prod.mk.injEq, true_and] at hu
          exact hu.1
        | true =>
          have hdf : d.free = true := hfree ▸ hcf
          have h1 := free_head_stop hdr (a := a) hcf hc
          have h2 := free_head_stop hdr (a := a) hdf hd
          rw [hu, hs, ← h2] at h1
          have hp : c.payload = d.payload := by omega
          exact congrArg₂ Cell.mk hp hfree
      subst hcd
      have hrest : inUse hdr (a + hdr + c.payload) cs = inUse hdr (a + hdr + c.payload) ds := by
        simpa using hu
      exact congrArg (c :: ·) (ih hc.tail hd.tail hs hrest)

def Roomy (k : ℕ) (cs : List Cell) : Prop := ∀ c ∈ cs.getLast?, k ≤ c.payload

section
variable {k : ℕ} {xs ys : List Cell} {c : Cell}

theorem roomy_split : Roomy k (xs ++ c :: ys) ↔ (ys = [] → k ≤ c.payload) ∧ Roomy k ys := by
  unfold Roomy
  cases ys with
  | nil => simp
  | cons d ys => simp [getLast?_cons_cons]

theorem coalesced_split : Coalesced (xs ++ c :: ys) ↔ Coalesced xs ∧ Coalesced ys ∧
      (c.free = true → (∀ d ∈ xs.getLast?, d.free = false) ∧ ∀ d ∈ ys.head?, d.free = false) := by
  unfold Coalesced
  rw [isChain_append, isChain_cons]
  cases hc : c.free <;> simp [hc, and_assoc, and_comm, and_left_comm]

end

theorem block_lt_stop (hk : 0 < k) (hr : Roomy k cs) (hh : 0 < hdr) (h : (x, c) ∈ blocks hdr a cs) :
    x + hdr < stop hdr a cs := by
  obtain ⟨xs, ys, rfl, rfl⟩ := split_at_block hdr h
  have hs := (roomy_split.mp hr).1
  rw [stop_append, stop]
  cases ys with
  | nil =>
    have := hs rfl
    rw [stop]
    omega
  | cons d ds =>
    have := le_stop hdr (stop hdr a xs + hdr + c.payload + hdr + d.payload) ds
    rw [stop]
    omega

structure Covers (k a : ℕ) (cs ds : List Cell) : Prop where
  stop_eq : stop hdr a ds = stop hdr a cs
  held_eq : held hdr a ds = held hdr a cs
  footprint_eq : footprint hdr ds = footprint hdr cs
  aligned : (∀ c ∈ cs, c.payload % k = 0) → ∀ d ∈ ds, d.payload % k = 0
  roomy : Roomy k cs → Roomy k ds

variable {hdr}

theorem Covers.refl (cs : List Cell) : Covers hdr k a cs cs := ⟨rfl, rfl, rfl, id, id⟩

theorem Covers.trans {es : List Cell} (h : Covers hdr k a cs ds) (h' : Covers hdr k a ds es) :
    Covers hdr k a cs es where
  stop_eq := h'.stop_eq.trans h.stop_eq
  held_eq := h'.held_eq.trans h.held_eq
  footprint_eq := h'.footprint_eq.trans h.footprint_eq
  aligned := fun hc => h'.aligned (h.aligned hc)
  roomy := fun hc => h'.roomy (h.roomy hc)

theorem Covers.join {p q : ℕ} (hk : hdr % k = 0) (xs ys : List Cell) :
    Covers hdr k a (xs ++ ⟨p, true⟩ :: ⟨q, true⟩ :: ys) (xs ++ ⟨p + hdr + q, true⟩ :: ys) where
  stop_eq := by simp [stop, Nat.add_assoc]
  held_eq := by simp [Nat.add_assoc]
  footprint_eq := by simp
  aligned := by
    intro hc d hd
    have hp := hc ⟨p, true⟩ (by simp)
    have hq := hc ⟨q, true⟩ (by simp)
    have hxy := hc d
    simp only [mem_append, mem_cons] at hd hxy
    rcases hd with hd | rfl | hd
    · exact hxy (Or.inl hd)
    · dsimp only at hp hq ⊢
      rw [Nat.add_mod, Nat.add_mod p, hp, hk, hq]
      simp
    · exact hxy (Or.inr (Or.inr (Or.inr hd)))
  roomy := by
    intro hr
    have hrest : Roomy k ([] ++ ⟨q, true⟩ :: ys) := (roomy_split.mp hr).2
    obtain ⟨hq, hy⟩ := roomy_split.mp hrest
    exact roomy_split.mpr ⟨fun he => (hq he).trans (by dsimp only; omega), hy⟩

end Tiling
