import Overtos.Arena.Links

/-! The arena as a coalesced tiling, and how each call changes the tiling. -/
namespace Overtos.Arena
open Memory Tiling List

structure Tiled (arch : Arch) (s : State) (cells : List Cell) : Prop where
  first : s.arena.first = s.arena.base
  nonnull : s.arena.base ≠ 0
  aligned : s.arena.base % 16 = 0
  fits : s.arena.base + s.arena.size < 2 ^ arch.bits
  linked : Linked (get arch s.mem) 0 0 s.arena.base cells
  nonempty : cells ≠ []
  payloads : ∀ c ∈ cells, c.payload % 16 = 0
  roomy : Roomy 16 cells
  reach : stop 32 s.arena.base cells = s.arena.base + s.arena.size / 16 * 16
  coalesced : Coalesced cells
  used : s.arena.used = footprint 32 cells

def Fits (need : ℕ) (c : Cell) : Prop := c.free = true ∧ need ≤ c.payload

instance (need : ℕ) (c : Cell) : Decidable (Fits need c) := inferInstanceAs (Decidable (_ ∧ _))

def kept (need : ℕ) (c : Cell) : ℕ := if need + 48 ≤ c.payload then need else c.payload

def leftover (need : ℕ) (c : Cell) : List Cell :=
  if need + 48 ≤ c.payload then [⟨c.payload - need - 32, true⟩] else []

section
variable {arch : Arch} {s : State} {cells xs ys : List Cell} {c : Cell} {need : ℕ}

theorem Tiled.reach_le (h : Tiled arch s cells) :
    stop 32 s.arena.base cells ≤ s.arena.base + s.arena.size := by
  rw [h.reach]
  omega

theorem Tiled.block_lt (h : Tiled arch s (xs ++ c :: ys)) :
    stop 32 s.arena.base xs + 32 + c.payload < 2 ^ arch.bits := by
  have hr := h.reach_le
  have hl := le_stop 32 (stop 32 s.arena.base xs + 32 + c.payload) ys
  have hf := h.fits
  rw [stop_append, stop] at hr
  omega

theorem firstFit_spec (need : ℕ) {m : Mem} {prev a fuel : ℕ} (ha : a ≠ 0)
    (hl : Linked (get arch m) 0 prev a cells) (hf : cells.length < fuel) :
    (∃ xs c ys, cells = xs ++ c :: ys ∧ (∀ d ∈ xs, ¬Fits need d) ∧ Fits need c ∧
      firstFit arch m need fuel (entry a 0 cells) = some (stop 32 a xs)) ∨
    ((∀ d ∈ cells, ¬Fits need d) ∧ firstFit arch m need fuel (entry a 0 cells) = some 0) := by
  induction cells generalizing prev a fuel with
  | nil =>
    obtain ⟨fuel, rfl⟩ := Nat.exists_eq_succ_of_ne_zero (by omega : fuel ≠ 0)
    exact Or.inr ⟨by simp, by simp [entry, firstFit]⟩
  | cons c cs ih =>
    obtain ⟨fuel, rfl⟩ := Nat.exists_eq_succ_of_ne_zero (by omega : fuel ≠ 0)
    have hc : (get arch m a .isFree ≠ 0 ∧ need ≤ get arch m a .payload) ↔ Fits need c := by
      rw [hl.1, fields_isFree, fields_payload, Fits]
      cases c.free <;> simp
    have hn : get arch m a .next = entry (a + 32 + c.payload) 0 cs := by rw [hl.1, fields_next]
    have he : entry a 0 (c :: cs) = a := by simp [entry]
    rw [he, firstFit, if_neg ha]
    by_cases hfit : Fits need c
    · rw [if_pos (hc.mpr hfit)]
      exact Or.inl ⟨[], c, cs, rfl, by simp, hfit, rfl⟩
    · rw [if_neg (fun h => hfit (hc.mp h)), hn]
      rcases ih (by omega) hl.2 (by simpa using hf) with ⟨xs, d, ys, rfl, hx, hd, hr⟩ | ⟨hx, hr⟩
      · exact Or.inl ⟨c :: xs, d, ys, rfl, by simpa [hfit] using hx, hd, hr⟩
      · exact Or.inr ⟨by simpa [hfit] using hx, hr⟩

theorem Tiled.length_lt (h : Tiled arch s cells) : cells.length < s.arena.size + 1 := by
  have hl := length_le_stop 32 s.arena.base cells
  have hr := h.reach_le
  omega

theorem coalesced_taken (hc : Fits need c) (h : Coalesced (xs ++ c :: ys)) :
    Coalesced (xs ++ ⟨kept need c, false⟩ :: (leftover need c ++ ys)) := by
  obtain ⟨hx, hy, hn⟩ := coalesced_split.mp h
  refine coalesced_split.mpr ⟨hx, ?_, by simp⟩
  unfold leftover
  split_ifs
  · have hr : Coalesced ([] ++ ⟨c.payload - need - 32, true⟩ :: ys) :=
      coalesced_split.mpr ⟨by simp [Coalesced], hy, fun _ => ⟨by simp, (hn hc.1).2⟩⟩
    exact hr
  · exact hy

theorem roomy_taken (h : Roomy 16 (xs ++ c :: ys)) :
    Roomy 16 (xs ++ ⟨kept need c, false⟩ :: (leftover need c ++ ys)) := by
  obtain ⟨hl, hy⟩ := roomy_split.mp h
  unfold kept leftover
  split_ifs
  · have hr : Roomy 16 ([] ++ ⟨c.payload - need - 32, true⟩ :: ys) :=
      roomy_split.mpr ⟨fun _ => by dsimp only; omega, hy⟩
    exact roomy_split.mpr ⟨by simp, hr⟩
  · exact roomy_split.mpr ⟨hl, hy⟩

theorem stop_leftover (b : ℕ) :
    stop 32 (b + 32 + kept need c) (leftover need c) = b + 32 + c.payload := by
  unfold kept leftover
  split_ifs
  · simp only [stop]
    omega
  · rfl

theorem footprint_leftover : footprint 32 (leftover need c) = 0 := by
  unfold leftover
  split_ifs <;> simp

theorem held_leftover (b : ℕ) : held 32 b (leftover need c) = [] := by
  unfold leftover
  split_ifs <;> simp

theorem payload_taken (h16 : need % 16 = 0) (hp : c.payload % 16 = 0) :
    kept need c % 16 = 0 ∧ ∀ d ∈ leftover need c, d.payload % 16 = 0 := by
  unfold kept leftover
  split_ifs
  · refine ⟨h16, ?_⟩
    simp only [mem_singleton, forall_eq]
    omega
  · exact ⟨hp, by simp⟩

theorem linked_taken {m : Mem} {a prev : ℕ} (hl : Linked (get arch m) 0 prev a (xs ++ c :: ys))
    (hb : stop 32 a xs + 32 + c.payload < 2 ^ arch.bits) (ha : 16 ≤ stop 32 a xs)
    (hc : need ≤ c.payload) :
    Linked (get arch (set arch
      (if Word.wrap arch.bits (need + arenaHdr arch + align) ≤ get arch m (stop 32 a xs) .payload
        then carve arch m (stop 32 a xs) need else m) (stop 32 a xs) .isFree 0)) 0 prev a
      (xs ++ ⟨kept need c, false⟩ :: (leftover need c ++ ys)) := by
  have hp : get arch m (stop 32 a xs) .payload = c.payload := by
    rw [(linked_cons_iff.mp hl).2.1, fields_payload]
  have hw : Word.wrap arch.bits (need + arenaHdr arch + align) = need + 48 := by
    rw [arenaHdr_eq, align, Word.wrap_of_lt (by omega)]
  rw [hp, hw, kept, leftover]
  by_cases hs : need + 48 ≤ c.payload
  · rw [if_pos hs, if_pos hs, if_pos hs]
    exact linked_setFree false (linked_carve hl hb hs)
  · rw [if_neg hs, if_neg hs, if_neg hs]
    exact linked_setFree false hl

theorem Tiled.le_addr (h : Tiled arch s cells) (xs : List Cell) : 16 ≤ stop 32 s.arena.base xs := by
  have hl := le_stop 32 s.arena.base xs
  have ha := h.aligned
  have hn := h.nonnull
  omega

theorem take_spec (h : Tiled arch s (xs ++ c :: ys)) (hc : Fits need c) (h16 : need % 16 = 0) :
    ∃ s', take arch s (stop 32 s.arena.base xs) need = (s', stop 32 s.arena.base xs + 32) ∧
      Tiled arch s' (xs ++ ⟨kept need c, false⟩ :: (leftover need c ++ ys)) ∧
      s'.arena.base = s.arena.base ∧ s'.arena.size = s.arena.size ∧
      s'.arena.highWater = max s.arena.highWater s'.arena.used := by
  have hb := h.block_lt
  have hl := linked_taken h.linked hb (h.le_addr xs) hc.2
  have hpay := (linked_cons_iff.mp hl).2.1
  have hstop : stop 32 s.arena.base (xs ++ ⟨kept need c, false⟩ :: (leftover need c ++ ys)) =
      stop 32 s.arena.base (xs ++ c :: ys) := by
    simp only [stop_append, stop, stop_leftover]
  have hfoot : footprint 32 (xs ++ ⟨kept need c, false⟩ :: (leftover need c ++ ys)) =
      footprint 32 (xs ++ c :: ys) + (32 + kept need c) := by
    simp only [footprint_append, footprint_cons, footprint_leftover, hc.1, if_true, if_false,
      Bool.false_eq_true]
    omega
  have hle := footprint_le_stop 32 s.arena.base
    (xs ++ ⟨kept need c, false⟩ :: (leftover need c ++ ys))
  have hreach := h.reach_le
  have hfits := h.fits
  have hused : Word.wrap arch.bits (s.arena.used +
      Word.wrap arch.bits (arenaHdr arch + kept need c)) =
      footprint 32 (xs ++ ⟨kept need c, false⟩ :: (leftover need c ++ ys)) := by
    have hi : Word.wrap arch.bits (32 + kept need c) = 32 + kept need c :=
      Word.wrap_of_lt (by omega)
    rw [arenaHdr_eq, hi, h.used, ← hfoot, Word.wrap_of_lt (by omega)]
  have hptr : blkPayload arch (stop 32 s.arena.base xs) = stop 32 s.arena.base xs + 32 := by
    rw [blkPayload, arenaHdr_eq, Word.wrap_of_lt (by omega)]
  have hpk := payload_taken h16 (h.payloads c (by simp))
  refine ⟨_, Prod.ext rfl hptr, ?_, rfl, rfl, ?_⟩
  · exact
      { first := h.first
        nonnull := h.nonnull
        aligned := h.aligned
        fits := h.fits
        linked := hl
        nonempty := by simp
        payloads := by
          intro d hd
          have hxy := h.payloads d
          simp only [mem_append, mem_cons] at hd hxy
          rcases hd with hd | rfl | hd | hd
          · exact hxy (Or.inl hd)
          · exact hpk.1
          · exact hpk.2 d hd
          · exact hxy (Or.inr (Or.inr hd))
        roomy := roomy_taken h.roomy
        reach := hstop.trans h.reach
        coalesced := coalesced_taken hc h.coalesced
        used := (congrArg (fun v => Word.wrap arch.bits (s.arena.used +
          Word.wrap arch.bits (arenaHdr arch + v))) (congrFun hpay .payload)).trans hused }
  · exact (max_def_lt _ _).symm

theorem arenaAlign_eq (n : ℕ) : arenaAlign arch n = Word.wrap arch.bits (n + 15) / 16 * 16 :=
  maskDown_eq (Word.wrap_lt _ _)

def request (arch : Arch) (n : ℕ) : ℕ := arenaAlign arch (if n = 0 then 1 else n)

theorem request_mod (n : ℕ) : request arch n % 16 = 0 := by
  rw [request, arenaAlign_eq]
  exact Nat.mul_mod_left _ _

theorem alloc_of_firstFit {n b : ℕ} (hne : s.arena.first ≠ 0)
    (hf : firstFit arch s.mem (request arch n) (s.arena.size + 1) s.arena.first = some b) :
    oveArenaAlloc arch s n =
      if b = 0 then some (s, 0) else some (take arch s b (request arch n)) := by
  unfold request at hf ⊢
  rw [oveArenaAlloc, if_neg hne]
  simp only [hf]

theorem alloc_spec (h : Tiled arch s cells) (n : ℕ) :
    (∃ xs c ys s', cells = xs ++ c :: ys ∧ (∀ d ∈ xs, ¬Fits (request arch n) d) ∧
      Fits (request arch n) c ∧
      oveArenaAlloc arch s n = some (s', stop 32 s.arena.base xs + 32) ∧
      Tiled arch s' (xs ++ ⟨kept (request arch n) c, false⟩ ::
        (leftover (request arch n) c ++ ys)) ∧
      s'.arena.base = s.arena.base ∧ s'.arena.size = s.arena.size ∧
      s'.arena.highWater = max s.arena.highWater s'.arena.used) ∨
    ((∀ d ∈ cells, ¬Fits (request arch n) d) ∧ oveArenaAlloc arch s n = some (s, 0)) := by
  have hfirst : s.arena.first = entry s.arena.base 0 cells := by
    rw [h.first, entry, if_neg h.nonempty]
  have hne : s.arena.first ≠ 0 := h.first.symm ▸ h.nonnull
  rcases firstFit_spec (request arch n) h.nonnull h.linked h.length_lt with
    ⟨xs, c, ys, rfl, hx, hc, hr⟩ | ⟨hx, hr⟩
  · obtain ⟨s', ht, hs⟩ := take_spec h hc (request_mod n)
    refine Or.inl ⟨xs, c, ys, s', rfl, hx, hc, ?_, hs⟩
    have ha := h.le_addr xs
    rw [← hfirst] at hr
    rw [alloc_of_firstFit hne hr, if_neg (by omega)]
    exact congrArg some ht
  · refine Or.inr ⟨hx, ?_⟩
    rw [← hfirst] at hr
    rw [alloc_of_firstFit hne hr, if_pos rfl]

end

section
variable {arch : Arch} {m : Mem} {a : ℕ} {xs ys : List Cell} {p : ℕ}

theorem lastAddr_concat (prev : ℕ) (d : Cell) : lastAddr prev a (xs ++ [d]) = stop 32 a xs := by
  induction xs generalizing prev a with
  | nil => rfl
  | cons c cs ih => exact ih a

inductive Joins (arch : Arch) (a : ℕ) : Mem → List Cell → Mem → List Cell → Prop
  | refl (m : Mem) (cs : List Cell) : Joins arch a m cs m cs
  | absorb {m m' : Mem} {cs xs ys : List Cell} {p q : ℕ}
      (hj : Joins arch a m cs m' (xs ++ ⟨p, true⟩ :: ⟨q, true⟩ :: ys))
      (hl : Linked (get arch m') 0 0 a (xs ++ ⟨p, true⟩ :: ⟨q, true⟩ :: ys))
      (hb : stop 32 a (xs ++ ⟨p, true⟩ :: ⟨q, true⟩ :: ys) < 2 ^ arch.bits) :
      Joins arch a m cs (absorb arch m' (stop 32 a xs) (stop 32 a xs + 32 + p))
        (xs ++ ⟨p + 32 + q, true⟩ :: ys)

variable {m' : Mem} {cs ds : List Cell}

theorem Joins.trans {m'' : Mem} {es : List Cell} (h : Joins arch a m cs m' ds)
    (h' : Joins arch a m' ds m'' es) : Joins arch a m cs m'' es := by
  induction h' with
  | refl => exact h
  | absorb _ hl hb ih => exact (ih h).absorb hl hb

theorem Joins.covers (h : Joins arch a m cs m' ds) : Covers 32 16 a cs ds := by
  induction h with
  | refl => exact Covers.refl _
  | @absorb _ _ xs ys _ _ _ _ _ ih => exact ih.trans (Covers.join (by decide) xs ys)

theorem Joins.inUse_eq (h : Joins arch a m cs m' ds) : inUse 32 a ds = inUse 32 a cs := by
  induction h with
  | refl => rfl
  | absorb _ _ _ ih =>
    rw [← ih]
    simp [Nat.add_assoc]

theorem coalesceForward_spec (hl : Linked (get arch m) 0 0 a (xs ++ ⟨p, true⟩ :: ys))
    (hb : stop 32 a (xs ++ ⟨p, true⟩ :: ys) < 2 ^ arch.bits) (hy : Coalesced ys) :
    ∃ q zs, Linked (get arch (coalesceForward arch m (stop 32 a xs))) 0 0 a
        (xs ++ ⟨q, true⟩ :: zs) ∧
      Coalesced zs ∧ (∀ d ∈ zs.head?, d.free = false) ∧
      Joins arch a m (xs ++ ⟨p, true⟩ :: ys) (coalesceForward arch m (stop 32 a xs))
        (xs ++ ⟨q, true⟩ :: zs) := by
  obtain ⟨-, h2, h3⟩ := linked_cons_iff.mp hl
  have hn : get arch m (stop 32 a xs) .next = entry (stop 32 a xs + 32 + p) 0 ys := by
    rw [h2, fields_next]
  unfold coalesceForward
  rw [hn]
  cases ys with
  | nil =>
    rw [if_neg (by simp [entry])]
    exact ⟨p, [], hl, hy, by simp, Joins.refl _ _⟩
  | cons d ys =>
    have he : entry (stop 32 a xs + 32 + p) 0 (d :: ys) = stop 32 a xs + 32 + p := by simp [entry]
    have hf : get arch m (stop 32 a xs + 32 + p) .isFree = d.free.toNat := by
      rw [h3.1, fields_isFree]
    dsimp only
    rw [he, hf]
    obtain ⟨q, f⟩ := d
    cases f with
    | false =>
      rw [if_neg (by simp)]
      exact ⟨p, _, hl, hy, by simp, Joins.refl _ _⟩
    | true =>
      rw [if_pos ⟨by omega, by simp⟩]
      have hjoin := (Joins.refl m _).absorb hl hb
      have hle := le_stop 32 (stop 32 a xs + 32 + p + 32 + q) ys
      simp only [stop_append, stop] at hb
      have hy' : Coalesced ([] ++ ⟨q, true⟩ :: ys) := hy
      obtain ⟨-, hys, hyn⟩ := coalesced_split.mp hy'
      have hj := linked_absorb hl (by dsimp only; omega)
      dsimp only at hj
      exact ⟨p + 32 + q, ys, hj, hys, (hyn rfl).2, hjoin⟩

theorem coalesceBackward_spec (hl : Linked (get arch m) 0 0 a (xs ++ ⟨p, true⟩ :: ys))
    (ha : a ≠ 0) (hb : stop 32 a (xs ++ ⟨p, true⟩ :: ys) < 2 ^ arch.bits) (hx : Coalesced xs)
    (hy : Coalesced ys) (hyn : ∀ d ∈ ys.head?, d.free = false) :
    ∃ ws, Linked (get arch (coalesceBackward arch m (stop 32 a xs))) 0 0 a ws ∧
      Coalesced ws ∧ ws ≠ [] ∧ Joins arch a m (xs ++ ⟨p, true⟩ :: ys)
        (coalesceBackward arch m (stop 32 a xs)) ws := by
  obtain ⟨h1, h2, h3⟩ := linked_cons_iff.mp hl
  have hp : get arch m (stop 32 a xs) .prev = lastAddr 0 a xs := by rw [h2, fields_prev]
  unfold coalesceBackward
  rw [hp]
  rcases eq_nil_or_concat xs with rfl | ⟨xs, d, rfl⟩
  · rw [if_neg (by simp [lastAddr])]
    refine ⟨_, hl, ?_, by simp, Joins.refl _ _⟩
    exact coalesced_split.mpr ⟨hx, hy, fun _ => ⟨by simp, hyn⟩⟩
  · rw [concat_eq_append] at *
    have hd := (linked_cons_iff.mp h1).2.1
    have hf : get arch m (stop 32 a xs) .isFree = d.free.toNat := by rw [hd, fields_isFree]
    have hle := le_stop 32 a xs
    rw [lastAddr_concat]
    dsimp only
    rw [hf]
    obtain ⟨q, f⟩ := d
    cases f with
    | false =>
      rw [if_neg (by simp)]
      refine ⟨_, hl, ?_, by simp, Joins.refl _ _⟩
      exact coalesced_split.mpr ⟨hx, hy, fun _ => ⟨by simp, hyn⟩⟩
    | true =>
      rw [if_pos ⟨by omega, by simp⟩]
      rw [append_assoc, singleton_append] at hl hb ⊢
      have hjoin := (Joins.refl m _).absorb hl hb
      have hys := le_stop 32 (stop 32 a xs + 32 + q + 32 + p) ys
      simp only [stop_append, stop] at hb ⊢
      obtain ⟨hxs, -, hxn⟩ := coalesced_split.mp hx
      have hj := linked_absorb hl (by dsimp only; omega)
      dsimp only at hj
      refine ⟨xs ++ ⟨q + 32 + p, true⟩ :: ys, hj, ?_, by simp, hjoin⟩
      exact coalesced_split.mpr ⟨hxs, hy, fun _ => ⟨(hxn rfl).1, hyn⟩⟩

end

variable {arch : Arch} {s : State} {cells xs ys : List Cell} {c : Cell}

theorem Tiled.reach_lt (h : Tiled arch s cells) :
    stop 32 s.arena.base cells < 2 ^ arch.bits := h.reach_le.trans_lt h.fits

theorem Tiled.owns (h : Tiled arch s (xs ++ c :: ys)) :
    oveArenaOwns arch s.arena (stop 32 s.arena.base xs + 32) = true := by
  have hm : (stop 32 s.arena.base xs, c) ∈ blocks 32 s.arena.base (xs ++ c :: ys) := by
    simp [blocks]
  have hlt := block_lt_stop 32 (by decide) h.roomy (by decide) hm
  have hle := le_stop 32 s.arena.base xs
  have hr := h.reach_le
  rw [oveArenaOwns, Word.wrap_of_lt h.fits]
  simp only [ne_eq, Bool.and_eq_true, decide_eq_true_eq]
  omega

theorem payloadBlk_eq {b : ℕ} (h : b + 32 < 2 ^ arch.bits) : payloadBlk arch (b + 32) = b := by
  rw [payloadBlk, arenaHdr_eq, sub_eq (by omega) h]
  omega

theorem Tiled.header (h : Tiled arch s (xs ++ c :: ys)) : get arch s.mem (stop 32 s.arena.base xs) =
      fields (entry (stop 32 s.arena.base xs + 32 + c.payload) 0 ys)
        (lastAddr 0 s.arena.base xs) c :=
  (linked_cons_iff.mp h.linked).2.1

theorem free_spec (h : Tiled arch s (xs ++ c :: ys)) (hc : c.free = false) :
    ∃ ws, Tiled arch (oveArenaFree arch s (stop 32 s.arena.base xs + 32)) ws ∧
      held 32 s.arena.base ws = held 32 s.arena.base xs ++
        held 32 (stop 32 s.arena.base xs + 32 + c.payload) ys ∧
      s.arena.used = footprint 32 ws + (32 + c.payload) ∧
      (oveArenaFree arch s (stop 32 s.arena.base xs + 32)).arena =
        { s.arena with used := footprint 32 ws } ∧
      Joins arch s.arena.base (set arch s.mem (stop 32 s.arena.base xs) .isFree 1)
        (xs ++ ⟨c.payload, true⟩ :: ys) (oveArenaFree arch s (stop 32 s.arena.base xs + 32)).mem
        ws := by
  have hb := h.block_lt
  have hmark := linked_setFree true h.linked
  have hm1 := (linked_cons_iff.mp hmark).2.1
  have hstop : stop 32 s.arena.base (xs ++ ⟨c.payload, true⟩ :: ys) =
      stop 32 s.arena.base (xs ++ c :: ys) := by simp [stop]
  obtain ⟨hx, hy, -⟩ := coalesced_split.mp h.coalesced
  obtain ⟨q, zs, hf, hzs, hzn, hj⟩ := coalesceForward_spec hmark (hstop ▸ h.reach_lt) hy
  obtain ⟨ws, hw, hwc, hwn, hj'⟩ := coalesceBackward_spec hf h.nonnull
    (by rw [hj.covers.stop_eq, hstop]; exact h.reach_lt) hx hzs hzn
  have hjoins := hj.trans hj'
  have hall := hjoins.covers
  have hfoot : s.arena.used = footprint 32 ws + (32 + c.payload) := by
    rw [h.used, hall.footprint_eq]
    simp only [footprint_append, footprint_cons, hc, if_true, if_false, Bool.false_eq_true]
    omega
  have hused : sub arch s.arena.used (Word.wrap arch.bits (arenaHdr arch + c.payload)) =
      footprint 32 ws := by
    have hle := footprint_le_stop 32 s.arena.base (xs ++ c :: ys)
    have hlt := h.reach_lt
    have hu := h.used
    have hwrap : Word.wrap arch.bits (32 + c.payload) = 32 + c.payload := Word.wrap_of_lt (by omega)
    rw [arenaHdr_eq, hwrap, sub_eq (by omega) (by omega)]
    omega
  have hfree : oveArenaFree arch s (stop 32 s.arena.base xs + 32) =
      { arena := { s.arena with used := footprint 32 ws }
        mem := coalesceBackward arch (coalesceForward arch (set arch s.mem
          (stop 32 s.arena.base xs) .isFree 1) (stop 32 s.arena.base xs))
          (stop 32 s.arena.base xs) } := by
    have hpay : get arch (set arch s.mem (stop 32 s.arena.base xs) .isFree 1)
        (stop 32 s.arena.base xs) .payload = c.payload := congrFun hm1 .payload
    rw [oveArenaFree, if_neg (by simp [h.owns]), payloadBlk_eq (by omega)]
    dsimp only
    rw [if_neg (by simp [h.header, hc]), hpay, hused]
  refine ⟨ws, ?_, by rw [hall.held_eq]; simp, hfoot, by rw [hfree], hfree ▸ hjoins⟩
  rw [hfree]
  obtain ⟨hr, hry⟩ := roomy_split.mp h.roomy
  have hpl : ∀ d ∈ xs ++ ⟨c.payload, true⟩ :: ys, d.payload % 16 = 0 := by
    intro d hd
    have hcells := h.payloads
    simp only [mem_append, mem_cons] at hd hcells
    rcases hd with hd | rfl | hd
    · exact hcells d (Or.inl hd)
    · exact hcells c (Or.inr (Or.inl rfl))
    · exact hcells d (Or.inr (Or.inr hd))
  exact
    { first := h.first
      nonnull := h.nonnull
      aligned := h.aligned
      fits := h.fits
      linked := hw
      nonempty := hwn
      payloads := hall.aligned hpl
      roomy := hall.roomy (roomy_split.mpr ⟨hr, hry⟩)
      reach := (hall.stop_eq.trans hstop).trans h.reach
      coalesced := hwc
      used := rfl }

theorem Tiled.fill (h : Tiled arch s (xs ++ c :: ys)) {x n : ℕ} (v : UInt8)
    (hx : stop 32 s.arena.base xs + 32 ≤ x)
    (hn : x + n ≤ stop 32 s.arena.base xs + 32 + c.payload) :
    Tiled arch { s with mem := fill s.mem x n v } (xs ++ c :: ys) := by
  obtain ⟨h1, h2, h3⟩ := linked_cons_iff.mp h.linked
  refine { h with linked := linked_cons_iff.mpr ⟨linked_below (fun y hy => ?_) h1, ?_,
    linked_above (fun y hy => ?_) h3⟩ }
  · dsimp only at hy
    exact get_fill_apart (Or.inl (by omega))
  · rw [← h2]
    exact get_fill_apart (Or.inl hx)
  · dsimp only at hy
    exact get_fill_apart (Or.inr (by omega))

def wholeBlock (size : ℕ) : Cell := ⟨(size - 32) / 16 * 16, true⟩

theorem arenaLayFirst_tiled {s : State} (hn : s.arena.base ≠ 0) (ha : s.arena.base % 16 = 0)
    (hf : s.arena.base + s.arena.size < 2 ^ arch.bits) (hs : 48 ≤ s.arena.size) :
    Tiled arch (arenaLayFirst arch s) [wholeBlock s.arena.size] := by
  have hp : maskDown arch (sub arch s.arena.size (arenaHdr arch)) =
      (s.arena.size - 32) / 16 * 16 := by
    rw [arenaHdr_eq, sub_eq (by omega) (by omega), maskDown_eq (by omega)]
  have h0 : 0 < 2 ^ arch.bits := Nat.two_pow_pos _
  have h1 : 1 < 256 ^ Field.width arch .isFree := by cases arch <;> decide
  have h2 : arenaMagic < 256 ^ Field.width arch .magic := by cases arch <;> decide
  have hget : get arch (arenaLayFirst arch s).mem s.arena.base =
      fields 0 0 (wholeBlock s.arena.size) := by
    rw [arenaLayFirst, hp]
    dsimp only
    rw [get_set_self h2, get_set_self h1, get_set_word (by decide) (by decide) (by omega),
      get_set_word (by decide) (by decide) h0, get_set_word (by decide) (by decide) h0]
    funext f
    cases f <;> simp [fields, wholeBlock]
  exact
    { first := rfl
      nonnull := hn
      aligned := ha
      fits := hf
      linked := ⟨hget, trivial⟩
      nonempty := by simp
      payloads := by simp [wholeBlock]
      roomy := by
        simp only [Roomy, getLast?_singleton, Option.mem_some_iff, forall_eq', wholeBlock]
        omega
      reach := by
        simp only [stop, wholeBlock]
        change s.arena.base + 32 + _ = s.arena.base + s.arena.size / 16 * 16
        omega
      coalesced := by simp [Coalesced]
      used := by simp [wholeBlock]; rfl }

theorem Tiled.size_ge (h : Tiled arch s cells) : 48 ≤ s.arena.size := by
  obtain ⟨xs, c, rfl⟩ := (eq_nil_or_concat cells).resolve_left h.nonempty
  have hr := h.reach_le
  have hc := h.roomy
  have hl := le_stop 32 s.arena.base xs
  rw [concat_eq_append] at hr hc
  have h16 := (roomy_split.mp hc).1 rfl
  rw [stop_append, stop, stop] at hr
  omega

theorem reset_spec (h : Tiled arch s cells) :
    Tiled arch (oveArenaReset arch s) [wholeBlock s.arena.size] := by
  rw [oveArenaReset, if_neg h.nonnull]
  exact arenaLayFirst_tiled h.nonnull h.aligned h.fits h.size_ge

theorem adjust_eq (arch : Arch) {addr : ℕ} (h0 : addr ≠ 0) (h : addr < 2 ^ arch.bits) :
    sub arch (arenaAlign arch addr) addr =
      if addr + 15 < 2 ^ arch.bits then (addr + 15) / 16 * 16 - addr
      else 2 ^ arch.bits - addr := by
  have hp := arch.two_pow_bits_ge
  rw [arenaAlign_eq]
  split_ifs with hlt
  · rw [Word.wrap_of_lt hlt]
    exact sub_eq (by omega) (by omega)
  · have hw : Word.wrap arch.bits (addr + 15) = addr + 15 - 2 ^ arch.bits :=
      Word.wrap_of_ge (by omega) (by omega)
    have hz : (addr + 15 - 2 ^ arch.bits) / 16 * 16 = 0 := by omega
    have hs : 2 ^ arch.bits - addr < 2 ^ arch.bits := Nat.sub_lt (by omega) (Nat.pos_of_ne_zero h0)
    rw [hw, hz, sub, Nat.zero_add, Word.wrap_of_lt hs]

theorem init_spec {m : Mem} {buf : Buffer arch} {s : State}
    (h : oveArenaInit arch m buf.addr buf.size = .ok s) :
    Tiled arch s [wholeBlock s.arena.size] ∧ s.arena.used = 0 ∧ s.arena.highWater = 0 ∧
      buf.addr ≤ s.arena.base ∧ s.arena.base + s.arena.size = buf.addr + buf.size := by
  have hn := buf.nonnull
  have hfit := buf.fits
  have hadj := adjust_eq arch hn (by omega)
  unfold oveArenaInit at h
  rw [if_neg hn] at h
  dsimp only at h
  generalize sub arch (arenaAlign arch buf.addr) buf.addr = adjust at h hadj
  split_ifs at h with hrej
  rw [not_or, arenaHdr_eq, align, Nat.not_le, Nat.not_lt] at hrej
  have hlt : buf.addr + 15 < 2 ^ arch.bits := by
    by_contra hge
    rw [if_neg hge] at hadj
    omega
  rw [if_pos hlt] at hadj
  have hsz : sub arch buf.size adjust = buf.size - adjust := sub_eq (by omega) (by omega)
  have hbase : Word.wrap arch.bits (buf.addr + adjust) = buf.addr + adjust :=
    Word.wrap_of_lt (by omega)
  rw [hsz] at h hrej
  rw [hbase] at h
  cases h
  refine ⟨arenaLayFirst_tiled ?_ ?_ ?_ ?_, rfl, rfl, ?_, ?_⟩
  all_goals
    simp only [arenaLayFirst]
    omega

end Overtos.Arena
