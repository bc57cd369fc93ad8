import Overtos.Arena.Invariant

/-! Whole histories of an arena: the block list between calls, and what an allocation returns. -/
namespace Overtos.Arena
open Memory Tiling List

def walk (arch : Arch) (m : Mem) : ℕ → ℕ → List (ℕ × Cell)
  | 0, _ => []
  | fuel + 1, b =>
    if b = 0 then []
    else (b, ⟨get arch m b .payload, get arch m b .isFree ≠ 0⟩) ::
      walk arch m fuel (get arch m b .next)

def blockList (arch : Arch) (s : State) : List (ℕ × Cell) :=
  walk arch s.mem (s.arena.size + 1) s.arena.first

variable {arch : Arch} {cells : List Cell}

theorem walk_spec {m : Mem} {prev a fuel : ℕ} (ha : a ≠ 0)
    (hl : Linked (get arch m) 0 prev a cells) (hf : cells.length < fuel) :
    walk arch m fuel (entry a 0 cells) = blocks 32 a cells := by
  induction cells generalizing prev a fuel with
  | nil =>
    obtain ⟨fuel, rfl⟩ := Nat.exists_eq_succ_of_ne_zero (by omega : fuel ≠ 0)
    simp [entry, walk, blocks]
  | cons c cs ih =>
    obtain ⟨fuel, rfl⟩ := Nat.exists_eq_succ_of_ne_zero (by omega : fuel ≠ 0)
    have he : entry a 0 (c :: cs) = a := by simp [entry]
    have hc : (⟨get arch m a .payload, get arch m a .isFree ≠ 0⟩ : Cell) = c := by
      rw [hl.1, fields_payload, fields_isFree]
      obtain ⟨p, f⟩ := c
      cases f <;> simp
    have hn : get arch m a .next = entry (a + 32 + c.payload) 0 cs := by rw [hl.1, fields_next]
    rw [he, walk, if_neg ha, hc, hn, ih (by omega) hl.2 (by simpa using hf), blocks]

theorem Tiled.blockList_eq {s : State} (h : Tiled arch s cells) :
    blockList arch s = blocks 32 s.arena.base cells := by
  have hf : s.arena.first = entry s.arena.base 0 cells := by
    rw [h.first, entry, if_neg h.nonempty]
  rw [blockList, hf]
  exact walk_spec h.nonnull h.linked h.length_lt

structure Inv (arch : Arch) (s : Sys) (cells : List Cell) : Prop where
  tiled : Tiled arch s.state cells
  live : s.live.Perm ((held 32 s.state.arena.base cells).map (· + 32))
  peak : s.state.arena.highWater = s.history.foldr max 0
  below : s.state.arena.used ≤ s.state.arena.highWater

section
variable {arch : Arch} {s s' : Sys} {cells : List Cell} {op : Op}

theorem boot_inv {m : Mem} {buf : Buffer arch} (h : boot arch m buf = .ok s) :
    Inv arch s [wholeBlock s.state.arena.size] ∧ buf.addr ≤ s.state.arena.base ∧
      s.state.arena.base + s.state.arena.size = buf.addr + buf.size := by
  unfold boot at h
  cases hi : oveArenaInit arch m buf.addr buf.size with
  | error e => simp [hi, Except.map] at h
  | ok st =>
    rw [hi] at h
    cases h
    obtain ⟨ht, hu, hw, hb⟩ := init_spec hi
    exact ⟨⟨ht, by simp [wholeBlock], by simp [hw, hu], by simp [hu, hw]⟩, hb⟩

theorem Inv.split (h : Inv arch s cells) {p : ℕ} (hp : p ∈ s.live) :
    ∃ xs c ys, cells = xs ++ c :: ys ∧ c.free = false ∧
      p = stop 32 s.state.arena.base xs + 32 := by
  obtain ⟨x, hx, rfl⟩ := mem_map.mp (h.live.subset hp)
  obtain ⟨c, hc, hf⟩ := (mem_held 32).mp hx
  obtain ⟨xs, ys, rfl, rfl⟩ := split_at_block 32 hc
  exact ⟨xs, c, ys, rfl, hf, rfl⟩

theorem Inv.handOut {xs ys : List Cell} {c : Cell} {need : ℕ} (h : Inv arch s (xs ++ c :: ys))
    (hc : c.free = true) {st : State}
    (ht : Tiled arch st (xs ++ ⟨kept need c, false⟩ :: (leftover need c ++ ys)))
    (hb : st.arena.base = s.state.arena.base)
    (hw : st.arena.highWater = max s.state.arena.highWater st.arena.used) :
    Inv arch (handOut s (st, stop 32 s.state.arena.base xs + 32))
      (xs ++ ⟨kept need c, false⟩ :: (leftover need c ++ ys)) := by
  have hl := h.live
  refine ⟨ht, ?_, ?_, ?_⟩
  · simp only [Arena.handOut, note, hb]
    rw [if_neg (by omega)]
    simp only [held_append, held_cons, hc, held_leftover, stop_leftover, if_true, if_false,
      Bool.false_eq_true, nil_append, map_append, map_cons, singleton_append] at hl ⊢
    exact (hl.cons _).trans perm_middle.symm
  · rw [Arena.handOut, note, foldr_cons, ← h.peak, max_comm]
    exact hw
  · exact (le_max_right _ _).trans hw.ge

theorem Inv.refused (h : Inv arch s cells) : Inv arch (Arena.handOut s (s.state, 0)) cells := by
  refine ⟨h.tiled, h.live, ?_, h.below⟩
  rw [Arena.handOut, note, foldr_cons, ← h.peak]
  exact (max_eq_right h.below).symm

theorem alloc_inv (h : Inv arch s cells) (n : ℕ) :
    ∃ s' cells', (oveArenaAlloc arch s.state n).map (Arena.handOut s) = some s' ∧
      Inv arch s' cells' ∧ s'.state.arena.base = s.state.arena.base ∧
      s'.state.arena.size = s.state.arena.size := by
  rcases alloc_spec h.tiled n with ⟨xs, c, ys, st, rfl, -, hc, he, ht, hb, hz, hw⟩ | ⟨-, he⟩
  · exact ⟨_, _, by rw [he, Option.map_some], h.handOut hc.1 ht hb hw, hb, hz⟩
  · exact ⟨_, _, by rw [he, Option.map_some], h.refused, rfl, rfl⟩

theorem calloc_inv (h : Inv arch s cells) (n : ℕ) :
    ∃ s' cells', (oveArenaCalloc arch s.state n).map (Arena.handOut s) = some s' ∧
      Inv arch s' cells' ∧ s'.state.arena.base = s.state.arena.base ∧
      s'.state.arena.size = s.state.arena.size := by
  rcases alloc_spec h.tiled n with ⟨xs, c, ys, st, rfl, -, hc, he, ht, hb, hz, hw⟩ | ⟨-, he⟩
  · have hlt := ht.block_lt
    have hhd := ht.header
    rw [hb] at hlt hhd
    have hp : get arch st.mem (payloadBlk arch (stop 32 s.state.arena.base xs + 32)) .payload =
        kept (request arch n) c := by
      rw [payloadBlk_eq (by omega), hhd, fields_payload]
    have hfill := ht.fill (x := stop 32 s.state.arena.base xs + 32)
      (n := kept (request arch n) c) 0 (by rw [hb]) (by rw [hb])
    refine ⟨_, _, ?_, h.handOut hc.1 hfill hb hw, hb, hz⟩
    rw [oveArenaCalloc, he]
    dsimp only
    rw [if_neg (by omega), hp, Option.map_some]
  · refine ⟨_, _, ?_, h.refused, rfl, rfl⟩
    rw [oveArenaCalloc, he]
    rfl

theorem free_inv (h : Inv arch s cells) {p : ℕ} (hp : p ∈ s.live) :
    ∃ cells', Inv arch (note s (oveArenaFree arch s.state p) (s.live.erase p)) cells' ∧
      (oveArenaFree arch s.state p).arena.base = s.state.arena.base ∧
      (oveArenaFree arch s.state p).arena.size = s.state.arena.size := by
  obtain ⟨xs, c, ys, rfl, hc, rfl⟩ := h.split hp
  obtain ⟨ws, ht, hheld, hu, ha, -⟩ := free_spec h.tiled hc
  have hl := h.live
  have hle : footprint 32 ws ≤ s.state.arena.used := hu ▸ Nat.le_add_right _ _
  refine ⟨ws, ⟨ht, ?_, ?_, ?_⟩, by rw [ha], by rw [ha]⟩
  · simp only [note, ha, hheld]
    simp only [held_append, held_cons, hc, if_false, Bool.false_eq_true, map_append,
      map_cons, singleton_append] at hl ⊢
    have he := (hl.trans perm_middle).erase (stop 32 s.state.arena.base xs + 32)
    rwa [erase_cons_head] at he
  · have hb := h.below
    rw [note, foldr_cons, ← h.peak, ha]
    exact (max_eq_right (hle.trans hb)).symm
  · simp only [note, ha]
    exact hle.trans h.below

theorem reset_inv (h : Inv arch s cells) :
    Inv arch (note s (oveArenaReset arch s.state) []) [wholeBlock s.state.arena.size] ∧
      (oveArenaReset arch s.state).arena = { s.state.arena with used := 0 } := by
  have ha : (oveArenaReset arch s.state).arena = { s.state.arena with used := 0 } := by
    rw [oveArenaReset, if_neg h.tiled.nonnull, arenaLayFirst, ← h.tiled.first]
  refine ⟨⟨reset_spec h.tiled, by simp [note, wholeBlock], ?_, ?_⟩, ha⟩
  · rw [note, foldr_cons, ← h.peak, ha]
    exact (Nat.zero_max _).symm
  · rw [note, ha]
    exact Nat.zero_le _

theorem step_inv (h : Inv arch s cells) (ha : Allowed arch s op) :
    ∃ s' cells', step arch s op = some s' ∧ Inv arch s' cells' ∧
      s'.state.arena.base = s.state.arena.base ∧ s'.state.arena.size = s.state.arena.size := by
  rw [step, if_pos ha]
  cases op with
  | alloc n => exact alloc_inv h n
  | calloc n => exact calloc_inv h n
  | free p =>
    obtain ⟨cells', hi, hb, hz⟩ := free_inv h ha
    exact ⟨_, cells', rfl, hi, hb, hz⟩
  | reset =>
    obtain ⟨hi, har⟩ := reset_inv h
    exact ⟨_, _, rfl, hi, by rw [note, har], by rw [note, har]⟩
  | poke p i v =>
    obtain ⟨hp, hlt⟩ := ha
    obtain ⟨xs, c, ys, rfl, hc, rfl⟩ := h.split hp
    have hb := h.tiled.block_lt
    rw [payloadBlk_eq (by omega), h.tiled.header, fields_payload] at hlt
    exact ⟨_, _, rfl, ⟨h.tiled.fill v (by omega) (by omega), h.live, h.peak, h.below⟩, rfl, rfl⟩

theorem step_allowed (h : step arch s op = some s') :
    Allowed arch s op ∧ apply arch s op = some s' := by
  unfold step at h
  split_ifs at h with ha
  exact ⟨ha, h⟩

theorem run_inv {ops : List Op} (h : Inv arch s cells) (hr : run arch s ops = some s') :
    ∃ cells', Inv arch s' cells' ∧ s'.state.arena.base = s.state.arena.base ∧
      s'.state.arena.size = s.state.arena.size := by
  induction ops generalizing s cells with
  | nil =>
    cases hr
    exact ⟨cells, h, rfl, rfl⟩
  | cons op ops ih =>
    obtain ⟨s₁, hs, hr⟩ := Option.bind_eq_some_iff.mp hr
    obtain ⟨t, cs, ht, hi, hb, hz⟩ := step_inv h (step_allowed hs).1
    cases ht.symm.trans hs
    obtain ⟨cells', hi', hb', hz'⟩ := ih hi hr
    exact ⟨cells', hi', hb'.trans hb, hz'.trans hz⟩

end

structure Sound (arch : Arch) (s : Sys) (cells : List Cell) : Prop where
  listed : blockList arch s.state = blocks 32 s.state.arena.base cells
  linked : Linked (get arch s.state.mem) 0 0 s.state.arena.base cells
  ordered : (blockList arch s.state).Pairwise fun p q => p.1 + 32 + p.2.payload ≤ q.1
  reach : stop 32 s.state.arena.base cells = s.state.arena.base + s.state.arena.size / 16 * 16
  coalesced : Coalesced cells
  live_iff : ∀ p, p ∈ s.live ↔ ∃ q ∈ blockList arch s.state, q.2.free = false ∧ p = q.1 + 32
  live_inside : ∀ p ∈ s.live, p % 16 = 0 ∧ s.state.arena.base ≤ p ∧
    p < s.state.arena.base + s.state.arena.size
  apart : ∀ q ∈ blockList arch s.state, ∀ r ∈ blockList arch s.state, q.1 ≠ r.1 →
    q.1 + 32 + q.2.payload ≤ r.1 ∨ r.1 + 32 + r.2.payload ≤ q.1
  used : s.state.arena.used = footprint 32 cells
  high_water : s.state.arena.highWater = s.history.foldr max 0

section
variable {arch : Arch} {s : Sys} {cells : List Cell}

theorem Inv.live_inside (h : Inv arch s cells) {p : ℕ} (hp : p ∈ s.live) :
    p % 16 = 0 ∧ s.state.arena.base ≤ p ∧ p < s.state.arena.base + s.state.arena.size := by
  obtain ⟨xs, c, ys, rfl, -, rfl⟩ := h.split hp
  have hm : (stop 32 s.state.arena.base xs, c) ∈
      blocks 32 s.state.arena.base (xs ++ c :: ys) := by simp [blocks]
  have hlt := block_lt_stop 32 (by decide) h.tiled.roomy (by decide) hm
  have hle := le_stop 32 s.state.arena.base xs
  have hr := h.tiled.reach_le
  have hmod : stop 32 s.state.arena.base xs % 16 = 0 :=
    stop_mod 32 (by decide) h.tiled.aligned fun d hd => h.tiled.payloads d (by simp [hd])
  omega

theorem Inv.sound (h : Inv arch s cells) : Sound arch s cells := by
  have hl := h.tiled.blockList_eq
  have hpw := blocks_pairwise 32 s.state.arena.base cells
  refine ⟨hl, h.tiled.linked, hl ▸ hpw, h.tiled.reach, h.tiled.coalesced, fun p => ?_,
    fun p => h.live_inside, ?_, h.tiled.used, h.peak⟩
  · rw [h.live.mem_iff, hl]
    simp only [mem_map, mem_held]
    constructor
    · rintro ⟨x, ⟨c, hc, hf⟩, rfl⟩
      exact ⟨(x, c), hc, hf, rfl⟩
    · rintro ⟨⟨x, c⟩, hc, hf, rfl⟩
      exact ⟨x, ⟨c, hc, hf⟩, rfl⟩
  · rw [hl]
    exact fun q hq r hr hne => blocks_apart 32 hq hr hne

end

/-- After any calls on an accepted buffer the block list is sound and every permitted call returns.
-/
theorem arena_runs_sound (arch : Arch) (m : Mem) (buf : Buffer arch) (s₀ s : Sys) (ops : List Op)
    (hb : boot arch m buf = .ok s₀) (hr : run arch s₀ ops = some s) :
    (∃ cells, Sound arch s cells) ∧ buf.addr ≤ s.state.arena.base ∧
      s.state.arena.base + s.state.arena.size = buf.addr + buf.size ∧
      ∀ op, Allowed arch s op → ∃ s', step arch s op = some s' := by
  obtain ⟨hi, ha, hz⟩ := boot_inv hb
  obtain ⟨cells, hs, hba, hsz⟩ := run_inv hi hr
  refine ⟨⟨cells, hs.sound⟩, hba ▸ ha, by rw [hba, hsz, hz], fun op hop => ?_⟩
  obtain ⟨s', -, hstep, -⟩ := step_inv hs hop
  exact ⟨s', hstep⟩

def smallBuffer : Buffer .arm32 := ⟨4100, 256, by decide, by decide⟩

def zeroMem : Mem := fun _ => 0

def smallArena : Sys :=
  match boot .arm32 zeroMem smallBuffer with
  | .ok s => s
  | .error _ => ⟨⟨⟨0, 0, 0, 0, 0⟩, zeroMem⟩, [], []⟩

theorem boot_smallBuffer : boot .arm32 zeroMem smallBuffer = .ok smallArena := rfl

def smallCalls : List Op :=
  [.alloc 10, .calloc 20, .alloc 0, .free 4144, .alloc 5, .poke 4144 3 7, .free 4192]

theorem smallCalls_sound : ∃ s, run .arm32 smallArena smallCalls = some s ∧
    s.live = [4144, 4256] ∧ ∃ cells, Sound .arm32 s cells := by
  obtain ⟨s, hs, hl⟩ : ∃ s, run .arm32 smallArena smallCalls = some s ∧ s.live = [4144, 4256] := by
    have h : ((run .arm32 smallArena smallCalls).map Sys.live) = some [4144, 4256] := by
      decide +kernel
    obtain ⟨s, hs, hl⟩ := Option.map_eq_some_iff.mp h
    exact ⟨s, hs, hl⟩
  exact ⟨s, hs, hl, (arena_runs_sound .arm32 zeroMem smallBuffer smallArena s smallCalls
    boot_smallBuffer hs).1⟩

def roundUp (n : ℕ) : ℕ := (max n 1 + 15) / 16 * 16

def Suits (n : ℕ) (q : ℕ × Cell) : Prop := q.2.free = true ∧ roundUp n ≤ q.2.payload

instance (n : ℕ) (q : ℕ × Cell) : Decidable (Suits n q) := inferInstanceAs (Decidable (_ ∧ _))

/-- A pointer exactly when a block suits, then into the lowest such block; otherwise no change. -/
structure FirstFit (arch : Arch) (s s' : State) (n p : ℕ) : Prop where
  nonnull_iff : p ≠ 0 ↔ ∃ q ∈ blockList arch s, Suits n q
  lowest : p ≠ 0 → ∃ q ∈ blockList arch s, Suits n q ∧ p = q.1 + 32 ∧
    (∀ r ∈ blockList arch s, Suits n r → q.1 ≤ r.1) ∧
    ∃ c, (q.1, c) ∈ blockList arch s' ∧ n ≤ c.payload
  unchanged : p = 0 → s' = s

def AllocCorrect (arch : Arch) (s : State) (n : ℕ) : Prop :=
  ∃ s' p, oveArenaAlloc arch s n = some (s', p) ∧ FirstFit arch s s' n p

section
variable {arch : Arch} {s : State} {cells : List Cell} {n : ℕ}

theorem request_eq_roundUp (h : n + 15 < 2 ^ arch.bits) : request arch n = roundUp n := by
  have hp := arch.two_pow_bits_ge
  rw [request, arenaAlign_eq, roundUp]
  split_ifs with h0
  · rw [h0, Word.wrap_of_lt (by omega)]
    rfl
  · rw [Word.wrap_of_lt h, max_eq_left (by omega)]

theorem request_eq_zero (h : 2 ^ arch.bits ≤ n + 15) (hn : n < 2 ^ arch.bits) :
    request arch n = 0 := by
  have hp := arch.two_pow_bits_ge
  have hw : Word.wrap arch.bits (n + 15) = n + 15 - 2 ^ arch.bits := Word.wrap_of_ge h (by omega)
  rw [request, if_neg (by omega), arenaAlign_eq, hw]
  omega

theorem le_roundUp (n : ℕ) : n ≤ roundUp n := by
  unfold roundUp
  omega

theorem alloc_firstFit (h : Tiled arch s cells) (hreq : request arch n = roundUp n) :
    AllocCorrect arch s n := by
  have hbl := h.blockList_eq
  have hle := le_roundUp n
  rcases alloc_spec h n with ⟨xs, c, ys, s', rfl, hx, hc, he, ht, hb, -, -⟩ | ⟨hx, he⟩
  · rw [hreq] at hx hc ht
    have hq : (stop 32 s.arena.base xs, c) ∈ blockList arch s := by simp [hbl, blocks]
    refine ⟨s', _, he, ⟨⟨fun _ => ⟨_, hq, hc⟩, fun _ => by omega⟩, fun _ => ?_, fun h0 => by omega⟩⟩
    refine ⟨_, hq, hc, rfl, fun r hr hs => ?_, ⟨kept (roundUp n) c, false⟩, ?_, ?_⟩
    · rw [hbl, blocks_append, mem_append] at hr
      rcases hr with hr | hr
      · exact absurd hs (hx r.2 (mem_of_mem_blocks 32 hr))
      · exact (mem_blocks_bounds 32 hr).1
    · simp [ht.blockList_eq, hb, blocks]
    · have h2 := hc.2
      simp only [kept]
      split_ifs <;> omega
  · rw [hreq] at hx
    refine ⟨s, 0, he, ⟨⟨fun h0 => absurd rfl h0, ?_⟩, fun h0 => absurd rfl h0, fun _ => rfl⟩⟩
    rintro ⟨q, hq, hs⟩
    exact absurd hs (hx q.2 (mem_of_mem_blocks 32 (hbl ▸ hq)))

theorem alloc_full (h : Tiled arch s cells) (hf : ∀ c ∈ cells, c.free = false) :
    AllocCorrect arch s n := by
  rcases alloc_spec h n with ⟨xs, c, ys, s', rfl, -, hc, -⟩ | ⟨-, he⟩
  · exact absurd hc.1 (by simp [hf c (by simp)])
  · refine ⟨s, 0, he, ⟨⟨fun h0 => absurd rfl h0, ?_⟩, fun h0 => absurd rfl h0, fun _ => rfl⟩⟩
    rintro ⟨q, hq, hs⟩
    rw [h.blockList_eq] at hq
    exact absurd hs.1 (by simp [hf q.2 (mem_of_mem_blocks 32 hq)])

theorem alloc_wrapped (h : Tiled arch s cells) (hreq : request arch n = 0)
    (hn : 2 ^ arch.bits ≤ n + 15) (hf : ∃ c ∈ cells, c.free = true) : ¬AllocCorrect arch s n := by
  rintro ⟨s', p, he, hfit⟩
  rcases alloc_spec h n with ⟨xs, c, ys, t, rfl, -, -, he', -⟩ | ⟨hx, -⟩
  · cases he'.symm.trans he
    obtain ⟨q, hq, -, hs⟩ := hfit.nonnull_iff.mp (by omega)
    rw [h.blockList_eq] at hq
    have hb := (mem_blocks_bounds 32 (x := q.1) (c := q.2) hq).2
    have hlt := h.reach_lt
    unfold roundUp at hs
    omega
  · obtain ⟨c, hc, hfree⟩ := hf
    exact hx c hc ⟨hfree, by omega⟩

end

/-- First fit is what `ove_arena_alloc` computes exactly for sizes whose rounding stays in `size_t`,
or when nothing is free. -/
theorem alloc_correct_iff (arch : Arch) (m : Mem) (buf : Buffer arch) (s₀ s : Sys) (ops : List Op)
    (n : ℕ) (hb : boot arch m buf = .ok s₀) (hr : run arch s₀ ops = some s)
    (hn : n < 2 ^ arch.bits) :
    AllocCorrect arch s.state n ↔
      n + 15 < 2 ^ arch.bits ∨ ∀ q ∈ blockList arch s.state, q.2.free = false := by
  obtain ⟨cells, hs, -⟩ := run_inv (boot_inv hb).1 hr
  have hfree : (∀ q ∈ blockList arch s.state, q.2.free = false) ↔ ∀ c ∈ cells, c.free = false := by
    rw [hs.tiled.blockList_eq]
    refine ⟨fun h c hc => ?_, fun h q hq => h q.2 (mem_of_mem_blocks 32 hq)⟩
    obtain ⟨x, hx⟩ := exists_mem_blocks 32 s.state.arena.base hc
    exact h (x, c) hx
  rw [hfree]
  constructor
  · intro hc
    by_contra hnot
    rw [not_or, Nat.not_lt] at hnot
    refine alloc_wrapped hs.tiled (request_eq_zero hnot.1 hn) hnot.1 ?_ hc
    simpa using hnot.2
  · rintro (hlt | hfull)
    · exact alloc_firstFit hs.tiled (request_eq_roundUp hlt)
    · exact alloc_full hs.tiled hfull

theorem alloc_correct_small : AllocCorrect .arm32 smallArena.state 100 :=
  (alloc_correct_iff .arm32 zeroMem smallBuffer smallArena smallArena [] 100 boot_smallBuffer rfl
    (by decide)).mpr (Or.inl (by decide))

theorem alloc_size_max : ((oveArenaAlloc .arm32 smallArena.state (2 ^ 32 - 1)).map Prod.snd =
    some 4144) ∧ ¬AllocCorrect .arm32 smallArena.state (2 ^ 32 - 1) := by
  have hp : (oveArenaAlloc .arm32 smallArena.state (2 ^ 32 - 1)).map Prod.snd = some 4144 := by
    decide +kernel
  have hbl : ∀ q ∈ blockList .arm32 smallArena.state, ¬Suits (2 ^ 32 - 1) q := by decide +kernel
  refine ⟨hp, ?_⟩
  rintro ⟨s', p, he, hfit⟩
  rw [he] at hp
  obtain ⟨q, hq, hs⟩ := hfit.nonnull_iff.mp (by cases hp; decide)
  exact hbl q hq hs

end Overtos.Arena
