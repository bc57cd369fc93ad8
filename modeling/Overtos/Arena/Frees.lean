import Overtos.Arena.Runs
import Overtos.Lib.Runs

/-! Releases: they commute, undo their allocations, and a released pointer stays dead. -/
namespace Overtos.Arena
open Memory Tiling Runs List

def releases (arch : Arch) (s : State) (ps : List ℕ) : State := ps.foldl (oveArenaFree arch) s

section
variable {arch : Arch} {s t : State} {cells ds xs ys : List Cell} {c : Cell}

theorem Tiled.same (h : Tiled arch s cells) (h' : Tiled arch t ds)
    (hb : t.arena.base = s.arena.base) (hz : t.arena.size = s.arena.size)
    (hu : inUse 32 s.arena.base cells = inUse 32 s.arena.base ds) :
    blockList arch s = blockList arch t ∧ s.arena.used = t.arena.used := by
  have hs : stop 32 s.arena.base cells = stop 32 s.arena.base ds := by
    have hr := h'.reach
    rw [hb, hz] at hr
    rw [h.reach, hr]
  have he := eq_of_inUse 32 (by decide) h.coalesced h'.coalesced hs hu
  rw [h.blockList_eq, h'.blockList_eq, h.used, h'.used, hb, he]
  exact ⟨rfl, rfl⟩

theorem free_inUse (h : Tiled arch s (xs ++ c :: ys)) (hc : c.free = false) :
    ∃ ws, Tiled arch (oveArenaFree arch s (stop 32 s.arena.base xs + 32)) ws ∧
      (oveArenaFree arch s (stop 32 s.arena.base xs + 32)).arena.base = s.arena.base ∧
      (oveArenaFree arch s (stop 32 s.arena.base xs + 32)).arena.size = s.arena.size ∧
      inUse 32 s.arena.base ws = inUse 32 s.arena.base xs ++
        inUse 32 (stop 32 s.arena.base xs + 32 + c.payload) ys := by
  obtain ⟨ws, ht, -, -, ha, hj⟩ := free_spec h hc
  refine ⟨ws, ht, by rw [ha], by rw [ha], ?_⟩
  rw [hj.inUse_eq]
  simp

theorem inUse_others (b : ℕ) (hc : c.free = false) :
    (inUse 32 b (xs ++ c :: ys)).filter (fun q => q.1 ≠ stop 32 b xs) =
      inUse 32 b xs ++ inUse 32 (stop 32 b xs + 32 + c.payload) ys := by
  have hx : ∀ q ∈ inUse 32 b xs, q.1 ≠ stop 32 b xs := by
    intro q hq
    have hb := (mem_blocks_bounds 32 (x := q.1) (c := q.2) ((mem_inUse 32).mp hq).1).2
    omega
  have hy : ∀ q ∈ inUse 32 (stop 32 b xs + 32 + c.payload) ys, q.1 ≠ stop 32 b xs := by
    intro q hq
    have hb := (mem_blocks_bounds 32 (x := q.1) (c := q.2) ((mem_inUse 32).mp hq).1).1
    omega
  have hfx := filter_eq_self.mpr fun q hq => decide_eq_true (hx q hq)
  have hfy := filter_eq_self.mpr fun q hq => decide_eq_true (hy q hq)
  rw [inUse_append, inUse_cons, filter_append, filter_append, hfx, hfy]
  simp [hc]

theorem releases_inUse {ps : List ℕ} (h : Tiled arch s cells) (hn : ps.Nodup)
    (hp : ∀ p ∈ ps, ∃ q ∈ inUse 32 s.arena.base cells, p = q.1 + 32) :
    ∃ ws, Tiled arch (releases arch s ps) ws ∧
      (releases arch s ps).arena.base = s.arena.base ∧
      (releases arch s ps).arena.size = s.arena.size ∧
      inUse 32 s.arena.base ws =
        (inUse 32 s.arena.base cells).filter fun q => q.1 + 32 ∉ ps := by
  induction ps generalizing s cells with
  | nil => exact ⟨cells, h, rfl, rfl, by simp⟩
  | cons p ps ih =>
    obtain ⟨q, hq, rfl⟩ := hp p (by simp)
    obtain ⟨hnot, hps⟩ := nodup_cons.mp hn
    obtain ⟨hblk, hfree⟩ := (mem_inUse 32).mp hq
    obtain ⟨xs, ys, rfl, hx⟩ := split_at_block 32 (x := q.1) (c := q.2) hblk
    obtain ⟨ws, hw, hb, hz, hu⟩ := free_inUse h hfree
    rw [← hx] at hw hb hz
    rw [← inUse_others s.arena.base hfree, ← hx] at hu
    have hrest : ∀ r ∈ ps, ∃ q' ∈ inUse 32 (oveArenaFree arch s (q.1 + 32)).arena.base ws,
        r = q'.1 + 32 := by
      intro r hr
      obtain ⟨q', hq', rfl⟩ := hp r (by simp [hr])
      refine ⟨q', ?_, rfl⟩
      rw [hb, hu]
      have hne : q'.1 ≠ q.1 := fun he => hnot (he ▸ hr)
      exact mem_filter.mpr ⟨hq', by simpa using hne⟩
    obtain ⟨vs, hv, hb', hz', hu'⟩ := ih hw hps hrest
    refine ⟨vs, hv, hb'.trans hb, hz'.trans hz, ?_⟩
    rw [hb] at hu'
    rw [hu', hu, filter_filter]
    congr 1
    funext q'
    simp [Bool.and_comm]

end

section
variable {arch : Arch} {s : Sys} {cells : List Cell}

theorem Inv.mem_live (h : Inv arch s cells) {p : ℕ} :
    p ∈ s.live ↔ ∃ q ∈ inUse 32 s.state.arena.base cells, p = q.1 + 32 := by
  rw [h.live.mem_iff, mem_map]
  constructor
  · rintro ⟨x, hx, rfl⟩
    obtain ⟨q, hq, rfl⟩ := mem_map.mp hx
    exact ⟨q, hq, rfl⟩
  · rintro ⟨q, hq, rfl⟩
    exact ⟨q.1, mem_map_of_mem hq, rfl⟩

theorem Inv.live_nodup (h : Inv arch s cells) : s.live.Nodup := by
  rw [h.live.nodup_iff]
  refine Nodup.map (fun x y hxy => by simpa using hxy) ?_
  have hpw := (blocks_pairwise 32 s.state.arena.base cells).filter fun q => !q.2.free
  refine pairwise_map.mpr (hpw.imp fun {q r} hqr he => ?_)
  omega

theorem alloc_free {st st' : State} {cells : List Cell} {n p : ℕ} (h : Tiled arch st cells)
    (ha : oveArenaAlloc arch st n = some (st', p)) (hp : p ≠ 0) :
    blockList arch (oveArenaFree arch st' p) = blockList arch st ∧
      (oveArenaFree arch st' p).arena.used = st.arena.used := by
  rcases alloc_spec h n with ⟨xs, c, ys, s', rfl, -, hc, he, ht, hb, hz, -⟩ | ⟨-, he⟩
  · obtain ⟨rfl, rfl⟩ := Prod.mk.inj (Option.some.inj (he.symm.trans ha))
    obtain ⟨ws, hw, hwb, hwz, hu⟩ := free_inUse ht rfl
    rw [hb] at hw hwb hwz hu
    refine Tiled.same hw h hwb.symm (hz ▸ hwz.symm) ?_
    rw [hwb, hu, inUse_append, inUse_append, inUse_cons]
    have hleft : inUse 32 (stop 32 st.arena.base xs + 32 + kept (request arch n) c)
        (leftover (request arch n) c) = [] := by
      unfold leftover
      split_ifs <;> simp
    simp [hleft, stop_leftover, hc.1]
  · cases he.symm.trans ha
    exact absurd rfl hp

end

/-- Releases commute, releasing everything restores the initial extent, and a release undoes its
allocation. -/
theorem releases_restore (arch : Arch) (m : Mem) (buf : Buffer arch) (s₀ s : Sys) (ops : List Op)
    (hb : boot arch m buf = .ok s₀) (hr : run arch s₀ ops = some s) :
    (∀ ps qs : List ℕ, ps.Nodup → ps.Perm qs → (∀ p ∈ ps, p ∈ s.live) →
      blockList arch (releases arch s.state ps) = blockList arch (releases arch s.state qs) ∧
      (releases arch s.state ps).arena.used = (releases arch s.state qs).arena.used) ∧
    (∀ ps : List ℕ, ps.Perm s.live →
      blockList arch (releases arch s.state ps) = blockList arch s₀.state ∧
      blockList arch s₀.state = [(s₀.state.arena.base, wholeBlock s₀.state.arena.size)] ∧
      (releases arch s.state ps).arena.used = 0) ∧
    ∀ n s' p, oveArenaAlloc arch s.state n = some (s', p) → p ≠ 0 →
      blockList arch (oveArenaFree arch s' p) = blockList arch s.state ∧
      (oveArenaFree arch s' p).arena.used = s.state.arena.used := by
  obtain ⟨hi, -, -⟩ := boot_inv hb
  obtain ⟨cells, hs, hbase, hsize⟩ := run_inv hi hr
  have hrel : ∀ ps : List ℕ, ps.Nodup → (∀ p ∈ ps, p ∈ s.live) → _ := fun ps hn hp =>
    releases_inUse hs.tiled hn fun p hm => hs.mem_live.mp (hp p hm)
  refine ⟨fun ps qs hn hpq hp => ?_, fun ps hps => ?_, fun n s' p ha hp => ?_⟩
  · obtain ⟨ws, hw, hwb, hwz, hwu⟩ := hrel ps hn hp
    obtain ⟨vs, hv, hvb, hvz, hvu⟩ := hrel qs (hpq.nodup_iff.mp hn) fun p hm =>
      hp p (hpq.mem_iff.mpr hm)
    refine Tiled.same hw hv (hvb.trans hwb.symm) (hvz.trans hwz.symm) ?_
    rw [hwb, hwu, hvu]
    simp only [hpq.mem_iff]
  · obtain ⟨ws, hw, hwb, hwz, hwu⟩ := hrel ps (hps.nodup_iff.mpr hs.live_nodup)
      fun p hm => hps.mem_iff.mp hm
    have hnone : inUse 32 s.state.arena.base ws = [] := by
      rw [hwu, filter_eq_nil_iff]
      intro q hq
      have hlive : q.1 + 32 ∈ s.live := hs.mem_live.mpr ⟨q, hq, rfl⟩
      simp [hps.mem_iff.mpr hlive]
    obtain ⟨h1, h2⟩ := Tiled.same hw hi.tiled (hbase ▸ hwb.symm) (hsize ▸ hwz.symm)
      (by rw [hwb, hnone]; simp [wholeBlock])
    refine ⟨h1, ?_, h2.trans ?_⟩
    · rw [hi.tiled.blockList_eq]
      rfl
    · rw [hi.tiled.used]
      simp [wholeBlock]
  · exact alloc_free hs.tiled ha hp

theorem smallCalls_restore : ∃ s, run .arm32 smallArena smallCalls = some s ∧
    blockList .arm32 (releases .arm32 s.state [4144, 4256]) =
      blockList .arm32 (releases .arm32 s.state [4256, 4144]) ∧
    blockList .arm32 (releases .arm32 s.state [4256, 4144]) =
      blockList .arm32 smallArena.state := by
  have h : ((run .arm32 smallArena smallCalls).map Sys.live) = some [4144, 4256] := by
    decide +kernel
  obtain ⟨s, hs, hl⟩ := Option.map_eq_some_iff.mp h
  obtain ⟨horder, hall, -⟩ := releases_restore .arm32 zeroMem smallBuffer smallArena s smallCalls
    boot_smallBuffer hs
  have hperm : [4144, 4256].Perm [4256, 4144] := by decide
  refine ⟨s, hs, (horder _ _ (by decide) hperm (by simp [hl])).1, (hall _ ?_).1⟩
  rw [hl]
  exact hperm.symm

def Spent (arch : Arch) (m : Mem) (a : ℕ) (cs : List Cell) (b : ℕ) : Prop :=
  ∃ q ∈ blocks 32 a cs, q.2.free = true ∧
    (b = q.1 ∨ q.1 + 32 ≤ b ∧ b ≤ q.1 + q.2.payload ∧ get arch m b .magic ≠ arenaMagic)

section
variable {arch : Arch} {m m' : Mem} {a b : ℕ} {cs ds xs ys : List Cell} {c : Cell}

theorem Spent.absorb {p q : ℕ}
    (hl : Linked (get arch m) 0 0 a (xs ++ ⟨p, true⟩ :: ⟨q, true⟩ :: ys))
    (hlt : stop 32 a (xs ++ ⟨p, true⟩ :: ⟨q, true⟩ :: ys) < 2 ^ arch.bits)
    (h : Spent arch m a (xs ++ ⟨p, true⟩ :: ⟨q, true⟩ :: ys) b) :
    Spent arch (absorb arch m (stop 32 a xs) (stop 32 a xs + 32 + p)) a
      (xs ++ ⟨p + 32 + q, true⟩ :: ys) b := by
  obtain ⟨-, h2, h3, -⟩ := linked_cons_iff.mp hl
  have hle := le_stop 32 (stop 32 a xs + 32 + p + 32 + q) ys
  have hz := entry_cases (stop 32 a xs + 32 + p + 32 + q) ys
  simp only [stop_append, stop] at hlt
  obtain ⟨-, -, hf⟩ := absorb_spec (by simpa [entry] using h2) h3 rfl (by dsimp only; omega)
    (by dsimp only; omega) (by dsimp only; omega)
  dsimp only at hf
  have hmag := @absorb_magic arch m (stop 32 a xs) (stop 32 a xs + 32 + p)
  have hnew : (stop 32 a xs, (⟨p + 32 + q, true⟩ : Cell)) ∈
      blocks 32 a (xs ++ ⟨p + 32 + q, true⟩ :: ys) := by simp [blocks]
  have hend : stop 32 a xs + 32 + (p + 32 + q) = stop 32 a xs + 32 + p + 32 + q := by omega
  obtain ⟨r, hr, hfree, hb⟩ := h
  simp only [blocks_append, blocks, mem_append, mem_cons] at hr
  rcases hr with hr | rfl | rfl | hr
  · -- a block before the two
    have hbd := mem_blocks_bounds 32 (x := r.1) (c := r.2) hr
    refine ⟨r, by simp [hr], hfree, hb.imp_right fun hin => ⟨hin.1, hin.2.1, ?_⟩⟩
    obtain ⟨hlo, hhi, hne⟩ := hin
    rwa [hf b (Or.inl (by omega)) (Or.inl (by omega)) (hz.imp_right fun h => Or.inl (by omega))]
  · -- the block that grows
    refine ⟨_, hnew, rfl, hb.imp_right fun hin => ?_⟩
    obtain ⟨hlo, hhi, hne⟩ := hin
    dsimp only at hlo hhi ⊢
    refine ⟨hlo, by omega, ?_⟩
    rwa [hf b (Or.inr hlo) (Or.inl (by omega)) (hz.imp_right fun h => Or.inl (by omega))]
  · -- the block that is taken over
    refine ⟨_, hnew, rfl, Or.inr ?_⟩
    dsimp only at hb ⊢
    rcases hb with rfl | ⟨hlo, hhi, hne⟩
    · refine ⟨by omega, by omega, ?_⟩
      rw [hmag]
      decide
    · refine ⟨by omega, by omega, ?_⟩
      rwa [hf b (Or.inr (by omega)) (Or.inr hlo) (hz.imp_right fun h => Or.inl (by omega))]
  · -- a block behind the two
    have hbd := mem_blocks_bounds 32 (x := r.1) (c := r.2) hr
    refine ⟨r, by simp [blocks, hend, hr], hfree, hb.imp_right fun hin => ⟨hin.1, hin.2.1, ?_⟩⟩
    obtain ⟨hlo, hhi, hne⟩ := hin
    rwa [hf b (Or.inr (by omega)) (Or.inr (by omega)) (hz.imp_right fun h => Or.inr (by omega))]

theorem Joins.spent (hj : Joins arch a m cs m' ds) (h : Spent arch m a cs b) :
    Spent arch m' a ds b := by
  induction hj with
  | refl => exact h
  | absorb _ hl hb ih => exact Spent.absorb hl hb (ih h)

theorem Spent.outside (hc : c.free = false) (h : Spent arch m a (xs ++ c :: ys) b)
    (hm : ∀ y, y + 32 ≤ stop 32 a xs ∨ stop 32 a xs + 32 + c.payload ≤ y →
      get arch m' y = get arch m y)
    (hd : ∀ q ∈ blocks 32 a (xs ++ c :: ys), q.2.free = true → q ∈ blocks 32 a ds) :
    Spent arch m' a ds b := by
  obtain ⟨q, hq, hf, hb⟩ := h
  refine ⟨q, hd q hq hf, hf, hb.imp_right fun hin => ⟨hin.1, hin.2.1, ?_⟩⟩
  obtain ⟨hlo, hhi, hne⟩ := hin
  have hself : (stop 32 a xs, c) ∈ blocks 32 a (xs ++ c :: ys) := by simp [blocks]
  have happ : q.1 ≠ stop 32 a xs := by
    intro he
    have hpw := blocks_apart 32 hq hself
    simp only [blocks_append, blocks, mem_append, mem_cons] at hq
    rcases hq with hq | rfl | hq
    · have := mem_blocks_bounds 32 (x := q.1) (c := q.2) hq
      omega
    · simp [hc] at hf
    · have := mem_blocks_bounds 32 (x := q.1) (c := q.2) hq
      omega
  have hap := blocks_apart 32 hq hself happ
  dsimp only at hap
  rwa [hm b (by omega)]

end

section
variable {arch : Arch} {s : State} {cells ds xs ys : List Cell} {c : Cell} {b : ℕ}

theorem Tiled.unique (h : Tiled arch s cells) (h' : Tiled arch s ds) : cells = ds := by
  have hb := congrArg (map Prod.snd) (h.blockList_eq.symm.trans h'.blockList_eq)
  rwa [blocks_snd, blocks_snd] at hb

theorem free_spent (h : Tiled arch s (xs ++ c :: ys)) (hc : c.free = false)
    (ht : Tiled arch (oveArenaFree arch s (stop 32 s.arena.base xs + 32)) ds) :
    Spent arch (oveArenaFree arch s (stop 32 s.arena.base xs + 32)).mem s.arena.base ds
      (stop 32 s.arena.base xs) ∧
    ∀ b, Spent arch s.mem s.arena.base (xs ++ c :: ys) b →
      Spent arch (oveArenaFree arch s (stop 32 s.arena.base xs + 32)).mem s.arena.base ds b := by
  obtain ⟨ws, hw, -, -, -, hj⟩ := free_spec h hc
  obtain rfl := ht.unique hw
  refine ⟨hj.spent ⟨(stop 32 s.arena.base xs, ⟨c.payload, true⟩), by simp [blocks], rfl,
    Or.inl rfl⟩, fun b hb => hj.spent (hb.outside hc (fun y hy => ?_) fun q hq hf => ?_)⟩
  · exact get_set_apart (hy.imp_right fun h => by omega)
  · simp only [blocks_append, blocks, mem_append, mem_cons] at hq ⊢
    rcases hq with hq | rfl | hq
    · exact Or.inl hq
    · simp [hc] at hf
    · exact Or.inr (Or.inr hq)

def Refused (arch : Arch) (s : State) (q : ℕ) : Prop :=
  (q = 0 ∨ oveArenaOwns arch s.arena q = false) ∨
    get arch s.mem (payloadBlk arch q) .magic ≠ arenaMagic ∨
    get arch s.mem (payloadBlk arch q) .isFree ≠ 0

theorem Refused.free_eq {q : ℕ} (h : Refused arch s q) : oveArenaFree arch s q = s := by
  unfold oveArenaFree
  rcases h with h | h
  · rw [if_pos h]
  · dsimp only
    rw [if_pos h, ite_self]

theorem Spent.refused (h : Tiled arch s cells) (hs : Spent arch s.mem s.arena.base cells b) :
    Refused arch s (b + 32) := by
  obtain ⟨q, hq, hf, hb⟩ := hs
  have hlt := (mem_blocks_bounds 32 (x := q.1) (c := q.2) hq).2.trans_lt h.reach_lt
  obtain ⟨xs, ys, rfl, hx⟩ := split_at_block 32 (x := q.1) (c := q.2) hq
  rw [Refused, payloadBlk_eq (by omega)]
  rcases hb with rfl | ⟨-, -, hne⟩
  · right
    right
    rw [hx, h.header, fields_isFree, hf]
    decide
  · exact Or.inr (Or.inl hne)

end

def Between (arch : Arch) (p : ℕ) (s : Sys) : Op → Prop
  | .free q => q = p ∨ q ∈ s.live ∨ Refused arch s.state q
  | .poke q i _ => q ∈ s.live ∧ i < get arch s.state.mem (payloadBlk arch q) .payload
  | .alloc _ | .calloc _ | .reset => False

instance (arch : Arch) (s : State) (q : ℕ) : Decidable (Refused arch s q) :=
  inferInstanceAs (Decidable (_ ∨ _))

instance (arch : Arch) (p : ℕ) (s : Sys) : (op : Op) → Decidable (Between arch p s op)
  | .free q => inferInstanceAs (Decidable (q = p ∨ q ∈ s.live ∨ Refused arch s.state q))
  | .poke q i _ =>
    inferInstanceAs (Decidable (q ∈ s.live ∧ i < get arch s.state.mem (payloadBlk arch q) .payload))
  | .alloc _ | .calloc _ | .reset => .isFalse id

def Dead (arch : Arch) (b : ℕ) (s : Sys) : Prop :=
  ∃ cells, Inv arch s cells ∧ Spent arch s.state.mem s.state.arena.base cells b

section
variable {arch : Arch} {s s' : Sys} {b p : ℕ} {op : Op}

theorem Dead.refused (h : Dead arch b s) : Refused arch s.state (b + 32) := by
  obtain ⟨cells, hi, hs⟩ := h
  exact hs.refused hi.tiled

theorem Dead.turned_down (h : Dead arch b s) (hq : Refused arch s.state p) (hl : p ∉ s.live) :
    Dead arch b (note s (oveArenaFree arch s.state p) (s.live.erase p)) := by
  obtain ⟨cells, hi, hs⟩ := h
  rw [hq.free_eq, erase_of_not_mem hl]
  exact ⟨cells, hi.refused, hs⟩

theorem Dead.free (h : Dead arch b s) (hl : p ∈ s.live) :
    Dead arch b (note s (oveArenaFree arch s.state p) (s.live.erase p)) := by
  obtain ⟨cells, hi, hs⟩ := h
  obtain ⟨ds, hd, hb, -⟩ := free_inv hi hl
  obtain ⟨xs, c, ys, rfl, hc, rfl⟩ := hi.split hl
  refine ⟨ds, hd, ?_⟩
  have hsp := (free_spent hi.tiled hc hd.tiled).2 b hs
  simp only [note, hb]
  exact hsp

theorem Dead.poke {i : ℕ} {v : UInt8} (h : Dead arch b s) (hl : p ∈ s.live)
    (hlt : i < get arch s.state.mem (payloadBlk arch p) .payload)
    (hs' : apply arch s (.poke p i v) = some s') : Dead arch b s' := by
  obtain ⟨cells, hi, hs⟩ := h
  obtain ⟨t, ds, ht, hd, -⟩ := @step_inv arch s cells (.poke p i v) hi ⟨hl, hlt⟩
  rw [step, if_pos ⟨hl, hlt⟩] at ht
  cases ht.symm.trans hs'
  obtain ⟨xs, c, ys, rfl, hc, rfl⟩ := hi.split hl
  have hb := hi.tiled.block_lt
  rw [payloadBlk_eq (by omega), hi.tiled.header, fields_payload] at hlt
  cases hs'
  have hfill := hi.tiled.fill v (x := stop 32 s.state.arena.base xs + 32 + i) (n := 1) (by omega)
    (by omega)
  obtain rfl := hd.tiled.unique hfill
  refine ⟨_, hd, hs.outside hc (fun y hy => ?_) fun q hq _ => hq⟩
  dsimp only at hy
  exact get_fill_apart (by omega)

theorem dead_step (h : Dead arch b s) (ho : Between arch (b + 32) s op)
    (hs : apply arch s op = some s') : Dead arch b s' := by
  cases op with
  | free q =>
    cases hs
    by_cases hl : q ∈ s.live
    · exact h.free hl
    · rcases ho with rfl | hq | hq
      · exact h.turned_down h.refused hl
      · exact absurd hq hl
      · exact h.turned_down hq hl
  | poke q i v => exact h.poke ho.1 ho.2 hs
  | alloc n | calloc n | reset => exact ho.elim

theorem dead_of_free {cells : List Tiling.Cell} (hi : Inv arch s cells)
    (hf : step arch s (.free p) = some s') : ∃ b, p = b + 32 ∧ Dead arch b s' := by
  obtain ⟨hl, hf⟩ := step_allowed hf
  cases hf
  obtain ⟨ds, hd, hb, -⟩ := free_inv hi hl
  obtain ⟨xs, c, ys, rfl, hc, rfl⟩ := hi.split hl
  refine ⟨_, rfl, ds, hd, ?_⟩
  have hsp := (free_spent hi.tiled hc hd.tiled).1
  simp only [note, hb]
  exact hsp

end

/-- Releasing a released pointer again changes nothing until the next allocation or reset. -/
theorem released_pointer_ignored (arch : Arch) (m : Mem) (buf : Buffer arch) (s₀ s s₁ : Sys)
    (ops since : List Op) (p : ℕ) (hb : boot arch m buf = .ok s₀) (hr : run arch s₀ ops = some s)
    (hf : step arch s (.free p) = some s₁) (hw : Each (apply arch) (Between arch p) s₁ since) :
    Always (apply arch) (fun t => oveArenaFree arch t.state p = t.state) s₁ since := by
  obtain ⟨cells, hs, -⟩ := run_inv (boot_inv hb).1 hr
  obtain ⟨b, rfl, hd⟩ := dead_of_free hs hf
  exact (always_of_each (fun s op t h ho ht => dead_step h ho ht) hd hw).mono
    fun t ht => ht.refused.free_eq

theorem released_pointer_small : ∃ s s₁, run .arm32 smallArena [.alloc 10, .calloc 20, .alloc 0] =
      some s ∧ step .arm32 s (.free 4192) = some s₁ ∧
    Always (apply .arm32) (fun t => oveArenaFree .arm32 t.state 4192 = t.state) s₁
      [.free 4192, .free 4144, .poke 4256 0 7, .free 4192] := by
  have h : ((run .arm32 smallArena [.alloc 10, .calloc 20, .alloc 0]).bind fun s =>
      (step .arm32 s (.free 4192)).map fun s₁ => decide (Each (apply .arm32)
        (Between .arm32 4192) s₁ [.free 4192, .free 4144, .poke 4256 0 7, .free 4192])) =
      some true := by decide +kernel
  obtain ⟨s, hs, h⟩ := Option.bind_eq_some_iff.mp h
  obtain ⟨s₁, hf, h⟩ := Option.map_eq_some_iff.mp h
  exact ⟨s, s₁, hs, hf, released_pointer_ignored .arm32 zeroMem smallBuffer smallArena s s₁ _ _ 4192
    boot_smallBuffer hs hf (of_decide_eq_true h)⟩

def dirtyMem : Mem := fun _ => 1

def dirtyArena : Sys :=
  match boot .arm32 dirtyMem smallBuffer with
  | .ok s => s
  | .error _ => ⟨⟨⟨0, 0, 0, 0, 0⟩, dirtyMem⟩, [], []⟩

def pokes (p : ℕ) : ℕ → List UInt8 → List Op
  | _, [] => []
  | i, v :: vs => .poke p i v :: pokes p (i + 1) vs

def staleCalls : List Op :=
  [.alloc 10, .alloc 20, .free 4144, .free 4192, .alloc 80, .alloc 0] ++
    pokes 4144 16 [0, 0, 0, 0, 0x8c, 0x10, 0, 0, 0, 0, 0, 0, 0, 0, 0, 0, 0x42, 0x52, 0x41, 0x4f]

theorem stale_release_revives : boot .arm32 dirtyMem smallBuffer = .ok dirtyArena ∧
    ∃ s s₁, run .arm32 dirtyArena staleCalls = some s ∧ step .arm32 s (.free 4256) = some s₁ ∧
      (releases .arm32 s₁.state [4192, 4256]).arena.used ≠
        (releases .arm32 s₁.state [4192]).arena.used := by
  have h : ((run .arm32 dirtyArena staleCalls).bind fun s =>
      (step .arm32 s (.free 4256)).map fun s₁ =>
        decide ((releases .arm32 s₁.state [4192, 4256]).arena.used ≠
          (releases .arm32 s₁.state [4192]).arena.used)) = some true := by decide +kernel
  obtain ⟨s, hs, h⟩ := Option.bind_eq_some_iff.mp h
  obtain ⟨s₁, hf, h⟩ := Option.map_eq_some_iff.mp h
  exact ⟨rfl, s, s₁, hs, hf, of_decide_eq_true h⟩

end Overtos.Arena
