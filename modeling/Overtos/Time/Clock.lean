import Overtos.Lib.Runs
import Overtos.Lib.Seqlock

/-! The nanosecond clock of the FreeRTOS STM32F7 backend, one load at a time, preempted by the tick.
-/
namespace Overtos.Time
open Word Seqlock Runs List Option

structure Epoch where
  total : ℕ
  cyc : ℕ
  deriving DecidableEq, Repr

def Epoch.fields (e : Epoch) : List ℕ := [wrap 32 e.total, e.total / 2 ^ 32, e.cyc]

structure Globals where
  nsPerCycQ32 : ℕ
  ts : Cell Epoch
  runtime : Cell Epoch

def scale (dcyc q : ℕ) : ℕ := wrap 64 (dcyc * q) / 2 ^ 32

/-- The first call stores `g_ts_cyc` outside of the sequence number. -/
def oveFreertosTimeTick (clk : ℕ) (g : Globals) (now : ℕ) : Globals :=
  let old := g.runtime.data
  let runtime := g.runtime.update ⟨wrap 64 (old.total + sub 32 now old.cyc), now⟩
  if g.nsPerCycQ32 = 0 then
    ⟨10 ^ 9 * 2 ^ 32 / clk, ⟨g.ts.seq, ⟨g.ts.data.total, now⟩⟩, runtime⟩
  else
    let dns := scale (sub 32 now g.ts.data.cyc) g.nsPerCycQ32
    { g with
      ts := g.ts.update ⟨wrap 64 (g.ts.data.total + dns), now⟩
      runtime }

/-- `base` and `since` record the cycles at which the base of the pass was taken, and the ticks
since. -/
inductive Reader where
  | idle
  | high (low : ℕ)
  | direct
  | seq (q : ℕ)
  | pass (q : ℕ) (p : Pass) (base : ℕ)
  | counter (q ns cyc : ℕ) (base since : ℕ)
  deriving DecidableEq, Repr

def Reader.load (g : Globals) (epoch : ℕ) : Reader → Option Reader
  | .idle => some (.high (wrap 32 g.nsPerCycQ32))
  | .high low =>
    let q := low + 2 ^ 32 * (g.nsPerCycQ32 / 2 ^ 32)
    some (if q = 0 then .direct else .seq q)
  | .seq q => some (.pass q (.start g.ts) epoch)
  | .pass q p base =>
    match p.words with
    | [lo, hi, cyc] =>
      some (if p.accepts g.ts then .counter q (lo + 2 ^ 32 * hi) cyc base p.since else .seq q)
    | _ => some (.pass q (p.load Epoch.fields g.ts) base)
  | .direct | .counter .. => none

def Reader.value (clk now : ℕ) : Reader → Option ℕ
  | .direct => some (wrap 64 (now * 10 ^ 9) / clk)
  | .counter q ns cyc _ _ => some (wrap 64 (ns + scale (sub 32 now cyc) q))
  | _ => none

def Reader.ticked : Reader → Reader
  | .pass q p base => .pass q p.updated base
  | .counter q ns cyc base since => .counter q ns cyc base (since + 1)
  | r => r

/-- `next` is the least number of cycles that the next load of `CYCCNT` can find. -/
structure System where
  globals : Globals
  reader : Reader
  next : ℕ
  epoch : ℕ
  returned : List ℕ

def System.init : System := ⟨⟨0, ⟨0, ⟨0, 0⟩⟩, ⟨0, ⟨0, 0⟩⟩⟩, .idle, 0, 0, []⟩

inductive Act where
  | tick (cycles : ℕ)
  | load
  | count (cycles : ℕ)
  deriving DecidableEq, Repr

/-- Fewer than 2^32 cycles pass between two ticks. -/
def step (clk : ℕ) (s : System) : Act → Option System
  | .tick cycles =>
    if s.next ≤ cycles ∧ (s.globals.nsPerCycQ32 ≠ 0 → cycles < s.epoch + 2 ^ 32) then
      some { s with
        globals := oveFreertosTimeTick clk s.globals (wrap 32 cycles)
        reader := s.reader.ticked
        next := cycles + 1
        epoch := cycles }
    else none
  | .load => (s.reader.load s.globals s.epoch).map fun r => { s with reader := r }
  | .count cycles =>
    if s.next ≤ cycles then
      (s.reader.value clk (wrap 32 cycles)).map fun v =>
        { s with reader := .idle, next := cycles + 1, returned := v :: s.returned }
    else none

def NonDecreasing (s : System) : Prop := s.returned.Pairwise (· ≥ ·)

/-- The first tick comes before any call; products, sums and differences fit their widths; fewer
than 2^31 ticks come in a pass, and behind the loop no more than a cycle has whole nanoseconds. -/
def Careful (s : System) : Act → Prop
  | .tick cycles =>
    let q := s.globals.nsPerCycQ32
    if q = 0 then s.returned = [] ∧ s.reader = .idle
    else (cycles - s.epoch) * q < 2 ^ 64 ∧
      s.globals.ts.data.total + (cycles - s.epoch) * q / 2 ^ 32 < 2 ^ 64
  | .load =>
    match s.reader with
    | .pass _ p _ => p.since < 2 ^ 31
    | _ => True
  | .count cycles =>
    match s.reader with
    | .direct => cycles < 2 ^ 32
    | .counter q ns _ base since =>
      cycles - base < 2 ^ 32 ∧ (cycles - base) * q < 2 ^ 64 ∧
        ns + (cycles - base) * q / 2 ^ 32 < 2 ^ 64 ∧ since ≤ q / 2 ^ 32
    | _ => True

structure Unarmed (clk : ℕ) (s : System) : Prop where
  reciprocal : s.globals.nsPerCycQ32 = 0
  seq : s.globals.ts.seq < 2 ^ 32
  reader : s.reader = .idle ∨ s.reader = .high 0 ∨ s.reader = .direct
  returned : ∀ x ∈ s.returned, x ≤ s.next * 10 ^ 9 / clk

def Reader.Fits (g : Globals) (epoch next : ℕ) (returned : List ℕ) : Reader → Prop
  | .idle => True
  | .high low => low = wrap 32 g.nsPerCycQ32
  | .direct => False
  | .seq q => q = g.nsPerCycQ32
  | .pass q p base => q = g.nsPerCycQ32 ∧ p.Tracks Epoch.fields g.ts ∧ (p.since = 0 → base = epoch)
  | .counter q ns cyc base since =>
    q = g.nsPerCycQ32 ∧ cyc = wrap 32 base ∧ base ≤ epoch ∧
      (∀ x ∈ returned, x ≤ ns + (next - base) * q / 2 ^ 32) ∧
      -- each tick since has dropped less than a nanosecond
      ns * 2 ^ 32 + (epoch - base) * q ≤ (g.ts.data.total + since) * 2 ^ 32

structure Armed (s : System) : Prop where
  reciprocal : s.globals.nsPerCycQ32 ≠ 0
  seq : s.globals.ts.seq < 2 ^ 32
  cyc : s.globals.ts.data.cyc = wrap 32 s.epoch
  epoch : s.epoch < s.next
  returned : ∀ x ∈ s.returned,
    x ≤ s.globals.ts.data.total + (s.next - s.epoch) * s.globals.nsPerCycQ32 / 2 ^ 32
  reader : s.reader.Fits s.globals s.epoch s.next s.returned

section

variable {ns total since d e q : ℕ}

theorem scale_of_lt (h : d * q < 2 ^ 64) : scale d q = d * q / 2 ^ 32 := by
  rw [scale, wrap_of_lt h]

theorem scaled_mono (h : d ≤ e) : d * q / 2 ^ 32 ≤ e * q / 2 ^ 32 :=
  Nat.div_le_div_right (Nat.mul_le_mul_right q h)

theorem scaled_lt_succ : d * q < (d * q / 2 ^ 32 + 1) * 2 ^ 32 :=
  Nat.lt_mul_of_div_lt (Nat.lt_succ_self _) (by norm_num)

theorem stale_le (hdrop : ns * 2 ^ 32 + d * q ≤ (total + since) * 2 ^ 32)
    (hfew : since ≤ q / 2 ^ 32) :
    ns + (d + e) * q / 2 ^ 32 ≤ total + (e + 1) * q / 2 ^ 32 := by
  have hcycle : since * 2 ^ 32 ≤ q := (Nat.le_div_iff_mul_le (by norm_num)).mp hfew
  have hsum : (d + e) * q + ns * 2 ^ 32 ≤ (e + 1) * q + total * 2 ^ 32 := by
    rw [Nat.add_mul, Nat.add_mul, Nat.one_mul]
    omega
  calc ns + (d + e) * q / 2 ^ 32
      = ((d + e) * q + ns * 2 ^ 32) / 2 ^ 32 := by
        rw [Nat.add_mul_div_right _ _ (by norm_num), Nat.add_comm]
    _ ≤ ((e + 1) * q + total * 2 ^ 32) / 2 ^ 32 := Nat.div_le_div_right hsum
    _ = total + (e + 1) * q / 2 ^ 32 := by
        rw [Nat.add_mul_div_right _ _ (by norm_num), Nat.add_comm]

end

section

variable {clk cycles : ℕ} {s t : System}

theorem step_load (hs : step clk s .load = some t) :
    ∃ r, s.reader.load s.globals s.epoch = some r ∧ t = { s with reader := r } := by
  obtain ⟨r, hr, ht⟩ := map_eq_some_iff.mp hs
  exact ⟨r, hr, ht.symm⟩

theorem step_count (hs : step clk s (.count cycles) = some t) :
    s.next ≤ cycles ∧ ∃ v, s.reader.value clk (wrap 32 cycles) = some v ∧
      t = { s with reader := .idle, next := cycles + 1, returned := v :: s.returned } := by
  simp only [step] at hs
  split_ifs at hs with hnext
  obtain ⟨v, hv, ht⟩ := map_eq_some_iff.mp hs
  exact ⟨hnext, v, hv, ht.symm⟩

theorem step_tick (hs : step clk s (.tick cycles) = some t) :
    s.next ≤ cycles ∧ (s.globals.nsPerCycQ32 ≠ 0 → cycles < s.epoch + 2 ^ 32) ∧
      t = { s with
        globals := oveFreertosTimeTick clk s.globals (wrap 32 cycles)
        reader := s.reader.ticked
        next := cycles + 1
        epoch := cycles } := by
  simp only [step] at hs
  split_ifs at hs with hguard
  exact ⟨hguard.1, hguard.2, (some.inj hs).symm⟩

theorem NonDecreasing.load (hP : NonDecreasing s) (hs : step clk s .load = some t) :
    NonDecreasing t := by
  obtain ⟨r, -, rfl⟩ := step_load hs
  exact hP

theorem NonDecreasing.tick (hP : NonDecreasing s) (hs : step clk s (.tick cycles) = some t) :
    NonDecreasing t := by
  obtain ⟨-, -, rfl⟩ := step_tick hs
  exact hP

theorem unarmed_load (hI : Unarmed clk s) (hs : step clk s .load = some t) : Unarmed clk t := by
  obtain ⟨r, hr, rfl⟩ := step_load hs
  have hzero := hI.reciprocal
  refine ⟨hzero, hI.seq, ?_, hI.returned⟩
  rcases hI.reader with hreader | hreader | hreader
  · rw [hreader, Reader.load, hzero] at hr
    exact .inr (.inl (some.inj hr).symm)
  · rw [hreader, Reader.load, hzero] at hr
    exact .inr (.inr (some.inj hr).symm)
  · rw [hreader, Reader.load] at hr
    cases hr

theorem unarmed_count (hI : Unarmed clk s) (hP : NonDecreasing s)
    (hc : Careful s (.count cycles)) (hs : step clk s (.count cycles) = some t) :
    Unarmed clk t ∧ NonDecreasing t := by
  obtain ⟨hnext, v, hv, rfl⟩ := step_count hs
  rcases hI.reader with hreader | hreader | hreader
  · simp [hreader, Reader.value] at hv
  · simp [hreader, Reader.value] at hv
  simp only [Careful, hreader] at hc
  rw [hreader, Reader.value, wrap_of_lt hc, wrap_of_lt (by omega), some.injEq] at hv
  have hle : ∀ x ∈ s.returned, x ≤ v := by
    intro x hx
    rw [← hv]
    exact (hI.returned x hx).trans (Nat.div_le_div_right (Nat.mul_le_mul_right _ hnext))
  have hlast : v ≤ (cycles + 1) * 10 ^ 9 / clk := by
    rw [← hv]
    exact Nat.div_le_div_right (Nat.mul_le_mul_right _ (Nat.le_succ _))
  refine ⟨⟨hI.reciprocal, hI.seq, .inl rfl, ?_⟩, pairwise_cons.mpr ⟨hle, hP⟩⟩
  exact forall_mem_cons.mpr ⟨hlast, fun x hx => (hle x hx).trans hlast⟩

theorem unarmed_tick (hI : Unarmed clk s) (hc : Careful s (.tick cycles))
    (hs : step clk s (.tick cycles) = some t) : Unarmed clk t ∨ Armed t := by
  obtain ⟨hnext, -, rfl⟩ := step_tick hs
  simp only [Careful, if_pos hI.reciprocal] at hc
  obtain ⟨hreturned, hreader⟩ := hc
  have hempty : ∀ P : ℕ → Prop, ∀ x ∈ s.returned, P x := by
    rw [hreturned]
    exact fun P => forall_mem_nil P
  simp only [oveFreertosTimeTick, if_pos hI.reciprocal, hreader, Reader.ticked]
  rcases Nat.eq_zero_or_pos (10 ^ 9 * 2 ^ 32 / clk) with hzero | hpos
  · exact .inl ⟨hzero, hI.seq, .inl rfl, hempty _⟩
  · exact .inr ⟨hpos.ne', hI.seq, rfl, Nat.lt_succ_self _, hempty _, trivial⟩

theorem epoch_of_words {c : Cell Epoch} {p : Pass} {lo hi cyc : ℕ} (h : p.Tracks Epoch.fields c)
    (hsince : p.since = 0) (hwords : p.words = [lo, hi, cyc]) :
    lo = wrap 32 c.data.total ∧ hi = c.data.total / 2 ^ 32 ∧ cyc = c.data.cyc := by
  have hprefix := h.words hsince
  rw [hwords] at hprefix
  have heq := hprefix.eq_of_length rfl
  simp only [Epoch.fields, cons.injEq, and_true] at heq
  exact heq

theorem armed_load (hI : Armed s) (hc : Careful s .load) (hs : step clk s .load = some t) :
    Armed t := by
  obtain ⟨r, hr, rfl⟩ := step_load hs
  have hfits := hI.reader
  refine ⟨hI.reciprocal, hI.seq, hI.cyc, hI.epoch, hI.returned, ?_⟩
  cases hreader : s.reader with
  | idle =>
    rw [hreader, Reader.load] at hr
    cases hr
    rfl
  | high low =>
    rw [hreader] at hfits
    have hq : low + 2 ^ 32 * (s.globals.nsPerCycQ32 / 2 ^ 32) = s.globals.nsPerCycQ32 := by
      rw [show low = _ from hfits, wrap, Nat.mod_add_div]
    rw [hreader, Reader.load, hq, if_neg hI.reciprocal] at hr
    cases hr
    rfl
  | direct =>
    rw [hreader] at hfits
    exact hfits.elim
  | seq q =>
    rw [hreader] at hfits
    rw [hreader, Reader.load] at hr
    cases hr
    exact ⟨hfits, Pass.tracks_start hI.seq, fun _ => rfl⟩
  | pass q p base =>
    rw [hreader] at hfits
    obtain ⟨hq, htracks, hbase⟩ := hfits
    simp only [Careful, hreader] at hc
    simp only [hreader, Reader.load] at hr
    split at hr
    · rename_i lo hi cyc hwords
      split_ifs at hr with haccepts
      · cases hr
        have hsince := htracks.since_eq_zero hc haccepts
        obtain ⟨hlo, hhi, hcyc⟩ := epoch_of_words htracks hsince hwords
        subst hq hcyc
        rw [hbase hsince, hsince, hlo, hhi, wrap, Nat.mod_add_div]
        refine ⟨rfl, hI.cyc, le_rfl, hI.returned, ?_⟩
        rw [Nat.sub_self, Nat.zero_mul, Nat.add_zero, Nat.add_zero]
      · cases hr
        exact hq
    · cases hr
      exact ⟨hq, htracks.load, hbase⟩
  | counter q ns cyc base since =>
    rw [hreader, Reader.load] at hr
    cases hr

theorem armed_count (hI : Armed s) (hP : NonDecreasing s) (hc : Careful s (.count cycles))
    (hs : step clk s (.count cycles) = some t) : Armed t ∧ NonDecreasing t := by
  obtain ⟨hnext, v, hv, rfl⟩ := step_count hs
  have hfits := hI.reader
  cases hreader : s.reader with
  | idle | high low | seq q | pass q p base => simp [hreader, Reader.value] at hv
  | direct =>
    rw [hreader] at hfits
    exact hfits.elim
  | counter q ns cyc base since =>
    rw [hreader] at hfits
    obtain ⟨hq, hcyc, hbase, hreturned, hdrop⟩ := hfits
    simp only [Careful, hreader] at hc
    obtain ⟨hwidth, hproduct, hsum, hfew⟩ := hc
    have hepoch := hI.epoch
    have hdist : sub 32 (wrap 32 cycles) cyc = cycles - base := by
      have hsub := sub_wrap_wrap (a := base) hwidth
      rwa [Nat.add_sub_cancel' (by omega), ← hcyc] at hsub
    rw [hreader, Reader.value, hdist, scale_of_lt hproduct, wrap_of_lt hsum, some.injEq] at hv
    have hle : ∀ x ∈ s.returned, x ≤ v := by
      intro x hx
      have hmono : (s.next - base) * q / 2 ^ 32 ≤ (cycles - base) * q / 2 ^ 32 :=
        scaled_mono (by omega)
      have := hreturned x hx
      omega
    have hlast : v ≤ s.globals.ts.data.total +
        (cycles + 1 - s.epoch) * s.globals.nsPerCycQ32 / 2 ^ 32 := by
      have hstale := stale_le (e := cycles - s.epoch) hdrop hfew
      rwa [show s.epoch - base + (cycles - s.epoch) = cycles - base by omega, hv,
        show cycles - s.epoch + 1 = cycles + 1 - s.epoch by omega, hq] at hstale
    refine ⟨⟨hI.reciprocal, hI.seq, hI.cyc, ?_, ?_, trivial⟩, pairwise_cons.mpr ⟨hle, hP⟩⟩
    · exact hepoch.trans_le (hnext.trans (Nat.le_succ _))
    · exact forall_mem_cons.mpr ⟨hlast, fun x hx => (hle x hx).trans hlast⟩

theorem Reader.Fits.ticked {g g' : Globals} {epoch next cyc : ℕ} {returned : List ℕ} {r : Reader}
    (h : r.Fits g epoch next returned) (hq : g'.nsPerCycQ32 = g.nsPerCycQ32)
    (hts : g'.ts = g.ts.update
      ⟨g.ts.data.total + (cycles - epoch) * g.nsPerCycQ32 / 2 ^ 32, cyc⟩)
    (hepoch : epoch < next) (hnext : next ≤ cycles) :
    r.ticked.Fits g' cycles (cycles + 1) returned := by
  cases r with
  | idle => trivial
  | high low => exact h.trans (by rw [hq])
  | direct => exact h
  | seq q => exact h.trans hq.symm
  | pass q p base =>
    obtain ⟨rfl, htracks, -⟩ := h
    refine ⟨hq.symm, ?_, fun hsince => absurd hsince (Nat.succ_ne_zero _)⟩
    rw [hts]
    exact htracks.update _
  | counter q ns cyc base since =>
    obtain ⟨rfl, hcyc, hbase, hreturned, hdrop⟩ := h
    refine ⟨hq.symm, hcyc, by omega, fun x hx => ?_, ?_⟩
    · have hlater : (next - base) * g.nsPerCycQ32 / 2 ^ 32 ≤
          (cycles + 1 - base) * g.nsPerCycQ32 / 2 ^ 32 := scaled_mono (by omega)
      have := hreturned x hx
      omega
    · have hmore := scaled_lt_succ (d := cycles - epoch) (q := g.nsPerCycQ32)
      rw [hts, show cycles - base = epoch - base + (cycles - epoch) by omega, Nat.add_mul]
      dsimp only [Cell.update]
      omega

theorem armed_tick (hI : Armed s) (hc : Careful s (.tick cycles))
    (hs : step clk s (.tick cycles) = some t) : Armed t := by
  obtain ⟨hnext, hwidth, rfl⟩ := step_tick hs
  simp only [Careful, if_neg hI.reciprocal] at hc
  obtain ⟨hproduct, hsum⟩ := hc
  have hepoch := hI.epoch
  have hwidth := hwidth hI.reciprocal
  have hdist : sub 32 (wrap 32 cycles) s.globals.ts.data.cyc = cycles - s.epoch := by
    have hsub := sub_wrap_wrap (w := 32) (a := s.epoch) (n := cycles - s.epoch) (by omega)
    rwa [Nat.add_sub_cancel' (by omega), ← hI.cyc] at hsub
  have hmono : (s.next - s.epoch) * s.globals.nsPerCycQ32 / 2 ^ 32 ≤
      (cycles - s.epoch) * s.globals.nsPerCycQ32 / 2 ^ 32 := scaled_mono (by omega)
  simp only [oveFreertosTimeTick, if_neg hI.reciprocal, hdist, scale_of_lt hproduct,
    wrap_of_lt hsum]
  refine ⟨hI.reciprocal, wrap_lt _ _, rfl, Nat.lt_succ_self _, fun x hx => ?_, ?_⟩
  · have := hI.returned x hx
    dsimp only [Cell.update]
    omega
  exact hI.reader.ticked rfl rfl hepoch hnext

end

/-- Along every run of careful steps, the values of successive calls never decrease. -/
theorem time_monotone (clk : ℕ) (acts : List Act) (h : Each (step clk) Careful .init acts) :
    Always (step clk) NonDecreasing .init acts := by
  have hstart : (Unarmed clk .init ∨ Armed .init) ∧ NonDecreasing .init :=
    ⟨.inl ⟨rfl, Nat.two_pow_pos 32, .inl rfl, forall_mem_nil _⟩, Pairwise.nil⟩
  refine (always_of_each (P := fun s => (Unarmed clk s ∨ Armed s) ∧ NonDecreasing s) ?_ hstart
    h).mono fun s hs => hs.2
  rintro s a t ⟨hunarmed | harmed, hP⟩ hc hs
  · cases a with
    | tick cycles => exact ⟨unarmed_tick hunarmed hc hs, hP.tick hs⟩
    | load => exact ⟨.inl (unarmed_load hunarmed hs), hP.load hs⟩
    | count cycles =>
      obtain ⟨hunarmed, hP⟩ := unarmed_count hunarmed hP hc hs
      exact ⟨.inl hunarmed, hP⟩
  · cases a with
    | tick cycles => exact ⟨.inr (armed_tick harmed hc hs), hP.tick hs⟩
    | load => exact ⟨.inr (armed_load harmed hc hs), hP.load hs⟩
    | count cycles =>
      obtain ⟨harmed, hP⟩ := armed_count harmed hP hc hs
      exact ⟨.inr harmed, hP⟩

def getNs (ticks : List Act) (cycles : ℕ) : List Act :=
  replicate 7 .load ++ ticks ++ [.count cycles]

def preemptedOnce : List Act := .tick 0 :: getNs [] 1000 ++ getNs [.tick 216000] 216001

theorem time_monotone_preempted : Each (step 216000000) Careful .init preemptedOnce ∧
    Always (step 216000000) NonDecreasing .init preemptedOnce := by
  have hfew : 0 < 2 ^ 31 := by norm_num
  have hcareful : Each (step 216000000) Careful .init preemptedOnce := by
    refine .cons rfl ⟨rfl, rfl⟩ ?_
    refine .cons rfl trivial (.cons rfl trivial (.cons rfl trivial ?_))
    refine .cons rfl hfew (.cons rfl hfew (.cons rfl hfew (.cons rfl hfew ?_)))
    refine .cons rfl ⟨by decide, by decide, by decide, by decide⟩ ?_
    refine .cons rfl trivial (.cons rfl trivial (.cons rfl trivial ?_))
    refine .cons rfl hfew (.cons rfl hfew (.cons rfl hfew (.cons rfl hfew ?_)))
    refine .cons rfl ⟨by decide, by decide⟩ ?_
    exact .cons rfl ⟨by decide, by decide, by decide, by decide⟩ trivial
  exact ⟨hcareful, time_monotone 216000000 preemptedOnce hcareful⟩

def acrossFirstTick : List Act := [.load, .load, .count 216000, .tick 216001] ++ getNs [] 216100

def longAfterTick : List Act := .tick 0 :: getNs [] 927712935 ++ getNs [] 927712936

def preemptedLong : List Act :=
  .tick 0 :: getNs [.tick 216000, .tick 432000, .tick 648000, .tick 864000, .tick 1080000,
    .tick 1296000] 1296001 ++ getNs [] 1296002

theorem clock_goes_back :
    (∃ t, acrossFirstTick.foldlM (step 216000000) .init = some t ∧
      t.returned = [458, 1000000] ∧ ¬NonDecreasing t) ∧
    (∃ t, longAfterTick.foldlM (step 216000000) .init = some t ∧
      t.returned = [0, 4294967291] ∧ ¬NonDecreasing t) ∧
    ∃ t, preemptedLong.foldlM (step 216000000) .init = some t ∧
      t.returned = [6000003, 6000004] ∧ ¬NonDecreasing t := by
  have hless : ∀ (v w : ℕ) {s : System}, v < w → s.returned = [v, w] → ¬NonDecreasing s := by
    intro v w s hlt hreturned h
    rw [NonDecreasing, hreturned, pairwise_pair] at h
    omega
  exact ⟨⟨_, rfl, rfl, hless 458 1000000 (by norm_num) rfl⟩,
    ⟨_, rfl, rfl, hless 0 4294967291 (by norm_num) rfl⟩,
    _, rfl, rfl, hless 6000003 6000004 (by norm_num) rfl⟩

end Overtos.Time
