import Overtos.Time.Clock

/-! The 64-bit cycle counter for FreeRTOS' run-time statistics, one load at a time, preempted by the
tick. -/
namespace Overtos.Time.Runtime
open Word Seqlock Runs

/-- `base` records the cycles at the tick that the pass began after, `checked` those at the last
check. -/
inductive Reader where
  | seq
  | pass (p : Pass) (base : ℕ)
  | counter (total cyc base checked : ℕ)
  deriving DecidableEq, Repr

def Reader.load (g : Globals) (epoch now : ℕ) : Reader → Option Reader
  | .seq => some (.pass (.start g.runtime) epoch)
  | .pass p base =>
    match p.words with
    | [lo, hi, cyc] =>
      some (if p.accepts g.runtime then .counter (lo + 2 ^ 32 * hi) cyc base now else .seq)
    | _ => some (.pass (p.load Epoch.fields g.runtime) base)
  | .counter .. => none

def Reader.value (now : ℕ) : Reader → Option ℕ
  | .counter total cyc _ _ => some (wrap 64 (total + sub 32 now cyc))
  | _ => none

def Reader.ticked : Reader → Reader
  | .pass p base => .pass p.updated base
  | r => r

structure System where
  globals : Globals
  reader : Reader
  now : ℕ
  epoch : ℕ

def System.init (q : ℕ) (ts : Cell Epoch) : System := ⟨⟨q, ts, ⟨0, ⟨0, 0⟩⟩⟩, .seq, 0, 0⟩

inductive Act where
  | tick | load | count
  deriving DecidableEq, Repr

/-- At most `2 ^ 32 - 1` cycles pass between two ticks, and from the last check of a call to its
load. -/
def step (clk : ℕ) (s : System) (a : Act × ℕ) : Option System :=
  if s.now ≤ a.2 then
    match a.1 with
    | .tick =>
      if a.2 < s.epoch + 2 ^ 32 then
        some ⟨oveFreertosTimeTick clk s.globals (wrap 32 a.2), s.reader.ticked, a.2, a.2⟩
      else none
    | .load => (s.reader.load s.globals s.epoch a.2).map ({ s with reader := ·, now := a.2 })
    | .count =>
      match s.reader with
      | .counter _ _ _ checked =>
        if a.2 < checked + 2 ^ 32 then some { s with reader := .seq, now := a.2 } else none
      | _ => none
  else none

def Exact (s : System) (a : Act × ℕ) : Prop :=
  a.1 = .count → s.reader.value (wrap 32 a.2) = some (wrap 64 a.2)

/-- Fewer than `2 ^ 31` ticks come in a pass, and fewer than `2 ^ 32` cycles before its load of
`CYCCNT`. -/
def Careful (s : System) (a : Act × ℕ) : Prop :=
  match a.1, s.reader with
  | .load, .pass p _ => p.since < 2 ^ 31
  | .count, .counter _ _ base _ => a.2 < base + 2 ^ 32
  | _, _ => True

instance (s : System) (a : Act × ℕ) : Decidable (Exact s a) := inferInstanceAs (Decidable (_ → _))

instance (s : System) (a : Act × ℕ) : Decidable (Careful s a) := by
  unfold Careful
  split <;> infer_instance

def Reader.Fits (g : Globals) (epoch : ℕ) : Reader → Prop
  | .seq => True
  | .pass p base => p.Tracks Epoch.fields g.runtime ∧ (p.since = 0 → base = epoch)
  | .counter total cyc base _ => total = wrap 64 base ∧ cyc = wrap 32 base ∧ base ≤ epoch

structure Counts (s : System) : Prop where
  seq : s.globals.runtime.seq < 2 ^ 32
  data : s.globals.runtime.data = ⟨wrap 64 s.epoch, wrap 32 s.epoch⟩
  epoch_le : s.epoch ≤ s.now
  reader : s.reader.Fits s.globals s.epoch

theorem stitch {base cycles : ℕ} (hle : base ≤ cycles) (hlt : cycles < base + 2 ^ 32) :
    wrap 64 (wrap 64 base + sub 32 (wrap 32 cycles) (wrap 32 base)) = wrap 64 cycles := by
  have hsub := sub_wrap_wrap (w := 32) (a := base) (n := cycles - base) (by omega)
  rw [Nat.add_sub_cancel' hle] at hsub
  rw [hsub, wrap_wrap_add, Nat.add_sub_cancel' hle]

theorem tick_runtime (clk : ℕ) (g : Globals) (now : ℕ) : (oveFreertosTimeTick clk g now).runtime =
    g.runtime.update ⟨wrap 64 (g.runtime.data.total + sub 32 now g.runtime.data.cyc), now⟩ := by
  unfold oveFreertosTimeTick
  dsimp only
  split_ifs <;> rfl

section

variable {clk : ℕ} {s t : System} {a : Act × ℕ}

theorem load_fits {r : Reader} {now : ℕ} (hI : Counts s) (hc : Careful s (.load, now))
    (hr : s.reader.load s.globals s.epoch now = some r) : r.Fits s.globals s.epoch := by
  have hfits := hI.reader
  cases hreader : s.reader with
  | seq =>
    rw [hreader] at hr
    cases hr
    exact ⟨Pass.tracks_start hI.seq, fun _ => rfl⟩
  | counter =>
    rw [hreader] at hr
    cases hr
  | pass p base =>
    rw [hreader] at hfits
    obtain ⟨htracks, hbase⟩ := hfits
    simp only [Careful, hreader] at hc
    simp only [hreader, Reader.load] at hr
    split at hr
    · rename_i lo hi cyc hwords
      split_ifs at hr with haccepts
      · cases hr
        have hsince := htracks.since_eq_zero hc haccepts
        obtain ⟨hlo, hhi, hcyc⟩ := epoch_of_words htracks hsince hwords
        rw [hbase hsince, hlo, hhi, hcyc, wrap, Nat.mod_add_div, hI.data]
        exact ⟨rfl, rfl, le_rfl⟩
      · cases hr
        trivial
    · cases hr
      exact ⟨htracks.load, hbase⟩

theorem ticked_fits {cycles : ℕ} (hI : Counts s) (hle : s.epoch ≤ cycles) :
    s.reader.ticked.Fits (oveFreertosTimeTick clk s.globals (wrap 32 cycles)) cycles := by
  have hfits := hI.reader
  cases hreader : s.reader with
  | seq => trivial
  | counter =>
    rw [hreader] at hfits
    exact ⟨hfits.1, hfits.2.1, hfits.2.2.trans hle⟩
  | pass p base =>
    rw [hreader] at hfits
    refine ⟨?_, fun h => absurd h (Nat.succ_ne_zero _)⟩
    rw [tick_runtime]
    exact hfits.1.update _

theorem step_counts (hI : Counts s) (hs : step clk s a = some t) (hc : Careful s a) :
    Exact s a ∧ Counts t := by
  obtain ⟨a, cycles⟩ := a
  have hepoch := hI.epoch_le
  have hnow : s.now ≤ cycles := by
    by_contra hback
    rw [step, if_neg hback] at hs
    cases hs
  rw [step, if_pos hnow] at hs
  cases a with
  | tick =>
    dsimp only at hs
    split_ifs at hs with hlt
    cases hs
    refine ⟨by simp [Exact], ?_, ?_, le_rfl, ticked_fits hI (by omega)⟩
    · rw [tick_runtime]
      exact wrap_lt ..
    · rw [tick_runtime, hI.data]
      exact congrArg (Epoch.mk · _) (stitch (by omega) hlt)
  | load =>
    obtain ⟨r, hr, rfl⟩ := Option.map_eq_some_iff.mp hs
    have hfits := load_fits hI hc hr
    exact ⟨by simp [Exact], hI.seq, hI.data, hepoch.trans hnow, hfits⟩
  | count =>
    have hfits := hI.reader
    cases hreader : s.reader with
    | seq | pass =>
      rw [hreader] at hs
      cases hs
    | counter total cyc base checked =>
      rw [hreader] at hs hfits
      dsimp only at hs
      split_ifs at hs
      cases hs
      obtain ⟨htotal, hcyc, hbase⟩ := hfits
      simp only [Careful, hreader] at hc
      refine ⟨fun _ => ?_, hI.seq, hI.data, hepoch.trans hnow, trivial⟩
      rw [hreader, Reader.value, htotal, hcyc, stitch (by omega) hc]

end

/-- Every value is exact if the epoch is less than `2 ^ 32` cycles old at the load of `CYCCNT` and a
pass has fewer than `2 ^ 31` ticks. -/
theorem counter_exact {clk q : ℕ} {ts : Cell Epoch} {acts : List (Act × ℕ)}
    (h : Each (step clk) Careful (.init q ts) acts) : Each (step clk) Exact (.init q ts) acts := by
  have hinit : Counts (.init q ts) := ⟨Nat.two_pow_pos 32, rfl, le_rfl, trivial⟩
  exact h.imp (fun _ _ _ hI hs hc => step_counts hI hs hc) hinit

def preempted (loads tick count : ℕ) : List (Act × ℕ) :=
  List.replicate 5 (.load, loads) ++ [(.tick, tick), (.count, count)]

theorem preempted_exact :
    Each (step 216000000) Exact (.init 0 ⟨0, ⟨0, 0⟩⟩) (preempted 10 216000 216001) :=
  counter_exact (by decide)

theorem late_count_not_exact :
    ¬Each (step 216000000) Exact (.init 0 ⟨0, ⟨0, 0⟩⟩)
      (preempted (2 ^ 32 - 2) (2 ^ 32 - 1) (2 ^ 32)) := by
  decide

end Overtos.Time.Runtime
