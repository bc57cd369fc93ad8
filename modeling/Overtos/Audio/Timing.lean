import Overtos.Audio.Graph
import Overtos.Lib.Runs

/-! The cycle statistics that `ove_audio_graph_process` keeps with `CONFIG_OVE_TIME`. -/
namespace Overtos.Audio
open Word Runs List

structure Timed where
  graph : Graph
  mem : Mem
  maxProcessUs : ℕ
  avgProcessUs : ℕ

def updateTimes (cycles elapsed maxUs avgUs : ℕ) : Option (ℕ × ℕ) :=
  let maxUs := if maxUs < elapsed then elapsed else maxUs
  if cycles = 1 then some (maxUs, elapsed)
  else if cycles = 0 then none
  else some (maxUs, wrap 32 (avgUs + sub 32 elapsed avgUs / cycles))

def processTimed (s : Timed) (behave : Behave) (tStart tEnd : ℕ) : Option (Rc × Timed) :=
  if s.graph.state = .idle then some (.errNotSupported, s)
  else
    let r := oveAudioGraphProcess s.graph s.mem behave
    (updateTimes r.2.1.cycles (wrap 32 (sub 64 tEnd tStart)) s.maxProcessUs s.avgProcessUs).map
      fun times => (r.1, ⟨r.2.1, r.2.2.1, times.1, times.2⟩)

inductive TimedOp where
  | start (start : ℕ → Rc)
  | stop
  | process (behave : Behave) (tStart duration : ℕ)

/-- A timed graph with the durations of the cycles since the last start; `fault` is a division by
zero. -/
structure Observed where
  timed : Timed
  durations : List ℕ
  fault : Bool

def Observed.init (g : Graph) (m : Mem) : Observed := ⟨⟨{ g with cycles := 0 }, m, 0, 0⟩, [], false⟩

def observe (s : Observed) : TimedOp → Option Observed
  | .start start =>
    let r := oveAudioGraphStart s.timed.graph start
    if s.fault then none
    else
      some { s with
        timed := { s.timed with graph := r.2 }
        durations := if r.1 = .ok then [] else s.durations }
  | .stop =>
    if s.fault then none
    else some { s with timed := { s.timed with graph := (oveAudioGraphStop s.timed.graph).2 } }
  | .process behave tStart duration =>
    if s.fault = false ∧ duration < 2 ^ 32 ∧ tStart + duration < 2 ^ 64 then
      match processTimed s.timed behave tStart (tStart + duration) with
      | none => some { s with fault := true }
      | some (rc, timed) => some { s with
          timed
          durations := if rc = .ok then duration :: s.durations else s.durations }
    else none

structure Describes (s : Observed) : Prop where
  sound : s.fault = false
  cycles : s.durations.length < 2 ^ 32 → s.timed.graph.cycles = s.durations.length
  longest : s.timed.maxProcessUs = s.durations.foldr max 0
  average_ge : s.durations ≠ [] → ∃ x ∈ s.durations, x ≤ s.timed.avgProcessUs
  average_le : s.durations ≠ [] → ∃ x ∈ s.durations, s.timed.avgProcessUs ≤ x

def raised (s : Observed) (duration : ℕ) : ℕ :=
  s.timed.avgProcessUs +
    (2 ^ 32 + duration - s.timed.avgProcessUs) / (s.timed.graph.cycles + 1)

/-- No start after a cycle; fewer than 2^32 cycles; and no cycle shorter than the average, unless
the wrapped update stays by chance in between. -/
def Steady (s : Observed) : TimedOp → Prop
  | .start start => (oveAudioGraphStart s.timed.graph start).1 = .ok → s.timed.graph.cycles = 0
  | .stop => True
  | .process _ _ duration => s.timed.graph.state ≠ .idle →
    s.timed.graph.cycles + 1 ≠ 2 ^ 32 ∧
      (s.durations = [] ∨ s.timed.avgProcessUs ≤ duration ∨
        raised s duration ≤ s.timed.maxProcessUs ∨
        ∃ x ∈ s.durations, x + 2 ^ 32 ≤ raised s duration)

section

theorem le_foldr_max {x : ℕ} {l : List ℕ} (h : x ∈ l) : x ≤ l.foldr max 0 := by
  induction l with
  | nil => cases h
  | cons y l ih =>
    rcases mem_cons.mp h with rfl | h
    · exact le_max_left _ _
    · exact (ih h).trans (le_max_right _ _)

theorem foldr_max_mem {l : List ℕ} (h : l ≠ []) : l.foldr max 0 ∈ l := by
  induction l with
  | nil => exact absurd rfl h
  | cons y l ih =>
    rw [foldr_cons]
    by_cases hl : l = []
    · simp [hl]
    · rcases le_total y (l.foldr max 0) with hle | hle
      · rw [max_eq_right hle]
        exact mem_cons_of_mem _ (ih hl)
      · rw [max_eq_left hle]
        exact mem_cons_self

variable {l : List ℕ} {avg d c : ℕ}

theorem average_of_le (hle : avg ≤ d) (hd : d < 2 ^ 32) (hge : ∃ x ∈ l, x ≤ avg) :
    (∃ x ∈ d :: l, x ≤ wrap 32 (avg + sub 32 d avg / c)) ∧
      ∃ x ∈ d :: l, wrap 32 (avg + sub 32 d avg / c) ≤ x := by
  obtain ⟨x, hx, hxle⟩ := hge
  have hstep : (d - avg) / c ≤ d - avg := Nat.div_le_self _ _
  rw [sub_of_le hle hd]
  generalize (d - avg) / c = q at hstep ⊢
  rw [wrap_of_lt (by omega)]
  exact ⟨⟨x, mem_cons_of_mem _ hx, by omega⟩, d, mem_cons_self, by omega⟩

theorem average_of_lt (hlt : d < avg) (havg : avg < 2 ^ 32) (hc : 2 ≤ c)
    (hbound : ∀ x ∈ l, x < 2 ^ 32) (hge : ∃ x ∈ l, x ≤ avg) (hle : ∃ x ∈ l, avg ≤ x) :
    ((∃ x ∈ d :: l, x ≤ wrap 32 (avg + sub 32 d avg / c)) ∧
      ∃ x ∈ d :: l, wrap 32 (avg + sub 32 d avg / c) ≤ x) ↔
      avg + (2 ^ 32 + d - avg) / c ≤ l.foldr max 0 ∨
        ∃ x ∈ l, x + 2 ^ 32 ≤ avg + (2 ^ 32 + d - avg) / c := by
  have hsub : sub 32 d avg = 2 ^ 32 + d - avg := by
    rw [sub, wrap_of_lt (by omega)]
    omega
  have hhalf : (2 ^ 32 + d - avg) / c ≤ (2 ^ 32 + d - avg) / 2 := Nat.div_le_div_left hc (by omega)
  rw [hsub]
  generalize (2 ^ 32 + d - avg) / c = q at hhalf ⊢
  obtain ⟨x, hx, hxle⟩ := hge
  obtain ⟨y, hy, hyge⟩ := hle
  have hmax : l.foldr max 0 ∈ l := foldr_max_mem (ne_nil_of_mem hx)
  have hmaxlt := hbound _ hmax
  by_cases hsmall : avg + q < 2 ^ 32
  · rw [wrap_of_lt hsmall]
    constructor
    · rintro ⟨-, z, hz, hle⟩
      rcases mem_cons.mp hz with rfl | hz
      · omega
      · exact .inl (hle.trans (le_foldr_max hz))
    · rintro (hle | ⟨z, hz, hle⟩)
      · exact ⟨⟨x, mem_cons_of_mem _ hx, by omega⟩, _, mem_cons_of_mem _ hmax, hle⟩
      · omega
  · rw [wrap_of_ge (by omega) (by omega)]
    constructor
    · rintro ⟨⟨z, hz, hle⟩, -⟩
      rcases mem_cons.mp hz with rfl | hz
      · omega
      · exact .inr ⟨z, hz, by omega⟩
    · rintro (hle | ⟨z, hz, hle⟩)
      · omega
      · exact ⟨⟨z, mem_cons_of_mem _ hz, by omega⟩, y, mem_cons_of_mem _ hy, by omega⟩

end

structure Bounded (s : Observed) : Prop where
  counted : s.fault = false → s.durations.length ≤ s.timed.graph.cycles
  cycles : s.timed.graph.cycles < 2 ^ 32
  average : s.timed.avgProcessUs < 2 ^ 32
  durations : ∀ x ∈ s.durations, x < 2 ^ 32

section

variable {s t : Observed} {behave : Behave} {tStart d : ℕ}

theorem start_cycles (g : Graph) (start : ℕ → Rc) :
    (oveAudioGraphStart g start).2.cycles = g.cycles := by
  unfold oveAudioGraphStart
  split_ifs
  · rfl
  · split <;> rfl

theorem stop_cycles (g : Graph) : (oveAudioGraphStop g).2.cycles = g.cycles := by
  unfold oveAudioGraphStop
  split_ifs <;> rfl

theorem updateTimes_succ (cycles elapsed maxUs avgUs : ℕ) :
    updateTimes (cycles + 1) elapsed maxUs avgUs =
      some (max elapsed maxUs, if cycles = 0 then elapsed
        else wrap 32 (avgUs + sub 32 elapsed avgUs / (cycles + 1))) := by
  have hmax : (if maxUs < elapsed then elapsed else maxUs) = max elapsed maxUs := by
    split_ifs with h
    · rw [max_eq_left h.le]
    · rw [max_eq_right (by omega)]
  simp only [updateTimes, hmax, Nat.add_eq_right, if_neg (Nat.succ_ne_zero cycles)]
  split_ifs <;> rfl

theorem elapsed_eq (hd : d < 2 ^ 32) (hclock : tStart + d < 2 ^ 64) :
    wrap 32 (sub 64 (tStart + d) tStart) = d := by
  rw [sub_of_le (by omega) hclock, Nat.add_sub_cancel_left, wrap_of_lt hd]

theorem observe_process (hlt : s.timed.graph.cycles < 2 ^ 32)
    (hs : observe s (.process behave tStart d) = some t) :
    d < 2 ^ 32 ∧
      (s.timed.graph.state = .idle ∧ t = s ∨
        s.timed.graph.state ≠ .idle ∧
          (s.timed.graph.cycles + 1 = 2 ^ 32 ∧ t = { s with fault := true } ∨
            s.timed.graph.cycles + 1 < 2 ^ 32 ∧ t.fault = false ∧
              t.timed.graph.state = s.timed.graph.state ∧
              t.timed.graph.cycles = s.timed.graph.cycles + 1 ∧
              t.timed.maxProcessUs = max d s.timed.maxProcessUs ∧
              t.durations = d :: s.durations ∧
              t.timed.avgProcessUs = if s.timed.graph.cycles = 0 then d
                else wrap 32 (s.timed.avgProcessUs +
                  sub 32 d s.timed.avgProcessUs / (s.timed.graph.cycles + 1)))) := by
  simp only [observe, processTimed] at hs
  split_ifs at hs with hguard hidle
  · have hrc : ¬Rc.errNotSupported = .ok := by decide
    simp only [if_neg hrc, Option.some.injEq] at hs
    exact ⟨hguard.2.1, .inl ⟨hidle, hs.symm⟩⟩
  refine ⟨hguard.2.1, .inr ⟨hidle, ?_⟩⟩
  simp only [oveAudioGraphProcess, if_neg hidle, elapsed_eq hguard.2.1 hguard.2.2] at hs
  by_cases hfull : s.timed.graph.cycles + 1 = 2 ^ 32
  · have hzero : updateTimes (wrap 32 (2 ^ 32)) d s.timed.maxProcessUs s.timed.avgProcessUs =
        none := rfl
    rw [hfull, hzero] at hs
    exact .inl ⟨hfull, (Option.some.inj hs).symm⟩
  · have hmore : s.timed.graph.cycles + 1 < 2 ^ 32 := by omega
    rw [wrap_of_lt hmore, updateTimes_succ] at hs
    obtain rfl := (Option.some.inj hs).symm
    exact .inr ⟨hmore, hguard.1, rfl, rfl, rfl, rfl, rfl⟩

theorem start_describes {start : ℕ → Rc} (hI : Bounded s) (hP : Describes s)
    (hs : observe s (.start start) = some t) :
    Bounded t ∧ (Describes t ↔ Steady s (.start start)) := by
  have hcycles := start_cycles s.timed.graph start
  have hcounted := hI.counted hP.sound
  have hmax := hP.longest
  simp only [observe, hP.sound, Bool.false_eq_true, if_false, Option.some.injEq] at hs
  by_cases hok : (oveAudioGraphStart s.timed.graph start).1 = .ok
  · rw [if_pos hok] at hs
    subst hs
    simp only [Steady, hok, forall_const]
    refine ⟨⟨fun _ => Nat.zero_le _, hcycles ▸ hI.cycles, hI.average, by simp⟩, ?_⟩
    constructor
    · intro h
      exact hcycles.symm.trans (h.cycles (by simp))
    · intro hzero
      -- no cycle was counted, so there was none since the last start either
      have hempty : s.durations = [] := eq_nil_of_length_eq_zero (by omega)
      rw [hempty] at hmax
      exact ⟨rfl, fun _ => hcycles.trans hzero, hmax, fun h => absurd rfl h, fun h => absurd rfl h⟩
  · rw [if_neg hok] at hs
    subst hs
    simp only [Steady, hok, false_implies, iff_true]
    refine ⟨⟨fun _ => hcycles ▸ hcounted, hcycles ▸ hI.cycles, hI.average, hI.durations⟩, ?_⟩
    exact ⟨rfl, fun h => hcycles.trans (hP.cycles h), hmax, hP.average_ge, hP.average_le⟩

theorem stop_describes (hI : Bounded s) (hP : Describes s) (hs : observe s .stop = some t) :
    Bounded t ∧ (Describes t ↔ Steady s .stop) := by
  have hcycles := stop_cycles s.timed.graph
  have hcounted := hI.counted hP.sound
  simp only [observe, hP.sound, Bool.false_eq_true, if_false, Option.some.injEq] at hs
  subst hs
  refine ⟨⟨fun _ => hcycles ▸ hcounted, hcycles ▸ hI.cycles, hI.average, hI.durations⟩, ?_⟩
  exact iff_of_true ⟨rfl, fun h => hcycles.trans (hP.cycles h), hP.longest, hP.average_ge,
    hP.average_le⟩ trivial

theorem process_describes (hI : Bounded s) (hP : Describes s)
    (hs : observe s (.process behave tStart d) = some t) :
    Bounded t ∧ (Describes t ↔ Steady s (.process behave tStart d)) := by
  have hcounted := hI.counted hP.sound
  have hlen := hP.cycles (by have := hI.cycles; omega)
  obtain ⟨hd, ⟨hidle, rfl⟩ | ⟨hidle, ⟨hfull, rfl⟩ | ⟨hmore, hupdate⟩⟩⟩ :=
    observe_process hI.cycles hs
  · exact ⟨hI, iff_of_true hP fun h => absurd hidle h⟩
  · refine ⟨⟨fun h => absurd h (by simp), hI.cycles, hI.average, hI.durations⟩, ?_⟩
    exact iff_of_false (fun h => absurd h.sound (by simp)) fun h => (h hidle).1 hfull
  obtain ⟨hsound, -, hcycles, hmax, hdurations, havg⟩ := hupdate
  have hlength : t.durations.length = s.durations.length + 1 := by rw [hdurations, length_cons]
  have hbound : ∀ x ∈ t.durations, x < 2 ^ 32 := by
    rw [hdurations]
    exact forall_mem_cons.mpr ⟨hd, hI.durations⟩
  -- the count and the maximum are right in any case; what is left is the average
  have hdescribes : Describes t ↔ (∃ x ∈ d :: s.durations, x ≤ t.timed.avgProcessUs) ∧
      ∃ x ∈ d :: s.durations, t.timed.avgProcessUs ≤ x := by
    constructor
    · intro h
      have hne : t.durations ≠ [] := by simp [hdurations]
      exact hdurations ▸ ⟨h.average_ge hne, h.average_le hne⟩
    · intro h
      refine ⟨hsound, fun _ => by omega, ?_, fun _ => hdurations ▸ h.1, fun _ => hdurations ▸ h.2⟩
      rw [hmax, hP.longest, hdurations, foldr_cons]
  have hsteady : Steady s (.process behave tStart d) ↔
      s.durations = [] ∨ s.timed.avgProcessUs ≤ d ∨
        raised s d ≤ s.timed.maxProcessUs ∨ ∃ x ∈ s.durations, x + 2 ^ 32 ≤ raised s d := by
    simp only [Steady, ne_eq, hidle, not_false_eq_true, forall_const, hmore.ne, true_and]
  rw [hdescribes, hsteady, havg]
  by_cases hfirst : s.durations = []
  · have hzero : s.timed.graph.cycles = 0 := by rw [hlen, hfirst, length_nil]
    rw [if_pos hzero] at havg ⊢
    refine ⟨⟨fun _ => by omega, by omega, by omega, hbound⟩, iff_of_true ?_ (.inl hfirst)⟩
    exact ⟨⟨d, mem_cons_self, le_rfl⟩, d, mem_cons_self, le_rfl⟩
  have hpos := length_pos_of_ne_nil hfirst
  rw [if_neg (by omega)] at havg ⊢
  refine ⟨⟨fun _ => by omega, by omega, havg ▸ wrap_lt 32 _, hbound⟩, ?_⟩
  simp only [hfirst, false_or]
  rcases Nat.lt_or_ge d s.timed.avgProcessUs with hlt | hge
  · rw [average_of_lt hlt hI.average (by omega) hI.durations (hP.average_ge hfirst)
      (hP.average_le hfirst), hP.longest]
    simp only [raised, Nat.not_le.mpr hlt, false_or]
  · exact iff_of_true (average_of_le hge hd (hP.average_ge hfirst)) (.inl hge)

end

/-- The statistics describe the cycles since the last start exactly if every call is steady. -/
theorem timing_described_iff (g : Graph) (m : Mem) (ops : List TimedOp) :
    Always observe Describes (.init g m) ops ↔ Each observe Steady (.init g m) ops := by
  apply always_iff_each (I := Bounded)
  · intro s op t hI hP hs
    cases op with
    | start start => exact start_describes hI hP hs
    | stop => exact stop_describes hI hP hs
    | process behave tStart duration => exact process_describes hI hP hs
  · exact ⟨fun _ => le_rfl, Nat.two_pow_pos 32, Nat.two_pow_pos 32, forall_mem_nil _⟩
  · exact ⟨rfl, fun _ => rfl, rfl, fun h => absurd rfl h, fun h => absurd rfl h⟩

def playing : Graph :=
  ([.addNode .source, .addNode .sink, .connect 0 1,
    .build (fun _ _ _ => (.ok, ⟨48000, 1, .s16⟩)) 4096].foldl (graphStep .arm32)
    (.zero 64, fun _ => 0)).1

def cycleOf (duration : ℕ) : TimedOp := .process (fun _ _ _ => (.ok, fun _ => 0)) 0 duration

variable {s : Observed}

theorem observe_cycleOf_some {d : ℕ} (hsound : s.fault = false) (hd : d < 2 ^ 32) :
    ∃ t, observe s (cycleOf d) = some t := by
  have hguard : s.fault = false ∧ d < 2 ^ 32 ∧ 0 + d < 2 ^ 64 := ⟨hsound, hd, by omega⟩
  simp only [cycleOf, observe, if_pos hguard]
  split
  · exact ⟨_, rfl⟩
  · exact ⟨_, rfl⟩

theorem cycles_run (hsound : s.fault = false) (hstate : s.timed.graph.state ≠ .idle) (n : ℕ)
    (hroom : s.timed.graph.cycles + n < 2 ^ 32) :
    ∃ t, (replicate n (cycleOf 0)).foldlM observe s = some t ∧ t.fault = false ∧
      t.timed.graph.state ≠ .idle ∧ t.timed.graph.cycles = s.timed.graph.cycles + n := by
  induction n generalizing s with
  | zero => exact ⟨s, rfl, hsound, hstate, rfl⟩
  | succ n ih =>
    obtain ⟨t, ht⟩ := observe_cycleOf_some hsound (d := 0) (by norm_num)
    obtain ⟨-, ⟨hidle, -⟩ | ⟨-, ⟨hfull, -⟩ | ⟨-, htsound, htstate, htcycles, -⟩⟩⟩ :=
      observe_process (by omega) ht
    · exact absurd hidle hstate
    · omega
    obtain ⟨u, hu, husound, hustate, hucycles⟩ := ih htsound (htstate ▸ hstate) (by omega)
    refine ⟨u, ?_, husound, hustate, by omega⟩
    rw [replicate_succ, foldlM_cons, ht]
    exact hu

theorem timing_wrong :
    (∃ t, [cycleOf 10, cycleOf 5].foldlM observe (.init playing fun _ => 0) = some t ∧
      t.durations = [5, 10] ∧ t.timed.avgProcessUs = 2147483655 ∧ ¬Describes t) ∧
    (∃ t, [.start fun _ => .ok, cycleOf 10, .stop, .start fun _ => .ok].foldlM observe
        (.init playing fun _ => 0) = some t ∧
      t.durations = [] ∧ t.timed.graph.cycles = 1 ∧ t.timed.maxProcessUs = 10 ∧ ¬Describes t) ∧
    ∃ t, (replicate (2 ^ 32 - 1) (cycleOf 0) ++ [cycleOf 0]).foldlM observe
        (.init playing fun _ => 0) = some t ∧ t.fault = true ∧ ¬Describes t := by
  refine ⟨⟨_, rfl, rfl, rfl, fun h => ?_⟩, ⟨_, rfl, rfl, rfl, rfl, fun h => ?_⟩, ?_⟩
  · obtain ⟨x, hx, hle⟩ := h.average_le (cons_ne_nil _ _)
    have hx : x ∈ [5, 10] := hx
    have hle : 2147483655 ≤ x := hle
    rcases mem_pair.mp hx with rfl | rfl
    · omega
    · omega
  · exact absurd (h.cycles (by decide)) (by decide)
  · have hready : playing.state ≠ .idle := by decide +kernel
    obtain ⟨s, hs, hsound, hstate, hcycles⟩ :=
      cycles_run (s := .init playing fun _ => 0) rfl hready (2 ^ 32 - 1) (by decide)
    obtain ⟨t, ht⟩ := observe_cycleOf_some hsound (d := 0) (by norm_num)
    have hcycles : s.timed.graph.cycles = 2 ^ 32 - 1 := hcycles.trans (Nat.zero_add _)
    refine ⟨t, ?_, ?_⟩
    · rw [foldlM_append, hs]
      exact congrArg (· >>= pure) ht
    obtain ⟨-, ⟨hidle, -⟩ | ⟨-, ⟨-, rfl⟩ | ⟨hmore, -⟩⟩⟩ := observe_process (by omega) ht
    · exact absurd hidle hstate
    · exact ⟨rfl, fun h => absurd h.sound (by simp)⟩
    · omega

end Overtos.Audio
