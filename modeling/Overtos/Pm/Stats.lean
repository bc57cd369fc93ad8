import Overtos.Pm.Model

/-! What `ove_pm_get_stats` reports, compared with what an observer of the current state sees. -/
namespace Overtos.Pm
open Word Runs Function

structure Stats.Correct (r : Stats) (pm : Ctx) (now : ℕ) : Prop where
  total : r.totalRuntimeUs = now - pm.watch.base
  sum : r.totalRuntimeUs = PmState.sum r.timeInStateUs
  time : ∀ x, r.timeInStateUs x = pm.watch.timeIn pm.currentState x now
  count : PmState.sum r.transitionCount = 1 + pm.watch.changes

def ReportsCorrectly (s : System) (c : Call × Moments) : Prop :=
  c.1 = .getStats → ∃ r, ovePmGetStats s.pm c.2.now = .ok r ∧ r.Correct s.pm c.2.now

/-- No state was entered 2^32 times, and changes into each were booked as long before their stores
as those out of it. -/
def BookedFairly (s : System) (c : Call × Moments) : Prop :=
  c.1 = .getStats → ∀ x, s.pm.watch.early x = s.pm.watch.late x ∧ s.pm.watch.entered x < 2 ^ 32

theorem sum_update (f : PmState → ℕ) (x : PmState) (v : ℕ) :
    PmState.sum (update f x v) + f x = PmState.sum f + v := by
  cases x <;> simp [PmState.sum, update] <;> omega

theorem le_sum (f : PmState → ℕ) (x : PmState) : f x ≤ PmState.sum f := by
  cases x <;> simp only [PmState.sum] <;> omega

theorem sum_wrap_eq_iff (f : PmState → ℕ) :
    PmState.sum (fun x => wrap 32 (f x)) = PmState.sum f ↔ ∀ x, f x < 2 ^ 32 := by
  constructor
  · intro h x
    have hle (y : PmState) : wrap 32 (f y) ≤ f y := wrap_le 32 (f y)
    have heq : wrap 32 (f x) = f x := by
      have h0 := hle .active
      have h1 := hle .idle
      have h2 := hle .standby
      have h3 := hle .deepSleep
      simp only [PmState.sum] at h
      cases x <;> omega
    exact heq ▸ wrap_lt 32 (f x)
  · intro h
    simp only [PmState.sum, wrap_of_lt (h _)]

structure Tracked (pm : Ctx) (clock : ℕ) : Prop where
  initialized : pm.initialized = true
  entry_le : pm.stateEntryUs ≤ pm.watch.enteredAt
  entered_le : pm.watch.enteredAt ≤ clock
  sum : PmState.sum pm.timeInStateUs + pm.watch.base = pm.stateEntryUs
  time : ∀ x, pm.timeInStateUs x +
    (if pm.currentState = x then pm.watch.enteredAt - pm.stateEntryUs else 0) + pm.watch.late x =
      pm.watch.resided x + pm.watch.early x
  count : ∀ x, pm.transitionCount x = wrap 32 (pm.watch.entered x)
  entered : PmState.sum pm.watch.entered = 1 + pm.watch.changes

def Ctx.books (pm : Ctx) :
    Bool × PmState × ℕ × (PmState → ℕ) × (PmState → ℕ) × Watch :=
  (pm.initialized, pm.currentState, pm.stateEntryUs, pm.timeInStateUs, pm.transitionCount,
    pm.watch)

section

variable {pm pm' : Ctx} {clock clock' now moment : ℕ} {t : Moments}

theorem Tracked.keep (h : Tracked pm clock) (hle : clock ≤ clock') (hbooks : pm'.books = pm.books) :
    Tracked pm' clock' := by
  simp only [Ctx.books, Prod.mk.injEq] at hbooks
  obtain ⟨hi, hc, he, ht, hn, hw⟩ := hbooks
  refine ⟨hi.trans h.initialized, ?_, ?_, ?_, ?_, ?_, ?_⟩
  · rw [he, hw]
    exact h.entry_le
  · rw [hw]
    exact h.entered_le.trans hle
  · rw [ht, hw, he]
    exact h.sum
  · rw [ht, hw, he, hc]
    exact h.time
  · rw [hn, hw]
    exact h.count
  · rw [hw]
    exact h.entered

theorem Tracked.booked (h : Tracked pm clock) (hnow : clock ≤ now) (hlt : now < 2 ^ 64)
    (x : PmState) : wrap 64 (pm.timeInStateUs x + sub 64 now pm.stateEntryUs) =
      pm.timeInStateUs x + (now - pm.stateEntryUs) := by
  have hentry : pm.stateEntryUs ≤ now := (h.entry_le.trans h.entered_le).trans hnow
  have hx : pm.timeInStateUs x ≤ pm.stateEntryUs := by
    have hle := le_sum pm.timeInStateUs x
    have hsum := h.sum
    omega
  rw [sub_of_le hentry hlt]
  exact wrap_of_lt (by omega)

theorem Tracked.change (h : Tracked pm clock) (state : PmState) (hnow : clock ≤ now)
    (hmoment : now ≤ moment) (hlt : moment < 2 ^ 64) :
    Tracked ((updateStats pm pm.currentState now).enter state now moment) moment := by
  have hbooked := h.booked hnow (hmoment.trans_lt hlt) pm.currentState
  have hentry := h.entry_le
  have hentered := h.entered_le
  refine ⟨h.initialized, hmoment, le_rfl, ?_, ?_, ?_, ?_⟩
  · have hup := sum_update pm.timeInStateUs pm.currentState
      (pm.timeInStateUs pm.currentState + (now - pm.stateEntryUs))
    have hsum := h.sum
    simp only [Ctx.enter, updateStats, Watch.change, hbooked]
    omega
  · intro x
    have hx := h.time x
    simp only [Ctx.enter, updateStats, Watch.change, hbooked, update_apply]
    -- the state left, the state entered, both or neither
    by_cases hold : pm.currentState = x <;> by_cases hnew : state = x
    · subst hold hnew
      simp only [if_true] at hx ⊢
      omega
    · subst hold
      simp only [if_true, hnew, Ne.symm hnew, if_false] at hx ⊢
      omega
    · subst hnew
      simp only [if_true, hold, Ne.symm hold, if_false] at hx ⊢
      omega
    · simp only [hold, hnew, Ne.symm hold, Ne.symm hnew, if_false] at hx ⊢
      omega
  · intro x
    have hx := h.count x
    simp only [Ctx.enter, updateStats, Watch.change, update_apply]
    by_cases hnew : x = state
    · subst hnew
      rw [if_pos rfl, if_pos rfl, hx, wrap_wrap_add]
    · rw [if_neg hnew, if_neg hnew, hx]
  · have hup := sum_update pm.watch.entered state (pm.watch.entered state + 1)
    have hsum := h.entered
    simp only [Ctx.enter, updateStats, Watch.change]
    omega

theorem sleep_tracked (h : Tracked pm clock) (ht : t.Ordered clock) (recommended : PmState) :
    Tracked (sleep pm recommended t) t.restore := by
  obtain ⟨h0, h1, h2, h3, h4, h5⟩ := ht
  have hslept := h.change recommended (h0.trans h1) h2 (by omega)
  exact hslept.change .active h3 h4 h5

theorem tracked_start {pm : Ctx} (hi : pm.initialized = true) (ht : pm.timeInStateUs = fun _ => 0)
    (hn : pm.transitionCount = update (fun _ => 0) pm.currentState 1)
    (hw : pm.watch = .start pm.currentState pm.stateEntryUs) : Tracked pm pm.stateEntryUs := by
  refine ⟨hi, ?_, ?_, ?_, ?_, ?_, ?_⟩
  · rw [hw]
    exact le_rfl
  · rw [hw]
    exact le_rfl
  · rw [ht, hw]
    simp [PmState.sum, Watch.start]
  · intro x
    rw [ht, hw]
    simp [Watch.start]
  · intro x
    rw [hn, hw]
    simp only [Watch.start, update_apply]
    split_ifs <;> rfl
  · rw [hw]
    have hup := sum_update (fun _ => 0) pm.currentState 1
    simp only [PmState.sum, Watch.start] at hup ⊢
    omega

theorem ovePmResetStats_tracked (h : Tracked pm clock) : Tracked (ovePmResetStats pm now) now := by
  unfold ovePmResetStats
  rw [if_neg (by simp [h.initialized])]
  exact tracked_start h.initialized rfl rfl rfl

theorem start_tracked (cfg : Cfg) (now : ℕ) : Tracked (System.start cfg now).pm now :=
  tracked_start rfl rfl rfl rfl

theorem Effect.tracked {c : Call} (he : Effect pm t c pm') (h : Tracked pm clock)
    (ht : t.Ordered clock) : Tracked pm' t.restore := by
  have hsleep := sleep_tracked h ht
  obtain ⟨h0, h1, h2, h3, h4, h5⟩ := ht
  have hstay : Tracked pm t.restore := h.keep (by omega) rfl
  have hchange (state : PmState) := h.change state (h0.trans h1) h2 (by omega)
  cases he with
  | registers | activity | policy | attends | idles => exact hstay.keep le_rfl rfl
  | changes n state => exact (hchange state).keep (h3.trans h4) rfl
  | wakes => exact (hchange .active).keep (h3.trans h4) rfl
  | sleeps advice state => exact hsleep state
  | resets => exact (ovePmResetStats_tracked h).keep (by omega) rfl

theorem report_correct_iff (h : Tracked pm clock) (hnow : clock ≤ now) (hlt : now < 2 ^ 64) :
    (∃ r, ovePmGetStats pm now = .ok r ∧ r.Correct pm now) ↔
      ∀ x, pm.watch.early x = pm.watch.late x ∧ pm.watch.entered x < 2 ^ 32 := by
  have hentry := h.entry_le
  have hentered := h.entered_le
  have hsum := h.sum
  have hup := sum_update pm.timeInStateUs pm.currentState
    (pm.timeInStateUs pm.currentState + (now - pm.stateEntryUs))
  have htotal : PmState.sum (update pm.timeInStateUs pm.currentState
      (pm.timeInStateUs pm.currentState + (now - pm.stateEntryUs))) = now - pm.watch.base := by
    omega
  have hwrap : wrap 64 (now - pm.watch.base) = now - pm.watch.base := wrap_of_lt (by omega)
  have htime (x : PmState) : update pm.timeInStateUs pm.currentState
      (pm.timeInStateUs pm.currentState + (now - pm.stateEntryUs)) x + pm.watch.late x =
        pm.watch.timeIn pm.currentState x now + pm.watch.early x := by
    have hx := h.time x
    simp only [Watch.timeIn, update_apply]
    by_cases hold : pm.currentState = x
    · subst hold
      simp only [if_true] at hx ⊢
      omega
    · simp only [hold, Ne.symm hold, if_false] at hx ⊢
      omega
  have hcount : PmState.sum pm.transitionCount = 1 + pm.watch.changes ↔
      ∀ x, pm.watch.entered x < 2 ^ 32 := by
    rw [← h.entered, ← sum_wrap_eq_iff, funext h.count]
  unfold ovePmGetStats
  rw [if_neg (by simp [h.initialized])]
  dsimp only
  rw [h.booked hnow hlt, htotal, hwrap]
  constructor
  · rintro ⟨r, hr, hcorrect⟩ x
    cases hr
    have hx := htime x
    have htimeIn := hcorrect.time x
    dsimp only at htimeIn
    exact ⟨by omega, hcount.mp hcorrect.count x⟩
  · intro hfair
    refine ⟨_, rfl, rfl, htotal.symm, ?_, hcount.mpr fun x => (hfair x).2⟩
    intro x
    have hx := htime x
    have hearly := (hfair x).1
    dsimp only
    omega

end

section

variable {s u : System} {c : Call × Moments}

theorem step_tracked (h : Tracked s.pm s.clock) (hs : step s c = some u) :
    Tracked u.pm u.clock := by
  rw [step_eq] at hs
  split_ifs at hs with ht
  cases hs
  obtain ⟨pm, counts, he, hcall⟩ := call_effect h.initialized c.2 c.1
  have hbooks : (call s c.2 c.1).1.books = pm.books := by
    rw [hcall]
    rfl
  exact (he.tracked h ht).keep le_rfl hbooks

theorem reportsCorrectly_iff (h : Tracked s.pm s.clock) (hs : step s c = some u) :
    ReportsCorrectly s c ↔ BookedFairly s c := by
  unfold step at hs
  split_ifs at hs with ht
  unfold Moments.Ordered at ht
  exact imp_congr_right fun _ => report_correct_iff h (by omega) (by omega)

end

theorem stats_correct_iff (cfg : Cfg) (now : ℕ) (calls : List (Call × Moments)) :
    Each step ReportsCorrectly (.start cfg now) calls ↔
      Each step BookedFairly (.start cfg now) calls := by
  have hstep : ∀ s c u, Tracked s.pm s.clock → step s c = some u → Tracked u.pm u.clock :=
    fun _ _ _ => step_tracked
  exact each_congr hstep (fun _ _ _ => reportsCorrectly_iff) (start_tracked cfg now) calls

def Moments.still (now : ℕ) : Moments := ⟨now, now, now, now, now⟩

def toggles : ℕ → List (Call × Moments)
  | 0 => []
  | n + 1 => (.setState 1, .still 0) :: (.setState 0, .still 0) :: toggles n

theorem toggles_run {n : ℕ} {s : System} (hi : s.pm.initialized = true)
    (ha : s.pm.currentState = .active) (hc : s.clock = 0) :
    ∃ u, (toggles n).foldlM step s = some u ∧ u.clock = 0 ∧
      u.pm.watch.entered .idle = s.pm.watch.entered .idle + n := by
  induction n generalizing s with
  | zero => exact ⟨s, rfl, hc, rfl⟩
  | succ n ih =>
    let slept : Ctx := { (updateStats s.pm .active 0).enter .idle 0 0 with lastActivityUs := 0 }
    let back : Ctx := (updateStats slept .idle 0).enter .active 0 0
    have hsleep : step s (.setState 1, .still 0) = some ⟨slept, s.hw, 0⟩ := by
      simp [step, Moments.Ordered, Moments.still, hc, callPm, ovePmSetState, hi, ha, PmState.ofNat?,
        slept]
    have hback : step ⟨slept, s.hw, 0⟩ (.setState 0, .still 0) = some ⟨back, s.hw, 0⟩ := by
      simp [step, Moments.Ordered, Moments.still, callPm, ovePmSetState, hi, PmState.ofNat?, slept,
        back, Ctx.enter, updateStats]
    obtain ⟨u, hu, hclock, hcount⟩ := @ih ⟨back, s.hw, 0⟩ hi rfl rfl
    refine ⟨u, ?_, hclock, ?_⟩
    · simp only [toggles, List.foldlM_cons, hsleep, hback, Option.bind_eq_bind, Option.bind_some]
      exact hu
    · rw [hcount]
      simp [back, slept, Ctx.enter, updateStats, Watch.change]
      omega

def slowArming : List (Call × Moments) :=
  [(.wakeRegister (.timer 1), .still 0), (.idleProcess ⟨0, fun _ _ _ => 0⟩, ⟨0, 0, 5, 10, 10⟩)]

theorem report_wrong {cfg : Cfg} {calls : List (Call × Moments)} {s : System} {now : ℕ}
    {x : PmState}
    (hrun : calls.foldlM step (.start cfg 0) = some s) (hclock : s.clock ≤ now) (hlt : now < 2 ^ 64)
    (hx : ¬(s.pm.watch.early x = s.pm.watch.late x ∧ s.pm.watch.entered x < 2 ^ 32)) :
    ¬Each step ReportsCorrectly (.start cfg 0) (calls ++ [(.getStats, .still now)]) := by
  intro h
  have hinv : Always step (fun s => Tracked s.pm s.clock) (.start cfg 0) calls :=
    always_of_invariant (fun _ _ _ => step_tracked) (start_tracked cfg 0) calls
  have hordered : (Moments.still now).Ordered s.clock := by
    simp only [Moments.Ordered, Moments.still]
    omega
  have hreport := ((h.right hrun) _ (if_pos hordered)).1 rfl
  exact hx ((report_correct_iff (hinv.last hrun) hclock hlt).mp hreport x)

theorem stats_wrong :
    ¬Each step ReportsCorrectly (.start ⟨0, 0, 0⟩ 0)
        (toggles (2 ^ 32) ++ [(.getStats, .still 0)]) ∧
      ¬Each step ReportsCorrectly (.start ⟨0, 0, 0⟩ 0)
        (slowArming ++ [(.getStats, .still 10)]) := by
  constructor
  · obtain ⟨u, hu, hclock, hcount⟩ := @toggles_run (2 ^ 32) (.start ⟨0, 0, 0⟩ 0) rfl rfl rfl
    refine @report_wrong _ _ _ _ .idle hu hclock.le (by norm_num) fun h => ?_
    rw [hcount] at h
    omega
  · refine @report_wrong _ slowArming _ 10 .deepSleep rfl (by decide) (by norm_num) ?_
    decide

end Overtos.Pm
