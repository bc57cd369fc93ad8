import Overtos.Pm.Stats

/-! The power manager over long times: the 32-bit tick count, and the 32-bit idle time of the
policy. -/
namespace Overtos.Pm
open Word Runs

def Quiet (nextTimeoutMs : ℕ) (c : Call × Moments) : Prop :=
  match c.1 with
  | .idleProcess advice => advice.nextTimeoutMs = nextTimeoutMs
  | .activity | .setState _ | .setPolicy _ => False
  | _ => True

def asked (pm : Ctx) (t : Moments) : Call → Option ℕ
  | .idleProcess advice =>
    if pm.activityFlag then none else some (recommend pm advice t.first).toNat
  | _ => none

def recommended (s : System) : List (Call × Moments) → List ℕ
  | [] => []
  | c :: rest =>
    match step s c with
    | none => []
    | some u => (asked s.pm c.2 c.1).toList ++ recommended u rest

def Soon (s : System) (c : Call × Moments) : Prop :=
  ∀ advice, c.1 = .idleProcess advice → s.pm.activityFlag = false →
    c.2.first < s.pm.lastActivityUs + 2 ^ 32 * 1000

theorem defaultPolicy_mono (cfg : Cfg) {a b : ℕ} (h : a ≤ b) (nextTimeoutMs : ℕ) :
    defaultPolicy cfg a nextTimeoutMs ≤ defaultPolicy cfg b nextTimeoutMs := by
  unfold defaultPolicy
  split_ifs <;> first | omega | decide

theorem recommend_default {pm : Ctx} (hpolicy : pm.userPolicy = false) (advice : Advice) {now : ℕ}
    (hle : pm.lastActivityUs ≤ now) (hlt : now < pm.lastActivityUs + 2 ^ 32 * 1000)
    (hnow : now < 2 ^ 64) : (recommend pm advice now).toNat =
      defaultPolicy pm.cfg ((now - pm.lastActivityUs) / 1000) advice.nextTimeoutMs := by
  have hidle : wrap 32 (sub 64 now pm.lastActivityUs / 1000) =
      (now - pm.lastActivityUs) / 1000 := by
    rw [sub_of_le hle hnow, wrap_of_lt (by omega)]
  simp only [recommend, hidle, hpolicy, Bool.false_eq_true, if_false]
  unfold defaultPolicy
  split_ifs <;> rfl

structure Settled (s : System) : Prop where
  initialized : s.pm.initialized = true
  policy : s.pm.userPolicy = false
  last_le : s.pm.lastActivityUs ≤ s.clock

def depth (s : System) (nextTimeoutMs : ℕ) : ℕ :=
  defaultPolicy s.pm.cfg ((s.clock - s.pm.lastActivityUs) / 1000) nextTimeoutMs

def Ctx.attention (pm : Ctx) : Bool × Bool × Cfg × Bool × ℕ :=
  (pm.initialized, pm.userPolicy, pm.cfg, pm.activityFlag, pm.lastActivityUs)

section

variable {s u : System} {c : Call × Moments} {n : ℕ}

theorem Effect.attention {pm pm' : Ctx} {t : Moments} {c : Call} (he : Effect pm t c pm')
    (hq : Quiet n (c, t)) : pm'.attention = pm.attention ∨
      pm.activityFlag = true ∧
        pm'.attention = (pm.initialized, pm.userPolicy, pm.cfg, false, t.first) := by
  cases he with
  | registers | idles | sleeps => exact .inl rfl
  | attends advice h | wakes advice h => exact .inr ⟨h, rfl⟩
  | activity | policy | changes => cases hq
  | resets =>
    rw [ovePmResetStats]
    split_ifs <;> exact .inl rfl

theorem quiet_step (hi : s.pm.initialized = true) (hq : Quiet n c) (hs : step s c = some u) :
    c.2.Ordered s.clock ∧ u.clock = c.2.restore ∧ (u.pm.attention = s.pm.attention ∨
      s.pm.activityFlag = true ∧
        u.pm.attention = (s.pm.initialized, s.pm.userPolicy, s.pm.cfg, false, c.2.first)) := by
  rw [step_eq] at hs
  split_ifs at hs with ht
  cases hs
  obtain ⟨pm, counts, he, hcall⟩ := call_effect hi c.2 c.1
  have hattention : (call s c.2 c.1).1.attention = pm.attention := by
    rw [hcall]
    rfl
  refine ⟨ht, rfl, ?_⟩
  dsimp only
  rw [hattention]
  exact he.attention hq

theorem asked_eq (h : Settled s) (hq : Quiet n c) (hsoon : Soon s c) (ht : c.2.Ordered s.clock)
    {r : ℕ} (hr : asked s.pm c.2 c.1 = some r) : s.pm.activityFlag = false ∧
      r = defaultPolicy s.pm.cfg ((c.2.first - s.pm.lastActivityUs) / 1000) n := by
  obtain ⟨call, t⟩ := c
  have hlast := h.last_le
  unfold Moments.Ordered at ht
  cases call with
  | idleProcess advice =>
    rw [asked] at hr
    split_ifs at hr with hflag
    cases hr
    have hflag : s.pm.activityFlag = false := by simpa using hflag
    have hlt := hsoon advice rfl hflag
    dsimp only at ht hlt
    refine ⟨hflag, ?_⟩
    rw [recommend_default h.policy advice (by omega) hlt (by omega)]
    exact congrArg _ hq
  | _ => cases hr

theorem recommended_sorted {calls : List (Call × Moments)} (h : Settled s)
    (hq : ∀ c ∈ calls, Quiet n c) (hsoon : Each step Soon s calls) :
    (recommended s calls).Pairwise (· ≤ ·) ∧
      (s.pm.activityFlag = false → ∀ r ∈ recommended s calls, depth s n ≤ r) := by
  induction calls generalizing s with
  | nil => simp [recommended]
  | cons c rest ih =>
    obtain ⟨hc, hrest⟩ := List.forall_mem_cons.mp hq
    rw [recommended]
    cases hs : step s c with
    | none => simp
    | some u =>
      obtain ⟨ht, hclock, hattention⟩ := quiet_step h.initialized hc hs
      obtain ⟨hsoonc, hsoonrest⟩ := hsoon u hs
      have hasked (r : ℕ) (hr : asked s.pm c.2 c.1 = some r) := asked_eq h hc hsoonc ht hr
      have hlast := h.last_le
      unfold Moments.Ordered at ht
      rcases hattention with hsame | ⟨hflag, hnew⟩
      · -- the idle time goes on
        obtain ⟨hinit, hpolicy, hcfg, hflag, hactivity⟩ := by
          simpa only [Ctx.attention, Prod.mk.injEq] using hsame
        obtain ⟨hsorted, hdeep⟩ := ih (s := u)
          ⟨hinit.trans h.initialized, hpolicy.trans h.policy, by omega⟩ hrest hsoonrest
        rw [hflag, depth, hcfg, hactivity, hclock] at hdeep
        constructor
        · refine List.pairwise_append.mpr ⟨?_, hsorted, ?_⟩
          · cases asked s.pm c.2 c.1 <;> simp
          · intro r hr later hlater
            obtain ⟨hf, rfl⟩ := hasked r (Option.mem_toList.mp hr)
            exact (defaultPolicy_mono _ (by omega) n).trans (hdeep hf later hlater)
        · intro hf r hr
          rcases List.mem_append.mp hr with hr | hr
          · obtain ⟨-, rfl⟩ := hasked r (Option.mem_toList.mp hr)
            exact defaultPolicy_mono _ (by omega) n
          · exact (defaultPolicy_mono _ (by omega) n).trans (hdeep hf r hr)
      · -- the first idle call of the stretch: it only takes note of the activity before
        obtain ⟨hinit, hpolicy, -, -, hactivity⟩ := by
          simpa only [Ctx.attention, Prod.mk.injEq] using hnew
        obtain ⟨hsorted, -⟩ := ih (s := u)
          ⟨hinit.trans h.initialized, hpolicy.trans h.policy, by omega⟩ hrest hsoonrest
        have hnone : asked s.pm c.2 c.1 = none := by
          rw [Option.eq_none_iff_forall_not_mem]
          intro r hr
          rw [(hasked r hr).1] at hflag
          cases hflag
        rw [hnone]
        refine ⟨hsorted, fun hf => ?_⟩
        rw [hf] at hflag
        cases hflag

theorem Effect.last_le {pm pm' : Ctx} {t : Moments} {c : Call} {clock : ℕ}
    (he : Effect pm t c pm') (ht : t.Ordered clock) (h : pm.lastActivityUs ≤ clock) :
    pm'.lastActivityUs ≤ t.restore := by
  unfold Moments.Ordered at ht
  have hstay : pm.lastActivityUs ≤ t.restore := by omega
  cases he with
  | registers | activity | policy | idles | sleeps => exact hstay
  | attends | wakes =>
    dsimp only
    omega
  | changes n state last hlast =>
    dsimp only
    omega
  | resets =>
    rw [ovePmResetStats]
    split_ifs <;> exact hstay

theorem last_always (cfg : Cfg) (now : ℕ) (calls : List (Call × Moments)) :
    Always step (fun s => s.pm.initialized = true ∧ s.pm.lastActivityUs ≤ s.clock)
      (.start cfg now) calls := by
  have hinv : Always step (fun s => Tracked s.pm s.clock ∧ s.pm.lastActivityUs ≤ s.clock)
      (.start cfg now) calls := by
    refine always_of_invariant (fun s c u h hs => ⟨step_tracked h.1 hs, ?_⟩)
      ⟨start_tracked cfg now, le_rfl⟩ calls
    rw [step_eq] at hs
    split_ifs at hs with ht
    cases hs
    obtain ⟨pm, counts, he, hcall⟩ := call_effect h.1.initialized c.2 c.1
    rw [hcall]
    exact he.last_le ht h.2
  exact hinv.mono fun s h => ⟨h.1.initialized, h.2⟩

end

/-- In a quiet stretch below `2 ^ 32` ms the default policy never recommends a shallower state than
before. -/
theorem stretch_deepens {cfg : Cfg} {now n : ℕ} {before stretch : List (Call × Moments)}
    {s : System} (hrun : before.foldlM step (.start cfg now) = some s) (hpolicy : s.pm.userPolicy = false)
    (hquiet : ∀ c ∈ stretch, Quiet n c) (hsoon : Each step Soon s stretch) :
    (recommended s stretch).Pairwise (· ≤ ·) := by
  obtain ⟨hinit, hlast⟩ := (last_always cfg now before).last hrun
  exact (recommended_sorted ⟨hinit, hpolicy, hlast⟩ hquiet hsoon).1

def idleAt (now : ℕ) : Call × Moments := (.idleProcess ⟨0, fun _ _ _ => 0⟩, .still now)

theorem ten_seconds_deepen :
    recommended (.start ⟨1000, 0, 5000⟩ 0) [idleAt 2000000, idleAt 10000000] = [2, 3] ∧
      [2, 3].Pairwise (· ≤ ·) := by
  refine ⟨by decide, ?_⟩
  have h := @stretch_deepens ⟨1000, 0, 5000⟩ 0 0 [] [idleAt 2000000, idleAt 10000000]
    (.start ⟨1000, 0, 5000⟩ 0) rfl rfl (by simp [Quiet, idleAt]) ?_
  · exact h
  · intro u hu
    cases hu
    refine ⟨fun _ _ _ => by decide, fun v hv => ?_⟩
    cases hv
    exact ⟨fun _ _ _ => by decide, trivial⟩

theorem idle_time_wraps :
    recommended (.start ⟨1000, 0, 5000⟩ 0) [idleAt 10000000, idleAt (2 ^ 32 * 1000)] = [3, 0] ∧
      ∀ c ∈ [idleAt 10000000, idleAt (2 ^ 32 * 1000)], Quiet 0 c := by
  exact ⟨by decide, by simp [Quiet, idleAt]⟩

def oveTimeGetUs (rate ticks : ℕ) : ℕ := wrap 32 ticks * (1000000 / rate)

def Moments.read (rate : ℕ) (t : Moments) : Moments :=
  ⟨oveTimeGetUs rate t.first, oveTimeGetUs rate t.now, oveTimeGetUs rate t.store,
    oveTimeGetUs rate t.woke, oveTimeGetUs rate t.restore⟩

structure Uptime where
  sys : System
  base : ℕ
  entry : ℕ
  clock : ℕ
  seen : PmState → ℕ

def Uptime.start (rate : ℕ) (cfg : Cfg) (now : ℕ) : Uptime :=
  ⟨.start cfg (oveTimeGetUs rate now), now, now, now, fun _ => 0⟩

def bookedAt (before after : Watch) (t : Moments) (entry : ℕ) : ℕ :=
  if after.changes = before.changes then entry
  else if after.changes = before.changes + 1 then t.now
  else t.woke

def Uptime.step (rate : ℕ) (s : Uptime) (c : Call × Moments) : Option Uptime :=
  let t := c.2
  let r := call s.sys (t.read rate) c.1
  let sys : System := ⟨r.1, r.2, oveTimeGetUs rate t.restore⟩
  if s.clock ≤ t.first ∧ t.first ≤ t.now ∧ t.now ≤ t.store ∧ t.store ≤ t.woke ∧
      t.woke ≤ t.restore then
    match c.1 with
    | .resetStats => some ⟨sys, t.now, t.now, t.restore, fun _ => 0⟩
    | .getStats =>
      let report := ovePmGetStats s.sys.pm (oveTimeGetUs rate t.now)
      some ⟨sys, s.base, s.entry, t.restore, report.toOption.elim s.seen (·.timeInStateUs)⟩
    | _ => some ⟨sys, s.base, bookedAt s.sys.pm.watch r.1.watch t s.entry, t.restore, s.seen⟩
  else none

def ReportsUptime (rate : ℕ) (s : Uptime) (c : Call × Moments) : Prop :=
  c.1 = .getStats → ∃ r, ovePmGetStats s.sys.pm (oveTimeGetUs rate c.2.now) = .ok r ∧
    r.totalRuntimeUs = (c.2.now - s.base) * (1000000 / rate) ∧
    r.totalRuntimeUs = PmState.sum r.timeInStateUs ∧
    PmState.sum s.seen ≤ r.totalRuntimeUs ∧ ∀ x, s.seen x ≤ r.timeInStateUs x

/-- What the call books or reports falls into the same `2 ^ 32` ticks as what was booked before. -/
def SamePeriod (rate : ℕ) (s : Uptime) (c : Call × Moments) : Prop :=
  match c.1 with
  | .resetStats => True
  | .getStats => c.2.now / 2 ^ 32 = s.entry / 2 ^ 32
  | kind =>
    bookedAt s.sys.pm.watch (call s.sys (c.2.read rate) kind).1.watch c.2 s.entry / 2 ^ 32 =
      s.entry / 2 ^ 32

structure Kept (rate : ℕ) (pm : Ctx) (base entry clock : ℕ) (seen : PmState → ℕ) : Prop where
  initialized : pm.initialized = true
  base_le : base ≤ entry
  entry_le : entry ≤ clock
  period : base / 2 ^ 32 = entry / 2 ^ 32
  reading : pm.stateEntryUs = oveTimeGetUs rate entry
  sum : PmState.sum pm.timeInStateUs = (entry - base) * (1000000 / rate)
  seen_le : ∀ x, seen x ≤ pm.timeInStateUs x +
    if pm.currentState = x then (clock - entry) * (1000000 / rate) else 0

theorem oveTimeGetUs_sub_iff (rate : ℕ) {a b : ℕ} (h : a ≤ b) :
    (oveTimeGetUs rate b : ℤ) - oveTimeGetUs rate a = ((b - a) * (1000000 / rate) : ℕ) ↔
      1000000 / rate = 0 ∨ a / 2 ^ 32 = b / 2 ^ 32 := by
  simp only [oveTimeGetUs, wrap]
  generalize 1000000 / rate = u
  push_cast [h]
  rw [← sub_mul, mul_eq_mul_right_iff, or_comm, Nat.cast_eq_zero]
  refine or_congr_right ?_
  omega

section

variable {rate base entry clock now moment : ℕ} {pm pm' : Ctx} {seen : PmState → ℕ}

theorem Kept.keep (h : Kept rate pm base entry clock seen) {clock' : ℕ} (hle : clock ≤ clock')
    (hbooks : pm'.books = pm.books) : Kept rate pm' base entry clock' seen := by
  simp only [Ctx.books, Prod.mk.injEq] at hbooks
  obtain ⟨hi, hc, he, ht, -, -⟩ := hbooks
  refine ⟨hi.trans h.initialized, h.base_le, h.entry_le.trans hle, h.period, he.trans h.reading,
    ?_, fun x => (h.seen_le x).trans ?_⟩
  · rw [ht]
    exact h.sum
  · rw [ht, hc]
    split_ifs
    · gcongr
    · exact le_rfl

theorem Kept.booked (h : Kept rate pm base entry clock seen) (hnow : clock ≤ now)
    (hperiod : now / 2 ^ 32 = entry / 2 ^ 32) (x : PmState) :
    wrap 64 (pm.timeInStateUs x + sub 64 (oveTimeGetUs rate now) pm.stateEntryUs) =
      pm.timeInStateUs x + (now - entry) * (1000000 / rate) ∧
    (now - base) * (1000000 / rate) =
      PmState.sum pm.timeInStateUs + (now - entry) * (1000000 / rate) ∧
    (now - base) * (1000000 / rate) < 2 ^ 64 := by
  have hentry := h.entry_le.trans hnow
  have hbase := h.base_le
  have hsame := h.period
  have hdiff := (oveTimeGetUs_sub_iff rate hentry).mpr (Or.inr hperiod.symm)
  have hle : pm.timeInStateUs x ≤ (entry - base) * (1000000 / rate) := h.sum ▸ le_sum _ x
  have hu : 1000000 / rate ≤ 1000000 := Nat.div_le_self _ _
  have hsplit : (now - base) * (1000000 / rate) =
      (entry - base) * (1000000 / rate) + (now - entry) * (1000000 / rate) := by
    rw [← Nat.add_mul]
    congr 1
    omega
  have hlt : (now - base) * (1000000 / rate) < 2 ^ 64 := by
    calc (now - base) * (1000000 / rate) ≤ 2 ^ 32 * 1000000 := Nat.mul_le_mul (by omega) hu
      _ < 2 ^ 64 := by norm_num
  have hread : oveTimeGetUs rate now < 2 ^ 64 := by
    calc oveTimeGetUs rate now ≤ 2 ^ 32 * 1000000 := Nat.mul_le_mul (wrap_lt 32 now).le hu
      _ < 2 ^ 64 := by norm_num
  rw [h.reading, sub_of_le (by omega) hread, wrap_of_lt (by omega), h.sum]
  omega

theorem Kept.change (h : Kept rate pm base entry clock seen) (hnow : clock ≤ now)
    (hperiod : now / 2 ^ 32 = entry / 2 ^ 32) (state : PmState) (stamp moment : ℕ) :
    Kept rate ((updateStats pm pm.currentState (oveTimeGetUs rate now)).enter state stamp moment)
      base now now seen := by
  obtain ⟨hbooked, hsplit, -⟩ := h.booked hnow hperiod pm.currentState
  refine ⟨h.initialized, (h.base_le.trans h.entry_le).trans hnow, le_rfl,
    h.period.trans hperiod.symm, rfl, ?_, fun x => ?_⟩
  · have hup := sum_update pm.timeInStateUs pm.currentState
      (pm.timeInStateUs pm.currentState + (now - entry) * (1000000 / rate))
    simp only [Ctx.enter, updateStats, hbooked]
    omega
  · have hseen := h.seen_le x
    have hmono : (clock - entry) * (1000000 / rate) ≤ (now - entry) * (1000000 / rate) := by gcongr
    simp only [Ctx.enter, updateStats, hbooked, Function.update_apply, Nat.sub_self, Nat.zero_mul,
      ite_self, Nat.add_zero]
    by_cases hx : pm.currentState = x
    · subst hx
      simp only [if_true] at hseen ⊢
      omega
    · simp only [hx, Ne.symm hx, if_false] at hseen ⊢
      exact hseen

theorem Kept.effect {t : Moments} {c : Call} {booked : ℕ} (h : Kept rate pm base entry clock seen)
    (ht : clock ≤ t.first ∧ t.first ≤ t.now ∧ t.now ≤ t.store ∧ t.store ≤ t.woke ∧
      t.woke ≤ t.restore)
    (he : Effect pm (t.read rate) c pm') (hc : c ≠ .resetStats)
    (hbooked : booked = bookedAt pm.watch pm'.watch t entry)
    (hperiod : booked / 2 ^ 32 = entry / 2 ^ 32) : Kept rate pm' base booked t.restore seen := by
  have hentry := h.entry_le
  cases he with
  | resets => exact absurd rfl hc
  | registers | activity | policy | attends | idles =>
    cases hbooked.trans (if_pos rfl)
    exact h.keep (by omega) rfl
  | changes | wakes =>
    cases hbooked.trans ((if_neg (Nat.succ_ne_self _)).trans (if_pos rfl))
    exact (h.change (by omega) hperiod _ _ _).keep (by omega) rfl
  | sleeps advice state =>
    have htwo : ¬pm.watch.changes + 1 + 1 = pm.watch.changes := by omega
    cases hbooked.trans ((if_neg htwo).trans (if_neg (Nat.succ_ne_self _)))
    have hnow : t.now / 2 ^ 32 = entry / 2 ^ 32 := by omega
    have hslept := h.change (by omega) hnow state (oveTimeGetUs rate t.now)
      (oveTimeGetUs rate t.store)
    exact (hslept.change (by omega) (by omega) .active _ _).keep (by omega) rfl

theorem Kept.report (h : Kept rate pm base entry clock seen) (hnow : clock ≤ now)
    (hperiod : now / 2 ^ 32 = entry / 2 ^ 32) :
    ∃ r, ovePmGetStats pm (oveTimeGetUs rate now) = .ok r ∧
      r.totalRuntimeUs = (now - base) * (1000000 / rate) ∧
      r.totalRuntimeUs = PmState.sum r.timeInStateUs ∧ (∀ x, seen x ≤ r.timeInStateUs x) ∧
      Kept rate pm base entry now r.timeInStateUs := by
  obtain ⟨hbooked, hsplit, hlt⟩ := h.booked hnow hperiod pm.currentState
  have hup := sum_update pm.timeInStateUs pm.currentState
    (pm.timeInStateUs pm.currentState + (now - entry) * (1000000 / rate))
  have hsum : PmState.sum (Function.update pm.timeInStateUs pm.currentState
      (pm.timeInStateUs pm.currentState + (now - entry) * (1000000 / rate))) =
        (now - base) * (1000000 / rate) := by
    omega
  have htime (x : PmState) : Function.update pm.timeInStateUs pm.currentState
      (pm.timeInStateUs pm.currentState + (now - entry) * (1000000 / rate)) x =
        pm.timeInStateUs x +
          if pm.currentState = x then (now - entry) * (1000000 / rate) else 0 := by
    by_cases hx : pm.currentState = x
    · subst hx
      simp
    · simp [hx, Ne.symm hx]
  have hkeep : Kept rate pm base entry now seen := h.keep hnow rfl
  unfold ovePmGetStats
  rw [if_neg (by simp [h.initialized])]
  dsimp only
  rw [hbooked, hsum, wrap_of_lt hlt]
  refine ⟨_, rfl, rfl, hsum.symm, fun x => ?_, { hkeep with seen_le := fun x => ?_ }⟩
  · dsimp only
    rw [htime]
    exact hkeep.seen_le x
  · dsimp only
    rw [htime]

end

theorem kept_reset {rate now : ℕ} {pm : Ctx} (hi : pm.initialized = true) :
    Kept rate (ovePmResetStats pm (oveTimeGetUs rate now)) now now now fun _ => 0 := by
  rw [ovePmResetStats, if_neg (by simp [hi])]
  refine ⟨hi, le_rfl, le_rfl, rfl, rfl, ?_, fun x => Nat.zero_le _⟩
  rw [Nat.sub_self, Nat.zero_mul]
  rfl

theorem uptime_step {rate : ℕ} {s u : Uptime} {c : Call × Moments}
    (h : Kept rate s.sys.pm s.base s.entry s.clock s.seen) (hs : s.step rate c = some u)
    (hperiod : SamePeriod rate s c) :
    ReportsUptime rate s c ∧ Kept rate u.sys.pm u.base u.entry u.clock u.seen := by
  obtain ⟨c, t⟩ := c
  obtain ⟨pm, counts, he, hcall⟩ := call_effect h.initialized (t.read rate) c
  have hbooks : (call s.sys (t.read rate) c).1.books = pm.books := by
    rw [hcall]
    rfl
  have hbooked : bookedAt s.sys.pm.watch (call s.sys (t.read rate) c).1.watch t s.entry =
      bookedAt s.sys.pm.watch pm.watch t s.entry := by
    rw [hcall]
  rw [Uptime.step] at hs
  split_ifs at hs with ht
  dsimp only at ht hs
  have hnow : s.clock ≤ t.now := by omega
  have hend : t.now ≤ t.restore := by omega
  cases c with
  | resetStats =>
    cases hs
    exact ⟨by simp [ReportsUptime], (kept_reset h.initialized).keep hend rfl⟩
  | getStats =>
    obtain ⟨r, hr, htotal, hsum, hle, hkept⟩ := h.report hnow hperiod
    rw [hr] at hs
    cases hs
    refine ⟨fun _ => ⟨r, hr, htotal, hsum, ?_, hle⟩, hkept.keep hend rfl⟩
    rw [hsum]
    exact Nat.add_le_add (Nat.add_le_add (Nat.add_le_add (hle _) (hle _)) (hle _)) (hle _)
  | _ =>
    cases hs
    exact ⟨by simp [ReportsUptime], (h.effect ht he (by simp) hbooked hperiod).keep le_rfl hbooks⟩

/-- The difference of two readings is the time between them exactly within `2 ^ 32` ticks, and so
the statistics keep to the true time. -/
theorem uptime_correct (rate : ℕ) :
    (∀ a b, a ≤ b → ((oveTimeGetUs rate b : ℤ) - oveTimeGetUs rate a =
        ((b - a) * (1000000 / rate) : ℕ) ↔ 1000000 / rate = 0 ∨ a / 2 ^ 32 = b / 2 ^ 32)) ∧
      ∀ cfg now calls, Each (Uptime.step rate) (SamePeriod rate) (.start rate cfg now) calls →
        Each (Uptime.step rate) (ReportsUptime rate) (.start rate cfg now) calls := by
  refine ⟨fun a b h => oveTimeGetUs_sub_iff rate h, fun cfg now calls hsame => ?_⟩
  have hstart : Kept rate (System.start cfg (oveTimeGetUs rate now)).pm now now now fun _ => 0 :=
    (@kept_reset rate now (System.start cfg 0).pm rfl).keep le_rfl rfl
  exact Each.imp (I := fun s => Kept rate s.sys.pm s.base s.entry s.clock s.seen)
    (fun s c u h hs hp => uptime_step h hs hp) hstart hsame

theorem uptime_wraps :
    ¬Each (Uptime.step 1000) (ReportsUptime 1000) (.start 1000 ⟨0, 0, 0⟩ 0)
      [(.getStats, .still 5), (.getStats, .still (2 ^ 32))] := by
  intro h
  obtain ⟨r, hr, htotal, -⟩ := ((h _ rfl).2 _ rfl).1 rfl
  cases hr
  revert htotal
  decide

end Overtos.Pm
