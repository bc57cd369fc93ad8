import Overtos.Lib.Word
import Overtos.Types

/-! Nanoseconds as kernel ticks on FreeRTOS: the timeout of `ove_event_wait` and the period of a
timer. -/
namespace Overtos.Ticks
open Word

def waitForever : ℕ := 2 ^ 64 - 1

def portMaxDelay : ℕ := 2 ^ 32 - 1

def nsecPerTick (rate : ℕ) : ℕ := 1000000000 / rate

def oveNsToTicks (rate ns : ℕ) : ℕ :=
  if ns = waitForever then portMaxDelay
  else if ns = 0 then 0
  else
    let plus := wrap 64 (ns + (nsecPerTick rate - 1))
    if plus ≤ 2 ^ 32 - 1 then wrap 32 plus / wrap 32 (nsecPerTick rate)
    else min (plus / nsecPerTick rate) (portMaxDelay - 1)

structure Round where
  latched : Bool
  now : ℕ
  got : Bool
  woken : ℕ
  latchedAgain : Bool

def waitTicks (forever : Bool) (deadline start : ℕ) (r : Round) : ℕ :=
  if forever then portMaxDelay else sub 32 deadline (wrap 32 (start + r.now))

def waitLoop (forever : Bool) (deadline start : ℕ) : List Round → Option (Rc × ℕ)
  | [] => none
  | r :: rest =>
    let left := waitTicks forever deadline start r
    if r.latched then some (.ok, r.now)
    -- `(int32_t)(deadline - now) <= 0`
    else if ¬forever ∧ (left = 0 ∨ 2 ^ 31 ≤ left) then some (.errTimeout, r.now)
    else if r.latchedAgain then some (.ok, r.woken)
    else if r.got then waitLoop forever deadline start rest
    else some (.errTimeout, r.woken)

def deadlineOf (rate timeoutNs start : ℕ) : ℕ :=
  wrap 32 (start + if timeoutNs = waitForever then 0 else oveNsToTicks rate timeoutNs)

def oveEventWait (rate timeoutNs start : ℕ) (rounds : List Round) : Option (Rc × ℕ) :=
  waitLoop (timeoutNs = waitForever) (deadlineOf rate timeoutNs start) start rounds

def Paced (forever : Bool) (deadline start : ℕ) (r : Round) : Prop :=
  r.now ≤ r.woken ∧
    (r.got = false → r.now + waitTicks forever deadline start r ≤ r.woken)

def exactTicks (rate ns : ℕ) : ℕ := (ns * rate + 999999999) / 1000000000

/-- A timeout is reported only after its ticks, a monotone rounding up that never is the sentinel.
-/
def TimeoutHonoured (rate ns : ℕ) : Prop :=
  (∀ start rounds elapsed,
    (∀ r ∈ rounds, Paced (ns = waitForever) (deadlineOf rate ns start) start r) →
    oveEventWait rate ns start rounds = some (.errTimeout, elapsed) →
    min (exactTicks rate ns) (portMaxDelay - 1) ≤ elapsed) ∧
  (∀ shorter ≤ ns, oveNsToTicks rate shorter ≤ oveNsToTicks rate ns) ∧
  oveNsToTicks rate ns ≠ portMaxDelay ∧
  min (exactTicks rate ns) (portMaxDelay - 1) ≤ oveNsToTicks rate ns

theorem waitLoop_timeout {start ticks elapsed : ℕ} (hticks : ticks < 2 ^ 31) {rounds : List Round}
    (hpaced : ∀ r ∈ rounds, Paced false (wrap 32 (start + ticks)) start r)
    (h : waitLoop false (wrap 32 (start + ticks)) start rounds = some (.errTimeout, elapsed)) :
    ticks ≤ elapsed := by
  induction rounds with
  | nil => cases h
  | cons r rest ih =>
    obtain ⟨⟨hwoken, htake⟩, hrest⟩ := List.forall_mem_cons.mp hpaced
    have hleft (hnow : r.now ≤ ticks) :
        waitTicks false (wrap 32 (start + ticks)) start r = ticks - r.now := by
      have hsum : start + ticks = start + r.now + (ticks - r.now) := by omega
      rw [waitTicks, if_neg (by simp), hsum, sub_wrap_wrap (by omega)]
    rw [waitLoop] at h
    split_ifs at h with hlatched hpast hagain hgot
    · cases h
    · cases h
      by_contra hearly
      rw [hleft (by omega)] at hpast
      omega
    · cases h
    · exact ih hrest h
    · cases h
      have htaken := htake (by simpa using hgot)
      by_contra hearly
      rw [hleft (by omega)] at htaken
      omega

section
variable {rate ns : ℕ} (hlow : 1 ≤ rate) (hhigh : rate ≤ 1000000)
include hlow hhigh

theorem nsecPerTick_bounds : 1000 ≤ nsecPerTick rate ∧ nsecPerTick rate ≤ 1000000000 ∧
    nsecPerTick rate * rate ≤ 1000000000 := by
  refine ⟨?_, Nat.div_le_self _ _, Nat.div_mul_le_self _ _⟩
  rw [nsecPerTick, Nat.le_div_iff_mul_le hlow]
  omega

theorem oveNsToTicks_eq (hns : ns + (nsecPerTick rate - 1) < 2 ^ 64) : oveNsToTicks rate ns =
      min ((ns + (nsecPerTick rate - 1)) / nsecPerTick rate) (portMaxDelay - 1) := by
  obtain ⟨hge, hle, -⟩ := nsecPerTick_bounds hlow hhigh
  have hzero : (nsecPerTick rate - 1) / nsecPerTick rate = 0 := Nat.div_eq_of_lt (by omega)
  have hdiv := Nat.div_le_div_left (a := ns + (nsecPerTick rate - 1)) hge (by omega)
  rw [oveNsToTicks, if_neg (by rw [waitForever]; omega), wrap_of_lt hns,
    wrap_of_lt (w := 32) (n := nsecPerTick rate) (by omega)]
  dsimp only
  split_ifs with h0 hfast
  · rw [h0, Nat.zero_add, hzero, Nat.zero_min]
  · rw [wrap_of_lt (by omega), Nat.min_eq_left (by rw [portMaxDelay]; omega)]
  · rfl

theorem exactTicks_le : exactTicks rate ns ≤ (ns + (nsecPerTick rate - 1)) / nsecPerTick rate := by
  obtain ⟨hge, -, hle⟩ := nsecPerTick_bounds hlow hhigh
  have hup := le_roundUp (show 0 < nsecPerTick rate by omega) ns
  rw [roundUp, Nat.add_sub_assoc (by omega)] at hup
  generalize (ns + (nsecPerTick rate - 1)) / nsecPerTick rate = ticks at hup ⊢
  have hscaled : ns * rate ≤ ticks * 1000000000 := by
    calc ns * rate ≤ ticks * nsecPerTick rate * rate := Nat.mul_le_mul_right _ hup
      _ = ticks * (nsecPerTick rate * rate) := Nat.mul_assoc ..
      _ ≤ ticks * 1000000000 := Nat.mul_le_mul_left _ hle
  rw [exactTicks]
  omega

theorem oveNsToTicks_far (hfinite : ns < waitForever) (hns : (2 ^ 31 - 1) * nsecPerTick rate < ns) :
    oveNsToTicks rate ns < 2 ^ 32 ∧ (oveNsToTicks rate ns = 0 ∨ 2 ^ 31 ≤ oveNsToTicks rate ns) := by
  obtain ⟨hge, hle, -⟩ := nsecPerTick_bounds hlow hhigh
  rw [waitForever] at hfinite
  rcases Nat.lt_or_ge (ns + (nsecPerTick rate - 1)) (2 ^ 64) with hsum | hsum
  · have hticks : 2 ^ 31 ≤ (ns + (nsecPerTick rate - 1)) / nsecPerTick rate := by
      rw [Nat.le_div_iff_mul_le (by omega)]
      omega
    rw [oveNsToTicks_eq hlow hhigh hsum, portMaxDelay]
    omega
  · have hzero : oveNsToTicks rate ns = 0 := by
      rw [oveNsToTicks, if_neg (by rw [waitForever]; omega), if_neg (by omega),
        wrap_of_ge hsum (by omega)]
      dsimp only
      rw [if_pos (by omega), wrap_of_lt (by omega), wrap_of_lt (by omega)]
      exact Nat.div_eq_of_lt (by omega)
    omega

theorem timeoutHonoured_iff (hfinite : ns < waitForever) :
    TimeoutHonoured rate ns ↔ ns ≤ (2 ^ 31 - 1) * nsecPerTick rate := by
  obtain ⟨hge, hle, -⟩ := nsecPerTick_bounds hlow hhigh
  have hforever : decide (ns = waitForever) = false := by simpa using hfinite.ne
  have hdeadline (start : ℕ) :
      deadlineOf rate ns start = wrap 32 (start + oveNsToTicks rate ns) := by
    rw [deadlineOf, if_neg hfinite.ne]
  constructor
  · rintro ⟨hwait, -⟩
    by_contra hfar
    obtain ⟨hlt, hpast⟩ := oveNsToTicks_far hlow hhigh hfinite (by omega)
    -- one round in which nothing happens: the first look at the clock ends the wait
    let idle : Round := ⟨false, 0, false, 2 ^ 32, false⟩
    have hleft : waitTicks false (deadlineOf rate ns 0) 0 idle = oveNsToTicks rate ns := by
      rw [waitTicks, if_neg (by simp), hdeadline]
      exact sub_wrap_wrap (a := 0) hlt
    have hnone := hwait 0 [idle] 0 (by
      rw [hforever, List.forall_mem_singleton, Paced, hleft]
      exact ⟨Nat.zero_le _, fun _ => by simp only [idle]; omega⟩) (by
      rw [oveEventWait, hforever, waitLoop, hleft, if_neg (by simp [idle]),
        if_pos ⟨by simp, hpast⟩])
    rw [exactTicks, portMaxDelay] at hnone
    have hpos : 1 ≤ ns * rate := Nat.mul_pos (by omega) hlow
    omega
  · intro hnear
    have hticks : (ns + (nsecPerTick rate - 1)) / nsecPerTick rate < 2 ^ 31 := by
      rw [Nat.div_lt_iff_lt_mul (by omega)]
      omega
    have hexact := @exactTicks_le rate ns hlow hhigh
    have heq := @oveNsToTicks_eq rate ns hlow hhigh (by omega)
    rw [portMaxDelay, Nat.min_eq_left (by omega)] at heq
    refine ⟨fun start rounds elapsed hpaced h => ?_, fun shorter hle => ?_, ?_, ?_⟩
    · rw [hforever, hdeadline] at hpaced
      rw [oveEventWait, hforever, hdeadline] at h
      have hlast := waitLoop_timeout (by omega) hpaced h
      omega
    · rw [heq, oveNsToTicks_eq hlow hhigh (by omega)]
      exact (Nat.min_le_left _ _).trans (Nat.div_le_div_right (by omega))
    · rw [heq, portMaxDelay]
      omega
    · omega

end

theorem timeoutHonoured_five_seconds : TimeoutHonoured 1000 5000000000 :=
  (timeoutHonoured_iff (by decide) (by decide) (by decide)).mpr (by decide)

theorem far_timeouts_not_honoured :
    ¬TimeoutHonoured 1000 (2 ^ 31 * 1000000) ∧ ¬TimeoutHonoured 1000 (2 ^ 64 - 2) := by
  constructor
  · rintro ⟨hwait, -⟩
    have hnone := hwait 0 [⟨false, 0, false, 2 ^ 32, false⟩] 0
      (List.forall_mem_singleton.mpr ⟨by decide, fun _ => by decide⟩) (by decide)
    revert hnone
    decide
  · rintro ⟨-, hmono, -⟩
    have hone := hmono 1 (by decide)
    revert hone
    decide

def nsToTicksCeil (rate periodNs : ℕ) : ℕ :=
  let periodUs := wrap 64 (periodNs + 999) / 1000
  let periodMs := wrap 64 (periodUs + 999) / 1000
  let ticks := wrap 32 (wrap 32 periodMs * rate / 1000)
  if ticks = 0 then 1 else ticks

def oveTimerInitNs (rate : ℕ) (timer storage callback : Bool) (periodNs : ℕ) : Rc × Option ℕ :=
  if ¬timer ∨ ¬storage ∨ ¬callback then (.errInvalidParam, none)
  else (.ok, some (nsToTicksCeil rate periodNs))

def oveTimerSetPeriodNs (rate : ℕ) (refused : Bool) (period periodNs : ℕ) : Rc × ℕ :=
  if refused then (.errTimeout, period) else (.ok, nsToTicksCeil rate periodNs)

def RoundsUp (rate ns ticks : ℕ) : Prop :=
  ns ≤ ticks * nsecPerTick rate ∧ ticks * nsecPerTick rate < ns + nsecPerTick rate + 1000000

def PeriodHonoured (rate ns : ℕ) : Prop :=
  (∀ timer storage callback ticks,
    oveTimerInitNs rate timer storage callback ns = (.ok, some ticks) → RoundsUp rate ns ticks) ∧
  ∀ refused period ticks,
    oveTimerSetPeriodNs rate refused period ns = (.ok, ticks) → RoundsUp rate ns ticks

theorem periodHonoured_iff_roundsUp {rate ns : ℕ} :
    PeriodHonoured rate ns ↔ RoundsUp rate ns (nsToTicksCeil rate ns) := by
  constructor
  · intro h
    exact h.1 true true true _ rfl
  · intro h
    constructor
    · intro timer storage callback ticks hinit
      rw [oveTimerInitNs] at hinit
      split_ifs at hinit <;> cases hinit
      exact h
    · intro refused period ticks hset
      rw [oveTimerSetPeriodNs] at hset
      split_ifs at hset <;> cases hset
      exact h

def ceilMs (ns : ℕ) : ℕ := (ns + 999999) / 1000000

section
variable {rate ns : ℕ} (hrate : rate ∣ 1000) (hns : ns * rate < 2 ^ 32 * 1000000000)
include hrate

theorem ticks_of_dvd : 0 < rate ∧ rate ≤ 1000 ∧ 1000 / rate * rate = 1000 ∧
    nsecPerTick rate = 1000 / rate * 1000000 := by
  have hpos := Nat.pos_of_dvd_of_pos hrate (by decide)
  have hmul := Nat.div_mul_cancel hrate
  refine ⟨hpos, Nat.le_of_dvd (by decide) hrate, hmul, ?_⟩
  rw [nsecPerTick]
  apply Nat.div_eq_of_eq_mul_left hpos
  rw [Nat.mul_right_comm, hmul]

include hns

theorem nsToTicksCeil_eq : nsToTicksCeil rate ns = max 1 (wrap 32 (ceilMs ns) / (1000 / rate)) := by
  obtain ⟨hpos, hle, hmul, -⟩ := ticks_of_dvd hrate
  have hsmall : ns < 2 ^ 32 * 1000000000 := (Nat.le_mul_of_pos_right ns hpos).trans_lt hns
  have hms : ((ns + 999) / 1000 + 999) / 1000 = ceilMs ns := by
    rw [ceilMs]
    omega
  have hlt := wrap_lt 32 (ceilMs ns)
  have hticks : wrap 32 (ceilMs ns) * rate / 1000 = wrap 32 (ceilMs ns) / (1000 / rate) := by
    conv_lhs => rw [← hmul]
    exact Nat.mul_div_mul_right _ _ hpos
  have hfits := Nat.div_le_self (wrap 32 (ceilMs ns)) (1000 / rate)
  rw [nsToTicksCeil, wrap_of_lt (n := ns + 999) (by omega), wrap_of_lt (w := 64) (by omega), hms,
    hticks, wrap_of_lt (w := 32) (by omega)]
  generalize wrap 32 (ceilMs ns) / (1000 / rate) = ticks
  clear * -
  split_ifs <;> omega

/-- A period is rounded up exactly when its milliseconds fit 32 bits and are less than a tick or a
whole number of ticks. -/
theorem periodHonoured_iff :
    PeriodHonoured rate ns ↔
      ceilMs ns < 2 ^ 32 ∧ (ceilMs ns < 1000 / rate ∨ 1000 / rate ∣ ceilMs ns) := by
  obtain ⟨hpos, hle, hmul, htick⟩ := ticks_of_dvd hrate
  have hms : ceilMs ns * 1000000 < ns + 1000000 ∧ ns ≤ ceilMs ns * 1000000 := by
    rw [ceilMs]
    omega
  have htpos : 0 < 1000 / rate := Nat.div_pos hle hpos
  have htle : 1000 / rate ≤ 1000 := Nat.div_le_self _ _
  have hdivmod := Nat.div_add_mod (wrap 32 (ceilMs ns)) (1000 / rate)
  have hwrap := wrap_le 32 (ceilMs ns)
  rw [periodHonoured_iff_roundsUp, nsToTicksCeil_eq hrate hns, RoundsUp, htick, ← Nat.mul_assoc]
  generalize 1000 / rate = T at *
  constructor
  · rintro ⟨hlow, -⟩
    rcases Nat.eq_zero_or_pos (wrap 32 (ceilMs ns) / T) with hq | hq
    · rw [hq, Nat.max_eq_left (by decide)] at hlow
      have hfits : ceilMs ns < 2 ^ 32 := by omega
      rw [wrap_of_lt hfits, Nat.div_eq_zero_iff] at hq
      omega
    · rw [Nat.max_eq_right hq, Nat.mul_comm (_ / T)] at hlow
      have heq : wrap 32 (ceilMs ns) = ceilMs ns := by omega
      have hfits := wrap_lt 32 (ceilMs ns)
      rw [heq] at hfits hdivmod hlow
      exact ⟨hfits, Or.inr ⟨ceilMs ns / T, by omega⟩⟩
  · rintro ⟨hfits, hwhole⟩
    rw [wrap_of_lt hfits]
    rcases hwhole with hshort | ⟨c, hc⟩
    · rw [Nat.div_eq_of_lt hshort, Nat.max_eq_left (by decide)]
      omega
    · rw [hc, Nat.mul_div_cancel_left c htpos]
      rcases Nat.eq_zero_or_pos c with rfl | hcpos
      · rw [Nat.max_eq_left (by decide)]
        omega
      · rw [Nat.max_eq_right hcpos, Nat.mul_comm c, ← hc]
        omega

end

theorem periodHonoured_millisecond_ticks : PeriodHonoured 1000 2500000 :=
  (periodHonoured_iff (by decide) (by decide)).mpr (by decide)

theorem period_not_honoured : ¬PeriodHonoured 100 15000000 := by
  rw [periodHonoured_iff_roundsUp]
  rintro ⟨hlow, -⟩
  revert hlow
  decide

end Overtos.Ticks
