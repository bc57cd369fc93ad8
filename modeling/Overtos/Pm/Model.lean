import Overtos.Lib.Runs
import Overtos.Lib.Word
import Overtos.Types

/-! The power manager of `ove_pm.c`. -/
namespace Overtos.Pm
open Word

inductive PmState where
  | active | idle | standby | deepSleep
  deriving DecidableEq, Repr

namespace PmState

def toNat : PmState → ℕ
  | active => 0
  | idle => 1
  | standby => 2
  | deepSleep => 3

def ofNat? : ℕ → Option PmState
  | 0 => some active
  | 1 => some idle
  | 2 => some standby
  | 3 => some deepSleep
  | _ => none

def sum (f : PmState → ℕ) : ℕ := f active + f idle + f standby + f deepSleep

end PmState

inductive Domain where
  | radio | sensor | display | audio | storage | comms | user0 | user1
  deriving DecidableEq, Repr

def Domain.ofNat? : ℕ → Option Domain
  | 0 => some radio
  | 1 => some sensor
  | 2 => some display
  | 3 => some audio
  | 4 => some storage
  | 5 => some comms
  | 6 => some user0
  | 7 => some user1
  | _ => none

structure Cfg where
  idleThresholdMs : ℕ
  standbyThresholdMs : ℕ
  deepSleepThresholdMs : ℕ
  deriving DecidableEq, Repr

inductive WakeSrc where
  | gpio (port pin edge : ℕ)
  | timer (timeoutMs : ℕ)
  | uart (uart : ℕ)
  | rtc (alarmMs : ℕ)
  deriving DecidableEq, Repr

def maxWakeSources : ℕ := 8
def maxNotifiers : ℕ := 4

structure Notifier where
  fn : ℕ
  userData : ℕ
  deriving DecidableEq, Repr

/-- `resided` and `entered` are the stays and stores of each state, `early` and `late` the summed
delays between the reading a change is booked at and its store. -/
structure Watch where
  base : ℕ
  enteredAt : ℕ
  resided : PmState → ℕ
  changes : ℕ
  entered : PmState → ℕ
  early : PmState → ℕ
  late : PmState → ℕ

def Watch.start (state : PmState) (now : ℕ) : Watch :=
  ⟨now, now, fun _ => 0, 0, Function.update (fun _ => 0) state 1, fun _ => 0, fun _ => 0⟩

def Watch.change (w : Watch) (old new : PmState) (now moment : ℕ) : Watch where
  base := w.base
  enteredAt := moment
  resided := Function.update w.resided old (w.resided old + (moment - w.enteredAt))
  changes := w.changes + 1
  entered := Function.update w.entered new (w.entered new + 1)
  early := Function.update w.early new (w.early new + (moment - now))
  late := Function.update w.late old (w.late old + (moment - now))

def Watch.timeIn (w : Watch) (current state : PmState) (now : ℕ) : ℕ :=
  w.resided state + if current = state then now - w.enteredAt else 0

structure Ctx where
  currentState : PmState
  activityFlag : Bool
  lastActivityUs : ℕ
  stateEntryUs : ℕ
  cfg : Cfg
  wakeTable : List (Option WakeSrc)
  domainRefcount : Domain → ℤ
  userPolicy : Bool
  notifiers : List Notifier
  timeInStateUs : PmState → ℕ
  transitionCount : PmState → ℕ
  initialized : Bool
  watch : Watch

def updateStats (pm : Ctx) (old : PmState) (now : ℕ) : Ctx :=
  { pm with
    timeInStateUs := Function.update pm.timeInStateUs old
      (wrap 64 (pm.timeInStateUs old + sub 64 now pm.stateEntryUs))
    stateEntryUs := now }

def Ctx.enter (pm : Ctx) (state : PmState) (now moment : ℕ) : Ctx :=
  { pm with
    currentState := state
    transitionCount := Function.update pm.transitionCount state
      (wrap 32 (pm.transitionCount state + 1))
    watch := pm.watch.change pm.currentState state now moment }

def Ctx.zero : Ctx :=
  ⟨.active, false, 0, 0, ⟨0, 0, 0⟩, List.replicate maxWakeSources none, fun _ => 0, false, [],
    fun _ => 0, fun _ => 0, false, .start .active 0⟩

def ovePmInit (pm : Ctx) (cfg : Option Cfg) (mutexInit halSetup : Rc) (now : ℕ) : Rc × Ctx :=
  match cfg with
  | none => (.errInvalidParam, pm)
  | some cfg =>
    if pm.initialized then (.errInvalidParam, pm)
    else
      let pm := { Ctx.zero with cfg, lastActivityUs := now, stateEntryUs := now }
      if mutexInit ≠ .ok then (mutexInit, pm)
      else
        let pm := { pm with
          transitionCount := Function.update pm.transitionCount .active 1
          watch := .start .active now }
        if halSetup ≠ .ok then (halSetup, pm) else (.ok, { pm with initialized := true })

def defaultPolicy (cfg : Cfg) (idleMs nextTimeoutMs : ℕ) : ℕ :=
  if idleMs < cfg.idleThresholdMs then PmState.active.toNat
  else if nextTimeoutMs < cfg.standbyThresholdMs then PmState.idle.toNat
  else if idleMs < cfg.deepSleepThresholdMs then PmState.standby.toNat
  else PmState.deepSleep.toNat

/-- The clock at the first reading, at the reading a change is booked at, at the store, and after a
sleep at the reading and store of `OVE_PM_STATE_ACTIVE`. -/
structure Moments where
  first : ℕ
  now : ℕ
  store : ℕ
  woke : ℕ
  restore : ℕ
  deriving DecidableEq, Repr

def Moments.Ordered (t : Moments) (clock : ℕ) : Prop :=
  clock ≤ t.first ∧ t.first ≤ t.now ∧ t.now ≤ t.store ∧ t.store ≤ t.woke ∧ t.woke ≤ t.restore ∧
    t.restore < 2 ^ 64

instance (t : Moments) (clock : ℕ) : Decidable (t.Ordered clock) :=
  inferInstanceAs (Decidable (_ ∧ _))

def ovePmSetState (pm : Ctx) (state : ℕ) (t : Moments) : Rc × Ctx :=
  if pm.initialized = false then (.errInvalidParam, pm)
  else
    match PmState.ofNat? state with
    | none => (.errInvalidParam, pm)
    | some state =>
      if pm.currentState = state then (.ok, pm)
      else
        let pm := (updateStats pm pm.currentState t.now).enter state t.now t.store
        (.ok, if state ≠ .active then { pm with lastActivityUs := t.now } else pm)

def ovePmActivity (pm : Ctx) : Ctx := { pm with activityFlag := true }

inductive PmEvent where
  | preSleep | postWake
  deriving DecidableEq, Repr

inductive HalCall where
  | notify (notifier : Notifier) (event : PmEvent) (source target : PmState)
  | wakeArm (src : WakeSrc)
  | enterState (state : PmState) (expectedIdleMs : ℕ)
  | wakeDisarm (src : WakeSrc)
  deriving DecidableEq, Repr

structure Advice where
  nextTimeoutMs : ℕ
  policy : PmState → ℕ → ℕ → ℕ

def recommend (pm : Ctx) (advice : Advice) (now : ℕ) : PmState :=
  let idleMs := wrap 32 (sub 64 now pm.lastActivityUs / 1000)
  let recommended :=
    if pm.userPolicy then advice.policy pm.currentState idleMs advice.nextTimeoutMs
    else defaultPolicy pm.cfg idleMs advice.nextTimeoutMs
  (PmState.ofNat? recommended).getD .active

def sleep (pm : Ctx) (recommended : PmState) (t : Moments) : Ctx :=
  let slept := (updateStats pm pm.currentState t.now).enter recommended t.now t.store
  (updateStats slept recommended t.woke).enter .active t.woke t.restore

def sleepCalls (pm : Ctx) (recommended : PmState) (nextTimeoutMs : ℕ) : List HalCall :=
  pm.notifiers.map (.notify · .preSleep pm.currentState recommended) ++
    (pm.wakeTable.reduceOption.map .wakeArm ++
      (.enterState recommended nextTimeoutMs ::
        (pm.wakeTable.reduceOption.map .wakeDisarm ++
          pm.notifiers.map (.notify · .postWake recommended .active))))

def ovePmIdleProcess (pm : Ctx) (advice : Advice) (t : Moments) : Ctx × List HalCall :=
  if pm.initialized = false then (pm, [])
  else if pm.activityFlag then
    let pm := { pm with activityFlag := false, lastActivityUs := t.first }
    (if pm.currentState ≠ .active then
      (updateStats pm pm.currentState t.now).enter .active t.now t.store
    else pm, [])
  else
    let recommended := recommend pm advice t.first
    if recommended.toNat ≤ pm.currentState.toNat then (pm, [])
    else (sleep pm recommended t, sleepCalls pm recommended advice.nextTimeoutMs)

def ovePmSetPolicy (pm : Ctx) (user : Bool) : Rc × Ctx :=
  if pm.initialized = false then (.errInvalidParam, pm) else (.ok, { pm with userPolicy := user })

structure Stats where
  timeInStateUs : PmState → ℕ
  transitionCount : PmState → ℕ
  totalRuntimeUs : ℕ
  activePctX100 : ℕ

def ovePmGetStats (pm : Ctx) (now : ℕ) : Except Rc Stats :=
  if pm.initialized = false then .error .errInvalidParam
  else
    let time := Function.update pm.timeInStateUs pm.currentState
      (wrap 64 (pm.timeInStateUs pm.currentState + sub 64 now pm.stateEntryUs))
    let total := wrap 64 (PmState.sum time)
    let pct := if 0 < total then wrap 32 (wrap 64 (time .active * 10000) / total) else 10000
    .ok ⟨time, pm.transitionCount, total, pct⟩

def ovePmResetStats (pm : Ctx) (now : ℕ) : Ctx :=
  if pm.initialized = false then pm
  else
    { pm with
      timeInStateUs := fun _ => 0
      transitionCount := Function.update (fun _ => 0) pm.currentState 1
      stateEntryUs := now
      watch := .start pm.currentState now }

def wakeSrcMatch : WakeSrc → WakeSrc → Bool
  | .gpio port pin _, .gpio port' pin' _ => port = port' && pin = pin'
  | .timer timeoutMs, .timer timeoutMs' => timeoutMs = timeoutMs'
  | .uart uart, .uart uart' => uart = uart'
  | .rtc alarmMs, .rtc alarmMs' => alarmMs = alarmMs'
  | _, _ => false

def ovePmWakeRegister (pm : Ctx) (src : WakeSrc) : Rc × Ctx :=
  if pm.initialized = false then (.errInvalidParam, pm)
  else
    match pm.wakeTable.findIdx? Option.isNone with
    | none => (.errNoMemory, pm)
    | some i => (.ok, { pm with wakeTable := pm.wakeTable.set i (some src) })

def ovePmWakeUnregister (pm : Ctx) (src : WakeSrc) : Rc × Ctx :=
  if pm.initialized = false then (.errInvalidParam, pm)
  else
    match pm.wakeTable.findIdx? fun slot => slot.any (wakeSrcMatch · src) with
    | none => (.errNotRegistered, pm)
    | some i => (.ok, { pm with wakeTable := pm.wakeTable.set i none })

def ovePmNotifyRegister (pm : Ctx) (n : Notifier) : Rc × Ctx :=
  if pm.initialized = false then (.errInvalidParam, pm)
  else if maxNotifiers ≤ pm.notifiers.length then (.errNoMemory, pm)
  else (.ok, { pm with notifiers := pm.notifiers ++ [n] })

def ovePmNotifyUnregister (pm : Ctx) (n : Notifier) : Rc × Ctx :=
  if pm.initialized = false then (.errInvalidParam, pm)
  else if n ∈ pm.notifiers then (.ok, { pm with notifiers := pm.notifiers.erase n })
  else (.errNotRegistered, pm)

abbrev Hardware := Domain → Bool

/-- The counter is an `int`; past its largest value it is taken to wrap. -/
def int32 (n : ℤ) : ℤ := n.bmod (2 ^ 32)

def Ctx.setRefcount (pm : Ctx) (d : Domain) (n : ℤ) : Ctx :=
  { pm with domainRefcount := Function.update pm.domainRefcount d n }

def halSwitch (hw : Hardware) (d : Domain) (on : Bool) (rc : Rc) : Hardware :=
  if rc = .ok then Function.update hw d on else hw

def ovePmDomainRequest (pm : Ctx) (hw : Hardware) (domain : ℕ) (hal : Rc) : Rc × Ctx × Hardware :=
  match Domain.ofNat? domain with
  | none => (.errInvalidParam, pm, hw)
  | some d =>
    if pm.initialized = false then (.errInvalidParam, pm, hw)
    else if pm.domainRefcount d = 0 then
      let hw := halSwitch hw d true hal
      if hal = .ok then (.ok, pm.setRefcount d (int32 (pm.domainRefcount d + 1)), hw)
      else (hal, pm, hw)
    else (.ok, pm.setRefcount d (int32 (pm.domainRefcount d + 1)), hw)

def ovePmDomainRelease (pm : Ctx) (hw : Hardware) (domain : ℕ) (hal : Rc) : Rc × Ctx × Hardware :=
  match Domain.ofNat? domain with
  | none => (.errInvalidParam, pm, hw)
  | some d =>
    if pm.initialized = false then (.errInvalidParam, pm, hw)
    else if pm.domainRefcount d ≤ 0 then (.errInvalidParam, pm, hw)
    else
      let pm := pm.setRefcount d (pm.domainRefcount d - 1)
      if pm.domainRefcount d = 0 then (hal, pm, halSwitch hw d false hal) else (.ok, pm, hw)

inductive Call where
  | setState (state : ℕ)
  | activity
  | idleProcess (advice : Advice)
  | setPolicy (user : Bool)
  | getStats
  | resetStats
  | wakeRegister (src : WakeSrc)
  | wakeUnregister (src : WakeSrc)
  | notifyRegister (n : Notifier)
  | notifyUnregister (n : Notifier)
  | domainRequest (domain : ℕ) (hal : Rc)
  | domainRelease (domain : ℕ) (hal : Rc)

structure System where
  pm : Ctx
  hw : Hardware
  clock : ℕ

def System.start (cfg : Cfg) (now : ℕ) : System :=
  ⟨(ovePmInit .zero (some cfg) .ok .ok now).2, fun _ => false, now⟩

def callPm (pm : Ctx) (t : Moments) : Call → Ctx
  | .setState state => (ovePmSetState pm state t).2
  | .activity => ovePmActivity pm
  | .idleProcess advice => (ovePmIdleProcess pm advice t).1
  | .setPolicy user => (ovePmSetPolicy pm user).2
  | .getStats => pm
  | .resetStats => ovePmResetStats pm t.now
  | .wakeRegister src => (ovePmWakeRegister pm src).2
  | .wakeUnregister src => (ovePmWakeUnregister pm src).2
  | .notifyRegister n => (ovePmNotifyRegister pm n).2
  | .notifyUnregister n => (ovePmNotifyUnregister pm n).2
  | .domainRequest _ _ => pm
  | .domainRelease _ _ => pm

/-- One call; none if the clock would go back. -/
def step (s : System) (c : Call × Moments) : Option System :=
  if c.2.Ordered s.clock then
    match c.1 with
    | .domainRequest domain hal =>
      let r := ovePmDomainRequest s.pm s.hw domain hal
      some ⟨r.2.1, r.2.2, c.2.restore⟩
    | .domainRelease domain hal =>
      let r := ovePmDomainRelease s.pm s.hw domain hal
      some ⟨r.2.1, r.2.2, c.2.restore⟩
    | call => some ⟨callPm s.pm c.2 call, s.hw, c.2.restore⟩
  else none

def call (s : System) (t : Moments) : Call → Ctx × Hardware
  | .domainRequest domain hal => (ovePmDomainRequest s.pm s.hw domain hal).2
  | .domainRelease domain hal => (ovePmDomainRelease s.pm s.hw domain hal).2
  | c => (callPm s.pm t c, s.hw)

theorem step_eq (s : System) (c : Call × Moments) : step s c = if c.2.Ordered s.clock then
      some ⟨(call s c.2 c.1).1, (call s c.2 c.1).2, c.2.restore⟩ else none := by
  obtain ⟨c, t⟩ := c
  cases c <;> rfl

inductive Effect (pm : Ctx) (t : Moments) : Call → Ctx → Prop
  | registers {c} (wakes notifiers) (hc : ∀ advice, c ≠ .idleProcess advice) :
    Effect pm t c { pm with wakeTable := wakes, notifiers := notifiers }
  | activity : Effect pm t .activity { pm with activityFlag := true }
  | policy (user) : Effect pm t (.setPolicy user) { pm with userPolicy := user }
  | changes (n state last) (hlast : last = pm.lastActivityUs ∨ last = t.now) :
    Effect pm t (.setState n)
      { (updateStats pm pm.currentState t.now).enter state t.now t.store with
        lastActivityUs := last }
  | attends (advice) (h : pm.activityFlag = true) :
    Effect pm t (.idleProcess advice) { pm with activityFlag := false, lastActivityUs := t.first }
  | wakes (advice) (h : pm.activityFlag = true) :
    Effect pm t (.idleProcess advice)
      { (updateStats pm pm.currentState t.now).enter .active t.now t.store with
        activityFlag := false, lastActivityUs := t.first }
  | idles (advice) (h : pm.activityFlag = false) : Effect pm t (.idleProcess advice) pm
  | sleeps (advice state) (h : pm.activityFlag = false) :
    Effect pm t (.idleProcess advice) (sleep pm state t)
  | resets : Effect pm t .resetStats (ovePmResetStats pm t.now)

section

variable {pm : Ctx} (hi : pm.initialized = true) (t : Moments)
include hi

theorem ovePmSetState_effect (n : ℕ) : Effect pm t (.setState n) (ovePmSetState pm n t).2 := by
  have hstay : Effect pm t (.setState n) pm := .registers _ _ (by simp)
  unfold ovePmSetState
  rw [if_neg (by simp [hi])]
  cases PmState.ofNat? n with
  | none => exact hstay
  | some state =>
    dsimp only
    split_ifs
    · exact hstay
    · exact .changes n state t.now (.inr rfl)
    · exact .changes n state pm.lastActivityUs (.inl rfl)

theorem ovePmIdleProcess_effect (advice : Advice) :
    Effect pm t (.idleProcess advice) (ovePmIdleProcess pm advice t).1 := by
  unfold ovePmIdleProcess
  rw [if_neg (by simp [hi])]
  dsimp only
  split_ifs with hflag
  · exact .wakes advice hflag
  · exact .attends advice hflag
  · exact .idles advice (by simpa using hflag)
  · exact .sleeps advice _ (by simpa using hflag)

theorem callPm_effect (c : Call) : Effect pm t c (callPm pm t c) := by
  have hi' : ¬pm.initialized = false := by simp [hi]
  cases c with
  | setState n => exact ovePmSetState_effect hi t n
  | idleProcess advice => exact ovePmIdleProcess_effect hi t advice
  | activity => exact .activity
  | resetStats => exact .resets
  | getStats | domainRequest | domainRelease => exact .registers _ _ (by simp)
  | setPolicy user =>
    rw [callPm, ovePmSetPolicy, if_neg hi']
    exact .policy user
  | wakeRegister src =>
    rw [callPm, ovePmWakeRegister, if_neg hi']
    split <;> exact .registers _ _ (by simp)
  | wakeUnregister src =>
    rw [callPm, ovePmWakeUnregister, if_neg hi']
    split <;> exact .registers _ _ (by simp)
  | notifyRegister n =>
    rw [callPm, ovePmNotifyRegister, if_neg hi']
    split_ifs <;> exact .registers _ _ (by simp)
  | notifyUnregister n =>
    rw [callPm, ovePmNotifyUnregister, if_neg hi']
    split_ifs <;> exact .registers _ _ (by simp)

end

theorem call_effect {s : System} (hi : s.pm.initialized = true) (t : Moments) (c : Call) :
    ∃ pm counts, Effect s.pm t c pm ∧ (call s t c).1 = { pm with domainRefcount := counts } := by
  refine ⟨callPm s.pm t c, (call s t c).1.domainRefcount, callPm_effect hi t c, ?_⟩
  cases c with
  | domainRequest domain hal =>
    simp only [call, callPm, ovePmDomainRequest]
    split
    · rfl
    · split_ifs <;> rfl
  | domainRelease domain hal =>
    simp only [call, callPm, ovePmDomainRelease]
    split
    · rfl
    · split_ifs <;> rfl
  | _ => rfl

end Overtos.Pm
