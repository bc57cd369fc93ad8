import Overtos.Types
import Overtos.Work.Model

/-! One work item that several threads submit to several queues: the POSIX, FreeRTOS and NuttX
backends. -/
namespace Overtos.Work.Pending
open Runs Function List Option

inductive Backend where
  | posix
  | freertos
  | nuttx
  deriving DecidableEq, Repr

/-- The POSIX worker keeps in `execute` whether its queue was running when it took the item. The
delay is read once to decide whether to sleep, and again for how long. -/
inductive Worker where
  | waiting
  | other
  | picked (execute : Bool)
  | decided (execute delay : Bool)
  | sleeping (execute : Bool) (till : ℕ)
  | awake (execute : Bool)
  | ready (run : Bool)
  | inHandler
  | completing
  deriving DecidableEq

/-- Where a thread is in its call, with the queue and the delay it passed; `none` is
`ove_work_submit`. -/
inductive Thread (κ : Type) where
  | idle
  | entered (wq : κ) (delay : Option ℕ)
  | claimed (wq : κ) (delay : Option ℕ)

structure Places (κ ι : Type) where
  thread : ι → Thread κ
  queue : κ → List Entry
  worker : κ → Worker
  timer : Option ℕ

/-- `state` and the timer are not used on POSIX, `pending` and `inProgress` only there. The last
three fields record due times, handler calls and results. -/
structure State (κ ι : Type) extends Places κ ι where
  now : ℕ
  running : κ → Bool
  locked : κ → Bool
  state : WorkState
  pending : Bool
  inProgress : Bool
  wq : Option κ
  delayMs : ℕ
  due : ℕ
  starts : List (ℕ × ℕ)
  returned : List (ι × Rc)

inductive Action (κ ι : Type) where
  | tick
  | stop (w : κ)
  | submitOther (w : κ)
  | call (i : ι) (w : κ) (delay : Option ℕ)
  | claim (i : ι)
  | commit (i : ι)
  | abort (i : ι) (rc : Rc)
  | pick (w : κ)
  | advance (w : κ)
  | fire

variable {κ ι : Type}

def State.init : State κ ι where
  now := 0
  running _ := true
  locked _ := false
  state := .idle
  pending := false
  inProgress := false
  wq := none
  delayMs := 0
  timer := none
  queue _ := []
  worker _ := .waiting
  thread _ := .idle
  due := 0
  starts := []
  returned := []

section

-- `ticks` is the kernel's conversion of milliseconds to units of its clock, and `depth` the number
-- of items that a queue takes.
variable (k : Backend) (ticks : ℕ → ℕ) (depth : ℕ)

def waitFor (d : ℕ) : ℕ := if 0 < d then ticks d else 0

def delayTicks : Option ℕ → ℕ
  | none => 0
  | some d =>
    match k with
    | .freertos => max (ticks d) 1
    | _ => waitFor ticks d

section

variable [DecidableEq ι]

def State.setThread (s : State κ ι) (i : ι) (p : Thread κ) : State κ ι :=
  { s with thread := update s.thread i p }

def State.finish (s : State κ ι) (i : ι) (rc : Rc) : State κ ι :=
  { s with thread := update s.thread i .idle, returned := s.returned ++ [(i, rc)] }

def claim (s : State κ ι) (i : ι) (w : κ) (delay : Option ℕ) : State κ ι :=
  if s.state = .idle then
    { s.setThread i (.claimed w delay) with
      state := if k = .freertos ∧ delay.isSome then .delayed else .queued
      wq := some w
      due := s.now + delayTicks k ticks delay }
  else s.finish i .errBusy

def undo (s : State κ ι) (i : ι) (rc : Rc) : State κ ι :=
  { s.finish i rc with wq := none, state := .idle }

end

section

variable [DecidableEq κ]

def State.enqueue (s : State κ ι) (w : κ) (e : Entry) : State κ ι :=
  { s with queue := update s.queue w (s.queue w ++ [e]) }

def State.setWorker (s : State κ ι) (w : κ) (x : Worker) : State κ ι :=
  { s with worker := update s.worker w x }

def State.start (s : State κ ι) (w : κ) : State κ ι :=
  { s.setWorker w .inHandler with
    state := if k = .posix then s.state else .running
    starts := s.starts ++ [(s.due, s.now)] }

def State.complete (s : State κ ι) (w : κ) : State κ ι :=
  { s.setWorker w .waiting with state := .idle, inProgress := false, wq := none }

def runItem (s : State κ ι) (w : κ) : State κ ι :=
  if s.running w ∧ s.state = .queued then s.start k w else s.setWorker w .completing

def Worker.needsLock : Worker → Bool
  | .waiting | .awake _ | .completing => true
  | _ => false

def pick (s : State κ ι) (w : κ) : Option (State κ ι) :=
  match s.worker w, s.queue w with
  | .waiting, .item :: q =>
    some { s.setWorker w (.picked (s.running w)) with
      queue := update s.queue w q
      inProgress := if k = .posix then true else s.inProgress }
  | .waiting, .other :: q =>
    some { s.setWorker w .other with queue := update s.queue w q }
  | _, _ => none

def advance (s : State κ ι) (w : κ) : Option (State κ ι) :=
  match s.worker w with
  | .waiting => none
  | .other => some (s.setWorker w .waiting)
  | .picked execute =>
    match k with
    | .freertos => some (runItem k s w)
    | .nuttx =>
      some (s.setWorker w (.decided execute
        (decide (0 < s.delayMs ∧ s.running w = true ∧ s.state = .queued))))
    | .posix => some (s.setWorker w (.decided execute (execute && decide (0 < s.delayMs))))
  | .decided execute true => some (s.setWorker w (.sleeping execute (s.now + ticks s.delayMs)))
  | .decided execute false => some (s.setWorker w (.awake execute))
  | .sleeping execute till => if till ≤ s.now then some (s.setWorker w (.awake execute)) else none
  | .awake execute =>
    match k with
    | .posix => some { s.setWorker w (.ready (execute && s.pending)) with pending := false }
    | _ => some { s.setWorker w (.ready true) with delayMs := 0 }
  | .ready run =>
    match k with
    | .posix => some (if run then s.start k w else s.setWorker w .completing)
    | _ => some (runItem k s w)
  | .inHandler => some (s.setWorker w .completing)
  | .completing => some (s.complete w)

def fire (s : State κ ι) : Option (State κ ι) :=
  match s.timer with
  | none => none
  | some till =>
    if s.now < till then none
    else if s.state ≠ .delayed then some { s with timer := none }
    else
      match s.wq with
      | none => some { s with timer := none, state := .idle }
      | some w =>
        if s.running w ∧ (s.queue w).length < depth then
          some { s.enqueue w .item with timer := none, state := .queued }
        else some { s with timer := none, state := .idle, wq := none }

variable [DecidableEq ι]

def enter (s : State κ ι) (i : ι) (w : κ) (delay : Option ℕ) : State κ ι :=
  if s.running w = false then s.finish i .errBusy
  else
    match k with
    | .nuttx => { s.setThread i (.entered w delay) with delayMs := delay.getD 0 }
    | .freertos => s.setThread i (.entered w delay)
    | .posix =>
      if s.wq.isSome ∨ s.pending ∨ s.inProgress then s.finish i .errBusy
      else if depth ≤ (s.queue w).length then s.finish i .errNoMemory
      else { s.setThread i (.entered w delay) with locked := update s.locked w true }

def store (s : State κ ι) (i : ι) (w : κ) (delay : Option ℕ) : State κ ι :=
  { (s.finish i .ok).enqueue w .item with
    delayMs := delay.getD 0
    wq := some w
    pending := true
    due := s.now + delayTicks .posix ticks delay
    locked := update s.locked w false }

/-- FreeRTOS gives up on a full queue; NuttX waits for room, and gives up on a stopped queue. -/
def commit (s : State κ ι) (i : ι) (w : κ) (delay : Option ℕ) : Option (State κ ι) :=
  match k, delay with
  | .freertos, some d =>
    some { s.finish i .ok with timer := some (s.now + delayTicks .freertos ticks (some d)) }
  | .freertos, none =>
    if (s.queue w).length < depth then some ((s.finish i .ok).enqueue w .item)
    else some (undo s i .errTimeout)
  | _, _ =>
    if depth ≤ (s.queue w).length then none
    else if s.running w then some ((s.finish i .ok).enqueue w .item)
    else some (undo s i .errBusy)

def step (s : State κ ι) : Action κ ι → Option (State κ ι)
  | .tick => some { s with now := s.now + 1 }
  | .stop w =>
    if s.locked w then none else some { s with running := update s.running w false }
  | .submitOther w =>
    if s.locked w = false ∧ (s.queue w).length < depth then some (s.enqueue w .other) else none
  | .call i w delay =>
    match s.thread i with
    | .idle => if s.locked w then none else some (enter k depth s i w delay)
    | _ => none
  | .claim i =>
    match s.thread i with
    | .entered w delay => if k = .posix then none else some (claim k ticks s i w delay)
    | _ => none
  | .commit i =>
    match s.thread i with
    | .entered w delay => if k = .posix then some (store ticks s i w delay) else none
    | .claimed w delay => commit k ticks depth s i w delay
    | .idle => none
  | .abort i rc =>
    match s.thread i with
    | .claimed _ _ => some (undo s i rc)
    | _ => none
  | .pick w =>
    -- The NuttX worker ends when its queue has been stopped.
    if s.locked w ∨ (k = .nuttx ∧ s.running w = false) then none else pick k s w
  | .advance w => if s.locked w ∧ (s.worker w).needsLock then none else advance k ticks s w
  | .fire => if k = .freertos then fire depth s else none

def submit (s : State κ ι) (i : ι) (w : κ) (delay : Option ℕ) : State κ ι :=
  match (enter k depth s i w delay).thread i with
  | .entered w delay =>
    if k = .posix then store ticks (enter k depth s i w delay) i w delay
    else claim k ticks (enter k depth s i w delay) i w delay
  | _ => enter k depth s i w delay

end

end

section

variable (k : Backend) (ticks : ℕ → ℕ)

def State.Busy (s : State κ ι) : Prop :=
  match k with
  | .posix => s.wq.isSome = true ∨ s.pending = true ∨ s.inProgress = true
  | _ => s.state ≠ .idle

instance (s : State κ ι) : ∀ k, Decidable (s.Busy k)
  | .posix =>
    inferInstanceAs (Decidable (s.wq.isSome = true ∨ s.pending = true ∨ s.inProgress = true))
  | .freertos => inferInstanceAs (Decidable (s.state ≠ .idle))
  | .nuttx => inferInstanceAs (Decidable (s.state ≠ .idle))

def State.stage (s : State κ ι) : Worker :=
  match s.wq with
  | some w => s.worker w
  | none => .waiting

def Worker.toWait : Worker → ℕ → ℕ
  | .waiting, d | .other, d | .picked _, d => waitFor ticks d
  | .decided _ true, d => ticks d
  | _, _ => 0

def State.remaining (s : State κ ι) : ℕ :=
  match k with
  | .freertos =>
    match s.timer with
    | some till => till - s.now
    | none => 0
  | _ =>
    match s.stage with
    | .sleeping _ till => till - s.now
    | x => x.toWait ticks s.delayMs

structure Unaffected (s t : State κ ι) : Prop where
  wq : t.wq = s.wq
  queue : t.queue = s.queue
  worker : t.worker = s.worker
  timer : t.timer = s.timer
  state : t.state = s.state ∧ t.pending = s.pending ∧ t.inProgress = s.inProgress
  remaining : t.remaining k ticks = s.remaining k ticks

/-- On NuttX the delay passed makes the worker begin the wait it would begin anyway, if any. -/
def Harmless (s : State κ ι) (w : κ) (delay : Option ℕ) : Prop :=
  k = .nuttx → s.running w = true →
    s.stage.toWait ticks (delay.getD 0) = s.stage.toWait ticks s.delayMs

instance (s : State κ ι) (w : κ) (delay : Option ℕ) : Decidable (Harmless k ticks s w delay) :=
  inferInstanceAs (Decidable (k = .nuttx → s.running w = true → _ = _))

def NotEarly (s : State κ ι) : Prop := ∀ p ∈ s.starts, p.1 ≤ p.2

def OwnDelay (s : State κ ι) : Thread κ → Prop
  | .entered _ delay => k = .nuttx → s.state = .idle → s.delayMs = delay.getD 0
  | _ => True

instance (s : State κ ι) : ∀ p : Thread κ, Decidable (OwnDelay k s p)
  | .entered _ delay =>
    inferInstanceAs (Decidable (k = .nuttx → s.state = .idle → s.delayMs = delay.getD 0))
  | .idle => .isTrue trivial
  | .claimed _ _ => .isTrue trivial

/-- On NuttX a call that finds the item taken is harmless, and one that takes it finds its own delay
stored. On POSIX the item is still free at the store. -/
def Orderly (s : State κ ι) : Action κ ι → Prop
  | .call _ w delay => s.state = .idle ∨ Harmless k ticks s w delay
  | .claim i => OwnDelay k s (s.thread i)
  | .commit _ => k = .posix → ¬s.Busy k
  | _ => True

instance (s : State κ ι) : ∀ a : Action κ ι, Decidable (Orderly k ticks s a)
  | .call _ w delay => inferInstanceAs (Decidable (s.state = .idle ∨ Harmless k ticks s w delay))
  | .claim i => inferInstanceAs (Decidable (OwnDelay k s (s.thread i)))
  | .commit _ => inferInstanceAs (Decidable (k = .posix → ¬s.Busy k))
  | .tick | .stop _ | .submitOther _ | .abort _ _ | .pick _ | .advance _ | .fire => .isTrue trivial

end

inductive Site (κ ι : Type) where
  | thread (i : ι)
  | queue (w : κ)
  | worker (w : κ)
  | timer
  deriving DecidableEq

section

def Thread.holds : Thread κ → ℕ
  | .claimed _ _ => 1
  | _ => 0

def Worker.holds : Worker → ℕ
  | .waiting | .other => 0
  | _ => 1

def Places.count (p : Places κ ι) : Site κ ι → ℕ
  | .thread i => (p.thread i).holds
  | .queue w => (p.queue w).count .item
  | .worker w => (p.worker w).holds
  | .timer => p.timer.toList.length

variable [DecidableEq κ] [DecidableEq ι] {p : Places κ ι}

theorem Places.count_thread (p : Places κ ι) (i : ι) (q : Thread κ) :
    ({ p with thread := update p.thread i q } : Places κ ι).count =
      update p.count (.thread i) q.holds := by
  funext x
  cases x <;> simp [Places.count, update_apply, apply_ite Thread.holds]

theorem Places.count_queue (p : Places κ ι) (w : κ) (q : List Entry) :
    ({ p with queue := update p.queue w q } : Places κ ι).count =
      update p.count (.queue w) (q.count .item) := by
  funext x
  cases x <;> simp [Places.count, update_apply, apply_ite (List.count Entry.item)]

theorem Places.count_worker (p : Places κ ι) (w : κ) (x : Worker) :
    ({ p with worker := update p.worker w x } : Places κ ι).count =
      update p.count (.worker w) x.holds := by
  funext x
  cases x <;> simp [Places.count, update_apply, apply_ite Worker.holds]

theorem Places.count_timer (p : Places κ ι) (timer : Option ℕ) :
    ({ p with timer := timer } : Places κ ι).count =
      update p.count .timer timer.toList.length := by
  funext x
  cases x <;> simp [Places.count]

theorem Places.count_enqueue (hp : p.count = 0) (w : κ) :
    ({ p with queue := update p.queue w (p.queue w ++ [.item]) } : Places κ ι).count =
      Pi.single (.queue w) 1 := by
  have hw : (p.queue w).count .item = 0 := congrFun hp (.queue w)
  rw [Places.count_queue, hp, count_append, hw]
  rfl

end

section

variable (k : Backend) (ticks : ℕ → ℕ)

def State.queueSlack (s : State κ ι) : ℕ :=
  match k with
  | .freertos => 0
  | _ => waitFor ticks s.delayMs

def State.threadSlack (s : State κ ι) (delay : Option ℕ) : ℕ :=
  match k with
  | .freertos => delayTicks .freertos ticks delay
  | _ => waitFor ticks s.delayMs

def State.earliest (s : State κ ι) : Worker → ℕ
  | .picked _ => s.now + s.queueSlack k ticks
  | .decided _ true => s.now + ticks s.delayMs
  | .sleeping _ till => till
  | _ => s.now

def Worker.execute : Worker → Bool
  | .picked execute | .decided execute _ | .sleeping execute _ | .awake execute => execute
  | .ready run => run
  | _ => true

def State.Doomed (s : State κ ι) (w : κ) : Worker → Prop
  | .inHandler | .completing => True
  | x =>
    match k with
    | .posix => x.execute = false
    | .freertos => False
    | .nuttx => s.running w = false ∨ s.state ≠ .queued

def State.OnTime (s : State κ ι) (w : κ) (x : Worker) : Prop :=
  s.Doomed k w x ∨ s.due ≤ s.earliest k ticks x

def State.Bound (s : State κ ι) : Site κ ι → Prop
  | .thread i => ∃ w delay, s.thread i = .claimed w delay ∧ s.wq = some w ∧
    s.due ≤ s.now + s.threadSlack k ticks delay
  | .queue w => s.wq = some w ∧ s.due ≤ s.now + s.queueSlack k ticks
  | .worker w => s.wq = some w ∧ s.OnTime k ticks w (s.worker w)
  | .timer => ∃ till, s.timer = some till ∧ s.due ≤ till

variable [DecidableEq κ] [DecidableEq ι]

structure Timely (s : State κ ι) : Prop where
  site : s.count = 0 ∨ ∃ x, s.count = Pi.single x 1 ∧ s.Busy k ∧ s.Bound k ticks x
  starts : NotEarly s

variable {k ticks} {s t : State κ ι} {x : Site κ ι}

theorem Timely.free (h : Timely k ticks s) (hbusy : ¬s.Busy k) : s.count = 0 :=
  h.site.resolve_right fun hx => hbusy hx.choose_spec.2.1

theorem Timely.bound (h : Timely k ticks s) (hx : s.count x = 1) :
    s.count = Pi.single x 1 ∧ s.Busy k ∧ s.Bound k ticks x := by
  rcases h.site with hzero | ⟨y, hy⟩
  · rw [hzero] at hx
    cases hx
  · have hxy : x = y := by
      by_contra hne
      rw [hy.1, Pi.single_eq_of_ne hne] at hx
      cases hx
    rwa [hxy]

theorem Timely.eq_one (h : Timely k ticks s) (hx : 0 < s.count x) : s.count x = 1 := by
  rcases h.site with hzero | ⟨y, hy, -⟩
  · simp [hzero] at hx
  · by_cases hxy : x = y
    · rw [hy, hxy, Pi.single_eq_same]
    · rw [hy, Pi.single_eq_of_ne hxy] at hx
      cases hx

theorem Timely.busy (h : Timely k ticks s) (hx : s.count x = 1) : s.Busy k := (h.bound hx).2.1

theorem Timely.left (h : Timely k ticks s) (hx : s.count x = 1) : update s.count x 0 = 0 := by
  rw [(h.bound hx).1]
  simp [Pi.single]

theorem Timely.not_held (h : Timely k ticks s) (hx : s.count x = 1) {w : κ} (hne : x ≠ .worker w) :
    (s.worker w).holds = 0 := by
  show s.count (.worker w) = 0
  rw [(h.bound hx).1, Pi.single_eq_of_ne hne.symm]

theorem Timely.of_worker (h : Timely k ticks s) {w : κ} {x : Worker}
    (hw : s.count (.worker w) = 1) (hx : x.holds = 1)
    (ht : t.toPlaces = { s.toPlaces with worker := update s.worker w x })
    (hwq : t.wq = s.wq) (hdue : t.OnTime k ticks w x) (hbusy : t.Busy k)
    (hstarts : NotEarly t) : Timely k ticks t := by
  obtain ⟨hone, -, hbound⟩ := h.bound hw
  have hworker : t.worker w = x := by
    rw [ht]
    exact update_self ..
  refine ⟨.inr ⟨.worker w, ?_, hbusy, hwq.trans hbound.1, ?_⟩, hstarts⟩
  · rw [ht, Places.count_worker, hx, hone]
    exact update_idem ..
  · rwa [hworker]

structure Quiet (k : Backend) (s t : State κ ι) : Prop where
  count : t.count = s.count
  thread : ∀ i, (s.thread i).holds = 1 → t.thread i = s.thread i
  worker : ∀ w, (s.worker w).holds = 1 → t.worker w = s.worker w
  timer : t.timer = s.timer
  item : t.wq = s.wq ∧ t.due = s.due ∧ t.delayMs = s.delayMs ∧ t.starts = s.starts
  state : t.state = s.state ∧ (s.Busy k → t.Busy k)
  running : ∀ w, s.running w = false → t.running w = false
  now : s.now ≤ t.now

omit [DecidableEq κ] [DecidableEq ι] in
theorem Quiet.onTime (hq : Quiet k s t) (w : κ) (x : Worker) (hx : s.OnTime k ticks w x) :
    t.OnTime k ticks w x := by
  obtain ⟨-, hdue, hdelay, -⟩ := hq.item
  have hnow := hq.now
  refine hx.imp (fun hx => ?_) fun hx => hdue.trans_le (hx.trans ?_)
  · unfold State.Doomed at hx ⊢
    rw [hq.state.1]
    split at hx
    · trivial
    · trivial
    · cases k with
      | nuttx => exact hx.imp_left (hq.running w)
      | _ => exact hx
  · unfold State.earliest State.queueSlack
    rw [hdelay]
    split <;> omega

omit [DecidableEq κ] [DecidableEq ι] in
theorem Quiet.bound (hq : Quiet k s t) (hx : s.count x = 1) (hb : s.Bound k ticks x) :
    t.Bound k ticks x := by
  obtain ⟨hwq, hdue, hdelay, -⟩ := hq.item
  have hnow := hq.now
  cases x with
  | thread i =>
    obtain ⟨w, delay, hi, hw, hle⟩ := hb
    have hslack : t.threadSlack k ticks delay = s.threadSlack k ticks delay := by
      unfold State.threadSlack
      rw [hdelay]
    exact ⟨w, delay, (hq.thread i hx).trans hi, hwq.trans hw, by omega⟩
  | queue w =>
    have hslack : t.queueSlack k ticks = s.queueSlack k ticks := by
      unfold State.queueSlack
      rw [hdelay]
    exact ⟨hwq.trans hb.1, by have := hb.2; omega⟩
  | worker w =>
    refine ⟨hwq.trans hb.1, ?_⟩
    rw [hq.worker w hx]
    exact hq.onTime w _ hb.2
  | timer =>
    obtain ⟨till, htill, hle⟩ := hb
    exact ⟨till, hq.timer.trans htill, hdue.trans_le hle⟩

theorem Quiet.timely (hq : Quiet k s t) (h : Timely k ticks s) : Timely k ticks t := by
  refine ⟨h.site.imp hq.count.trans fun hx => ?_, ?_⟩
  · obtain ⟨x, hone, hbusy, hb⟩ := hx
    have hx : s.count x = 1 := by rw [hone, Pi.single_eq_same]
    exact ⟨x, hq.count.trans hone, hq.state.2 hbusy, hq.bound hx hb⟩
  · unfold NotEarly
    rw [hq.item.2.2.2]
    exact h.starts

end

section

variable {k : Backend} {ticks : ℕ → ℕ} {depth : ℕ} {s t : State κ ι} {i : ι} {w : κ}
  {delay : Option ℕ}

theorem delayTicks_eq (hk : k ≠ .freertos) (ticks : ℕ → ℕ) (delay : Option ℕ) :
    delayTicks k ticks delay = waitFor ticks (delay.getD 0) := by
  cases delay with
  | none => rfl
  | some d =>
    cases k with
    | freertos => exact absurd rfl hk
    | _ => rfl

variable {x : Worker}

theorem toWait_of_free (hx : x.holds = 0) (d : ℕ) : x.toWait ticks d = waitFor ticks d := by
  cases x with
  | waiting => rfl
  | other => rfl
  | _ => cases hx

theorem onTime_decided {execute b : Bool} (hdue : s.OnTime k ticks w (.picked execute))
    (hk : k ≠ .freertos) (htrue : b = true → 0 < s.delayMs)
    (hfalse : b = false → s.Doomed k w (.picked execute) ∨ s.delayMs = 0) :
    s.OnTime k ticks w (.decided execute b) := by
  have hslack : s.queueSlack k ticks = waitFor ticks s.delayMs := by
    cases k with
    | freertos => exact absurd rfl hk
    | _ => rfl
  rcases hdue with hdoom | hdue
  · exact .inl hdoom
  · simp only [State.earliest, hslack, waitFor] at hdue
    cases b with
    | true =>
      rw [if_pos (htrue rfl)] at hdue
      exact .inr hdue
    | false =>
      refine (hfalse rfl).imp id fun hzero => ?_
      rw [hzero, if_neg (Nat.lt_irrefl 0)] at hdue
      exact hdue

theorem quiet_clock (s : State κ ι) {now : ℕ} {running : κ → Bool} (hnow : s.now ≤ now)
    (hrun : ∀ w, s.running w = false → running w = false) :
    Quiet k s { s with now := now, running := running } :=
  ⟨rfl, fun _ _ => rfl, fun _ _ => rfl, rfl, ⟨rfl, rfl, rfl, rfl⟩, ⟨rfl, id⟩, hrun, hnow⟩

variable [DecidableEq κ] [DecidableEq ι]

theorem quiet_thread (s : State κ ι) (hi : (s.thread i).holds = 0) {q : Thread κ}
    (hq : q.holds = 0) (locked : κ → Bool) (returned : List (ι × Rc)) :
    Quiet k s { s with
      thread := update s.thread i q, locked := locked, returned := returned } := by
  refine ⟨?_, fun j hj => ?_, fun _ _ => rfl, rfl, ⟨rfl, rfl, rfl, rfl⟩, ⟨rfl, id⟩,
    fun _ hw => hw, le_rfl⟩
  · rw [Places.count_thread, hq, ← hi]
    exact update_eq_self (Site.thread i) s.count
  · refine update_of_ne (fun hji => ?_) ..
    rw [hji, hi] at hj
    cases hj

theorem quiet_worker (s : State κ ι) (hw : (s.worker w).holds = 0) (hx : x.holds = 0) :
    Quiet k s (s.setWorker w x) := by
  refine ⟨?_, fun _ _ => rfl, fun v hv => ?_, rfl, ⟨rfl, rfl, rfl, rfl⟩, ⟨rfl, id⟩,
    fun _ hw => hw, le_rfl⟩
  · rw [State.setWorker, Places.count_worker, hx, ← hw]
    exact update_eq_self (Site.worker w) s.count
  · refine update_of_ne (fun hvw => ?_) ..
    rw [hvw, hw] at hv
    cases hv

theorem quiet_queue (s : State κ ι) {q : List Entry}
    (hcount : q.count .item = (s.queue w).count .item) :
    Quiet k s { s with queue := update s.queue w q } := by
  refine ⟨?_, fun _ _ => rfl, fun _ _ => rfl, rfl, ⟨rfl, rfl, rfl, rfl⟩, ⟨rfl, id⟩,
    fun _ hw => hw, le_rfl⟩
  rw [Places.count_queue, hcount]
  exact update_eq_self (Site.queue w) s.count

theorem Timely.write (h : Timely .nuttx ticks s) {d : ℕ}
    (hd : s.state = .idle ∨ s.stage.toWait ticks d = s.stage.toWait ticks s.delayMs) :
    Timely .nuttx ticks { s with delayMs := d } := by
  refine ⟨h.site.imp id fun hx => ?_, h.starts⟩
  obtain ⟨x, hone, hbusy, hb⟩ := hx
  have hsame := hd.resolve_left hbusy
  have hx : s.count x = 1 := by rw [hone, Pi.single_eq_same]
  -- A worker that does not have the item will read the delay when it does.
  have hfree : ∀ w, s.wq = some w → x ≠ .worker w → waitFor ticks d = waitFor ticks s.delayMs := by
    intro w hwq hne
    have hw := h.not_held hx hne
    simpa only [State.stage, hwq, toWait_of_free hw] using hsame
  refine ⟨x, hone, hbusy, ?_⟩
  cases x with
  | thread i =>
    obtain ⟨w, delay, hi, hwq, hdue⟩ := hb
    refine ⟨w, delay, hi, hwq, ?_⟩
    simpa only [State.threadSlack, hfree w hwq (by simp)] using hdue
  | queue w =>
    refine ⟨hb.1, ?_⟩
    simpa only [State.queueSlack, hfree w hb.1 (by simp)] using hb.2
  | timer => exact hb
  | worker w =>
    obtain ⟨hwq, hdue⟩ := hb
    refine ⟨hwq, hdue.imp_right fun hdue => ?_⟩
    simp only [State.stage, hwq] at hsame
    show s.due ≤ State.earliest .nuttx ticks { s with delayMs := d } (s.worker w)
    cases hx : s.worker w with
    | picked execute =>
      rw [hx] at hsame hdue
      exact hdue.trans_eq (congrArg (s.now + ·) hsame.symm)
    | decided execute delay =>
      rw [hx] at hsame hdue
      cases delay with
      | false => exact hdue
      | true => exact hdue.trans_eq (congrArg (s.now + ·) hsame.symm)
    | _ =>
      rw [hx] at hdue
      exact hdue

theorem claim_timely (hk : k ≠ .posix) (h : Timely k ticks s) (hi : s.thread i = .entered w delay)
    (hc : k = .nuttx → s.state = .idle → s.delayMs = delay.getD 0) :
    Timely k ticks (claim k ticks s i w delay) := by
  unfold claim
  by_cases hidle : s.state = .idle
  · rw [if_pos hidle]
    have hstate :
        (if k = .freertos ∧ delay.isSome then WorkState.delayed else .queued) ≠ .idle := by
      split <;> decide
    have hcount (hzero : s.count = 0) :
        (s.setThread i (.claimed w delay)).count = Pi.single (.thread i) 1 := by
      rw [State.setThread, Places.count_thread, hzero]
      rfl
    have hthread : (s.setThread i (.claimed w delay)).thread i = .claimed w delay := update_self ..
    cases k with
    | posix => exact absurd rfl hk
    | freertos =>
      have hzero := h.free fun hbusy => hbusy hidle
      exact ⟨.inr ⟨.thread i, hcount hzero, hstate, w, delay, hthread, rfl, le_rfl⟩, h.starts⟩
    | nuttx =>
      have hzero := h.free fun hbusy => hbusy hidle
      refine ⟨.inr ⟨.thread i, hcount hzero, hstate, w, delay, hthread, rfl, ?_⟩, h.starts⟩
      simp only [State.threadSlack, State.setThread]
      rw [delayTicks_eq (by decide), hc rfl hidle]
  · rw [if_neg hidle]
    exact (quiet_thread s (by rw [hi]; rfl) rfl s.locked _).timely h

section

variable (h : Timely k ticks s) (hi : s.thread i = .claimed w delay)

include h hi

theorem count_left : ({ s.toPlaces with
    thread := update s.thread i .idle } : Places κ ι).count = 0 := by
  have hx : s.count (.thread i) = 1 := by rw [Places.count, hi]; rfl
  rw [Places.count_thread]
  exact h.left hx

theorem undo_timely (rc : Rc) : Timely k ticks (undo s i rc) := ⟨.inl (count_left h hi), h.starts⟩

theorem commit_timely (hstep : commit k ticks depth s i w delay = some t) : Timely k ticks t := by
  have hx : s.count (.thread i) = 1 := by rw [Places.count, hi]; rfl
  have hv := count_left h hi
  obtain ⟨-, hbusy, w', delay', hi', hwq, hdue⟩ := h.bound hx
  obtain ⟨rfl, rfl⟩ := Thread.claimed.inj (hi.symm.trans hi')
  have hqueue := Places.count_enqueue hv w
  cases k with
  | freertos =>
    cases delay with
    | some d =>
      cases hstep
      refine ⟨.inr ⟨.timer, ?_, hbusy, _, rfl, hdue⟩, h.starts⟩
      exact (Places.count_timer _ _).trans (congrArg (update · _ _) hv)
    | none =>
      dsimp only [commit] at hstep
      by_cases hroom : (s.queue w).length < depth
      · rw [if_pos hroom] at hstep
        cases hstep
        exact ⟨.inr ⟨.queue w, hqueue, hbusy, hwq, hdue⟩, h.starts⟩
      · rw [if_neg hroom] at hstep
        cases hstep
        exact undo_timely h hi _
  | _ =>
    obtain ⟨hroom, hstep⟩ := ite_none_left_eq_some.mp hstep
    by_cases hrun : s.running w = true
    · rw [if_pos hrun] at hstep
      cases hstep
      exact ⟨.inr ⟨.queue w, hqueue, hbusy, hwq, hdue⟩, h.starts⟩
    · rw [if_neg hrun] at hstep
      cases hstep
      exact undo_timely h hi _

end

theorem enter_timely (h : Timely k ticks s) (hi : s.thread i = .idle)
    (hc : s.state = .idle ∨ Harmless k ticks s w delay) :
    Timely k ticks (enter k depth s i w delay) := by
  have hfree : (s.thread i).holds = 0 := by rw [hi]; rfl
  have hfails (rc : Rc) : Timely k ticks (s.finish i rc) :=
    (quiet_thread s hfree rfl s.locked _).timely h
  unfold enter
  by_cases hrun : s.running w = false
  · rw [if_pos hrun]
    exact hfails _
  rw [if_neg hrun]
  cases k with
  | nuttx =>
    have hwrite := h.write (d := delay.getD 0)
      (hc.imp_right fun hc => hc rfl (Bool.eq_true_of_not_eq_false hrun))
    exact (quiet_thread { s with delayMs := delay.getD 0 } hfree rfl s.locked
      s.returned).timely hwrite
  | freertos => exact (quiet_thread s hfree rfl s.locked s.returned).timely h
  | posix =>
    dsimp only
    split_ifs
    · exact hfails _
    · exact hfails _
    · exact (quiet_thread s hfree rfl _ s.returned).timely h

theorem store_timely (h : Timely .posix ticks s) (hi : s.thread i = .entered w delay)
    (hc : ¬s.Busy .posix) : Timely .posix ticks (store ticks s i w delay) := by
  have hquiet := quiet_thread (k := .posix) s (by rw [hi]; rfl) (q := .idle) rfl s.locked s.returned
  have hqueue := Places.count_enqueue (hquiet.count.trans (h.free hc)) w
  refine ⟨.inr ⟨.queue w, hqueue, .inl rfl, rfl, ?_⟩, h.starts⟩
  simp only [store, State.enqueue, State.finish, State.queueSlack]
  rw [delayTicks_eq (by decide)]

section

variable (h : Timely k ticks s) (hw : s.count (.worker w) = 1)

include h hw

theorem setWorker_timely {x : Worker} (hx : x.holds = 1) (hdue : s.OnTime k ticks w x) :
    Timely k ticks (s.setWorker w x) :=
  h.of_worker hw hx rfl rfl hdue (h.busy hw) h.starts

theorem start_timely (hdue : s.due ≤ s.now) : Timely k ticks (s.start k w) := by
  refine h.of_worker (x := .inHandler) hw rfl rfl rfl (.inl trivial) ?_ ?_
  · cases k with
    | posix => exact h.busy hw
    | _ => exact fun hidle => by cases hidle
  · intro p hp
    rcases mem_append.mp hp with hp | hp
    · exact h.starts p hp
    · rw [mem_singleton] at hp
      rw [hp]
      exact hdue

theorem runItem_timely (hdue : s.running w = true → s.state = .queued → s.due ≤ s.now) :
    Timely k ticks (runItem k s w) := by
  unfold runItem
  split
  · rename_i hrun
    exact start_timely h hw (hdue hrun.1 hrun.2)
  · exact setWorker_timely h hw rfl (.inl trivial)

end

theorem pick_timely (h : Timely k ticks s) (hstep : pick k s w = some t) : Timely k ticks t := by
  unfold pick at hstep
  split at hstep
  · rename_i q hx hq
    cases hstep
    have hone : s.count (.queue w) = 1 := by
      have hpos : s.count (.queue w) = q.count .item + 1 := by
        rw [Places.count, hq, count_cons_self]
      exact h.eq_one (by omega)
    have hrest : q.count .item = 0 := by
      rw [Places.count, hq, count_cons_self] at hone
      omega
    obtain ⟨-, hbusy, hwq, hdue⟩ := h.bound hone
    have hv := Places.count_queue s.toPlaces w q
    rw [hrest, h.left hone] at hv
    refine ⟨.inr ⟨.worker w, ?_, ?_, hwq, .inr ?_⟩, h.starts⟩
    · exact (Places.count_worker _ w _).trans (congrArg (update · _ _) hv)
    · cases k with
      | posix => exact .inl (by simp [State.setWorker, hwq])
      | _ => exact hbusy
    · simp only [State.setWorker, update_self]
      exact hdue
  · rename_i q hx hq
    cases hstep
    have hcount : q.count .item = (s.queue w).count .item := by simp [hq]
    have hqueue := (quiet_queue (k := k) s hcount).timely h
    exact (quiet_worker _ (by rw [hx]; rfl) rfl).timely hqueue
  · cases hstep

theorem Timely.held (h : Timely k ticks s) (hx : s.worker w = x) (hheld : x.holds = 1) :
    s.count (.worker w) = 1 ∧ s.OnTime k ticks w x := by
  subst hx
  exact ⟨hheld, (h.bound (x := .worker w) hheld).2.2.2⟩

theorem advance_timely (h : Timely k ticks s) (hstep : advance k ticks s w = some t) :
    Timely k ticks t := by
  unfold advance at hstep
  cases hx : s.worker w with
  | waiting =>
    rw [hx] at hstep
    cases hstep
  | other =>
    rw [hx] at hstep
    cases hstep
    exact (quiet_worker s (by rw [hx]; rfl) rfl).timely h
  | picked execute =>
    obtain ⟨hw, hdue⟩ := h.held hx rfl
    rw [hx] at hstep
    cases k with
    | freertos =>
      cases hstep
      exact runItem_timely h hw fun _ _ => hdue.resolve_left id
    | nuttx =>
      cases hstep
      refine setWorker_timely h hw rfl (onTime_decided hdue (by decide) ?_ ?_)
      · intro hb
        exact (of_decide_eq_true hb).1
      · intro hb
        have hb := of_decide_eq_false hb
        show (s.running w = false ∨ s.state ≠ .queued) ∨ s.delayMs = 0
        by_contra hno
        push Not at hno
        exact hb ⟨Nat.pos_of_ne_zero hno.2, Bool.eq_true_of_not_eq_false hno.1.1, hno.1.2⟩
    | posix =>
      cases hstep
      refine setWorker_timely h hw rfl (onTime_decided hdue (by decide) ?_ ?_)
      · intro hb
        exact of_decide_eq_true (Bool.and_eq_true_iff.mp hb).2
      · intro hb
        rcases Bool.and_eq_false_iff.mp hb with hb | hb
        · exact .inl hb
        · exact .inr (Nat.eq_zero_of_not_pos (of_decide_eq_false hb))
  | decided execute delay =>
    obtain ⟨hw, hdue⟩ := h.held hx rfl
    rw [hx] at hstep
    cases delay <;> cases hstep <;> exact setWorker_timely h hw rfl hdue
  | sleeping execute till =>
    obtain ⟨hw, hdue⟩ := h.held hx rfl
    rw [hx] at hstep
    obtain ⟨htill, hstep⟩ := ite_none_right_eq_some.mp hstep
    cases hstep
    exact setWorker_timely h hw rfl (hdue.imp_right fun hdue => hdue.trans htill)
  | awake execute =>
    obtain ⟨hw, hdue⟩ := h.held hx rfl
    rw [hx] at hstep
    cases k with
    | posix =>
      cases hstep
      refine h.of_worker (x := .ready (execute && s.pending)) hw rfl rfl rfl ?_ ?_ h.starts
      · refine hdue.imp_left fun hdoom => ?_
        have hdoom : execute = false := hdoom
        rw [hdoom]
        rfl
      · exact .inl (by simp [State.setWorker, (h.bound hw).2.2.1])
    | _ =>
      cases hstep
      exact h.of_worker (x := .ready true) hw rfl rfl rfl hdue (h.busy hw) h.starts
  | ready run =>
    obtain ⟨hw, hdue⟩ := h.held hx rfl
    rw [hx] at hstep
    cases k with
    | freertos =>
      cases hstep
      exact runItem_timely h hw fun _ _ => hdue.resolve_left id
    | nuttx =>
      cases hstep
      refine runItem_timely h hw fun hrun hqueued => hdue.resolve_left fun hdoom => ?_
      rcases hdoom with hstop | hstate
      · exact Bool.eq_false_iff.mp hstop hrun
      · exact hstate hqueued
    | posix =>
      cases hstep
      cases run with
      | true => exact start_timely h hw (hdue.resolve_left fun hdoom => by cases hdoom)
      | false => exact setWorker_timely h hw rfl (.inl trivial)
  | inHandler =>
    rw [hx] at hstep
    cases hstep
    exact setWorker_timely h (h.held hx rfl).1 rfl (.inl trivial)
  | completing =>
    rw [hx] at hstep
    cases hstep
    exact ⟨.inl ((Places.count_worker _ w _).trans (h.left (h.held hx rfl).1)), h.starts⟩

theorem fire_timely (h : Timely .freertos ticks s) (hstep : fire depth s = some t) :
    Timely .freertos ticks t := by
  unfold fire at hstep
  cases htimer : s.timer with
  | none =>
    rw [htimer] at hstep
    cases hstep
  | some till =>
    have hx : s.count .timer = 1 := by rw [Places.count, htimer]; rfl
    have hv := (Places.count_timer s.toPlaces none).trans (h.left hx)
    obtain ⟨-, -, till', htill', hdue⟩ := h.bound hx
    obtain rfl := some.inj (htimer.symm.trans htill')
    rw [htimer] at hstep
    obtain ⟨hnow, hstep⟩ := ite_none_left_eq_some.mp hstep
    by_cases hstate : s.state ≠ .delayed
    · rw [if_pos hstate] at hstep
      cases hstep
      exact ⟨.inl hv, h.starts⟩
    rw [if_neg hstate] at hstep
    cases hwq : s.wq with
    | none =>
      rw [hwq] at hstep
      cases hstep
      exact ⟨.inl hv, h.starts⟩
    | some w =>
      rw [hwq] at hstep
      dsimp only at hstep
      by_cases hroom : s.running w = true ∧ (s.queue w).length < depth
      · rw [if_pos hroom] at hstep
        cases hstep
        have hdue : s.due ≤ s.now := hdue.trans (Nat.le_of_not_lt hnow)
        exact ⟨.inr ⟨.queue w, Places.count_enqueue hv w, WorkState.noConfusion, hwq, hdue⟩,
          h.starts⟩
      · rw [if_neg hroom] at hstep
        cases hstep
        exact ⟨.inl hv, h.starts⟩

theorem timely_step (h : Timely k ticks s) {a : Action κ ι} (hc : Orderly k ticks s a)
    (hstep : step k ticks depth s a = some t) : Timely k ticks t := by
  cases a with
  | tick =>
    cases hstep
    exact (quiet_clock s (Nat.le_succ s.now) fun _ hw => hw).timely h
  | stop v =>
    obtain ⟨-, hstep⟩ := ite_none_left_eq_some.mp hstep
    cases hstep
    refine (quiet_clock s le_rfl fun w hw => ?_).timely h
    by_cases hwv : w = v
    · rw [hwv, update_self]
    · rwa [update_of_ne hwv]
  | submitOther w =>
    obtain ⟨-, hstep⟩ := ite_none_right_eq_some.mp hstep
    cases hstep
    exact (quiet_queue s (by simp)).timely h
  | call i w delay =>
    simp only [step] at hstep
    split at hstep
    · rename_i hi
      obtain ⟨-, hstep⟩ := ite_none_left_eq_some.mp hstep
      cases hstep
      exact enter_timely h hi hc
    · cases hstep
  | claim i =>
    simp only [step] at hstep
    split at hstep
    · rename_i hi
      obtain ⟨hk, hstep⟩ := ite_none_left_eq_some.mp hstep
      cases hstep
      simp only [Orderly, hi] at hc
      exact claim_timely hk h hi hc
    · cases hstep
  | commit i =>
    simp only [step] at hstep
    split at hstep
    · rename_i hi
      obtain ⟨rfl, hstep⟩ := ite_none_right_eq_some.mp hstep
      cases hstep
      exact store_timely h hi (hc rfl)
    · rename_i hi
      exact commit_timely h hi hstep
    · cases hstep
  | abort i rc =>
    simp only [step] at hstep
    split at hstep
    · rename_i hi
      cases hstep
      exact undo_timely h hi rc
    · cases hstep
  | pick w => exact pick_timely h (ite_none_left_eq_some.mp hstep).2
  | advance w => exact advance_timely h (ite_none_left_eq_some.mp hstep).2
  | fire =>
    obtain ⟨rfl, hstep⟩ := ite_none_right_eq_some.mp hstep
    exact fire_timely h hstep

theorem timely_init : Timely k ticks (State.init : State κ ι) := by
  refine ⟨.inl (funext fun x => ?_), fun _ hp => absurd hp not_mem_nil⟩
  cases x <;> rfl

end

section

variable {k : Backend} {ticks : ℕ → ℕ} {s : State κ ι} [DecidableEq κ] [DecidableEq ι]

theorem submit_busy (hbusy : s.Busy k) (ticks : ℕ → ℕ) (depth : ℕ) (i : ι) (w : κ)
    (delay : Option ℕ) :
    submit k ticks depth s i w delay =
      if k = .nuttx ∧ s.running w = true then
        { s.finish i .errBusy with delayMs := delay.getD 0 }
      else s.finish i .errBusy := by
  cases hrun : s.running w with
  | false =>
    have henter : enter k depth s i w delay = s.finish i .errBusy := by
      simp only [enter, hrun, if_true]
    simp [submit, henter, State.finish]
  | true =>
    cases k with
    | posix =>
      have henter : enter .posix depth s i w delay = s.finish i .errBusy := by
        simp only [enter, hrun, Bool.true_eq_false, if_false]
        exact if_pos hbusy
      simp [submit, henter, State.finish]
    | freertos =>
      have hstate : s.state ≠ .idle := hbusy
      simp [submit, enter, claim, hrun, hstate, State.setThread, State.finish]
    | nuttx =>
      have hstate : s.state ≠ .idle := hbusy
      simp [submit, enter, claim, hrun, hstate, State.setThread, State.finish]

omit [DecidableEq κ] in
theorem unaffected_finish (s : State κ ι) (i : ι) (rc : Rc) :
    Unaffected k ticks s (s.finish i rc) :=
  ⟨rfl, rfl, rfl, rfl, ⟨rfl, rfl, rfl⟩, rfl⟩

omit [DecidableEq κ] in
theorem unaffected_write (s : State κ ι) (i : ι) (rc : Rc) (d : ℕ) :
    Unaffected .nuttx ticks s { s.finish i rc with delayMs := d } ↔
      s.stage.toWait ticks d = s.stage.toWait ticks s.delayMs := by
  have hremaining : State.remaining .nuttx ticks { s.finish i rc with delayMs := d } =
      s.remaining .nuttx ticks ↔ s.stage.toWait ticks d = s.stage.toWait ticks s.delayMs := by
    have hstage : State.stage { s.finish i rc with delayMs := d } = s.stage := rfl
    simp only [State.remaining, hstage]
    cases s.stage with
    | sleeping execute till => simp [Worker.toWait, State.finish]
    | _ => exact Iff.rfl
  refine Iff.trans ⟨fun h => h.remaining, fun h => ?_⟩ hremaining
  exact ⟨rfl, rfl, rfl, rfl, ⟨rfl, rfl, rfl⟩, h⟩

theorem unaffected_iff (hbusy : s.Busy k) (depth : ℕ) (i : ι) (w : κ) (delay : Option ℕ) :
    Unaffected k ticks s (submit k ticks depth s i w delay) ↔ Harmless k ticks s w delay := by
  rw [submit_busy hbusy]
  by_cases hwrites : k = .nuttx ∧ s.running w = true
  · rw [if_pos hwrites]
    obtain ⟨rfl, hrun⟩ := hwrites
    rw [unaffected_write]
    exact ⟨fun h _ _ => h, fun h => h rfl hrun⟩
  · rw [if_neg hwrites]
    exact iff_of_true (unaffected_finish s i _) fun hk hrun => absurd ⟨hk, hrun⟩ hwrites

theorem returned_busy (hbusy : s.Busy k) (depth : ℕ) (i : ι) (w : κ) (delay : Option ℕ) :
    (submit k ticks depth s i w delay).returned = s.returned ++ [(i, .errBusy)] := by
  rw [submit_busy hbusy]
  split <;> rfl

end

variable [DecidableEq κ] [DecidableEq ι]

/-- A call for a pending item returns an error and leaves it as it was if and only if it is
harmless; along orderly runs the handler is never early. -/
theorem pending_kept (k : Backend) (ticks : ℕ → ℕ) (depth : ℕ) :
    (∀ (s : State κ ι) (i : ι) (w : κ) (delay : Option ℕ), s.Busy k →
      (submit k ticks depth s i w delay).returned = s.returned ++ [(i, .errBusy)] ∧
      (Unaffected k ticks s (submit k ticks depth s i w delay) ↔ Harmless k ticks s w delay)) ∧
    ∀ as : List (Action κ ι), Each (step k ticks depth) (Orderly k ticks) State.init as →
      Always (step k ticks depth) NotEarly State.init as := by
  constructor
  · intro s i w delay hbusy
    exact ⟨returned_busy hbusy depth i w delay, unaffected_iff hbusy depth i w delay⟩
  · intro as hc
    have hrun := always_of_each (P := Timely k ticks)
      (fun _ _ _ hs hc hstep => timely_step hs hc hstep) timely_init hc
    exact hrun.mono fun _ hs => hs.starts

theorem pending_kept_same_delay :
    Each (step .nuttx id 1) (Orderly .nuttx id) (State.init : State (Fin 1) (Fin 2))
        ([.call 0 0 (some 5), .claim 0, .commit 0, .call 1 0 (some 5), .claim 1, .pick 0,
          .advance 0, .advance 0] ++ replicate 5 .tick ++ replicate 3 (.advance 0)) ∧
      Always (step .nuttx id 1) NotEarly (State.init : State (Fin 1) (Fin 2))
        ([.call 0 0 (some 5), .claim 0, .commit 0, .call 1 0 (some 5), .claim 1, .pick 0,
          .advance 0, .advance 0] ++ replicate 5 .tick ++ replicate 3 (.advance 0)) :=
  ⟨by decide +kernel, (pending_kept .nuttx id 1).2 _ (by decide +kernel)⟩

theorem failed_submit_drops_delay :
    (([.call 0 0 (some 5), .claim 0, .commit 0] : List (Action (Fin 1) (Fin 2))).foldlM
        (step .nuttx id 1) State.init).map (State.remaining .nuttx id) = some 5 ∧
    (([.call 0 0 (some 5), .claim 0, .commit 0, .call 1 0 none, .claim 1] :
        List (Action (Fin 1) (Fin 2))).foldlM (step .nuttx id 1) State.init).map
        (fun s => (s.returned, s.remaining .nuttx id)) =
      some ([(0, .ok), (1, .errBusy)], 0) ∧
    ¬Always (step .nuttx id 1) NotEarly (State.init : State (Fin 1) (Fin 2))
      ([.call 0 0 (some 5), .claim 0, .commit 0, .call 1 0 none, .claim 1, .pick 0] ++
        replicate 4 (.advance 0)) := by
  refine ⟨by decide +kernel, by decide +kernel, fun h => ?_⟩
  have hlast := h.last (t := _) rfl
  exact absurd (hlast (5, 0) (by decide +kernel)) (by decide)

end Overtos.Work.Pending
