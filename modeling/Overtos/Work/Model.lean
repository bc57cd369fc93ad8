import Overtos.Lib.Runs

/-! One item of the FreeRTOS and NuttX work queues, one atomic step at a time. The queue is running
throughout. -/
namespace Overtos.Work

inductive Kernel where
  | freertos
  | nuttx
  deriving DecidableEq

inductive WorkState where
  | idle
  | delayed
  | queued
  | running
  | cancelled
  deriving DecidableEq

inductive Entry where
  | item
  | other
  deriving DecidableEq

inductive Completion where
  | clear
  | store
  | give
  deriving DecidableEq

inductive Worker where
  | waiting
  | other
  | received
  | delaying
  | awake
  | ready
  | inHandler
  | completing (c : Completion)
  deriving DecidableEq

inductive Daemon where
  | idle
  | entered
  | fetched (target : Bool)
  | moved (target : Bool)
  | completing (c : Completion)
  deriving DecidableEq

/-- The submit functions up to `undoState`, then `ove_work_cancel`, then the rest of
`ove_work_deinit`. -/
inductive Thread where
  | idle
  | claim (delayed : Bool)
  | setTarget (delayed : Bool)
  | send
  | armTimer
  | startTimer
  | undoTarget (delayed : Bool)
  | undoState (delayed : Bool)
  | look (deinit : Bool)
  | tryCancel (deinit : Bool) (seen : WorkState)
  | stopTimer (deinit : Bool)
  | drain (deinit : Bool)
  | completing (deinit : Bool) (c : Completion)
  | checkSem (deinit : Bool)
  | recheck (deinit : Bool)
  | take (deinit : Bool)
  | deleteTimer
  | drainDeleted
  | dropTimer
  | destroySem
  | dropHandler
  deriving DecidableEq

/-- The last four fields are a record: the handler's invocations since the item last left
`WORK_IDLE`, those in progress, whether a canceller has won the item since, and whether a cancel or
deinit has returned since. -/
structure Shared where
  state : WorkState
  target : Bool
  handler : Bool
  delayMs : ℕ
  timer : Option Bool
  tokens : ℕ
  semInited : Bool
  queue : List Entry
  worker : Worker
  daemon : Daemon
  runs : ℕ
  active : ℕ
  cancelled : Bool
  released : Bool

def Shared.init : Shared :=
  ⟨.idle, false, true, 0, none, 0, true, [], .waiting, .idle, 0, 0, false, false⟩

namespace Shared

def claimed (m : Shared) (delayed : Bool) : Shared :=
  { m with
    state := if delayed then .delayed else .queued
    runs := 0
    cancelled := false
    released := false }

def enqueue (m : Shared) : Shared := { m with queue := m.queue ++ [.item] }

def tokensAfterGive (k : Kernel) (m : Shared) : ℕ :=
  match k with
  | .freertos => 1
  | .nuttx => if m.semInited then m.tokens + 1 else m.tokens

def workComplete (k : Kernel) (m : Shared) : Completion → Shared
  | .clear => { m with target := false }
  | .store => { m with state := .idle }
  | .give => { m with tokens := m.tokensAfterGive k }

def returned (m : Shared) (deinit : Bool) : Shared :=
  { m with released := m.released || (!deinit && decide (m.state = .idle)) }

@[simp] theorem returned_released (m : Shared) (deinit : Bool) :
    (m.returned deinit).released = true ↔
      m.released = true ∨ deinit = false ∧ m.state = .idle := by
  simp [returned]

@[simp] theorem returned_timer (m : Shared) (deinit : Bool) :
    (m.returned deinit).timer = m.timer := rfl

def runHandler (m : Shared) : Shared :=
  { m with state := .running, worker := .inHandler, runs := m.runs + 1, active := m.active + 1 }

end Shared

def Worker.afterCompletion : Completion → Worker
  | .clear => .completing .store
  | .store => .completing .give
  | .give => .waiting

def receiveStep (k : Kernel) (m : Shared) : Option Shared :=
  match m.worker with
  | .waiting =>
    match m.queue with
    | [] => none
    | .item :: q => some { m with queue := q, worker := .received }
    | .other :: q => some { m with queue := q, worker := .other }
  | .other => some { m with worker := .waiting }
  | .inHandler => some { m with worker := .completing .clear, active := m.active - 1 }
  | .completing c => some { m.workComplete k c with worker := Worker.afterCompletion c }
  | _ => none

def wqThread (m : Shared) : Option Shared :=
  match m.worker with
  | .received =>
    if m.state = .queued then
      if m.handler then some m.runHandler
      else some { m with state := .running, worker := .completing .clear }
    else some { m with worker := .completing .clear }
  | _ => receiveStep .freertos m

def wqTaskFn (m : Shared) : Option Shared :=
  match m.worker with
  | .received =>
    if 0 < m.delayMs ∧ m.state = .queued then some { m with worker := .delaying }
    else some { m with worker := .awake }
  | .delaying => some { m with worker := .awake }
  | .awake => some { m with delayMs := 0, worker := .ready }
  | .ready =>
    if m.state = .queued then some m.runHandler
    else some { m with worker := .completing .clear }
  | _ => receiveStep .nuttx m

def workerStep (k : Kernel) (m : Shared) : Option Shared :=
  match k with
  | .freertos => wqThread m
  | .nuttx => wqTaskFn m

def Worker.hasItem : Worker → Bool
  | .waiting | .other => false
  | _ => true

def Worker.unclaimed : Worker → Bool
  | .received | .delaying | .awake | .ready => true
  | _ => false

inductive WorkerMove (k : Kernel) (m : Shared) : Shared → Prop where
  | takeItem {q : List Entry} (hw : m.worker = .waiting) (hq : m.queue = .item :: q) :
    WorkerMove k m { m with queue := q, worker := .received }
  | takeOther {q : List Entry} (hw : m.worker = .waiting) (hq : m.queue = .other :: q) :
    WorkerMove k m { m with queue := q, worker := .other }
  | doneOther (hw : m.worker = .other) : WorkerMove k m { m with worker := .waiting }
  | delay {w : Worker} {d : ℕ} (hm : m.worker.unclaimed = true) (hw : w.unclaimed = true) :
    WorkerMove k m { m with worker := w, delayMs := d }
  | run (hm : m.worker.unclaimed = true) (hs : m.state = .queued) : WorkerMove k m m.runHandler
  | noHandler (hm : m.worker.unclaimed = true) (hs : m.state = .queued) :
    WorkerMove k m { m with state := .running, worker := .completing .clear }
  | skip (hm : m.worker.unclaimed = true) (hs : m.state ≠ .queued) :
    WorkerMove k m { m with worker := .completing .clear }
  | handled (hw : m.worker = .inHandler) :
    WorkerMove k m { m with worker := .completing .clear, active := m.active - 1 }
  | complete (c : Completion) (hw : m.worker = .completing c) :
    WorkerMove k m { m.workComplete k c with worker := Worker.afterCompletion c }

variable {m n : Shared}

theorem receiveStep_move {k : Kernel} (hs : receiveStep k m = some n) : WorkerMove k m n := by
  revert hs
  fun_cases receiveStep k m
  all_goals
    intro hs
    cases hs
  · exact .takeItem ‹_› ‹_›
  · exact .takeOther ‹_› ‹_›
  · exact .doneOther ‹_›
  · exact .handled ‹_›
  · exact .complete _ ‹_›

theorem wqThread_move (hs : wqThread m = some n) : WorkerMove .freertos m n := by
  unfold wqThread at hs
  split at hs
  next hw =>
    have hm : m.worker.unclaimed = true := by rw [hw]; rfl
    split_ifs at hs <;> cases hs
    · exact .run hm ‹_›
    · exact .noHandler hm ‹_›
    · exact .skip hm ‹_›
  next => exact receiveStep_move hs

theorem wqTaskFn_move (hs : wqTaskFn m = some n) : WorkerMove .nuttx m n := by
  unfold wqTaskFn at hs
  split at hs
  next hw =>
    have hm : m.worker.unclaimed = true := by rw [hw]; rfl
    split_ifs at hs <;> cases hs <;> exact .delay hm rfl
  next hw =>
    cases hs
    exact .delay (by rw [hw]; rfl) rfl
  next hw =>
    cases hs
    exact .delay (by rw [hw]; rfl) rfl
  next hw =>
    have hm : m.worker.unclaimed = true := by rw [hw]; rfl
    split_ifs at hs <;> cases hs
    · exact .run hm ‹_›
    · exact .skip hm ‹_›
  next => exact receiveStep_move hs

theorem workerStep_move {k : Kernel} (hs : workerStep k m = some n) : WorkerMove k m n := by
  cases k with
  | freertos => exact wqThread_move hs
  | nuttx => exact wqTaskFn_move hs

def Daemon.afterCompletion : Completion → Daemon
  | .clear => .completing .store
  | .store => .completing .give
  | .give => .idle

def delayTimerCb (depth : ℕ) (m : Shared) : Option Shared :=
  match m.daemon with
  | .idle =>
    if m.timer = some true then some { m with timer := some false, daemon := .entered } else none
  | .entered => some { m with daemon := .fetched m.target }
  | .fetched target =>
    if m.state = .delayed then some { m with state := .queued, daemon := .moved target }
    else some { m with daemon := .idle }
  | .moved target =>
    if target = true ∧ m.queue.length < depth then some { m.enqueue with daemon := .idle }
    else some { m with daemon := .completing .clear }
  | .completing c => some { m.workComplete .freertos c with daemon := Daemon.afterCompletion c }

namespace Kernel

def cancels : Kernel → WorkState → Bool
  | .freertos, .delayed => true
  | _, .queued => true
  | _, _ => false

def waitForCompletion : Kernel → Bool → Thread
  | .freertos, deinit => .recheck deinit
  | .nuttx, deinit => .checkSem deinit

/-- A failed compare-and-swap in `ove_work_cancel` is retried on FreeRTOS only. -/
def lostRace : Kernel → Bool → Thread
  | .freertos, deinit => .look deinit
  | .nuttx, deinit => .checkSem deinit

def afterCancel : Kernel → Bool → Thread
  | _, false => .idle
  | .freertos, true => .deleteTimer
  | .nuttx, true => .destroySem

/-- FreeRTOS gives up on a full queue. NuttX waits for room, and gives up if the wait fails. -/
def send (k : Kernel) (depth : ℕ) (m : Shared) (ok : Bool) : Option (Shared × Thread) :=
  match k with
  | .freertos =>
    if m.queue.length < depth then some (m.enqueue, .idle) else some (m, .undoTarget false)
  | .nuttx =>
    if ok = false then some (m, .undoTarget false)
    else if m.queue.length < depth then some (m.enqueue, .idle)
    else none

end Kernel

def threadStep (k : Kernel) (depth : ℕ) (m : Shared) (ok : Bool) :
    Thread → Option (Shared × Thread)
  | .idle => none
  | .claim delayed =>
    if m.state = .idle then some (m.claimed delayed, .setTarget delayed) else some (m, .idle)
  | .setTarget true => some ({ m with target := true }, .armTimer)
  | .setTarget false => some ({ m with target := true }, .send)
  | .send => k.send depth m ok
  | .armTimer =>
    if ok = false then some (m, .undoTarget true)
    else if m.timer = none then some ({ m with timer := some false }, .startTimer)
    else some ({ m with timer := some true }, .idle)
  | .startTimer =>
    if ok = false then some (m, .undoTarget true)
    else some ({ m with timer := m.timer.map fun _ => true }, .idle)
  | .undoTarget delayed => some ({ m with target := false }, .undoState delayed)
  | .undoState _ => some ({ m with state := .idle }, .idle)
  | .look deinit =>
    if m.state = .idle then some (m.returned deinit, k.afterCancel deinit)
    else if k.cancels m.state then some (m, .tryCancel deinit m.state)
    else some (m, k.waitForCompletion deinit)
  | .tryCancel deinit seen =>
    if m.state = seen then
      some ({ m with state := .cancelled, cancelled := true },
        if seen = .delayed then .stopTimer deinit else k.waitForCompletion deinit)
    else some (m, k.lostRace deinit)
  | .stopTimer deinit => some ({ m with timer := m.timer.map fun _ => false }, .drain deinit)
  -- the drain returns once the daemon is out of the callback
  | .drain deinit => if m.daemon = .idle then some (m, .completing deinit .clear) else none
  | .completing deinit .clear => some (m.workComplete k .clear, .completing deinit .store)
  | .completing deinit .store => some (m.workComplete k .store, .completing deinit .give)
  | .completing deinit .give =>
    some ((m.workComplete k .give).returned deinit, k.afterCancel deinit)
  | .checkSem deinit =>
    if m.semInited then some (m, .recheck deinit)
    else some (m.returned deinit, k.afterCancel deinit)
  | .recheck deinit =>
    if m.state = .idle then some (m.returned deinit, k.afterCancel deinit)
    else some (m, .take deinit)
  | .take deinit =>
    if 0 < m.tokens then some ({ m with tokens := m.tokens - 1 }, .recheck deinit) else none
  | .deleteTimer =>
    if m.timer = none then some (m, .dropHandler)
    else some ({ m with timer := some false }, .drainDeleted)
  | .drainDeleted => if m.daemon = .idle then some (m, .dropTimer) else none
  | .dropTimer => some ({ m with timer := none }, .dropHandler)
  | .destroySem => some ({ m with semInited := false }, .dropHandler)
  | .dropHandler => some (Shared.returned { m with handler := false } false, .idle)

section

variable {k : Kernel} {depth : ℕ} {m : Shared} {ok : Bool} {p : Thread} {r : Shared × Thread}

theorem send_cases (hs : k.send depth m ok = some r) :
    r = (m, .undoTarget false) ∨ m.queue.length < depth ∧ r = (m.enqueue, .idle) := by
  cases k with
  | freertos =>
    simp only [Kernel.send] at hs
    split at hs <;> cases hs
    · exact .inr ⟨‹_›, rfl⟩
    · exact .inl rfl
  | nuttx =>
    simp only [Kernel.send] at hs
    split_ifs at hs <;> cases hs
    · exact .inl rfl
    · exact .inr ⟨‹_›, rfl⟩

theorem threadStep_frame (hs : threadStep k depth m ok p = some r) :
    r.1.worker = m.worker ∧ r.1.daemon = m.daemon ∧ r.1.active = m.active := by
  revert hs
  fun_cases threadStep k depth m ok p
  case case6 =>
    intro hs
    obtain rfl | ⟨-, rfl⟩ := send_cases hs <;> exact ⟨rfl, rfl, rfl⟩
  all_goals
    intro hs
    cases hs
  all_goals exact ⟨rfl, rfl, rfl⟩

end

inductive Call where
  | submit
  | submitDelayed (delayMs : ℕ)
  | cancel
  | deinit
  deriving DecidableEq

/-- NuttX writes the delay before it tries to claim the item. -/
def Call.enter (k : Kernel) (m : Shared) : Call → Shared × Thread
  | .submit =>
    match k with
    | .freertos => (m, .claim false)
    | .nuttx => ({ m with delayMs := 0 }, .claim false)
  | .submitDelayed delayMs =>
    match k with
    | .freertos => (m, .claim true)
    | .nuttx => ({ m with delayMs := delayMs }, .claim false)
  | .cancel => (m, .look false)
  | .deinit => (m, .look true)

structure System (ι : Type) where
  shared : Shared
  threads : ι → Thread

inductive Action (ι : Type) where
  | call (i : ι) (c : Call)
  | thread (i : ι) (ok : Bool)
  | worker
  | timer
  | other
  deriving DecidableEq

variable {ι : Type} [DecidableEq ι]

def System.move (s : System ι) (i : ι) (r : Shared × Thread) : System ι :=
  ⟨r.1, Function.update s.threads i r.2⟩

def step (k : Kernel) (depth : ℕ) (s : System ι) : Action ι → Option (System ι)
  | .call i c => if s.threads i = .idle then some (s.move i (c.enter k s.shared)) else none
  | .thread i ok => (threadStep k depth s.shared ok (s.threads i)).map (s.move i)
  | .worker => (workerStep k s.shared).map fun m => { s with shared := m }
  | .timer => (delayTimerCb depth s.shared).map fun m => { s with shared := m }
  | .other =>
    if s.shared.queue.length < depth then
      some { s with shared := { s.shared with queue := s.shared.queue ++ [.other] } }
    else none

def System.init : System ι := ⟨.init, fun _ => .idle⟩

end Overtos.Work
