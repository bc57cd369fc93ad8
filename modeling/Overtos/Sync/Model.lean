import Overtos.Lib.Runs

/-! Events and condition variables of the FreeRTOS backend, which share one notification counter per
task. -/
namespace Overtos.Sync
open Function

structure Node (ι : Type) where
  task : ι
  call : ℕ
  deriving DecidableEq

/-- `forever` tells `OVE_WAIT_FOREVER` from a finite timeout, `got` whether a notification woke a
wait. A broadcast keeps the nodes it has still to read. -/
inductive Pos (ι ε κ μ : Type) where
  | idle
  | dropStale (e : ε) (forever : Bool)
  | register (e : ε) (forever : Bool)
  | check (e : ε) (forever : Bool)
  | block (e : ε) (forever : Bool)
  | recheck (e : ε) (forever got : Bool)
  | deregister (e : ε) (ok : Bool)
  | storeLatch (e : ε)
  | loadWaiter (e : ε)
  | giveEvent (e : ε) (task : ι)
  | link (cv : κ) (mtx : μ) (forever : Bool)
  | release (cv : κ) (mtx : μ) (forever : Bool) (self : Node ι)
  | sleep (cv : κ) (mtx : μ) (forever : Bool) (self : Node ι)
  | unlink (cv : κ) (mtx : μ) (self : Node ι)
  | consume (mtx : μ) (self : Node ι)
  | reacquire (mtx : μ) (self : Node ι) (got : Bool)
  | detachOne (cv : κ)
  | giveOne (task : ι)
  | detachAll (cv : κ)
  | giveNext (rest : List (Node ι))
  | advance (rest : List (Node ι))
  | lock (mtx : μ) (forever : Bool)
  | unlock (mtx : μ)

structure Memory (ι ε κ μ : Type) where
  count : ι → ℕ
  signaled : ε → Bool
  waiter : ε → Option ι
  waiters : κ → List (Node ι)
  owner : μ → Option ι
  nodes : ℕ
  now : ℕ
  stored : ε → ℕ
  taken : ε → ℕ
  consumed : ε → ℕ
  previous : ε → ℕ
  returned : ε → ℕ

variable {ι ε κ μ : Type}

def Memory.init : Memory ι ε κ μ where
  count _ := 0
  signaled _ := false
  waiter _ := none
  waiters _ := []
  owner _ := none
  nodes := 0
  now := 1
  stored _ := 0
  taken _ := 0
  consumed _ := 0
  previous _ := 0
  returned _ := 0

section

variable [DecidableEq ι] [DecidableEq ε] [DecidableEq κ] [DecidableEq μ]

namespace Memory

def clear (m : Memory ι ε κ μ) (i : ι) : Memory ι ε κ μ := { m with count := update m.count i 0 }

def give (m : Memory ι ε κ μ) (i : ι) : Memory ι ε κ μ :=
  { m with count := update m.count i (m.count i + 1) }

def takeLatch (m : Memory ι ε κ μ) (e : ε) : Memory ι ε κ μ :=
  { m with
    signaled := update m.signaled e false
    consumed := update m.consumed e (m.stored e)
    previous := update m.previous e (m.taken e)
    taken := update m.taken e m.now }

def storeLatch (m : Memory ι ε κ μ) (e : ε) : Memory ι ε κ μ :=
  { m with
    signaled := update m.signaled e true
    stored := update m.stored e m.now }

def setWaiter (m : Memory ι ε κ μ) (e : ε) (w : Option ι) : Memory ι ε κ μ :=
  { m with waiter := update m.waiter e w }

def returnFrom (m : Memory ι ε κ μ) (e : ε) (ok : Bool) : Memory ι ε κ μ :=
  { m with returned := update m.returned e (if ok then m.now else m.returned e) }

def setWaiters (m : Memory ι ε κ μ) (cv : κ) (ns : List (Node ι)) : Memory ι ε κ μ :=
  { m with waiters := update m.waiters cv ns }

def linkNode (m : Memory ι ε κ μ) (cv : κ) (n : Node ι) : Memory ι ε κ μ :=
  { m with
    waiters := update m.waiters cv (n :: m.waiters cv)
    nodes := m.nodes + 1 }

def setOwner (m : Memory ι ε κ μ) (mtx : μ) (o : Option ι) : Memory ι ε κ μ :=
  { m with owner := update m.owner mtx o }

def giveMutex (m : Memory ι ε κ μ) (mtx : μ) (i : ι) : Memory ι ε κ μ :=
  m.setOwner mtx (if m.owner mtx = some i then none else m.owner mtx)

end Memory

/-- One step of task `i`. Where a wait can time out, it does so if `ok` is false. -/
def taskStep (m : Memory ι ε κ μ) (i : ι) (ok : Bool) :
    Pos ι ε κ μ → Option (Memory ι ε κ μ × Pos ι ε κ μ)
  | .idle => none
  -- `ove_event_wait`
  | .dropStale e forever => some (m.clear i, .register e forever)
  | .register e forever => some (m.setWaiter e (some i), .check e forever)
  | .check e forever =>
    if m.signaled e then some (m.takeLatch e, .deregister e true)
    else if ok = false ∧ forever = false then some (m, .deregister e false)
    else some (m, .block e forever)
  | .block e forever =>
    if 0 < m.count i then some (m.clear i, .recheck e forever true)
    else if ok = false ∧ forever = false then some (m, .recheck e forever false)
    else none
  | .recheck e forever got =>
    if m.signaled e then some (m.takeLatch e, .deregister e true)
    else if got then some (m, .check e forever)
    else some (m, .deregister e false)
  | .deregister e ok => some ((m.setWaiter e none).returnFrom e ok, .idle)
  -- `ove_event_signal` and `ove_event_signal_from_isr`
  | .storeLatch e => some (m.storeLatch e, .loadWaiter e)
  | .loadWaiter e =>
    match m.waiter e with
    | none => some (m, .idle)
    | some w => some (m, .giveEvent e w)
  | .giveEvent _ w => some (m.give w, .idle)
  -- `ove_condvar_wait`
  | .link cv mtx forever =>
    some (m.linkNode cv ⟨i, m.nodes⟩, .release cv mtx forever ⟨i, m.nodes⟩)
  | .release cv mtx forever self => some (m.giveMutex mtx i, .sleep cv mtx forever self)
  | .sleep cv mtx forever self =>
    if 0 < m.count i then some (m.clear i, .reacquire mtx self true)
    else if ok = false ∧ forever = false then some (m, .unlink cv mtx self)
    else none
  | .unlink cv mtx self =>
    if self ∈ m.waiters cv then
      some (m.setWaiters cv ((m.waiters cv).erase self), .reacquire mtx self false)
    else some (m, .consume mtx self)
  | .consume mtx self => some (m.clear i, .reacquire mtx self true)
  | .reacquire mtx _ _ =>
    if m.owner mtx = none then some (m.setOwner mtx (some i), .idle) else none
  -- `ove_condvar_signal`
  | .detachOne cv =>
    match m.waiters cv with
    | [] => some (m, .idle)
    | n :: ns => some (m.setWaiters cv ns, .giveOne n.task)
  | .giveOne w => some (m.give w, .idle)
  -- `ove_condvar_broadcast`
  | .detachAll cv => some (m.setWaiters cv [], .giveNext (m.waiters cv))
  | .giveNext [] => some (m, .idle)
  | .giveNext (n :: ns) => some (m.give n.task, .advance (n :: ns))
  | .advance [] => none
  | .advance (_ :: ns) => some (m, .giveNext ns)
  -- `ove_mutex_lock` and `ove_mutex_unlock`
  | .lock mtx forever =>
    if m.owner mtx = none then some (m.setOwner mtx (some i), .idle)
    else if ok = false ∧ forever = false then some (m, .idle)
    else none
  | .unlock mtx => some (m.giveMutex mtx i, .idle)

end

inductive Call (ε κ μ : Type) where
  | eventWait (e : ε) (forever : Bool)
  | eventSignal (e : ε)
  | condvarWait (cv : κ) (mtx : μ) (forever : Bool)
  | condvarSignal (cv : κ)
  | condvarBroadcast (cv : κ)
  | mutexLock (mtx : μ) (forever : Bool)
  | mutexUnlock (mtx : μ)

def Call.first : Call ε κ μ → Pos ι ε κ μ
  | .eventWait e forever => .dropStale e forever
  | .eventSignal e => .storeLatch e
  | .condvarWait cv mtx forever => .link cv mtx forever
  | .condvarSignal cv => .detachOne cv
  | .condvarBroadcast cv => .detachAll cv
  | .mutexLock mtx forever => .lock mtx forever
  | .mutexUnlock mtx => .unlock mtx

structure System (ι ε κ μ : Type) where
  memory : Memory ι ε κ μ
  pos : ι → Pos ι ε κ μ

inductive Action (ι ε κ μ : Type) where
  | call (i : ι) (c : Call ε κ μ)
  | run (i : ι) (ok : Bool)

def System.init : System ι ε κ μ := ⟨.init, fun _ => .idle⟩

variable [DecidableEq ι]

def System.move (s : System ι ε κ μ) (i : ι) (r : Memory ι ε κ μ × Pos ι ε κ μ) :
    System ι ε κ μ :=
  ⟨{ r.1 with now := s.memory.now + 1 }, update s.pos i r.2⟩

variable {s : System ι ε κ μ} {r : Memory ι ε κ μ × Pos ι ε κ μ}

theorem move_pos_self {i : ι} : (s.move i r).pos i = r.2 := update_self ..

theorem move_pos_of_ne {i j : ι} (h : j ≠ i) : (s.move i r).pos j = s.pos j := update_of_ne h ..

variable [DecidableEq ε] [DecidableEq κ] [DecidableEq μ]

def step (s : System ι ε κ μ) : Action ι ε κ μ → Option (System ι ε κ μ)
  | .call i c =>
    match s.pos i with
    | .idle => some (s.move i (s.memory, c.first))
    | _ => none
  | .run i ok => (taskStep s.memory i ok (s.pos i)).map (s.move i)

end Overtos.Sync
