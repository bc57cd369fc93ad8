import Overtos.Lib.Runs
import Overtos.Lib.Word

/-! The Rust channel over `ove_queue`, an atomic bounded FIFO: cloneable handles, counted in two
atomics. -/
namespace Overtos.Channels
open Word Function Option

inductive Side where
  | tx | rx
  deriving DecidableEq, Repr

inductive Error where
  | netClosed | queueFull
  deriving DecidableEq, Repr

inductive TryRecvError where
  | empty | disconnected
  deriving DecidableEq, Repr

inductive Ret (α : Type*) where
  | send (r : Except Error Unit)
  | recv (r : Except Error α)
  | tryRecv (r : Except TryRecvError α)

inductive Call (α : Type*) where
  | send (item : α)
  | trySend (item : α)
  | recv
  | tryRecv

inductive Pc (α : Type*) where
  | sendLoad (item : α)
  | queueSend (item : α)
  | trySendLoad (item : α)
  | queueTrySend (item : α)
  | recvTry
  | recvLoad
  | queueRecv
  | tryRecvTry
  | tryRecvLoad

def Call.entry {α : Type*} : Call α → Pc α
  | .send x => .sendLoad x
  | .trySend x => .trySendLoad x
  | .recv => .recvTry
  | .tryRecv => .tryRecvTry

def Pc.side {α : Type*} : Pc α → Side
  | .sendLoad _ | .queueSend _ | .trySendLoad _ | .queueTrySend _ => .tx
  | .recvTry | .recvLoad | .queueRecv | .tryRecvTry | .tryRecvLoad => .rx

inductive Task (α : Type*) where
  | idle (last : Option (Ret α))
  | busy (h : ℕ) (pc : Pc α)

structure Half where
  live : Finset ℕ
  count : ℕ
  deriving DecidableEq

/-- The channel and the `K` tasks that use it; `sent` and `received` record what the queue took and
gave. -/
structure Channel (α : Type*) (K : ℕ) where
  queue : List α
  half : Side → Half
  task : Fin K → Task α
  sent : List α
  received : List α

section
variable {α : Type*} {K : ℕ}

inductive Move (α : Type*) where
  | stay
  | push (x : α)
  | pop (x : α)

inductive Next (α : Type*) where
  | goto (pc : Pc α)
  | ret (r : Ret α)

def Next.task (h : ℕ) : Next α → Task α
  | .goto pc => .busy h pc
  | .ret r => .idle (some r)

def Pc.exec (N : ℕ) (s : Channel α K) : Pc α → Option (Move α × Next α)
  | .sendLoad x => some (.stay,
      if (s.half .rx).count = 0 then .ret (.send (.error .netClosed)) else .goto (.queueSend x))
  | .queueSend x => if s.queue.length < N then some (.push x, .ret (.send (.ok ()))) else none
  | .trySendLoad x => some (.stay,
      if (s.half .rx).count = 0 then .ret (.send (.error .netClosed)) else .goto (.queueTrySend x))
  | .queueTrySend x => some (
      if s.queue.length < N then (.push x, .ret (.send (.ok ())))
      else (.stay, .ret (.send (.error .queueFull))))
  | .recvTry => some (match s.queue with
      | x :: _ => (.pop x, .ret (.recv (.ok x)))
      | [] => (.stay, .goto .recvLoad))
  | .recvLoad => some (.stay,
      if (s.half .tx).count = 0 then .ret (.recv (.error .netClosed)) else .goto .queueRecv)
  | .queueRecv => match s.queue with
      | x :: _ => some (.pop x, .ret (.recv (.ok x)))
      | [] => none
  | .tryRecvTry => some (match s.queue with
      | x :: _ => (.pop x, .ret (.tryRecv (.ok x)))
      | [] => (.stay, .goto .tryRecvLoad))
  | .tryRecvLoad => some (.stay, .ret (.tryRecv (.error
      (if (s.half .tx).count = 0 then .disconnected else .empty))))

def Channel.move (s : Channel α K) : Move α → Channel α K
  | .stay => s
  | .push x => { s with queue := s.queue ++ [x], sent := s.sent ++ [x] }
  | .pop x => { s with queue := s.queue.tail, received := s.received ++ [x] }

def Channel.setTask (s : Channel α K) (i : Fin K) (p : Task α) : Channel α K :=
  { s with task := update s.task i p }

def Channel.setHalf (s : Channel α K) (d : Side) (p : Half) : Channel α K :=
  { s with half := update s.half d p }

def Half.clone (bits : ℕ) (p : Half) (h : ℕ) : Half := ⟨insert h p.live, wrap bits (p.count + 1)⟩

def Half.drop (bits : ℕ) (p : Half) (h : ℕ) : Half :=
  ⟨p.live.erase h, wrap bits (p.count + (2 ^ bits - 1))⟩

def Task.uses (d : Side) (h : ℕ) : Task α → Bool
  | .idle _ => false
  | .busy h' pc => pc.side = d ∧ h' = h

def Task.isIdle : Task α → Bool
  | .idle _ => true
  | .busy _ _ => false

inductive Act (α : Type*) (K : ℕ) where
  | clone (d : Side) (h h' : ℕ)
  | drop (d : Side) (h : ℕ)
  | call (i : Fin K) (h : ℕ) (c : Call α)
  | run (i : Fin K)

def step (N bits : ℕ) (s : Channel α K) : Act α K → Option (Channel α K)
  | .clone d h h' =>
    if h ∈ (s.half d).live ∧ h' ∉ (s.half d).live then
      some (s.setHalf d ((s.half d).clone bits h'))
    else none
  | .drop d h =>
    if h ∈ (s.half d).live ∧ ∀ i, (s.task i).uses d h = false then
      some (s.setHalf d ((s.half d).drop bits h))
    else none
  | .call i h c =>
    if (s.task i).isIdle ∧ h ∈ (s.half c.entry.side).live then
      some (s.setTask i (.busy h c.entry))
    else none
  | .run i => match s.task i with
    | .idle _ => none
    | .busy h pc => (pc.exec N s).map fun r => (s.move r.1).setTask i (r.2.task h)

structure Start (bits : ℕ) (s : Channel α K) : Prop where
  idle : ∀ i, (s.task i).isIdle
  counts : ∀ d, (s.half d).count = (s.half d).live.card
  fits : ∀ d, (s.half d).count < 2 ^ bits
  items : s.sent = s.received ++ s.queue

def channel (α : Type*) (K : ℕ) : Channel α K where
  queue := []
  half _ := ⟨{0}, 1⟩
  task _ := .idle none
  sent := []
  received := []

def sender : Fin 2 := ⟨0, Nat.zero_lt_two⟩

def receiver : Fin 2 := ⟨1, Nat.one_lt_two⟩

theorem channel_start {bits : ℕ} (h : 0 < bits) : Start bits (channel α K) :=
  ⟨fun _ => rfl, fun _ => rfl, fun _ => Nat.one_lt_two_pow h.ne', rfl⟩

end

section
variable {α : Type*} {K : ℕ} (s : Channel α K) (i : Fin K) (p : Task α) (d : Side) (q : Half)
  (mv : Move α)

@[simp] theorem setTask_queue : (s.setTask i p).queue = s.queue := rfl

@[simp] theorem setTask_half : (s.setTask i p).half = s.half := rfl

@[simp] theorem setTask_sent : (s.setTask i p).sent = s.sent := rfl

@[simp] theorem setTask_received : (s.setTask i p).received = s.received := rfl

@[simp] theorem setTask_self : (s.setTask i p).task i = p := update_self ..

theorem setTask_ne {j : Fin K} (h : j ≠ i) : (s.setTask i p).task j = s.task j := update_of_ne h ..

@[simp] theorem setHalf_task : (s.setHalf d q).task = s.task := rfl

@[simp] theorem setHalf_self : (s.setHalf d q).half d = q := update_self ..

theorem setHalf_ne {d' : Side} (h : d' ≠ d) : (s.setHalf d q).half d' = s.half d' :=
  update_of_ne h ..

@[simp] theorem move_half : (s.move mv).half = s.half := by cases mv <;> rfl

@[simp] theorem move_task : (s.move mv).task = s.task := by cases mv <;> rfl

end

section
variable {α : Type*} {K N bits : ℕ} {s t : Channel α K}

def Pc.puts : Pc α → Bool
  | .queueSend _ | .queueTrySend _ => true
  | _ => false

def Pc.takes : Pc α → Bool
  | .recvTry | .queueRecv | .tryRecvTry => true
  | _ => false

def Pc.undecided : Pc α → Bool
  | .recvLoad | .tryRecvLoad => true
  | _ => false

def Pc.waitsRecv : Pc α → Bool
  | .queueRecv => true
  | _ => false

def Pc.waitsSend : Pc α → Bool
  | .queueSend _ => true
  | _ => false

def Task.meets (f : Pc α → Bool) : Task α → Bool
  | .idle _ => false
  | .busy _ pc => f pc

def Ret.stops : Ret α → Bool
  | .recv (.error .netClosed) | .tryRecv (.error .disconnected) => true
  | _ => false

variable {pc : Pc α}

theorem Pc.side_of_puts (h : pc.puts) : pc.side = .tx := by
  cases pc <;> first | rfl | cases h

theorem Pc.side_of_takes (h : pc.takes) : pc.side = .rx := by
  cases pc <;> first | rfl | cases h

inductive Outcome (N : ℕ) (s : Channel α K) (pc : Pc α) : Move α → Next α → Prop where
  | push (x : α) (r : Ret α) (hpc : pc.puts) (hroom : s.queue.length < N) (hr : r.stops = false) :
      Outcome N s pc (.push x) (.ret r)
  | pop (x : α) (q : List α) (r : Ret α) (hpc : pc.takes) (hq : s.queue = x :: q)
      (hr : r.stops = false) : Outcome N s pc (.pop x) (.ret r)
  | stay (nx : Next α) (htake : pc.takes → s.queue = []) (hput : pc.puts → N ≤ s.queue.length)
      (hret : ∀ r, nx = .ret r → r.stops → pc.undecided ∧ (s.half .tx).count = 0)
      (hgoto : ∀ pc', nx = .goto pc' → pc'.side = pc.side ∧ (pc'.undecided → s.queue = []) ∧
        (pc'.waitsRecv → (s.half .tx).count ≠ 0) ∧ (pc'.waitsSend → (s.half .rx).count ≠ 0)) :
      Outcome N s pc .stay nx

theorem exec_outcome {mv : Move α} {nx : Next α} (h : pc.exec N s = some (mv, nx)) :
    Outcome N s pc mv nx := by
  cases pc with
  | sendLoad x | trySendLoad x | recvLoad | tryRecvLoad =>
    obtain ⟨rfl, rfl⟩ := Prod.mk.inj (some.inj h)
    refine .stay _ (by simp [Pc.takes]) (by simp [Pc.puts]) (fun r => ?_) (fun pc' => ?_)
    · split_ifs <;> rintro ⟨⟩ <;> simp_all [Ret.stops, Pc.undecided]
    · split_ifs <;> rintro ⟨⟩ <;> simp_all [Pc.side, Pc.undecided, Pc.waitsRecv, Pc.waitsSend]
  | queueSend x =>
    rw [Pc.exec] at h
    split_ifs at h with hroom
    obtain ⟨rfl, rfl⟩ := Prod.mk.inj (some.inj h)
    exact .push x _ rfl hroom rfl
  | queueTrySend x =>
    rw [Pc.exec] at h
    split_ifs at h with hroom
    · obtain ⟨rfl, rfl⟩ := Prod.mk.inj (some.inj h)
      exact .push x _ rfl hroom rfl
    · obtain ⟨rfl, rfl⟩ := Prod.mk.inj (some.inj h)
      exact .stay _ (by simp [Pc.takes]) (fun _ => not_lt.mp hroom)
        (by rintro r ⟨⟩; simp [Ret.stops]) (by rintro _ ⟨⟩)
  | recvTry | tryRecvTry =>
    rw [Pc.exec] at h
    cases hq : s.queue with
    | nil =>
      rw [hq] at h
      obtain ⟨rfl, rfl⟩ := Prod.mk.inj (some.inj h)
      exact .stay _ (fun _ => hq) (by simp [Pc.puts]) (by rintro _ ⟨⟩)
        (by rintro _ ⟨⟩; simp [hq, Pc.side, Pc.waitsRecv, Pc.waitsSend])
    | cons x q =>
      rw [hq] at h
      obtain ⟨rfl, rfl⟩ := Prod.mk.inj (some.inj h)
      exact .pop x q _ rfl hq rfl
  | queueRecv =>
    rw [Pc.exec] at h
    cases hq : s.queue with
    | nil =>
      rw [hq] at h
      cases h
    | cons x q =>
      rw [hq] at h
      obtain ⟨rfl, rfl⟩ := Prod.mk.inj (some.inj h)
      exact .pop x q _ rfl hq rfl

theorem step_clone {d : Side} {h h' : ℕ} : step N bits s (.clone d h h') = some t ↔
    (h ∈ (s.half d).live ∧ h' ∉ (s.half d).live) ∧
      s.setHalf d ((s.half d).clone bits h') = t := by
  rw [step]
  split_ifs with hc <;> simp [hc]

theorem step_drop {d : Side} {h : ℕ} : step N bits s (.drop d h) = some t ↔
    (h ∈ (s.half d).live ∧ ∀ i, (s.task i).uses d h = false) ∧
      s.setHalf d ((s.half d).drop bits h) = t := by
  rw [step]
  split_ifs with hc <;> simp [hc]

theorem step_call {i : Fin K} {h : ℕ} {c : Call α} : step N bits s (.call i h c) = some t ↔
    ((s.task i).isIdle ∧ h ∈ (s.half c.entry.side).live) ∧
      s.setTask i (.busy h c.entry) = t := by
  rw [step]
  split_ifs with hc <;> simp [hc]

theorem step_run {i : Fin K} (ht : step N bits s (.run i) = some t) : ∃ h pc mv nx,
    s.task i = .busy h pc ∧ Outcome N s pc mv nx ∧ (s.move mv).setTask i (nx.task h) = t := by
  rw [step] at ht
  split at ht
  · cases ht
  · obtain ⟨⟨mv, nx⟩, hr, heq⟩ := map_eq_some_iff.mp ht
    exact ⟨_, _, mv, nx, ‹_›, exec_outcome hr, heq⟩

end

variable {α : Type*} {K N bits : ℕ} {s t : Channel α K}

def Half.Counts (bits : ℕ) (p : Half) : Prop := p.count = wrap bits p.live.card

variable {p : Half} {h : ℕ}

theorem Half.Counts.clone (hp : p.Counts bits) (hh : h ∉ p.live) :
    (p.clone bits h).Counts bits := by
  unfold Half.Counts Half.clone at *
  rw [hp, wrap_wrap_add, Finset.card_insert_of_notMem hh]

theorem Half.Counts.drop (hp : p.Counts bits) (hh : h ∈ p.live) : (p.drop bits h).Counts bits := by
  unfold Half.Counts Half.drop at *
  have hpos := Finset.card_pos.mpr ⟨h, hh⟩
  have hsum : p.live.card + (2 ^ bits - 1) = p.live.card - 1 + 2 ^ bits := by
    have := Nat.two_pow_pos bits
    omega
  dsimp only
  rw [hp, wrap_wrap_add, Finset.card_erase_of_mem hh, hsum, wrap, Nat.add_mod_right, wrap]

theorem Half.drop_eq_empty (hh : h ∈ p.live) : (p.drop bits h).live = ∅ ↔ p.live = {h} := by
  change p.live.erase h = ∅ ↔ p.live = {h}
  constructor
  · intro hempty
    rw [← Finset.insert_erase hh, hempty, insert_empty_eq]
  · intro hlast
    rw [hlast, Finset.erase_singleton]

theorem Half.Counts.count_of_empty (hp : p.Counts bits) (h : p.live = ∅) : p.count = 0 := by
  rw [hp, h, Finset.card_empty, wrap, Nat.zero_mod]

structure Inv (bits : ℕ) (s : Channel α K) : Prop where
  counts : ∀ d, (s.half d).Counts bits
  live : ∀ i h pc, s.task i = .busy h pc → h ∈ (s.half pc.side).live
  items : s.sent = s.received ++ s.queue

theorem Start.inv (hs : Start bits s) : Inv bits s where
  counts d := by
    rw [Half.Counts, ← hs.counts d]
    exact (wrap_of_lt (hs.fits d)).symm
  live i h pc hi := by
    have := hs.idle i
    rw [hi] at this
    cases this
  items := hs.items

theorem Inv.setHalf (hs : Inv bits s) {d : Side} {q : Half} (hq : q.Counts bits)
    (hlive : ∀ i h pc, s.task i = .busy h pc → pc.side = d → h ∈ q.live) :
    Inv bits (s.setHalf d q) where
  counts d' := by
    by_cases hd : d' = d
    · subst hd
      simpa using hq
    · rw [setHalf_ne _ _ _ hd]
      exact hs.counts d'
  live i h pc hi := by
    by_cases hd : pc.side = d
    · subst hd
      simpa using hlive i h pc hi rfl
    · rw [setHalf_ne _ _ _ hd]
      exact hs.live i h pc hi
  items := hs.items

theorem Inv.setTask (hs : Inv bits s) {i : Fin K} {p : Task α}
    (hp : ∀ h pc, p = .busy h pc → h ∈ (s.half pc.side).live) : Inv bits (s.setTask i p) where
  counts := hs.counts
  live j h pc hj := by
    by_cases hij : j = i
    · subst hij
      rw [setTask_self] at hj
      exact hp h pc hj
    · rw [setTask_ne _ _ _ hij] at hj
      exact hs.live j h pc hj
  items := hs.items

theorem Inv.move (hs : Inv bits s) {pc : Pc α} {mv : Move α} {nx : Next α}
    (ho : Outcome N s pc mv nx) : Inv bits (s.move mv) where
  counts d := by simpa using hs.counts d
  live i h pc hi := by
    rw [move_task] at hi
    rw [move_half]
    exact hs.live i h pc hi
  items := by
    have hitems := hs.items
    cases ho with
    | push x r => simp [Channel.move, hitems]
    | pop x q r hpc hq => simp [Channel.move, hitems, hq]
    | stay nx => exact hitems

theorem inv_step {a : Act α K} (hs : Inv bits s) (ht : step N bits s a = some t) : Inv bits t := by
  cases a with
  | clone d h h' =>
    obtain ⟨⟨-, hnew⟩, rfl⟩ := step_clone.mp ht
    refine hs.setHalf ((hs.counts d).clone hnew) fun i h pc hi hd => ?_
    exact Finset.mem_insert_of_mem (hd ▸ hs.live i h pc hi)
  | drop d h =>
    obtain ⟨⟨hold, hfree⟩, rfl⟩ := step_drop.mp ht
    refine hs.setHalf ((hs.counts d).drop hold) fun i h' pc hi hd => ?_
    refine Finset.mem_erase.mpr ⟨?_, hd ▸ hs.live i h' pc hi⟩
    rintro rfl
    have := hfree i
    simp [hi, Task.uses, hd] at this
  | call i h c =>
    obtain ⟨⟨-, hlive⟩, rfl⟩ := step_call.mp ht
    refine hs.setTask fun h' pc hp => ?_
    cases hp
    exact hlive
  | run i =>
    obtain ⟨h, pc, mv, nx, hi, ho, rfl⟩ := step_run ht
    refine (hs.move ho).setTask fun h' pc' hp => ?_
    rw [move_half]
    cases ho with
    | push | pop => cases hp
    | stay nx _ _ _ hgoto =>
      cases nx with
      | ret r => cases hp
      | goto pc'' =>
        cases hp
        rw [(hgoto pc' rfl).1]
        exact hs.live i h pc hi

end Overtos.Channels
