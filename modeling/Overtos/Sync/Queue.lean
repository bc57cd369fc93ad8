import Overtos.Lib.Circular
import Overtos.Lib.Fifo
import Overtos.Lib.Runs
import Overtos.Lib.Tally
import Overtos.Types

/-! The message queues of the NuttX backend: two counting semaphores over a ring of slots. -/
namespace Overtos.Queue
open Runs Tally Function List

inductive Timeout where
  | zero | finite | forever
  deriving DecidableEq, Repr

inductive Pos (α : Type) where
  | idle
  | sending (x : α) (timeout : Timeout)
  | reserved (x : α)
  | written
  | receiving (timeout : Timeout)
  | claimed
  | copied (x : α)

structure State (ι α : Type) where
  buffer : ℕ → α
  head : ℕ
  tail : ℕ
  notFull : ℕ
  notEmpty : ℕ
  pos : ι → Pos α
  events : List (Fifo.Op α × Fifo.Out α)
  returned : List (Rc × Option α)

/-- One semaphore operation or one critical section each; an interrupt handler runs to its end at
once. -/
inductive Action (ι α : Type) where
  | send (i : ι) (x : α) (timeout : Timeout)
  | reserve (i : ι)
  | write (i : ι)
  | postNotEmpty (i : ι)
  | receive (i : ι) (timeout : Timeout)
  | claim (i : ι)
  | read (i : ι)
  | postNotFull (i : ι)
  | expire (i : ι)
  | sendFromIsr (x : α)
  | receiveFromIsr

variable {ι α : Type}

def State.init (maxItems : ℕ) (buffer : ℕ → α) : State ι α :=
  ⟨buffer, 0, 0, maxItems, 0, fun _ => .idle, [], []⟩

section

variable (maxItems : ℕ)

def State.putItem (s : State ι α) (x : α) : State ι α :=
  { s with
    buffer := update s.buffer s.head x
    head := (s.head + 1) % maxItems
    events := s.events ++ [(.put [x], .stored 1)] }

def State.dropItem (s : State ι α) : State ι α :=
  { s with
    tail := (s.tail + 1) % maxItems
    events := s.events ++ [(.take 0 1, .items [s.buffer s.tail])] }

variable [DecidableEq ι]

def State.move (s : State ι α) (i : ι) (p : Pos α) : State ι α := { s with pos := update s.pos i p }

def State.finish (s : State ι α) (i : ι) (rc : Rc) (x : Option α) : State ι α :=
  { s with pos := update s.pos i .idle, returned := s.returned ++ [(rc, x)] }

def step (s : State ι α) : Action ι α → Option (State ι α)
  | .send i x timeout =>
    match s.pos i with
    | .idle => some (s.move i (.sending x timeout))
    | _ => none
  | .reserve i =>
    match s.pos i with
    | .sending x _ =>
      if 0 < s.notFull then some (State.move { s with notFull := s.notFull - 1 } i (.reserved x))
      else none
    | _ => none
  | .write i =>
    match s.pos i with
    | .reserved x => some ((s.putItem maxItems x).move i .written)
    | _ => none
  | .postNotEmpty i =>
    match s.pos i with
    | .written => some (State.finish { s with notEmpty := s.notEmpty + 1 } i .ok none)
    | _ => none
  | .receive i timeout =>
    match s.pos i with
    | .idle => some (s.move i (.receiving timeout))
    | _ => none
  | .claim i =>
    match s.pos i with
    | .receiving _ =>
      if 0 < s.notEmpty then some (State.move { s with notEmpty := s.notEmpty - 1 } i .claimed)
      else none
    | _ => none
  | .read i =>
    match s.pos i with
    | .claimed => some ((s.dropItem maxItems).move i (.copied (s.buffer s.tail)))
    | _ => none
  | .postNotFull i =>
    match s.pos i with
    | .copied x => some (State.finish { s with notFull := s.notFull + 1 } i .ok (some x))
    | _ => none
  | .expire i =>
    match s.pos i with
    | .sending _ .zero => some (s.finish i .errQueueFull none)
    | .receiving .zero => some (s.finish i .errQueueEmpty none)
    | .sending _ .finite | .receiving .finite => some (s.finish i .errTimeout none)
    | _ => none
  | .sendFromIsr x =>
    if 0 < s.notFull then
      some { s.putItem maxItems x with
        notFull := s.notFull - 1
        notEmpty := s.notEmpty + 1
        returned := s.returned ++ [(.ok, none)] }
    else some { s with returned := s.returned ++ [(.errQueueFull, none)] }
  | .receiveFromIsr =>
    if 0 < s.notEmpty then
      some { s.dropItem maxItems with
        notEmpty := s.notEmpty - 1
        notFull := s.notFull + 1
        returned := s.returned ++ [(.ok, some (s.buffer s.tail))] }
    else some { s with returned := s.returned ++ [(.errQueueEmpty, none)] }

end

def Pos.isReserved : Pos α → ℕ
  | .reserved _ => 1
  | _ => 0

def Pos.isWritten : Pos α → ℕ
  | .written => 1
  | _ => 0

def Pos.isClaimed : Pos α → ℕ
  | .claimed => 1
  | _ => 0

def Pos.isCopied : Pos α → ℕ
  | .copied _ => 1
  | _ => 0

def Pos.carries [DecidableEq α] (x : α) : Pos α → ℕ
  | .copied y => if y = x then 1 else 0
  | _ => 0

def State.itemsWritten (s : State ι α) : List α := (Fifo.history s.events).accepted

def State.itemsRead (s : State ι α) : List α := (Fifo.history s.events).returned

def State.itemsReturned (s : State ι α) : List α := s.returned.filterMap Prod.snd

/-- The queue holds `q`: the items are read as they were written, each is returned once, or about to
be, and the tokens and the calls under way account for every slot. -/
structure Refines [Fintype ι] [DecidableEq α] (maxItems : ℕ) (s : State ι α) (q : List α) :
    Prop where
  fifo : Fifo.Accepts maxItems s.events q
  inOrder : s.itemsWritten = s.itemsRead ++ q
  once : ∀ x, s.itemsReturned.count x + tally (Pos.carries x) s.pos = s.itemsRead.count x
  slots : Circular.Holds s.buffer maxItems s.tail q
  unread : 0 < s.notFull + tally Pos.isReserved s.pos →
    ∀ k < q.length, (s.tail + k) % maxItems ≠ s.head
  filled : 0 < s.notEmpty + tally Pos.isClaimed s.pos →
    ∃ x rest, q = x :: rest ∧ s.buffer s.tail = x
  items : s.notEmpty + tally Pos.isWritten s.pos + tally Pos.isClaimed s.pos = q.length
  slotsUsed :
    s.notFull + tally Pos.isReserved s.pos + q.length + tally Pos.isCopied s.pos = maxItems

section

variable {maxItems : ℕ} {s : State ι α} {q : List α}

structure Content (maxItems : ℕ) (s : State ι α) (q : List α) : Prop where
  tail : s.tail < maxItems
  head : s.head = (s.tail + q.length) % maxItems
  fifo : Fifo.Accepts maxItems s.events q
  slots : Circular.Holds s.buffer maxItems s.tail q

theorem Content.putItem (h : Content maxItems s q) (hroom : q.length < maxItems) (x : α) :
    Content maxItems (s.putItem maxItems x) (q ++ [x]) := by
  have hpos : 0 < maxItems := (Nat.zero_le _).trans_lt hroom
  have hhead : s.head < maxItems := h.head ▸ Nat.mod_lt _ hpos
  refine ⟨h.tail, ?_, ?_, ?_⟩
  · show (s.head + 1) % maxItems = _
    rw [h.head, Nat.mod_add_mod, length_append, Nat.add_assoc]
    rfl
  · have hnext := h.fifo.next (.put [x])
    rw [Fifo.step_put_one hroom] at hnext
    exact hnext
  · have hstored := @Circular.Holds.append _ _ _ _ _ [x] h.slots hroom hpos
    rw [← h.head, Circular.putWrapped_singleton hhead] at hstored
    exact hstored

theorem Content.front {x : α} (h : Content maxItems s (x :: q)) : s.buffer s.tail = x := by
  have hfirst := h.slots 0 x rfl
  rwa [Nat.add_zero, Nat.mod_eq_of_lt h.tail] at hfirst

theorem Content.dropItem {x : α} (h : Content maxItems s (x :: q)) :
    Content maxItems (s.dropItem maxItems) q := by
  have hpos : 0 < maxItems := (Nat.zero_le _).trans_lt h.tail
  refine ⟨Nat.mod_lt _ hpos, ?_, ?_, h.slots.drop 1⟩
  · show s.head = ((s.tail + 1) % maxItems + q.length) % maxItems
    rw [h.head, Nat.mod_add_mod, length_cons, Nat.add_assoc, Nat.add_comm 1]
  · have hnext := h.fifo.next (.take 0 1)
    rw [Fifo.step_take_one, ← h.front] at hnext
    exact hnext

end

section

variable [DecidableEq α] [Fintype ι] {maxItems n m : ℕ} {s t : State ι α} {q : List α}

structure Counts (maxItems : ℕ) (s : State ι α) (n : ℕ) : Prop where
  once : ∀ x, s.itemsReturned.count x + tally (Pos.carries x) s.pos = s.itemsRead.count x
  items : s.notEmpty + tally Pos.isWritten s.pos + tally Pos.isClaimed s.pos = n
  slots : s.notFull + tally Pos.isReserved s.pos + n + tally Pos.isCopied s.pos = maxItems

variable {i : ι} {p p' : Pos α}

theorem Counts.of_move [DecidableEq ι] (h : Counts maxItems s n) (hp : s.pos i = p)
    (hpos : t.pos = update s.pos i p')
    (honce : ∀ x, t.itemsReturned.count x + p'.carries x + s.itemsRead.count x =
      s.itemsReturned.count x + p.carries x + t.itemsRead.count x)
    (hitems : t.notEmpty + p'.isWritten + p'.isClaimed + n =
      s.notEmpty + p.isWritten + p.isClaimed + m)
    (hslots : t.notFull + p'.isReserved + m + p'.isCopied =
      s.notFull + p.isReserved + n + p.isCopied) : Counts maxItems t m := by
  have hwritten := tally_update Pos.isWritten s.pos i p'
  have hclaimed := tally_update Pos.isClaimed s.pos i p'
  have hreserved := tally_update Pos.isReserved s.pos i p'
  have hcopied := tally_update Pos.isCopied s.pos i p'
  have hold := h.items
  have hold' := h.slots
  rw [hp] at hwritten hclaimed hreserved hcopied
  refine ⟨fun x => ?_, by rw [hpos]; omega, by rw [hpos]; omega⟩
  have hcarries := tally_update (Pos.carries x) s.pos i p'
  have hbefore := h.once x
  have hnow := honce x
  rw [hp] at hcarries
  rw [hpos]
  omega

variable [DecidableEq ι] {a : Action ι α}

end

section

variable {ι α : Type} [Fintype ι] [DecidableEq α] {maxItems : ℕ}

end

end Overtos.Queue
