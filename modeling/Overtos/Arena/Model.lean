import Overtos.Lib.Memory
import Overtos.Lib.Word
import Overtos.Types

/-! The first-fit arena allocator of `ove_arena.c`, on byte memory. -/
namespace Overtos.Arena
open Memory

def align : ℕ := 16

def arenaMagic : ℕ := 0x4f415242

inductive Field where
  | next | prev | payload | isFree | magic
  deriving DecidableEq, Repr

def ptrSize (arch : Arch) : ℕ := arch.bits / 8

def Field.width (arch : Arch) : Field → ℕ
  | .next | .prev | .payload => ptrSize arch
  | .isFree | .magic => 4

def Field.offset (arch : Arch) : Field → ℕ
  | .next => 0
  | .prev => ptrSize arch
  | .payload => 2 * ptrSize arch
  | .isFree => 3 * ptrSize arch
  | .magic => 3 * ptrSize arch + 4

def sizeofBlk (arch : Arch) : ℕ := 3 * ptrSize arch + 8

section
variable (arch : Arch)

def maskDown (n : ℕ) : ℕ := n &&& Word.comp arch.bits (align - 1)

def arenaAlign (n : ℕ) : ℕ := maskDown arch (Word.wrap arch.bits (n + (align - 1)))

def arenaHdr : ℕ := maskDown arch (sizeofBlk arch + (align - 1))

def get (m : Mem) (b : ℕ) (f : Field) : ℕ := load m (b + f.offset arch) (f.width arch)

def set (m : Mem) (b : ℕ) (f : Field) (v : ℕ) : Mem := store m (b + f.offset arch) (f.width arch) v

def sub (a b : ℕ) : ℕ := Word.wrap arch.bits (a + 2 ^ arch.bits - b)

def blkPayload (b : ℕ) : ℕ := Word.wrap arch.bits (b + arenaHdr arch)

def payloadBlk (p : ℕ) : ℕ := sub arch p (arenaHdr arch)

end

structure OveArena where
  base : ℕ
  size : ℕ
  used : ℕ
  highWater : ℕ
  first : ℕ
  deriving DecidableEq, Repr

structure State where
  arena : OveArena
  mem : Mem

section
variable (arch : Arch)

def arenaLayFirst (s : State) : State :=
  let first := s.arena.base
  let m := set arch s.mem first .next 0
  let m := set arch m first .prev 0
  let m := set arch m first .payload (maskDown arch (sub arch s.arena.size (arenaHdr arch)))
  let m := set arch m first .isFree 1
  let m := set arch m first .magic arenaMagic
  { arena := { s.arena with first := first, used := 0 }, mem := m }

def oveArenaInit (m : Mem) (buf size : ℕ) : Except Rc State :=
  if buf = 0 then .error .errInvalidParam
  else
    let start := arenaAlign arch buf
    let adjust := sub arch start buf
    if size ≤ adjust ∨ sub arch size adjust < arenaHdr arch + align then .error .errNoMemory
    else
      let usable := sub arch size adjust
      .ok (arenaLayFirst arch
        { arena := { base := Word.wrap arch.bits (buf + adjust), size := usable, used := 0,
                     highWater := 0, first := 0 }
          mem := m })

/-- `some 0` at the end of the list, `none` when `fuel` blocks were not enough to get there. -/
def firstFit (m : Mem) (need : ℕ) : ℕ → ℕ → Option ℕ
  | 0, _ => none
  | fuel + 1, b =>
    if b = 0 then some 0
    else if get arch m b .isFree ≠ 0 ∧ need ≤ get arch m b .payload then some b
    else firstFit m need fuel (get arch m b .next)

def setPrev (m : Mem) (n b : ℕ) : Mem := if n = 0 then m else set arch m n .prev b

def layRemainder (m : Mem) (b need rem : ℕ) : Mem :=
  let m := set arch m rem .payload (sub arch (sub arch (get arch m b .payload) need) (arenaHdr arch))
  let m := set arch m rem .isFree 1
  let m := set arch m rem .magic arenaMagic
  let m := set arch m rem .prev b
  set arch m rem .next (get arch m b .next)

def carve (m : Mem) (b need : ℕ) : Mem :=
  let rem := Word.wrap arch.bits (b + arenaHdr arch + need)
  let m := layRemainder arch m b need rem
  let m := setPrev arch m (get arch m rem .next) rem
  let m := set arch m b .next rem
  set arch m b .payload need

def take (s : State) (b need : ℕ) : State × ℕ :=
  let m :=
    if Word.wrap arch.bits (need + arenaHdr arch + align) ≤ get arch s.mem b .payload then
      carve arch s.mem b need
    else s.mem
  let m := set arch m b .isFree 0
  let used := Word.wrap arch.bits
    (s.arena.used + Word.wrap arch.bits (arenaHdr arch + get arch m b .payload))
  let highWater := if s.arena.highWater < used then used else s.arena.highWater
  ({ arena := { s.arena with used := used, highWater := highWater }, mem := m }, blkPayload arch b)

/-- `none` only if the search does not reach the end within one step per byte of the arena. -/
def oveArenaAlloc (s : State) (size : ℕ) : Option (State × ℕ) :=
  if s.arena.first = 0 then some (s, 0)
  else
    let need := arenaAlign arch (if size = 0 then 1 else size)
    match firstFit arch s.mem need (s.arena.size + 1) s.arena.first with
    | none => none
    | some b => if b = 0 then some (s, 0) else some (take arch s b need)

def oveArenaCalloc (s : State) (size : ℕ) : Option (State × ℕ) :=
  match oveArenaAlloc arch s size with
  | none => none
  | some (s, p) =>
    if p = 0 then some (s, 0)
    else some ({ s with mem := fill s.mem p (get arch s.mem (payloadBlk arch p) .payload) 0 }, p)

def oveArenaOwns (a : OveArena) (p : ℕ) : Bool :=
  p ≠ 0 && a.base ≤ p && p < Word.wrap arch.bits (a.base + a.size)

def absorb (m : Mem) (x y : ℕ) : Mem :=
  let m := set arch m x .payload (Word.wrap arch.bits
    (get arch m x .payload + Word.wrap arch.bits (arenaHdr arch + get arch m y .payload)))
  let m := set arch m x .next (get arch m y .next)
  let m := setPrev arch m (get arch m y .next) x
  set arch m y .magic 0

def coalesceForward (m : Mem) (b : ℕ) : Mem :=
  let n := get arch m b .next
  if n ≠ 0 ∧ get arch m n .isFree ≠ 0 then absorb arch m b n else m

def coalesceBackward (m : Mem) (b : ℕ) : Mem :=
  let p := get arch m b .prev
  if p ≠ 0 ∧ get arch m p .isFree ≠ 0 then absorb arch m p b else m

def oveArenaFree (s : State) (p : ℕ) : State :=
  if p = 0 ∨ oveArenaOwns arch s.arena p = false then s
  else
    let b := payloadBlk arch p
    if get arch s.mem b .magic ≠ arenaMagic ∨ get arch s.mem b .isFree ≠ 0 then s
    else
      let m := set arch s.mem b .isFree 1
      let used := sub arch s.arena.used (Word.wrap arch.bits (arenaHdr arch + get arch m b .payload))
      let m := coalesceForward arch m b
      { arena := { s.arena with used := used }, mem := coalesceBackward arch m b }

def oveArenaReset (s : State) : State := if s.arena.base = 0 then s else arenaLayFirst arch s

end

inductive Op where
  | alloc (size : ℕ)
  | calloc (size : ℕ)
  | free (p : ℕ)
  | reset
  | poke (p i : ℕ) (v : UInt8)
  deriving DecidableEq, Repr

/-- `live` are the pointers handed out and not released since, `history` every value of `used`. -/
structure Sys where
  state : State
  live : List ℕ
  history : List ℕ

section
variable (arch : Arch)

def Allowed (s : Sys) : Op → Prop
  | .alloc n | .calloc n => n < 2 ^ arch.bits
  | .free p => p ∈ s.live
  | .reset => True
  | .poke p i _ => p ∈ s.live ∧ i < get arch s.state.mem (payloadBlk arch p) .payload

instance (s : Sys) : (op : Op) → Decidable (Allowed arch s op)
  | .alloc n | .calloc n => inferInstanceAs (Decidable (n < 2 ^ arch.bits))
  | .free p => inferInstanceAs (Decidable (p ∈ s.live))
  | .reset => inferInstanceAs (Decidable True)
  | .poke p i _ =>
    inferInstanceAs (Decidable (p ∈ s.live ∧ i < get arch s.state.mem (payloadBlk arch p) .payload))

def note (s : Sys) (st : State) (live : List ℕ) : Sys :=
  { state := st, live := live, history := st.arena.used :: s.history }

def handOut (s : Sys) : State × ℕ → Sys
  | (st, p) => note s st (if p = 0 then s.live else p :: s.live)

def apply (s : Sys) : Op → Option Sys
  | .alloc n => (oveArenaAlloc arch s.state n).map (handOut s)
  | .calloc n => (oveArenaCalloc arch s.state n).map (handOut s)
  | .free p => some (note s (oveArenaFree arch s.state p) (s.live.erase p))
  | .reset => some (note s (oveArenaReset arch s.state) [])
  | .poke p i v => some { s with state := { s.state with mem := fill s.state.mem (p + i) 1 v } }

def step (s : Sys) (op : Op) : Option Sys := if Allowed arch s op then apply arch s op else none

def run (s : Sys) : List Op → Option Sys
  | [] => some s
  | op :: ops => (step arch s op).bind fun s' => run s' ops

end

/-- A C object that can serve as backing store: its one-past-the-end pointer is an address. -/
structure Buffer (arch : Arch) where
  addr : ℕ
  size : ℕ
  nonnull : addr ≠ 0
  fits : addr + size < 2 ^ arch.bits

def boot (arch : Arch) (m : Mem) (buf : Buffer arch) : Except Rc Sys :=
  (oveArenaInit arch m buf.addr buf.size).map fun st =>
    { state := st, live := [], history := [st.arena.used] }

end Overtos.Arena
