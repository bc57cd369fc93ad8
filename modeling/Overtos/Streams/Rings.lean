import Overtos.Lib.Circular
import Overtos.Lib.Fifo
import Overtos.Lib.Machine
import Overtos.Lib.Word
import Overtos.Types

/-! The byte rings of the three stream backends, one ring copy at a time. -/
namespace Overtos.Streams
open Word Circular

structure Stream where
  buffer : ℕ → UInt8
  size : ℕ
  trigger : ℕ
  head : ℕ
  tail : ℕ
  count : ℕ

inductive Backend where
  | freertos | nuttx | posix
  deriving DecidableEq, Repr

inductive Call where
  | send (data : List UInt8)
  | receive (len : ℕ)
  | sendFromIsr (data : List UInt8)
  | receiveFromIsr (len : ℕ)
  | reset

def oveStreamInit (buffer : ℕ → UInt8) (size trigger : ℕ) : Stream :=
  ⟨buffer, size, if 0 < trigger then trigger else 1, 0, 0, 0⟩

def oveStreamReset (s : Stream) : Stream := { s with head := 0, tail := 0, count := 0 }

def oveStreamBytesAvailable (s : Stream) : ℕ := s.count

section

variable (arch : Arch)

def ringWrite (s : Stream) (src : List UInt8) : Stream × ℕ :=
  let avail := s.size - s.count
  let chunk := if src.length < avail then src.length else avail
  ({ s with
    buffer := putWrapped s.buffer s.size s.head (src.take chunk)
    head := wrap arch.bits (s.head + chunk) % s.size
    count := s.count + chunk }, chunk)

def ringRead (s : Stream) (len : ℕ) : Stream × List UInt8 :=
  let avail := s.count
  let chunk := if len < avail then len else avail
  ({ s with
    tail := wrap arch.bits (s.tail + chunk) % s.size
    count := s.count - chunk }, getWrapped s.buffer s.size s.tail chunk)

def freertosStep (s : Stream) : Call → Stream × Fifo.Out UInt8
  | .send data =>
    if 0 < data.length ∧ s.count < s.size then
      let o := ringWrite arch s data
      (o.1, .stored o.2)
    else (s, .stored 0)
  | .receive len =>
    if s.trigger ≤ s.count then
      let o := ringRead arch s len
      (o.1, .items o.2)
    else (s, .items [])
  | .sendFromIsr data =>
    let o := ringWrite arch s data
    (o.1, .stored o.2)
  | .receiveFromIsr len =>
    let o := ringRead arch s len
    (o.1, .items o.2)
  | .reset => (oveStreamReset s, .stored 0)

def nuttxSend : ℕ → Stream → List UInt8 → Stream × ℕ
  | 0, s, _ => (s, 0)
  | fuel + 1, s, src =>
    if 0 < src.length ∧ s.count < s.size then
      let o := ringWrite arch s src
      let rest := nuttxSend fuel o.1 (src.drop o.2)
      (rest.1, o.2 + rest.2)
    else (s, 0)

def nuttxReceive : ℕ → Stream → ℕ → ℕ → Stream × List UInt8
  | 0, s, _, _ => (s, [])
  | fuel + 1, s, minAvail, len =>
    if 0 < len ∧ minAvail ≤ s.count then
      let o := ringRead arch s len
      let rest := nuttxReceive fuel o.1 1 (len - o.2.length)
      (rest.1, o.2 ++ rest.2)
    else (s, [])

def nuttxStep (s : Stream) : Call → Stream × Fifo.Out UInt8
  | .send data =>
    let o := nuttxSend arch (data.length + 1) s data
    (o.1, .stored o.2)
  | .receive len =>
    let o := nuttxReceive arch (len + 1) s s.trigger len
    (o.1, .items o.2)
  | .sendFromIsr data =>
    let o := nuttxSend arch (data.length + 1) s data
    (o.1, .stored o.2)
  | .receiveFromIsr len =>
    let o := nuttxReceive arch (len + 1) s 1 len
    (o.1, .items o.2)
  | .reset => (oveStreamReset s, .stored 0)

end

def posixSend : Stream → List UInt8 → Stream × ℕ × Bool
  | s, [] => (s, 0, false)
  | s, b :: src =>
    if s.size ≤ s.count then (s, 0, false)
    else
      let rest := posixSend { s with
        buffer := Function.update s.buffer s.head b
        head := (s.head + 1) % s.size
        count := s.count + 1 } src
      (rest.1, rest.2.1 + 1, decide (s.trigger ≤ s.count + 1) || rest.2.2)

def posixDrain : ℕ → Stream → Stream × List UInt8
  | 0, s => (s, [])
  | len + 1, s =>
    if 0 < s.count then
      let b := s.buffer s.tail
      let rest := posixDrain len { s with
        tail := (s.tail + 1) % s.size
        count := s.count - 1 }
      (rest.1, b :: rest.2)
    else (s, [])

def posixReceive (s : Stream) (len : ℕ) : Stream × List UInt8 :=
  if len = 0 then (s, []) else if s.count < s.trigger then (s, []) else posixDrain len s

def posixStep (s : Stream) : Call → Stream × Fifo.Out UInt8
  | .send data =>
    let o := posixSend s data
    (o.1, .stored o.2.1)
  | .receive len =>
    let o := posixReceive s len
    (o.1, .items o.2)
  | .sendFromIsr data =>
    let o := posixSend s data
    (o.1, .stored o.2.1)
  | .receiveFromIsr len =>
    let o := posixReceive s len
    (o.1, .items o.2)
  | .reset => (oveStreamReset s, .stored 0)

def streamStep (arch : Arch) : Backend → Stream → Call → Stream × Fifo.Out UInt8
  | .freertos => freertosStep arch
  | .nuttx => nuttxStep arch
  | .posix => posixStep

def Call.toFifo (b : Backend) (trigger : ℕ) : Call → Fifo.Op UInt8
  | .send data => .put data
  | .receive len => .take trigger len
  | .sendFromIsr data => .put data
  | .receiveFromIsr len => .take (if b = .posix then trigger else 0) len
  | .reset => .reset

structure Carries (s : Stream) (q : List UInt8) : Prop where
  tail : s.tail < s.size
  head : s.head = (s.tail + s.count) % s.size
  count : s.count = q.length
  fits : q.length ≤ s.size
  holds : Holds s.buffer s.size s.tail q

end Overtos.Streams
