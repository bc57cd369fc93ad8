import Overtos.Lib.IndexRing
import Overtos.Types

/-! The trace ring of `ove_trace_ring.c`, called by one producer and one consumer. -/
namespace Overtos.Rings
open Word IndexRing

structure TraceRecord where
  tsUs : UInt64
  tid : UInt32
  kind : UInt8
  code : UInt8
  arg : UInt16
  deriving DecidableEq, Repr

structure TraceRing where
  buf : ℕ → TraceRecord
  write : ℕ
  read : ℕ
  dropped : ℕ
  lock : Bool

def traceRingSize (arch : Arch) (config : ℕ) : ℕ := wrap arch.bits config

def TraceRing.init : TraceRing := ⟨fun _ => ⟨0, 0, 0, 0, 0⟩, 0, 0, 0, false⟩

def TraceRing.drop (s : TraceRing) : TraceRing := { s with dropped := wrap 32 (s.dropped + 1) }

def oveTraceRingPush (arch : Arch) (config : ℕ) (s : TraceRing) (rec : TraceRecord) :
    TraceRing × Bool :=
  if s.lock then (s.drop, false)
  else
    let s := { s with lock := true }
    let w := s.write
    let r := s.read
    if traceRingSize arch config ≤ sub 32 w r then
      (TraceRing.drop { s with lock := false }, false)
    else
      ({ s with
        buf := Function.update s.buf (w % traceRingSize arch config) rec
        write := wrap 32 (w + 1)
        lock := false }, true)

def oveTraceRingDrain (arch : Arch) (config : ℕ) (s : TraceRing) (max : ℕ) :
    TraceRing × List TraceRecord :=
  let w := s.write
  let r := s.read
  let avail := sub 32 w r
  let avail := if max < avail then wrap 32 max else avail
  let out := (List.range avail).map fun i => s.buf (wrap 32 (r + i) % traceRingSize arch config)
  ({ s with read := wrap 32 (r + avail) }, out)

def traceStep (arch : Arch) (config : ℕ) (s : TraceRing) :
    Op TraceRecord → TraceRing × Fifo.Out TraceRecord
  | .push rec =>
    let o := oveTraceRingPush arch config s rec
    (o.1, .stored o.2.toNat)
  | .drain max =>
    let o := oveTraceRingDrain arch config s max
    (o.1, .items o.2)

structure TraceView (s : TraceRing) (c : Slots TraceRecord) : Prop where
  view : c = ⟨s.buf, s.write, s.read⟩
  write : s.write < 2 ^ 32
  lock : s.lock = false

theorem oveTraceRingDrain_eq (arch : Arch) (config : ℕ) (s : TraceRing) (max : ℕ) :
    let k := min max (sub 32 s.write s.read)
    oveTraceRingDrain arch config s max = ({ s with read := wrap 32 (s.read + k) },
      (List.range k).map fun i => s.buf (slot 32 (traceRingSize arch config) (s.read + i))) := by
  have hlt := sub_lt 32 s.write s.read
  by_cases hmax : max < sub 32 s.write s.read
  · have hk : min max (sub 32 s.write s.read) = max := by omega
    have hw : wrap 32 max = max := wrap_of_lt (by omega)
    simp [oveTraceRingDrain, hmax, hk, hw, slot]
  · have hk : min max (sub 32 s.write s.read) = sub 32 s.write s.read := by omega
    simp [oveTraceRingDrain, hmax, hk, slot]

theorem trace_follows (arch : Arch) (config : ℕ) :
    Follows 32 (traceRingSize arch config) id (traceStep arch config) TraceView := by
  refine ⟨fun _ _ => rfl, ?_, ?_, ?_⟩
  · rintro s c x ⟨rfl, hw, hl⟩
    have hslot : slot 32 (traceRingSize arch config) s.write =
        s.write % traceRingSize arch config := slot_of_lt hw
    by_cases hfull : traceRingSize arch config ≤ sub 32 s.write s.read
    · simp only [traceStep, oveTraceRingPush, hl, step, avail, hfull]
      exact ⟨⟨rfl, hw, rfl⟩, rfl⟩
    · simp only [traceStep, oveTraceRingPush, hl, step, avail, hfull, hslot]
      exact ⟨⟨rfl, wrap_lt _ _, rfl⟩, rfl⟩
  · rintro s c n ⟨rfl, hw, hl⟩ -
    simp only [traceStep, oveTraceRingDrain_eq]
    exact ⟨⟨rfl, hw, hl⟩, rfl⟩
  · rintro s c ⟨rfl, hw, hl⟩
    simp only [traceStep, oveTraceRingDrain_eq]
    rfl

theorem trace_counts (arch : Arch) (config : ℕ) :
    Counts 32 (traceStep arch config) TraceRing.dropped := by
  refine ⟨fun s x => ?_, fun s n => rfl⟩
  simp only [traceStep, oveTraceRingPush]
  split
  · exact Or.inr ⟨rfl, rfl⟩
  · split
    · exact Or.inr ⟨rfl, rfl⟩
    · exact Or.inl ⟨rfl, rfl⟩

end Overtos.Rings
