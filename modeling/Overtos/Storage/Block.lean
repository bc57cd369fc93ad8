import Overtos.Lib.Sectors
import Overtos.Media.Model

/-! The block API of `ove_block.c` over a backend of sectors, called by one task at a time. -/
namespace Overtos.Storage
open Word Media Circular

structure BlockInfo where
  blockCount : ℕ
  logicalBlockSize : ℕ
  flags : ℕ
  generation : ℕ
  deriving DecidableEq, Repr

def blockReadOnly : ℕ := 0x02
def blockMediaPresent : ℕ := 0x04
def blockOpenWrite : ℕ := 0x01

structure Block where
  lease : Lease
  flags : ℕ
  deriving DecidableEq, Repr

def Block.initializer : Block := ⟨.empty, 0⟩

def oveMediaObserve (m : Shared) (generation : ℕ) (present : Bool) : Shared :=
  { m with generation := if generation = 0 then 1 else generation, present := present.toNat }

def oveMediaRemoved (m : Shared) : Shared := { m with present := 0 }

def oveMediaRawValid (m : Shared) (lease : Lease) (required : ℕ) : Bool :=
  leaseAllows lease required && decide (m.present ≠ 0) && decide (m.generation = lease.generation)

def oveMediaRawRelease (m : Shared) (lease : Lease) : Shared × Lease :=
  if lease.active = 0 then (m, lease)
  else if lease.access &&& rawWrite ≠ 0 then
    ({ m with owners := m.owners &&& comp 32 mediaWriter }, .empty)
  else if mediaReaderOne ≤ m.owners then ({ m with owners := m.owners - mediaReaderOne }, .empty)
  else (m, .empty)

def oveMediaRawAcquire (m : Shared) (lease : Lease) (flags generation : ℕ) : Rc × Shared × Lease :=
  if lease.active ≠ 0 ∨ flags &&& comp 32 rawWrite ≠ 0 ∨ generation = 0 then
    (.errInvalidParam, m, lease)
  else if m.present = 0 ∨ m.generation ≠ generation then (.errNotRegistered, m, lease)
  else
    let state := m.owners
    let write := decide (flags &&& rawWrite ≠ 0)
    let busy := if write then decide (state ≠ 0)
      else decide (state &&& mediaWriter ≠ 0 ∨ uint32Max - mediaReaderOne < state)
    if busy then (.errBusy, m, lease)
    else
      let m := { m with owners := if write then mediaWriter else state + mediaReaderOne }
      let lease : Lease := ⟨generation, wrap 8 flags, 1⟩
      if oveMediaRawValid m lease flags then (.ok, m, lease)
      else (.errNotRegistered, oveMediaRawRelease m lease)

theorem oveMediaRawAcquire_ok {m : Shared} {lease : Lease} {flags generation : ℕ}
    (h : (oveMediaRawAcquire m lease flags generation).1 = .ok) :
    generation ≠ 0 ∧ (oveMediaRawAcquire m lease flags generation).2.1.present ≠ 0 ∧
      (oveMediaRawAcquire m lease flags generation).2.1.generation = generation ∧
      (oveMediaRawAcquire m lease flags generation).2.2 = ⟨generation, wrap 8 flags, 1⟩ := by
  unfold oveMediaRawAcquire at h ⊢
  by_cases hbad : lease.active ≠ 0 ∨ flags &&& comp 32 rawWrite ≠ 0 ∨ generation = 0
  · simp [if_pos hbad] at h
  by_cases hgone : m.present = 0 ∨ m.generation ≠ generation
  · simp [if_neg hbad, if_pos hgone] at h
  simp only [if_neg hbad, if_neg hgone] at h ⊢
  simp only [not_or, not_not] at hbad hgone
  generalize (if decide (flags &&& rawWrite ≠ 0) = true then decide (m.owners ≠ 0) else
    decide (m.owners &&& mediaWriter ≠ 0 ∨ uint32Max - mediaReaderOne < m.owners)) = busy at h ⊢
  cases busy with
  | true => simp at h
  | false =>
    simp only [Bool.false_eq_true, if_false] at h ⊢
    split_ifs at h ⊢
    · exact ⟨hbad.2.2, hgone.1, hgone.2, rfl⟩
    · exact ⟨hbad.2.2, hgone.1, hgone.2, rfl⟩

structure Disk where
  info : BlockInfo
  inserted : Bool
  sectors : ℕ → ℕ → UInt8

namespace Disk

variable (d : Disk)

def getInfo : Except Rc BlockInfo := if d.inserted then .ok d.info else .error .errNotRegistered

def hasBlocks (first count : ℕ) : Bool := decide (first + count ≤ d.info.blockCount)

def read (first count : ℕ) : Except Rc (List UInt8) :=
  if d.inserted then
    if d.hasBlocks first count then
      .ok ((List.range count).flatMap fun k => get (d.sectors (first + k)) 0 d.info.logicalBlockSize)
    else .error .errInvalidParam
  else .error .errNotRegistered

def writeFrom (size first : ℕ) : ℕ → List UInt8 → (ℕ → ℕ → UInt8) → ℕ → ℕ → UInt8
  | 0, _, s => s
  | count + 1, buffer, s =>
    writeFrom size (first + 1) count (buffer.drop size)
      (Function.update s first (put (s first) 0 (buffer.take size)))

def write (first count : ℕ) (buffer : List UInt8) : Rc × Disk :=
  if d.inserted then
    if d.hasBlocks first count then
      (.ok, { d with sectors := writeFrom d.info.logicalBlockSize first count buffer d.sectors })
    else (.errInvalidParam, d)
  else (.errNotRegistered, d)

end Disk

def oveBlockGetInfo (m : Shared) (d : Disk) : Except Rc BlockInfo × Shared :=
  match d.getInfo with
  | .ok info =>
    (.ok info, oveMediaObserve m info.generation (decide (info.flags &&& blockMediaPresent ≠ 0)))
  | .error .errNotRegistered => (.error .errNotRegistered, oveMediaRemoved m)
  | .error rc => (.error rc, m)

def refreshPresenceAfterError (m : Shared) (d : Disk) : Shared := (oveBlockGetInfo m d).2

def oveBlockOpen (m : Shared) (d : Disk) (block : Block) (flags : ℕ) : Rc × Shared × Block :=
  if block.lease.active ≠ 0 ∨ flags &&& comp 32 blockOpenWrite ≠ 0 then (.errInvalidParam, m, block)
  else
    match oveBlockGetInfo m d with
    | (.error rc, m) => (rc, m, block)
    | (.ok info, m) =>
      if flags &&& blockOpenWrite ≠ 0 ∧ info.flags &&& blockReadOnly ≠ 0 then
        (.errReadOnly, m, block)
      else
        let o := oveMediaRawAcquire m block.lease
          (if flags &&& blockOpenWrite ≠ 0 then rawWrite else 0) info.generation
        if o.1 = .ok then (.ok, o.2.1, ⟨o.2.2, wrap 8 flags⟩)
        else (o.1, o.2.1, { block with lease := o.2.2 })

theorem oveBlockOpen_ok {m : Shared} {d : Disk} {block : Block} {flags : ℕ}
    (hd : d.inserted = true) (h : (oveBlockOpen m d block flags).1 = .ok) :
    d.info.generation ≠ 0 ∧ (oveBlockOpen m d block flags).2.1.present ≠ 0 ∧
      (oveBlockOpen m d block flags).2.1.generation = d.info.generation ∧
      (oveBlockOpen m d block flags).2.2 = ⟨⟨d.info.generation,
        wrap 8 (if flags &&& blockOpenWrite ≠ 0 then rawWrite else 0), 1⟩, wrap 8 flags⟩ := by
  simp only [oveBlockOpen, oveBlockGetInfo, Disk.getInfo, hd, if_true] at h ⊢
  generalize (if flags &&& blockOpenWrite ≠ 0 then rawWrite else 0) = mode at h ⊢
  split_ifs at h ⊢ with hbad hro hok
  · obtain ⟨hgen, hp, hg, hlease⟩ := oveMediaRawAcquire_ok hok
    exact ⟨hgen, hp, hg, by rw [hlease]⟩
  · exact absurd h hok

def oveBlockClose (m : Shared) (block : Block) : Shared × Block :=
  let o := oveMediaRawRelease m block.lease
  (o.1, ⟨o.2, 0⟩)

def oveBlockRead (m : Shared) (d : Disk) (block : Block) (first count : ℕ) :
    Except Rc (List UInt8) × Shared :=
  if oveMediaRawValid m block.lease 0 then
    match d.read first count with
    | .ok bytes => (.ok bytes, m)
    | .error rc => (.error rc, refreshPresenceAfterError m d)
  else (.error .errNotRegistered, m)

def oveBlockWrite (m : Shared) (d : Disk) (block : Block) (first count : ℕ)
    (buffer : List UInt8) : Rc × Disk × Shared :=
  if oveMediaRawValid m block.lease 0 then
    if oveMediaRawValid m block.lease rawWrite then
      let o := d.write first count buffer
      if o.1 = .ok then (.ok, o.2, m) else (o.1, o.2, refreshPresenceAfterError m o.2)
    else (.errPermission, d, m)
  else (.errNotRegistered, d, m)

end Overtos.Storage
