import Overtos.Lib.Machine
import Overtos.Storage.Block

/-! The block requests of `lxp_ove_storage_adapter.c`: byte ranges over single-sector transfers. -/
namespace Overtos.Storage
open Word Media Circular Sectors List

/-- `g_raw_block`, `g_block_info`, `g_block_info_valid` and `g_block_sector`, with the media owner
words and the device below them. -/
structure Adapter where
  rawBlock : Block
  info : BlockInfo
  infoValid : Bool
  sector : ℕ → UInt8
  media : Shared
  disk : Disk

def sectorMax : ℕ := 4096

def refreshBlockInfo (a : Adapter) : Rc × Adapter :=
  match oveBlockGetInfo a.media a.disk with
  | (.error rc, m) => (rc, { a with media := m, infoValid := false })
  | (.ok info, m) =>
    if info.logicalBlockSize = 0 ∨ sectorMax < info.logicalBlockSize ∨ info.blockCount = 0 then
      (.errInvalidParam, { a with media := m, info := info, infoValid := false })
    else (.ok, { a with media := m, info := info, infoValid := true })

def inBounds (info : BlockInfo) (offset count : ℕ) : Bool :=
  if (2 ^ 64 - 1) / info.logicalBlockSize < info.blockCount then false
  else
    let size := wrap 64 (info.blockCount * info.logicalBlockSize)
    decide (offset ≤ size ∧ count ≤ size - offset)

def blockBounds (a : Adapter) (offset count : ℕ) : Rc × Adapter :=
  let o := if a.infoValid then (Rc.ok, a) else refreshBlockInfo a
  if o.1 = .ok then
    (if inBounds o.2.info offset count then .ok else .errInvalidParam, o.2)
  else o

def chunkOf (size offset count : ℕ) : ℕ :=
  let within := wrap 32 (offset % size)
  let chunk := sub 32 size within
  if count < chunk then count else chunk

def blockOpen (a : Adapter) (flags : ℕ) : Rc × Adapter :=
  if flags &&& comp 32 blockOpenWrite ≠ 0 then (.errInvalidParam, a)
  else
    let o := oveBlockOpen a.media a.disk a.rawBlock flags
    (o.1, { a with media := o.2.1, rawBlock := o.2.2 })

def readChunk (a : Adapter) (handle : Block) (size offset chunk : ℕ) : Rc × Adapter × List UInt8 :=
  let block := offset / size
  let within := wrap 32 (offset % size)
  match oveBlockRead a.media a.disk handle block 1 with
  | (.error rc, m) => (rc, { a with media := m }, [])
  | (.ok bytes, m) =>
    if within = 0 ∧ chunk = size then (.ok, { a with media := m }, bytes)
    else
      let sector := put a.sector 0 bytes
      (.ok, { a with media := m, sector := sector }, get sector within chunk)

def readLoop (handle : Block) (size : ℕ) : ℕ → Adapter → ℕ → ℕ → Rc × Adapter × List UInt8
  | 0, a, _, _ => (.ok, a, [])
  | turns + 1, a, offset, count =>
    if count = 0 then (.ok, a, [])
    else
      let chunk := chunkOf size offset count
      let o := readChunk a handle size offset chunk
      if o.1 = .ok then
        let rest := readLoop handle size turns o.2.1 (wrap 64 (offset + chunk)) (count - chunk)
        (rest.1, rest.2.1, o.2.2 ++ rest.2.2)
      else o

def blockReadBytes (a : Adapter) (offset count : ℕ) : Rc × Adapter × List UInt8 :=
  let o := blockBounds a offset count
  let a := o.2
  if o.1 ≠ .ok ∨ count = 0 then (o.1, a, [])
  else if a.rawBlock.lease.active ≠ 0 then
    let r := readLoop a.rawBlock a.info.logicalBlockSize count a offset count
    if r.1 = .ok then r else (r.1, { r.2.1 with infoValid := false }, r.2.2)
  else
    let t := oveBlockOpen a.media a.disk .initializer 0
    let a := { a with media := t.2.1 }
    if t.1 ≠ .ok then (t.1, a, [])
    else
      let r := readLoop t.2.2 a.info.logicalBlockSize count a offset count
      let a := { r.2.1 with media := (oveBlockClose r.2.1.media t.2.2).1 }
      if r.1 = .ok then (r.1, a, r.2.2) else (r.1, { a with infoValid := false }, r.2.2)

def writeChunk (a : Adapter) (size offset : ℕ) (input : List UInt8) (chunk : ℕ) : Rc × Adapter :=
  let block := offset / size
  let within := wrap 32 (offset % size)
  if within = 0 ∧ chunk = size then
    let o := oveBlockWrite a.media a.disk a.rawBlock block 1 input
    (o.1, { a with disk := o.2.1, media := o.2.2 })
  else
    match oveBlockRead a.media a.disk a.rawBlock block 1 with
    | (.error rc, m) => (rc, { a with media := m })
    | (.ok bytes, m) =>
      let sector := put (put a.sector 0 bytes) within (input.take chunk)
      let o := oveBlockWrite m a.disk a.rawBlock block 1 (get sector 0 size)
      (o.1, { a with disk := o.2.1, media := o.2.2, sector := sector })

def writeLoop (size : ℕ) : ℕ → Adapter → ℕ → List UInt8 → Rc × Adapter
  | 0, a, _, _ => (.ok, a)
  | turns + 1, a, offset, input =>
    if input.length = 0 then (.ok, a)
    else
      let chunk := chunkOf size offset input.length
      let o := writeChunk a size offset input chunk
      if o.1 = .ok then writeLoop size turns o.2 (wrap 64 (offset + chunk)) (input.drop chunk)
      else (o.1, { o.2 with infoValid := false })

def blockWriteBytes (a : Adapter) (offset : ℕ) (data : List UInt8) : Rc × Adapter :=
  let o := blockBounds a offset data.length
  let a := o.2
  if o.1 ≠ .ok ∨ data.length = 0 then o
  else if a.rawBlock.lease.active = 0 ∨ a.rawBlock.flags &&& blockOpenWrite = 0 then
    (.errPermission, a)
  else writeLoop a.info.logicalBlockSize data.length a offset data

inductive Request where
  | read (offset count : ℕ)
  | write (offset : ℕ) (data : List UInt8)

inductive Answer where
  | refused
  | done (bytes : List UInt8)

def answer (rc : Rc) (bytes : List UInt8) : Answer := if rc = .ok then .done bytes else .refused

def adapterStep (a : Adapter) : Request → Adapter × Answer
  | .read offset count =>
    let o := blockReadBytes a offset count
    (o.2.1, answer o.1 o.2.2)
  | .write offset data =>
    let o := blockWriteBytes a offset data
    (o.2, answer o.1 [])

def flatStep (size : ℕ) (f : ℕ → UInt8) : Request → (ℕ → UInt8) × Answer
  | .read offset count =>
    if offset + count ≤ size then (f, .done (get f offset count)) else (f, .refused)
  | .write offset data =>
    if offset + data.length ≤ size then (put f offset data, .done []) else (f, .refused)

def Adapter.bytes (a : Adapter) : ℕ → UInt8 := flat a.disk.info.logicalBlockSize a.disk.sectors

def Adapter.byteSize (a : Adapter) : ℕ := a.disk.info.blockCount * a.disk.info.logicalBlockSize

/-- The adapter holds its raw write lease on an inserted device with sectors of at most 4096 bytes;
what it knows of the geometry is so. -/
structure Leased (a : Adapter) : Prop where
  inserted : a.disk.inserted = true
  present : a.disk.info.flags &&& blockMediaPresent ≠ 0
  active : a.rawBlock.lease.active ≠ 0
  access : a.rawBlock.lease.access = rawWrite
  flags : a.rawBlock.flags = blockOpenWrite
  observed : a.media.present ≠ 0
  current : a.media.generation = a.rawBlock.lease.generation
  generation : a.disk.info.generation = a.rawBlock.lease.generation
  generation_ne : a.rawBlock.lease.generation ≠ 0
  size_pos : 0 < a.disk.info.logicalBlockSize
  size_le : a.disk.info.logicalBlockSize ≤ sectorMax
  cached : a.infoValid = true → a.info = a.disk.info ∧ 0 < a.disk.info.blockCount

variable {a : Adapter}

theorem blockOpen_leased (hopen : (blockOpen a blockOpenWrite).1 = .ok)
    (hinserted : a.disk.inserted = true) (hpresent : a.disk.info.flags &&& blockMediaPresent ≠ 0)
    (hpos : 0 < a.disk.info.logicalBlockSize) (hle : a.disk.info.logicalBlockSize ≤ sectorMax)
    (hcached : a.infoValid = true → a.info = a.disk.info ∧ 0 < a.disk.info.blockCount) :
    Leased (blockOpen a blockOpenWrite).2 := by
  have hflags : blockOpenWrite &&& comp 32 blockOpenWrite = 0 := by decide
  simp only [blockOpen, hflags, ne_eq, not_true_eq_false, if_false] at hopen ⊢
  obtain ⟨hgen, hp, hg, hblock⟩ := oveBlockOpen_ok hinserted hopen
  rw [hblock]
  exact ⟨hinserted, hpresent, one_ne_zero, rfl, rfl, hp, hg, rfl, hgen, hpos, hle, hcached⟩

namespace Leased

variable {a : Adapter} (h : Leased a)

include h

theorem getInfo : oveBlockGetInfo a.media a.disk =
    (.ok a.disk.info, oveMediaObserve a.media a.disk.info.generation true) := by
  simp [oveBlockGetInfo, Disk.getInfo, h.inserted, h.present]

theorem refresh (valid : Bool) (hvalid : valid = true → 0 < a.disk.info.blockCount) :
    Leased { a with
      media := oveMediaObserve a.media a.disk.info.generation true
      info := a.disk.info
      infoValid := valid } := by
  have hgen : a.disk.info.generation ≠ 0 := h.generation.trans_ne h.generation_ne
  refine ⟨h.inserted, h.present, h.active, h.access, h.flags, ?_, ?_, h.generation,
    h.generation_ne, h.size_pos, h.size_le, fun hv => ⟨rfl, hvalid hv⟩⟩
  · simp [oveMediaObserve]
  · show (if a.disk.info.generation = 0 then 1 else a.disk.info.generation) = _
    rw [if_neg hgen, h.generation]

theorem rawValid {required : ℕ} (hr : required = 0 ∨ required = rawWrite) :
    oveMediaRawValid a.media a.rawBlock.lease required = true := by
  have hallows : leaseAllows a.rawBlock.lease required = true := by
    have hactive := h.active
    rcases hr with rfl | rfl
    · simp [leaseAllows, hactive]
    · simp [leaseAllows, hactive, h.access, rawWrite, comp]
  simp [oveMediaRawValid, hallows, h.observed, h.current]

theorem refreshBlockInfo_eq : ∃ a', Leased a' ∧ a'.disk = a.disk ∧ a'.info = a.disk.info ∧
    refreshBlockInfo a =
      (if a.disk.info.blockCount = 0 then .errInvalidParam else .ok, a') := by
  have hpos := h.size_pos.ne'
  have hle := Nat.not_lt.mpr h.size_le
  by_cases hzero : a.disk.info.blockCount = 0
  · refine ⟨_, h.refresh false (by simp), rfl, rfl, ?_⟩
    simp [refreshBlockInfo, h.getInfo, hzero]
  · refine ⟨_, h.refresh true fun _ => Nat.pos_of_ne_zero hzero, rfl, rfl, ?_⟩
    simp [refreshBlockInfo, h.getInfo, hpos, hle, hzero]

theorem inBounds_iff (offset count : ℕ) : inBounds a.disk.info offset count = true ↔
    a.byteSize < 2 ^ 64 ∧ offset + count ≤ a.byteSize := by
  have hlimit : a.disk.info.blockCount ≤ (2 ^ 64 - 1) / a.disk.info.logicalBlockSize ↔
      a.byteSize ≤ 2 ^ 64 - 1 := Nat.le_div_iff_mul_le h.size_pos
  unfold inBounds
  split_ifs with hbig
  · have hover : ¬a.byteSize ≤ 2 ^ 64 - 1 := mt hlimit.mpr (Nat.not_le.mpr hbig)
    simp only [false_iff]
    omega
  · have hsize : a.byteSize < 2 ^ 64 := by
      have := hlimit.mp (Nat.not_lt.mp hbig)
      omega
    have hwrap : wrap 64 (a.disk.info.blockCount * a.disk.info.logicalBlockSize) = a.byteSize :=
      wrap_of_lt hsize
    simp only [hwrap, decide_eq_true_eq]
    omega

theorem bounds (offset count : ℕ) : ∃ rc a', blockBounds a offset count = (rc, a') ∧ Leased a' ∧
    a'.disk = a.disk ∧ (rc = .ok → a'.info = a.disk.info) ∧
    (rc = .ok ↔
      (0 < a.disk.info.blockCount ∧ a.byteSize < 2 ^ 64) ∧ offset + count ≤ a.byteSize) := by
  have hverdict (hsome : 0 < a.disk.info.blockCount) :
      (if inBounds a.disk.info offset count then Rc.ok else Rc.errInvalidParam) = .ok ↔
        (0 < a.disk.info.blockCount ∧ a.byteSize < 2 ^ 64) ∧ offset + count ≤ a.byteSize := by
    simp [h.inBounds_iff, hsome]
  cases hv : a.infoValid with
  | true =>
    obtain ⟨hinfo, hsome⟩ := h.cached hv
    refine ⟨_, a, ?_, h, rfl, fun _ => hinfo, hverdict hsome⟩
    simp [blockBounds, hv, hinfo]
  | false =>
    obtain ⟨a', ha', hdisk, hinfo, heq⟩ := h.refreshBlockInfo_eq
    by_cases hzero : a.disk.info.blockCount = 0
    · refine ⟨.errInvalidParam, a', ?_, ha', hdisk, by simp, by simp [hzero]⟩
      simp [blockBounds, hv, heq, hzero]
    · refine ⟨_, a', ?_, ha', hdisk, fun _ => hinfo, hverdict (Nat.pos_of_ne_zero hzero)⟩
      simp [blockBounds, hv, heq, hzero, hinfo]

variable {b offset chunk turns : ℕ} {input : List UInt8}

theorem readSector (hb : b < a.disk.info.blockCount) : oveBlockRead a.media a.disk a.rawBlock b 1 =
      (.ok (get (a.disk.sectors b) 0 a.disk.info.logicalBlockSize), a.media) := by
  have hhas : a.disk.hasBlocks b 1 = true := by simpa [Disk.hasBlocks] using hb
  simp [oveBlockRead, h.rawValid (.inl rfl), Disk.read, h.inserted, hhas]

theorem writeSector (hb : b < a.disk.info.blockCount) (buffer : List UInt8) :
    oveBlockWrite a.media a.disk a.rawBlock b 1 buffer =
      (.ok, { a.disk with
        sectors := Function.update a.disk.sectors b
          (put (a.disk.sectors b) 0 (buffer.take a.disk.info.logicalBlockSize)) }, a.media) := by
  have hhas : a.disk.hasBlocks b 1 = true := by simpa [Disk.hasBlocks] using hb
  simp [oveBlockWrite, h.rawValid (.inl rfl), h.rawValid (.inr rfl), Disk.write, Disk.writeFrom,
    h.inserted, hhas]

theorem transfer (sector : ℕ → UInt8) (sectors : ℕ → ℕ → UInt8) :
    Leased { a with sector := sector, disk := { a.disk with sectors := sectors } } :=
  ⟨h.inserted, h.present, h.active, h.access, h.flags, h.observed, h.current, h.generation,
    h.generation_ne, h.size_pos, h.size_le, h.cached⟩

theorem wrap_within (offset : ℕ) :
    wrap 32 (offset % a.disk.info.logicalBlockSize) = offset % a.disk.info.logicalBlockSize := by
  have hwithin := Nat.mod_lt offset h.size_pos
  have hle := h.size_le
  have hmax : sectorMax < 2 ^ 32 := by decide
  exact wrap_of_lt (by omega)

theorem chunkOf_eq (offset count : ℕ) : chunkOf a.disk.info.logicalBlockSize offset count =
    min (a.disk.info.logicalBlockSize - offset % a.disk.info.logicalBlockSize) count := by
  have hwithin := Nat.mod_lt offset h.size_pos
  have hle := h.size_le
  have hmax : sectorMax < 2 ^ 32 := by decide
  have hrest := sub_of_le hwithin.le (show a.disk.info.logicalBlockSize < 2 ^ 32 by omega)
  simp only [chunkOf, h.wrap_within, hrest]
  split_ifs <;> omega

theorem block_lt (ho : offset < a.byteSize) :
    offset / a.disk.info.logicalBlockSize < a.disk.info.blockCount :=
  (Nat.div_lt_iff_lt_mul h.size_pos).mpr ho

theorem readChunk_eq (ho : offset < a.byteSize)
    (hc : offset % a.disk.info.logicalBlockSize + chunk ≤ a.disk.info.logicalBlockSize) :
    ∃ sector, readChunk a a.rawBlock a.disk.info.logicalBlockSize offset chunk =
      (.ok, { a with sector := sector }, get a.bytes offset chunk) := by
  have hflat := get_sector (s := a.disk.sectors) (b := offset / a.disk.info.logicalBlockSize) hc
  rw [Nat.div_add_mod'] at hflat
  simp only [readChunk, h.readSector (h.block_lt ho), h.wrap_within]
  split_ifs with hwhole
  · obtain ⟨hstart, rfl⟩ := hwhole
    refine ⟨a.sector, ?_⟩
    rw [hstart] at hflat
    rw [hflat]
    rfl
  · refine ⟨put a.sector 0 (get (a.disk.sectors (offset / a.disk.info.logicalBlockSize)) 0
      a.disk.info.logicalBlockSize), ?_⟩
    have hbuf := get_put_get a.sector (a.disk.sectors (offset / a.disk.info.logicalBlockSize)) hc
    rw [hbuf, hflat]
    rfl

theorem writeChunk_eq (ho : offset < a.byteSize)
    (hc : offset % a.disk.info.logicalBlockSize + chunk ≤ a.disk.info.logicalBlockSize)
    (hin : chunk ≤ input.length) :
    ∃ sector sectors, writeChunk a a.disk.info.logicalBlockSize offset input chunk =
      (.ok, { a with sector := sector, disk := { a.disk with sectors := sectors } }) ∧
      flat a.disk.info.logicalBlockSize sectors = put a.bytes offset (input.take chunk) := by
  have hpart : offset % a.disk.info.logicalBlockSize + (input.take chunk).length ≤
      a.disk.info.logicalBlockSize := by
    rwa [length_take_of_le hin]
  have hflat := flat_update (s := a.disk.sectors) (b := offset / a.disk.info.logicalBlockSize) hpart
  rw [Nat.div_add_mod'] at hflat
  simp only [writeChunk, h.wrap_within]
  split_ifs with hwhole
  · obtain ⟨hstart, rfl⟩ := hwhole
    rw [h.writeSector (h.block_lt ho)]
    rw [hstart] at hflat
    exact ⟨a.sector, _, rfl, hflat⟩
  · rw [h.readSector (h.block_lt ho)]
    simp only [h.writeSector (h.block_lt ho)]
    refine ⟨_, _, rfl, ?_⟩
    rw [take_of_length_le (by simp [length_get]), put_readBack a.sector hpart]
    exact hflat

theorem readLoop_eq (hsize : a.byteSize < 2 ^ 64) {count : ℕ} (hturns : count ≤ turns)
    (hin : offset + count ≤ a.byteSize) :
    ∃ sector, readLoop a.rawBlock a.disk.info.logicalBlockSize turns a offset count =
      (.ok, { a with sector := sector }, get a.bytes offset count) := by
  induction turns generalizing a offset count with
  | zero =>
    obtain rfl : count = 0 := by omega
    exact ⟨a.sector, rfl⟩
  | succ turns ih =>
    unfold readLoop
    split_ifs with hzero
    · subst hzero
      exact ⟨a.sector, rfl⟩
    · have hwithin := Nat.mod_lt offset h.size_pos
      have hchunk := h.chunkOf_eq offset count
      generalize chunkOf a.disk.info.logicalBlockSize offset count = chunk at hchunk ⊢
      obtain ⟨sector, hturn⟩ := h.readChunk_eq (show offset < a.byteSize by omega)
        (show _ + chunk ≤ _ by omega)
      have hnext : wrap 64 (offset + chunk) = offset + chunk := wrap_of_lt (by omega)
      obtain ⟨sector', hrest⟩ : ∃ sector', readLoop a.rawBlock a.disk.info.logicalBlockSize turns
          { a with sector := sector } (offset + chunk) (count - chunk) =
            (.ok, { a with sector := sector' }, get a.bytes (offset + chunk) (count - chunk)) :=
        ih (h.transfer sector a.disk.sectors) hsize (by omega)
          (show offset + chunk + (count - chunk) ≤ a.byteSize by omega)
      refine ⟨sector', ?_⟩
      simp only [hturn, hnext, hrest, if_true]
      rw [← get_append, Nat.add_sub_cancel' (show chunk ≤ count by omega)]

theorem writeLoop_eq (hsize : a.byteSize < 2 ^ 64) (hturns : input.length ≤ turns)
    (hin : offset + input.length ≤ a.byteSize) :
    ∃ sector sectors, writeLoop a.disk.info.logicalBlockSize turns a offset input =
      (.ok, { a with sector := sector, disk := { a.disk with sectors := sectors } }) ∧
      flat a.disk.info.logicalBlockSize sectors = put a.bytes offset input := by
  induction turns generalizing a offset input with
  | zero =>
    obtain rfl : input = [] := eq_nil_of_length_eq_zero (by omega)
    exact ⟨a.sector, a.disk.sectors, rfl, put_nil.symm⟩
  | succ turns ih =>
    unfold writeLoop
    split_ifs with hzero
    · obtain rfl := eq_nil_of_length_eq_zero hzero
      exact ⟨a.sector, a.disk.sectors, rfl, put_nil.symm⟩
    · have hwithin := Nat.mod_lt offset h.size_pos
      have hchunk := h.chunkOf_eq offset input.length
      generalize chunkOf a.disk.info.logicalBlockSize offset input.length = chunk at hchunk ⊢
      obtain ⟨sector, sectors, hturn, hbytes⟩ := h.writeChunk_eq (show offset < a.byteSize by omega)
        (show _ + chunk ≤ _ by omega) (show chunk ≤ input.length by omega)
      have hnext : wrap 64 (offset + chunk) = offset + chunk := wrap_of_lt (by omega)
      have hlen : (input.take chunk).length = chunk := length_take_of_le (by omega)
      obtain ⟨sector', sectors', hrest, hbytes'⟩ := ih (h.transfer sector sectors) hsize
        (show (input.drop chunk).length ≤ turns by rw [length_drop]; omega)
        (show offset + chunk + (input.drop chunk).length ≤ a.byteSize by
          rw [length_drop]; omega)
      refine ⟨sector', sectors', ?_, ?_⟩
      · simp only [hturn, hnext, if_true]
        exact hrest
      · calc flat a.disk.info.logicalBlockSize sectors'
            = put (flat a.disk.info.logicalBlockSize sectors) (offset + chunk)
                (input.drop chunk) := hbytes'
          _ = put (put a.bytes offset (input.take chunk)) (offset + (input.take chunk).length)
                (input.drop chunk) := by rw [hbytes, hlen]
          _ = put a.bytes offset input := by rw [put_append, take_append_drop]

theorem blockReadBytes_spec (offset count : ℕ) : ∃ rc a' out,
    blockReadBytes a offset count = (rc, a', out) ∧ Leased a' ∧ a'.disk = a.disk ∧
    (rc = .ok ↔
      (0 < a.disk.info.blockCount ∧ a.byteSize < 2 ^ 64) ∧ offset + count ≤ a.byteSize) ∧
    (rc = .ok → out = get a.bytes offset count) := by
  obtain ⟨rc, a', hb, ha', hdisk, hinfo, hok⟩ := h.bounds offset count
  by_cases hstop : rc ≠ .ok ∨ count = 0
  · refine ⟨rc, a', [], by simp only [blockReadBytes, hb, if_pos hstop], ha', hdisk, hok, ?_⟩
    intro hrc
    obtain rfl : count = 0 := hstop.resolve_left (not_not.mpr hrc)
    rfl
  · obtain ⟨rfl, -⟩ : rc = .ok ∧ count ≠ 0 := by simpa using hstop
    obtain ⟨hcap, hin⟩ := hok.mp rfl
    have hsize : a'.info.logicalBlockSize = a'.disk.info.logicalBlockSize := by
      rw [hinfo rfl, hdisk]
    have hbytes : a'.byteSize = a.byteSize := by rw [Adapter.byteSize, hdisk, Adapter.byteSize]
    obtain ⟨sector, hloop⟩ := ha'.readLoop_eq (hbytes ▸ hcap.2) le_rfl (hbytes ▸ hin)
    refine ⟨.ok, { a' with sector := sector }, get a'.bytes offset count, ?_,
      ha'.transfer sector a'.disk.sectors, hdisk, hok, fun _ => ?_⟩
    · simp only [blockReadBytes, hb, if_neg hstop, hsize, hloop, if_pos ha'.active, if_true]
    · rw [Adapter.bytes, hdisk, Adapter.bytes]

theorem blockWriteBytes_spec (offset : ℕ) (data : List UInt8) : ∃ rc a',
    blockWriteBytes a offset data = (rc, a') ∧ Leased a' ∧ a'.disk.info = a.disk.info ∧
    (rc = .ok ↔
      (0 < a.disk.info.blockCount ∧ a.byteSize < 2 ^ 64) ∧ offset + data.length ≤ a.byteSize) ∧
    a'.bytes = if rc = .ok then put a.bytes offset data else a.bytes := by
  obtain ⟨rc, a', hb, ha', hdisk, hinfo, hok⟩ := h.bounds offset data.length
  have hbytes : a'.bytes = a.bytes := by rw [Adapter.bytes, hdisk, Adapter.bytes]
  by_cases hstop : rc ≠ .ok ∨ data.length = 0
  · refine ⟨rc, a', by simp only [blockWriteBytes, hb, if_pos hstop], ha', by rw [hdisk], hok, ?_⟩
    split_ifs with hrc
    · have hnil : data.length = 0 := hstop.resolve_left (not_not.mpr hrc)
      rw [hbytes, eq_nil_of_length_eq_zero hnil, put_nil]
    · exact hbytes
  · obtain ⟨rfl, -⟩ : rc = .ok ∧ data.length ≠ 0 := by simpa using hstop
    obtain ⟨hcap, hin⟩ := hok.mp rfl
    have hsize : a'.info.logicalBlockSize = a'.disk.info.logicalBlockSize := by
      rw [hinfo rfl, hdisk]
    have hwhole : a'.byteSize = a.byteSize := by rw [Adapter.byteSize, hdisk, Adapter.byteSize]
    have hlease : ¬(a'.rawBlock.lease.active = 0 ∨ a'.rawBlock.flags &&& blockOpenWrite = 0) := by
      simp [ha'.active, ha'.flags, blockOpenWrite]
    obtain ⟨sector, sectors, hloop, hput⟩ := ha'.writeLoop_eq (hwhole ▸ hcap.2) le_rfl
      (hwhole ▸ hin)
    refine ⟨.ok, { a' with sector := sector, disk := { a'.disk with sectors := sectors } }, ?_,
      ha'.transfer sector sectors, by rw [← hdisk], hok, ?_⟩
    · simp only [blockWriteBytes, hb, if_neg hstop, if_neg hlease, hsize, hloop]
    · rw [if_pos rfl, ← hbytes]
      exact hput

end Leased

structure Represents (info : BlockInfo) (a : Adapter) (f : ℕ → UInt8) : Prop where
  leased : Leased a
  info : a.disk.info = info
  bytes : a.bytes = f

theorem adapterStep_flat {info : BlockInfo} {f : ℕ → UInt8}
    (hcap : 0 < info.blockCount ∧ info.blockCount * info.logicalBlockSize < 2 ^ 64)
    (h : Represents info a f) (r : Request) :
    Represents info (adapterStep a r).1
        (flatStep (info.blockCount * info.logicalBlockSize) f r).1 ∧
      (adapterStep a r).2 = (flatStep (info.blockCount * info.logicalBlockSize) f r).2 := by
  obtain ⟨hleased, rfl, rfl⟩ := h
  cases r with
  | read offset count =>
    obtain ⟨rc, a', out, heq, ha', hdisk, hok, hout⟩ := hleased.blockReadBytes_spec offset count
    have hbytes : a'.bytes = a.bytes := by rw [Adapter.bytes, hdisk, Adapter.bytes]
    simp only [adapterStep, flatStep, heq, answer]
    by_cases hin : offset + count ≤ a.disk.info.blockCount * a.disk.info.logicalBlockSize
    · have hrc := hok.mpr ⟨hcap, hin⟩
      rw [if_pos hrc, if_pos hin, hout hrc]
      exact ⟨⟨ha', by rw [hdisk], hbytes⟩, rfl⟩
    · rw [if_neg fun hrc => hin (hok.mp hrc).2, if_neg hin]
      exact ⟨⟨ha', by rw [hdisk], hbytes⟩, rfl⟩
  | write offset data =>
    obtain ⟨rc, a', heq, ha', hinfo, hok, hbytes⟩ := hleased.blockWriteBytes_spec offset data
    simp only [adapterStep, flatStep, heq, answer]
    by_cases hin : offset + data.length ≤ a.disk.info.blockCount * a.disk.info.logicalBlockSize
    · have hrc := hok.mpr ⟨hcap, hin⟩
      rw [if_pos hrc] at hbytes ⊢
      rw [if_pos hin]
      exact ⟨⟨ha', hinfo, hbytes⟩, rfl⟩
    · have hrc : rc ≠ .ok := fun hrc => hin (hok.mp hrc).2
      rw [if_neg hrc] at hbytes ⊢
      rw [if_neg hin]
      exact ⟨⟨ha', hinfo, hbytes⟩, rfl⟩

/-- The adapter is a flat byte array exactly if the device has a sector and its size in bytes is a
64-bit number. -/
theorem adapter_flat_iff {a : Adapter} (h : Leased a) :
    (∀ requests : List Request,
      (Machine.run adapterStep a requests).2 =
          (Machine.run (flatStep a.byteSize) a.bytes requests).2 ∧
        (Machine.run adapterStep a requests).1.bytes =
          (Machine.run (flatStep a.byteSize) a.bytes requests).1) ↔
      0 < a.disk.info.blockCount ∧ a.byteSize < 2 ^ 64 := by
  constructor
  · intro hall
    have hempty := (hall [.read 0 0]).1
    obtain ⟨rc, a', hb, -, -, -, hok⟩ := h.bounds 0 0
    by_contra hcap
    have hrc : rc ≠ .ok := fun hrc => hcap (hok.mp hrc).1
    simp [adapterStep, flatStep, blockReadBytes, hb, hrc, answer] at hempty
  · intro hcap requests
    have hstart : Represents a.disk.info a a.bytes := ⟨h, rfl, rfl⟩
    have hstep (b : Adapter) (f : ℕ → UInt8) (r : Request) (hb : Represents a.disk.info b f) :=
      adapterStep_flat hcap hb r
    obtain ⟨hend, hanswers⟩ := Machine.run_simulates hstep hstart requests
    exact ⟨hanswers, hend.bytes⟩

def fresh (blockCount logicalBlockSize : ℕ) : Adapter :=
  let info : BlockInfo := ⟨blockCount, logicalBlockSize, blockMediaPresent, 1⟩
  ⟨.initializer, ⟨0, 0, 0, 0⟩, false, fun _ => 0, ⟨0, 0, 0⟩, ⟨info, true, fun _ _ => 0⟩⟩

def opened (blockCount logicalBlockSize : ℕ) : Adapter :=
  (blockOpen (fresh blockCount logicalBlockSize) blockOpenWrite).2

theorem opened_leased {blockCount logicalBlockSize : ℕ} (hpos : 0 < logicalBlockSize)
    (hle : logicalBlockSize ≤ sectorMax) : Leased (opened blockCount logicalBlockSize) := by
  have hflags : (fresh blockCount logicalBlockSize).disk.info.flags &&& blockMediaPresent ≠ 0 := by
    simp [fresh, blockMediaPresent]
  have hopen : (blockOpen (fresh blockCount logicalBlockSize) blockOpenWrite).1 = .ok := by
    simp [blockOpen, oveBlockOpen, oveBlockGetInfo, Disk.getInfo, fresh, Block.initializer,
      Lease.empty, oveMediaRawAcquire, oveMediaRawValid, oveMediaObserve, leaseAllows, comp, wrap,
      blockOpenWrite, blockMediaPresent, blockReadOnly, rawWrite]
  refine blockOpen_leased hopen rfl hflags hpos hle fun hvalid => ?_
  cases hvalid

theorem adapter_flat_two_sectors :
    Leased (opened 2 3) ∧ ∀ requests : List Request,
      (Machine.run adapterStep (opened 2 3) requests).2 =
          (Machine.run (flatStep 6) (opened 2 3).bytes requests).2 ∧
        (Machine.run adapterStep (opened 2 3) requests).1.bytes =
          (Machine.run (flatStep 6) (opened 2 3).bytes requests).1 := by
  have hleased : Leased (opened 2 3) := opened_leased (by decide) (by decide)
  have hcap : 0 < (opened 2 3).disk.info.blockCount ∧ (opened 2 3).byteSize < 2 ^ 64 := by decide
  exact ⟨hleased, (adapter_flat_iff hleased).mpr hcap⟩

theorem adapter_refuses_vast_device :
    Leased (opened (2 ^ 61) 8) ∧ 0 + [(1 : UInt8)].length ≤ (opened (2 ^ 61) 8).byteSize ∧
      (blockWriteBytes (opened (2 ^ 61) 8) 0 [1]).1 = .errInvalidParam :=
  ⟨opened_leased (by decide) (by decide), by decide, by decide⟩

end Overtos.Storage
