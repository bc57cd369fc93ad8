import Overtos.Fs.FreeRtosFs
import Overtos.Lib.Machine

/-! An open file of the FreeRTOS file layer refines a byte list with a position. -/
namespace Overtos.Fs
open CStr Function List

structure RefFile where
  contents : Bytes
  position : ℕ
  append : Bool

inductive FileOp (arch : Arch) where
  | read (count : ℕ)
  | write (data : Bytes)
  | seek (offset : BitVec arch.bits) (whence : ℤ)
  | tell
  | truncate (length : ℕ)

inductive FileOut where
  | bytes (got : Bytes)
  | written (n : ℕ)
  | status (rc : Rc)
  | position (pos : ℤ)

def padded (xs : Bytes) (n : ℕ) : Bytes := xs ++ replicate (n - xs.length) 0

def overlaid (xs : Bytes) (pos : ℕ) (data : Bytes) : Bytes :=
  (padded xs pos).take pos ++ data ++ (padded xs pos).drop (pos + data.length)

def RefFile.seekBase (r : RefFile) (whence : ℤ) : Option ℕ :=
  if whence = fsSeekSet then some 0
  else if whence = fsSeekCur then some r.position
  else if whence = fsSeekEnd then some r.contents.length
  else none

variable (arch : Arch)

def refStep (r : RefFile) : FileOp arch → RefFile × FileOut
  | .read count =>
    let got := (r.contents.drop r.position).take count
    ({ r with position := r.position + got.length }, .bytes got)
  | .write data =>
    let start := if r.append then r.contents.length else r.position
    ({ r with contents := overlaid r.contents start data, position := start + data.length },
      .written data.length)
  | .seek offset whence =>
    match r.seekBase whence with
    | none => (r, .status .errInvalidParam)
    | some base =>
      let target : ℤ := base + offset.toInt
      if 0 ≤ target ∧ target < 2 ^ fsizeBits then
        ({ r with position := target.toNat }, .status .ok)
      else (r, .status .errInvalidParam)
  | .tell => (r, .position (asLong arch r.position))
  | .truncate length =>
    ({ r with contents := padded (r.contents.take length) length }, .status .ok)

def fileStep (s : Dir × File) : FileOp arch → (Dir × File) × FileOut
  | .read count =>
    let o := oveFsRead s.1 s.2 count
    ((s.1, o.2), .bytes o.1)
  | .write data =>
    let o := oveFsWrite s.1 s.2 data
    ((o.1, o.2.1), .written o.2.2)
  | .seek offset whence =>
    let o := oveFsSeek arch s.1 s.2 offset whence
    ((s.1, o.2), .status o.1)
  | .tell => (s, .position (oveFsTell arch s.2))
  | .truncate length =>
    let o := oveFsTruncate s.1 s.2 length
    ((o.2.1, o.2.2), .status o.1)

structure Refines (d : Dir) (name : Bytes) (s : Dir × File) (r : RefFile) : Prop where
  path : s.2.fil.path = name
  volume : s.1 = update d name (some r.contents)
  position : s.2.position = r.position
  append : s.2.append = r.append
  inRange : r.position < 2 ^ fsizeBits

variable {arch}

section

variable {d : Dir} {c : Bytes} {f : Fil}

theorem fSize_update : fSize (update d f.path (some c)) f = c.length := by
  simp [fSize]

theorem fWrite_update (data : Bytes) : fWrite (update d f.path (some c)) f data =
    (update d f.path (some (c.take f.fptr ++ data ++ c.drop (f.fptr + data.length))),
      { f with fptr := f.fptr + data.length }, data.length) := by
  simp [fWrite]

theorem fWrite_end (hend : f.fptr = c.length) (data : Bytes) :
    fWrite (update d f.path (some c)) f data =
      (update d f.path (some (c ++ data)), { f with fptr := c.length + data.length },
        data.length) := by
  rw [fWrite_update, hend, take_length, drop_of_length_le (by omega), append_nil]

theorem zeroFill_update (hend : f.fptr = c.length) (n : ℕ) :
    zeroFill (update d f.path (some c)) f n =
      (update d f.path (some (c ++ replicate n 0)),
        { f with fptr := c.length + n }) := by
  induction n using Nat.strong_induction_on generalizing c f with
  | h n ih =>
    unfold zeroFill
    split_ifs with hzero
    · subst hzero
      simp [← hend]
    · rw [fWrite_end hend]
      have hrest := ih (n - min n 512) (by omega) (c := c ++ replicate (min n 512) 0)
        (f := { f with fptr := c.length + (replicate (min n 512) (0 : UInt8)).length })
        length_append.symm
      rw [hrest, append_assoc, ← replicate_add, length_append, length_replicate,
        Nat.add_assoc, Nat.add_sub_cancel' (Nat.min_le_left n 512)]

variable {n base : ℕ} {offset : ℤ}

theorem padded_of_le (h : n ≤ c.length) : padded c n = c := by
  simp [padded, Nat.sub_eq_zero_of_le h]

theorem length_padded (n : ℕ) : (padded c n).length = max c.length n := by
  simp [padded]
  omega

theorem length_overlaid (pos : ℕ) (data : Bytes) :
    (overlaid c pos data).length = max c.length (pos + data.length) := by
  simp [overlaid, length_padded]
  omega

theorem extendZeroFilled_update (f : File) (n : ℕ) :
    ∃ fptr, extendZeroFilled (update d f.fil.path (some c)) f n =
      (update d f.fil.path (some (padded c n)),
        { f with fil := { f.fil with fptr := fptr } }) := by
  unfold extendZeroFilled
  rw [fSize_update]
  split_ifs with hle
  · exact ⟨f.fil.fptr, by rw [padded_of_le hle]⟩
  · have hfill := zeroFill_update (d := d) (c := c) (f := fLseek f.fil c.length) rfl (n - c.length)
    refine ⟨c.length + (n - c.length), ?_⟩
    simp only [fLseek] at hfill ⊢
    rw [hfill, padded]

theorem positionNativeCursor_eq (f : File) :
    positionNativeCursor f = { f with fil := { f.fil with fptr := f.position } } := by
  obtain ⟨⟨path, fptr⟩, position, append⟩ := f
  simp only [positionNativeCursor, fLseek]
  split_ifs with h
  · rw [h]
  · rfl

theorem oveFsRead_update (f : File) (count : ℕ) : ∃ fptr,
    oveFsRead (update d f.fil.path (some c)) f count =
      ((c.drop f.position).take count,
        { f with
          fil := { f.fil with fptr := fptr }
          position := f.position + ((c.drop f.position).take count).length }) := by
  unfold oveFsRead
  rw [fSize_update]
  split_ifs with hend
  · refine ⟨f.fil.fptr, ?_⟩
    rw [drop_of_length_le hend, take_nil]
    rfl
  · refine ⟨f.position + ((c.drop f.position).take count).length, ?_⟩
    rw [positionNativeCursor_eq]
    simp only [fRead, update_self, Option.getD_some]

theorem oveFsWrite_update (f : File) (data : Bytes) : ∃ fptr,
    oveFsWrite (update d f.fil.path (some c)) f data =
      (update d f.fil.path
        (some (overlaid c (if f.append then c.length else f.position) data)),
        { f with
          fil := { f.fil with fptr := fptr }
          position := (if f.append then c.length else f.position) + data.length }, data.length) := by
  have hstart : (if f.append then { f with position := c.length } else f) =
      { f with position := if f.append then c.length else f.position } := by
    split_ifs <;> rfl
  simp only [oveFsWrite, fSize_update, hstart]
  generalize (if f.append then c.length else f.position) = start
  obtain ⟨fptr, hext⟩ := extendZeroFilled_update (d := d) (c := c)
    { f with position := start } start
  simp only [hext, positionNativeCursor_eq]
  refine ⟨start + data.length, ?_⟩
  simp only [fWrite, update_self, Option.getD_some, update_idem, overlaid]

theorem oveFsTruncate_update (f : File) (hn : n < 2 ^ fsizeBits) : ∃ fptr,
    oveFsTruncate (update d f.fil.path (some c)) f n =
      (.ok, update d f.fil.path (some (padded (c.take n) n)),
        { f with fil := { f.fil with fptr := fptr } }) := by
  have hwrap : Word.wrap fsizeBits n = n := Word.wrap_of_lt hn
  simp only [oveFsTruncate, hwrap, ne_eq, not_true_eq_false, if_false, fSize_update]
  by_cases hgrow : c.length < n
  · obtain ⟨fptr, hext⟩ := extendZeroFilled_update (d := d) (c := c) f n
    refine ⟨fptr, ?_⟩
    have hlen := length_padded (c := c) n
    rw [if_pos hgrow, hext]
    simp only [fSize, update_self, Option.getD_some, hlen]
    rw [if_neg (by omega), take_of_length_le hgrow.le]
  · refine ⟨n, ?_⟩
    rw [if_neg hgrow]
    have hcut : padded (c.take n) n = c.take n := padded_of_le (by simp; omega)
    simp only [fLseek, fSize, update_self, Option.getD_some, hcut]
    split_ifs with hcut
    · simp [fTruncate]
    · rw [take_of_length_le (by omega)]

theorem seekTo_eq (f : File) (pos : ℕ) : seekTo f pos =
    if pos < 2 ^ fsizeBits then (.ok, { f with position := pos }) else (.errInvalidParam, f) := by
  unfold seekTo
  by_cases h : pos < 2 ^ fsizeBits
  · simp [h, Word.wrap_of_lt h]
  · have hne : Word.wrap fsizeBits pos ≠ pos := by
      have := Word.wrap_lt fsizeBits pos
      omega
    simp [h, hne]

theorem toInt_bounds (offset : BitVec arch.bits) :
    -2 ^ 63 ≤ offset.toInt ∧ offset.toInt < 2 ^ 63 := by
  have hhalf : (2 : ℤ) ^ (arch.bits - 1) ≤ 2 ^ 63 := by
    rcases arch.bits_cases with h | h
    · rw [h]
      norm_num
    · rw [h]
  have hlow := BitVec.le_toInt offset
  have hhigh := BitVec.toInt_lt (x := offset)
  constructor
  · linarith
  · linarith

theorem seek_below (hneg : offset < 0) (hlow : -2 ^ 63 ≤ offset) (f : File)
    (hbase : base < 2 ^ fsizeBits) :
    (if base < Word.wrap 64 ((-(offset + 1)).toNat + 1) then (Rc.errInvalidParam, f)
      else seekTo f (base - Word.wrap 64 ((-(offset + 1)).toNat + 1))) =
    if 0 ≤ base + offset ∧ base + offset < 2 ^ fsizeBits then
      (.ok, { f with position := (base + offset).toNat })
    else (.errInvalidParam, f) := by
  have hmag : Word.wrap 64 ((-(offset + 1)).toNat + 1) = (-offset).toNat := by
    rw [Word.wrap_of_lt (by omega)]
    omega
  have hwidth : fsizeBits = 32 := rfl
  rw [hwidth] at hbase
  rw [hmag, seekTo_eq, hwidth]
  by_cases hlt : base < (-offset).toNat
  · rw [if_pos hlt, if_neg (by omega)]
  · have htarget : (base + offset).toNat = base - (-offset).toNat := by omega
    rw [if_neg hlt, if_pos (by omega), if_pos (by omega), htarget]

theorem seek_above (hpos : ¬offset < 0) (hhigh : offset < 2 ^ 63) (f : File)
    (hbase : base < 2 ^ fsizeBits) :
    (if Word.wrap 64 (base + offset.toNat) < base then (Rc.errInvalidParam, f)
      else seekTo f (Word.wrap 64 (base + offset.toNat))) =
    if 0 ≤ base + offset ∧ base + offset < 2 ^ fsizeBits then
      (.ok, { f with position := (base + offset).toNat })
    else (.errInvalidParam, f) := by
  have hwidth : fsizeBits = 32 := rfl
  rw [hwidth] at hbase
  have hsum : Word.wrap 64 (base + offset.toNat) = (base + offset).toNat := by
    rw [Word.wrap_of_lt (by omega)]
    omega
  rw [hsum, seekTo_eq, hwidth, if_neg (by omega)]
  by_cases hlt : (base + offset).toNat < 2 ^ 32
  · rw [if_pos hlt, if_pos (by omega)]
  · rw [if_neg hlt, if_neg (by omega)]

theorem seek_from (offset : BitVec arch.bits) (f : File) (hbase : base < 2 ^ fsizeBits) :
    (if offset.toInt < 0 then
      if base < Word.wrap 64 ((-(offset.toInt + 1)).toNat + 1) then (Rc.errInvalidParam, f)
      else seekTo f (base - Word.wrap 64 ((-(offset.toInt + 1)).toNat + 1))
    else
      if Word.wrap 64 (base + offset.toInt.toNat) < base then (Rc.errInvalidParam, f)
      else seekTo f (Word.wrap 64 (base + offset.toInt.toNat))) =
    if 0 ≤ base + offset.toInt ∧ base + offset.toInt < 2 ^ fsizeBits then
      (.ok, { f with position := (base + offset.toInt).toNat })
    else (.errInvalidParam, f) := by
  obtain ⟨hlow, hhigh⟩ := toInt_bounds offset
  by_cases hneg : offset.toInt < 0
  · rw [if_pos hneg]
    exact seek_below hneg hlow f hbase
  · rw [if_neg hneg]
    exact seek_above hneg hhigh f hbase

end

theorem fileStep_refines {d : Dir} {name : Bytes} {s : Dir × File} {r : RefFile}
    (h : Refines d name s r) (hsize : r.contents.length < 2 ^ 31) (op : FileOp arch)
    (hnext : (refStep arch r op).1.contents.length < 2 ^ 31) :
    Refines d name (fileStep arch s op).1 (refStep arch r op).1 ∧
      (fileStep arch s op).2 = (refStep arch r op).2 := by
  have hwidth : 2 ^ fsizeBits = 2 * 2 ^ 31 := rfl
  obtain ⟨v, f⟩ := s
  obtain ⟨hpath, hvol, hpos, happend, hin⟩ := h
  obtain rfl : f.fil.path = name := hpath
  obtain rfl : v = update d f.fil.path (some r.contents) := hvol
  have hposition : f.position = r.position := hpos
  have hmode : f.append = r.append := happend
  cases op with
  | read count =>
    obtain ⟨fptr, hread⟩ := oveFsRead_update (d := d) (c := r.contents) f count
    simp only [fileStep, refStep, hread, hposition]
    refine ⟨⟨rfl, rfl, rfl, hmode, ?_⟩, trivial⟩
    show r.position + ((r.contents.drop r.position).take count).length < 2 ^ fsizeBits
    simp only [length_take, length_drop]
    omega
  | write data =>
    obtain ⟨fptr, hwrite⟩ := oveFsWrite_update (d := d) (c := r.contents) f data
    simp only [refStep, length_overlaid] at hnext
    simp only [fileStep, refStep, hwrite, hposition, hmode]
    refine ⟨⟨rfl, rfl, rfl, rfl, ?_⟩, trivial⟩
    show (if r.append then r.contents.length else r.position) + data.length < 2 ^ fsizeBits
    omega
  | seek offset whence =>
    have hbase : (if whence = fsSeekSet then some 0 else if whence = fsSeekCur then some r.position
        else if whence = fsSeekEnd then some r.contents.length else none) = r.seekBase whence := rfl
    simp only [fileStep, refStep, oveFsSeek, fSize_update, hposition, hbase]
    cases hb : r.seekBase whence with
    | none => exact ⟨⟨rfl, rfl, hposition, hmode, hin⟩, rfl⟩
    | some base =>
      have hbound : base < 2 ^ fsizeBits := by
        simp only [RefFile.seekBase] at hb
        split_ifs at hb <;> (obtain rfl := Option.some.inj hb; omega)
      have htarget : (if offset.toInt < 0 then _ else _) = _ := seek_from offset f hbound
      simp only [htarget]
      split_ifs with hok
      · refine ⟨⟨rfl, rfl, rfl, hmode, ?_⟩, rfl⟩
        show (base + offset.toInt).toNat < 2 ^ fsizeBits
        have hlt := hok.2
        simp only [fsizeBits] at hlt ⊢
        omega
      · exact ⟨⟨rfl, rfl, hposition, hmode, hin⟩, rfl⟩
  | tell =>
    refine ⟨⟨rfl, rfl, hposition, hmode, hin⟩, ?_⟩
    simp only [fileStep, refStep, oveFsTell, hposition]
  | truncate length =>
    simp only [refStep, length_padded] at hnext
    obtain ⟨fptr, hcut⟩ := oveFsTruncate_update (d := d) (c := r.contents) f
      (show length < 2 ^ fsizeBits by omega)
    simp only [fileStep, refStep, hcut]
    exact ⟨⟨rfl, rfl, hposition, hmode, hin⟩, trivial⟩

/-- An open file below `2 ^ 31` bytes answers as the reference file does; no other file changes. -/
theorem file_refines {d : Dir} {f : File} {contents : Bytes} (hopen : d f.fil.path = some contents)
    (hpos : f.position < 2 ^ fsizeBits) {ops : List (FileOp arch)}
    (hsmall : Machine.Throughout (refStep arch) (fun r => r.contents.length < 2 ^ 31)
      ⟨contents, f.position, f.append⟩ ops) :
    (Machine.run (fileStep arch) (d, f) ops).2 =
        (Machine.run (refStep arch) ⟨contents, f.position, f.append⟩ ops).2 ∧
      (Machine.run (fileStep arch) (d, f) ops).1.1 = update d f.fil.path
        (some (Machine.run (refStep arch) ⟨contents, f.position, f.append⟩ ops).1.contents) := by
  have hstart : Refines d f.fil.path (d, f) ⟨contents, f.position, f.append⟩ := by
    refine ⟨rfl, ?_, rfl, rfl, hpos⟩
    show d = update d f.fil.path (some contents)
    rw [← hopen, update_eq_self]
  have hstep (s : Dir × File) (r : RefFile) (op : FileOp arch) (h : Refines d f.fil.path s r)
      (hsize : r.contents.length < 2 ^ 31) := fileStep_refines h hsize op
  obtain ⟨hend, hout⟩ := Machine.run_simulates_within hstep hstart hsmall
  exact ⟨hout, hend.volume⟩

def shortUse : List (FileOp .arm32) :=
  [.read 5, .seek 3 fsSeekSet, .write [9], .seek (-9) fsSeekEnd, .truncate 2, .tell,
    .seek 0 fsSeekSet, .read 8]

theorem shortUse_refines :
    (Machine.run (fileStep .arm32)
        (update (fun _ => none) [102] (some [7]), ⟨⟨[102], 1⟩, 0, false⟩) shortUse).2 =
      [.bytes [7], .status .ok, .written 1, .status .errInvalidParam, .status .ok, .position 4,
        .status .ok, .bytes [7, 0]] := by
  have hsmall : Machine.Throughout (refStep .arm32) (fun r => r.contents.length < 2 ^ 31)
      ⟨[7], 0, false⟩ shortUse := by decide +kernel
  have hopen : update (fun _ => none) [102] (some [7]) [102] = some ([7] : Bytes) := rfl
  have hpos : 0 < 2 ^ fsizeBits := by decide
  rw [(@file_refines .arm32 _ ⟨⟨[102], 1⟩, 0, false⟩ [7] hopen hpos shortUse hsmall).1]
  rfl

end Overtos.Fs
