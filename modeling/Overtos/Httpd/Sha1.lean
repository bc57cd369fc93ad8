import Overtos.Lib.Checked
import Overtos.Lib.CString
import Overtos.Lib.Sha1
import Overtos.Lib.Word

/-! `ove_sha1`, which the WebSocket handshake uses: its digest, and the bytes it reads. -/
namespace Overtos.Httpd.Sha
open CStr Checked Sha1 Option

def rotl32 (x n : UInt32) : UInt32 := (x <<< n) ||| (x >>> (32 - n))

def loadWords (block : ℕ → Reading UInt8) : ℕ → ℕ → List UInt32 → Reading (List UInt32)
  | 0, _, w => pure w
  | todo + 1, i, w => do
    let b0 ← block (i * 4 + 0)
    let b1 ← block (i * 4 + 1)
    let b2 ← block (i * 4 + 2)
    let b3 ← block (i * 4 + 3)
    loadWords block todo (i + 1)
      (w ++ [b0.toUInt32 <<< 24 ||| b1.toUInt32 <<< 16 ||| b2.toUInt32 <<< 8 ||| b3.toUInt32])

def extendWords : ℕ → ℕ → List UInt32 → Option (List UInt32)
  | 0, _, w => some w
  | todo + 1, i, w => do
    let w3 ← w[i - 3]?
    let w8 ← w[i - 8]?
    let w14 ← w[i - 14]?
    let w16 ← w[i - 16]?
    extendWords todo (i + 1) (w ++ [rotl32 (w3 ^^^ w8 ^^^ w14 ^^^ w16) 1])

def select (i : ℕ) (b c d : UInt32) : UInt32 × UInt32 :=
  if i < 20 then ((b &&& c) ||| (~~~b &&& d), 0x5A827999)
  else if i < 40 then (b ^^^ c ^^^ d, 0x6ED9EBA1)
  else if i < 60 then ((b &&& c) ||| (b &&& d) ||| (c &&& d), 0x8F1BBCDC)
  else (b ^^^ c ^^^ d, 0xCA62C1D6)

def mix (w : List UInt32) : ℕ → ℕ → State → Option State
  | 0, _, s => some s
  | todo + 1, i, s => do
    let wi ← w[i]?
    let (f, k) := select i s.b s.c s.d
    let t := rotl32 s.a 5 + f + s.e + k + wi
    mix w todo (i + 1) ⟨t, s.a, rotl32 s.b 30, s.c, s.d⟩

def sha1Transform (state : State) (block : ℕ → Reading UInt8) : Reading State := do
  let w ← loadWords block 16 0 []
  let w ← extendWords 64 16 w
  let r ← mix w 80 0 state
  return ⟨state.a + r.a, state.b + r.b, state.c + r.c, state.d + r.d, state.e + r.e⟩

def inputBlock (data : Bytes) (p : ℕ) (j : ℕ) : Reading UInt8 := readAt data (p + j)

def localBlock (block : Bytes) (j : ℕ) : Reading UInt8 := liftM block[j]?

def wholeBlocks (data : Bytes) : ℕ → ℕ → ℕ → State → Reading (State × ℕ × ℕ)
  | 0, p, remaining, state => pure (state, p, remaining)
  | fuel + 1, p, remaining, state =>
    if 64 ≤ remaining then do
      let state ← sha1Transform state (inputBlock data p)
      wholeBlocks data fuel (p + 64) (remaining - 64) state
    else pure (state, p, remaining)

def writeWords : List UInt32 → ℕ → Bytes → Option Bytes
  | [], _, out => some out
  | w :: ws, i, out => do
    let out ← Checked.put out (i * 4)
      [(w >>> 24).toUInt8, (w >>> 16).toUInt8, (w >>> 8).toUInt8, w.toUInt8]
    writeWords ws (i + 1) out

def lengthBlock (state : State) (block : Bytes) (len : ℕ) : Reading State := do
  let bits := len * 8 % 2 ^ 64
  let block ← Checked.put block 56 [.ofNat (bits / 2 ^ 56), .ofNat (bits / 2 ^ 48),
    .ofNat (bits / 2 ^ 40), .ofNat (bits / 2 ^ 32), .ofNat (bits / 2 ^ 24), .ofNat (bits / 2 ^ 16),
    .ofNat (bits / 2 ^ 8), .ofNat bits]
  sha1Transform state (localBlock block)

def lastBlocks (state : State) (rest : Bytes) (remaining len : ℕ) : Reading State := do
  let block ← Checked.put (List.replicate 64 0) 0 rest
  let block ← Checked.put block remaining [0x80]
  if 56 ≤ remaining then do
    let state ← sha1Transform state (localBlock block)
    lengthBlock state (List.replicate 64 0) len
  else lengthBlock state block len

def oveSha1 (data : Bytes) (len : ℕ) (out : Bytes) : Reading Bytes := do
  let (state, p, remaining) ← wholeBlocks data len 0 len
    ⟨0x67452301, 0xEFCDAB89, 0x98BADCFE, 0x10325476, 0xC3D2E1F0⟩
  let rest ← readRange data p remaining
  let state ← lastBlocks state rest remaining len
  writeWords state.words 0 out

@[simp] theorem rotl32_one (x : UInt32) : rotl32 x 1 = rotate 1 x := rfl

@[simp] theorem rotl32_five (x : UInt32) : rotl32 x 5 = rotate 5 x := rfl

@[simp] theorem rotl32_thirty (x : UInt32) : rotl32 x 30 = rotate 30 x := rfl

theorem word_eq (b0 b1 b2 b3 : UInt8) :
    b0.toUInt32 <<< 24 ||| b1.toUInt32 <<< 16 ||| b2.toUInt32 <<< 8 ||| b3.toUInt32 =
      .ofNat ((b0.toNat * 256 + b1.toNat) * 256 ^ 2 + b2.toNat * 256 + b3.toNat) := by
  rw [← Word.toNat_join_bytes, UInt32.ofNat_toNat]

section

variable {block : ℕ → Reading UInt8} {bytes : Bytes} {touched : ℕ → List ℕ}

def Serves (block : ℕ → Reading UInt8) (bytes : Bytes) (touched : ℕ → List ℕ) : Prop :=
  ∀ j < 64, ∀ log, block j log = some (bytes.getD j 0, log ++ touched j)

variable {todo i : ℕ}

theorem loadWords_run (hblock : Serves block bytes touched) (h : i + todo ≤ 16) (w : List UInt32)
    (log : List ℕ) :
    loadWords block todo i w log = some (w ++ (List.range' i todo).map (blockWord bytes),
      log ++ (List.range' (4 * i) (4 * todo)).flatMap touched) := by
  induction todo generalizing i w log with
  | zero =>
    rw [Nat.mul_zero, List.range'_zero, List.map_nil, List.append_nil, List.range'_zero,
      List.flatMap_nil, List.append_nil]
    rfl
  | succ todo ih =>
    have hread (k : ℕ) (hk : k < 4) := hblock (4 * i + k) (by omega)
    have hword : _ = blockWord bytes i := word_eq (bytes.getD (4 * i + 0) 0)
      (bytes.getD (4 * i + 1) 0) (bytes.getD (4 * i + 2) 0) (bytes.getD (4 * i + 3) 0)
    rw [loadWords, Nat.mul_comm i 4, Reading.bind_run (hread 0 (by decide) _),
      Reading.bind_run (hread 1 (by decide) _), Reading.bind_run (hread 2 (by decide) _),
      Reading.bind_run (hread 3 (by decide) _), hword, ih (by omega)]
    simp only [Nat.mul_add, Nat.mul_one, List.range'_succ, List.map_cons, List.flatMap_cons,
      List.append_assoc, List.cons_append, List.nil_append, Nat.add_assoc, Nat.add_zero]

theorem extendWords_run (bytes : Bytes) (h : 16 ≤ i) (todo : ℕ) :
    extendWords todo i ((List.range i).map (schedule bytes)) =
      some ((List.range (i + todo)).map (schedule bytes)) := by
  induction todo generalizing i with
  | zero => rfl
  | succ todo ih =>
    have hread (k : ℕ) (hk : 0 < k) : ((List.range i).map (schedule bytes))[i - k]? =
        some (schedule bytes (i - k)) := by
      rw [List.getElem?_map, List.getElem?_range (by omega), map_some]
    have hnext := ih (i := i + 1) (by omega)
    rw [List.range_succ, List.map_append, List.map_singleton, schedule_of_ge bytes h] at hnext
    simp only [extendWords, hread 3 (by decide), hread 8 (by decide), hread 14 (by decide),
      hread 16 (by decide), bind_eq_bind, bind_some, rotl32_one, hnext]
    rw [Nat.add_assoc, Nat.add_comm 1 todo]

theorem mix_run (bytes : Bytes) (h : i + todo ≤ 80) (s : State) :
    mix ((List.range 80).map (schedule bytes)) todo i s =
      some ((List.range' i todo).foldl (fun s t => round t (schedule bytes t) s) s) := by
  induction todo generalizing i s with
  | zero => rfl
  | succ todo ih =>
    have hread : ((List.range 80).map (schedule bytes))[i]? = some (schedule bytes i) := by
      rw [List.getElem?_map, List.getElem?_range (by omega), map_some]
    have hround : (⟨rotl32 s.a 5 + (select i s.b s.c s.d).1 + s.e + (select i s.b s.c s.d).2 +
        schedule bytes i, s.a, rotl32 s.b 30, s.c, s.d⟩ : State) =
        round i (schedule bytes i) s := by
      have hselect : select i s.b s.c s.d = (f i s.b s.c s.d, k i) := by
        unfold select f k
        split_ifs <;> rfl
      rw [hselect, rotl32_five, rotl32_thirty, Sha1.round, UInt32.add_assoc _ (k i),
        UInt32.add_comm (k i), ← UInt32.add_assoc]
    rw [mix, hread, List.range'_succ, List.foldl_cons, ← hround, ← ih (by omega)]
    rfl

theorem sha1Transform_run (hblock : Serves block bytes touched) (state : State) (log : List ℕ) :
    sha1Transform state block log =
      some (compress state bytes, log ++ (List.range 64).flatMap touched) := by
  have hload := loadWords_run hblock (Nat.le_refl (0 + 16)) [] log
  have hwords : [] ++ (List.range' 0 16).map (blockWord bytes) =
      (List.range 16).map (schedule bytes) := by
    rw [List.nil_append, ← List.range_eq_range']
    exact List.map_congr_left fun t ht => (schedule_of_lt bytes (List.mem_range.mp ht)).symm
  rw [hwords] at hload
  have hextend := extendWords_run bytes (Nat.le_refl 16) 64
  have hmix := mix_run bytes (Nat.le_refl (0 + 80)) state
  rw [sha1Transform, Reading.bind_run hload, Reading.bind_run (Reading.lift_run hextend _),
    Reading.bind_run (Reading.lift_run hmix _), ← List.range_eq_range']
  rfl

end

variable {data block front rest : Bytes} {p len n : ℕ}

theorem inputBlock_serves (h : p + 64 ≤ data.length) :
    Serves (inputBlock data p) ((data.drop p).take 64) fun j => [p + j] := by
  intro j hj log
  have hin : p + j < data.length := by omega
  rw [inputBlock, readAt_run hin, List.getD_eq_getElem?_getD, List.getElem?_take_of_lt hj,
    List.getElem?_drop, List.getElem?_eq_getElem hin, getD_some]

theorem localBlock_serves (h : block.length = 64) :
    Serves (localBlock block) block fun _ => [] := by
  intro j hj log
  have hin := List.getElem?_eq_getElem (show j < block.length by omega)
  rw [localBlock, Reading.lift_run hin, List.append_nil, List.getD_eq_getElem?_getD, hin, getD_some]

theorem wholeBlocks_run {fuel remaining : ℕ} (hfuel : remaining ≤ fuel)
    (h : p + remaining ≤ data.length) (state : State) (log : List ℕ) :
    wholeBlocks data fuel p remaining state log =
      some ((absorb (remaining / 64) state (data.drop p), p + 64 * (remaining / 64),
        remaining % 64), log ++ List.range' p (64 * (remaining / 64))) := by
  induction fuel generalizing p remaining state log with
  | zero =>
    rw [Nat.le_zero.mp hfuel]
    simp only [wholeBlocks, Nat.zero_div, Nat.mul_zero, List.range'_zero, List.append_nil]
    rfl
  | succ fuel ih =>
    rw [wholeBlocks]
    split_ifs with hwhole
    · have hturns : remaining / 64 = (remaining - 64) / 64 + 1 := by omega
      have hread := sha1Transform_run (@inputBlock_serves data p (by omega)) state log
      have hlog : (List.range 64).flatMap (fun j => [p + j]) = List.range' p 64 := by
        rw [List.range'_eq_map_range]
        exact List.flatMap_pure_eq_map _ _
      have hmod : (remaining - 64) % 64 = remaining % 64 := by omega
      have hnext : 64 + 64 * ((remaining - 64) / 64) = 64 * ((remaining - 64) / 64 + 1) := by
        omega
      rw [Reading.bind_run hread, ih (by omega) (by omega), hturns, absorb, hlog, hmod,
        List.drop_drop, List.append_assoc, List.range'_append_1, Nat.add_assoc, hnext]
    · have hnone : remaining / 64 = 0 := by omega
      rw [hnone, Nat.mod_eq_of_lt (by omega), Nat.mul_zero, List.range'_zero, List.append_nil]
      rfl

theorem sha1Transform_localBlock (h : block.length = 64) (state : State) (log : List ℕ) :
    sha1Transform state (localBlock block) log = some (compress state block, log) := by
  rw [sha1Transform_run (localBlock_serves h), List.flatMap_eq_nil_iff.mpr fun _ _ => rfl,
    List.append_nil]

theorem lengthBytes_eq (h : len < 2 ^ 61) :
    [.ofNat (len * 8 % 2 ^ 64 / 2 ^ 56), .ofNat (len * 8 % 2 ^ 64 / 2 ^ 48),
      .ofNat (len * 8 % 2 ^ 64 / 2 ^ 40), .ofNat (len * 8 % 2 ^ 64 / 2 ^ 32),
      .ofNat (len * 8 % 2 ^ 64 / 2 ^ 24), .ofNat (len * 8 % 2 ^ 64 / 2 ^ 16),
      .ofNat (len * 8 % 2 ^ 64 / 2 ^ 8), .ofNat (len * 8 % 2 ^ 64)] = lowBytes 8 (8 * len) := by
  rw [Nat.mod_eq_of_lt (by omega), Nat.mul_comm]
  simp [lowBytes, List.range_succ]

theorem lengthBlock_run (hfront : front.length = 56) (hlen : len < 2 ^ 61) (state : State)
    (log : List ℕ) :
    lengthBlock state (front ++ List.replicate 8 0) len log =
      some (compress state (front ++ lowBytes 8 (8 * len)), log) := by
  have hput : Checked.put (front ++ List.replicate 8 0) 56 (lowBytes 8 (8 * len)) =
      some (front ++ lowBytes 8 (8 * len)) := by
    rw [Checked.put_append hfront.symm (by rw [length_lowBytes, List.length_replicate]),
      length_lowBytes, List.drop_replicate, List.replicate_zero, List.append_nil]
  rw [← lengthBytes_eq hlen] at hput ⊢
  rw [lengthBlock, Reading.bind_run (Reading.lift_run hput log)]
  exact sha1Transform_localBlock (by simp [hfront]) state log

theorem lastBlocks_run (hrest : rest.length < 64) (hlen : len < 2 ^ 61) (state : State)
    (log : List ℕ) {tail : Bytes}
    (htail : tail = rest ++ 0x80 :: List.replicate (zeros rest.length) 0 ++ lowBytes 8 (8 * len)) :
    lastBlocks state rest rest.length len log =
      some (absorb (tail.length / 64) state tail, log) := by
  have hcopy : Checked.put (List.replicate 64 0) 0 rest =
      some (rest ++ List.replicate (64 - rest.length) 0) := by
    have h := @Checked.put_append UInt8 [] (List.replicate 64 0) rest 0 rfl
      (by rw [List.length_replicate]; omega)
    rwa [List.drop_replicate] at h
  have hmark : Checked.put (rest ++ List.replicate (64 - rest.length) 0) rest.length [0x80] =
      some (rest ++ 0x80 :: List.replicate (63 - rest.length) 0) := by
    rw [Checked.put_append rfl (by rw [List.length_replicate, List.length_singleton]; omega),
      List.drop_replicate, List.append_assoc, List.length_singleton,
      show 64 - rest.length - 1 = 63 - rest.length by omega]
    rfl
  rw [lastBlocks, Reading.bind_run (Reading.lift_run hcopy _),
    Reading.bind_run (Reading.lift_run hmark _)]
  split_ifs with hlong
  · -- The length goes into a block of its own, behind 56 zeros.
    have hfirst : (rest ++ 0x80 :: List.replicate (63 - rest.length) 0).length = 64 := by
      rw [List.length_append, List.length_cons, List.length_replicate]
      omega
    have hzeros : zeros rest.length = (63 - rest.length) + 56 := by
      unfold zeros
      omega
    rw [hzeros, ← List.replicate_append_replicate, ← List.cons_append, ← List.append_assoc,
      List.append_assoc] at htail
    have hblocks : tail.length / 64 = 2 := by
      rw [htail, List.length_append, hfirst, List.length_append, List.length_replicate,
        length_lowBytes]
    have hsecond := @lengthBlock_run (List.replicate 56 0) len List.length_replicate hlen
      (compress state (rest ++ 0x80 :: List.replicate (63 - rest.length) 0)) log
    rw [List.replicate_append_replicate] at hsecond
    rw [Reading.bind_run (sha1Transform_localBlock hfirst state log), hsecond, hblocks, htail,
      absorb_block 1 _ hfirst, absorb_one _ (by simp)]
  · have hzeros : zeros rest.length = 55 - rest.length := by
      unfold zeros
      omega
    have hfront : (rest ++ 0x80 :: List.replicate (55 - rest.length) 0).length = 56 := by
      rw [List.length_append, List.length_cons, List.length_replicate]
      omega
    rw [hzeros] at htail
    have hblocks : tail.length = 64 := by
      rw [htail, List.length_append, hfront, length_lowBytes]
    have hroom : rest ++ 0x80 :: List.replicate (63 - rest.length) 0 =
        rest ++ 0x80 :: List.replicate (55 - rest.length) 0 ++ List.replicate 8 0 := by
      rw [List.append_assoc, List.cons_append, List.replicate_append_replicate,
        show 55 - rest.length + 8 = 63 - rest.length by omega]
    rw [hroom, lengthBlock_run hfront hlen, ← htail, hblocks, absorb_one _ hblocks]

theorem wordBytes_eq (w : UInt32) :
    [(w >>> 24).toUInt8, (w >>> 16).toUInt8, (w >>> 8).toUInt8, w.toUInt8] =
      lowBytes 4 w.toNat := by
  simp only [lowBytes, List.range_succ, List.range_zero, List.nil_append, List.map_cons,
    List.map_nil, List.cons_append, List.cons.injEq, ← UInt8.toNat_inj, UInt32.toNat_toUInt8,
    UInt32.toNat_shiftRight, UInt8.toNat_ofNat', Nat.shiftRight_eq_div_pow]
  exact ⟨rfl, rfl, rfl, by rw [Nat.sub_self, pow_zero, Nat.div_one], trivial⟩

theorem writeWords_run (ws : List UInt32) {i : ℕ} {written free : Bytes}
    (hwritten : i * 4 = written.length) (hfree : free.length = 4 * ws.length) :
    writeWords ws i (written ++ free) =
      some (written ++ ws.flatMap fun w => lowBytes 4 w.toNat) := by
  induction ws generalizing i written free with
  | nil =>
    rw [List.eq_nil_of_length_eq_zero hfree]
    rfl
  | cons w ws ih =>
    rw [List.length_cons] at hfree
    have hput : Checked.put (written ++ free) (i * 4) (lowBytes 4 w.toNat) = _ :=
      Checked.put_append hwritten (by rw [length_lowBytes]; omega)
    rw [writeWords, wordBytes_eq, hput, bind_eq_bind, bind_some, ih,
      List.flatMap_cons, List.append_assoc]
    · rw [List.length_append, length_lowBytes]
      omega
    · rw [List.length_drop, length_lowBytes]
      omega

theorem pad_split (hfront : front.length = 64 * n) :
    pad (front ++ rest) = front ++ (rest ++ 0x80 :: List.replicate (zeros rest.length) 0 ++
      lowBytes 8 (8 * (front ++ rest).length)) := by
  have hzeros : zeros (front ++ rest).length = zeros rest.length := by
    rw [zeros, List.length_append, hfront, Nat.mul_add_mod]
    rfl
  rw [pad, hzeros]
  simp only [List.append_assoc]

theorem oveSha1_append (hfront : front.length = 64 * n) (hrest : rest.length < 64)
    (h : (front ++ rest).length < 2 ^ 61) (out : Vector UInt8 20) :
    oveSha1 (front ++ rest) (front ++ rest).length out.toList [] =
      some (digest (front ++ rest), List.range (front ++ rest).length) := by
  have hlength : (front ++ rest).length = 64 * n + rest.length := by
    rw [List.length_append, hfront]
  have hquot : (front ++ rest).length / 64 = n := by omega
  have hmod : (front ++ rest).length % 64 = rest.length := by omega
  have hlog : List.range' 0 (64 * n) ++ List.range' (64 * n) rest.length =
      List.range (front ++ rest).length := by
    rw [hlength, List.range_eq_range', ← List.range'_append_1, Nat.zero_add]
  have hwhole := wholeBlocks_run (Nat.le_refl (front ++ rest).length)
    (Nat.le_of_eq (Nat.zero_add _)) init []
  have habsorb : absorb n init (front ++ rest) = absorb n init front :=
    absorb_append n 0 init front rest hfront
  rw [hquot, hmod, List.drop_zero, List.nil_append, Nat.zero_add, habsorb] at hwhole
  have hread := readRange_run (Nat.le_of_eq hlength.symm) (List.range' 0 (64 * n))
  rw [hlog, List.drop_left' hfront, List.take_length] at hread
  obtain ⟨tail, htail⟩ : ∃ tail, tail = rest ++ 0x80 :: List.replicate (zeros rest.length) 0 ++
    lowBytes 8 (8 * (front ++ rest).length) := ⟨_, rfl⟩
  have hlast := lastBlocks_run hrest h (absorb n init front) (List.range (front ++ rest).length)
    htail
  have hpad : pad (front ++ rest) = front ++ tail := htail ▸ pad_split hfront
  have hblocks : (pad (front ++ rest)).length / 64 = n + tail.length / 64 := by
    rw [hpad, List.length_append, hfront]
    omega
  have hwrite (s : State) : writeWords s.words 0 out.toList =
      some (s.words.flatMap fun w => lowBytes 4 w.toNat) :=
    @writeWords_run s.words 0 [] out.toList rfl out.length_toList
  refine (Reading.bind_run hwhole _).trans ?_
  dsimp only
  rw [Reading.bind_run hread, Reading.bind_run hlast, digest, hblocks, hpad,
    absorb_append _ _ _ _ _ hfront]
  exact Reading.lift_run (hwrite _) _

theorem oveSha1_digest (data : Bytes) (h : data.length < 2 ^ 61) (out : Vector UInt8 20) :
    oveSha1 data data.length out.toList [] = some (digest data, List.range data.length) := by
  have hsplit := List.take_append_drop (64 * (data.length / 64)) data
  rw [← hsplit] at h ⊢
  refine oveSha1_append (n := data.length / 64) ?_ ?_ h out
  · rw [List.length_take]
    omega
  · rw [List.length_drop]
    omega

theorem oveSha1_abc :
    oveSha1 (ascii "abc") 3 (Vector.replicate 20 0).toList [] =
      some (digest (ascii "abc"), [0, 1, 2]) :=
  oveSha1_digest (ascii "abc") (by decide) (Vector.replicate 20 0)

example : (oveSha1 (ascii "abc") 3 (List.replicate 20 0) []).map Prod.fst =
    some [0xa9, 0x99, 0x3e, 0x36, 0x47, 0x06, 0x81, 0x6a, 0xba, 0x3e, 0x25, 0x71, 0x78, 0x50, 0xc2,
      0x6c, 0x9c, 0xd0, 0xd8, 0x9d] := by decide +kernel

end Overtos.Httpd.Sha
