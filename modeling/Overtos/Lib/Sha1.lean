import Mathlib.Tactic

/-! SHA-1 of byte strings as RFC 3174 defines it. -/
namespace Sha1
open List

structure State where
  a : UInt32
  b : UInt32
  c : UInt32
  d : UInt32
  e : UInt32
  deriving DecidableEq, Repr

def State.words (s : State) : List UInt32 := [s.a, s.b, s.c, s.d, s.e]

def init : State := ⟨0x67452301, 0xEFCDAB89, 0x98BADCFE, 0x10325476, 0xC3D2E1F0⟩

def rotate (n : ℕ) (x : UInt32) : UInt32 := ⟨x.toBitVec.rotateLeft n⟩

def f (t : ℕ) (b c d : UInt32) : UInt32 :=
  if t < 20 then (b &&& c) ||| (~~~b &&& d)
  else if t < 40 then b ^^^ c ^^^ d
  else if t < 60 then (b &&& c) ||| (b &&& d) ||| (c &&& d)
  else b ^^^ c ^^^ d

def k (t : ℕ) : UInt32 :=
  if t < 20 then 0x5A827999
  else if t < 40 then 0x6ED9EBA1
  else if t < 60 then 0x8F1BBCDC
  else 0xCA62C1D6

def blockWord (block : List UInt8) (t : ℕ) : UInt32 :=
  .ofNat (((block.getD (4 * t) 0).toNat * 256 + (block.getD (4 * t + 1) 0).toNat) * 256 ^ 2 +
    (block.getD (4 * t + 2) 0).toNat * 256 + (block.getD (4 * t + 3) 0).toNat)

def schedule (block : List UInt8) (t : ℕ) : UInt32 :=
  if t < 16 then blockWord block t
  else rotate 1 (schedule block (t - 3) ^^^ schedule block (t - 8) ^^^ schedule block (t - 14) ^^^
    schedule block (t - 16))

theorem schedule_of_lt (block : List UInt8) {t : ℕ} (h : t < 16) :
    schedule block t = blockWord block t := by
  rw [schedule, if_pos h]

theorem schedule_of_ge (block : List UInt8) {t : ℕ} (h : 16 ≤ t) :
    schedule block t = rotate 1 (schedule block (t - 3) ^^^ schedule block (t - 8) ^^^
      schedule block (t - 14) ^^^ schedule block (t - 16)) := by
  rw [schedule, if_neg (Nat.not_lt.mpr h)]

def round (t : ℕ) (w : UInt32) (s : State) : State where
  a := rotate 5 s.a + f t s.b s.c s.d + s.e + w + k t
  b := s.a
  c := rotate 30 s.b
  d := s.c
  e := s.d

def rounds (block : List UInt8) (s : State) : State :=
  (range 80).foldl (fun s t => round t (schedule block t) s) s

def compress (s : State) (block : List UInt8) : State where
  a := s.a + (rounds block s).a
  b := s.b + (rounds block s).b
  c := s.c + (rounds block s).c
  d := s.d + (rounds block s).d
  e := s.e + (rounds block s).e

def absorb : ℕ → State → List UInt8 → State
  | 0, s, _ => s
  | n + 1, s, bytes => absorb n (compress s (bytes.take 64)) (bytes.drop 64)

variable {block : List UInt8}

theorem absorb_block (n : ℕ) (s : State) (h : block.length = 64) (rest : List UInt8) :
    absorb (n + 1) s (block ++ rest) = absorb n (compress s block) rest := by
  rw [absorb, take_left' h, drop_left' h]

theorem absorb_one (s : State) (h : block.length = 64) : absorb 1 s block = compress s block := by
  have hlast := absorb_block 0 s h []
  rwa [append_nil] at hlast

theorem absorb_append (n m : ℕ) (s : State) (front rest : List UInt8)
    (h : front.length = 64 * n) :
    absorb (n + m) s (front ++ rest) = absorb m (absorb n s front) rest := by
  induction n generalizing s front with
  | zero =>
    rw [eq_nil_of_length_eq_zero h, Nat.zero_add]
    rfl
  | succ n ih =>
    rw [Nat.add_right_comm, absorb, absorb, take_append_of_le_length (by omega),
      drop_append_of_le_length (by omega), ih _ _ (by rw [length_drop]; omega)]

def lowBytes (k n : ℕ) : List UInt8 := (range k).map fun i => .ofNat (n / 256 ^ (k - 1 - i))

@[simp] theorem length_lowBytes (k n : ℕ) : (lowBytes k n).length = k := by
  rw [lowBytes, length_map, length_range]

def zeros (len : ℕ) : ℕ := (119 - len % 64) % 64

def pad (message : List UInt8) : List UInt8 :=
  message ++ 0x80 :: replicate (zeros message.length) 0 ++ lowBytes 8 (8 * message.length)

def digest (message : List UInt8) : List UInt8 :=
  (absorb ((pad message).length / 64) init (pad message)).words.flatMap fun w => lowBytes 4 w.toNat

end Sha1
