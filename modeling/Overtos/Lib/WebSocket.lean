import Mathlib.Tactic

/-! What a WebSocket client sends by RFC 6455, save for frames that end the connection, and a reader
of single frames. -/
namespace WebSocket
open List

inductive Opcode where
  | continuation | text | binary | ping | pong
  deriving DecidableEq, Repr

def Opcode.code : Opcode → ℕ
  | .continuation => 0
  | .text => 1
  | .binary => 2
  | .ping => 9
  | .pong => 10

def Opcode.isControl : Opcode → Bool
  | .ping | .pong => true
  | _ => false

def Opcode.starts : Opcode → Bool
  | .text | .binary => true
  | _ => false

def bigEndian : ℕ → ℕ → List UInt8
  | 0, _ => []
  | k + 1, n => bigEndian k (n / 256) ++ [.ofNat n]

def value (bs : List UInt8) : ℕ := bs.foldl (fun n b => n * 256 + b.toNat) 0

theorem value_append_singleton (bs : List UInt8) (b : UInt8) :
    value (bs ++ [b]) = value bs * 256 + b.toNat := by
  simp [value]

@[simp] theorem length_bigEndian (k n : ℕ) : (bigEndian k n).length = k := by
  induction k generalizing n with
  | zero => rfl
  | succ k ih => rw [bigEndian, length_append, ih, length_singleton]

variable {k n : ℕ}

theorem value_bigEndian (h : n < 256 ^ k) : value (bigEndian k n) = n := by
  induction k generalizing n with
  | zero =>
    rw [pow_zero, Nat.lt_one_iff] at h
    rw [h]
    rfl
  | succ k ih =>
    have hhigh : n / 256 < 256 ^ k := Nat.div_lt_of_lt_mul (by rwa [← pow_succ'])
    have hlow : (UInt8.ofNat n).toNat = n % 256 := UInt8.toNat_ofNat'
    rw [bigEndian, value_append_singleton, ih hhigh, hlow]
    omega

theorem bigEndian_add (j k n : ℕ) :
    bigEndian (j + k) n = bigEndian j (n / 256 ^ k) ++ bigEndian k n := by
  induction k generalizing n with
  | zero => simp [bigEndian]
  | succ k ih =>
    rw [← Nat.add_assoc, bigEndian, ih, Nat.div_div_eq_div_mul, ← pow_succ', bigEndian,
      append_assoc]

theorem any_bigEndian (h : n < 256 ^ k) : (bigEndian k n).any (· ≠ 0) = decide (n ≠ 0) := by
  induction k generalizing n with
  | zero =>
    rw [pow_zero, Nat.lt_one_iff] at h
    simp [bigEndian, h]
  | succ k ih =>
    have hhigh : n / 256 < 256 ^ k := Nat.div_lt_of_lt_mul (by rwa [← pow_succ'])
    have hlow : UInt8.ofNat n = 0 ↔ n % 256 = 0 := by
      rw [← UInt8.toNat_inj, UInt8.toNat_ofNat']
      rfl
    rw [bigEndian, any_append, ih hhigh, any_cons, any_nil, Bool.or_false,
      ← Bool.decide_or, decide_eq_decide]
    simp only [ne_eq, hlow]
    omega

def xorMask (mask data : List UInt8) : List UInt8 :=
  data.mapIdx fun i b => b ^^^ mask.getD (i % 4) 0

@[simp] theorem length_xorMask (mask data : List UInt8) :
    (xorMask mask data).length = data.length := by
  simp [xorMask]

theorem xorMask_xorMask (mask data : List UInt8) : xorMask mask (xorMask mask data) = data := by
  rw [xorMask, xorMask, mapIdx_mapIdx]
  refine ext_getElem (by simp) fun i _ _ => ?_
  simp only [getElem_mapIdx, Function.comp_apply, UInt8.xor_assoc, UInt8.xor_self, UInt8.xor_zero]

inductive Form where
  | short | medium | long
  deriving DecidableEq, Repr

def Form.Fits : Form → ℕ → Prop
  | .short, n => n ≤ 125
  | .medium, n => n < 2 ^ 16
  | .long, n => n < 2 ^ 63

instance : (form : Form) → (n : ℕ) → Decidable (form.Fits n)
  | .short, n => inferInstanceAs (Decidable (n ≤ 125))
  | .medium, n => inferInstanceAs (Decidable (n < 2 ^ 16))
  | .long, n => inferInstanceAs (Decidable (n < 2 ^ 63))

structure Frame where
  fin : Bool
  opcode : Opcode
  form : Form
  mask : List UInt8
  payload : List UInt8
  four : mask.length = 4
  fits : form.Fits payload.length
  control : opcode.isControl = true → fin = true ∧ payload.length ≤ 125

def lengthField : Form → ℕ → List UInt8
  | .short, n => [.ofNat (128 + n)]
  | .medium, n => 254 :: bigEndian 2 n
  | .long, n => 255 :: bigEndian 8 n

def Frame.encode (f : Frame) : List UInt8 :=
  .ofNat ((if f.fin then 128 else 0) + f.opcode.code) :: lengthField f.form f.payload.length ++
    f.mask ++ xorMask f.mask f.payload

structure Fragment where
  controls : List Frame
  frame : Frame
  control : ∀ f ∈ controls, f.opcode.isControl = true
  continues : frame.opcode = .continuation

structure Fragmented where
  controls : List Frame
  first : Frame
  rest : List Fragment
  control : ∀ f ∈ controls, f.opcode.isControl = true
  starts : first.opcode.starts = true
  final : first.fin :: rest.map (·.frame.fin) = replicate rest.length false ++ [true]

def Fragmented.frames (m : Fragmented) : List Frame :=
  m.controls ++ m.first :: m.rest.flatMap fun part => part.controls ++ [part.frame]

def Fragmented.payload (m : Fragmented) : List UInt8 :=
  m.first.payload ++ m.rest.flatMap (·.frame.payload)

structure Conversation where
  messages : List Fragmented
  controls : List Frame
  control : ∀ f ∈ controls, f.opcode.isControl = true

def Conversation.frames (t : Conversation) : List Frame :=
  t.messages.flatMap Fragmented.frames ++ t.controls

def Form.size : Form → ℕ
  | .short => 1
  | .medium => 3
  | .long => 9

def Form.Shortest (form : Form) (n : ℕ) : Prop :=
  form.Fits n ∧ ∀ other : Form, other.Fits n → form.size ≤ other.size

structure Received where
  fin : Bool
  reserved : ℕ
  opcode : ℕ
  form : Form
  mask : Option (List UInt8)
  payload : List UInt8
  deriving DecidableEq, Repr

def splitOff (n : ℕ) (bs : List UInt8) : Option (List UInt8 × List UInt8) :=
  if n ≤ bs.length then some (bs.splitAt n) else none

theorem splitOff_append (front rest : List UInt8) (h : front.length = n) :
    splitOff n (front ++ rest) = some (front, rest) := by
  subst h
  rw [splitOff, if_pos (by simp), splitAt_eq, take_left, drop_left]

def readLength (b : UInt8) (bs : List UInt8) : Option (Form × ℕ × List UInt8) :=
  if b.toNat % 128 = 126 then (splitOff 2 bs).map fun r => (.medium, value r.1, r.2)
  else if b.toNat % 128 = 127 then (splitOff 8 bs).map fun r => (.long, value r.1, r.2)
  else some (.short, b.toNat % 128, bs)

def readMask (b : UInt8) (bs : List UInt8) : Option (Option (List UInt8) × List UInt8) :=
  if 128 ≤ b.toNat then (splitOff 4 bs).map fun r => (some r.1, r.2) else some (none, bs)

def decode : List UInt8 → Option (Received × List UInt8)
  | first :: second :: bs => do
    let (form, n, bs) ← readLength second bs
    let (mask, bs) ← readMask second bs
    let (data, bs) ← splitOff n bs
    return (⟨decide (128 ≤ first.toNat), first.toNat % 128 / 16, first.toNat % 16, form, mask,
      mask.elim data fun key => xorMask key data⟩, bs)
  | _ => none

end WebSocket
