import Mathlib.Tactic

/-! NUL-terminated strings and the byte arrays that hold them. -/
namespace CStr
open List

abbrev Bytes := List UInt8

structure CString where
  bytes : Bytes
  noNul : ∀ b ∈ bytes, b ≠ 0

instance : Repr CString := ⟨fun s n => reprPrec s.bytes n⟩

def ofArray (a : Bytes) : Bytes := a.takeWhile (· ≠ 0)

def strncpy (n : ℕ) (src : CString) : Bytes :=
  src.bytes.take n ++ replicate (n - src.bytes.length) 0

def ascii (text : String) : Bytes := text.toList.map fun c => c.val.toUInt8

def cut (c : UInt8) : Bytes → Option (Bytes × Bytes)
  | [] => none
  | b :: rest => if b = c then some ([], rest) else (cut c rest).map fun r => (b :: r.1, r.2)

def strstr (text needle : Bytes) : Option ℕ :=
  (range (text.length + 1)).find? fun i => needle.isPrefixOf (text.drop i)

def isSpace (c : UInt8) : Bool := c = 0x20 ∨ (0x09 ≤ c.toNat ∧ c.toNat ≤ 0x0d)

def isDigit (c : UInt8) : Bool := 0x30 ≤ c.toNat ∧ c.toNat ≤ 0x39

def sign : Bytes → Bool × Bytes
  | c :: rest => if c = 0x2d then (true, rest) else if c = 0x2b then (false, rest)
      else (false, c :: rest)
  | [] => (false, [])

def strtoul (bits : ℕ) (text : Bytes) : Option (ℕ × Bool) :=
  let (minus, rest) := sign (text.dropWhile isSpace)
  let digits := rest.takeWhile isDigit
  let n := digits.foldl (fun n d => n * 10 + (d.toNat - 0x30)) 0
  if digits = [] then none
  else if 2 ^ bits ≤ n then some (2 ^ bits - 1, true)
  else some (if minus then (2 ^ bits - n) % 2 ^ bits else n, false)

def decimal (n : ℕ) : Bytes := (Nat.toDigits 10 n).map fun c => c.val.toUInt8

def IsFirst (needle text front back : Bytes) : Prop :=
  text = front ++ needle ++ back ∧ ∀ i < front.length, ¬needle <+: text.drop i

variable {s front back text needle : Bytes} {c : UInt8}

theorem ofArray_append_zero (hs : ∀ b ∈ s, b ≠ 0) (rest : Bytes) :
    ofArray (s ++ 0 :: rest) = s := by
  unfold ofArray
  rw [takeWhile_append_of_pos (by simpa using hs)]
  simp

theorem ofArray_strncpy (n : ℕ) (src : CString) :
    ofArray (strncpy n src ++ [0]) = src.bytes.take n := by
  have hs : ∀ b ∈ src.bytes.take n, b ≠ 0 := fun b hb => src.noNul b (mem_of_mem_take hb)
  unfold strncpy
  cases h : n - src.bytes.length with
  | zero =>
    rw [replicate_zero, append_nil]
    exact ofArray_append_zero hs []
  | succ k =>
    rw [replicate_succ, append_assoc, cons_append]
    exact ofArray_append_zero hs _

theorem cut_eq_none_iff : cut c s = none ↔ c ∉ s := by
  induction s with
  | nil => simp [cut]
  | cons b s ih =>
    rw [cut, mem_cons, not_or]
    split_ifs with hb
    · simp [hb]
    · rw [Option.map_eq_none_iff, ih]
      exact ⟨fun h => ⟨fun hc => hb hc.symm, h⟩, fun h => h.2⟩

theorem cut_eq_some (h : cut c s = some (front, back)) : s = front ++ c :: back ∧ c ∉ front := by
  induction s generalizing front with
  | nil => simp [cut] at h
  | cons b s ih =>
    rw [cut] at h
    split_ifs at h with hb
    · cases h
      exact ⟨by rw [hb, nil_append], not_mem_nil⟩
    · obtain ⟨r, hr, heq⟩ := Option.map_eq_some_iff.mp h
      cases heq
      obtain ⟨hs, hc⟩ := ih hr
      exact ⟨by rw [hs, cons_append], by simp [Ne.symm hb, hc]⟩

theorem cut_append (h : c ∉ front) (back : Bytes) :
    cut c (front ++ c :: back) = some (front, back) := by
  induction front with
  | nil => simp [cut]
  | cons b front ih =>
    rw [mem_cons, not_or] at h
    rw [cons_append, cut, if_neg (Ne.symm h.1), ih h.2]
    rfl

theorem ofArray_terminated (s rest : Bytes) : ofArray (s ++ 0 :: rest) = ofArray s := by
  unfold ofArray
  induction s with
  | nil => simp
  | cons b s ih =>
    rw [cons_append, takeWhile_cons, takeWhile_cons, ih]

theorem length_ofArray_le (s : Bytes) : (ofArray s).length ≤ s.length :=
  ( takeWhile_prefix _).length_le

theorem strstr_le {i : ℕ} (h : strstr text needle = some i) : i + needle.length ≤ text.length := by
  rw [strstr, find?_range_eq_some] at h
  obtain ⟨hfront, hmem, -⟩ := h
  have hle := ( isPrefixOf_iff_prefix.mp hfront).length_le
  rw [mem_range] at hmem
  rw [length_drop] at hle
  omega

theorem strstr_of_isFirst (h : IsFirst needle text front back) :
    strstr text needle = some front.length := by
  have hle : front.length < text.length + 1 := by
    rw [h.1, append_assoc, length_append]
    omega
  have hhere : needle <+: text.drop front.length := by
    rw [h.1, append_assoc, drop_left]
    exact prefix_append _ _
  rw [strstr, find?_range_eq_some]
  refine ⟨ isPrefixOf_iff_prefix.mpr hhere, mem_range.mpr hle, fun i hi => ?_⟩
  rw [Bool.not_eq_true', Bool.eq_false_iff]
  exact fun hbefore => h.2 i hi ( isPrefixOf_iff_prefix.mp hbefore)

theorem IsFirst.ofArray (h : IsFirst needle text front back) (hnul : 0 ∉ front ++ needle) :
    IsFirst needle (ofArray text) front (ofArray back) := by
  have hpos : ∀ b ∈ front ++ needle, decide (b ≠ 0) = true :=
    fun b hb => decide_eq_true fun hzero => hnul (hzero ▸ hb)
  refine ⟨?_, fun i hi hbefore => h.2 i hi (hbefore.trans ?_)⟩
  · rw [h.1]
    exact takeWhile_append_of_pos hpos
  · exact ( takeWhile_prefix _).drop i

end CStr
