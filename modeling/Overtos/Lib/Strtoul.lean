import Overtos.Lib.Http

/-! The texts that `strtoul` reads a number from, and where it stops. -/
namespace CStr
open Http List

def strtoulEnd (text : Bytes) : Bytes := (sign (text.dropWhile isSpace)).2.dropWhile isDigit

structure Numeral (text space sgn digits tail : Bytes) : Prop where
  split : text = space ++ sgn ++ digits ++ tail
  spaces : ∀ c ∈ space, isSpace c
  signed : sgn ∈ [[], [0x2b], [0x2d]]
  nonempty : digits ≠ []
  digit : ∀ c ∈ digits, isDigit c
  ends : ∀ c ∈ tail.head?, ¬isDigit c

def signedValue (bits : ℕ) (sgn digits : Bytes) : ℕ :=
  if sgn = [0x2d] then (2 ^ bits - digitsValue digits) % 2 ^ bits else digitsValue digits

theorem sign_append {sgn digits rest : Bytes} (hsign : sgn ∈ [[], [0x2b], [0x2d]])
    (hne : digits ≠ []) (hdigits : ∀ c ∈ digits, isDigit c) :
    sign (sgn ++ digits ++ rest) = (decide (sgn = [0x2d]), digits ++ rest) := by
  obtain ⟨d, ds, rfl⟩ := exists_cons_of_ne_nil hne
  have hd := hdigits d mem_cons_self
  have hplus : d ≠ 0x2b := by
    rintro rfl
    exact absurd hd (by decide)
  have hminus : d ≠ 0x2d := by
    rintro rfl
    exact absurd hd (by decide)
  simp only [mem_cons, not_mem_nil, or_false] at hsign
  rcases hsign with rfl | rfl | rfl
  · simp [sign, hplus, hminus]
  · simp [sign]
  · simp [sign]

theorem sign_spec (text : Bytes) : ∃ sgn ∈ [[], [0x2b], [0x2d]], text = sgn ++ (sign text).2 ∧
    (sign text).1 = decide (sgn = [0x2d]) := by
  cases text with
  | nil => exact ⟨[], by simp, rfl, rfl⟩
  | cons c rest =>
    rw [sign]
    split_ifs with hminus hplus
    · exact ⟨[0x2d], by simp, by rw [hminus]; rfl, rfl⟩
    · exact ⟨[0x2b], by simp, by rw [hplus]; rfl, rfl⟩
    · exact ⟨[], by simp, rfl, rfl⟩

namespace Numeral

variable {text space sgn digits tail : Bytes}

theorem not_isSpace (h : Numeral text space sgn digits tail) :
    (sgn ++ digits ++ tail).dropWhile isSpace = sgn ++ digits ++ tail := by
  obtain ⟨d, ds, rfl⟩ := exists_cons_of_ne_nil h.nonempty
  have hd : isSpace d = false := isSpace_of_isDigit (h.digit d mem_cons_self)
  have hsign := h.signed
  simp only [mem_cons, not_mem_nil, or_false] at hsign
  rcases hsign with rfl | rfl | rfl
  · simp [hd]
  · simp [isSpace]
  · simp [isSpace]

theorem not_isDigit (h : Numeral text space sgn digits tail) {c : UInt8} (hc : c ∈ space ++ sgn) :
    ¬isDigit c := by
  intro hdigit
  rcases mem_append.mp hc with hspace | hsgn
  · exact absurd (h.spaces c hspace) (by rw [isSpace_of_isDigit hdigit]; exact Bool.false_ne_true)
  · have hsign := h.signed
    simp only [mem_cons, not_mem_nil, or_false] at hsign
    rcases hsign with rfl | rfl | rfl
    · cases hsgn
    · rw [mem_singleton.mp hsgn] at hdigit
      exact absurd hdigit (by decide)
    · rw [mem_singleton.mp hsgn] at hdigit
      exact absurd hdigit (by decide)

theorem sign_eq (h : Numeral text space sgn digits tail) :
    sign (text.dropWhile isSpace) = (decide (sgn = [0x2d]), digits ++ tail) := by
  rw [h.split, append_assoc, append_assoc, dropWhile_append_of_pos h.spaces,
    ← append_assoc, h.not_isSpace, sign_append h.signed h.nonempty h.digit]

theorem takeWhile_eq (h : Numeral text space sgn digits tail) :
    (digits ++ tail).takeWhile isDigit = digits := by
  have hends := h.ends
  rw [takeWhile_append_of_pos h.digit]
  cases tail with
  | nil => simp
  | cons c rest =>
    have hc : ¬isDigit c = true := hends c rfl
    simp [hc]

theorem strtoul_eq (h : Numeral text space sgn digits tail) (bits : ℕ) :
    strtoul bits text = some (if 2 ^ bits ≤ digitsValue digits then (2 ^ bits - 1, true)
      else (signedValue bits sgn digits, false)) := by
  rw [strtoul, h.sign_eq]
  simp only [h.takeWhile_eq, if_neg h.nonempty, signedValue, decide_eq_true_eq]
  rw [← digitsValue]
  split_ifs <;> rfl

theorem strtoulEnd_eq (h : Numeral text space sgn digits tail) : strtoulEnd text = tail := by
  have hends := h.ends
  rw [strtoulEnd, h.sign_eq, dropWhile_append_of_pos h.digit]
  cases tail with
  | nil => rfl
  | cons c rest =>
    have hc : ¬isDigit c = true := hends c rfl
    simp [hc]

end Numeral

theorem exists_numeral {bits : ℕ} {text : Bytes} (h : strtoul bits text ≠ none) :
    ∃ space sgn digits, Numeral text space sgn digits (strtoulEnd text) := by
  obtain ⟨sgn, hsign, hsplit, -⟩ := sign_spec (text.dropWhile isSpace)
  refine ⟨text.takeWhile isSpace, sgn, (sign (text.dropWhile isSpace)).2.takeWhile isDigit, ?_,
    fun c => mem_takeWhile_imp, hsign, ?_, fun c => mem_takeWhile_imp, ?_⟩
  · rw [strtoulEnd, append_assoc, append_assoc, takeWhile_append_dropWhile,
      ← hsplit, takeWhile_append_dropWhile]
  · intro hnone
    rw [strtoul] at h
    exact h (if_pos hnone)
  · intro c hc
    have hhead := head?_dropWhile_not isDigit (sign (text.dropWhile isSpace)).2
    rw [strtoulEnd] at hc
    rw [Option.mem_def.mp hc] at hhead
    simpa using hhead

end CStr
