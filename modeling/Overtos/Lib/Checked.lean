import Mathlib.Tactic

/-! Arrays of a fixed length with checked accesses: a write or a read past the end has no result.
Reads are logged. -/
namespace Checked
open List

variable {α : Type*}

def put (a : List α) (i : ℕ) (xs : List α) : Option (List α) :=
  if i + xs.length ≤ a.length then some (a.take i ++ xs ++ a.drop (i + xs.length)) else none

def copy (a : List α) (i : ℕ) (src : List α) (n : ℕ) : Option (List α) :=
  if n ≤ src.length then put a i (src.take n) else none

theorem put_append {written free xs : List α} {i : ℕ} (hi : i = written.length)
    (h : xs.length ≤ free.length) :
    put (written ++ free) i xs = some (written ++ xs ++ free.drop xs.length) := by
  subst hi
  rw [put, if_pos (by rw [length_append]; omega), take_left, drop_length_add_append]

section

variable {chunk : ℕ → List α} {size n : ℕ} (hlen : ∀ k < n, (chunk k).length = size)
include hlen

theorem length_flatMap_range : ((range n).flatMap chunk).length = n * size := by
  induction n with
  | zero => simp
  | succ n ih =>
    rw [range_succ, flatMap_append, length_append, flatMap_singleton,
      ih fun k hk => hlen k (by omega), hlen n (by omega), Nat.succ_mul]

theorem take_drop_flatMap_range {k : ℕ} (hk : k < n) :
    (((range n).flatMap chunk).drop (k * size)).take size = chunk k := by
  induction n with
  | zero => omega
  | succ n ih =>
    have hlow : ∀ k < n, (chunk k).length = size := fun k hk => hlen k (by omega)
    have hlength := length_flatMap_range hlow
    rw [range_succ, flatMap_append, flatMap_singleton]
    rcases Nat.lt_or_ge k n with hkn | hkn
    · have hle : k * size + size ≤ n * size := by
        rw [← Nat.succ_mul]
        exact Nat.mul_le_mul_right size hkn
      rw [drop_append_of_le_length (by omega), take_append_of_le_length, ih hlow hkn]
      rw [length_drop]
      omega
    · obtain rfl : k = n := by omega
      rw [← hlength, drop_left, ← hlen k (by omega), take_length]

theorem foldlM_fill {step : List α → ℕ → Option (List α)} {base : ℕ}
    (hstep : ∀ k < n, ∀ written free : List α, written.length = base + k * size →
      size ≤ free.length → step (written ++ free) k = some (written ++ chunk k ++ free.drop size))
    {written free : List α} (hw : written.length = base) (hfree : n * size ≤ free.length) :
    (range n).foldlM step (written ++ free) =
      some (written ++ (range n).flatMap chunk ++ free.drop (n * size)) := by
  induction n with
  | zero => simp
  | succ n ih =>
    rw [Nat.succ_mul] at hfree
    have hlow : ∀ k < n, (chunk k).length = size := fun k hk => hlen k (by omega)
    have hnext := hstep n (by omega) (written ++ (range n).flatMap chunk)
      (free.drop (n * size)) (by rw [length_append, length_flatMap_range hlow, hw])
      (by rw [length_drop]; omega)
    rw [range_succ, foldlM_append, ih hlow (fun k hk => hstep k (by omega)) (by omega),
      Option.bind_eq_bind, Option.bind_some, foldlM_cons, hnext, drop_drop,
      ← Nat.succ_mul, flatMap_append, flatMap_singleton, ← append_assoc]
    rfl

end

abbrev Reading := StateT (List ℕ) Option

def readAt {β : Type} (a : List β) (i : ℕ) : Reading β :=
  fun log => a[i]?.map fun x => (x, log ++ [i])

def readRange {β : Type} (a : List β) : ℕ → ℕ → Reading (List β)
  | _, 0 => pure []
  | i, n + 1 => do
    let x ← readAt a i
    let xs ← readRange a (i + 1) n
    return x :: xs

variable {β : Type} {a : List β}

theorem Reading.bind_run {γ : Type} {c : Reading β} {x : β} {log log' : List ℕ}
    (h : c log = some (x, log')) (next : β → Reading γ) : (c >>= next) log = next x log' := by
  simp only [bind, StateT.bind, h, Option.bind_some]

theorem Reading.lift_run {c : Option β} {x : β} (h : c = some x) (log : List ℕ) :
    (liftM c : Reading β) log = some (x, log) := by
  rw [h]
  rfl

theorem readAt_run {i : ℕ} (h : i < a.length) (log : List ℕ) :
    readAt a i log = some (a[i], log ++ [i]) := by
  rw [readAt, getElem?_eq_getElem h, Option.map_some]

theorem readRange_run {i n : ℕ} (h : i + n ≤ a.length) (log : List ℕ) :
    readRange a i n log = some ((a.drop i).take n, log ++ range' i n) := by
  induction n generalizing i log with
  | zero =>
    rw [take_zero, range'_zero, append_nil]
    rfl
  | succ n ih =>
    have hi : i < a.length := by omega
    have hrest := ih (i := i + 1) (by omega) (log ++ [i])
    rw [readRange, Reading.bind_run (readAt_run hi log), Reading.bind_run hrest,
      drop_eq_getElem_cons hi, take_succ_cons, range'_succ, append_assoc]
    rfl

end Checked
