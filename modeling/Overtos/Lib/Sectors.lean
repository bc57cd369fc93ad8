import Overtos.Lib.Circular

/-! Storage in sectors of `n` items and the flat array that its bytes are. -/
namespace Sectors
open Circular

variable {α : Type*} {n : ℕ} {f g : ℕ → α} {s : ℕ → ℕ → α} {b pos : ℕ} {xs ys : List α}

def flat (n : ℕ) (s : ℕ → ℕ → α) : ℕ → α := fun o => s (o / n) (o % n)

theorem put_nil : put f pos [] = f := by
  funext i
  simp [put]

theorem put_congr {i : ℕ} (h : f i = g i) : put f pos xs i = put g pos xs i := by
  simp [put, h]

theorem put_append : put (put f pos xs) (pos + xs.length) ys = put f pos (xs ++ ys) := by
  funext i
  by_cases hlow : i < pos + xs.length
  · rw [put_of_lt hlow]
    by_cases hpos : pos ≤ i
    · simp [put, hpos, List.getElem?_append_left (show i - pos < xs.length by omega)]
    · simp [put, hpos]
  · have hi : i - pos - xs.length = i - (pos + xs.length) := by omega
    have hshort : xs[i - pos]? = none := List.getElem?_eq_none (by omega)
    simp only [put, show pos + xs.length ≤ i by omega, show pos ≤ i by omega, if_true,
      List.getElem?_append_right (show xs.length ≤ i - pos by omega), hi, hshort, Option.getD_none]

theorem length_get (f : ℕ → α) (pos k : ℕ) : (get f pos k).length = k := by
  simp [Circular.get]

theorem get_append (f : ℕ → α) (pos j k : ℕ) :
    get f pos (j + k) = get f pos j ++ get f (pos + j) k := by
  simp [Circular.get, List.range_add, Nat.add_assoc]

variable {k : ℕ}

theorem get_congr (h : ∀ i < k, f (pos + i) = g (b + i)) : get f pos k = get g b k := by
  simpa [Circular.get] using h

theorem get_sector (h : pos + k ≤ n) : get (s b) pos k = get (flat n s) (b * n + pos) k := by
  apply get_congr
  intro i hi
  have hn : 0 < n := by omega
  rw [flat, Nat.add_assoc, Nat.mul_comm, Nat.mul_add_div hn, Nat.mul_add_mod,
    Nat.div_eq_of_lt (by omega), Nat.mod_eq_of_lt (by omega), Nat.add_zero]

theorem flat_update (h : pos + xs.length ≤ n) :
    flat n (Function.update s b (put (s b) pos xs)) = put (flat n s) (b * n + pos) xs := by
  funext o
  rcases Nat.eq_zero_or_pos n with rfl | hn
  · obtain rfl : xs = [] := List.eq_nil_of_length_eq_zero (by omega)
    simp [put_nil]
  have ho := Nat.div_add_mod' o n
  have hmod := Nat.mod_lt o hn
  by_cases hb : o / n = b
  · rw [hb] at ho
    simp only [flat, hb, Function.update_self, put]
    rw [← ho]
    simp [Nat.add_sub_add_left]
  · have hout : o < b * n ∨ b * n + n ≤ o := by
      rcases Nat.lt_or_gt_of_ne hb with hlt | hgt
      · exact .inl ((Nat.div_lt_iff_lt_mul hn).mp hlt)
      · refine .inr ?_
        rw [← Nat.succ_mul]
        exact (Nat.le_div_iff_mul_le hn).mp hgt
    simp only [flat, Function.update_of_ne hb]
    rcases hout with hlt | hge
    · rw [put_of_lt (by omega), flat]
    · rw [put_of_ge (by omega), flat]

theorem get_put_get (buf g : ℕ → α) (h : pos + k ≤ n) :
    get (put buf 0 (get g 0 n)) pos k = get g pos k := by
  apply get_congr
  intro i hi
  simp [put, getElem?_get, show pos + i < n by omega]

theorem put_readBack (buf : ℕ → α) (h : pos + ys.length ≤ n) :
    put g 0 (get (put (put buf 0 (get g 0 n)) pos ys) 0 n) = put g pos ys := by
  funext i
  by_cases hi : i < n
  · have hg : put buf 0 (get g 0 n) i = g i := by
      simp [put, getElem?_get, hi]
    rw [← put_congr hg]
    simp [put, getElem?_get, hi]
  · rw [put_of_ge (by simp [length_get]; omega), put_of_ge (by omega)]

end Sectors
