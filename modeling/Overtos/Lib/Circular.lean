import Mathlib.Tactic

/-! Rings of `size` slots: runs of items that continue at slot zero after the last slot. -/
namespace Circular

variable {α : Type*} {buf : ℕ → α} {size pos n : ℕ} {q xs : List α}

def put (buf : ℕ → α) (pos : ℕ) (xs : List α) : ℕ → α := fun i =>
  if pos ≤ i then (xs[i - pos]?).getD (buf i) else buf i

def get (buf : ℕ → α) (pos n : ℕ) : List α := (List.range n).map fun i => buf (pos + i)

def putWrapped (buf : ℕ → α) (size pos : ℕ) (xs : List α) : ℕ → α :=
  let contig := size - pos
  if contig < xs.length then put (put buf pos (xs.take contig)) 0 (xs.drop contig)
  else put buf pos xs

def getWrapped (buf : ℕ → α) (size pos n : ℕ) : List α :=
  let contig := size - pos
  if contig < n then get buf pos contig ++ get buf 0 (n - contig) else get buf pos n

def Holds (buf : ℕ → α) (size pos : ℕ) (q : List α) : Prop :=
  ∀ i x, q[i]? = some x → buf ((pos + i) % size) = x

variable {i : ℕ}

theorem put_of_getElem? {x : α} (h : xs[i]? = some x) : put buf pos xs (pos + i) = x := by
  simp [put, h]

theorem put_of_lt (h : i < pos) : put buf pos xs i = buf i := by
  simp [put, Nat.not_le.mpr h]

theorem put_of_ge (h : pos + xs.length ≤ i) : put buf pos xs i = buf i := by
  have hnone : xs[i - pos]? = none := List.getElem?_eq_none (by omega)
  simp [put, hnone]

theorem add_mod_of_lt (h : pos + i < size) : (pos + i) % size = pos + i := Nat.mod_eq_of_lt h

theorem add_mod_of_ge (h : size ≤ pos + i) (hlt : pos + i < 2 * size) :
    (pos + i) % size = pos + i - size := by
  rw [Nat.mod_eq_sub_mod h, Nat.mod_eq_of_lt (by omega)]

theorem putWrapped_of_getElem? (hpos : pos < size) (hlen : xs.length ≤ size) {x : α}
    (h : xs[i]? = some x) : putWrapped buf size pos xs ((pos + i) % size) = x := by
  have hi := (List.getElem?_eq_some_iff.mp h).1
  by_cases hc : size - pos < xs.length
  · simp only [putWrapped, hc, if_true]
    by_cases hwrap : pos + i < size
    · rw [add_mod_of_lt hwrap, put_of_ge (by simp; omega)]
      apply put_of_getElem?
      rwa [List.getElem?_take_of_lt (by omega)]
    · have hslot : (pos + i) % size = 0 + (pos + i - size) := by
        rw [add_mod_of_ge (by omega) (by omega), Nat.zero_add]
      rw [hslot]
      apply put_of_getElem?
      rw [List.getElem?_drop]
      rwa [show size - pos + (pos + i - size) = i by omega]
  · simp only [putWrapped, hc, if_false]
    rw [add_mod_of_lt (by omega)]
    exact put_of_getElem? h

theorem putWrapped_of_ge (hpos : pos < size) (h : xs.length ≤ i) (hi : i < size) :
    putWrapped buf size pos xs ((pos + i) % size) = buf ((pos + i) % size) := by
  by_cases hc : size - pos < xs.length
  · simp only [putWrapped, hc, if_true]
    rw [add_mod_of_ge (by omega) (by omega), put_of_ge (by simp; omega), put_of_lt (by omega)]
  · simp only [putWrapped, hc, if_false]
    by_cases hwrap : pos + i < size
    · rw [add_mod_of_lt hwrap, put_of_ge (by omega)]
    · rw [add_mod_of_ge (by omega) (by omega), put_of_lt (by omega)]

theorem putWrapped_singleton (hpos : pos < size) (x : α) :
    putWrapped buf size pos [x] = Function.update buf pos x := by
  have hc : ¬size - pos < [x].length := by
    simp
    omega
  funext i
  simp only [putWrapped, hc, if_false]
  rcases Nat.lt_trichotomy i pos with hi | rfl | hi
  · rw [put_of_lt hi, Function.update_of_ne hi.ne]
  · simp [put]
  · rw [put_of_ge (by simpa using hi), Function.update_of_ne hi.ne']

theorem getElem?_get (i : ℕ) :
    (get buf pos n)[i]? = if i < n then some (buf (pos + i)) else none := by
  by_cases h : i < n
  · simp [get, h]
  · simp [get, h]

theorem get_put_self (buf : ℕ → α) (pos : ℕ) (xs : List α) :
    get (put buf pos xs) pos xs.length = xs := by
  apply List.ext_getElem?
  intro i
  rw [getElem?_get]
  split_ifs with hi
  · rw [List.getElem?_eq_getElem hi, put_of_getElem? (List.getElem?_eq_getElem hi)]
  · rw [List.getElem?_eq_none (by omega)]

theorem get_put_of_disjoint {k : ℕ} (h : k + n ≤ pos ∨ pos + xs.length ≤ k) :
    get (put buf pos xs) k n = get buf k n := by
  apply List.ext_getElem?
  intro i
  rw [getElem?_get, getElem?_get]
  split_ifs with hi
  · rcases h with h | h
    · rw [put_of_lt (by omega)]
    · rw [put_of_ge (by omega)]
  · rfl

theorem getElem?_getWrapped (hpos : pos < size) (hn : n ≤ size) (i : ℕ) :
    (getWrapped buf size pos n)[i]? = if i < n then some (buf ((pos + i) % size)) else none := by
  by_cases hc : size - pos < n
  · simp only [getWrapped, hc, if_true]
    by_cases hi : i < size - pos
    · rw [List.getElem?_append_left (by simpa [get] using hi), getElem?_get, if_pos hi,
        if_pos (by omega), add_mod_of_lt (by omega)]
    · rw [List.getElem?_append_right (by simpa [get] using hi), getElem?_get]
      by_cases hin : i < n
      · have hlen : (get buf pos (size - pos)).length = size - pos := by simp [get]
        rw [hlen, if_pos (by omega), if_pos hin, add_mod_of_ge (by omega) (by omega)]
        congr 2
        omega
      · have hlen : (get buf pos (size - pos)).length = size - pos := by simp [get]
        rw [hlen, if_neg (by omega), if_neg hin]
  · simp only [getWrapped, hc, if_false, getElem?_get]
    by_cases hin : i < n
    · rw [if_pos hin, if_pos hin, add_mod_of_lt (by omega)]
    · rw [if_neg hin, if_neg hin]

theorem holds_nil : Holds buf size pos [] := by
  intro i x h
  simp at h

theorem Holds.append (h : Holds buf size pos q) (hroom : q.length + xs.length ≤ size)
    (hsize : 0 < size) :
    Holds (putWrapped buf size ((pos + q.length) % size) xs) size pos (q ++ xs) := by
  have hstart := Nat.mod_lt (pos + q.length) hsize
  have hshift : ∀ j, ((pos + q.length) % size + j) % size = (pos + (q.length + j)) % size := by
    intro j
    rw [Nat.mod_add_mod, Nat.add_assoc]
  intro i x hi
  by_cases hq : i < q.length
  · rw [List.getElem?_append_left hq] at hi
    -- slot `i` lies `size - q.length + i` places behind the first new one
    have hslot : ((pos + q.length) % size + (size - q.length + i)) % size = (pos + i) % size := by
      rw [hshift, show pos + (q.length + (size - q.length + i)) = pos + i + size by omega,
        Nat.add_mod_right]
    rw [← hslot, putWrapped_of_ge hstart (by omega) (by omega), hslot]
    exact h i x hi
  · rw [List.getElem?_append_right (by omega)] at hi
    rw [← Nat.add_sub_cancel' (Nat.not_lt.mp hq), ← hshift]
    exact putWrapped_of_getElem? hstart (by omega) hi

theorem Holds.getWrapped (h : Holds buf size pos q) (hpos : pos < size) (hq : q.length ≤ size)
    (hn : n ≤ q.length) : Circular.getWrapped buf size pos n = q.take n := by
  apply List.ext_getElem?
  intro i
  rw [getElem?_getWrapped hpos (by omega)]
  by_cases hi : i < n
  · obtain ⟨x, hx⟩ : ∃ x, q[i]? = some x := ⟨_, List.getElem?_eq_getElem (by omega)⟩
    rw [if_pos hi, List.getElem?_take_of_lt hi, hx, h i x hx]
  · rw [if_neg hi, List.getElem?_eq_none (by simp; omega)]

theorem Holds.drop (h : Holds buf size pos q) (n : ℕ) :
    Holds buf size ((pos + n) % size) (q.drop n) := by
  intro i x hi
  rw [List.getElem?_drop] at hi
  rw [Nat.mod_add_mod, Nat.add_assoc]
  exact h (n + i) x hi

end Circular
