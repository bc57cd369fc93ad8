import Mathlib.Tactic

/-! A flat byte memory with little-endian loads and stores of any width. -/
namespace Memory

def Mem := ℕ → UInt8

variable (m : Mem) (a b v k n : ℕ)

def load (m : Mem) (a : ℕ) : ℕ → ℕ
  | 0 => 0
  | k + 1 => (m a).toNat + 256 * load m (a + 1) k

def store (k v : ℕ) : Mem := fun x =>
  if a ≤ x ∧ x < a + k then UInt8.ofNat (v / 256 ^ (x - a)) else m x

def fill (n : ℕ) (c : UInt8) : Mem := fun x => if a ≤ x ∧ x < a + n then c else m x

def copy (src n : ℕ) : Mem := fun x => if a ≤ x ∧ x < a + n then m (src + (x - a)) else m x

def layOut (base : ℕ) (fields : List (ℕ × ℕ × ℕ)) : Mem :=
  fields.foldl (fun m f => store m (base + f.1) f.2.1 f.2.2) fun _ => 0

theorem load_lt : load m a k < 256 ^ k := by
  induction k generalizing a with
  | zero => simp [load]
  | succ k ih =>
    have h := ih (a + 1)
    have hb := (m a).toNat_lt
    rw [load, pow_succ]
    omega

variable {m a b v k n}

@[simp] theorem load_one : load m a 1 = (m a).toNat := by simp [load]

theorem load_congr {m' : Mem} (h : ∀ x, a ≤ x → x < a + k → m x = m' x) :
    load m a k = load m' a k := by
  induction k generalizing a with
  | zero => rfl
  | succ k ih =>
    have ht : load m (a + 1) k = load m' (a + 1) k := ih fun x hx hk => h x (by omega) (by omega)
    rw [load, load, h a le_rfl (by omega), ht]

variable {x : ℕ}

theorem store_of_notMem (h : x < a ∨ a + k ≤ x) : store m a k v x = m x := if_neg (by omega)

theorem fill_of_notMem {c : UInt8} (h : x < a ∨ a + n ≤ x) : fill m a n c x = m x :=
  if_neg (by omega)

theorem load_store_disjoint (h : b + n ≤ a ∨ a + k ≤ b) : load (store m a k v) b n = load m b n :=
  load_congr fun _ _ _ => store_of_notMem (by omega)

theorem load_fill_disjoint {c : UInt8} (h : b + k ≤ a ∨ a + n ≤ b) :
    load (fill m a n c) b k = load m b k :=
  load_congr fun _ _ _ => fill_of_notMem (by omega)

theorem store_succ_apply (h : a < x) : store m a (k + 1) v x = store m (a + 1) k (v / 256) x := by
  by_cases hx : x < a + (k + 1)
  · have he : x - a = (x - (a + 1)) + 1 := by omega
    rw [store, if_pos ⟨h.le, hx⟩, store, if_pos (by omega), he, pow_succ', Nat.div_div_eq_div_mul]
  · rw [store_of_notMem (by omega), store_of_notMem (by omega)]

theorem load_store_self : load (store m a k v) a k = v % 256 ^ k := by
  induction k generalizing a v with
  | zero => simp [load, Nat.mod_one]
  | succ k ih =>
    have hb : (store m a (k + 1) v a).toNat = v % 256 := by
      rw [store, if_pos ⟨le_rfl, by omega⟩, Nat.sub_self, pow_zero, Nat.div_one]
      exact UInt8.toNat_ofNat'
    have ht : load (store m a (k + 1) v) (a + 1) k = v / 256 % 256 ^ k := by
      rw [← ih (v := v / 256) (a := a + 1)]
      exact load_congr fun x hx _ => store_succ_apply (by omega)
    rw [load, hb, ht, pow_succ', Nat.mod_mul]

end Memory
