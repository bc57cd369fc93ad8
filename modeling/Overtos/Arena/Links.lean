import Overtos.Arena.Model
import Overtos.Lib.Tiling

/-! Block headers in memory, and the doubly linked list they form. -/
namespace Overtos.Arena
open Memory Tiling Function

section
variable (arch : Arch)

@[simp] theorem arenaHdr_eq : arenaHdr arch = 32 := by cases arch <;> decide

theorem Field.offset_add_width (f : Field) : f.offset arch + f.width arch ≤ 32 := by
  cases arch <;> cases f <;> decide

variable {f : Field} {n a b v c : ℕ} {m : Mem}

theorem Field.separate {g : Field} (h : g ≠ f) : g.offset arch + g.width arch ≤ f.offset arch ∨
      f.offset arch + f.width arch ≤ g.offset arch := by
  cases arch <;> cases f <;> cases g <;> first | contradiction | decide

theorem Field.width_pow (h : f ≠ .isFree) (h' : f ≠ .magic) :
    256 ^ f.width arch = 2 ^ arch.bits := by
  cases arch <;> cases f <;> first | contradiction | decide

variable {arch}

theorem maskDown_eq (h : n < 2 ^ arch.bits) : maskDown arch n = n / 16 * 16 := by
  have hw : 4 ≤ arch.bits := by rcases arch.bits_cases with h | h <;> omega
  exact Word.land_comp_mask (k := 4) hw h

theorem sub_eq (h : b ≤ a) (ha : a < 2 ^ arch.bits) : sub arch a b = a - b := by
  have he : a + 2 ^ arch.bits - b = a - b + 2 ^ arch.bits := by omega
  rw [sub, he, Word.wrap, Nat.add_mod_right, Nat.mod_eq_of_lt (by omega)]

theorem get_set_self (hv : v < 256 ^ f.width arch) :
    get arch (set arch m b f v) b = update (get arch m b) f v := by
  funext g
  by_cases hg : g = f
  · rw [hg, update_self, get, set, load_store_self, Nat.mod_eq_of_lt hv]
  · have hs := Field.separate arch hg
    rw [update_of_ne hg]
    exact load_store_disjoint (by omega)

def Apart (b c : ℕ) : Prop := b + 32 ≤ c ∨ c + 32 ≤ b

theorem Apart.symm (h : Apart b c) : Apart c b := Or.symm h

theorem get_set_apart (h : Apart c b) : get arch (set arch m b f v) c = get arch m c := by
  funext g
  have hf := f.offset_add_width arch
  have hg := g.offset_add_width arch
  unfold Apart at h
  exact load_store_disjoint (by omega)

theorem get_fill_apart {v : UInt8} (h : c + 32 ≤ a ∨ a + n ≤ c) :
    get arch (fill m a n v) c = get arch m c := by
  funext g
  have hg := g.offset_add_width arch
  exact load_fill_disjoint (by omega)

end

def fields (next prev : ℕ) (c : Cell) : Field → ℕ
  | .next => next
  | .prev => prev
  | .payload => c.payload
  | .isFree => c.free.toNat
  | .magic => arenaMagic

section
variable (n p v : ℕ) (c : Cell)

@[simp] theorem fields_next : fields n p c .next = n := rfl
@[simp] theorem fields_prev : fields n p c .prev = p := rfl
@[simp] theorem fields_payload : fields n p c .payload = c.payload := rfl
@[simp] theorem fields_isFree : fields n p c .isFree = c.free.toNat := rfl
@[simp] theorem fields_magic : fields n p c .magic = arenaMagic := rfl

@[simp] theorem update_fields_next : update (fields n p c) .next v = fields v p c := by
  funext f
  cases f <;> simp [fields]

@[simp] theorem update_fields_prev : update (fields n p c) .prev v = fields n v c := by
  funext f
  cases f <;> simp [fields]

@[simp] theorem update_fields_payload :
    update (fields n p c) .payload v = fields n p ⟨v, c.free⟩ := by
  funext f
  cases f <;> simp [fields]

@[simp] theorem update_fields_isFree (b : Bool) :
    update (fields n p c) .isFree b.toNat = fields n p ⟨c.payload, b⟩ := by
  funext f
  cases f <;> simp [fields]

end

def entry (a last : ℕ) (cs : List Cell) : ℕ := if cs = [] then last else a

def lastAddr (prev a : ℕ) : List Cell → ℕ
  | [] => prev
  | c :: cs => lastAddr a (a + 32 + c.payload) cs

def Linked (h : ℕ → Field → ℕ) (last : ℕ) : ℕ → ℕ → List Cell → Prop
  | _, _, [] => True
  | prev, a, c :: cs =>
    h a = fields (entry (a + 32 + c.payload) last cs) prev c ∧
      Linked h last a (a + 32 + c.payload) cs

section
variable {h h' : ℕ → Field → ℕ} {last prev a : ℕ} {xs ys cs : List Cell}

theorem entry_append : entry a last (xs ++ ys) = entry a (entry (stop 32 a xs) last ys) xs := by
  cases xs with
  | nil => simp [entry, stop]
  | cons c cs => simp [entry]

theorem linked_append : Linked h last prev a (xs ++ ys) ↔
      Linked h (entry (stop 32 a xs) last ys) prev a xs ∧
        Linked h last (lastAddr prev a xs) (stop 32 a xs) ys := by
  induction xs generalizing prev a with
  | nil => simp [Linked, lastAddr, stop]
  | cons c cs ih => simp [Linked, lastAddr, stop, ih, entry_append, and_assoc]

theorem linked_congr (he : ∀ q ∈ blocks 32 a cs, h' q.1 = h q.1) (hl : Linked h last prev a cs) :
    Linked h' last prev a cs := by
  induction cs generalizing prev a with
  | nil => trivial
  | cons c cs ih =>
    refine ⟨(he (a, c) (by simp [blocks])).trans hl.1, ih (fun q hq => ?_) hl.2⟩
    exact he q (by simp [blocks, hq])

theorem linked_below (he : ∀ y, y + 32 ≤ stop 32 a cs → h' y = h y)
    (hl : Linked h last prev a cs) : Linked h' last prev a cs := by
  refine linked_congr (fun q hq => he _ ?_) hl
  have hb := mem_blocks_bounds 32 (x := q.1) (c := q.2) hq
  omega

theorem linked_above (he : ∀ y, a ≤ y → h' y = h y) (hl : Linked h last prev a cs) :
    Linked h' last prev a cs :=
  linked_congr (fun q hq => he _ (mem_blocks_bounds 32 (x := q.1) (c := q.2) hq).1) hl

theorem linked_setPrev {p : ℕ} (ha : entry a 0 cs ≠ 0 → h' a = update (h a) .prev p)
    (ha0 : a ≠ 0) (he : ∀ y, a + 32 ≤ y → h' y = h y) (hl : Linked h last prev a cs) :
    Linked h' last p a cs := by
  cases cs with
  | nil => trivial
  | cons c cs =>
    refine ⟨by rw [ha (by simpa [entry] using ha0), hl.1, update_fields_prev],
      linked_above (fun y hy => he y (by omega)) hl.2⟩

theorem linked_cons_iff {c : Cell} : Linked h last prev a (xs ++ c :: ys) ↔
      Linked h (stop 32 a xs) prev a xs ∧
        h (stop 32 a xs) = fields (entry (stop 32 a xs + 32 + c.payload) last ys)
          (lastAddr prev a xs) c ∧
        Linked h last (stop 32 a xs) (stop 32 a xs + 32 + c.payload) ys := by
  rw [linked_append]
  simp [Linked, entry]

end

variable {arch : Arch} {m : Mem} {b x y nx need : ℕ} {c : ℕ}

theorem get_set_word {f : Field} {v : ℕ} (hf : f ≠ .isFree) (hm : f ≠ .magic)
    (hv : v < 2 ^ arch.bits) :
    get arch (set arch m b f v) b = update (get arch m b) f v :=
  get_set_self (by rwa [Field.width_pow arch hf hm])

theorem get_setPrev_apart (h : nx = 0 ∨ Apart c nx) :
    get arch (setPrev arch m nx b) c = get arch m c := by
  unfold setPrev
  split_ifs with h0
  · rfl
  · exact get_set_apart (h.resolve_left h0)

theorem get_setPrev_self (h : nx ≠ 0) (hb : b < 2 ^ arch.bits) :
    get arch (setPrev arch m nx b) nx = update (get arch m nx) .prev b := by
  rw [setPrev, if_neg h]
  exact get_set_word (by decide) (by decide) hb

variable {rem p : ℕ}

theorem get_layRemainder_apart (h : Apart c rem) :
    get arch (layRemainder arch m b need rem) c = get arch m c := by
  simp only [layRemainder, get_set_apart h]

theorem get_layRemainder_self {d : Cell} (hb : get arch m b = fields nx p d) (hap : Apart b rem)
    (hlt : b + 32 + d.payload < 2 ^ arch.bits) (hnx : nx < 2 ^ arch.bits)
    (hneed : need + 48 ≤ d.payload) :
    get arch (layRemainder arch m b need rem) rem = fields nx b ⟨d.payload - need - 32, true⟩ := by
  have hs : sub arch (sub arch (get arch m b .payload) need) (arenaHdr arch) =
      d.payload - need - 32 := by
    have hi : sub arch d.payload need = d.payload - need := sub_eq (by omega) (by omega)
    rw [hb, fields_payload, hi, arenaHdr_eq, sub_eq (by omega) (by omega)]
  have hn : get arch m b .next = nx := by rw [hb, fields_next]
  have h1 : 1 < 256 ^ Field.width arch .isFree := by cases arch <;> decide
  have h2 : arenaMagic < 256 ^ Field.width arch .magic := by cases arch <;> decide
  simp only [layRemainder, get_set_apart hap]
  rw [hs, hn, get_set_word (by decide) (by decide) hnx,
    get_set_word (by decide) (by decide) (by omega), get_set_self h2, get_set_self h1,
    get_set_word (by decide) (by decide) (by omega)]
  funext f
  cases f <;> simp [fields]

section
variable {p : ℕ} {d : Cell} (hb : get arch m b = fields nx p d)
  (hlt : b + 32 + d.payload < 2 ^ arch.bits) (hnx : nx = 0 ∨ b + 32 + d.payload ≤ nx)
  (hnl : nx < 2 ^ arch.bits) (hneed : need + 48 ≤ d.payload)
include hb hlt hnx hnl hneed

theorem carve_spec : get arch (carve arch m b need) b = fields (b + 32 + need) p ⟨need, d.free⟩ ∧
      get arch (carve arch m b need) (b + 32 + need) =
        fields nx b ⟨d.payload - need - 32, true⟩ ∧
      (nx ≠ 0 → get arch (carve arch m b need) nx =
        update (get arch m nx) .prev (b + 32 + need)) ∧
      ∀ c, Apart c b → Apart c (b + 32 + need) → (nx = 0 ∨ Apart c nx) →
        get arch (carve arch m b need) c = get arch m c := by
  have hr : Word.wrap arch.bits (b + arenaHdr arch + need) = b + 32 + need := by
    rw [arenaHdr_eq, Word.wrap_of_lt (by omega)]
  have hbr : Apart b (b + 32 + need) := Or.inl (by omega)
  have hlay := get_layRemainder_self hb hbr hlt hnl hneed
  have hn : get arch (layRemainder arch m b need (b + 32 + need)) (b + 32 + need) .next = nx := by
    rw [hlay, fields_next]
  have hbn : nx = 0 ∨ Apart b nx := hnx.imp_right fun h => Or.inl (by omega)
  have hrn : nx = 0 ∨ Apart (b + 32 + need) nx := hnx.imp_right fun h => Or.inl (by omega)
  have he : carve arch m b need = set arch (set arch (setPrev arch
      (layRemainder arch m b need (b + 32 + need)) nx (b + 32 + need)) b .next (b + 32 + need))
      b .payload need := by
    simp only [carve, hr, hn]
  rw [he]
  refine ⟨?_, ?_, fun h0 => ?_, fun c hcb hcr hcn => ?_⟩
  · rw [get_set_word (by decide) (by decide) (by omega),
      get_set_word (by decide) (by decide) (by omega), get_setPrev_apart hbn,
      get_layRemainder_apart hbr, hb, update_fields_next, update_fields_payload]
  · rw [get_set_apart hbr.symm, get_set_apart hbr.symm, get_setPrev_apart hrn, hlay]
  · have hb' := (hbn.resolve_left h0).symm
    rw [get_set_apart hb', get_set_apart hb', get_setPrev_self h0 (by omega),
      get_layRemainder_apart (hrn.resolve_left h0).symm]
  · rw [get_set_apart hcb, get_set_apart hcb, get_setPrev_apart hcn, get_layRemainder_apart hcr]

end

theorem absorb_spec {q : ℕ} {d e : Cell} (hx : get arch m x = fields y q d)
    (hy : get arch m y = fields nx p e) (hxy : y = x + 32 + d.payload)
    (hlt : y + 32 + e.payload < 2 ^ arch.bits) (hnx : nx = 0 ∨ y + 32 + e.payload ≤ nx)
    (hnl : nx < 2 ^ arch.bits) :
    get arch (absorb arch m x y) x = fields nx q ⟨d.payload + 32 + e.payload, d.free⟩ ∧
      (nx ≠ 0 → get arch (absorb arch m x y) nx = update (get arch m nx) .prev x) ∧
      ∀ c, Apart c x → Apart c y → (nx = 0 ∨ Apart c nx) →
        get arch (absorb arch m x y) c = get arch m c := by
  have hap : Apart x y := Or.inl (by omega)
  have hxn : nx = 0 ∨ Apart x nx := hnx.imp_right fun h => Or.inl (by omega)
  have hyn : nx = 0 ∨ Apart y nx := hnx.imp_right fun h => Or.inl (by omega)
  have hsum : Word.wrap arch.bits (get arch m x .payload +
      Word.wrap arch.bits (arenaHdr arch + get arch m y .payload)) =
      d.payload + 32 + e.payload := by
    have hi : Word.wrap arch.bits (32 + e.payload) = 32 + e.payload := Word.wrap_of_lt (by omega)
    rw [hx, hy, fields_payload, fields_payload, arenaHdr_eq, hi, Word.wrap_of_lt (by omega)]
    omega
  have hn : get arch m y .next = nx := by rw [hy, fields_next]
  have he : absorb arch m x y = set arch (setPrev arch (set arch (set arch m x .payload
      (d.payload + 32 + e.payload)) x .next nx) nx x) y .magic 0 := by
    simp only [absorb, hsum, get_set_apart hap.symm, hn]
  rw [he]
  refine ⟨?_, fun h0 => ?_, fun c hcx hcy hcn => ?_⟩
  · rw [get_set_apart hap, get_setPrev_apart hxn, get_set_word (by decide) (by decide) hnl,
      get_set_word (by decide) (by decide) (by omega), hx, update_fields_payload,
      update_fields_next]
  · have hx' := (hxn.resolve_left h0).symm
    rw [get_set_apart (hyn.resolve_left h0).symm, get_setPrev_self h0 (by omega),
      get_set_apart hx', get_set_apart hx']
  · rw [get_set_apart hcy, get_setPrev_apart hcn, get_set_apart hcx, get_set_apart hcx]

theorem absorb_magic : get arch (absorb arch m x y) y .magic = 0 := by
  have hv : 0 < 256 ^ Field.width arch .magic := by positivity
  rw [absorb, get_set_self hv, update_self]

variable {prev a : ℕ} {xs ys : List Cell} {d e : Cell}

theorem entry_cases (z : ℕ) (cs : List Cell) : entry z 0 cs = 0 ∨ entry z 0 cs = z := by
  unfold entry
  split_ifs <;> simp

theorem linked_setFree (v : Bool) (hl : Linked (get arch m) 0 prev a (xs ++ d :: ys)) :
    Linked (get arch (set arch m (stop 32 a xs) .isFree v.toNat)) 0 prev a
      (xs ++ ⟨d.payload, v⟩ :: ys) := by
  obtain ⟨h1, h2, h3⟩ := linked_cons_iff.mp hl
  have hv : v.toNat < 256 ^ Field.width arch .isFree := by cases arch <;> cases v <;> decide
  refine linked_cons_iff.mpr ⟨linked_below (fun y hy => ?_) h1, ?_,
    linked_above (fun y hy => ?_) h3⟩
  · exact get_set_apart (Or.inl hy)
  · rw [get_set_self hv, h2, update_fields_isFree]
  · exact get_set_apart (Or.inr (by omega))

theorem linked_carve (hl : Linked (get arch m) 0 prev a (xs ++ d :: ys))
    (hlt : stop 32 a xs + 32 + d.payload < 2 ^ arch.bits) (hneed : need + 48 ≤ d.payload) :
    Linked (get arch (carve arch m (stop 32 a xs) need)) 0 prev a
      (xs ++ ⟨need, d.free⟩ :: ⟨d.payload - need - 32, true⟩ :: ys) := by
  obtain ⟨h1, h2, h3⟩ := linked_cons_iff.mp hl
  have hz := entry_cases (stop 32 a xs + 32 + d.payload) ys
  obtain ⟨hb, hr, hn, hf⟩ := carve_spec h2 hlt (by omega) (by omega) hneed
  have he : stop 32 a xs + 32 + need + 32 + (d.payload - need - 32) =
      stop 32 a xs + 32 + d.payload := by omega
  refine linked_cons_iff.mpr ⟨linked_below (fun y hy => ?_) h1, ?_, ?_, ?_⟩
  · exact hf y (Or.inl hy) (Or.inl (by omega)) (hz.imp_right fun h => Or.inl (by omega))
  · simpa [entry] using hb
  · dsimp only
    rw [he]
    exact hr
  · dsimp only
    rw [he]
    refine linked_setPrev (fun h0 => ?_) (by omega) (fun y hy => ?_) h3
    · have hz' := hz.resolve_left h0
      rw [hz'] at hn
      exact hn (by omega)
    · exact hf y (Or.inr (by omega)) (Or.inr (by omega)) (hz.imp_right fun h => Or.inr (by omega))

theorem linked_absorb (hl : Linked (get arch m) 0 prev a (xs ++ d :: e :: ys))
    (hlt : stop 32 a xs + 32 + d.payload + 32 + e.payload < 2 ^ arch.bits) :
    Linked (get arch (absorb arch m (stop 32 a xs) (stop 32 a xs + 32 + d.payload))) 0 prev a
      (xs ++ ⟨d.payload + 32 + e.payload, d.free⟩ :: ys) := by
  obtain ⟨h1, h2, h3, h4⟩ := linked_cons_iff.mp hl
  have hz := entry_cases (stop 32 a xs + 32 + d.payload + 32 + e.payload) ys
  obtain ⟨hb, hn, hf⟩ := absorb_spec (by simpa [entry] using h2) h3 rfl hlt (by omega) (by omega)
  have he : stop 32 a xs + 32 + (d.payload + 32 + e.payload) =
      stop 32 a xs + 32 + d.payload + 32 + e.payload := by omega
  refine linked_cons_iff.mpr ⟨linked_below (fun y hy => ?_) h1, ?_, ?_⟩
  · exact hf y (Or.inl hy) (Or.inl (by omega)) (hz.imp_right fun h => Or.inl (by omega))
  · dsimp only
    rw [he]
    exact hb
  · dsimp only
    rw [he]
    refine linked_setPrev (fun h0 => ?_) (by omega) (fun y hy => ?_) h4
    · have hz' := hz.resolve_left h0
      rw [hz'] at hn
      exact hn (by omega)
    · exact hf y (Or.inr (by omega)) (Or.inr (by omega)) (hz.imp_right fun h => Or.inr (by omega))

end Overtos.Arena
