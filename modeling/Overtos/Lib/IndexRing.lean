import Overtos.Lib.Fifo
import Overtos.Lib.Word

/-! Rings of `size` slots addressed by free-running `width`-bit indices. -/
namespace IndexRing
open Word

variable {α σ : Type*}

structure Slots (α : Type*) where
  buf : ℕ → α
  write : ℕ
  read : ℕ

inductive Op (α : Type*) where
  | push (x : α)
  | drain (n : ℕ)

def Op.toFifo (lim : ℕ → ℕ) : Op α → Fifo.Op α
  | .push x => .put [x]
  | .drain n => .take 0 (lim n)

section

variable (width size : ℕ)

def slot (c : ℕ) : ℕ := wrap width c % size

def avail (c : Slots α) : ℕ := sub width c.write c.read

def step (c : Slots α) : Op α → Slots α × Fifo.Out α
  | .push x =>
    if size ≤ avail width c then (c, .stored 0)
    else ({ c with
      buf := Function.update c.buf (slot width size c.write) x
      write := wrap width (c.write + 1) }, .stored 1)
  | .drain n =>
    let k := min n (avail width c)
    ({ c with read := wrap width (c.read + k) },
      .items ((List.range k).map fun i => c.buf (slot width size (c.read + i))))

def Apart (pos n : ℕ) : Prop :=
  ∀ i < n, ∀ j < n, slot width size (pos + i) = slot width size (pos + j) → i = j

structure Live (c : Slots α) (pos : ℕ) (q : List α) : Prop where
  read : c.read = wrap width pos
  write : c.write = wrap width (pos + q.length)
  fits : q.length ≤ size
  small : q.length < 2 ^ width
  holds : ∀ i x, q[i]? = some x → c.buf (slot width size (pos + i)) = x

structure Follows (lim : ℕ → ℕ) (f : σ → Op α → σ × Fifo.Out α) (V : σ → Slots α → Prop) :
    Prop where
  lim_of_lt : ∀ n < 2 ^ width, lim n = n
  push : ∀ s c x, V s c → V (f s (.push x)).1 (step width size c (.push x)).1 ∧
    (f s (.push x)).2 = (step width size c (.push x)).2
  drain : ∀ s c n, V s c → Apart width size c.read (avail width c) →
    V (f s (.drain n)).1 (step width size c (.drain (lim n))).1 ∧
      (f s (.drain n)).2 = (step width size c (.drain (lim n))).2
  drainOne : ∀ s c, V s c → (f s (.drain 1)).2 = (step width size c (.drain 1)).2

end

variable {width size pos n : ℕ} {c : Slots α} {q : List α}

theorem slot_wrap_add (a b : ℕ) : slot width size (wrap width a + b) = slot width size (a + b) := by
  rw [slot, wrap_wrap_add, slot]

theorem slot_wrap (a : ℕ) : slot width size (wrap width a) = slot width size a := slot_wrap_add a 0

theorem slot_of_lt (h : pos < 2 ^ width) : slot width size pos = pos % size := by
  rw [slot, wrap_of_lt h]

theorem slot_of_dvd (h : size ∣ 2 ^ width) : slot width size pos = pos % size := by
  rw [slot, wrap, Nat.mod_mod_of_dvd _ h]

theorem add_mod_inj {i j : ℕ} (hi : i < size) (hj : j < size)
    (h : (pos + i) % size = (pos + j) % size) : i = j := by
  have hm : i ≡ j [MOD size] := Nat.ModEq.add_left_cancel' pos h
  exact Nat.ModEq.eq_of_lt_of_lt hm hi hj

theorem apart_of_dvd (h : size ∣ 2 ^ width) (hn : n ≤ size) : Apart width size pos n := by
  intro i hi j hj hij
  rw [slot_of_dvd h, slot_of_dvd h] at hij
  exact add_mod_inj (by omega) (by omega) hij

theorem apart_of_lt (h : pos + n ≤ 2 ^ width) (hn : n ≤ size) : Apart width size pos n := by
  intro i hi j hj hij
  rw [slot_of_lt (by omega), slot_of_lt (by omega)] at hij
  exact add_mod_inj (by omega) (by omega) hij

theorem apart_wrap : Apart width size (wrap width pos) n ↔ Apart width size pos n := by
  simp only [Apart, slot_wrap_add]

namespace Live

theorem avail_eq (h : Live width size c pos q) : avail width c = q.length := by
  rw [avail, h.read, h.write, sub_wrap_wrap h.small]

theorem push (h : Live width size c pos q) (hlt : q.length < size)
    (hsmall : q.length + 1 < 2 ^ width) (hapart : Apart width size pos (q.length + 1)) (x : α) :
    Live width size (step width size c (.push x)).1 pos (q ++ [x]) ∧
      (step width size c (.push x)).2 = .stored 1 := by
  have hfree : ¬size ≤ avail width c := by
    rw [h.avail_eq]
    omega
  have hslot : slot width size c.write = slot width size (pos + q.length) := by
    rw [h.write, slot_wrap]
  simp only [step, if_neg hfree, hslot, and_true]
  refine ⟨h.read, ?_, by simpa using hlt, by simpa using hsmall, ?_⟩
  · simp [h.write, wrap_wrap_add, Nat.add_assoc]
  · intro i y hi
    have hlen : i < q.length + 1 := by
      simpa using (List.getElem?_eq_some_iff.mp hi).1
    rcases Nat.lt_succ_iff_lt_or_eq.mp hlen with hlt' | rfl
    · rw [List.getElem?_append_left hlt'] at hi
      have hne : slot width size (pos + i) ≠ slot width size (pos + q.length) := by
        intro heq
        have := hapart i hlen q.length (by omega) heq
        omega
      simpa [Function.update_of_ne hne] using h.holds i y hi
    · have hx : y = x := by simpa using hi.symm
      simp [hx]

theorem push_full (h : Live width size c pos q) (hfull : q.length = size) (x : α) :
    step width size c (.push x) = (c, .stored 0) := by
  have : size ≤ avail width c := by rw [h.avail_eq, hfull]
  simp [step, this]

theorem drain (h : Live width size c pos q) (n : ℕ) :
    Live width size (step width size c (.drain n)).1 (pos + min n q.length) (q.drop n) ∧
      (step width size c (.drain n)).2 = .items (q.take n) := by
  have hfits := h.fits
  have hsmall := h.small
  constructor
  · refine ⟨?_, ?_, ?_, ?_, ?_⟩
    · simp [step, h.avail_eq, h.read, wrap_wrap_add]
    · have hsum : pos + min n q.length + (q.drop n).length = pos + q.length := by
        simp only [List.length_drop]
        omega
      rw [hsum]
      exact h.write
    · simp only [List.length_drop]
      omega
    · simp only [List.length_drop]
      omega
    · intro i x hi
      rw [List.getElem?_drop] at hi
      have hlen := (List.getElem?_eq_some_iff.mp hi).1
      have hmin : min n q.length = n := by omega
      rw [hmin, Nat.add_assoc]
      exact h.holds (n + i) x hi
  · simp only [step, h.avail_eq, h.read, slot_wrap_add]
    congr 1
    apply List.ext_getElem?
    intro i
    by_cases hi : i < min n q.length
    · obtain ⟨x, hx⟩ : ∃ x, q[i]? = some x := ⟨_, List.getElem?_eq_getElem (by omega)⟩
      rw [List.getElem?_take_of_lt (by omega), hx]
      simp [hi, h.holds i x hx]
    · rw [List.getElem?_eq_none (by simp; omega), List.getElem?_eq_none (by simp; omega)]

theorem start (buf : ℕ → α) : Live width size ⟨buf, 0, 0⟩ 0 [] := by
  have hpos := Nat.two_pow_pos width
  exact ⟨(wrap_of_lt hpos).symm, (wrap_of_lt hpos).symm, Nat.zero_le _, hpos, by simp⟩

end Live

def wrapOps (width size : ℕ) (a b : α) : List (Op α) :=
  (List.replicate (2 ^ width - 1) [Op.push a, Op.drain 1]).flatten ++ [.push a] ++
    List.replicate (2 ^ width % size) (.push b) ++ [.drain 1]

section

variable {cap : ℕ} {lim : ℕ → ℕ} {f : σ → Op α → σ × Fifo.Out α} {V : σ → Slots α → Prop}
  (F : Follows width size lim f V) {s : σ} {h : Fifo.History α}

include F

theorem Follows.simulates (hdvd : size ∣ 2 ^ width) (hlt : size < 2 ^ width) (s : σ) (q : List α)
    (op : Op α) (hR : ∃ c pos, V s c ∧ Live width size c pos q) :
    (∃ c pos, V (f s op).1 c ∧
      Live width size c pos (Fifo.step size q (op.toFifo lim)).1) ∧
      (f s op).2 = (Fifo.step size q (op.toFifo lim)).2 := by
  obtain ⟨c, pos, hV, hL⟩ := hR
  have hfits := hL.fits
  cases op with
  | push x =>
    obtain ⟨hV', hout⟩ := F.push s c x hV
    rcases Nat.lt_or_eq_of_le hfits with hq | hq
    · obtain ⟨hL', hst⟩ := hL.push hq (by omega) (apart_of_dvd hdvd hq) x
      have htake : [x].take (size - q.length) = [x] := List.take_of_length_le (by simp; omega)
      have hmin : min 1 (size - q.length) = 1 := by omega
      refine ⟨⟨_, pos, hV', ?_⟩, ?_⟩
      · simpa [Op.toFifo, Fifo.step, htake] using hL'
      · simp [Op.toFifo, Fifo.step, hout, hst, hmin]
    · rw [hL.push_full hq x] at hV' hout
      refine ⟨⟨c, pos, hV', ?_⟩, ?_⟩
      · simpa [Op.toFifo, Fifo.step, hq] using hL
      · simp [Op.toFifo, Fifo.step, hout, hq]
  | drain n =>
    have hapart : Apart width size c.read (avail width c) := by
      rw [hL.read, hL.avail_eq, apart_wrap]
      exact apart_of_dvd hdvd hfits
    obtain ⟨hV', hout⟩ := F.drain s c n hV hapart
    obtain ⟨hL', hst⟩ := hL.drain (lim n)
    refine ⟨⟨_, pos + min (lim n) q.length, hV', ?_⟩, ?_⟩
    · simpa [Op.toFifo, Fifo.step] using hL'
    · simp [Op.toFifo, Fifo.step, hout, hst]

variable {buf : ℕ → α} {a b : α}

theorem Follows.behaves (hdvd : size ∣ 2 ^ width) (hlt : size < 2 ^ width) (h0 : V s ⟨buf, 0, 0⟩)
    (ops : List (Op α)) : Fifo.Behaves size (Op.toFifo lim) f s ops := by
  have hstep := F.simulates hdvd hlt
  have hstart : ∃ c pos, V s c ∧ Live width size c pos [] := ⟨_, 0, h0, Live.start buf⟩
  obtain ⟨q, hR, hacc, hcap⟩ := Fifo.trace_simulates hstep hstart ops
  refine ⟨⟨q, hacc.symm⟩, ⟨.drain q.length, q.length, ?_, ?_⟩, ?_⟩
  · simp [Op.toFifo, F.lim_of_lt q.length (by omega)]
  · rw [(hstep _ q (.drain q.length) hR).2, hacc]
    simp [Op.toFifo, Fifo.step, F.lim_of_lt q.length (by omega)]
  · intro i x hi hout
    cases i with
    | push y =>
      have hzero : min 1 (size - q.length) = 0 := by
        simpa [hout, Op.toFifo, Fifo.step, eq_comm] using (hstep _ q (.push y) hR).2
      rw [hacc, List.length_append]
      omega
    | drain n => simp [Op.toFifo] at hi

theorem Follows.pushes {c : Slots α} (hV : V s c) {R k n : ℕ} (hr : c.read = wrap width R)
    (hw : c.write = wrap width (R + k)) (hsize : k + n ≤ size) (hwidth : k + n ≤ 2 ^ width)
    (a : α) :
    let p := (List.replicate n (.push a)).foldl (Fifo.track (Op.toFifo lim) f) (s, h)
    ∃ c', V p.1 c' ∧ c'.read = wrap width R ∧ c'.write = wrap width (R + k + n) ∧
      p.2 = ⟨h.accepted ++ List.replicate n a, h.returned⟩ ∧
      (∀ j < n, c'.buf (slot width size (R + k + j)) = a) ∧
      ∀ i, c.buf i = a → c'.buf i = a := by
  induction n generalizing s h c k with
  | zero => exact ⟨c, hV, hr, hw, by simp, by simp, by simp⟩
  | succ n ih =>
    obtain ⟨hV', hout⟩ := F.push s c a hV
    have havail : avail width c = k := by rw [avail, hr, hw, sub_wrap_wrap (by omega)]
    have hfree : ¬size ≤ avail width c := by omega
    simp only [step, if_neg hfree] at hV' hout
    have hrec : h.record (Op.toFifo lim (.push a)) (f s (.push a)).2 =
        ⟨h.accepted ++ [a], h.returned⟩ := by
      simp [hout, Op.toFifo, Fifo.History.record]
    obtain ⟨c', hc, hr', hw', hp, hnew, hold⟩ := ih (h := ⟨h.accepted ++ [a], h.returned⟩)
      (k := k + 1) hV' hr (by rw [hw, wrap_wrap_add, Nat.add_assoc]) (by omega) (by omega)
    have hstart : (List.replicate (n + 1) (Op.push a)).foldl (Fifo.track (Op.toFifo lim) f) (s, h)
        = (List.replicate n (.push a)).foldl (Fifo.track (Op.toFifo lim) f)
          ((f s (.push a)).1, ⟨h.accepted ++ [a], h.returned⟩) := by
      rw [List.replicate_succ, List.foldl_cons, Fifo.track, hrec]
    rw [hstart]
    refine ⟨c', hc, hr', ?_, ?_, ?_, ?_⟩
    · rw [hw']
      congr 1
      omega
    · rw [hp, List.replicate_succ, List.append_assoc]
      rfl
    · intro j hj
      rcases j with _ | j
      · apply hold
        simp [hw, slot_wrap]
      · have := hnew j (by omega)
        rwa [show R + (k + 1) + j = R + k + (j + 1) by omega] at this
    · intro i hi
      apply hold
      by_cases hs : i = slot width size c.write
      · simp [hs]
      · simp [Function.update_of_ne hs, hi]

theorem Follows.pairs {c : Slots α} (hV : V s c) {k n : ℕ} (hL : Live width size c k [])
    (hsize : 0 < size) (hn : k + n < 2 ^ width) (a : α) :
    let ops := (List.replicate n [Op.push a, Op.drain 1]).flatten
    let p := ops.foldl (Fifo.track (Op.toFifo lim) f) (s, h)
    ∃ c', V p.1 c' ∧ Live width size c' (k + n) [] ∧
      p.2 = ⟨h.accepted ++ List.replicate n a, h.returned ++ List.replicate n a⟩ := by
  induction n generalizing s h c k with
  | zero => exact ⟨c, hV, hL, by simp⟩
  | succ n ih =>
    have hone : ([] : List α).length + 1 < 2 ^ width := by
      show 0 + 1 < 2 ^ width
      omega
    have hfirst : k + 1 ≤ 2 ^ width := by omega
    obtain ⟨hV₁, hout₁⟩ := F.push s c a hV
    obtain ⟨hL₁, hst₁⟩ := hL.push hsize hone (apart_of_lt hfirst hsize) a
    have hapart : Apart width size (step width size c (.push a)).1.read
        (avail width (step width size c (.push a)).1) := by
      rw [hL₁.read, hL₁.avail_eq, apart_wrap]
      exact apart_of_lt hfirst hsize
    obtain ⟨hV₂, hout₂⟩ := F.drain _ _ 1 hV₁ hapart
    rw [F.lim_of_lt 1 hone] at hV₂ hout₂
    obtain ⟨hL₂, hst₂⟩ := hL₁.drain 1
    obtain ⟨c', hc, hL', hp⟩ := ih (h := ⟨h.accepted ++ [a], h.returned ++ [a]⟩) (k := k + 1) hV₂
      (by simpa using hL₂) (by omega)
    have hstart : (List.replicate (n + 1) [Op.push a, Op.drain 1]).flatten.foldl
        (Fifo.track (Op.toFifo lim) f) (s, h) =
        (List.replicate n [Op.push a, Op.drain 1]).flatten.foldl (Fifo.track (Op.toFifo lim) f)
          ((f (f s (.push a)).1 (.drain 1)).1, ⟨h.accepted ++ [a], h.returned ++ [a]⟩) := by
      simp [List.replicate_succ, Fifo.track, Fifo.History.record, Op.toFifo, hout₁, hst₁, hout₂,
        hst₂]
    simp only [hstart]
    refine ⟨c', hc, ?_, ?_⟩
    · rwa [show k + (n + 1) = k + 1 + n by omega]
    · simp [hp, List.replicate_succ]

theorem Follows.lossy (h0 : V s ⟨buf, 0, 0⟩) (a : α) (hsize : 2 ^ width ≤ size) :
    ¬Fifo.Behaves cap (Op.toFifo lim) f s (List.replicate (2 ^ width) (.push a)) := by
  rintro ⟨-, ⟨i, n, hi, hout⟩, -⟩
  have hpos := Nat.two_pow_pos width
  obtain ⟨c, hc, hr, hw, hp, -, -⟩ := F.pushes (h := .start) (R := 0) (k := 0)
    (n := 2 ^ width) h0 (wrap_of_lt hpos).symm (wrap_of_lt hpos).symm (by omega) (by omega) a
  have hempty : avail width c = 0 := by
    rw [avail, hr, hw]
    simp [sub, wrap]
  cases i with
  | push x => simp [Op.toFifo] at hi
  | drain n =>
    have hnone := (F.drain _ c n hc (by simp [hempty, Apart])).2
    rw [Fifo.trace, hp] at hout
    have hall : (step width size c (.drain (lim n))).2 = .items [] := by simp [step, hempty]
    rw [hnone, hall] at hout
    simp [Fifo.History.start] at hout

theorem Follows.refuses_at_size (h0 : V s ⟨buf, 0, 0⟩) (a : α) (hsize : size < 2 ^ width)
    (hb : Fifo.Behaves cap (Op.toFifo lim) f s (List.replicate size (.push a))) : cap = size := by
  have hpos := Nat.two_pow_pos width
  obtain ⟨c, hc, hr, hw, hp, -, -⟩ := F.pushes (h := .start) (R := 0) (k := 0)
    (n := size) h0 (wrap_of_lt hpos).symm (wrap_of_lt hpos).symm (by omega) (by omega) a
  have hfull : avail width c = size := by
    rw [avail, hr, hw]
    exact sub_wrap_wrap (by omega)
  have hout := (F.push _ c a hc).2
  have hno : (step width size c (.push a)).2 = .stored 0 := by simp [step, hfull]
  have := hb.refuses (.push a) a rfl (hout.trans hno)
  rw [Fifo.trace, hp] at this
  simpa [Fifo.History.start, eq_comm] using this

theorem Follows.overwrites (h0 : V s ⟨buf, 0, 0⟩) (hsize : 0 < size) (hlt : size < 2 ^ width)
    (hdvd : ¬size ∣ 2 ^ width) :
    (Fifo.trace (Op.toFifo lim) f s (wrapOps width size a b)).2 =
      ⟨List.replicate (2 ^ width) a ++ List.replicate (2 ^ width % size) b,
        List.replicate (2 ^ width - 1) a ++ [b]⟩ := by
  have hm : 0 < 2 ^ width % size := Nat.pos_of_ne_zero fun h => hdvd (Nat.dvd_of_mod_eq_zero h)
  have hmlt := Nat.mod_lt (2 ^ width) hsize
  have hone : ([] : List α).length + 1 < 2 ^ width := by
    show 0 + 1 < 2 ^ width
    omega
  rw [Fifo.trace, wrapOps, List.foldl_append, List.foldl_append, List.foldl_append]
  -- every earlier item has been read: the next one gets the last index
  obtain ⟨c₁, hV₁, hL₁, hp₁⟩ := F.pairs (h := .start) (k := 0) (n := 2 ^ width - 1) h0
    (Live.start buf) hsize (by omega) a
  rw [Nat.zero_add] at hL₁
  set p₁ := (List.replicate (2 ^ width - 1) [Op.push a, Op.drain 1]).flatten.foldl
    (Fifo.track (Op.toFifo lim) f) (s, .start)
  obtain ⟨hV₂, hout₂⟩ := F.push p₁.1 c₁ a hV₁
  have hlast : 2 ^ width - 1 + 1 = 2 ^ width := by omega
  obtain ⟨hL₂, hst₂⟩ := hL₁.push hsize hone (apart_of_lt hlast.le hsize) a
  have hp₂ : [Op.push a].foldl (Fifo.track (Op.toFifo lim) f) p₁ = ((f p₁.1 (.push a)).1,
      ⟨List.replicate (2 ^ width) a, List.replicate (2 ^ width - 1) a⟩) := by
    simp only [List.foldl_cons, List.foldl_nil, Fifo.track, Op.toFifo, hout₂, hst₂,
      Fifo.History.record, hp₁, Fifo.History.start, List.nil_append]
    rw [List.take_of_length_le (by simp), ← List.replicate_succ', hlast]
  rw [hp₂]
  -- the indices start again at zero and reach its slot before it is read
  obtain ⟨c₃, hV₃, hr₃, hw₃, hp₃, hnew, -⟩ := F.pushes
    (h := ⟨List.replicate (2 ^ width) a, List.replicate (2 ^ width - 1) a⟩)
    (k := 1) (n := 2 ^ width % size) hV₂ hL₂.read hL₂.write (by omega) (by omega) b
  have hslot : slot width size (2 ^ width - 1) = 2 ^ width % size - 1 := by
    have hdiv := Nat.mod_add_div (2 ^ width) size
    have heq : 2 ^ width - 1 = 2 ^ width % size - 1 + size * (2 ^ width / size) := by omega
    rw [slot_of_lt (by omega), heq, Nat.add_mul_mod_self_left, Nat.mod_eq_of_lt (by omega)]
  have hread : c₃.buf (2 ^ width % size - 1) = b := by
    have hj := hnew (2 ^ width % size - 1) (by omega)
    have hfirst : 2 ^ width % size - 1 < 2 ^ width := by omega
    rwa [hlast, slot, wrap, Nat.add_mod_left, Nat.mod_eq_of_lt hfirst,
      Nat.mod_eq_of_lt (by omega)] at hj
  have havail : avail width c₃ = 1 + 2 ^ width % size := by
    rw [avail, hr₃, hw₃, Nat.add_assoc, sub_wrap_wrap (by omega)]
  have hout : (step width size c₃ (.drain 1)).2 = .items [b] := by
    have hk : min 1 (avail width c₃) = 1 := by omega
    simp [step, hk, hr₃, slot_wrap, hslot, hread]
  have hdrain := (F.drainOne _ c₃ hV₃).trans hout
  simp [Fifo.track, hdrain, hp₃, Op.toFifo, Fifo.History.record]

theorem Follows.wrapOps_disordered (h0 : V s ⟨buf, 0, 0⟩) (hab : a ≠ b) (hsize : 0 < size)
    (hlt : size < 2 ^ width) (hdvd : ¬size ∣ 2 ^ width) : let h := (Fifo.trace (Op.toFifo lim) f s (wrapOps width size a b)).2
    ¬h.returned <+: h.accepted := by
  intro h hpre
  have htrace := F.overwrites h0 (a := a) (b := b) hsize hlt hdvd
  simp only [h, htrace] at hpre
  have hget := List.prefix_iff_getElem?.mp hpre (2 ^ width - 1) (by simp)
  rw [List.getElem?_append_left (by simp), List.getElem?_replicate_of_lt (by omega)] at hget
  simp at hget
  exact hab hget

theorem Follows.behaves_iff (h0 : V s ⟨buf, 0, 0⟩) (hab : a ≠ b) (hcap : 0 < cap) :
    (∀ ops, Fifo.Behaves cap (Op.toFifo lim) f s ops) ↔
      cap = size ∧ size ∣ 2 ^ width ∧ size < 2 ^ width := by
  constructor
  · intro hb
    have hlt : size < 2 ^ width := by
      by_contra hge
      exact F.lossy h0 a (by omega) (hb _)
    have hsize := F.refuses_at_size h0 a hlt (hb _)
    refine ⟨hsize, ?_, hlt⟩
    by_contra hdvd
    exact F.wrapOps_disordered h0 hab (by omega) hlt hdvd (hb _).inOrder
  · rintro ⟨rfl, hdvd, hlt⟩ ops
    exact F.behaves hdvd hlt h0 ops

end

def Op.isPush : Op α → Bool
  | .push _ => true
  | .drain _ => false

structure Counts (width : ℕ) (f : σ → Op α → σ × Fifo.Out α) (dropped : σ → ℕ) : Prop where
  push : ∀ s x, (f s (.push x)).2 = .stored 1 ∧ dropped (f s (.push x)).1 = dropped s ∨
    (f s (.push x)).2 = .stored 0 ∧ dropped (f s (.push x)).1 = wrap width (dropped s + 1)
  drain : ∀ s n, dropped (f s (.drain n)).1 = dropped s

section

variable {f : σ → Op α → σ × Fifo.Out α} {dropped : σ → ℕ}
  (C : Counts width f dropped) (lim : ℕ → ℕ)

include C

theorem Counts.foldl {p : σ × Fifo.History α} {m r : ℕ} (hp : p.2.accepted.length + r = m)
    (hd : dropped p.1 = wrap width r) (ops : List (Op α)) :
    let p' := ops.foldl (Fifo.track (Op.toFifo lim) f) p
    ∃ r', p'.2.accepted.length + r' = m + ops.countP Op.isPush ∧
      dropped p'.1 = wrap width r' := by
  induction ops generalizing p m r with
  | nil => exact ⟨r, hp, hd⟩
  | cons op ops ih =>
    cases op with
    | push x =>
      obtain ⟨r₁, hr₁, hd₁⟩ : ∃ r₁,
          (Fifo.track (Op.toFifo lim) f p (.push x)).2.accepted.length + r₁ = m + 1 ∧
            dropped (Fifo.track (Op.toFifo lim) f p (.push x)).1 = wrap width r₁ := by
        rcases C.push p.1 x with ⟨hout, hd'⟩ | ⟨hout, hd'⟩
        · refine ⟨r, ?_, hd'.trans hd⟩
          simp [Fifo.track, Op.toFifo, hout, Fifo.History.record]
          omega
        · refine ⟨r + 1, ?_, ?_⟩
          · simp [Fifo.track, Op.toFifo, hout, Fifo.History.record]
            omega
          · simp [Fifo.track, hd', hd, wrap_wrap_add]
      obtain ⟨r', hr', hdr⟩ := ih hr₁ hd₁
      refine ⟨r', ?_, hdr⟩
      simp only [List.foldl_cons, hr', List.countP_cons, Op.isPush, if_true]
      omega
    | drain n =>
      have hacc : (p.2.record (Op.toFifo lim (.drain n)) (f p.1 (.drain n)).2).accepted =
          p.2.accepted := by
        cases (f p.1 (.drain n)).2 <;> rfl
      obtain ⟨r', hr', hdr⟩ := ih (p := Fifo.track (Op.toFifo lim) f p (.drain n)) (m := m)
        (r := r) (by simpa [Fifo.track, hacc] using hp) (by simp [Fifo.track, C.drain, hd])
      exact ⟨r', by simpa [Op.isPush] using hr', hdr⟩

theorem Counts.balance_iff {s : σ} (hs : dropped s = 0) (ops : List (Op α)) :
    let p := Fifo.trace (Op.toFifo lim) f s ops
    p.2.accepted.length + dropped p.1 = ops.countP Op.isPush ↔
      ops.countP Op.isPush < p.2.accepted.length + 2 ^ width := by
  obtain ⟨r, hr, hd⟩ := C.foldl lim (p := (s, .start)) (m := 0) (r := 0) rfl
    (by simp [hs, wrap]) ops
  simp only [Fifo.trace, hd]
  constructor
  · intro h
    have := wrap_lt width r
    omega
  · intro h
    rw [wrap_of_lt (by omega)]
    omega

end
end IndexRing
