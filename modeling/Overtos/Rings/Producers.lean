import Overtos.Lib.Runs
import Overtos.Rings.ProfilerRing

/-! The profiler ring under many producers and one consumer, one atomic access at a time. -/
namespace Overtos.Rings
open Word IndexRing Runs Function

abbrev Words (words : ℕ) : Type := Fin words → UInt32

/-- `seen` is the number of reservations when the write index was loaded, `c` the own reservation.
-/
inductive Producer (words : ℕ) where
  | idle
  | loadWrite (x : Words words)
  | loadRead (x : Words words) (w seen : ℕ)
  | drop
  | cas (x : Words words) (w seen : ℕ)
  | fill (x : Words words) (w c j : ℕ)

inductive Consumer (words : ℕ) where
  | idle
  | loadRead (max : ℕ)
  | loadWrite (max r : ℕ)
  | loop (max r w copied : ℕ)
  | copy (max r w copied j : ℕ) (out : Words words)
  | clear (max r w copied : ℕ)
  | store (r : ℕ)

/-- The ring, its users, and the record of reservations, publications and drains. -/
structure System (ι : Type) (words : ℕ) where
  ring : ProfilerRing (Words words)
  producers : ι → Producer words
  consumer : Consumer words
  reserved : List (Words words)
  published : ℕ → Bool
  drained : List (Words words)
  released : ℕ

/-- `casFail` is a compare-and-swap that fails, spuriously or not. -/
inductive RingAct (ι : Type) (words : ℕ) where
  | push (i : ι) (x : Words words)
  | producer (i : ι)
  | casFail (i : ι)
  | drain (max : ℕ)
  | consumer

variable {ι : Type} {words : ℕ}

section

variable [DecidableEq ι] (size : ℕ)

def System.setProducer (s : System ι words) (i : ι) (p : Producer words) : System ι words :=
  { s with producers := update s.producers i p }

def producerStep (s : System ι words) (i : ι) : Option (System ι words) :=
  match s.producers i with
  | .idle => none
  | .loadWrite x => some (s.setProducer i (.loadRead x s.ring.write s.reserved.length))
  | .loadRead x w seen =>
    let r := s.ring.read
    if size ≤ sub 32 w r then some (s.setProducer i .drop) else some (s.setProducer i (.cas x w seen))
  | .drop =>
    some { s with
      producers := update s.producers i .idle
      ring := { s.ring with dropped := wrap 32 (s.ring.dropped + 1) } }
  | .cas x w _ =>
    if s.ring.write = w then
      some { s with
        producers := update s.producers i (.fill x w s.reserved.length 0)
        ring := { s.ring with write := wrap 32 (w + 1) }
        reserved := s.reserved ++ [x] }
    else none
  | .fill x w c j =>
    let idx := w % size
    if h : j < words then
      some { s with
        producers := update s.producers i (.fill x w c (j + 1))
        ring := { s.ring with
          buf := update s.ring.buf idx
            (update (s.ring.buf idx) ⟨j, h⟩ (x ⟨j, h⟩)) } }
    else
      some { s with
        producers := update s.producers i .idle
        ring := { s.ring with committed := update s.ring.committed idx true }
        published := update s.published c true }

def consumerStep (s : System ι words) : Option (System ι words) :=
  match s.consumer with
  | .idle => none
  | .loadRead max => some { s with consumer := .loadWrite max s.ring.read }
  | .loadWrite max r => some { s with consumer := .loop max r s.ring.write 0 }
  | .loop max r w copied =>
    if r ≠ w ∧ copied < max then
      if s.ring.committed (r % size) then
        some { s with consumer := .copy max r w copied 0 fun _ => 0 }
      else some { s with consumer := .store r }
    else some { s with consumer := .store r }
  | .copy max r w copied j out =>
    if h : j < words then
      let out := update out ⟨j, h⟩ (s.ring.buf (r % size) ⟨j, h⟩)
      some { s with consumer := .copy max r w copied (j + 1) out }
    else some { s with consumer := .clear max r w (copied + 1), drained := s.drained ++ [out] }
  | .clear max r w copied =>
    some { s with
      ring := { s.ring with committed := update s.ring.committed (r % size) false }
      consumer := .loop max (wrap 32 (r + 1)) w copied }
  | .store r =>
    some { s with
      ring := { s.ring with read := r }
      consumer := .idle
      released := s.drained.length }

def ringStep (s : System ι words) : RingAct ι words → Option (System ι words)
  | .push i x =>
    match s.producers i with
    | .idle => some (s.setProducer i (.loadWrite x))
    | _ => none
  | .producer i => producerStep size s i
  | .casFail i =>
    match s.producers i with
    | .cas x _ _ => some (s.setProducer i (.loadWrite x))
    | _ => none
  | .drain max =>
    match s.consumer with
    | .idle => some { s with consumer := .loadRead (wrap 32 max) }
    | _ => none
  | .consumer => consumerStep size s

end

def System.start : System ι words :=
  ⟨.init fun _ => 0, fun _ => .idle, .idle, [], fun _ => false, [], 0⟩

/-- A compare-and-swap follows the load of its index after fewer than `2 ^ 32` reservations. -/
def Timely (s : System ι words) : RingAct ι words → Prop
  | .producer i =>
    match s.producers i with
    | .cas _ _ seen => s.reserved.length < seen + 2 ^ 32
    | _ => True
  | _ => True

structure RingSound (size : ℕ) (s : System ι words) : Prop where
  order : s.drained <+: s.reserved
  complete : ∀ n < s.drained.length, s.published n = true
  exclusive : ∀ i x w c j, s.producers i = .fill x w c j →
    ∀ n, s.published n = true → s.drained.length ≤ n → slot 32 size n ≠ w % size

def ProducerOk (size : ℕ) (s : System ι words) : Producer words → Prop
  | .loadRead _ w seen => w = wrap 32 seen ∧ seen ≤ s.reserved.length
  | .cas _ w seen => w = wrap 32 seen ∧ seen ≤ s.reserved.length ∧
    (seen = s.reserved.length → seen < s.released + size)
  | .fill x w c j => w = wrap 32 c ∧ s.reserved[c]? = some x ∧ s.published c = false ∧
    ∀ k : Fin words, k.val < j → s.ring.buf (slot 32 size c) k = x k
  | _ => True

def ConsumerOk (s : System ι words) : Consumer words → Prop
  | .idle => s.released = s.drained.length
  | .loadRead _ => s.released = s.drained.length
  | .loadWrite _ r => s.released = s.drained.length ∧ r = wrap 32 s.drained.length
  | .loop _ r w _ => r = wrap 32 s.drained.length ∧
    ∃ e, w = wrap 32 e ∧ s.drained.length ≤ e ∧ e ≤ s.reserved.length
  | .copy _ r w _ j out => r = wrap 32 s.drained.length ∧
    (∃ e, w = wrap 32 e ∧ s.drained.length < e ∧ e ≤ s.reserved.length) ∧
    s.published s.drained.length = true ∧
    ∃ x, s.reserved[s.drained.length]? = some x ∧ ∀ k : Fin words, k.val < j → out k = x k
  | .clear _ r w _ => ∃ d, s.drained.length = d + 1 ∧ s.released ≤ d ∧ r = wrap 32 d ∧
    ∃ e, w = wrap 32 e ∧ s.drained.length ≤ e ∧ e ≤ s.reserved.length
  | .store r => r = wrap 32 s.drained.length

def Consumer.clearing : Consumer words → Bool
  | .clear _ _ _ _ => true
  | _ => false

def Distinct (f : ι → Producer words) : Prop :=
  ∀ i i' x w c j x' w' j', f i = .fill x w c j → f i' = .fill x' w' c j' → i = i'

/-- The reservations from `released` on have slots of their own; the commit flag of a slot says that
its sample is published and not yet drained. -/
structure RingInv (size : ℕ) (s : System ι words) : Prop where
  write : s.ring.write = wrap 32 s.reserved.length
  read : s.ring.read = wrap 32 s.released
  released : s.released ≤ s.drained.length
  fits : s.reserved.length ≤ s.released + size
  order : s.drained <+: s.reserved
  published : ∀ n, s.published n = true → n < s.reserved.length
  complete : ∀ n < s.drained.length, s.published n = true
  flags : ∀ n, s.released ≤ n → n < s.released + size →
    (s.ring.committed (slot 32 size n) = true ↔ s.published n = true ∧
      (s.drained.length ≤ n ∨ s.consumer.clearing = true ∧ n + 1 = s.drained.length))
  data : ∀ n x, s.published n = true → s.drained.length ≤ n → s.reserved[n]? = some x →
    s.ring.buf (slot 32 size n) = x
  producers : ∀ i, ProducerOk size s (s.producers i)
  distinct : Distinct s.producers
  consumer : ConsumerOk s s.consumer

section

variable {size : ℕ} {s t : System ι words}

theorem slot_inj (hsize : size = 0 ∨ size ∣ 2 ^ 32) (base : ℕ) {m n : ℕ} (hm : base ≤ m)
    (hm' : m < base + size) (hn : base ≤ n) (hn' : n < base + size)
    (h : slot 32 size m = slot 32 size n) : m = n := by
  rcases hsize with rfl | hdvd
  · omega
  · have hapart : Apart 32 size base size := apart_of_dvd hdvd le_rfl
    have hij := hapart (m - base) (by omega) (n - base) (by omega)
      (by rwa [Nat.add_sub_cancel' hm, Nat.add_sub_cancel' hn])
    omega

theorem slot_add_size (hdvd : size ∣ 2 ^ 32) (n : ℕ) :
    slot 32 size (n + size) = slot 32 size n := by
  rw [slot_of_dvd hdvd, slot_of_dvd hdvd, Nat.add_mod_right]

theorem slot_wrap_mod (n : ℕ) : wrap 32 n % size = slot 32 size n := rfl

theorem ProducerOk.mono {p : Producer words} (h : ProducerOk size s p)
    (hres : s.reserved <+: t.reserved) (hrel : s.released ≤ t.released)
    (hfill : ∀ x w c j, p = .fill x w c j → t.published c = s.published c ∧
      t.ring.buf (slot 32 size c) = s.ring.buf (slot 32 size c)) : ProducerOk size t p := by
  have hlen := hres.length_le
  cases p with
  | loadRead x w seen => exact ⟨h.1, h.2.trans hlen⟩
  | cas x w seen =>
    obtain ⟨hw, hle, hroom⟩ := h
    refine ⟨hw, hle.trans hlen, fun heq => ?_⟩
    have := hroom (by omega)
    omega
  | fill x w c j =>
    obtain ⟨hw, hx, hpub, hdone⟩ := h
    obtain ⟨hpub', hbuf⟩ := hfill x w c j rfl
    obtain ⟨rest, hrest⟩ := hres
    refine ⟨hw, ?_, hpub'.trans hpub, fun k hk => ?_⟩
    · rw [← hrest, List.getElem?_append_left (List.getElem?_eq_some_iff.mp hx).1, hx]
    · rw [hbuf]
      exact hdone k hk
  | _ => trivial

variable {c : Consumer words} {w j max r copied : ℕ}

theorem ConsumerOk.mono (h : ConsumerOk s c) (hd : t.drained = s.drained)
    (hrel : t.released = s.released) (hres : s.reserved <+: t.reserved)
    (hpub : ∀ n, s.published n = true → t.published n = true) : ConsumerOk t c := by
  have hlen := hres.length_le
  cases c with
  | loop max r w copied =>
    obtain ⟨hr, e, hw, he, he'⟩ := h
    exact ⟨hd ▸ hr, e, hw, hd ▸ he, he'.trans hlen⟩
  | copy max r w copied j out =>
    obtain ⟨hr, ⟨e, hw, he, he'⟩, hp, x, hx, hout⟩ := h
    obtain ⟨rest, hrest⟩ := hres
    refine ⟨hd ▸ hr, ⟨e, hw, hd ▸ he, he'.trans hlen⟩, hd ▸ hpub _ hp, x, ?_, hout⟩
    rw [hd, ← hrest, List.getElem?_append_left (List.getElem?_eq_some_iff.mp hx).1, hx]
  | clear max r w copied =>
    obtain ⟨d, hlast, hle, hr, e, hw, he, he'⟩ := h
    exact ⟨d, hd ▸ hlast, hrel ▸ hle, hr, e, hw, hd ▸ he, he'.trans hlen⟩
  | _ => simpa only [ConsumerOk, hd, hrel] using h

theorem RingInv.fill_window (h : RingInv size s) {i : ι} {x : Words words} {c : ℕ}
    (hp : s.producers i = .fill x w c j) : s.drained.length ≤ c ∧ c < s.reserved.length := by
  have hok := h.producers i
  rw [hp] at hok
  obtain ⟨-, hres, hpub, -⟩ := hok
  constructor
  · by_contra hlt
    have := h.complete c (by omega)
    simp [hpub] at this
  · exact (List.getElem?_eq_some_iff.mp hres).1

theorem RingInv.sound (hsize : size = 0 ∨ size ∣ 2 ^ 32) (h : RingInv size s) :
    RingSound size s := by
  refine ⟨h.order, h.complete, ?_⟩
  intro i x w c j hp n hpub hn heq
  have hok := h.producers i
  rw [hp] at hok
  obtain ⟨hw, -, hnot, -⟩ := hok
  obtain ⟨hc, hc'⟩ := h.fill_window hp
  have hn' := h.published n hpub
  have hrel := h.released
  have hfits := h.fits
  rw [hw, slot_wrap_mod] at heq
  obtain rfl := slot_inj hsize s.released (by omega) (by omega) (by omega) (by omega) heq
  simp [hpub] at hnot

section

variable (h : RingInv size s) {i : ι} {x : Words words} {w c j : ℕ}
  (hp : s.producers i = .fill x w c j)

include h hp

theorem RingInv.fill_slot_ne (hsize : size = 0 ∨ size ∣ 2 ^ 32) {n : ℕ} (hn : s.released ≤ n)
    (hn' : n < s.released + size)
    (hne : n ≠ c) : slot 32 size n ≠ w % size := by
  have hok := h.producers i
  rw [hp] at hok
  obtain ⟨hc, hc'⟩ := h.fill_window hp
  have hrel := h.released
  have hfits := h.fits
  rw [hok.1, slot_wrap_mod]
  intro heq
  exact hne (slot_inj hsize s.released hn hn' (by omega) (by omega) heq)

theorem RingInv.fill_ne {i' : ι} (hi : i' ≠ i) {y : Words words} {w' c' j' : ℕ}
    (hp' : s.producers i' = .fill y w' c' j') : c' ≠ c := by
  rintro rfl
  exact hi (h.distinct i' i y w' c' j' x w j hp' hp)

theorem RingInv.fill_window_released : s.released ≤ c ∧ c < s.released + size := by
  obtain ⟨hc, hc'⟩ := h.fill_window hp
  have hrel := h.released
  have hfits := h.fits
  omega

end

section

variable [DecidableEq ι] {f : ι → Producer words} {i : ι} {p : Producer words}

theorem producersOk_update (ht : t.producers = update f i p) (hp : ProducerOk size t p)
    (hf : ∀ i', i' ≠ i → ProducerOk size t (f i')) (i' : ι) :
    ProducerOk size t (t.producers i') := by
  rw [ht]
  by_cases hi : i' = i
  · rwa [hi, update_self]
  · rw [update_of_ne hi]
    exact hf i' hi

theorem Distinct.update (h : Distinct f)
    (hp : ∀ x w c j, p = .fill x w c j → ∀ i' x' w' j', i' ≠ i → f i' ≠ .fill x' w' c j') :
    Distinct (update f i p) := by
  intro i₁ i₂ x w c j x' w' j' h₁ h₂
  rw [update_apply] at h₁ h₂
  split at h₁
  · split at h₂
    · rename_i e₁ e₂
      rw [e₁, e₂]
    · rename_i e₁ e₂
      exact absurd h₂ (hp x w c j h₁ i₂ x' w' j' e₂)
  · split at h₂
    · rename_i e₁ e₂
      exact absurd h₁ (hp x' w' c j' h₂ i₁ x w j e₁)
    · exact h i₁ i₂ x w c j x' w' j' h₁ h₂

theorem RingInv.setProducer (h : RingInv size s) (i : ι) (hok : ProducerOk size s p)
    (hfill : ∀ x w c j, p ≠ .fill x w c j) : RingInv size (s.setProducer i p) := by
  have hkeep : ∀ q, ProducerOk size s q → ProducerOk size (s.setProducer i p) q :=
    fun q hq => hq.mono List.prefix_rfl le_rfl fun _ _ _ _ _ => ⟨rfl, rfl⟩
  refine { h with producers := ?_, distinct := ?_ }
  · exact producersOk_update (t := s.setProducer i p) rfl (hkeep p hok)
      fun i' _ => hkeep _ (h.producers i')
  · apply h.distinct.update
    intro x w c j hp
    exact absurd hp (hfill x w c j)

theorem RingInv.reserve (h : RingInv size s) {x : Words words} {w seen : ℕ}
    (hp : s.producers i = .cas x w seen) (htimely : s.reserved.length < seen + 2 ^ 32)
    (hw : s.ring.write = w) :
    RingInv size { s with
      producers := update s.producers i (.fill x w s.reserved.length 0)
      ring := { s.ring with write := wrap 32 (w + 1) }
      reserved := s.reserved ++ [x] } := by
  have hok := h.producers i
  rw [hp] at hok
  obtain ⟨hseen, hle, hroom⟩ := hok
  have hsame : s.reserved.length = seen := eq_of_wrap_eq hle htimely (by rw [← h.write, hw, hseen])
  have hfresh : s.published s.reserved.length = false := by
    by_contra hpub
    have := h.published _ (by simpa using hpub)
    omega
  have hgrow : s.reserved <+: s.reserved ++ [x] := List.prefix_append _ _
  refine ⟨?_, h.read, h.released, ?_, h.order.trans hgrow, ?_, h.complete, h.flags, ?_, ?_, ?_,
    h.consumer.mono rfl rfl hgrow fun _ hn => hn⟩
  · simp [← hw, h.write, wrap_wrap_add]
  · have := hroom hsame.symm
    simp
    omega
  · intro n hn
    have := h.published n hn
    simp
    omega
  · intro n y hpub hn hy
    have hlt := h.published n hpub
    rw [List.getElem?_append_left hlt] at hy
    exact h.data n y hpub hn hy
  · apply producersOk_update rfl
    · refine ⟨hsame ▸ hseen, by simp, hfresh, fun k hk => absurd hk (Nat.not_lt_zero _)⟩
    · exact fun i' _ => (h.producers i').mono hgrow le_rfl fun _ _ _ _ _ => ⟨rfl, rfl⟩
  · apply h.distinct.update
    rintro y w' c j hfill i' x' w'' j' - hi'
    obtain ⟨-, -, rfl, -⟩ := Producer.fill.inj hfill
    have := (h.fill_window hi').2
    omega

section

variable (hsize : size = 0 ∨ size ∣ 2 ^ 32) (h : RingInv size s) {i : ι} {x : Words words}
  {w c j : ℕ} (hp : s.producers i = .fill x w c j)

include hsize h hp

theorem RingInv.fillWord (hj : j < words) : RingInv size { s with
      producers := update s.producers i (.fill x w c (j + 1))
      ring := { s.ring with
        buf := update s.ring.buf (w % size)
          (update (s.ring.buf (w % size)) ⟨j, hj⟩ (x ⟨j, hj⟩)) } } := by
  have hok := h.producers i
  rw [hp] at hok
  obtain ⟨hw, hres, hpub, hdone⟩ := hok
  have hslot : w % size = slot 32 size c := by rw [hw, slot_wrap_mod]
  refine { h with data := ?_, producers := ?_, distinct := ?_ }
  · intro n y hn hd hy
    have hlt := h.published n hn
    have hd' : s.drained.length ≤ n := hd
    have hrel := h.released
    have hfits := h.fits
    have hne : n ≠ c := by
      rintro rfl
      exact absurd (hpub.symm.trans hn) (by simp)
    show (update s.ring.buf (w % size) _ : ℕ → Words words) (slot 32 size n) = y
    rw [update_of_ne (h.fill_slot_ne hp hsize (by omega) (by omega) hne)]
    exact h.data n y hn hd hy
  · apply producersOk_update rfl
    · refine ⟨hw, hres, hpub, ?_⟩
      intro k hk
      show (update s.ring.buf (w % size) _ : ℕ → Words words) (slot 32 size c) k = x k
      rw [hslot, update_self]
      by_cases hkj : k = ⟨j, hj⟩
      · rw [hkj, update_self]
      · rw [update_of_ne hkj]
        have hne : k.val ≠ j := fun heq => hkj (Fin.ext heq)
        exact hdone k (by omega)
    · intro i' hi
      refine (h.producers i').mono List.prefix_rfl le_rfl fun y w' c' j' hp' => ⟨rfl, ?_⟩
      obtain ⟨hlo, hhi⟩ := h.fill_window_released hp'
      exact update_of_ne (h.fill_slot_ne hp hsize hlo hhi (h.fill_ne hp hi hp')) _ _
  · apply h.distinct.update
    rintro y w' c' j' hfill i' x' w'' j'' hi hi'
    obtain ⟨-, -, rfl, -⟩ := Producer.fill.inj hfill
    exact h.fill_ne hp hi hi' rfl

theorem RingInv.publish (hj : ¬j < words) : RingInv size { s with
      producers := update s.producers i .idle
      ring := { s.ring with committed := update s.ring.committed (w % size) true }
      published := update s.published c true } := by
  have hok := h.producers i
  rw [hp] at hok
  obtain ⟨hw, hres, hpub, hdone⟩ := hok
  obtain ⟨hc, hc'⟩ := h.fill_window hp
  have hslot : w % size = slot 32 size c := by rw [hw, slot_wrap_mod]
  have hkeep : ∀ n, s.published n = true → update s.published c true n = true := by
    intro n hn
    by_cases hnc : n = c
    · rw [hnc, update_self]
    · rwa [update_of_ne hnc]
  refine { h with
    published := ?_, complete := fun n hn => hkeep n (h.complete n hn), flags := ?_, data := ?_,
    producers := ?_, distinct := ?_, consumer := h.consumer.mono rfl rfl List.prefix_rfl hkeep }
  · intro n hn
    by_cases hnc : n = c
    · rwa [hnc]
    · exact h.published n (by simpa [update_of_ne hnc] using hn)
  · intro n hn hn'
    show (update s.ring.committed (w % size) true : ℕ → Bool) (slot 32 size n) = true ↔
      (update s.published c true : ℕ → Bool) n = true ∧ _
    by_cases hnc : n = c
    · rw [hnc, hslot, update_self, update_self]
      exact iff_of_true rfl ⟨rfl, Or.inl hc⟩
    · rw [update_of_ne (h.fill_slot_ne hp hsize hn hn' hnc), update_of_ne hnc]
      exact h.flags n hn hn'
  · intro n y hn hd hy
    by_cases hnc : n = c
    · subst hnc
      obtain rfl : x = y := Option.some.inj (hres.symm.trans hy)
      funext k
      exact hdone k (by omega)
    · exact h.data n y (by simpa [update_of_ne hnc] using hn) hd hy
  · refine producersOk_update rfl ?_ ?_
    · trivial
    · intro i' hi
      refine (h.producers i').mono List.prefix_rfl le_rfl fun y w' c' j' hp' => ⟨?_, rfl⟩
      exact update_of_ne (h.fill_ne hp hi hp') _ _
  · apply h.distinct.update
    intro y w' c' j' hfill
    cases hfill

end

theorem producerStep_inv (hsize : size = 0 ∨ size ∣ 2 ^ 32) (hlt : size < 2 ^ 32)
    (h : RingInv size s) (htimely : Timely s (.producer i))
    (hstep : producerStep size s i = some t) : RingInv size t := by
  have hok := h.producers i
  have hrel := h.released
  have hfits := h.fits
  have hlen := h.order.length_le
  simp only [producerStep] at hstep
  split at hstep
  · cases hstep
  · cases hstep
    exact h.setProducer i ⟨h.write, le_rfl⟩ (by simp)
  · next x w seen hp =>
    rw [hp] at hok
    split at hstep
    · cases hstep
      exact h.setProducer i trivial (by simp)
    · next hfree =>
      cases hstep
      refine h.setProducer i ⟨hok.1, hok.2, ?_⟩ (by simp)
      intro heq
      have hdist : sub 32 w s.ring.read = s.reserved.length - s.released := by
        have hgap := sub_wrap_wrap (w := 32) (a := s.released)
          (n := s.reserved.length - s.released) (by omega)
        rwa [Nat.add_sub_cancel' (by omega), ← heq, ← hok.1, ← h.read, heq] at hgap
      omega
  · cases hstep
    exact { h.setProducer i (p := .idle) trivial (by simp) with }
  · next x w seen hp =>
    split at hstep
    · next hw =>
      cases hstep
      exact h.reserve hp (by simpa [Timely, hp] using htimely) hw
    · cases hstep
  · next x w c j hp =>
    split at hstep
    · next hj =>
      cases hstep
      exact h.fillWord hsize hp hj
    · next hj =>
      cases hstep
      exact h.publish hsize hp hj

end

theorem RingInv.setConsumer (h : RingInv size s) (hok : ConsumerOk s c)
    (hclear : c.clearing = s.consumer.clearing) : RingInv size { s with consumer := c } := by
  refine { h with
    flags := fun n hn hn' => ?_, consumer := hok.mono rfl rfl List.prefix_rfl fun _ hn => hn,
    producers := fun i => (h.producers i).mono List.prefix_rfl le_rfl fun _ _ _ _ _ => ⟨rfl, rfl⟩ }
  show s.ring.committed _ = true ↔ s.published n = true ∧ (_ ∨ c.clearing = true ∧ _)
  rw [hclear]
  exact h.flags n hn hn'

theorem RingInv.drainSample (h : RingInv size s) {out : Words words}
    (hc : s.consumer = .copy max r w copied j out) (hj : ¬j < words) :
    RingInv size { s with
      consumer := .clear max r w (copied + 1)
      drained := s.drained ++ [out] } := by
  have hok := h.consumer
  rw [hc] at hok
  obtain ⟨hr, ⟨e, hw, he, he'⟩, hpub, x, hx, hout⟩ := hok
  have hrel := h.released
  have hsample : out = x := by
    funext k
    exact hout k (by omega)
  have hlen : (s.drained ++ [out]).length = s.drained.length + 1 := by simp
  refine ⟨h.write, h.read, ?_, h.fits, ?_, h.published, ?_, ?_, ?_, ?_, h.distinct, ?_⟩
  · show s.released ≤ (s.drained ++ [out]).length
    omega
  · obtain ⟨rest, hrest⟩ := h.order
    rw [← hrest, List.getElem?_append_right le_rfl, Nat.sub_self] at hx
    cases rest with
    | nil => simp at hx
    | cons y rest =>
      obtain rfl : y = x := by simpa using hx
      exact ⟨rest, by simp [← hrest, hsample]⟩
  · intro n hn
    have hn' : n < s.drained.length + 1 := hlen ▸ hn
    rcases Nat.lt_succ_iff_lt_or_eq.mp hn' with hlt | rfl
    · exact h.complete n hlt
    · exact hpub
  · intro n hn hn'
    have hflag := h.flags n hn hn'
    simp only [hc, Consumer.clearing, Bool.false_eq_true, false_and, or_false] at hflag
    show s.ring.committed _ = true ↔ s.published n = true ∧
      ((s.drained ++ [out]).length ≤ n ∨ true = true ∧ n + 1 = (s.drained ++ [out]).length)
    rw [hflag, hlen]
    refine and_congr_right fun _ => ?_
    simp only [true_and]
    omega
  · intro n y hn hd hy
    have hd' : s.drained.length + 1 ≤ n := hlen ▸ hd
    exact h.data n y hn (by omega) hy
  · exact fun i => (h.producers i).mono List.prefix_rfl le_rfl fun _ _ _ _ _ => ⟨rfl, rfl⟩
  · exact ⟨s.drained.length, hlen, hrel, hr, e, hw, by simp; omega, he'⟩

theorem RingInv.clearFlag (hsize : size = 0 ∨ size ∣ 2 ^ 32) (h : RingInv size s)
    (hc : s.consumer = .clear max r w copied) :
    RingInv size { s with
      ring := { s.ring with committed := update s.ring.committed (r % size) false }
      consumer := .loop max (wrap 32 (r + 1)) w copied } := by
  have hok := h.consumer
  rw [hc] at hok
  obtain ⟨d, hd, hrel, hr, e, hw, he, he'⟩ := hok
  have hfits := h.fits
  refine ⟨h.write, h.read, h.released, h.fits, h.order, h.published, h.complete, ?_, h.data, ?_,
    h.distinct, ?_⟩
  · intro n hn hn'
    have hflag := h.flags n hn hn'
    simp only [hc, Consumer.clearing, true_and] at hflag
    show (update s.ring.committed (r % size) false : ℕ → Bool) (slot 32 size n) = true ↔
      s.published n = true ∧ (s.drained.length ≤ n ∨ false = true ∧ n + 1 = s.drained.length)
    rw [hr, slot_wrap_mod]
    simp only [Bool.false_eq_true, false_and, or_false]
    by_cases hnd : n = d
    · rw [hnd, update_self]
      simp
      omega
    · have hne : slot 32 size n ≠ slot 32 size d := fun heq =>
        hnd (slot_inj hsize s.released hn hn' hrel (by omega) heq)
      rw [update_of_ne hne, hflag]
      refine and_congr_right fun _ => ?_
      omega
  · exact fun i => (h.producers i).mono List.prefix_rfl le_rfl fun _ _ _ _ _ => ⟨rfl, rfl⟩
  · exact ⟨by rw [hr, wrap_wrap_add, hd], e, hw, he, he'⟩

theorem RingInv.storeRead (hsize : size = 0 ∨ size ∣ 2 ^ 32) (h : RingInv size s)
    (hc : s.consumer = .store r) :
    RingInv size { s with
      ring := { s.ring with read := r }
      consumer := .idle
      released := s.drained.length } := by
  have hok := h.consumer
  rw [hc] at hok
  have hrel := h.released
  have hfits := h.fits
  have hdrained := h.order.length_le
  refine ⟨h.write, hok, le_rfl, ?_, h.order, h.published, h.complete, ?_, h.data, ?_, h.distinct,
    rfl⟩
  · show s.reserved.length ≤ s.drained.length + size
    omega
  · intro n hn hn'
    have hn₁ : s.drained.length ≤ n := hn
    have hn₂ : n < s.drained.length + size := hn'
    show s.ring.committed (slot 32 size n) = true ↔ s.published n = true ∧
      (s.drained.length ≤ n ∨ false = true ∧ n + 1 = s.drained.length)
    have hclear : s.consumer.clearing = false := by rw [hc]; rfl
    by_cases hold : n < s.released + size
    · have hflag := h.flags n (by omega) hold
      simpa [hclear] using hflag
    · -- the slot of a drained sample, whose flag was cleared; its next reservation is to come
      have hdvd : size ∣ 2 ^ 32 := by
        rcases hsize with rfl | hdvd
        · omega
        · exact hdvd
      have hslot : slot 32 size n = slot 32 size (n - size) := by
        rw [← slot_add_size hdvd (n - size), Nat.sub_add_cancel (by omega)]
      have hflag := h.flags (n - size) (by omega) (by omega)
      have hnone : s.published n = false := by
        by_contra hpub
        have := h.published n (by simpa using hpub)
        omega
      rw [hslot, hflag, hclear, hnone]
      simp
      omega
  · exact fun i => (h.producers i).mono List.prefix_rfl hrel fun _ _ _ _ _ => ⟨rfl, rfl⟩

theorem consumerStep_inv (hsize : size = 0 ∨ size ∣ 2 ^ 32)
    (h : RingInv size s) (hstep : consumerStep size s = some t) : RingInv size t := by
  have hok := h.consumer
  have hlen := h.order.length_le
  simp only [consumerStep] at hstep
  split at hstep
  · cases hstep
  · next max hc =>
    cases hstep
    rw [hc] at hok
    have hread : s.ring.read = wrap 32 s.drained.length := by rw [h.read, hok]
    exact h.setConsumer ⟨hok, hread⟩ (by simp [hc, Consumer.clearing])
  · next max r hc =>
    cases hstep
    rw [hc] at hok
    exact h.setConsumer ⟨hok.2, s.reserved.length, h.write, hlen, le_rfl⟩
      (by simp [hc, Consumer.clearing])
  · next max r w copied hc =>
    rw [hc] at hok
    obtain ⟨hr, e, hw, he, he'⟩ := hok
    have hstop : RingInv size { s with consumer := .store r } :=
      h.setConsumer hr (by simp [hc, Consumer.clearing])
    split at hstep
    · next hmore =>
      split at hstep
      · next hflag =>
        cases hstep
        have hne : s.drained.length ≠ e := by
          rintro rfl
          exact hmore.1 (hr.trans hw.symm)
        have hrel := h.released
        have hfits := h.fits
        rw [hr, slot_wrap_mod] at hflag
        have hpub := ((h.flags s.drained.length hrel (by omega)).mp hflag).1
        obtain ⟨x, hx⟩ : ∃ x, s.reserved[s.drained.length]? = some x :=
          ⟨_, List.getElem?_eq_getElem (by omega)⟩
        refine h.setConsumer ⟨hr, ⟨e, hw, by omega, he'⟩, hpub, x, hx, ?_⟩
          (by simp [hc, Consumer.clearing])
        intro k hk
        exact absurd hk (Nat.not_lt_zero _)
      · cases hstep
        exact hstop
    · cases hstep
      exact hstop
  · next max r w copied j out hc =>
    split at hstep
    · next hj =>
      cases hstep
      rw [hc] at hok
      obtain ⟨hr, he, hpub, x, hx, hout⟩ := hok
      have hread := h.data _ x hpub le_rfl hx
      refine h.setConsumer ⟨hr, he, hpub, x, hx, ?_⟩ (by simp [hc, Consumer.clearing])
      intro k hk
      by_cases hkj : k = ⟨j, hj⟩
      · rw [hkj, update_self, hr, slot_wrap_mod, hread]
      · rw [update_of_ne hkj]
        have hne : k.val ≠ j := fun heq => hkj (Fin.ext heq)
        exact hout k (by omega)
    · next hj =>
      cases hstep
      exact h.drainSample hc hj
  · next max r w copied hc =>
    cases hstep
    exact h.clearFlag hsize hc
  · next r hc =>
    cases hstep
    exact h.storeRead hsize hc

theorem start_inv (size : ℕ) : RingInv size (System.start : System ι words) := by
  refine ⟨rfl, rfl, le_rfl, Nat.zero_le _, List.prefix_rfl, ?_, ?_, ?_, ?_, ?_, ?_, rfl⟩
  · intro n hn
    cases hn
  · intro n hn
    exact absurd hn (Nat.not_lt_zero _)
  · intro n _ _
    simp [System.start, ProfilerRing.init]
  · intro n x hn
    cases hn
  · intro i
    trivial
  · intro i i' x w c j x' w' j' hp
    cases hp

theorem ringStep_inv [DecidableEq ι] (hsize : size = 0 ∨ size ∣ 2 ^ 32) (hlt : size < 2 ^ 32)
    (h : RingInv size s) {a : RingAct ι words} (htimely : Timely s a)
    (hstep : ringStep size s a = some t) : RingInv size t := by
  cases a with
  | push i x =>
    simp only [ringStep] at hstep
    split at hstep
    · cases hstep
      exact h.setProducer i trivial (by simp)
    · cases hstep
  | producer i => exact producerStep_inv hsize hlt h htimely hstep
  | casFail i =>
    simp only [ringStep] at hstep
    split at hstep
    · cases hstep
      exact h.setProducer i trivial (by simp)
    · cases hstep
  | drain max =>
    simp only [ringStep] at hstep
    split at hstep
    · next hc =>
      cases hstep
      have hok := h.consumer
      rw [hc] at hok
      exact h.setConsumer hok (by simp [hc, Consumer.clearing])
    · cases hstep
  | consumer => exact consumerStep_inv hsize h hstep

end

/-- With fewer than `2 ^ 32` reservations between a producer's load and its compare-and-swap, a ring
whose size divides `2 ^ 32` drains complete samples in order. -/
theorem profiler_ring_sound [DecidableEq ι] (config : ℕ) (hdvd : config ∣ 2 ^ 32)
    (acts : List (RingAct ι words))
    (htimely : Each (ringStep (profilerRingSize config)) Timely System.start acts) :
    Always (ringStep (profilerRingSize config)) (RingSound (profilerRingSize config))
      System.start acts := by
  have hlt : profilerRingSize config < 2 ^ 32 := wrap_lt 32 config
  have hsize : profilerRingSize config = 0 ∨ profilerRingSize config ∣ 2 ^ 32 := by
    rcases (Nat.le_of_dvd (by decide) hdvd).lt_or_eq with h | rfl
    · exact .inr (by rwa [profilerRingSize, wrap_of_lt h])
    · exact .inl (Nat.mod_self _)
  have hrun := always_of_each (fun _ _ _ h ha hstep => ringStep_inv hsize hlt h ha hstep)
    (start_inv _) htimely
  exact hrun.mono fun _ h => h.sound hsize

def contention : List (RingAct Bool 1) :=
  [.push false fun _ => 7, .push true fun _ => 9, .producer false, .producer true,
    .producer false, .producer true, .producer false, .casFail true, .producer false,
    .producer false, .drain 1, .consumer, .consumer, .consumer, .consumer, .consumer, .consumer,
    .consumer, .consumer]

theorem profiler_ring_sound_four :
    Each (ringStep (profilerRingSize 4)) Timely System.start contention ∧
      Always (ringStep (profilerRingSize 4)) (RingSound (profilerRingSize 4)) System.start
        contention := by
  have hdvd : 4 ∣ 2 ^ 32 := ⟨2 ^ 30, rfl⟩
  have htimely : Each (ringStep (profilerRingSize 4)) Timely System.start contention := by
    refine .cons rfl trivial (.cons rfl trivial ?_)
    refine .cons rfl trivial (.cons rfl trivial (.cons rfl trivial (.cons rfl trivial ?_)))
    -- the compare-and-swap of the first producer is the one timely step
    refine .cons rfl (Nat.two_pow_pos 32) (.cons rfl trivial ?_)
    refine .cons rfl trivial (.cons rfl trivial (.cons rfl trivial ?_))
    refine .cons rfl trivial (.cons rfl trivial (.cons rfl trivial (.cons rfl trivial ?_)))
    exact .cons rfl trivial (.cons rfl trivial (.cons rfl trivial (.cons rfl trivial trivial)))
  exact ⟨htimely, profiler_ring_sound 4 hdvd contention htimely⟩

end Overtos.Rings
