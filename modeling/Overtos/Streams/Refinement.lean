import Overtos.Streams.Rings

/-! The three byte rings against one bounded queue. -/
namespace Overtos.Streams
open Word Circular Function List

variable {arch : Arch} {s : Stream} {q : List UInt8}

namespace Carries

theorem length_le (h : Carries s q) : s.count ≤ s.size := h.count ▸ h.fits

theorem size_pos (h : Carries s q) : 0 < s.size := (Nat.zero_le _).trans_lt h.tail

theorem init (buffer : ℕ → UInt8) {size : ℕ} (hsize : 0 < size) (trigger : ℕ) :
    Carries (oveStreamInit buffer size trigger) [] :=
  ⟨hsize, by simp [oveStreamInit], rfl, Nat.zero_le _, holds_nil⟩

theorem reset (h : Carries s q) : Carries (oveStreamReset s) [] :=
  ⟨h.size_pos, by simp [oveStreamReset], rfl, Nat.zero_le _, holds_nil⟩

theorem store (h : Carries s q) (xs : List UInt8) (hroom : q.length + xs.length ≤ s.size) :
    Carries { s with
      buffer := putWrapped s.buffer s.size s.head xs
      head := (s.head + xs.length) % s.size
      count := s.count + xs.length } (q ++ xs) := by
  have hholds := h.holds.append hroom h.size_pos
  refine ⟨h.tail, ?_, ?_, ?_, ?_⟩
  · simp [h.head, Nat.add_assoc]
  · simp [h.count]
  · simpa using hroom
  · rwa [← h.count, ← h.head] at hholds

theorem unload (h : Carries s q) {n : ℕ} (hn : n ≤ q.length) :
    Carries { s with tail := (s.tail + n) % s.size, count := s.count - n } (q.drop n) := by
  have hfits := h.fits
  refine ⟨Nat.mod_lt _ h.size_pos, ?_, ?_, ?_, h.holds.drop n⟩
  · simp only [h.head, h.count, Nat.mod_add_mod]
    congr 1
    omega
  · simp [h.count]
  · simp only [length_drop]
    omega

end Carries

structure Sent (s : Stream) (q src : List UInt8) (o : Stream × ℕ) : Prop where
  carries : Carries o.1 (q ++ src.take (s.size - q.length))
  stored : o.2 = min src.length (s.size - q.length)
  size : o.1.size = s.size
  trigger : o.1.trigger = s.trigger

structure Received (s : Stream) (q : List UInt8) (len : ℕ) (o : Stream × List UInt8) : Prop where
  carries : Carries o.1 (q.drop len)
  items : o.2 = q.take len
  size : o.1.size = s.size
  trigger : o.1.trigger = s.trigger

theorem ringWrite_sent (h : Carries s q) (hsize : s.size ≤ 2 ^ (arch.bits - 1))
    (src : List UInt8) : Sent s q src (ringWrite arch s src) := by
  have hfits := h.fits
  have hcount := h.count
  have hchunk : (if src.length < s.size - s.count then src.length else s.size - s.count) =
      min src.length (s.size - q.length) := by
    split <;> omega
  have hhead : s.head < s.size := h.head ▸ Nat.mod_lt _ h.size_pos
  have hbits := arch.two_pow_half
  have hwrap : wrap arch.bits (s.head + min src.length (s.size - q.length)) =
      s.head + min src.length (s.size - q.length) := wrap_of_lt (by omega)
  have htake : src.take (min src.length (s.size - q.length)) = src.take (s.size - q.length) := by
    rw [take_eq_take_iff]
    omega
  have hstore := h.store (src.take (s.size - q.length)) (by simp; omega)
  have hlen : (src.take (s.size - q.length)).length = min src.length (s.size - q.length) := by
    rw [length_take, Nat.min_comm]
  rw [hlen] at hstore
  simp only [ringWrite, hchunk, hwrap, htake]
  exact ⟨hstore, rfl, rfl, rfl⟩

theorem ringRead_received (h : Carries s q) (hsize : s.size ≤ 2 ^ (arch.bits - 1)) (len : ℕ) :
    Received s q len (ringRead arch s len) := by
  have hfits := h.fits
  have hcount := h.count
  have htail := h.tail
  have hchunk : (if len < s.count then len else s.count) = min len q.length := by
    split <;> omega
  have hbits := arch.two_pow_half
  have hwrap : wrap arch.bits (s.tail + min len q.length) = s.tail + min len q.length :=
    wrap_of_lt (by omega)
  have hdrop : q.drop (min len q.length) = q.drop len := by
    rcases Nat.le_total len q.length with hle | hge
    · rw [Nat.min_eq_left hle]
    · rw [Nat.min_eq_right hge, drop_length, drop_eq_nil_of_le hge]
  have htake : q.take (min len q.length) = q.take len := by
    rw [take_eq_take_iff]
    omega
  have hget := h.holds.getWrapped htail hfits (n := min len q.length) (by omega)
  have hun := h.unload (n := min len q.length) (by omega)
  simp only [ringRead, hchunk, hwrap]
  rw [hdrop] at hun
  exact ⟨hun, hget.trans htake, rfl, rfl⟩

structure Sane (arch : Arch) (s : Stream) : Prop where
  head : s.head < s.size
  tail : s.tail < s.size
  count : s.count ≤ s.size
  size : s.size < 2 ^ arch.bits

theorem getWrapped_length (buf : ℕ → UInt8) (size pos n : ℕ) :
    (getWrapped buf size pos n).length = n := by
  simp only [getWrapped]
  split
  · simp [Circular.get]
    omega
  · simp [Circular.get]

variable {src : List UInt8} {len gate head tail count n : ℕ} {b : Backend}

theorem ringWrite_none (h : Sane arch s) (hnone : ¬(0 < src.length ∧ s.count < s.size)) :
    ringWrite arch s src = (s, 0) := by
  have hcount := h.count
  have hhead := h.head
  have hsize := h.size
  have hchunk : (if src.length < s.size - s.count then src.length else s.size - s.count) = 0 := by
    split <;> omega
  have hput : putWrapped s.buffer s.size s.head [] = s.buffer := by
    funext i
    simp [putWrapped, put]
  simp [ringWrite, hchunk, hput, wrap_of_lt (hhead.trans hsize), Nat.mod_eq_of_lt hhead]

theorem ringRead_none (h : Sane arch s) (hnone : ¬(0 < len ∧ 0 < s.count)) :
    ringRead arch s len = (s, []) := by
  have htail := h.tail
  have hsize := h.size
  have hchunk : (if len < s.count then len else s.count) = 0 := by
    split <;> omega
  have hget : getWrapped s.buffer s.size s.tail 0 = [] :=
    length_eq_zero_iff.mp (getWrapped_length _ _ _ 0)
  simp [ringRead, hchunk, hget, wrap_of_lt (htail.trans hsize), Nat.mod_eq_of_lt htail]

theorem ringWrite_sane (h : Sane arch s) (src : List UInt8) :
    Sane arch (ringWrite arch s src).1 := by
  have hcount := h.count
  have hpos : 0 < s.size := (Nat.zero_le _).trans_lt h.tail
  refine ⟨Nat.mod_lt _ hpos, h.tail, ?_, h.size⟩
  show s.count + (if src.length < s.size - s.count then src.length else s.size - s.count) ≤ s.size
  split <;> omega

theorem ringRead_sane (h : Sane arch s) (len : ℕ) : Sane arch (ringRead arch s len).1 := by
  have hcount := h.count
  have hpos : 0 < s.size := (Nat.zero_le _).trans_lt h.tail
  refine ⟨h.head, Nat.mod_lt _ hpos, ?_, h.size⟩
  show s.count - _ ≤ s.size
  omega

theorem nuttxSend_eq (h : Sane arch s) (fuel : ℕ) (src : List UInt8) :
    nuttxSend arch (fuel + 1) s src = ringWrite arch s src := by
  have hcount := h.count
  by_cases hgo : 0 < src.length ∧ s.count < s.size
  · have hdone : ¬(0 < (src.drop (ringWrite arch s src).2).length ∧
        (ringWrite arch s src).1.count < (ringWrite arch s src).1.size) := by
      simp only [ringWrite, length_drop]
      split <;> omega
    have hrest : nuttxSend arch fuel (ringWrite arch s src).1
        (src.drop (ringWrite arch s src).2) = ((ringWrite arch s src).1, 0) := by
      cases fuel with
      | zero => rfl
      | succ fuel => rw [nuttxSend, if_neg hdone]
    simp [nuttxSend, hgo, hrest]
  · rw [ringWrite_none h hgo]
    simp [nuttxSend, hgo]

theorem nuttxReceive_eq (fuel minAvail len : ℕ) : nuttxReceive arch (fuel + 1) s minAvail len =
      if 0 < len ∧ minAvail ≤ s.count then ringRead arch s len else (s, []) := by
  by_cases hgo : 0 < len ∧ minAvail ≤ s.count
  · have hdone : ¬(0 < len - (ringRead arch s len).2.length ∧
        1 ≤ (ringRead arch s len).1.count) := by
      simp only [ringRead, getWrapped_length]
      split <;> omega
    have hrest : nuttxReceive arch fuel (ringRead arch s len).1 1
        (len - (ringRead arch s len).2.length) = ((ringRead arch s len).1, []) := by
      cases fuel with
      | zero => rfl
      | succ fuel => rw [nuttxReceive, if_neg hdone]
    simp [nuttxReceive, hgo, hrest]
  · simp [nuttxReceive, hgo]

theorem freertosSend_eq (h : Sane arch s) (data : List UInt8) : freertosStep arch s (.send data) =
      ((ringWrite arch s data).1, .stored (ringWrite arch s data).2) := by
  simp only [freertosStep]
  split
  · rfl
  · rename_i hno
    rw [ringWrite_none h hno]

theorem freertosStep_sane (h : Sane arch s) (c : Call) : Sane arch (freertosStep arch s c).1 := by
  have hpos : 0 < s.size := (Nat.zero_le _).trans_lt h.tail
  cases c with
  | send data =>
    rw [freertosSend_eq h]
    exact ringWrite_sane h data
  | receive len =>
    simp only [freertosStep]
    split
    · exact ringRead_sane h len
    · exact h
  | sendFromIsr data => exact ringWrite_sane h data
  | receiveFromIsr len => exact ringRead_sane h len
  | reset => exact ⟨hpos, hpos, Nat.zero_le _, h.size⟩

theorem nuttxStep_eq (h : Sane arch s) (c : Call) : nuttxStep arch s c = freertosStep arch s c := by
  cases c with
  | send data => rw [freertosSend_eq h, nuttxStep, nuttxSend_eq h]
  | receive len =>
    simp only [nuttxStep, freertosStep, nuttxReceive_eq]
    by_cases ht : s.trigger ≤ s.count
    · by_cases hlen : 0 < len
      · simp [ht, hlen]
      · rw [ringRead_none h fun hgo => hlen hgo.1]
        simp [ht, hlen]
    · simp [ht]
  | sendFromIsr data => simp only [nuttxStep, freertosStep, nuttxSend_eq h]
  | receiveFromIsr len =>
    simp only [nuttxStep, freertosStep, nuttxReceive_eq]
    by_cases hgo : 0 < len ∧ 1 ≤ s.count
    · rw [if_pos hgo]
    · rw [if_neg hgo, ringRead_none h hgo]
  | reset => rfl

theorem posixSend_sent (h : Carries s q) (src : List UInt8) :
    Sent s q src ((posixSend s src).1, (posixSend s src).2.1) := by
  induction src generalizing s q with
  | nil => exact ⟨by simpa [posixSend] using h, by simp [posixSend], rfl, rfl⟩
  | cons b src ih =>
    have hcount := h.count
    have hfits := h.fits
    by_cases hfull : s.size ≤ s.count
    · have hzero : s.size - q.length = 0 := by omega
      simp only [posixSend, hfull, if_true]
      exact ⟨by simpa [hzero] using h, by simp [hzero], rfl, rfl⟩
    · have hhead : s.head < s.size := h.head ▸ Nat.mod_lt _ h.size_pos
      have hnext := h.store [b] (by simp; omega)
      rw [putWrapped_singleton hhead, length_singleton] at hnext
      obtain ⟨hc, hst, hsz, htr⟩ := ih hnext
      simp only [posixSend, hfull, if_false]
      have hroom : s.size - q.length = s.size - (q ++ [b]).length + 1 := by simp; omega
      refine ⟨?_, ?_, hsz, htr⟩
      · rw [hroom, take_succ_cons]
        simpa using hc
      · dsimp only at hst ⊢
        rw [hroom, hst, length_cons, Nat.add_min_add_right]

theorem posixDrain_received (h : Carries s q) (len : ℕ) : Received s q len (posixDrain len s) := by
  induction len generalizing s q with
  | zero => exact ⟨by simpa [posixDrain] using h, by simp [posixDrain], rfl, rfl⟩
  | succ len ih =>
    cases q with
    | nil =>
      have hzero : ¬0 < s.count := by simp [h.count]
      simp only [posixDrain, hzero, if_false]
      exact ⟨by simpa using h, by simp, rfl, rfl⟩
    | cons b q =>
      have hsome : 0 < s.count := by simp [h.count]
      have hbyte : s.buffer s.tail = b := by
        have := h.holds 0 b rfl
        rwa [Nat.add_zero, Nat.mod_eq_of_lt h.tail] at this
      obtain ⟨hc, hit, hsz, htr⟩ := ih (h.unload (n := 1) (by simp))
      simp only [posixDrain, hsome, if_true, hbyte]
      exact ⟨by simpa using hc, by simpa using hit, hsz, htr⟩

theorem posixReceive_received (h : Carries s q) (len : ℕ) (hgate : ¬q.length < s.trigger) :
    Received s q len (posixReceive s len) := by
  have hcount := h.count
  by_cases hlen : len = 0
  · subst hlen
    simp only [posixReceive, if_true]
    exact ⟨by simpa using h, by simp, rfl, rfl⟩
  · simp only [posixReceive, hlen, hcount, hgate, if_false]
    exact posixDrain_received h len

def Shows (size trigger : ℕ) (s : Stream) (q : List UInt8) : Prop :=
  Carries s q ∧ s.size = size ∧ s.trigger = trigger

variable {size trigger : ℕ}

def Matches (size trigger : ℕ) (q : List UInt8) (op : Fifo.Op UInt8)
    (o : Stream × Fifo.Out UInt8) : Prop :=
  Shows size trigger o.1 (Fifo.step size q op).1 ∧ o.2 = (Fifo.step size q op).2

theorem Carries.sane (h : Carries s q) (hsize : s.size < 2 ^ arch.bits) : Sane arch s :=
  ⟨h.head ▸ Nat.mod_lt _ h.size_pos, h.tail, h.length_le, hsize⟩

theorem Sent.matches (h : Shows size trigger s q) {o : Stream × ℕ} (ho : Sent s q src o) :
    Matches size trigger q (.put src) (o.1, .stored o.2) := by
  obtain ⟨hc, rfl, rfl⟩ := h
  exact ⟨⟨ho.carries, ho.size, ho.trigger⟩, by simp [Fifo.step, ho.stored]⟩

theorem Received.matches (h : Shows size trigger s q) {o : Stream × List UInt8}
    (hgate : ¬q.length < gate) (ho : Received s q len o) :
    Matches size trigger q (.take gate len) (o.1, .items o.2) := by
  obtain ⟨hc, rfl, rfl⟩ := h
  simp only [Matches, Fifo.step, hgate, if_false]
  exact ⟨⟨ho.carries, ho.size, ho.trigger⟩, by rw [ho.items]⟩

theorem matches_closed (h : Shows size trigger s q) (hgate : q.length < gate) :
    Matches size trigger q (.take gate len) (s, .items []) := by
  simp only [Matches, Fifo.step, hgate, if_true]
  exact ⟨h, trivial⟩

theorem matches_reset (h : Shows size trigger s q) :
    Matches size trigger q .reset (oveStreamReset s, .stored 0) :=
  ⟨⟨h.1.reset, h.2.1, h.2.2⟩, rfl⟩

theorem freertosStep_matches (h : Shows size trigger s q) (hsize : size ≤ 2 ^ (arch.bits - 1))
    (c : Call) : Matches size trigger q (c.toFifo .freertos trigger) (freertosStep arch s c) := by
  have hs : s.size ≤ 2 ^ (arch.bits - 1) := h.2.1.le.trans hsize
  have hcount := h.1.count
  have htrigger := h.2.2
  cases c with
  | send data =>
    have hlt : s.size < 2 ^ arch.bits := by
      have := arch.two_pow_half
      have := Nat.two_pow_pos (arch.bits - 1)
      omega
    rw [freertosSend_eq (h.1.sane hlt)]
    exact (ringWrite_sent h.1 hs data).matches h
  | receive len =>
    by_cases ht : s.trigger ≤ s.count
    · simp only [freertosStep, ht, if_true]
      exact (ringRead_received h.1 hs len).matches h (by omega)
    · simp only [freertosStep, ht, if_false]
      exact matches_closed h (by omega)
  | sendFromIsr data => exact (ringWrite_sent h.1 hs data).matches h
  | receiveFromIsr len => exact (ringRead_received h.1 hs len).matches h (by simp)
  | reset => exact matches_reset h

theorem posixStep_matches (h : Shows size trigger s q) (c : Call) :
    Matches size trigger q (c.toFifo .posix trigger) (posixStep s c) := by
  have hcount := h.1.count
  have htrigger := h.2.2
  have hreceive : ∀ len, Matches size trigger q (.take trigger len)
      ((posixReceive s len).1, .items (posixReceive s len).2) := by
    intro len
    by_cases ht : q.length < s.trigger
    · have hnone : posixReceive s len = (s, []) := by simp [posixReceive, hcount, ht]
      rw [hnone]
      exact matches_closed h (by omega)
    · exact (posixReceive_received h.1 len ht).matches h (by omega)
  cases c with
  | send data => exact (posixSend_sent h.1 data).matches h
  | receive len => exact hreceive len
  | sendFromIsr data => exact (posixSend_sent h.1 data).matches h
  | receiveFromIsr len => exact hreceive len
  | reset => exact matches_reset h

/-- What a stream shows over a run of calls: the answers of the queue; the bytes returned since
the last reset are the first ones accepted since then; and what it holds is the difference. -/
structure StreamCorrect (arch : Arch) (b : Backend) (s : Stream) (calls : List Call) : Prop where
  answers : (Machine.run (streamStep arch b) s calls).2 =
    (Machine.run (Fifo.step s.size) [] (calls.map (Call.toFifo b s.trigger))).2
  inOrder : (Fifo.trace (Call.toFifo b s.trigger) (streamStep arch b) s calls).2.returned <+:
    (Fifo.trace (Call.toFifo b s.trigger) (streamStep arch b) s calls).2.accepted
  bounded : oveStreamBytesAvailable
    (Fifo.trace (Call.toFifo b s.trigger) (streamStep arch b) s calls).1 ≤ s.size
  balance : (Fifo.trace (Call.toFifo b s.trigger) (streamStep arch b) s calls).2.returned.length +
    oveStreamBytesAvailable (Fifo.trace (Call.toFifo b s.trigger) (streamStep arch b) s calls).1 =
    (Fifo.trace (Call.toFifo b s.trigger) (streamStep arch b) s calls).2.accepted.length

theorem streamStep_matches (hfits : size < 2 ^ arch.bits)
    (hb : b = .posix ∨ size ≤ 2 ^ (arch.bits - 1)) (h : Shows size trigger s q) (c : Call) :
    Matches size trigger q (c.toFifo b trigger) (streamStep arch b s c) := by
  cases b with
  | freertos => exact freertosStep_matches h (by simpa using hb) c
  | nuttx =>
    have hsane : Sane arch s := h.1.sane (h.2.1 ▸ hfits)
    have hstep := freertosStep_matches h (by simpa using hb) c
    rw [streamStep, nuttxStep_eq hsane]
    cases c <;> exact hstep
  | posix => exact posixStep_matches h c

theorem map_toFifo_run {ι : Type} (φ : ι → Fifo.Op UInt8) (q : List UInt8) (is : List ι) :
    Machine.run (fun q i => Fifo.step size q (φ i)) q is =
      Machine.run (Fifo.step size) q (is.map φ) := by
  induction is generalizing q with
  | nil => rfl
  | cons i is ih => simp [ih]

theorem streamCorrect_of_matches (h : Carries s [])
    (hstep : ∀ s' q c, Shows s.size s.trigger s' q →
      Matches s.size s.trigger q (c.toFifo b s.trigger) (streamStep arch b s' c))
    (calls : List Call) : StreamCorrect arch b s calls := by
  have hstart : Shows s.size s.trigger s [] := ⟨h, rfl, rfl⟩
  obtain ⟨-, hout⟩ := Machine.run_simulates hstep hstart calls
  obtain ⟨q, ⟨hc, hsz, -⟩, hacc, hcap⟩ := Fifo.trace_simulates hstep hstart calls
  refine ⟨hout.trans (by rw [map_toFifo_run]), ⟨q, hacc.symm⟩, ?_, ?_⟩
  · rw [oveStreamBytesAvailable, hc.count]
    exact hcap
  · rw [hacc, length_append, oveStreamBytesAvailable, hc.count]

def overrunCalls (size : ℕ) : List Call :=
  [.send (replicate (size - 1) 0), .receive (size - 1), .send (replicate size 0),
    .receive 1, .send [1], .receive size]

theorem put_zeros (pos : ℕ) {xs : List UInt8} (hxs : ∀ x ∈ xs, x = 0) :
    put (fun _ => 0) pos xs = fun _ => 0 := by
  funext i
  simp only [put]
  split
  · cases hx : xs[i - pos]? with
    | none => rfl
    | some x => exact hxs x (mem_of_getElem? hx)
  · rfl

theorem send_zeros (hn : 0 < n) (hroom : count + n ≤ size) :
    freertosStep arch ⟨fun _ => 0, size, trigger, head, tail, count⟩
      (.send (replicate n 0)) =
      (⟨fun _ => 0, size, trigger, wrap arch.bits (head + n) % size, tail, count + n⟩,
        .stored n) := by
  have hgo : 0 < n ∧ count < size := ⟨hn, by omega⟩
  have hchunk : (if n < size - count then n else size - count) = n := by
    split <;> omega
  have hput : putWrapped (fun _ => (0 : UInt8)) size head (replicate n 0) = fun _ => 0 := by
    simp only [putWrapped]
    split
    · rw [put_zeros _ (by simp), put_zeros _ (by simp)]
    · rw [put_zeros _ (by simp)]
  simp [freertosStep, ringWrite, hgo, hchunk, hput]

theorem receive_zeros (ht : trigger ≤ count) (hn : n ≤ count) :
    freertosStep arch ⟨fun _ => 0, size, trigger, head, tail, count⟩ (.receive n) =
      (⟨fun _ => 0, size, trigger, head, wrap arch.bits (tail + n) % size, count - n⟩,
        .items (replicate n 0)) := by
  have hchunk : (if n < count then n else count) = n := by
    split <;> omega
  have hget : getWrapped (fun _ => (0 : UInt8)) size tail n = replicate n 0 := by
    simp only [getWrapped, Circular.get, map_const', length_range]
    split
    · rw [← replicate_add]
      congr 1
      omega
    · rfl
  simp [freertosStep, ringRead, ht, hchunk, hget]

theorem overrun_disordered (hfits : size < 2 ^ arch.bits) (hbig : 2 ^ (arch.bits - 1) < size) :
    let h := (Fifo.trace (Call.toFifo .freertos 1) (freertosStep arch)
      (oveStreamInit (fun _ => 0) size 1) (overrunCalls size)).2
    ¬h.returned <+: h.accepted := by
  have hbits := arch.two_pow_half
  have hpos := Nat.two_pow_pos (arch.bits - 1)
  -- where the second send leaves the head
  obtain ⟨d, hd⟩ : ∃ d, size - 1 + size = d + 2 ^ arch.bits :=
    ⟨size - 1 + size - 2 ^ arch.bits, by omega⟩
  have hlt : d < size - 1 := by omega
  have hwrap : wrap arch.bits (size - 1 + size) % size = d := by
    rw [hd, wrap, Nat.add_mod_right, Nat.mod_eq_of_lt (show d < 2 ^ arch.bits by omega),
      Nat.mod_eq_of_lt (by omega)]
  have hlast : wrap arch.bits (0 + (size - 1)) % size = size - 1 := by
    rw [Nat.zero_add, wrap_of_lt (by omega), Nat.mod_eq_of_lt (by omega)]
  have hzero : wrap arch.bits (size - 1 + 1) % size = 0 := by
    rw [Nat.sub_add_cancel (by omega), wrap_of_lt hfits, Nat.mod_self]
  have h₁ : freertosStep arch (oveStreamInit (fun _ => 0) size 1)
      (.send (replicate (size - 1) 0)) =
      (⟨fun _ => 0, size, 1, size - 1, 0, size - 1⟩, .stored (size - 1)) := by
    show freertosStep arch ⟨fun _ => 0, size, 1, 0, 0, 0⟩ _ = _
    rw [send_zeros (by omega) (by omega), hlast, Nat.zero_add]
  have h₂ : freertosStep arch ⟨fun _ => 0, size, 1, size - 1, 0, size - 1⟩ (.receive (size - 1)) =
      (⟨fun _ => 0, size, 1, size - 1, size - 1, 0⟩, .items (replicate (size - 1) 0)) := by
    rw [receive_zeros (by omega) le_rfl, hlast, Nat.sub_self]
  have h₃ : freertosStep arch ⟨fun _ => 0, size, 1, size - 1, size - 1, 0⟩
      (.send (replicate size 0)) =
      (⟨fun _ => 0, size, 1, d, size - 1, size⟩, .stored size) := by
    rw [send_zeros (by omega) (by omega), hwrap, Nat.zero_add]
  have h₄ : freertosStep arch ⟨fun _ => 0, size, 1, d, size - 1, size⟩ (.receive 1) =
      (⟨fun _ => 0, size, 1, d, 0, size - 1⟩, .items [0]) := by
    rw [receive_zeros (by omega) (by omega), hzero]
    rfl
  have h₅ : freertosStep arch ⟨fun _ => 0, size, 1, d, 0, size - 1⟩ (.send [1]) =
      (⟨update (fun _ => 0) d 1, size, 1, wrap arch.bits (d + 1) % size, 0, size⟩,
        .stored 1) := by
    have hone : size - (size - 1) = 1 := by omega
    have hback : size - 1 + 1 = size := by omega
    have hgo : size - 1 < size := by omega
    simp [freertosStep, ringWrite, hone, hback, hgo, putWrapped_singleton (show d < size by omega)]
  have h₆ : ∀ head, freertosStep arch ⟨update (fun _ => 0) d 1, size, 1, head, 0, size⟩
      (.receive size) = (⟨update (fun _ => 0) d 1, size, 1, head,
        wrap arch.bits (0 + size) % size, 0⟩,
        .items ((range size).map (update (fun _ => 0) d 1))) := by
    intro head
    have hgo : 1 ≤ size := by omega
    simp [freertosStep, ringRead, hgo, getWrapped, Circular.get]
  intro h hpre
  simp only [h, overrunCalls, Fifo.trace, foldl_cons, foldl_nil, Fifo.track, h₁, h₂, h₃,
    h₄, h₅, h₆, Call.toFifo, Fifo.History.record, Fifo.History.start] at hpre
  have heq := hpre.eq_of_length (by simp; omega)
  have hread : (range size).map (update (fun _ => (0 : UInt8)) d 1) =
      (range (size - 1)).map (update (fun _ => 0) d 1) ++ [0] := by
    have hsplit : range size = range (size - 1) ++ [size - 1] := by
      have hs : size = size - 1 + 1 := by omega
      conv_lhs => rw [hs, range_succ]
    rw [hsplit, map_append, map_singleton, update_of_ne (by omega)]
  have htake : take 1 [(1 : UInt8)] = [1] := rfl
  rw [hread, ← append_assoc, htake] at heq
  have hend := congrArg getLast? heq
  rw [getLast?_concat, getLast?_concat] at hend
  simp at hend

theorem nuttx_trace_eq (h : Sane arch s) (calls : List Call) :
    Fifo.trace (Call.toFifo .nuttx trigger) (nuttxStep arch) s calls =
      Fifo.trace (Call.toFifo .freertos trigger) (freertosStep arch) s calls := by
  have hφ : Call.toFifo .nuttx trigger = Call.toFifo .freertos trigger := by
    funext c
    cases c <;> rfl
  have hfold : ∀ p : Stream × Fifo.History UInt8, Sane arch p.1 →
      calls.foldl (Fifo.track (Call.toFifo .nuttx trigger) (nuttxStep arch)) p =
        calls.foldl (Fifo.track (Call.toFifo .freertos trigger) (freertosStep arch)) p := by
    induction calls with
    | nil => intro p _; rfl
    | cons c calls ih =>
      intro p hp
      have hone : Fifo.track (Call.toFifo .nuttx trigger) (nuttxStep arch) p c =
          Fifo.track (Call.toFifo .freertos trigger) (freertosStep arch) p c := by
        rw [Fifo.track, Fifo.track, nuttxStep_eq hp, hφ]
      rw [foldl_cons, foldl_cons, hone]
      exact ih _ (freertosStep_sane hp c)
  exact hfold (s, .start) h

/-- Every run refines the bounded queue, on the two chunk rings exactly up to half the address
space. -/
theorem stream_fifo_iff (arch : Arch) (b : Backend) (size : ℕ) (hpos : 0 < size)
    (hfits : size < 2 ^ arch.bits) :
    (∀ buffer trigger calls,
      StreamCorrect arch b (oveStreamInit buffer size trigger) calls) ↔
      b = .posix ∨ size ≤ 2 ^ (arch.bits - 1) := by
  constructor
  · intro hall
    by_contra hno
    rw [not_or, Nat.not_le] at hno
    have hdis := overrun_disordered hfits hno.2
    have hord := (hall (fun _ => 0) 1 (overrunCalls size)).inOrder
    cases b with
    | freertos => exact hdis hord
    | nuttx =>
      have hsane : Sane arch (oveStreamInit (fun _ => 0) size 1) :=
        (Carries.init (fun _ => 0) hpos 1).sane hfits
      have hord' : (Fifo.trace (Call.toFifo .nuttx 1) (nuttxStep arch)
          (oveStreamInit (fun _ => 0) size 1) (overrunCalls size)).2.returned <+:
          (Fifo.trace (Call.toFifo .nuttx 1) (nuttxStep arch)
            (oveStreamInit (fun _ => 0) size 1) (overrunCalls size)).2.accepted := hord
      rw [nuttx_trace_eq hsane] at hord'
      exact hdis hord'
    | posix => exact hno.1 rfl
  · intro hb buffer trigger calls
    apply streamCorrect_of_matches (Carries.init buffer hpos trigger)
    intro s' q c h
    exact streamStep_matches hfits hb h c

theorem stream_fifo_one_byte : (0 < 1 ∧ 1 < 2 ^ Arch.arm32.bits) ∧
    ∀ buffer trigger calls,
      StreamCorrect .arm32 .nuttx (oveStreamInit buffer 1 trigger) calls :=
  ⟨by decide, (stream_fifo_iff .arm32 .nuttx 1 (by decide) (by decide)).mpr (Or.inr (by decide))⟩

theorem stream_overrun_2gib :
    ¬StreamCorrect .arm32 .freertos (oveStreamInit (fun _ => 0) (2 ^ 31 + 1) 1)
      (overrunCalls (2 ^ 31 + 1)) := by
  intro hcorrect
  have hfits : 2 ^ 31 + 1 < 2 ^ Arch.arm32.bits := by decide
  exact overrun_disordered hfits (by decide) hcorrect.inOrder

end Overtos.Streams
