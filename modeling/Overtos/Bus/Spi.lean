import Mathlib.Data.List.TakeWhile
import Overtos.Lib.Word
import Overtos.Types

/-! Multi-segment SPI transfers on the STM32F7, whose HAL counts frames in 16 bits. -/
namespace Overtos.Spi
open List
open Word (wrap)

inductive Width where
  | bits8 | bits16
  deriving DecidableEq

def Width.bytes : Width → ℕ
  | .bits8 => 1
  | .bits16 => 2

/-- A segment; `tx` and `rx` say which buffers are not `NULL`. -/
structure Xfer where
  tx : Bool
  rx : Bool
  len : ℕ
  deriving DecidableEq

inductive HalStatus where
  | ok | error | busy | timeout
  deriving DecidableEq

def HalStatus.rc : HalStatus → Rc
  | .ok => .ok
  | .timeout => .errTimeout
  | .error | .busy => .errBusError

/-- How the peripheral answers one call: the status, and the frames moved if it fails. -/
structure Answer where
  status : HalStatus
  frames : ℕ

def hal (size : ℕ) (a : Answer) : HalStatus × ℕ :=
  if size = 0 then (.error, 0)
  else if a.status = .ok then (.ok, size)
  else (a.status, min a.frames size)

/-- One HAL call: the bytes read from the segment's `tx` and those stored to its `rx`. -/
structure Exchange where
  xfer : Xfer
  sent : Option ℕ
  stored : Option ℕ

def Xfer.exchange (x : Xfer) (bytes : ℕ) : Exchange :=
  if x.tx && x.rx then ⟨x, some bytes, some bytes⟩
  else if x.tx then ⟨x, some bytes, none⟩
  else ⟨x, none, if x.rx then some bytes else none⟩

def halSpiTransfer (w : Width) (x : Xfer) (a : Answer) : Rc × Exchange :=
  let r := hal (wrap 16 x.len) a
  (r.1.rc, x.exchange (w.bytes * r.2))

def transferLoop (w : Width) : List Xfer → (ℕ → Answer) → Rc × List Exchange
  | [], _ => (.ok, [])
  | x :: xs, answers =>
    let next := transferLoop w xs fun i => answers (i + 1)
    if x.len = 0 then next
    else
      let r := halSpiTransfer w x (answers 0)
      if r.1 = .ok then (next.1, r.2 :: next.2) else (r.1, [r.2])

inductive Event where
  | csAssert
  | exchange (e : Exchange)
  | csDeassert

def bracket (cs : Bool) (log : List Exchange) : List Event :=
  if cs then .csAssert :: log.map .exchange ++ [.csDeassert] else log.map .exchange

/-- `cs` is false when no chip-select is given. -/
def oveSpiTransferSeq (w : Width) (cs : Bool) (xfers : List Xfer) (answers : ℕ → Answer) :
    Rc × List Event :=
  if xfers = [] then (.errInvalidParam, [])
  else
    let r := transferLoop w xfers answers
    (r.1, bracket cs r.2)

def Exchange.Inside (e : Exchange) : Prop :=
  (∀ n ∈ e.sent, n ≤ e.xfer.len) ∧ ∀ n ∈ e.stored, n ≤ e.xfer.len

def Exchange.Complete (e : Exchange) : Prop :=
  e.sent = (if e.xfer.tx then some e.xfer.len else none) ∧
    e.stored = (if e.xfer.rx then some e.xfer.len else none)

/-- Refused outright, or under one chip-select assertion: no byte outside a segment, and on success
every non-empty segment whole and in order. -/
def Correct (cs : Bool) (xfers : List Xfer) (r : Rc × List Event) : Prop :=
  xfers = [] ∧ r = (.errInvalidParam, []) ∨
    ∃ log, r.2 = bracket cs log ∧ (∀ e ∈ log, e.Inside) ∧
      (r.1 = .ok → log.map Exchange.xfer = xfers.filter (·.len ≠ 0) ∧ ∀ e ∈ log, e.Complete)

/-- A length of which the HAL is told 0 frames. -/
def Xfer.refused (x : Xfer) : Bool := x.len ≠ 0 ∧ wrap 16 x.len = 0

def Xfer.Buffered (x : Xfer) : Prop := x.tx ∨ x.rx

/-- No 16-bit segment below 65536 bytes comes before a refused one, and without a refused one all
are of 8-bit words and below 65536 bytes. -/
def Safe (w : Width) (xfers : List Xfer) : Prop :=
  (∀ x ∈ xfers.takeWhile (!·.refused), x.Buffered → x.len = 0 ∨ w = .bits8 ∨ 2 ^ 16 ≤ x.len) ∧
    ((∃ x ∈ xfers, x.refused) ∨
      ∀ x ∈ xfers, x.Buffered → x.len = 0 ∨ w = .bits8 ∧ x.len < 2 ^ 16)

variable {w : Width} {x : Xfer} {xs : List Xfer} {n : ℕ}

@[simp] theorem exchange_xfer : (x.exchange n).xfer = x := by
  unfold Xfer.exchange
  split_ifs <;> rfl

theorem inside_exchange_iff : (x.exchange n).Inside ↔ (x.Buffered → n ≤ x.len) := by
  obtain ⟨tx, rx, len⟩ := x
  cases tx <;> cases rx <;> simp [Xfer.exchange, Exchange.Inside, Xfer.Buffered]

theorem complete_exchange_iff : (x.exchange n).Complete ↔ (x.Buffered → n = x.len) := by
  obtain ⟨tx, rx, len⟩ := x
  cases tx <;> cases rx <;> simp [Xfer.exchange, Exchange.Complete, Xfer.Buffered]

theorem moved_le_iff : w.bytes * wrap 16 x.len ≤ x.len ↔
    x.len = 0 ∨ w = .bits8 ∨ 2 ^ 16 ≤ x.len := by
  cases w
  · simp [Width.bytes, Word.wrap_le]
  · simp only [Width.bytes, wrap, reduceCtorEq, false_or]
    omega

theorem moved_eq_iff : w.bytes * wrap 16 x.len = x.len ↔
    x.len = 0 ∨ w = .bits8 ∧ x.len < 2 ^ 16 := by
  cases w <;> simp only [Width.bytes, wrap, reduceCtorEq, true_and, false_and, or_false] <;> omega

theorem refused_iff : x.refused = true ↔ x.len ≠ 0 ∧ wrap 16 x.len = 0 := by
  simp [Xfer.refused]

theorem halSpiTransfer_log (w : Width) (x : Xfer) (a : Answer) :
    ∃ n ≤ w.bytes * wrap 16 x.len, (halSpiTransfer w x a).2 = x.exchange n := by
  refine ⟨_, Nat.mul_le_mul_left _ ?_, rfl⟩
  unfold hal
  split_ifs
  · exact Nat.zero_le _
  · exact le_rfl
  · exact min_le_right _ _

theorem halSpiTransfer_ok {a : Answer} (h : (halSpiTransfer w x a).1 = .ok) :
    wrap 16 x.len ≠ 0 ∧ (halSpiTransfer w x a).2 = x.exchange (w.bytes * wrap 16 x.len) := by
  unfold halSpiTransfer hal at *
  split_ifs at h ⊢ with h0 hs
  · cases h
  · exact ⟨h0, rfl⟩
  · revert h hs
    cases a.status <;> simp [HalStatus.rc]

theorem transferLoop_inside (hxs : ∀ x ∈ xs.takeWhile (!·.refused),
    x.Buffered → w.bytes * wrap 16 x.len ≤ x.len) (answers : ℕ → Answer) :
    ∀ e ∈ (transferLoop w xs answers).2, e.Inside := by
  induction xs generalizing answers with
  | nil => simp [transferLoop]
  | cons x xs ih =>
    obtain ⟨n, hn, hlog⟩ := halSpiTransfer_log w x (answers 0)
    by_cases hx : x.refused = true
    · -- The call is made with no frames, and ends the loop.
      obtain ⟨hlen, h0⟩ := refused_iff.mp hx
      have hne : (halSpiTransfer w x (answers 0)).1 ≠ .ok := fun h => (halSpiTransfer_ok h).1 h0
      rw [h0, Nat.mul_zero, Nat.le_zero] at hn
      simp only [transferLoop, if_neg hlen, if_neg hne, hlog, mem_singleton, forall_eq, hn]
      exact inside_exchange_iff.mpr fun _ => Nat.zero_le _
    · rw [takeWhile_cons_of_pos (by simpa using hx)] at hxs
      have hrest := ih (fun y hy => hxs y (mem_cons_of_mem _ hy))
      have hhead := inside_exchange_iff.mpr fun hb => hn.trans (hxs x mem_cons_self hb)
      simp only [transferLoop]
      split_ifs with hlen hok
      · exact hrest _
      · rw [hlog, forall_mem_cons]
        exact ⟨hhead, hrest _⟩
      · rw [hlog, forall_mem_singleton]
        exact hhead

theorem transferLoop_ok {answers : ℕ → Answer} (h : (transferLoop w xs answers).1 = .ok) :
    (transferLoop w xs answers).2 =
      (xs.filter (·.len ≠ 0)).map (fun x => x.exchange (w.bytes * wrap 16 x.len)) ∧
      ∀ x ∈ xs, x.refused = false := by
  induction xs generalizing answers with
  | nil => simp [transferLoop]
  | cons x xs ih =>
    simp only [transferLoop] at h ⊢
    split_ifs at h ⊢ with hlen hok
    · obtain ⟨hlog, hxs⟩ := ih h
      rw [filter_cons_of_neg (by simp [hlen]), forall_mem_cons]
      exact ⟨hlog, by simp [Xfer.refused, hlen], hxs⟩
    · obtain ⟨hlog, hxs⟩ := ih h
      obtain ⟨h0, hx⟩ := halSpiTransfer_ok hok
      rw [filter_cons_of_pos (by simp [hlen]), forall_mem_cons, hlog, hx]
      exact ⟨rfl, by simp [Xfer.refused, h0], hxs⟩
    · exact absurd h hok

def allOk : ℕ → Answer := fun _ => ⟨.ok, 0⟩

theorem halSpiTransfer_allOk (h : wrap 16 x.len ≠ 0) :
    halSpiTransfer w x (allOk 0) = (.ok, x.exchange (w.bytes * wrap 16 x.len)) := by
  simp [halSpiTransfer, hal, h, allOk, HalStatus.rc]

theorem transferLoop_allOk_mem (hx : x ∈ xs.takeWhile (!·.refused)) (hlen : x.len ≠ 0) :
    x.exchange (w.bytes * wrap 16 x.len) ∈ (transferLoop w xs allOk).2 := by
  induction xs with
  | nil => simp at hx
  | cons y ys ih =>
    have hy : y.refused = false := by
      by_contra h
      simp [h] at hx
    rw [takeWhile_cons_of_pos (by simp [hy]), mem_cons] at hx
    have hshift : (fun i => allOk (i + 1)) = allOk := rfl
    simp only [transferLoop, hshift]
    split_ifs with hlen' hok
    · exact ih (hx.resolve_left fun h => hlen (h ▸ hlen'))
    · rw [mem_cons]
      exact hx.imp (fun h => by rw [h, (halSpiTransfer_ok hok).2]) ih
    · rw [halSpiTransfer_allOk fun h0 => by simp [Xfer.refused, hlen', h0] at hy] at hok
      exact absurd rfl hok

theorem transferLoop_allOk (h : ∀ x ∈ xs, x.refused = false) :
    (transferLoop w xs allOk).1 = .ok := by
  induction xs with
  | nil => rfl
  | cons x xs ih =>
    have hrest := ih fun y hy => h y (mem_cons_of_mem _ hy)
    have hshift : (fun i => allOk (i + 1)) = allOk := rfl
    have hx := h x mem_cons_self
    simp only [transferLoop, hshift]
    split_ifs with hlen hok
    · exact hrest
    · exact hrest
    · rw [halSpiTransfer_allOk fun h0 => by simp [Xfer.refused, hlen, h0] at hx] at hok
      exact absurd rfl hok

theorem bracket_inj {cs : Bool} {a b : List Exchange} (h : bracket cs a = bracket cs b) :
    a = b := by
  have hinj : Function.Injective Event.exchange := fun _ _ h => by cases h; rfl
  cases cs
  · exact map_injective_iff.mpr hinj h
  · exact map_injective_iff.mpr hinj (append_cancel_right (cons.inj h).2)

theorem correct_iff {cs : Bool} (hne : xs ≠ []) (answers : ℕ → Answer) :
    Correct cs xs (oveSpiTransferSeq w cs xs answers) ↔
      let r := transferLoop w xs answers
      (∀ e ∈ r.2, e.Inside) ∧ (r.1 = .ok → ∀ e ∈ r.2, e.Complete) := by
  simp only [Correct, oveSpiTransferSeq, hne, false_and, false_or]
  constructor
  · rintro ⟨log, hlog, hin, hok⟩
    rw [bracket_inj hlog]
    exact ⟨hin, fun h => (hok h).2⟩
  · rintro ⟨hin, hok⟩
    refine ⟨_, rfl, hin, fun h => ⟨?_, hok h⟩⟩
    rw [(transferLoop_ok h).1, map_map]
    exact map_id'' (fun _ => exchange_xfer) _

theorem correct_of_safe {cs : Bool} (h : Safe w xs) (answers : ℕ → Answer) :
    Correct cs xs (oveSpiTransferSeq w cs xs answers) := by
  rcases eq_or_ne xs [] with rfl | hne
  · exact .inl ⟨rfl, rfl⟩
  rw [correct_iff hne]
  refine ⟨transferLoop_inside (fun x hx hb => moved_le_iff.mpr (h.1 x hx hb)) _, fun hok => ?_⟩
  obtain ⟨hlog, hnone⟩ := transferLoop_ok hok
  have hwhole := h.2.resolve_left fun ⟨x, hx, hr⟩ => by simp [hnone x hx] at hr
  rw [hlog, forall_mem_map]
  intro x hx
  exact complete_exchange_iff.mpr fun hb => moved_eq_iff.mpr (hwhole x (mem_of_mem_filter hx) hb)

theorem safe_of_correct {cs : Bool} (h : Correct cs xs (oveSpiTransferSeq w cs xs allOk)) :
    Safe w xs := by
  rcases eq_or_ne xs [] with rfl | hne
  · simp [Safe]
  obtain ⟨hin, hok⟩ := (correct_iff hne _).mp h
  refine ⟨fun x hx hb => ?_, or_iff_not_imp_left.mpr fun hnone x hx hb => ?_⟩
  · by_cases hlen : x.len = 0
    · exact .inl hlen
    · exact moved_le_iff.mp (inside_exchange_iff.mp (hin _ (transferLoop_allOk_mem hx hlen)) hb)
  · have hnone : ∀ x ∈ xs, x.refused = false := fun x hx => by
      by_contra hr
      exact hnone ⟨x, hx, by simpa using hr⟩
    by_cases hlen : x.len = 0
    · exact .inl hlen
    · have hx : x ∈ xs.takeWhile (!·.refused) := by
        rwa [takeWhile_eq_self_iff.mpr fun y hy => by simp [hnone y hy]]
      exact moved_eq_iff.mp (complete_exchange_iff.mp
        (hok (transferLoop_allOk hnone) _ (transferLoop_allOk_mem hx hlen)) hb)

theorem seq_correct_iff_safe (w : Width) (cs : Bool) (xfers : List Xfer) :
    (∀ answers, Correct cs xfers (oveSpiTransferSeq w cs xfers answers)) ↔ Safe w xfers :=
  ⟨fun h => safe_of_correct (h allOk), fun h => correct_of_safe h⟩

theorem seq_overruns_and_truncates :
    ¬ Correct true [⟨false, true, 4⟩] (oveSpiTransferSeq .bits16 true [⟨false, true, 4⟩] allOk) ∧
      ¬ Correct true [⟨true, false, 65537⟩]
        (oveSpiTransferSeq .bits8 true [⟨true, false, 65537⟩] allOk) := by
  constructor
  · intro h
    simpa [Xfer.refused, Xfer.Buffered, wrap] using (safe_of_correct h).1
  · intro h
    simpa [Xfer.refused, Xfer.Buffered, wrap] using (safe_of_correct h).2

end Overtos.Spi
