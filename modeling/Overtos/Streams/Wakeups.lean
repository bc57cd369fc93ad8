import Overtos.Lib.Runs
import Overtos.Streams.Refinement

/-! One sender and one receiver that wait for each other on a stream without timeouts. -/
namespace Overtos.Streams
open Runs

inductive Sender where
  | idle
  | waiting (written : ℕ) (rest : List UInt8)
  | woken (written : ℕ) (rest : List UInt8)

inductive Receiver where
  | idle
  | waiting (len : ℕ)
  | woken (len : ℕ)

def Sender.signal : Sender → Sender
  | .waiting written rest => .woken written rest
  | t => t

def Receiver.signal : Receiver → Receiver
  | .waiting len => .woken len
  | t => t

def Sender.isWaiting : Sender → Bool
  | .waiting _ _ => true
  | _ => false

def Receiver.isWaiting : Receiver → Bool
  | .waiting _ => true
  | _ => false

structure Monitor where
  stream : Stream
  sender : Sender
  receiver : Receiver

inductive MonitorBackend where
  | nuttx | posix
  deriving DecidableEq, Repr

/-- Wake-ups of `pthread_cond_wait` may come without a signal. -/
inductive Act where
  | send (data : List UInt8)
  | resumeSend
  | receive (len : ℕ)
  | resumeReceive
  | reset
  | spuriousSender
  | spuriousReceiver

section

variable (arch : Arch)

def sendTurn (b : MonitorBackend) (m : Monitor) (written : ℕ) (rest : List UInt8) : Monitor :=
  match b with
  | .nuttx =>
    let o := nuttxSend arch (rest.length + 1) m.stream rest
    if o.2 < rest.length then
      { m with stream := o.1, sender := .waiting (written + o.2) (rest.drop o.2) }
    else
      { m with
        stream := o.1
        sender := .idle
        receiver := if 0 < written + o.2 then m.receiver.signal else m.receiver }
  | .posix =>
    let o := posixSend m.stream rest
    { m with
      stream := o.1
      sender := if o.2.1 < rest.length then .waiting (written + o.2.1) (rest.drop o.2.1) else .idle
      receiver := if o.2.2 then m.receiver.signal else m.receiver }

def receiveTurn (b : MonitorBackend) (m : Monitor) (len : ℕ) : Monitor :=
  match b with
  | .nuttx =>
    if 0 < len ∧ m.stream.count < m.stream.trigger then { m with receiver := .waiting len }
    else
      let o := nuttxReceive arch (len + 1) m.stream m.stream.trigger len
      { m with
        stream := o.1
        receiver := .idle
        sender := if 0 < o.2.length then m.sender.signal else m.sender }
  | .posix =>
    if len = 0 then { m with receiver := .idle }
    else if m.stream.count < m.stream.trigger then { m with receiver := .waiting len }
    else { stream := (posixDrain len m.stream).1, receiver := .idle, sender := m.sender.signal }

def resetTurn (b : MonitorBackend) (m : Monitor) : Monitor :=
  match b with
  | .nuttx => { m with stream := oveStreamReset m.stream, sender := m.sender.signal }
  | .posix => { m with stream := oveStreamReset m.stream }

def monitorStep (b : MonitorBackend) (m : Monitor) : Act → Option Monitor
  | .send data =>
    match m.sender with
    | .idle => some (sendTurn arch b m 0 data)
    | _ => none
  | .resumeSend =>
    match m.sender with
    | .woken written rest => some (sendTurn arch b m written rest)
    | _ => none
  | .receive len =>
    match m.receiver with
    | .idle => some (receiveTurn arch b m len)
    | _ => none
  | .resumeReceive =>
    match m.receiver with
    | .woken len => some (receiveTurn arch b m len)
    | _ => none
  | .reset => some (resetTurn b m)
  | .spuriousSender => some { m with sender := m.sender.signal }
  | .spuriousReceiver => some { m with receiver := m.receiver.signal }

end

structure Awake (m : Monitor) : Prop where
  receiver : m.receiver.isWaiting = true → m.stream.count < m.stream.trigger
  sender : m.sender.isWaiting = true → m.stream.size ≤ m.stream.count

def Monitor.toSend (m : Monitor) : Act → List UInt8
  | .send data => data
  | .resumeSend =>
    match m.sender with
    | .woken _ rest => rest
    | _ => []
  | _ => []

def Careful : MonitorBackend → Monitor → Act → Prop
  | .nuttx, m, act => m.receiver.isWaiting = true →
    m.stream.count + (m.toSend act).length ≤ m.stream.size
  | .posix, m, act => act = .reset → m.sender.isWaiting = false

section

variable {arch : Arch} {s : Stream}

theorem ringWrite_level (src : List UInt8) :
    (ringWrite arch s src).2 = min src.length (s.size - s.count) ∧
      (ringWrite arch s src).1.count = s.count + min src.length (s.size - s.count) := by
  have hchunk : (if src.length < s.size - s.count then src.length else s.size - s.count) =
      min src.length (s.size - s.count) := by
    split <;> omega
  exact ⟨hchunk, congrArg (s.count + ·) hchunk⟩

theorem ringRead_level (len : ℕ) : (ringRead arch s len).2.length = min len s.count ∧
      (ringRead arch s len).1.count = s.count - min len s.count := by
  have hchunk : (if len < s.count then len else s.count) = min len s.count := by
    split <;> omega
  exact ⟨(getWrapped_length _ _ _ _).trans hchunk, congrArg (s.count - ·) hchunk⟩

theorem posixSend_level (h : Sane arch s) (src : List UInt8) :
    Sane arch (posixSend s src).1 ∧ (posixSend s src).1.size = s.size ∧
      (posixSend s src).1.trigger = s.trigger ∧
      (posixSend s src).2.1 = min src.length (s.size - s.count) ∧
      (posixSend s src).1.count = s.count + min src.length (s.size - s.count) ∧
      ((posixSend s src).2.2 = true ↔
        0 < (posixSend s src).2.1 ∧ s.trigger ≤ (posixSend s src).1.count) := by
  induction src generalizing s with
  | nil => simp [posixSend, h]
  | cons b src ih =>
    have hcount := h.count
    by_cases hfull : s.size ≤ s.count
    · have hzero : s.size - s.count = 0 := by omega
      simp [posixSend, hfull, h, hzero]
    · have hpos : 0 < s.size := (Nat.zero_le _).trans_lt h.tail
      have hnext : Sane arch { s with
          buffer := Function.update s.buffer s.head b
          head := (s.head + 1) % s.size
          count := s.count + 1 } :=
        ⟨Nat.mod_lt _ hpos, h.tail, by simp; omega, h.size⟩
      obtain ⟨h1, h2, h3, h4, h5, h6⟩ := ih hnext
      simp only [posixSend, hfull, if_false]
      dsimp only at h2 h3 h4 h5 h6
      refine ⟨h1, h2, h3, ?_, ?_, ?_⟩
      · rw [h4, List.length_cons]
        omega
      · rw [h5, List.length_cons]
        omega
      · simp only [Bool.or_eq_true, decide_eq_true_eq, h6, h4, h5]
        omega

theorem posixDrain_level (h : Sane arch s) (len : ℕ) :
    Sane arch (posixDrain len s).1 ∧ (posixDrain len s).1.size = s.size ∧
      (posixDrain len s).1.trigger = s.trigger ∧
      (posixDrain len s).1.count = s.count - min len s.count := by
  induction len generalizing s with
  | zero => simp [posixDrain, h]
  | succ len ih =>
    have hcount := h.count
    by_cases hsome : 0 < s.count
    · have hpos : 0 < s.size := (Nat.zero_le _).trans_lt h.tail
      have hnext : Sane arch { s with tail := (s.tail + 1) % s.size, count := s.count - 1 } :=
        ⟨h.head, Nat.mod_lt _ hpos, by simp; omega, h.size⟩
      obtain ⟨h1, h2, h3, h4⟩ := ih hnext
      simp only [posixDrain, hsome, if_true]
      dsimp only at h2 h3 h4
      refine ⟨h1, h2, h3, ?_⟩
      rw [h4]
      omega
    · have hzero : s.count = 0 := by omega
      simp [posixDrain, hzero, h]

end

section

variable {arch : Arch} {b : MonitorBackend} {m : Monitor}

structure Ready (arch : Arch) (m : Monitor) : Prop where
  sane : Sane arch m.stream
  positive : 0 < m.stream.trigger
  reachable : m.stream.trigger ≤ m.stream.size

@[simp] theorem Sender.signal_isWaiting (t : Sender) : t.signal.isWaiting = false := by
  cases t <;> rfl

@[simp] theorem Receiver.signal_isWaiting (t : Receiver) : t.signal.isWaiting = false := by
  cases t <;> rfl

theorem sendTurn_ready (h : Ready arch m) (written : ℕ) (rest : List UInt8) :
    Ready arch (sendTurn arch b m written rest) := by
  cases b with
  | nuttx =>
    have hs : Ready arch { m with stream := (ringWrite arch m.stream rest).1 } :=
      ⟨ringWrite_sane h.sane rest, h.positive, h.reachable⟩
    simp only [sendTurn, nuttxSend_eq h.sane]
    split <;> exact { hs with }
  | posix =>
    obtain ⟨h1, h2, h3, -⟩ := posixSend_level h.sane rest
    exact ⟨h1, h3.symm ▸ h.positive, by simpa [sendTurn, h2, h3] using h.reachable⟩

theorem sendTurn_awake (h : Ready arch m) (ha : Awake m) (written : ℕ) (rest : List UInt8) :
    Awake (sendTurn arch b m written rest) ↔ (b = .nuttx → m.receiver.isWaiting = true →
      m.stream.count + rest.length ≤ m.stream.size) := by
  have hcount := h.sane.count
  have hreach := h.reachable
  cases b with
  | nuttx =>
    obtain ⟨hn, hc⟩ := @ringWrite_level arch m.stream rest
    have hsize : (ringWrite arch m.stream rest).1.size = m.stream.size := rfl
    have htrigger : (ringWrite arch m.stream rest).1.trigger = m.stream.trigger := rfl
    simp only [sendTurn, nuttxSend_eq h.sane, true_imp_iff]
    by_cases hrest : (ringWrite arch m.stream rest).2 < rest.length
    · -- the ring is full and the sender goes to sleep without a signal
      rw [if_pos hrest]
      constructor
      · rintro ⟨hr, -⟩ hw
        have hlow : (ringWrite arch m.stream rest).1.count < m.stream.trigger := hr hw
        omega
      · intro hroom
        refine ⟨fun hw => ?_, fun _ => ?_⟩
        · have := hroom hw
          omega
        · show m.stream.size ≤ (ringWrite arch m.stream rest).1.count
          omega
    · rw [if_neg hrest]
      constructor
      · intro _ _
        omega
      · intro _
        refine ⟨fun hw => ?_, fun hw => by simp [Sender.isWaiting] at hw⟩
        show (ringWrite arch m.stream rest).1.count < m.stream.trigger
        by_cases hsome : 0 < written + (ringWrite arch m.stream rest).2
        · simp [hsome] at hw
        · have hold := ha.receiver (by simpa [hsome] using hw)
          omega
  | posix =>
    obtain ⟨-, hsize, htrigger, hn, hc, hsig⟩ := posixSend_level h.sane rest
    simp only [reduceCtorEq, false_imp_iff, iff_true]
    constructor
    · intro hw
      show (posixSend m.stream rest).1.count < (posixSend m.stream rest).1.trigger
      have hno : (posixSend m.stream rest).2.2 = false := by
        cases hf : (posixSend m.stream rest).2.2 with
        | false => rfl
        | true => simp [sendTurn, hf] at hw
      have hold := ha.receiver (by simpa [sendTurn, hno] using hw)
      rw [htrigger]
      simp only [hno, Bool.false_eq_true, false_iff] at hsig
      omega
    · intro hw
      show (posixSend m.stream rest).1.size ≤ (posixSend m.stream rest).1.count
      have hrest : (posixSend m.stream rest).2.1 < rest.length := by
        by_contra hno
        simp [sendTurn, hno, Sender.isWaiting] at hw
      omega

theorem receiveTurn_ready (h : Ready arch m) (len : ℕ) : Ready arch (receiveTurn arch b m len) := by
  cases b with
  | nuttx =>
    simp only [receiveTurn, nuttxReceive_eq]
    split
    · exact { h with }
    · split
      · exact { h with sane := ringRead_sane h.sane len }
      · exact { h with }
  | posix =>
    obtain ⟨h1, h2, h3, -⟩ := posixDrain_level h.sane len
    simp only [receiveTurn]
    split
    · exact { h with }
    · split
      · exact { h with }
      · exact ⟨h1, h3.symm ▸ h.positive, by simpa [h2, h3] using h.reachable⟩

theorem receiveTurn_awake (h : Ready arch m) (ha : Awake m) (len : ℕ) :
    Awake (receiveTurn arch b m len) := by
  have hpos := h.positive
  cases b with
  | nuttx =>
    simp only [receiveTurn, nuttxReceive_eq]
    split
    · next hlow => exact ⟨fun _ => hlow.2, ha.sender⟩
    · next hgo =>
      refine ⟨fun hw => by simp [Receiver.isWaiting] at hw, fun hw => ?_⟩
      by_cases hread : 0 < len ∧ m.stream.trigger ≤ m.stream.count
      · obtain ⟨hlen, -⟩ := @ringRead_level arch m.stream len
        have hsome : 0 < (ringRead arch m.stream len).2.length := by omega
        simp [hread, hsome] at hw
      · simp only [hread, if_false] at hw ⊢
        exact ha.sender (by simpa using hw)
  | posix =>
    simp only [receiveTurn]
    split
    · exact ⟨fun hw => by simp [Receiver.isWaiting] at hw, ha.sender⟩
    · split
      · next hlow => exact ⟨fun _ => hlow, ha.sender⟩
      · exact ⟨fun hw => by simp [Receiver.isWaiting] at hw, fun hw => by simp at hw⟩

theorem resetTurn_ready (h : Ready arch m) : Ready arch (resetTurn b m) := by
  have hpos : 0 < m.stream.size := (Nat.zero_le _).trans_lt h.sane.tail
  cases b <;> exact ⟨⟨hpos, hpos, Nat.zero_le _, h.sane.size⟩, h.positive, h.reachable⟩

theorem resetTurn_awake (h : Ready arch m) :
    Awake (resetTurn b m) ↔ (b = .posix → m.sender.isWaiting = false) := by
  have hpos : 0 < m.stream.size := (Nat.zero_le _).trans_lt h.sane.tail
  cases b with
  | nuttx =>
    simp only [reduceCtorEq, false_imp_iff, iff_true]
    exact ⟨fun _ => h.positive, fun hw => by simp [resetTurn] at hw⟩
  | posix =>
    simp only [true_imp_iff]
    constructor
    · intro hawake
      by_contra hw
      have hfull : m.stream.size ≤ 0 := hawake.sender (by simpa [resetTurn] using hw)
      omega
    · intro hno
      exact ⟨fun _ => h.positive, fun hw => by simp [resetTurn, hno] at hw⟩

theorem monitorStep_spec (h : Ready arch m) (ha : Awake m) {act : Act} {m' : Monitor}
    (hstep : monitorStep arch b m act = some m') :
    Ready arch m' ∧ (Awake m' ↔ Careful b m act) := by
  have hcount := h.sane.count
  -- a turn in which nothing is sent and nothing reset is careful
  have hquiet : ∀ act, m.toSend act = [] → act ≠ .reset → Careful b m act := by
    intro act hnone hreset
    cases b with
    | nuttx => simpa [Careful, hnone] using fun _ => hcount
    | posix => exact fun hr => absurd hr hreset
  have hsend : ∀ act written rest, m.toSend act = rest → act ≠ .reset →
      (Awake (sendTurn arch b m written rest) ↔ Careful b m act) := by
    intro act written rest hrest hreset
    rw [sendTurn_awake h ha]
    cases b with
    | nuttx => simp [Careful, hrest]
    | posix => simp [Careful, hreset]
  revert hstep
  fun_cases monitorStep arch b m act <;> intro hstep <;> cases hstep
  · next data _ => exact ⟨sendTurn_ready h 0 data, hsend _ 0 data rfl (by simp)⟩
  · next written rest hs => -- `resumeSend`
    exact ⟨sendTurn_ready h written rest,
      hsend _ written rest (by simp [Monitor.toSend, hs]) (by simp)⟩
  iterate 2 -- `receive` and `resumeReceive`
    next len _ => exact ⟨receiveTurn_ready h len,
      iff_of_true (receiveTurn_awake h ha len) (hquiet _ rfl (by simp))⟩
  · refine ⟨resetTurn_ready h, (resetTurn_awake h).trans ?_⟩
    cases b with
    | nuttx =>
      exact iff_of_true (by simp) (by simpa [Careful, Monitor.toSend] using fun _ => hcount)
    | posix => simp [Careful]
  · refine ⟨{ h with }, iff_of_true ?_ (hquiet _ rfl (by simp))⟩
    exact ⟨ha.receiver, fun hw => by simp at hw⟩
  · refine ⟨{ h with }, iff_of_true ?_ (hquiet _ rfl (by simp))⟩
    exact ⟨fun hw => by simp at hw, ha.sender⟩

theorem initTrigger_pos (buffer : ℕ → UInt8) (size trigger : ℕ) :
    0 < (oveStreamInit buffer size trigger).trigger := by
  simp only [oveStreamInit]
  split <;> omega

theorem initTrigger_le (buffer : ℕ → UInt8) {size trigger : ℕ} (hpos : 0 < size)
    (htrigger : trigger ≤ size) :
    (oveStreamInit buffer size trigger).trigger ≤ (oveStreamInit buffer size trigger).size := by
  simp only [oveStreamInit]
  split <;> omega

def Monitor.start (buffer : ℕ → UInt8) (size trigger : ℕ) : Monitor :=
  ⟨oveStreamInit buffer size trigger, .idle, .idle⟩

section

variable (buffer : ℕ → UInt8) {size trigger : ℕ} (hpos : 0 < size)
  (hfits : size < 2 ^ arch.bits) (htrigger : trigger ≤ size)

include hpos hfits htrigger in
theorem start_ready : Ready arch (.start buffer size trigger) :=
  ⟨(Carries.init buffer hpos trigger).sane hfits, initTrigger_pos buffer size trigger,
    initTrigger_le buffer hpos htrigger⟩

theorem start_awake : Awake (.start buffer size trigger) :=
  ⟨fun hw => by simp [Monitor.start, Receiver.isWaiting] at hw,
    fun hw => by simp [Monitor.start, Sender.isWaiting] at hw⟩

include hpos hfits htrigger

theorem monitor_awake_iff (b : MonitorBackend) (acts : List Act) :
    Always (monitorStep arch b) Awake (.start buffer size trigger) acts ↔
      Each (monitorStep arch b) (Careful b) (.start buffer size trigger) acts :=
  always_iff_each (fun _ _ _ h ha hstep => monitorStep_spec h ha hstep)
    (start_ready buffer hpos hfits htrigger) (start_awake buffer) acts

theorem monitor_progress (b : MonitorBackend) {acts : List Act}
    (h : Each (monitorStep arch b) (Careful b) (.start buffer size trigger) acts) :
    Always (monitorStep arch b)
      (fun m => ¬(m.sender.isWaiting = true ∧ m.receiver.isWaiting = true))
      (.start buffer size trigger) acts := by
  have hall := always_and_of_each (fun _ _ _ h ha hstep => monitorStep_spec h ha hstep)
    (start_ready buffer hpos hfits htrigger) (start_awake buffer) h
  apply hall.mono
  rintro m ⟨hready, hawake⟩ ⟨hs, hr⟩
  have hfull := hawake.sender hs
  have hlow := hawake.receiver hr
  have hreach := hready.reachable
  omega

end

end

inductive SemSender where
  | idle
  | top (rest : List UInt8)
  | wrote (rest : List UInt8) (haveTrigger : Bool)
  | full (rest : List UInt8)

inductive SemReceiver where
  | idle
  | top (len : ℕ)
  | got (received : ℕ)
  | low (len : ℕ)

structure SemSystem where
  stream : Stream
  dataSem : ℕ
  spaceSem : ℕ
  sender : SemSender
  receiver : SemReceiver
  resets : ℕ

inductive SemAct where
  | send (data : List UInt8)
  | sender
  | receive (len : ℕ)
  | receiver
  | reset
  | resetGive

/-- `xSemaphoreGive` on a counting semaphore created with the buffer's size as its maximum. -/
def semGive (max sem : ℕ) : ℕ := if sem < max then sem + 1 else sem

def semStep (arch : Arch) (y : SemSystem) : SemAct → Option SemSystem
  | .send data =>
    match y.sender with
    | .idle => some { y with sender := .top data }
    | _ => none
  | .sender =>
    match y.sender with
    | .idle => none
    | .top rest =>
      if rest.length = 0 then some { y with sender := .idle }
      else if y.stream.count < y.stream.size then
        let o := ringWrite arch y.stream rest
        some { y with
          stream := o.1
          sender := .wrote (rest.drop o.2) (decide (o.1.trigger ≤ o.1.count)) }
      else some { y with sender := .full rest }
    | .wrote rest haveTrigger =>
      some { y with
        dataSem := if haveTrigger then semGive y.stream.size y.dataSem else y.dataSem
        sender := .top rest }
    | .full rest =>
      if 0 < y.spaceSem then some { y with spaceSem := y.spaceSem - 1, sender := .top rest }
      else none
  | .receive len =>
    match y.receiver with
    | .idle => some { y with receiver := .top len }
    | _ => none
  | .receiver =>
    match y.receiver with
    | .idle => none
    | .top len =>
      if y.stream.trigger ≤ y.stream.count then
        let o := ringRead arch y.stream len
        some { y with stream := o.1, receiver := .got o.2.length }
      else some { y with receiver := .low len }
    | .got received =>
      some { y with
        spaceSem := if 0 < received then semGive y.stream.size y.spaceSem else y.spaceSem
        receiver := .idle }
    | .low len =>
      if 0 < y.dataSem then some { y with dataSem := y.dataSem - 1, receiver := .top len }
      else none
  | .reset => some { y with stream := oveStreamReset y.stream, resets := y.resets + 1 }
  | .resetGive =>
    if 0 < y.resets then
      some { y with spaceSem := semGive y.stream.size y.spaceSem, resets := y.resets - 1 }
    else none

def SemSystem.receiverBlocked (y : SemSystem) : Prop :=
  (∃ len, y.receiver = .low len) ∧ y.dataSem = 0

def SemSystem.senderBlocked (y : SemSystem) : Prop :=
  (∃ rest, y.sender = .full rest) ∧ y.spaceSem = 0

def SemSystem.dataPending (y : SemSystem) : Prop := ∃ rest, y.sender = .wrote rest true

def SemSystem.spacePending (y : SemSystem) : Prop :=
  (∃ n, 0 < n ∧ y.receiver = .got n) ∨ 0 < y.resets

structure SemAwake (y : SemSystem) : Prop where
  receiver : y.receiverBlocked → ¬y.dataPending → y.stream.count < y.stream.trigger
  sender : y.senderBlocked → ¬y.spacePending → y.stream.size ≤ y.stream.count

structure SemInv (arch : Arch) (y : SemSystem) : Prop where
  sane : Sane arch y.stream
  positive : 0 < y.stream.trigger
  reachable : y.stream.trigger ≤ y.stream.size
  data : ∀ len, y.receiver = .low len → y.stream.trigger ≤ y.stream.count →
    0 < y.dataSem ∨ y.dataPending
  space : ∀ rest, y.sender = .full rest → y.stream.count < y.stream.size →
    0 < y.spaceSem ∨ y.spacePending

theorem semGive_pos {max : ℕ} (hmax : 0 < max) (sem : ℕ) : 0 < semGive max sem := by
  unfold semGive
  split <;> omega

section

variable {arch : Arch} {y y' : SemSystem}

theorem SemInv.awake (h : SemInv arch y) : SemAwake y := by
  constructor
  · rintro ⟨⟨len, hr⟩, hzero⟩ hno
    by_contra hge
    rcases h.data len hr (by omega) with hsem | hpend
    · omega
    · exact hno hpend
  · rintro ⟨⟨rest, hs⟩, hzero⟩ hno
    by_contra hlt
    rcases h.space rest hs (by omega) with hsem | hpend
    · omega
    · exact hno hpend

theorem SemInv.data_of (h : SemInv arch y) (hs : ∀ rest, y.sender ≠ .wrote rest true) (len : ℕ)
    (hr : y.receiver = .low len) (hge : y.stream.trigger ≤ y.stream.count) :
    0 < y.dataSem ∨ y'.dataPending :=
  .inl ((h.data len hr hge).resolve_right fun hw => hw.elim hs)

theorem SemInv.space_of (h : SemInv arch y) (hr : ∀ n, 0 < n → y.receiver ≠ .got n)
    (hres : y'.resets = y.resets) (rest : List UInt8) (hs : y.sender = .full rest)
    (hlt : y.stream.count < y.stream.size) : 0 < y.spaceSem ∨ y'.spacePending := by
  rcases h.space rest hs hlt with hsem | ⟨n, hn, hg⟩ | hpend
  · exact .inl hsem
  · exact absurd hg (hr n hn)
  · exact .inr (.inr (hres ▸ hpend))

theorem semStep_inv (h : SemInv arch y) {a : SemAct} (hstep : semStep arch y a = some y') :
    SemInv arch y' := by
  have hpos : 0 < y.stream.size := (Nat.zero_le _).trans_lt h.sane.tail
  revert hstep
  fun_cases semStep arch y a <;> intro hstep <;> cases hstep
  · next data hs => exact { h with data := h.data_of (by simp [hs]), space := by simp }
  · next rest hs _ => -- the sender has sent everything
    exact { h with data := h.data_of (by simp [hs]), space := by simp }
  · next rest hs _ _ o => -- it stores what there is room for
    refine { h with
      sane := ringWrite_sane h.sane rest, data := fun len hr hge => ?_, space := by simp }
    have hreached : (ringWrite arch y.stream rest).1.trigger ≤
        (ringWrite arch y.stream rest).1.count := hge
    exact .inr ⟨rest.drop (ringWrite arch y.stream rest).2, by simp [o, hreached]⟩
  · next rest hs _ hfull => -- there is none
    exact { h with data := h.data_of (by simp [hs]), space := fun _ _ hlt => absurd hlt hfull }
  · next rest haveTrigger hs => -- it gives `data_sem` if the trigger is reached
    refine { h with data := fun len hr hge => ?_, space := by simp }
    cases haveTrigger with
    | true => exact .inl (by simpa using semGive_pos hpos y.dataSem)
    | false => simpa using h.data_of (by simp [hs]) len hr hge
  · next rest hs _ => exact { h with data := h.data_of (by simp [hs]), space := by simp }
  · next len hr => exact { h with data := by simp, space := h.space_of (by simp [hr]) rfl }
  · next len hr _ o => -- the receiver takes what is there
    refine { h with
      sane := ringRead_sane h.sane len, data := by simp, space := fun rest hs hlt => ?_ }
    obtain ⟨hlen, hcount⟩ := @ringRead_level arch y.stream len
    by_cases hsome : 0 < (ringRead arch y.stream len).2.length
    · exact .inr (.inl ⟨_, hsome, rfl⟩)
    · have hlt' : (ringRead arch y.stream len).1.count < y.stream.size := hlt
      exact h.space_of (by simp [hr]) rfl rest hs (by omega)
  · next len hr hlow => -- the trigger is not reached
    exact { h with
      data := fun _ _ hge => absurd hge hlow, space := h.space_of (by simp [hr]) rfl }
  · next received hr => -- it gives `space_sem` if it took something
    refine { h with data := by simp, space := fun rest hs hlt => ?_ }
    by_cases hsome : 0 < received
    · exact .inl (by simpa [hsome] using semGive_pos hpos y.spaceSem)
    · have hno : ∀ n, 0 < n → y.receiver ≠ .got n := by
        rintro n hn hg
        simp only [hr, SemReceiver.got.injEq] at hg
        omega
      show 0 < (if 0 < received then _ else y.spaceSem) ∨ _
      rw [if_neg hsome]
      exact h.space_of hno rfl rest hs hlt
  · next len hr _ => exact { h with data := by simp, space := h.space_of (by simp [hr]) rfl }
  · have htrigger := h.positive -- `reset`
    refine { h with
      sane := ⟨hpos, hpos, Nat.zero_le _, h.sane.size⟩, data := fun len hr hge => ?_,
      space := fun _ _ _ => .inr (.inr (Nat.succ_pos _)) }
    have hzero : y.stream.trigger ≤ 0 := hge
    omega
  · exact { h with space := fun _ _ _ => .inl (semGive_pos hpos y.spaceSem) }

def SemSystem.start (buffer : ℕ → UInt8) (size trigger : ℕ) : SemSystem :=
  ⟨oveStreamInit buffer size trigger, 0, 0, .idle, .idle, 0⟩

theorem sem_awake (buffer : ℕ → UInt8) {size trigger : ℕ} (hpos : 0 < size)
    (hfits : size < 2 ^ arch.bits) (htrigger : trigger ≤ size) (acts : List SemAct) :
    Always (semStep arch)
      (fun y => SemAwake y ∧ (y.senderBlocked → y.receiverBlocked → 0 < y.resets))
      (.start buffer size trigger) acts := by
  have hstart : SemInv arch (.start buffer size trigger) := by
    refine ⟨(Carries.init buffer hpos trigger).sane hfits, ?_, ?_, ?_, ?_⟩
    · exact initTrigger_pos buffer size trigger
    · exact initTrigger_le buffer hpos htrigger
    · simp [SemSystem.start]
    · simp [SemSystem.start]
  apply (always_of_invariant (fun y a y' h hstep => semStep_inv h hstep) hstart acts).mono
  intro y h
  refine ⟨h.awake, ?_⟩
  rintro ⟨⟨rest, hs⟩, hspace⟩ ⟨⟨len, hr⟩, hdata⟩
  have hreach := h.reachable
  by_contra hno
  have hlow : y.stream.count < y.stream.trigger :=
    h.awake.receiver ⟨⟨len, hr⟩, hdata⟩ (by simp [SemSystem.dataPending, hs])
  have hfull : y.stream.size ≤ y.stream.count :=
    h.awake.sender ⟨⟨rest, hs⟩, hspace⟩ (by simpa [SemSystem.spacePending, hr] using hno)
  omega

end

/-- No wake-up is lost: on FreeRTOS in any run; on NuttX exactly if every send beside a waiting
receiver has room for all its bytes; on POSIX exactly without a reset while the sender waits. -/
theorem stream_wakeups_iff (arch : Arch) (buffer : ℕ → UInt8) (size trigger : ℕ) (hpos : 0 < size)
    (hfits : size < 2 ^ arch.bits) (htrigger : trigger ≤ size) :
    (∀ acts, Always (semStep arch)
      (fun y => SemAwake y ∧ (y.senderBlocked → y.receiverBlocked → 0 < y.resets))
      (.start buffer size trigger) acts) ∧
    (∀ b acts, Always (monitorStep arch b) Awake (.start buffer size trigger) acts ↔
      Each (monitorStep arch b) (Careful b) (.start buffer size trigger) acts) ∧
    ∀ b acts, Each (monitorStep arch b) (Careful b) (.start buffer size trigger) acts →
      Always (monitorStep arch b)
        (fun m => ¬(m.sender.isWaiting = true ∧ m.receiver.isWaiting = true))
        (.start buffer size trigger) acts := by
  refine ⟨sem_awake buffer hpos hfits htrigger, ?_, ?_⟩
  · intro b acts
    exact monitor_awake_iff buffer hpos hfits htrigger b acts
  · intro b acts h
    exact monitor_progress buffer hpos hfits htrigger b h

theorem stream_wakeups_four : (0 < 4 ∧ 4 < 2 ^ Arch.arm32.bits ∧ 2 ≤ 4) ∧
    ∀ acts, Always (semStep .arm32)
      (fun y => SemAwake y ∧ (y.senderBlocked → y.receiverBlocked → 0 < y.resets))
      (.start (fun _ => 0) 4 2) acts :=
  ⟨by decide, (stream_wakeups_iff .arm32 (fun _ => 0) 4 2 (by decide) (by decide) (by decide)).1⟩

theorem stream_wakeups_lost :
    ¬Always (monitorStep .arm32 .nuttx) Awake (.start (fun _ => 0) 4 1)
      [.receive 1, .send [1, 2, 3, 4, 5]] ∧
    ¬Always (monitorStep .arm32 .posix) Awake (.start (fun _ => 0) 4 1)
      [.send [1, 2, 3, 4, 5], .reset] := by
  constructor
  · rintro ⟨-, h⟩
    obtain ⟨-, h⟩ := h _ rfl
    have hlow := (h _ rfl).receiver rfl
    exact absurd hlow (by decide)
  · rintro ⟨-, h⟩
    obtain ⟨-, h⟩ := h _ rfl
    have hfull := (h _ rfl).sender rfl
    exact absurd hfull (by decide)

end Overtos.Streams
