import Overtos.Mqtt.Receive

/-! Which acknowledgement a request takes for its own. -/
namespace Overtos.Mqtt
open CStr (Bytes CString)

def splitPackets : ℕ → Bytes → List Bytes
  | 0, _ => []
  | fuel + 1, buf =>
    if mqttPacketLen buf = 0 then []
    else buf.take (mqttPacketLen buf) :: splitPackets fuel (buf.drop (mqttPacketLen buf))

def packetsOf (data : Bytes) : List Bytes := splitPackets data.length data

def hasType (t : UInt8) (pkt : Bytes) : Bool := pkt.head?.any fun head => packetType head = t

def suback : UInt8 := 0x90

def granted : Bytes → Bool
  | [] => false
  | code :: _ => code ≠ 0x80

def acknowledges (t : UInt8) (id : UInt16) (pkt : Bytes) : Bool :=
  hasType t pkt &&
    match pkt.drop (1 + (decodeRemainingLength pkt.tail).1) with
    | hi :: lo :: rest => getU16 hi lo = id && (t ≠ suback || granted rest)
    | _ => false

def waitReads (expected : UInt8) : ℕ → St → List Bytes
  | 0, _ => []
  | n + 1, st =>
    match mqttRecv st st.client.rxSize with
    | (rc, data, st) =>
      if rc = .errTimeout then waitReads expected n st
      else if rc ≠ .ok then []
      else data ::
        match scanPackets expected data.length data st with
        | (true, _) => []
        | (false, st) => waitReads expected n st

inductive Request where
  | publish (topic : Option CString) (payload : Payload)
  | subscribe (topic : Option CString) (qos : Qos)
  | unsubscribe (topic : Option CString)

def Request.exec (b : Build) (st : St) : Request → Rc × St
  | .publish topic payload => oveMqttPublish b st topic payload .qos1
  | .subscribe topic qos => oveMqttSubscribe b st topic qos
  | .unsubscribe topic => oveMqttUnsubscribe b st topic

def Request.ack : Request → UInt8
  | .publish _ _ => 0x40
  | .subscribe _ _ => suback
  | .unsubscribe _ => 0xB0

def Request.topic : Request → Option CString
  | .publish topic _ => topic
  | .subscribe topic _ => topic
  | .unsubscribe topic => topic

def Request.frame (b : Build) (st : St) (t : CString) : Request → Frame
  | .publish _ payload => publishFrame b st t payload .qos1
  | .subscribe _ qos => requestFrame st 0x82 t [.raw [qos.toByte]] 1
  | .unsubscribe _ => requestFrame st 0xA2 t [] 0

def Request.payloadLen : Request → ℕ
  | .publish _ payload => payload.len
  | _ => 0

def Request.Accepted (b : Build) (st : St) (r : Request) (t : CString) : Prop :=
  st.client.connected = true ∧ t.bytes.length ≤ 0xFFFF ∧ r.payloadLen ≤ st.client.txSize ∧
    mqttTxFrameFits b st (r.frame b st t).remaining

instance (b : Build) (st : St) (r : Request) (t : CString) : Decidable (r.Accepted b st t) :=
  inferInstanceAs (Decidable (_ ∧ _))

def Request.waiting (b : Build) (st : St) (r : Request) : Option St :=
  r.topic.bind fun t =>
    if r.Accepted b st t ∧ (transmit (bumpPktId st) (r.frame b st t)).1 = .ok then
      some (transmit (bumpPktId st) (r.frame b st t)).2
    else none

def Request.reads (b : Build) (st : St) (r : Request) : List Bytes :=
  (r.waiting b st).elim [] (waitReads r.ack 10)

def Correlated (b : Build) (st : St) (r : Request) : Prop :=
  (r.exec b st).1 = .ok →
    ∃ data ∈ r.reads b st, ∃ pkt ∈ packetsOf data, acknowledges r.ack st.client.pktId pkt = true

def OwnAck (b : Build) (st : St) (r : Request) : Prop :=
  ∀ data ∈ r.reads b st, (∃ pkt ∈ packetsOf data, hasType r.ack pkt = true) →
    ∃ pkt ∈ packetsOf data, acknowledges r.ack st.client.pktId pkt = true

section
variable {expected : UInt8} {st : St}

theorem scanPackets_found (fuel : ℕ) (buf : Bytes) : (scanPackets expected fuel buf st).1 = true ↔
      ∃ pkt ∈ splitPackets fuel buf, hasType expected pkt = true := by
  induction fuel generalizing buf st with
  | zero => simp [scanPackets, splitPackets]
  | succ fuel ih =>
    cases buf with
    | nil => simp [scanPackets, splitPackets, mqttPacketLen]
    | cons head tail =>
      by_cases hlen : mqttPacketLen (head :: tail) = 0
      · simp [scanPackets, splitPackets, hlen]
      have hhead : hasType expected ((head :: tail).take (mqttPacketLen (head :: tail))) = true ↔
          head &&& 0xF0 = expected := by
        obtain ⟨k, hk⟩ := Nat.exists_eq_succ_of_ne_zero hlen
        rw [hk, List.take_succ_cons]
        exact decide_eq_true_iff
      simp only [scanPackets, splitPackets, hlen, if_false, List.mem_cons, exists_eq_or_imp, hhead]
      by_cases ht : head &&& 0xF0 = expected
      · simp [ht]
      · simp only [ht, if_false, false_or]
        exact ih _

theorem mqttWaitFor_spec (n : ℕ) :
    ((mqttWaitFor expected n st).1 = .ok ↔ ∃ data ∈ waitReads expected n st,
      ∃ pkt ∈ packetsOf data, hasType expected pkt = true) ∧
    ∀ data ∈ waitReads expected n st, (∃ pkt ∈ packetsOf data, hasType expected pkt = true) →
      (waitReads expected n st).getLast? = some data := by
  induction n generalizing st with
  | zero => simp [mqttWaitFor, waitReads]
  | succ n ih =>
    have hscan := @scanPackets_found expected (mqttRecv st st.client.rxSize).2.2
      (mqttRecv st st.client.rxSize).2.1.length (mqttRecv st st.client.rxSize).2.1
    simp only [mqttWaitFor, waitReads]
    generalize mqttRecv st st.client.rxSize = recv at hscan ⊢
    obtain ⟨rc, data, st'⟩ := recv
    by_cases ht : rc = .errTimeout
    · simp only [ht, if_true]
      exact ih
    by_cases hok : rc = .ok
    · subst hok
      dsimp only at hscan ⊢
      generalize scanPackets expected data.length data st' = found at hscan ⊢
      obtain ⟨_ | _, st''⟩ := found
      · obtain ⟨hi, hl⟩ := @ih st''
        have hno : ¬∃ pkt ∈ packetsOf data, hasType expected pkt = true := fun h => by
          simpa using hscan.mpr h
        simp only [reduceCtorEq, if_false, ne_eq, not_true_eq_false, List.mem_cons,
          exists_eq_or_imp, hno, false_or]
        refine ⟨hi, ?_⟩
        rintro d (rfl | hd) hp
        · exact absurd hp hno
        · rw [List.getLast?_cons, hl d hd hp]
          rfl
      · have hyes : ∃ pkt ∈ packetsOf data, hasType expected pkt = true := hscan.mp rfl
        simp only [reduceCtorEq, if_false, ne_eq, not_true_eq_false, List.mem_singleton,
          exists_eq_left, hyes, true_and]
        rintro d rfl -
        rfl
    · simp [ht, hok]

end

section
variable {b : Build} {st : St}

theorem request_waits (topic : Option CString) (frame : CString → Frame) (ack : UInt8)
    (done : CString → St → St) :
    (request b st topic frame ack done).1 = .ok ↔ ∃ t, topic = some t ∧
      (st.client.connected = true ∧ t.bytes.length ≤ 0xFFFF ∧
        mqttTxFrameFits b st (frame t).remaining) ∧
      (transmit (bumpPktId st) (frame t)).1 = .ok ∧
      (mqttWaitFor ack 10 (transmit (bumpPktId st) (frame t)).2).1 = .ok := by
  cases topic with
  | none => simp [request]
  | some t =>
    simp only [request, Option.some.injEq, exists_eq_left']
    split_ifs with h₁ h₂ h₃ h₄ h₅
    · simp [h₁]
    · simp [h₂]
    · simp [h₄]
    · simp [h₅]
    · simp_all
    · simp [h₃]

theorem publish_waits (topic : Option CString) (payload : Payload) :
    (oveMqttPublish b st topic payload .qos1).1 = .ok ↔ ∃ t, topic = some t ∧
      PublishAccepted b st t payload .qos1 ∧
      (transmit (bumpPktId st) (publishFrame b st t payload .qos1)).1 = .ok ∧
      (mqttWaitFor 0x40 10 (transmit (bumpPktId st) (publishFrame b st t payload .qos1)).2).1 =
        .ok := by
  cases topic with
  | none => simp [oveMqttPublish]
  | some t =>
    simp only [Option.some.injEq, exists_eq_left']
    by_cases ha : PublishAccepted b st t payload .qos1
    · obtain ⟨h₁, h₂, h₃, h₄⟩ := ha
      simp only [oveMqttPublish]
      rw [if_neg (by simp [h₁]), if_neg (by omega), if_neg (by omega), if_neg (not_not.mpr h₄)]
      simp only [if_true]
      by_cases hs : (transmit (bumpPktId st) (publishFrame b st t payload .qos1)).1 = .ok
      · simp [hs, PublishAccepted, h₁, h₂, h₃, h₄]
      · simp [hs]
    · rw [publish_rejected ha]
      simp [ha]

theorem Request.exec_ok_iff (r : Request) : (r.exec b st).1 = .ok ↔
      ∃ st', r.waiting b st = some st' ∧ (mqttWaitFor r.ack 10 st').1 = .ok := by
  have hwait : (∃ st', r.waiting b st = some st' ∧ (mqttWaitFor r.ack 10 st').1 = .ok) ↔
      ∃ t, r.topic = some t ∧ r.Accepted b st t ∧
        (transmit (bumpPktId st) (r.frame b st t)).1 = .ok ∧
        (mqttWaitFor r.ack 10 (transmit (bumpPktId st) (r.frame b st t)).2).1 = .ok := by
    simp only [Request.waiting, Option.bind_eq_some_iff, Option.ite_none_right_eq_some,
      Option.some.injEq]
    constructor
    · rintro ⟨st', ⟨t, ht, ⟨ha, hs⟩, rfl⟩, hw⟩
      exact ⟨t, ht, ha, hs, hw⟩
    · rintro ⟨t, ht, ha, hs, hw⟩
      exact ⟨_, ⟨t, ht, ⟨ha, hs⟩, rfl⟩, hw⟩
  rw [hwait]
  cases r with
  | publish topic payload => exact publish_waits topic payload
  | subscribe topic qos =>
    refine (request_waits topic _ _ _).trans (exists_congr fun t => and_congr_right fun _ => ?_)
    simp [Request.Accepted, Request.payloadLen, Request.frame, Request.ack, suback]
  | unsubscribe topic =>
    refine (request_waits topic _ _ _).trans (exists_congr fun t => and_congr_right fun _ => ?_)
    simp [Request.Accepted, Request.payloadLen, Request.frame, Request.ack]

end

/-- A request succeeds only on its own acknowledgement exactly if every read with a packet of that
type holds it. -/
theorem correlated_iff (b : Build) (st : St) (r : Request) : Correlated b st r ↔ OwnAck b st r := by
  unfold Correlated OwnAck
  cases hw : r.waiting b st with
  | none =>
    have hrc : (r.exec b st).1 ≠ .ok := by
      intro h
      obtain ⟨st', hst, -⟩ := r.exec_ok_iff.mp h
      rw [hw] at hst
      cases hst
    have hreads : r.reads b st = [] := by rw [Request.reads, hw]; rfl
    simp [hrc, hreads]
  | some st' =>
    have hreads : r.reads b st = waitReads r.ack 10 st' := by rw [Request.reads, hw]; rfl
    obtain ⟨hok, hlast⟩ := @mqttWaitFor_spec r.ack st' 10
    have hrc : (r.exec b st).1 = .ok ↔ (mqttWaitFor r.ack 10 st').1 = .ok := by
      rw [r.exec_ok_iff, hw]
      simp
    rw [hrc, hok, hreads]
    constructor
    · intro h data hd hp
      obtain ⟨data', hd', hp'⟩ := h ⟨data, hd, hp⟩
      have hp'' : ∃ pkt ∈ packetsOf data', hasType r.ack pkt = true := by
        obtain ⟨pkt, hm, ha⟩ := hp'
        exact ⟨pkt, hm, (Bool.and_eq_true_iff.mp ha).1⟩
      have heq := (hlast data hd hp).symm.trans (hlast data' hd' hp'')
      cases heq
      exact hp'
    · rintro h ⟨data, hd, hp⟩
      exact ⟨data, hd, h data hd hp⟩

def waitingClient (inbox : List (Rc × Bytes)) : St :=
  ⟨{ smallClient with pktId := 2 }, ⟨fun _ => [], inbox, []⟩⟩

theorem foreign_ack_accepted :
    ¬Correlated smallBuild (waitingClient [(.ok, [0x40, 2, 0, 1])])
      (.publish (some topicT) (.bytes [1])) ∧
    ¬Correlated smallBuild (waitingClient [(.ok, [0x90, 3, 0, 2, 0x80])])
      (.subscribe (some topicT) .qos0) ∧
    ¬Correlated smallBuild (waitingClient [(.ok, [0xB0, 2, 0, 1])]) (.unsubscribe (some topicT)) := by
  have hdec : ∀ b st r, (r.exec b st).1 = .ok ∧ (r.reads b st).all (fun data =>
      (packetsOf data).all fun pkt => !acknowledges r.ack st.client.pktId pkt) = true →
      ¬Correlated b st r := by
    rintro b st r ⟨hok, hnone⟩ h
    obtain ⟨data, hd, pkt, hp, ha⟩ := h hok
    have hall := List.all_eq_true.mp (List.all_eq_true.mp hnone data hd) pkt hp
    rw [ha] at hall
    cases hall
  exact ⟨hdec _ _ _ (by decide +kernel), hdec _ _ _ (by decide +kernel),
    hdec _ _ _ (by decide +kernel)⟩

end Overtos.Mqtt
