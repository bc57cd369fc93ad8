import Overtos.Mqtt.Client

/-! What the client writes into its tx buffer and hands to the socket. -/
namespace Overtos.Mqtt
open List

open CStr (Bytes CString)

def Frame.Faithful (f : Frame) : Prop :=
  (0 < (decodeRemainingLength f.bytes.tail).1 ∧
    (decodeRemainingLength f.bytes.tail).2 =
      (f.bytes.tail.drop (decodeRemainingLength f.bytes.tail).1).length) ∧
  ∀ n data, Seg.field n data ∈ f.segs → ∃ hi lo, (Seg.field n data).bytes = hi :: lo :: data ∧
    (getU16 hi lo).toNat = data.length

def EventOk : Event → Prop
  | .wroteTx count size => count ≤ size
  | .sent f => f.Faithful
  | _ => True

def Emits (P : Event → Prop) (st st' : St) : Prop :=
  ∃ es, st'.world.log = st.world.log ++ es ∧ ∀ e ∈ es, P e

section
variable {P : Event → Prop} {st st' st'' : St}

theorem Emits.of_log_eq (h : st'.world.log = st.world.log) : Emits P st st' :=
  ⟨[], by simp [h], by simp⟩

theorem Emits.refl (st : St) : Emits P st st := Emits.of_log_eq rfl

theorem Emits.trans (h : Emits P st st') (h' : Emits P st' st'') : Emits P st st'' := by
  obtain ⟨es, he, hp⟩ := h
  obtain ⟨fs, hf, hq⟩ := h'
  refine ⟨es ++ fs, by rw [hf, he, append_assoc], fun e hm => ?_⟩
  rcases mem_append.mp hm with hm | hm
  · exact hp e hm
  · exact hq e hm

theorem Emits.note {e : Event} (h : P e) : Emits P st (st.note e) := ⟨[e], rfl, by simpa using h⟩

theorem Emits.mem {es : List Event} (h : Emits P st st') (he : st'.world.log = st.world.log ++ es)
    {e : Event} (hm : e ∈ es) : P e := by
  obtain ⟨fs, hf, hp⟩ := h
  rw [he] at hf
  exact hp e (append_cancel_left hf ▸ hm)

end

section
variable (st : St)

theorem ask_log (e : Ext) : (st.ask e).2.world.log = st.world.log := by
  unfold St.ask
  split <;> rfl

@[simp] theorem ask_client (e : Ext) : (st.ask e).2.client = st.client := by
  unfold St.ask
  split <;> rfl

@[simp] theorem note_client (e : Event) : (st.note e).client = st.client := rfl

theorem mqttSend_log (f : Frame) :
    (mqttSend st f).2.world.log = st.world.log ++ [.sent f] := ask_log _ _

theorem mqttRecv_log (len : ℕ) : (mqttRecv st len).2.2.world.log = st.world.log := by
  unfold mqttRecv
  split <;> rfl

end

theorem faithful_iff (f : Frame) :
    f.Faithful ↔ f.remaining < 128 ^ 4 ∧ f.remaining = f.body.length ∧
      ∀ n data, Seg.field n data ∈ f.segs → n.toNat = data.length := by
  have hfield : ∀ n data, (∃ hi lo, (Seg.field n data).bytes = hi :: lo :: data ∧
      (getU16 hi lo).toNat = data.length) ↔ n.toNat = data.length := by
    intro n data
    constructor
    · rintro ⟨hi, lo, hb, hl⟩
      cases hb
      rwa [getU16_putU16] at hl
    · exact fun h => ⟨_, _, rfl, by rwa [getU16_putU16]⟩
  have htail : f.bytes.tail = encodeRemainingLength f.remaining ++ f.body := rfl
  simp only [Frame.Faithful, hfield, htail]
  rw [← and_assoc]
  refine and_congr_left fun _ => ?_
  by_cases hr : f.remaining < 128 ^ 4
  · rw [decodeRemainingLength_encode hr]
    have hd : (encodeRemainingLength f.remaining ++ f.body).drop
        (remainingLengthBytes f.remaining) = f.body :=
      drop_left' (length_encodeRemainingLength _)
    rw [hd]
    exact ⟨fun h => ⟨hr, h.2⟩, fun h => ⟨remainingLengthBytes_pos _, h.2⟩⟩
  · have hk : ¬remainingLengthBytes f.remaining ≤ 4 := by
      rwa [remainingLengthBytes_le_iff 3]
    have h0 : (decodeRemainingLength (encodeRemainingLength f.remaining ++ f.body)).1 = 0 :=
      decodeLoop_encode_long 4 0 1 0 _ _ (by omega)
    exact ⟨fun h => absurd h.1 (by rw [h0]; decide), fun h => absurd h.1 hr⟩

theorem length_bytes (f : Frame) :
    f.bytes.length = 1 + remainingLengthBytes f.remaining + f.body.length := by
  rw [Frame.bytes, length_cons, length_append, length_encodeRemainingLength]
  omega

theorem puback_faithful (id : UInt16) : (puback id).Faithful := by
  rw [faithful_iff]
  refine ⟨by simp [puback], by simp [puback, Frame.body, Seg.bytes, putU16], ?_⟩
  intro n data h
  simp [puback] at h

section
variable (st : St)

theorem deliver_emits (topic payload : Bytes) : Emits EventOk st (deliver st topic payload) := by
  unfold deliver
  split_ifs
  · exact Emits.note trivial
  · exact Emits.refl _

theorem dispatchTail_emits (qos : UInt8) (topic rest : Bytes) :
    Emits EventOk st (dispatchTail st qos topic rest) := by
  unfold dispatchTail
  by_cases hq : 1 ≤ qos
  · rw [if_pos hq]
    rcases rest with _ | ⟨hi, _ | ⟨lo, payload⟩⟩
    · exact Emits.refl _
    · exact Emits.refl _
    · dsimp only
      split_ifs
      · refine Emits.trans ⟨_, mqttSend_log st _, ?_⟩ (deliver_emits _ _ _)
        simpa [EventOk] using puback_faithful _
      · exact deliver_emits _ _ _
  · rw [if_neg hq]
    exact deliver_emits _ _ _

theorem dispatchPublish_emits (pkt : Bytes) : Emits EventOk st (dispatchPublish st pkt) := by
  unfold dispatchPublish
  cases pkt with
  | nil => split_ifs <;> exact Emits.refl _
  | cons head tail =>
    dsimp only
    split_ifs
    · exact Emits.refl _
    · exact Emits.refl _
    · exact Emits.refl _
    · exact Emits.refl _
    · split
      · split_ifs
        · exact Emits.refl _
        · exact dispatchTail_emits _ _ _ _
      · exact Emits.refl _

theorem scanPackets_emits (expected : UInt8) (fuel : ℕ) (buf : Bytes) :
    Emits EventOk st (scanPackets expected fuel buf st).2 := by
  induction fuel generalizing buf st with
  | zero => exact Emits.refl _
  | succ fuel ih =>
    cases buf with
    | nil => exact Emits.refl _
    | cons head tail =>
      simp only [scanPackets]
      split_ifs
      · exact Emits.refl _
      · exact Emits.refl _
      · exact (dispatchPublish_emits st _).trans (ih _ _)
      · exact ih _ _

theorem mqttWaitFor_emits (expected : UInt8) (n : ℕ) :
    Emits EventOk st (mqttWaitFor expected n st).2 := by
  induction n generalizing st with
  | zero => exact Emits.refl _
  | succ n ih =>
    have hr : Emits EventOk st (mqttRecv st st.client.rxSize).2.2 :=
      Emits.of_log_eq (mqttRecv_log _ _)
    have hs := scanPackets_emits (mqttRecv st st.client.rxSize).2.2 expected
      (mqttRecv st st.client.rxSize).2.1.length (mqttRecv st st.client.rxSize).2.1
    simp only [mqttWaitFor]
    split_ifs
    · exact hr.trans (ih _)
    · exact hr
    · split
      · next st' heq =>
        rw [heq] at hs
        exact hr.trans hs
      · next st' heq =>
        rw [heq] at hs
        exact hr.trans (hs.trans (ih _))

end

inductive Call where
  | connect (cfg : ConnectConfig)
  | publish (topic : Option CString) (payload : Payload) (qos : Qos)
  | subscribe (topic : Option CString) (qos : Qos)
  | unsubscribe (topic : Option CString)

def Call.exec (b : Build) (st : St) : Call → Rc × St
  | .connect cfg => oveMqttConnect b st cfg
  | .publish topic payload qos => oveMqttPublish b st topic payload qos
  | .subscribe topic qos => oveMqttSubscribe b st topic qos
  | .unsubscribe topic => oveMqttUnsubscribe b st topic

def TxCorrect (b : Build) (c : Client) (call : Call) : Prop :=
  ∀ w : World, Emits EventOk ⟨c, w⟩ (call.exec b ⟨c, w⟩).2

def connectRemaining (cfg : ConnectConfig) (cid : CString) : ℕ := (connectFrame cfg cid 0).remaining

def frameSize (remaining : ℕ) : ℕ := 1 + remainingLengthBytes remaining + remaining

def publishLen (topic : CString) (payload : Payload) (qos : Qos) : ℕ :=
  2 + topic.bytes.length + payload.len + if qos = .qos1 then 2 else 0

def ConnectSafe (b : Build) (cfg : ConnectConfig) : Prop :=
  ∀ host cid, cfg.host = some host → cfg.clientId = some cid →
    (0xFFFF < cid.bytes.length ∨ 0xFFFF < optLen cfg.username ∨ 0xFFFF < optLen cfg.password) ∨
      (cfg.useTls = true ∧ b.tls = false) ∨ frameSize (connectRemaining cfg cid) ≤ b.txBuf

/-- The arguments are rejected, or the Remaining Length has at most four digits and no bytes are
announced behind a null pointer. -/
def PublishSafe (c : Client) (topic : CString) (payload : Payload) (qos : Qos) : Prop :=
  (c.connected = false ∨ 0xFFFF < topic.bytes.length ∨ c.txSize < payload.len ∨
    c.txSize < frameSize (publishLen topic payload qos)) ∨
    (publishLen topic payload qos < 128 ^ 4 ∧ ∀ n, payload = .null n → n = 0)

def TxSafe (b : Build) (c : Client) : Call → Prop
  | .connect cfg => ConnectSafe b cfg
  | .publish topic payload qos => ∀ t, topic = some t → PublishSafe c t payload qos
  | .subscribe _ _ => True
  | .unsubscribe _ => True

theorem toNat_ofNat_le {n : ℕ} (h : n ≤ 0xFFFF) : (UInt16.ofNat n).toNat = n := by
  rw [UInt16.toNat_ofNat']
  exact Nat.mod_eq_of_lt (by omega)

theorem length_optField (s : Option CString) :
    ((optField s).flatMap Seg.bytes).length = if s.isSome then 2 + optLen s else 0 := by
  cases s with
  | none => rfl
  | some s => simp [optField, optLen, Seg.bytes, putU16]; omega

theorem mem_optField {s : Option CString} (h : optLen s ≤ 0xFFFF) {n : UInt16} {data : Bytes}
    (hm : Seg.field n data ∈ optField s) : n.toNat = data.length := by
  cases s with
  | none => simp [optField] at hm
  | some s =>
    simp only [optField, mem_singleton, Seg.field.injEq] at hm
    obtain ⟨rfl, rfl⟩ := hm
    exact toNat_ofNat_le h

section
variable (cfg : ConnectConfig) (cid : CString) (ka : UInt16)

theorem length_connectFrame_body :
    (connectFrame cfg cid ka).body.length = (connectFrame cfg cid ka).remaining := by
  simp only [connectFrame, Frame.body, flatMap_append, length_append, length_optField]
  simp [Seg.bytes, putU16, protocolName]
  omega

theorem connectFrame_faithful (hc : cid.bytes.length ≤ 0xFFFF) (hu : optLen cfg.username ≤ 0xFFFF)
    (hp : optLen cfg.password ≤ 0xFFFF) : (connectFrame cfg cid ka).Faithful := by
  rw [faithful_iff]
  refine ⟨?_, (length_connectFrame_body cfg cid ka).symm, fun n data hm => ?_⟩
  · simp only [connectFrame]
    split_ifs <;> omega
  · simp only [connectFrame, mem_append, mem_cons, reduceCtorEq, false_or,
      not_mem_nil, or_false, Seg.field.injEq] at hm
    rcases hm with ((⟨rfl, rfl⟩ | ⟨rfl, rfl⟩) | hm) | hm
    · rfl
    · exact toNat_ofNat_le hc
    · exact mem_optField hu hm
    · exact mem_optField hp hm

end

section
variable {b : Build} {st : St} {topic : CString} {payload : Payload} {qos : Qos}

theorem length_payload_segs (p : Payload) :
    (p.segs.flatMap Seg.bytes).length = p.len ↔ ∀ n, p = .null n → n = 0 := by
  cases p with
  | null n => simp [Payload.segs, Payload.len, eq_comm]
  | bytes data =>
    have h : (Payload.bytes data).segs.flatMap Seg.bytes = data := by
      cases data <;> simp [Payload.segs, Seg.bytes]
    simp [h, Payload.len]

theorem field_not_mem_payload (p : Payload) (n : UInt16) (data : Bytes) :
    Seg.field n data ∉ p.segs := by
  cases p with
  | null n => simp [Payload.segs]
  | bytes d => cases d <;> simp [Payload.segs]

theorem length_publishFrame_body : (publishFrame b st topic payload qos).body.length =
    2 + topic.bytes.length + (if qos = .qos1 then 2 else 0) +
      (payload.segs.flatMap Seg.bytes).length := by
  simp only [publishFrame, Frame.body, cons_append, flatMap_cons, flatMap_append]
  generalize payload.segs.flatMap Seg.bytes = rest
  split_ifs <;> simp [Seg.bytes, putU16] <;> omega

theorem publishFrame_faithful_iff (ht : topic.bytes.length ≤ 0xFFFF)
    (hr : publishRemaining b topic payload qos = publishLen topic payload qos) :
    (publishFrame b st topic payload qos).Faithful ↔
      publishLen topic payload qos < 128 ^ 4 ∧ ∀ n, payload = .null n → n = 0 := by
  have hrem : (publishFrame b st topic payload qos).remaining = publishLen topic payload qos := hr
  rw [faithful_iff, hrem, length_publishFrame_body, ← length_payload_segs]
  refine and_congr_right fun _ => ⟨fun h => ?_, fun h => ⟨?_, fun n data hm => ?_⟩⟩
  · have := h.1
    rw [publishLen] at this
    omega
  · rw [publishLen]
    omega
  · have hid : Seg.field n data ∉
        if qos = .qos1 then [Seg.raw (putU16 st.client.pktId)] else [] := by
      split_ifs <;> simp
    simp only [publishFrame, cons_append, mem_cons, mem_append, Seg.field.injEq,
      hid, field_not_mem_payload, or_false] at hm
    obtain ⟨rfl, rfl⟩ := hm
    exact toNat_ofNat_le ht

theorem transmit_log (st : St) (f : Frame) : (transmit st f).2.world.log =
    st.world.log ++ [.wroteTx f.bytes.length st.client.txSize, .sent f] := by
  rw [transmit, mqttSend_log]
  simp [St.note]

def PublishAccepted (b : Build) (st : St) (topic : CString) (payload : Payload) (qos : Qos) : Prop :=
  st.client.connected = true ∧ topic.bytes.length ≤ 0xFFFF ∧ payload.len ≤ st.client.txSize ∧
    mqttTxFrameFits b st (publishRemaining b topic payload qos)

theorem publish_rejected (h : ¬PublishAccepted b st topic payload qos) :
    oveMqttPublish b st (some topic) payload qos = (.errInvalidParam, st) := by
  simp only [oveMqttPublish]
  by_cases h₁ : st.client.connected = false
  · rw [if_pos h₁]
  by_cases h₂ : 0xFFFF < topic.bytes.length
  · rw [if_neg h₁, if_pos h₂]
  by_cases h₃ : st.client.txSize < payload.len
  · rw [if_neg h₁, if_neg h₂, if_pos h₃]
  by_cases h₄ : mqttTxFrameFits b st (publishRemaining b topic payload qos)
  · exact absurd ⟨by simpa using h₁, by omega, by omega, h₄⟩ h
  · rw [if_neg h₁, if_neg h₂, if_neg h₃, if_pos h₄]

theorem publish_events (h : PublishAccepted b st topic payload qos) :
    ∃ es, (oveMqttPublish b st (some topic) payload qos).2.world.log = st.world.log ++
      (.wroteTx (publishFrame b st topic payload qos).bytes.length st.client.txSize ::
        .sent (publishFrame b st topic payload qos) :: es) ∧ ∀ e ∈ es, EventOk e := by
  obtain ⟨h₁, h₂, h₃, h₄⟩ := h
  have hlog := transmit_log (if qos = .qos1 then bumpPktId st else st)
    (publishFrame b st topic payload qos)
  have hst : (if qos = .qos1 then bumpPktId st else st).world.log = st.world.log ∧
      (if qos = .qos1 then bumpPktId st else st).client.txSize = st.client.txSize := by
    split_ifs <;> exact ⟨rfl, rfl⟩
  rw [hst.1, hst.2] at hlog
  simp only [oveMqttPublish]
  rw [if_neg (by simp [h₁]), if_neg (by omega), if_neg (by omega), if_neg (not_not.mpr h₄)]
  generalize (if qos = .qos1 then bumpPktId st else st) = st₁ at hlog
  split_ifs
  · exact ⟨[], hlog, by simp⟩
  · obtain ⟨es, he, hes⟩ := mqttWaitFor_emits _ 0x40 10
    exact ⟨es, by rw [he, hlog, append_assoc]; rfl, hes⟩
  · exact ⟨[], hlog, by simp⟩

theorem txFrameFits_iff {r : ℕ} (hr : r + 11 < 2 ^ b.arch.bits) :
    mqttTxFrameFits b st r ↔ frameSize r ≤ st.client.txSize := by
  have hd : remainingLengthBytes r ≤ 10 := by
    rw [remainingLengthBytes_le_iff 9]
    have hp : 2 ^ b.arch.bits ≤ 2 ^ 64 := by cases b.arch <;> decide
    exact (by omega : r < 2 ^ b.arch.bits).trans (hp.trans_lt (by norm_num))
  rw [mqttTxFrameFits, Word.wrap_of_lt (by omega), frameSize]

theorem publishRemaining_eq (qos : Qos) (hobj : st.client.txSize < 2 ^ (b.arch.bits - 1))
    (ht : topic.bytes.length ≤ 0xFFFF) (hp : payload.len ≤ st.client.txSize) :
    publishRemaining b topic payload qos = publishLen topic payload qos ∧
      publishLen topic payload qos + 11 < 2 ^ b.arch.bits := by
  have hbits := b.arch.two_pow_bits_ge
  have hhalf := b.arch.two_pow_half
  have hlt : publishLen topic payload qos + 11 < 2 ^ b.arch.bits := by
    unfold publishLen
    split_ifs <;> omega
  exact ⟨Word.wrap_of_lt (by unfold publishLen at hlt; omega), hlt⟩

theorem publishAccepted_iff (hobj : st.client.txSize < 2 ^ (b.arch.bits - 1)) :
    PublishAccepted b st topic payload qos ↔
      ¬(st.client.connected = false ∨ 0xFFFF < topic.bytes.length ∨
        st.client.txSize < payload.len ∨
        st.client.txSize < frameSize (publishLen topic payload qos)) := by
  simp only [PublishAccepted, not_or, Nat.not_lt, Bool.not_eq_false]
  refine and_congr_right fun _ => and_congr_right fun ht => and_congr_right fun hp => ?_
  obtain ⟨he, hlt⟩ := publishRemaining_eq (b := b) qos hobj ht hp
  rw [he, txFrameFits_iff hlt]

end

section
variable {b : Build} {st : St} {topic : CString}

theorem requestFrame_faithful (head : UInt8) {tail : List Seg} {extra : ℕ}
    (ht : topic.bytes.length ≤ 0xFFFF) (hf : ∀ n data, Seg.field n data ∉ tail)
    (hl : (tail.flatMap Seg.bytes).length = extra) (he : extra ≤ 1) :
    (requestFrame st head topic tail extra).Faithful := by
  rw [faithful_iff]
  refine ⟨?_, ?_, fun n data hm => ?_⟩
  · simp only [requestFrame]
    omega
  · simp only [requestFrame, Frame.body, flatMap_append, length_append, hl]
    simp [Seg.bytes, putU16]
    omega
  · simp only [requestFrame, cons_append, nil_append, mem_cons, reduceCtorEq,
      false_or, hf, or_false, Seg.field.injEq] at hm
    obtain ⟨rfl, rfl⟩ := hm
    exact toNat_ofNat_le ht

theorem request_emits (topic : Option CString) (frame : CString → Frame) (ack : UInt8)
    (done : CString → St → St) (hd : ∀ t st, (done t st).world.log = st.world.log)
    (hf : ∀ t, t.bytes.length ≤ 0xFFFF → (frame t).Faithful ∧ (frame t).remaining ≤ 0x10004) :
    Emits EventOk st (request b st topic frame ack done).2 := by
  unfold request
  split
  · exact Emits.refl _
  · next topic =>
    by_cases h₁ : st.client.connected = false
    · rw [if_pos h₁]
      exact Emits.refl _
    by_cases h₂ : 0xFFFF < topic.bytes.length
    · rw [if_neg h₁, if_pos h₂]
      exact Emits.refl _
    by_cases h₃ : mqttTxFrameFits b st (frame topic).remaining
    · obtain ⟨hfaith, hrem⟩ := hf topic (by omega)
      have hp := b.arch.two_pow_bits_ge
      have hbody := ((faithful_iff _).mp hfaith).2.1
      have hfit := (txFrameFits_iff (by omega)).mp h₃
      have htx : Emits EventOk st (transmit (bumpPktId st) (frame topic)).2 := by
        refine ⟨_, transmit_log _ _, ?_⟩
        simp only [mem_cons, not_mem_nil, or_false, forall_eq_or_imp, forall_eq, EventOk]
        refine ⟨?_, hfaith⟩
        rw [length_bytes, ← hbody]
        exact hfit
      rw [if_neg h₁, if_neg h₂, if_neg (not_not.mpr h₃)]
      dsimp only
      split_ifs
      · exact htx
      · exact htx.trans (mqttWaitFor_emits _ _ _)
      · exact (htx.trans (mqttWaitFor_emits _ _ _)).trans (Emits.of_log_eq (hd _ _))
    · rw [if_neg h₁, if_neg h₂, if_pos h₃]
      exact Emits.refl _

theorem subscribe_emits (topic : Option CString) (qos : Qos) :
    Emits EventOk st (oveMqttSubscribe b st topic qos).2 := by
  refine request_emits topic _ _ _ (fun t st => ?_) fun t ht => ⟨?_, ?_⟩
  · unfold storeFilter
    split_ifs <;> rfl
  · exact requestFrame_faithful _ ht (by simp) (by simp [Seg.bytes]) le_rfl
  · simp only [requestFrame]
    omega

theorem unsubscribe_emits (topic : Option CString) :
    Emits EventOk st (oveMqttUnsubscribe b st topic).2 := by
  refine request_emits topic _ _ _ (fun _ _ => rfl) fun t ht => ⟨?_, ?_⟩
  · exact requestFrame_faithful _ ht (by simp) rfl (by omega)
  · simp only [requestFrame]
    omega

end

section
variable {P : Event → Prop} {st st' : St}

theorem note_log (e : Event) : (st.note e).world.log = st.world.log ++ [e] := rfl

theorem Emits.andNote (h : Emits EventOk st st') {e : Event} (he : EventOk e) :
    Emits EventOk st (st'.note e) :=
  h.trans (Emits.note he)

theorem Emits.fail (ht : P .tlsEnded) (hs : P .socketClosed) (h : Emits P st st') :
    Emits P st (closeSocket (dropTls st')) := by
  unfold dropTls
  split_ifs
  · exact (h.trans (Emits.note ht)).trans (Emits.note hs)
  · exact h.trans (Emits.note hs)

end

section
variable {st : St}

theorem Emits.ask {st' : St} (h : Emits EventOk st st') (e : Ext) :
    Emits EventOk st (st'.ask e).2 :=
  h.trans (Emits.of_log_eq (ask_log _ _))

theorem Emits.alloc {st' : St} (h : Emits EventOk st st') (p : Prop) [Decidable p] (e : Ext) :
    Emits EventOk st (if p then st'.note (.allocated e) else st') := by
  split_ifs
  · exact h.andNote trivial
  · exact h

variable (b : Build) (st : St) (cfg : ConnectConfig)

theorem acquireBuffers_spec : Emits EventOk st (acquireBuffers b st).2 ∧
    (acquireBuffers b st).2.client.txSize = b.txBuf := by
  have h₀ : Emits EventOk st
      { st with client := { st.client with rxSize := b.rxBuf, txSize := b.txBuf } } :=
    Emits.of_log_eq rfl
  unfold acquireBuffers
  by_cases hz : b.zeroHeap = true
  · rw [if_pos hz]
    exact ⟨h₀, rfl⟩
  · rw [if_neg hz]
    refine ⟨((((h₀.ask _).alloc _ _).ask _).alloc _ _), ?_⟩
    dsimp only
    split_ifs <;> simp

theorem openTransport_keeps {Q : St → Prop} (hask : ∀ st e, Q st → Q (st.ask e).2)
    (hnote : ∀ st, ∀ e ∈ [Event.socketOpened, .socketClosed, .tlsStarted, .tlsEnded],
      Q st → Q (st.note e))
    (hsock : ∀ (st : St) (sock : Bool), Q st →
      Q { st with client := { st.client with sock := sock } })
    (htls : ∀ st : St, Q st → Q { st with client := { st.client with tls := true } })
    (h : Q st) : Q (openTransport b st cfg).2 := by
  have hclose : ∀ st, Q st → Q (closeSocket st) := fun st h =>
    hsock _ false (hnote st .socketClosed (by simp) h)
  have hdns := hask _ .dnsResolve h
  have hopen := hask _ .socketOpen hdns
  have hconnect := hask _ .socketConnect
    (hsock _ true (hnote _ .socketOpened (by simp) hopen))
  have hinit := hask _ .tlsInit hconnect
  have hshake := hask _ .tlsHandshake (hnote _ .tlsStarted (by simp) hinit)
  -- one state for each way out, in the order of the source
  refine iteInduction (motive := fun r : Rc × St => Q r.2) (fun _ => hdns) fun _ => ?_
  refine iteInduction (motive := fun r : Rc × St => Q r.2) (fun _ => hopen) fun _ => ?_
  refine iteInduction (motive := fun r : Rc × St => Q r.2) (fun _ => hclose _ hconnect) fun _ => ?_
  refine iteInduction (motive := fun r : Rc × St => Q r.2) (fun _ => hconnect) fun _ => ?_
  refine iteInduction (motive := fun r : Rc × St => Q r.2) (fun _ => hclose _ hconnect) fun _ => ?_
  refine iteInduction (motive := fun r : Rc × St => Q r.2) (fun _ => hclose _ hinit) fun _ => ?_
  refine iteInduction (motive := fun r : Rc × St => Q r.2) (fun _ => ?_) fun _ => ?_
  · exact hclose _ (hnote _ .tlsEnded (by simp) hshake)
  · exact htls _ hshake

theorem openTransport_emits : Emits EventOk st (openTransport b st cfg).2 := by
  refine openTransport_keeps b st cfg (fun _ e h => h.ask e) (fun _ e he h => h.andNote ?_)
    (fun _ _ h => h) (fun _ h => h) (Emits.refl st)
  fin_cases he <;> trivial

theorem openTransport_txSize : (openTransport b st cfg).2.client.txSize = st.client.txSize :=
  openTransport_keeps b st cfg (Q := fun st' => st'.client.txSize = st.client.txSize)
    (fun _ _ h => by rwa [ask_client]) (fun _ _ _ h => h) (fun _ _ h => h) (fun _ h => h) rfl

theorem openTransport_noTls (hu : cfg.useTls = true) (hb : b.tls = false) :
    (openTransport b st cfg).1 ≠ .ok := by
  unfold openTransport
  dsimp only
  split_ifs <;> simp_all

theorem handshake_rest {P : Event → Prop} (ht : P .tlsEnded) (hs : P .socketClosed) (f : Frame) :
    Emits P (mqttSend (st.note (.wroteTx f.bytes.length st.client.txSize)) f).2
      (handshake st f).2 := by
  have h₁ := Emits.refl (P := P) (mqttSend (st.note (.wroteTx f.bytes.length st.client.txSize)) f).2
  have h₂ := h₁.trans (Emits.of_log_eq (mqttRecv_log _ 4))
  unfold handshake failConnect
  dsimp only
  split_ifs
  · exact h₁.fail ht hs
  · exact h₂.fail ht hs
  · split
    · split_ifs
      · exact h₂.fail ht hs
      · exact h₂
    · exact h₂.fail ht hs

theorem handshake_log (f : Frame) : ∃ es, (handshake st f).2.world.log =
    st.world.log ++ .wroteTx f.bytes.length st.client.txSize :: .sent f :: es ∧
      ∀ e ∈ es, EventOk e := by
  obtain ⟨es, he, hp⟩ := handshake_rest st (P := EventOk) trivial trivial f
  exact ⟨es, by rw [he, mqttSend_log, note_log]; simp, hp⟩

theorem length_connectFrame (cid : CString) (ka : UInt16) :
    (connectFrame cfg cid ka).bytes.length = frameSize (connectRemaining cfg cid) := by
  rw [length_bytes, length_connectFrame_body]
  rfl

variable {b cfg}

theorem connect_emits (h : ConnectSafe b cfg) : Emits EventOk st (oveMqttConnect b st cfg).2 := by
  obtain ⟨hb, hsize⟩ := acquireBuffers_spec b st
  unfold oveMqttConnect
  split
  · next host cid hhost hcid =>
    have ht := hb.trans (openTransport_emits b (configure (acquireBuffers b st).2 cfg) cfg)
    have hts := openTransport_txSize b (configure (acquireBuffers b st).2 cfg) cfg
    dsimp only
    split_ifs with h₁ h₂ h₃
    · exact hb
    · exact ht
    · exact ht
    · -- the packet is built: its three lengths are small and TLS, if asked for, is there
      have hfit : frameSize (connectRemaining cfg cid) ≤ b.txBuf := by
        rcases h host cid hhost hcid with h | ⟨hu, hn⟩ | h
        · exact absurd h h₃
        · exact absurd (not_not.mp h₂) (openTransport_noTls _ _ _ hu hn)
        · exact h
      obtain ⟨es, he, hes⟩ := handshake_log (openTransport b
        (configure (acquireBuffers b st).2 cfg) cfg).2 (connectFrame cfg cid (keepAlive cfg))
      refine ht.trans ⟨_, he, ?_⟩
      rw [forall_mem_cons, forall_mem_cons]
      refine ⟨?_, connectFrame_faithful _ _ _ (by omega) (by omega) (by omega), hes⟩
      simp only [EventOk, length_connectFrame, hts]
      exact hfit.trans hsize.ge
  · exact Emits.refl _

def Willing (st : St) : Prop := ∀ e, st.world.answers e = []

theorem Willing.ask {st : St} (h : Willing st) (e : Ext) : st.ask e = (.ok, st) := by
  unfold St.ask
  rw [h e]

theorem Willing.acquireBuffers {st : St} (h : Willing st) :
    (acquireBuffers b st).1 = .ok ∧ Willing (acquireBuffers b st).2 := by
  have h₀ : Willing
      { st with client := { st.client with rxSize := b.rxBuf, txSize := b.txBuf } } := h
  have h₁ : Willing (St.note { st with client :=
      { st.client with rxSize := b.rxBuf, txSize := b.txBuf } } (.allocated .mallocRx)) := h
  unfold Mqtt.acquireBuffers
  by_cases hz : b.zeroHeap = true
  · rw [if_pos hz]
    exact ⟨rfl, h⟩
  · rw [if_neg hz]
    simp only [h₀.ask, if_true, h₁.ask, and_self]
    exact ⟨trivial, h⟩

theorem Willing.openTransport {st : St} (h : Willing st)
    (ht : ¬(cfg.useTls = true ∧ b.tls = false)) : (openTransport b st cfg).1 = .ok := by
  have h₁ : Willing { st.note .socketOpened with client := { st.client with sock := true } } := h
  have h₂ : Willing (St.note { st.note .socketOpened with client :=
      { st.client with sock := true } } .tlsStarted) := h
  unfold Mqtt.openTransport
  simp only [h.ask, h₁.ask, h₂.ask, ne_eq, not_true_eq_false, if_false]
  split_ifs with hu hb
  · rfl
  · exact absurd ⟨by simpa using hu, hb⟩ ht
  · rfl

def quiet : World := ⟨fun _ => [], [], []⟩

theorem connect_overruns {c : Client} (h : ¬ConnectSafe b cfg) :
    ¬Emits EventOk ⟨c, quiet⟩ (oveMqttConnect b ⟨c, quiet⟩ cfg).2 := by
  unfold ConnectSafe at h
  push Not at h
  obtain ⟨host, cid, hhost, hcid, hlen, htls, hbig⟩ := h
  have hw : Willing ⟨c, quiet⟩ := fun _ => rfl
  obtain ⟨hb, hsize⟩ := acquireBuffers_spec b ⟨c, quiet⟩
  obtain ⟨hok, hw'⟩ := hw.acquireBuffers (b := b)
  have hw'' : Willing (configure (acquireBuffers b ⟨c, quiet⟩).2 cfg) := hw'
  have hopen := hw''.openTransport (b := b) (fun hu => htls hu.1 hu.2)
  have ht := hb.trans (openTransport_emits b (configure (acquireBuffers b ⟨c, quiet⟩).2 cfg) cfg)
  have hts := openTransport_txSize b (configure (acquireBuffers b ⟨c, quiet⟩).2 cfg) cfg
  obtain ⟨es, he, -⟩ := handshake_log (openTransport b
    (configure (acquireBuffers b ⟨c, quiet⟩).2 cfg) cfg).2 (connectFrame cfg cid (keepAlive cfg))
  have hrun : (oveMqttConnect b ⟨c, quiet⟩ cfg).2 = (handshake (openTransport b
      (configure (acquireBuffers b ⟨c, quiet⟩).2 cfg) cfg).2
      (connectFrame cfg cid (keepAlive cfg))).2 := by
    unfold oveMqttConnect
    rw [hhost, hcid]
    dsimp only
    rw [if_neg (not_not.mpr hok), if_neg (not_not.mpr hopen), if_neg (by omega)]
  obtain ⟨fs, hf, -⟩ := ht
  rw [hrun]
  intro hem
  rw [hf, append_assoc] at he
  have hbad := hem.mem he (mem_append_right fs (mem_cons_self ..))
  simp only [EventOk, length_connectFrame, hts] at hbad
  exact absurd (hbad.trans hsize.le) (by omega)

end

theorem connect_not_correct {b : Build} {cfg : ConnectConfig} (c : Client)
    (h : ¬ConnectSafe b cfg) : ¬TxCorrect b c (.connect cfg) :=
  fun hc => connect_overruns h (hc quiet)

theorem publish_emits_iff {b : Build} {st : St} {topic : CString} {payload : Payload} {qos : Qos}
    (hobj : st.client.txSize < 2 ^ (b.arch.bits - 1)) :
    Emits EventOk st (oveMqttPublish b st (some topic) payload qos).2 ↔
      PublishSafe st.client topic payload qos := by
  by_cases ha : PublishAccepted b st topic payload qos
  · have hpass := (publishAccepted_iff hobj).mp ha
    have hrem := (publishRemaining_eq qos hobj ha.2.1 ha.2.2.1).1
    have hfit : frameSize (publishLen topic payload qos) ≤ st.client.txSize := by omega
    obtain ⟨es, he, hes⟩ := publish_events ha
    unfold PublishSafe
    rw [or_iff_right hpass, ← publishFrame_faithful_iff ha.2.1 hrem]
    constructor
    · intro hem
      have hsent : EventOk (.sent (publishFrame b st topic payload qos)) := hem.mem he (by simp)
      exact hsent
    · refine fun hf => ⟨_, he, ?_⟩
      rw [forall_mem_cons, forall_mem_cons]
      refine ⟨?_, hf, hes⟩
      have hbody := ((faithful_iff _).mp hf).2.1
      have hsize : frameSize (publishRemaining b topic payload qos) ≤ st.client.txSize := by
        rwa [hrem]
      simp only [EventOk, length_bytes, ← hbody]
      exact hsize
  · rw [publish_rejected ha]
    refine iff_of_true (Emits.refl _) (Or.inl ?_)
    rwa [publishAccepted_iff hobj, not_not] at ha

/-- The four calls stay inside the tx buffer and send consistent packets exactly for `TxSafe`
arguments. -/
theorem tx_correct_iff (b : Build) (c : Client) (call : Call)
    (hobj : c.txSize < 2 ^ (b.arch.bits - 1)) : TxCorrect b c call ↔ TxSafe b c call := by
  cases call with
  | connect cfg =>
    refine ⟨fun h => ?_, fun h w => connect_emits _ h⟩
    by_contra hn
    exact connect_not_correct c hn h
  | publish topic payload qos =>
    cases topic with
    | none => exact iff_of_true (fun w => Emits.refl _) (fun t ht => nomatch ht)
    | some topic =>
      refine ⟨fun h t ht => ?_, fun h w => (publish_emits_iff hobj).mpr (h topic rfl)⟩
      cases ht
      exact (publish_emits_iff hobj).mp (h quiet)
  | subscribe topic qos => exact iff_of_true (fun w => subscribe_emits topic qos) trivial
  | unsubscribe topic => exact iff_of_true (fun w => unsubscribe_emits topic) trivial

def smallBuild : Build := ⟨.arm32, true, false, 1024, 512, 8⟩

def smallClient : Client := ⟨true, false, 1024, 512, 60, 1, true, [], true⟩

def topicT : CString := ⟨[0x74], by simp⟩

theorem publish_three_bytes_correct :
    TxCorrect smallBuild smallClient (.publish (some topicT) (.bytes [1, 2, 3]) .qos1) := by
  refine (tx_correct_iff smallBuild smallClient _ (by decide)).mpr fun t ht => ?_
  cases ht
  exact Or.inr ⟨by decide, fun n hn => nomatch hn⟩

def longId : CString := ⟨replicate 600 0x61, fun b hb => by rw [eq_of_mem_replicate hb]; decide⟩

def longClientId : ConnectConfig where
  host := some topicT
  clientId := some longId
  username := none
  password := none
  keepAliveS := 60
  useTls := false
  onMessage := true

theorem tx_overrun_and_short_packet :
    ¬TxCorrect smallBuild smallClient (.connect longClientId) ∧
      ¬TxCorrect smallBuild smallClient (.publish (some topicT) (.null 5) .qos0) := by
  constructor
  · refine connect_not_correct smallClient fun hs => ?_
    have hlen : longId.bytes.length = 600 := length_replicate
    have hrem : connectRemaining longClientId longId = 612 := by
      simp only [connectRemaining, connectFrame, longClientId, Option.isSome_none,
        Bool.false_eq_true, if_false, hlen]
    rcases hs topicT longId rfl rfl with (h | h | h) | ⟨h, -⟩ | h
    · omega
    · exact absurd h (by decide)
    · exact absurd h (by decide)
    · exact absurd h (by decide)
    · rw [hrem, frameSize] at h
      have htx : smallBuild.txBuf = 512 := rfl
      omega
  · intro h
    have hs := (publish_emits_iff (b := smallBuild) (by decide)).mp (h quiet)
    have hone : remainingLengthBytes 8 = 1 := by rw [remainingLengthBytes]; rfl
    rcases hs with (h | h | h | h) | ⟨-, h⟩
    · simp [smallClient] at h
    · simp [topicT] at h
    · simp [smallClient, Payload.len] at h
    · have h8 : publishLen topicT (.null 5) .qos0 = 8 := rfl
      rw [h8, frameSize, hone] at h
      simp [smallClient] at h
    · exact absurd (h 5 rfl) (by decide)

end Overtos.Mqtt
