import Overtos.Mqtt.Transmit

/-! Which of the broker's messages reach the callback, however they are read. -/
namespace Overtos.Mqtt
open List

open CStr (Bytes CString)

def packetType (head : UInt8) : UInt8 := head &&& 0xF0

def publishQos (head : UInt8) : UInt8 := (head >>> 1) &&& 3

def publishBody (head : UInt8) (topic : Bytes) (id : UInt16) (payload : Bytes) : Bytes :=
  putU16 (UInt16.ofNat topic.length) ++ topic ++
    ((if 1 ≤ publishQos head then putU16 id else []) ++ payload)

structure Publish where
  head : UInt8
  topic : Bytes
  id : UInt16
  payload : Bytes
  isPublish : packetType head = mqttPublish
  topic_le : topic.length ≤ 0xFFFF
  size_lt : (publishBody head topic id payload).length < 128 ^ 4

structure Ack where
  head : UInt8
  body : Bytes
  notPublish : packetType head ≠ mqttPublish
  size_lt : body.length < 128 ^ 4

inductive Packet where
  | publish (p : Publish)
  | ack (a : Ack)

def Packet.head : Packet → UInt8
  | .publish p => p.head
  | .ack a => a.head

def Packet.body : Packet → Bytes
  | .publish p => publishBody p.head p.topic p.id p.payload
  | .ack a => a.body

def Packet.bytes (p : Packet) : Bytes := p.head :: (encodeRemainingLength p.body.length ++ p.body)

def Packet.message : Packet → Option Message
  | .publish p => some ⟨p.topic, p.payload⟩
  | .ack _ => none

def messages (g : List Packet) : List Message := g.filterMap Packet.message

def deliveries (log : List Event) : List Message :=
  log.filterMap fun
    | .delivered m => some m
    | _ => none

structure Hears (st st' : St) (ms : List Message) : Prop where
  client : st'.client = st.client
  inbox : st'.world.inbox = st.world.inbox
  heard : deliveries st'.world.log = deliveries st.world.log ++ ms

section
variable {st st' st'' : St} {ms ns : List Message}

theorem Hears.refl (st : St) : Hears st st [] := ⟨rfl, rfl, by simp⟩

theorem Hears.trans (h : Hears st st' ms) (h' : Hears st' st'' ns) : Hears st st'' (ms ++ ns) :=
  ⟨h'.client.trans h.client, h'.inbox.trans h.inbox, by
    rw [h'.heard, h.heard, append_assoc]⟩

theorem Hears.ask (st : St) (e : Ext) : Hears st (st.ask e).2 [] := by
  refine ⟨ask_client st e, ?_, by rw [ask_log]; simp⟩
  unfold St.ask
  split <;> rfl

theorem Hears.send (st : St) (f : Frame) : Hears st (mqttSend st f).2 [] :=
  (⟨rfl, rfl, by simp [note_log, deliveries]⟩ : Hears st (st.note (.sent f)) []).trans (.ask _ _)

theorem Hears.transmit (st : St) (f : Frame) : Hears st (transmit st f).2 [] :=
  (⟨rfl, rfl, by simp [note_log, deliveries]⟩ :
    Hears st (st.note (.wroteTx f.bytes.length st.client.txSize)) []).trans (.send _ _)

def admitted (st : St) (ms : List Message) : List Message :=
  ms.filter fun m => mqttAnySubMatches st m.topic

theorem admitted_append (ms ns : List Message) :
    admitted st (ms ++ ns) = admitted st ms ++ admitted st ns := filter_append ..

theorem admitted_congr (h : st'.client = st.client) : admitted st' ms = admitted st ms := by
  unfold admitted mqttAnySubMatches
  rw [h]

theorem deliver_hears (topic payload : Bytes) :
    Hears st (deliver st topic payload) (admitted st [⟨topic, payload⟩]) := by
  unfold deliver admitted
  cases hm : mqttAnySubMatches st topic with
  | false => simpa [hm] using Hears.refl st
  | true => exact ⟨rfl, rfl, by simp [hm, note_log, deliveries]⟩

end

section
variable {st : St}

theorem decode_packet (p : Packet) (rest : Bytes) :
    decodeRemainingLength (encodeRemainingLength p.body.length ++ p.body ++ rest) =
      (remainingLengthBytes p.body.length, p.body.length) := by
  have hlt : p.body.length < 128 ^ 4 := by
    cases p with
    | publish p => exact p.size_lt
    | ack a => exact a.size_lt
  rw [append_assoc]
  exact decodeRemainingLength_encode hlt _

theorem length_packet (p : Packet) :
    p.bytes.length = 1 + remainingLengthBytes p.body.length + p.body.length := by
  rw [Packet.bytes, length_cons, length_append, length_encodeRemainingLength]
  omega

theorem mqttPacketLen_packet (p : Packet) (rest : Bytes) :
    mqttPacketLen (p.bytes ++ rest) = p.bytes.length := by
  have hd := decode_packet p rest
  have hl := length_packet p
  have hpos := remainingLengthBytes_pos p.body.length
  have hne : encodeRemainingLength p.body.length ++ p.body ++ rest ≠ [] := by
    refine ne_nil_of_length_pos ?_
    rw [length_append, length_append, length_encodeRemainingLength]
    omega
  have hb : p.bytes ++ rest =
      p.head :: (encodeRemainingLength p.body.length ++ p.body ++ rest) := by
    simp [Packet.bytes]
  have hlen : (p.bytes ++ rest).length = p.bytes.length + rest.length := length_append
  rw [hb] at hlen ⊢
  obtain ⟨b, bs, hbs⟩ := exists_cons_of_ne_nil hne
  rw [hbs] at hd hlen ⊢
  simp only [mqttPacketLen, hd]
  rw [if_neg (by omega), if_pos (by omega)]
  omega

theorem dispatchPublish_publish (hm : st.client.onMessage = true) (p : Publish) (rest : Bytes) :
    dispatchPublish st ((Packet.publish p).bytes ++ rest) =
      dispatchTail st (publishQos p.head) p.topic
        ((if 1 ≤ publishQos p.head then putU16 p.id else []) ++ p.payload) := by
  have hd := decode_packet (.publish p) rest
  have hpos := remainingLengthBytes_pos (Packet.publish p).body.length
  have hlen := length_encodeRemainingLength (Packet.publish p).body.length
  have hb : (Packet.publish p).bytes ++ rest = p.head ::
      (encodeRemainingLength (Packet.publish p).body.length ++
        (Packet.publish p).body ++ rest) := by
    simp [Packet.bytes, Packet.head]
  have hdrop : (encodeRemainingLength (Packet.publish p).body.length ++ (Packet.publish p).body ++
      rest).drop (remainingLengthBytes (Packet.publish p).body.length) =
      (Packet.publish p).body ++ rest := by
    rw [append_assoc]
    exact drop_left' hlen
  have htot : (encodeRemainingLength (Packet.publish p).body.length ++ (Packet.publish p).body ++
      rest).length = remainingLengthBytes (Packet.publish p).body.length +
      (Packet.publish p).body.length + rest.length := by
    rw [length_append, length_append, hlen]
  have hne : encodeRemainingLength (Packet.publish p).body.length ++ (Packet.publish p).body ++
      rest ≠ [] := ne_nil_of_length_pos (by omega)
  have htlen : (getU16 (UInt16.ofNat p.topic.length >>> 8).toUInt8
      (UInt16.ofNat p.topic.length &&& 0xFF).toUInt8).toNat = p.topic.length := by
    rw [getU16_putU16]
    exact toNat_ofNat_le p.topic_le
  rw [hb]
  unfold dispatchPublish
  rw [if_neg (by simp [hm])]
  dsimp only
  rw [if_neg hne, hd]
  dsimp only
  rw [if_neg (by omega), if_neg (by omega), hdrop, take_left]
  simp only [Packet.body, publishBody, putU16, cons_append, nil_append, htlen]
  rw [if_neg (by rw [length_append]; omega), take_left, drop_left]
  rfl

theorem dispatchPublish_hears (hm : st.client.onMessage = true) (p : Publish) (rest : Bytes) :
    Hears st (dispatchPublish st ((Packet.publish p).bytes ++ rest))
      (admitted st [⟨p.topic, p.payload⟩]) := by
  rw [dispatchPublish_publish hm]
  unfold dispatchTail
  by_cases hq : 1 ≤ publishQos p.head
  · rw [if_pos hq, if_pos hq]
    simp only [putU16, cons_append, nil_append]
    split_ifs
    · have hs := Hears.send st (puback (getU16 (p.id >>> 8).toUInt8 (p.id &&& 0xFF).toUInt8))
      rw [← admitted_congr hs.client]
      exact hs.trans (deliver_hears _ _)
    · exact deliver_hears _ _
  · rw [if_neg hq, if_neg hq]
    exact deliver_hears _ _

def beforeAck (t : UInt8) (g : List Packet) : List Packet :=
  g.takeWhile fun p => packetType p.head ≠ t

def rawBytes (g : List Packet) : Bytes := g.flatMap Packet.bytes

theorem scanPackets_hears (t : UInt8) (hm : st.client.onMessage = true)
    (g : List Packet) {fuel : ℕ} (hf : (rawBytes g).length ≤ fuel) :
    Hears st (scanPackets t fuel (rawBytes g) st).2 (admitted st (messages (beforeAck t g))) := by
  induction g generalizing st fuel with
  | nil => cases fuel <;> exact Hears.refl st
  | cons p g ih =>
    have hcons : rawBytes (p :: g) = p.bytes ++ rawBytes g := rfl
    have hlen := length_packet p
    rw [hcons, length_append] at hf
    obtain ⟨fuel, rfl⟩ := Nat.exists_eq_succ_of_ne_zero (by omega : fuel ≠ 0)
    have hpl := mqttPacketLen_packet p (rawBytes g)
    have hhead : p.bytes ++ rawBytes g = p.head ::
        (encodeRemainingLength p.body.length ++ p.body ++ rawBytes g) := by simp [Packet.bytes]
    have hscan : scanPackets t (fuel + 1) (rawBytes (p :: g)) st =
        if packetType p.head = t then (true, st)
        else scanPackets t fuel (rawBytes g)
          (if packetType p.head = mqttPublish then dispatchPublish st p.bytes else st) := by
      rw [hcons, hhead, scanPackets, ← hhead, hpl, if_neg (by omega), take_left, drop_left]
      rfl
    rw [hscan, beforeAck]
    by_cases hp : packetType p.head = t
    · rw [if_pos hp, takeWhile_cons_of_neg (by simp [hp])]
      exact Hears.refl st
    · rw [if_neg hp, takeWhile_cons_of_pos (by simp [hp])]
      cases p with
      | publish q =>
        have hd := dispatchPublish_hears hm q []
        rw [append_nil] at hd
        have hq : packetType (Packet.publish q).head = mqttPublish := q.isPublish
        rw [if_pos hq]
        have hm' : (dispatchPublish st (Packet.publish q).bytes).client.onMessage = true := by
          rw [hd.client]
          exact hm
        have hi := @ih _ hm' fuel (by omega)
        rw [admitted_congr hd.client] at hi
        have hall := hd.trans hi
        rwa [← admitted_append] at hall
      | ack a =>
        have ha : packetType (Packet.ack a).head ≠ mqttPublish := a.notPublish
        rw [if_neg ha]
        exact ih hm (by omega)

end

structure Read where
  rc : Rc
  packets : List Packet
  empty : rc ≠ .ok → packets = []

def Read.result (r : Read) : Rc × Bytes := (r.rc, rawBytes r.packets)

def attended : Option UInt8 → List Packet → List Packet
  | none, g => g.take 1
  | some t, g => beforeAck t g

def heardOf (st : St) (ack : Option UInt8) (rs : List Read) : List Message :=
  rs.flatMap fun r => admitted st (messages (attended ack r.packets))

structure Takes (ack : Option UInt8) (script : List Read) (st st' : St) (k : ℕ) : Prop where
  le : k ≤ script.length
  inbox : st'.world.inbox = (script.drop k).map Read.result
  heard : deliveries st'.world.log = deliveries st.world.log ++ heardOf st ack (script.take k)

section
variable {st st' st'' : St} {script : List Read} {ack : Option UInt8} {k : ℕ}

theorem heardOf_congr (h : st'.client = st.client) (rs : List Read) :
    heardOf st' ack rs = heardOf st ack rs := by
  unfold heardOf
  simp only [admitted_congr h]

theorem Takes.none (h : Hears st st' []) (hin : st.world.inbox = script.map Read.result) :
    Takes ack script st st' 0 :=
  ⟨Nat.zero_le _, by rw [h.inbox, hin, drop_zero], by simpa [heardOf] using h.heard⟩

variable {r : Read} {rs : List Read}

theorem Takes.cons (hc : st'.client = st.client)
    (hh : deliveries st'.world.log = deliveries st.world.log ++ heardOf st ack [r])
    (ht : Takes ack rs st' st'' k) : Takes ack (r :: rs) st st'' (k + 1) := by
  refine ⟨Nat.succ_le_succ ht.le, ht.inbox, ?_⟩
  rw [ht.heard, hh, heardOf_congr hc, take_succ_cons, append_assoc]
  simp [heardOf]

theorem Takes.after_hears (h : Hears st st' []) (ht : Takes ack script st' st'' k) :
    Takes ack script st st'' k :=
  ⟨ht.le, ht.inbox, by rw [ht.heard, h.heard, append_nil, heardOf_congr h.client]⟩

theorem Takes.of_bump (ht : Takes ack script (bumpPktId st) st' k) : Takes ack script st st' k := by
  refine ⟨ht.le, ht.inbox, ?_⟩
  have hf : heardOf (bumpPktId st) ack (script.take k) = heardOf st ack (script.take k) := rfl
  rw [ht.heard, hf]
  rfl

def withReads (st : St) (rs : List Read) : St :=
  { st with world := { st.world with inbox := rs.map Read.result } }

theorem mqttRecv_cons (hin : st.world.inbox = (r :: rs).map Read.result) {n : ℕ}
    (hl : (rawBytes r.packets).length ≤ n) :
    mqttRecv st n = (r.rc, rawBytes r.packets, withReads st rs) := by
  unfold mqttRecv
  rw [hin, map_cons]
  simp only [Read.result, hl, if_true, take_of_length_le, withReads]

theorem heardOf_failed (h : r.rc ≠ .ok) : deliveries (withReads st rs).world.log =
      deliveries st.world.log ++ heardOf st ack [r] := by
  have hp := r.empty h
  cases ack <;> simp [heardOf, hp, attended, beforeAck, messages, admitted, withReads]

theorem mqttWaitFor_takes (t : UInt8) (n : ℕ) (hm : st.client.onMessage = true)
    (hin : st.world.inbox = script.map Read.result)
    (hs : ∀ r ∈ script, (rawBytes r.packets).length ≤ st.client.rxSize) :
    ∃ k, Takes (some t) script st (mqttWaitFor t n st).2 k ∧
      (mqttWaitFor t n st).2.client = st.client := by
  induction n generalizing st script with
  | zero => exact ⟨0, Takes.none (Hears.refl st) hin, rfl⟩
  | succ n ih =>
    cases script with
    | nil =>
      have hr : mqttRecv st st.client.rxSize = (.errTimeout, [], st) := by
        unfold mqttRecv
        rw [hin]
        rfl
      simp only [mqttWaitFor, hr, if_true]
      exact ih hm hin hs
    | cons r rs =>
      have hr := mqttRecv_cons hin (hs r (by simp))
      have hrs : ∀ r ∈ rs, (rawBytes r.packets).length ≤ st.client.rxSize :=
        fun x hx => hs x (by simp [hx])
      have hw : (withReads st rs).client = st.client := rfl
      simp only [mqttWaitFor, hr]
      by_cases ht : r.rc = .errTimeout
      · rw [if_pos ht]
        obtain ⟨k, hk, hc⟩ := @ih (withReads st rs) rs hm rfl hrs
        exact ⟨k + 1, Takes.cons hw (heardOf_failed (by rw [ht]; decide)) hk, hc⟩
      · rw [if_neg ht]
        by_cases hok : r.rc = .ok
        · rw [if_neg (not_not.mpr hok)]
          have hsc := @scanPackets_hears (withReads st rs) t hm r.packets _ le_rfl
          generalize scanPackets t (rawBytes r.packets).length (rawBytes r.packets)
            (withReads st rs) = found at hsc ⊢
          have hh : deliveries found.2.world.log =
              deliveries st.world.log ++ heardOf st (some t) [r] := by
            rw [hsc.heard, admitted_congr hw, heardOf, flatMap_singleton]
            rfl
          have hin' : found.2.world.inbox = rs.map Read.result := hsc.inbox
          have hc' : found.2.client = st.client := hsc.client
          obtain ⟨_ | _, st'⟩ := found
          · obtain ⟨k, hk, hc⟩ := @ih st' rs (by rw [hc']; exact hm) hin' (by rwa [hc'])
            exact ⟨k + 1, Takes.cons hc' hh hk, hc.trans hc'⟩
          · exact ⟨1, Takes.cons hc' hh (Takes.none (Hears.refl _) hin'), hc'⟩
        · rw [if_pos hok]
          exact ⟨1, Takes.cons hw (heardOf_failed hok) (Takes.none (Hears.refl _) rfl), rfl⟩

end

inductive Api where
  | loop
  | publish (topic : Option CString) (payload : Payload) (qos : Qos)
  | subscribe (topic : Option CString) (qos : Qos)
  | unsubscribe (topic : Option CString)

def Api.exec (b : Build) (st : St) : Api → Rc × St
  | .loop => oveMqttLoop st
  | .publish topic payload qos => oveMqttPublish b st topic payload qos
  | .subscribe topic qos => oveMqttSubscribe b st topic qos
  | .unsubscribe topic => oveMqttUnsubscribe b st topic

def Api.ack : Api → Option UInt8
  | .loop => none
  | .publish _ _ _ => some 0x40
  | .subscribe _ _ => some 0x90
  | .unsubscribe _ => some 0xB0

def SameEars (st st' : St) : Prop :=
  st'.client.onMessage = st.client.onMessage ∧ st'.client.rxSize = st.client.rxSize

section
variable {b : Build} {st : St} {script : List Read} (hm : st.client.onMessage = true)
  (hin : st.world.inbox = script.map Read.result)
  (hs : ∀ r ∈ script, (rawBytes r.packets).length ≤ st.client.rxSize)
include hm hin hs

omit hin hs in
theorem processReceived_hears (g : List Packet) :
    Hears st (processReceived st (rawBytes g)) (admitted st (messages (g.take 1))) := by
  cases g with
  | nil => exact Hears.refl st
  | cons p g =>
    have hraw : rawBytes (p :: g) = p.head ::
        (encodeRemainingLength p.body.length ++ p.body ++ rawBytes g) := by
      simp [rawBytes, Packet.bytes]
    have hproc : processReceived st (rawBytes (p :: g)) =
        if packetType p.head = mqttPublish then dispatchPublish st (p.bytes ++ rawBytes g)
        else st := by
      rw [hraw]
      simp only [processReceived, ← hraw]
      rfl
    rw [hproc]
    cases p with
    | publish q =>
      rw [if_pos (show packetType (Packet.publish q).head = mqttPublish from q.isPublish)]
      exact dispatchPublish_hears hm q (rawBytes g)
    | ack a =>
      rw [if_neg (show packetType (Packet.ack a).head ≠ mqttPublish from a.notPublish)]
      exact Hears.refl st

theorem loop_takes :
    ∃ k, Takes none script st (oveMqttLoop st).2 k ∧ SameEars st (oveMqttLoop st).2 := by
  unfold oveMqttLoop
  by_cases hc : st.client.connected = false
  · rw [if_pos hc]
    exact ⟨0, Takes.none (Hears.refl st) hin, rfl, rfl⟩
  rw [if_neg hc]
  cases script with
  | nil =>
    have hr : mqttRecv st st.client.rxSize = (.errTimeout, [], st) := by
      unfold mqttRecv
      rw [hin]
      rfl
    simp only [hr, if_true]
    have hsend := Hears.send st ⟨0xC0, 0, []⟩
    exact ⟨0, Takes.none hsend hin, by rw [hsend.client], by rw [hsend.client]⟩
  | cons r rs =>
    have hr := mqttRecv_cons hin (hs r (by simp))
    have hw : (withReads st rs).client = st.client := rfl
    simp only [hr]
    by_cases ht : r.rc = .errTimeout
    · rw [if_pos ht]
      have hsend := Hears.send (withReads st rs) ⟨0xC0, 0, []⟩
      exact ⟨1, Takes.cons hw (heardOf_failed (by rw [ht]; decide)) (Takes.none hsend rfl),
        by rw [hsend.client, hw], by rw [hsend.client, hw]⟩
    rw [if_neg ht]
    by_cases hok : r.rc = .ok
    · rw [if_neg (not_not.mpr hok)]
      have hp := @processReceived_hears (withReads st rs) hm r.packets
      refine ⟨1, Takes.cons hp.client ?_ (Takes.none (Hears.refl _) hp.inbox),
        by rw [hp.client, hw],
        by rw [hp.client, hw]⟩
      rw [hp.heard, admitted_congr hw, heardOf, flatMap_singleton]
      rfl
    · rw [if_pos hok]
      exact ⟨1, Takes.cons hw (heardOf_failed hok) (Takes.none (Hears.refl _) rfl), rfl, rfl⟩

theorem transmit_wait_takes (f : Frame) (t : UInt8) :
    ∃ k, Takes (some t) script st (mqttWaitFor t 10 (transmit st f).2).2 k ∧
      (mqttWaitFor t 10 (transmit st f).2).2.client = st.client := by
  have ht := Hears.transmit st f
  obtain ⟨k, hk, hc⟩ := mqttWaitFor_takes t 10 (by rw [ht.client]; exact hm)
    (ht.inbox.trans hin) (by rwa [ht.client])
  exact ⟨k, hk.after_hears ht, hc.trans ht.client⟩

theorem publish_takes (topic : Option CString) (payload : Payload) (qos : Qos) :
    ∃ k, Takes (some 0x40) script st (oveMqttPublish b st topic payload qos).2 k ∧
      SameEars st (oveMqttPublish b st topic payload qos).2 := by
  cases topic with
  | none => exact ⟨0, Takes.none (Hears.refl st) hin, rfl, rfl⟩
  | some topic =>
    by_cases ha : PublishAccepted b st topic payload qos
    · obtain ⟨h₁, h₂, h₃, h₄⟩ := ha
      simp only [oveMqttPublish]
      rw [if_neg (by simp [h₁]), if_neg (by omega), if_neg (by omega), if_neg (not_not.mpr h₄)]
      cases qos with
      | qos0 =>
        have ht := Hears.transmit st (publishFrame b st topic payload .qos0)
        simp only [reduceCtorEq, if_false]
        split_ifs
        all_goals
          exact ⟨0, Takes.none ht hin, by rw [ht.client], by rw [ht.client]⟩
      | qos1 =>
        have ht := Hears.transmit (bumpPktId st) (publishFrame b st topic payload .qos1)
        simp only [if_true]
        split_ifs
        · exact ⟨0, (Takes.none ht hin).of_bump, by rw [ht.client]; rfl, by rw [ht.client]; rfl⟩
        · obtain ⟨k, hk, hc⟩ := @transmit_wait_takes (bumpPktId st) script hm hin hs
            (publishFrame b st topic payload .qos1) 0x40
          exact ⟨k, hk.of_bump, by rw [hc]; rfl, by rw [hc]; rfl⟩
    · rw [publish_rejected ha]
      exact ⟨0, Takes.none (Hears.refl st) hin, rfl, rfl⟩

theorem request_takes (topic : Option CString) (frame : CString → Frame) (t : UInt8)
    (done : CString → St → St) (hd : ∀ c st, (done c st).world = st.world)
    (he : ∀ c st, SameEars st (done c st)) :
    ∃ k, Takes (some t) script st (request b st topic frame t done).2 k ∧
      SameEars st (request b st topic frame t done).2 := by
  unfold request
  cases topic with
  | none => exact ⟨0, Takes.none (Hears.refl st) hin, rfl, rfl⟩
  | some topic =>
    have ht := Hears.transmit (bumpPktId st) (frame topic)
    obtain ⟨k, hk, hc⟩ := @transmit_wait_takes (bumpPktId st) script hm hin hs (frame topic) t
    have hears : SameEars st (mqttWaitFor t 10 (transmit (bumpPktId st) (frame topic)).2).2 :=
      ⟨by rw [hc]; rfl, by rw [hc]; rfl⟩
    have hk' := hk.of_bump
    dsimp only
    split_ifs
    · exact ⟨0, Takes.none (Hears.refl st) hin, rfl, rfl⟩
    · exact ⟨0, Takes.none (Hears.refl st) hin, rfl, rfl⟩
    · exact ⟨0, (Takes.none ht hin).of_bump, by rw [ht.client]; rfl, by rw [ht.client]; rfl⟩
    · exact ⟨k, hk', hears⟩
    · have hdone := he topic (mqttWaitFor t 10 (transmit (bumpPktId st) (frame topic)).2).2
      have hworld := hd topic (mqttWaitFor t 10 (transmit (bumpPktId st) (frame topic)).2).2
      refine ⟨k, ⟨hk'.le, ?_, ?_⟩, hdone.1.trans hears.1, hdone.2.trans hears.2⟩
      · rw [hworld]
        exact hk'.inbox
      · rw [hworld]
        exact hk'.heard
    · exact ⟨0, Takes.none (Hears.refl st) hin, rfl, rfl⟩

end

def Api.reads (b : Build) (st : St) (call : Api) : ℕ :=
  st.world.inbox.length - (call.exec b st).2.world.inbox.length

theorem Api.takes {b : Build} {st : St} {script : List Read} (hm : st.client.onMessage = true)
    (hin : st.world.inbox = script.map Read.result)
    (hs : ∀ r ∈ script, (rawBytes r.packets).length ≤ st.client.rxSize) (call : Api) :
    Takes call.ack script st (call.exec b st).2 (call.reads b st) ∧
      SameEars st (call.exec b st).2 := by
  have hex : ∃ k, Takes call.ack script st (call.exec b st).2 k ∧
      SameEars st (call.exec b st).2 := by
    cases call with
    | loop => exact loop_takes hm hin hs
    | publish topic payload qos => exact publish_takes hm hin hs topic payload qos
    | subscribe topic qos =>
      refine request_takes hm hin hs topic _ _ _ (fun c st => ?_) (fun c st => ?_)
      · unfold storeFilter
        split_ifs <;> rfl
      · unfold storeFilter
        split_ifs <;> exact ⟨rfl, rfl⟩
    | unsubscribe topic =>
      exact request_takes hm hin hs topic _ _ _ (fun _ _ => rfl) (fun _ _ => ⟨rfl, rfl⟩)
  obtain ⟨k, hk, he⟩ := hex
  have hreads : call.reads b st = k := by
    have hle := hk.le
    rw [Api.reads, hk.inbox, hin, length_map, length_map, length_drop]
    omega
  exact ⟨hreads ▸ hk, he⟩

def runCalls (b : Build) : St → List Api → St
  | st, [] => st
  | st, call :: calls => runCalls b (call.exec b st).2 calls

def Orderly (st : St) (call : Api) (r : Read) : Prop :=
  messages (r.packets.drop (attended call.ack r.packets).length) = [] ∧
    ∀ m ∈ messages (attended call.ack r.packets), mqttAnySubMatches st m.topic = true

instance (st : St) (call : Api) (r : Read) : Decidable (Orderly st call r) :=
  inferInstanceAs (Decidable (_ ∧ _))

def OrderlyRun (b : Build) : St → List Read → List Api → Prop
  | _, _, [] => True
  | st, script, call :: calls =>
    (∀ r ∈ script.take (call.reads b st), Orderly st call r) ∧
      OrderlyRun b (call.exec b st).2 (script.drop (call.reads b st)) calls

instance decidableOrderlyRun (b : Build) : (st : St) → (script : List Read) → (calls : List Api) →
    Decidable (OrderlyRun b st script calls)
  | _, _, [] => isTrue trivial
  | st, script, call :: calls =>
    have := decidableOrderlyRun b (call.exec b st).2 (script.drop (call.reads b st)) calls
    inferInstanceAs (Decidable (_ ∧ _))

def sentMessages (script : List Read) : List Message := script.flatMap fun r => messages r.packets

theorem append_eq_iff_of_sublist {α : Type*} {l₁ l₂ m₁ m₂ : List α} (h₁ : l₁.Sublist m₁)
    (h₂ : l₂.Sublist m₂) : l₁ ++ l₂ = m₁ ++ m₂ ↔ l₁ = m₁ ∧ l₂ = m₂ := by
  refine ⟨fun h => ?_, fun h => by rw [h.1, h.2]⟩
  have hlen := congrArg length h
  have hl₁ := h₁.length_le
  have hl₂ := h₂.length_le
  rw [length_append, length_append] at hlen
  exact ⟨h₁.eq_of_length (by omega), h₂.eq_of_length (by omega)⟩

section
variable {st : St} {ack : Option UInt8}

theorem attended_append_rest (ack : Option UInt8) (g : List Packet) :
    attended ack g ++ g.drop (attended ack g).length = g := by
  have hp : attended ack g <+: g := by
    cases ack with
    | none => exact take_prefix 1 g
    | some t => exact takeWhile_prefix _
  exact prefix_iff_eq_append.mp hp

theorem messages_append (g h : List Packet) : messages (g ++ h) = messages g ++ messages h :=
  filterMap_append ..

theorem messages_split (ack : Option UInt8) (g : List Packet) :
    messages g = messages (attended ack g) ++ messages (g.drop (attended ack g).length) := by
  rw [← messages_append, attended_append_rest]

theorem admitted_sublist (g : List Packet) :
    (admitted st (messages (attended ack g))).Sublist (messages g) := by
  rw [messages_split ack g]
  exact filter_sublist.trans (sublist_append_left _ _)

theorem admitted_eq_iff (call : Api) (r : Read) :
    admitted st (messages (attended call.ack r.packets)) = messages r.packets ↔
      Orderly st call r := by
  have hs : (admitted st (messages (attended call.ack r.packets))).Sublist
      (messages (attended call.ack r.packets)) := filter_sublist
  rw [messages_split call.ack r.packets]
  have hcut := append_eq_iff_of_sublist hs
    (nil_sublist (messages (r.packets.drop (attended call.ack r.packets).length)))
  rw [append_nil] at hcut
  rw [hcut, Orderly, and_comm]
  refine and_congr eq_comm ?_
  rw [admitted, filter_eq_self]

theorem heardOf_sublist (rs : List Read) : (heardOf st ack rs).Sublist (sentMessages rs) := by
  induction rs with
  | nil => exact Sublist.refl _
  | cons r rs ih => exact (admitted_sublist r.packets).append ih

theorem heardOf_eq_iff (call : Api) (rs : List Read) :
    heardOf st call.ack rs = sentMessages rs ↔ ∀ r ∈ rs, Orderly st call r := by
  induction rs with
  | nil => simp [heardOf, sentMessages]
  | cons r rs ih =>
    rw [forall_mem_cons, ← ih, ← admitted_eq_iff]
    exact append_eq_iff_of_sublist (admitted_sublist r.packets) (heardOf_sublist rs)

end

theorem runCalls_hears {b : Build} {st : St} {script : List Read} (calls : List Api)
    (hm : st.client.onMessage = true) (hin : st.world.inbox = script.map Read.result)
    (hs : ∀ r ∈ script, (rawBytes r.packets).length ≤ st.client.rxSize) :
    ∃ j ms, (runCalls b st calls).world.inbox = (script.drop j).map Read.result ∧
      deliveries (runCalls b st calls).world.log = deliveries st.world.log ++ ms ∧
      ms.Sublist (sentMessages (script.take j)) ∧
      (ms = sentMessages (script.take j) ↔ OrderlyRun b st script calls) := by
  induction calls generalizing st script with
  | nil => exact ⟨0, [], hin, by simp [runCalls], by simp, by simp [sentMessages, OrderlyRun]⟩
  | cons call calls ih =>
    obtain ⟨ht, he⟩ := Api.takes (b := b) hm hin hs call
    obtain ⟨j, ms, hj, hd, hsub, hiff⟩ := @ih (call.exec b st).2 (script.drop (call.reads b st))
      (he.1.trans hm) ht.inbox (fun r hr => by rw [he.2]; exact hs r (mem_of_mem_drop hr))
    have hsplit : sentMessages (script.take (call.reads b st + j)) =
        sentMessages (script.take (call.reads b st)) ++
          sentMessages ((script.drop (call.reads b st)).take j) := by
      rw [take_add, sentMessages, flatMap_append]
      rfl
    refine ⟨call.reads b st + j, heardOf st call.ack (script.take (call.reads b st)) ++ ms,
      ?_, ?_, ?_, ?_⟩
    · rw [← drop_drop]
      exact hj
    · rw [runCalls, hd, ht.heard, append_assoc]
    · rw [hsplit]
      exact (heardOf_sublist _).append hsub
    · rw [hsplit, append_eq_iff_of_sublist (heardOf_sublist _) hsub, heardOf_eq_iff, hiff]
      rfl

def DeliversAll (b : Build) (st : St) (script : List Read) (calls : List Api) : Prop :=
  deliveries (runCalls b st calls).world.log = deliveries st.world.log ++ sentMessages script

instance (b : Build) (st : St) (script : List Read) (calls : List Api) :
    Decidable (DeliversAll b st script calls) := inferInstanceAs (Decidable (_ = _))

/-- Over reads of whole packets, a run delivers everything exactly if each call found its reads
orderly. -/
theorem run_delivers_iff (b : Build) (st : St) (script : List Read) (calls : List Api)
    (hm : st.client.onMessage = true) (hin : st.world.inbox = script.map Read.result)
    (hs : ∀ r ∈ script, (rawBytes r.packets).length ≤ st.client.rxSize)
    (hend : (runCalls b st calls).world.inbox = []) :
    DeliversAll b st script calls ↔ OrderlyRun b st script calls := by
  obtain ⟨j, ms, hj, hd, -, hiff⟩ := runCalls_hears (b := b) calls hm hin hs
  have hall : script.take j = script := by
    rw [hend] at hj
    have hnil := map_eq_nil_iff.mp hj.symm
    exact take_of_length_le (drop_eq_nil_iff.mp hnil)
  rw [← hiff, hall, DeliversAll, hd, append_cancel_left_eq]

def messageA : Publish := ⟨0x30, [0x61], 0, [1], by decide, by decide, by decide⟩

def messageB : Publish := ⟨0x32, [0x62], 7, [2], by decide, by decide, by decide⟩

def pubackOne : Ack := ⟨0x40, [0, 1], by decide, by decide⟩

def readOf (g : List Packet) : Read := ⟨.ok, g, fun h => absurd rfl h⟩

def receiving (script : List Read) : St := ⟨smallClient, ⟨fun _ => [], script.map Read.result, []⟩⟩

theorem two_reads_delivered :
    DeliversAll smallBuild
      (receiving [readOf [.publish messageA], readOf [.publish messageB, .ack pubackOne]])
      [readOf [.publish messageA], readOf [.publish messageB, .ack pubackOne]]
      [.loop, .publish (some topicT) (.bytes [9]) .qos1] :=
  (run_delivers_iff smallBuild _ _ _ rfl rfl (by decide +kernel) (by decide +kernel)).mpr
    (by decide +kernel)

theorem messages_lost :
    ((runCalls smallBuild (receiving [readOf [.publish messageA, .publish messageB]])
        [.loop]).world.inbox = [] ∧
      ¬DeliversAll smallBuild (receiving [readOf [.publish messageA, .publish messageB]])
        [readOf [.publish messageA, .publish messageB]] [.loop]) ∧
    deliveries (runCalls smallBuild ⟨smallClient, ⟨fun _ => [],
      [(.ok, (Packet.publish messageA).bytes.take 3), (.ok, (Packet.publish messageA).bytes.drop 3)],
      []⟩⟩ [.loop, .loop]).world.log = [] := by
  decide +kernel

end Overtos.Mqtt
