import Overtos.Mqtt.Receive

/-! The decoders of `ove_net_mqtt.c` over memory. Every access is checked: one outside the bytes
at hand has no result. -/
namespace Overtos.Mqtt
open List Option

open CStr (Bytes CString)

def readDigits (mem : Bytes) (base buflen : ℕ) : ℕ → ℕ → ℕ → ℕ → Option (ℕ × ℕ)
  | 0, _, _, value => some (0, value)
  | k + 1, i, multiplier, value =>
    if buflen ≤ i then some (0, value)
    else do
      let b ← mem[base + i]?
      let value := value + (b &&& 0x7F).toNat * multiplier
      if b &&& 0x80 = 0 then some (i + 1, value)
      else readDigits mem base buflen k (i + 1) (multiplier * 128) value

def readRemainingLength (mem : Bytes) (base buflen : ℕ) : Option (ℕ × ℕ) :=
  readDigits mem base buflen 4 0 1 0

section
variable {mem : Bytes} {base buflen : ℕ}

theorem readDigits_eq (k i mult value : ℕ) (h : base + min buflen (i + k) ≤ mem.length) :
    readDigits mem base buflen k i mult value =
      some (decodeLoop k i mult value ((mem.drop (base + i)).take (buflen - i))) := by
  induction k generalizing i mult value with
  | zero => rw [readDigits, decodeLoop]
  | succ k ih =>
    rw [readDigits]
    by_cases hi : buflen ≤ i
    · rw [if_pos hi, Nat.sub_eq_zero_of_le hi, take_zero, decodeLoop]
    · have hlt : base + i < mem.length := by omega
      have hbuf : (mem.drop (base + i)).take (buflen - i) =
          mem[base + i] :: (mem.drop (base + (i + 1))).take (buflen - (i + 1)) := by
        rw [drop_eq_getElem_cons hlt, show buflen - i = buflen - (i + 1) + 1 by omega,
          take_succ_cons, Nat.add_assoc]
      rw [if_neg hi, getElem?_eq_getElem hlt, hbuf, decodeLoop, bind_eq_bind, bind_some]
      dsimp only
      split_ifs
      · rfl
      · exact ih _ _ _ (by omega)

theorem readRemainingLength_eq (h : base + min buflen 4 ≤ mem.length) :
    readRemainingLength mem base buflen =
      some (decodeRemainingLength ((mem.drop base).take buflen)) := by
  rw [readRemainingLength, readDigits_eq 4 0 1 0 (by rwa [Nat.zero_add])]
  rfl

end

theorem decodeLoop_take (k i mult value : ℕ) (bs : Bytes) :
    decodeLoop k i mult value (bs.take k) = decodeLoop k i mult value bs := by
  induction k generalizing i mult value bs with
  | zero => rw [decodeLoop, decodeLoop]
  | succ k ih =>
    cases bs with
    | nil => rfl
    | cons b bs => rw [take_succ_cons, decodeLoop, decodeLoop, ih]

theorem decodeLoop_eq_zero_iff (k i mult value : ℕ) (bs : Bytes) :
    (decodeLoop k i mult value bs).1 = 0 ↔ ∀ b ∈ bs.take k, b &&& 0x80 ≠ 0 := by
  induction k generalizing i mult value bs with
  | zero => simp [decodeLoop]
  | succ k ih =>
    cases bs with
    | nil => simp [decodeLoop]
    | cons b bs =>
      rw [decodeLoop, take_succ_cons, forall_mem_cons]
      by_cases hb : b &&& 0x80 = 0
      · simp [hb]
      · rw [if_neg hb, ih]
        exact ⟨fun h => ⟨hb, h⟩, fun h => h.2⟩

theorem decodeLoop_lt (k i value : ℕ) (bs : Bytes) (hv : value < 128 ^ i)
    (h : (decodeLoop k i (128 ^ i) value bs).1 ≠ 0) :
    (decodeLoop k i (128 ^ i) value bs).2 < 128 ^ (decodeLoop k i (128 ^ i) value bs).1 := by
  induction k generalizing i value bs with
  | zero => exact absurd rfl h
  | succ k ih =>
    cases bs with
    | nil => exact absurd rfl h
    | cons b bs =>
      have hnext : value + (b &&& 0x7F).toNat * 128 ^ i < 128 ^ (i + 1) := by
        have hd : (b &&& 0x7F).toNat ≤ 127 := by
          rw [UInt8.toNat_and]
          exact Nat.and_le_right
        have hm := Nat.mul_le_mul_right (128 ^ i) hd
        rw [pow_succ]
        omega
      rw [decodeLoop] at h ⊢
      by_cases hb : b &&& 0x80 = 0
      · rw [if_pos hb]
        exact hnext
      · rw [if_neg hb] at h ⊢
        rw [← pow_succ] at h ⊢
        exact ih _ _ _ hnext h

theorem remainingLengthBytes_least {buf : Bytes} {c n : ℕ} (hc : 0 < c)
    (h : decodeRemainingLength buf = (c, n)) : remainingLengthBytes n ≤ c := by
  have hlt := decodeLoop_lt 4 0 0 buf (by decide)
  rw [pow_zero, ← decodeRemainingLength, h] at hlt
  obtain ⟨c, rfl⟩ := Nat.exists_eq_succ_of_ne_zero hc.ne'
  exact (remainingLengthBytes_le_iff c n).mpr (hlt hc.ne')

/-- The decoder undoes the encoder, no shorter spelling exists, and it stays within four bytes. -/
theorem remaining_length_codec :
    (∀ n ≤ 268435455, ∀ rest,
      decodeRemainingLength (encodeRemainingLength n ++ rest) = (remainingLengthBytes n, n) ∧
      (encodeRemainingLength n).length = remainingLengthBytes n ∧
      1 ≤ remainingLengthBytes n ∧ remainingLengthBytes n ≤ 4 ∧
      ∀ buf c, 0 < c → decodeRemainingLength buf = (c, n) → remainingLengthBytes n ≤ c) ∧
    ∀ (buf : Bytes) (buflen : ℕ), buflen ≤ buf.length →
      readRemainingLength (buf.take (min buflen 4)) 0 buflen =
        some (decodeRemainingLength (buf.take buflen)) ∧
      ((decodeRemainingLength (buf.take buflen)).1 = 0 ↔
        ∀ b ∈ buf.take (min buflen 4), b &&& 0x80 ≠ 0) := by
  have htake : ∀ (buf : Bytes) (buflen : ℕ),
      (buf.take buflen).take 4 = buf.take (min buflen 4) := fun buf buflen => by
    rw [take_take, Nat.min_comm]
  refine ⟨fun n hn rest => ?_, fun buf buflen hlen => ⟨?_, ?_⟩⟩
  · have hlt : n < 128 ^ 4 := by omega
    exact ⟨decodeRemainingLength_encode hlt rest, length_encodeRemainingLength n,
      remainingLengthBytes_pos n, (remainingLengthBytes_le_iff 3 n).mpr hlt,
      fun _ _ hc h => remainingLengthBytes_least hc h⟩
  · have hmem : min buflen 4 ≤ (buf.take (min buflen 4)).length := by
      rw [length_take]
      omega
    have hsame : (buf.take (min buflen 4)).take buflen = (buf.take buflen).take 4 := by
      rw [htake, take_take, Nat.min_eq_right (Nat.min_le_left ..)]
    rw [readRemainingLength_eq (by omega), drop_zero, hsame, decodeRemainingLength,
      decodeLoop_take, ← decodeRemainingLength]
  · rw [decodeRemainingLength, decodeLoop_eq_zero_iff, htake]

theorem three_hundred_codec :
    decodeRemainingLength [0xAC, 0x02, 0xFF] = (2, 300) ∧
      readRemainingLength [0xAC, 0x02, 0xFF] 0 3 = some (2, 300) := by
  have hround := (remaining_length_codec.1 300 (by decide) [0xFF]).1
  have hread := (remaining_length_codec.2 [0xAC, 0x02, 0xFF] 3 le_rfl).1
  have henc : encodeRemainingLength 300 = [0xAC, 0x02] := by
    rw [encodeRemainingLength, encodeRemainingLength]
    decide
  have hlen : remainingLengthBytes 300 = 2 := by
    rw [remainingLengthBytes, remainingLengthBytes]
    decide
  rw [henc, hlen] at hround
  exact ⟨hround, hread.trans (congrArg some hround)⟩

structure Range where
  start : ℕ
  len : ℕ
  deriving DecidableEq, Repr

def Range.of (r : Range) (pkt : Bytes) : Bytes := (pkt.drop r.start).take r.len

def Range.Within (r : Range) (pkt : Bytes) : Prop := r.start + r.len ≤ pkt.length

structure Taken where
  topic : Range
  ack : Option UInt16
  payload : Range
  deriving DecidableEq, Repr

def readU16 (mem : Bytes) (ptr : ℕ) : Option UInt16 := do
  return getU16 (← mem[ptr]?) (← mem[ptr + 1]?)

def readTail (pkt : Bytes) (topic : Range) (ptr stop : ℕ) : Option (Option Taken) := do
  let qos := publishQos (← pkt[0]?)
  if 1 ≤ qos then
    if stop - ptr < 2 then return none
    let pktId ← readU16 pkt ptr
    return some ⟨topic, if qos = 1 then some pktId else none, ⟨ptr + 2, stop - (ptr + 2)⟩⟩
  else return some ⟨topic, none, ⟨ptr, stop - ptr⟩⟩

def readBody (pkt : Bytes) (ptr stop : ℕ) : Option (Option Taken) := do
  if stop - ptr < 2 then return none
  let tlen := (← readU16 pkt ptr).toNat
  let ptr := ptr + 2
  if stop - ptr < tlen then return none
  readTail pkt ⟨ptr, tlen⟩ (ptr + tlen) stop

def readPublish (pkt : Bytes) : Option (Option Taken) := do
  if pkt.length < 2 then return none
  let (rlBytes, remLen) ← readRemainingLength pkt 1 (pkt.length - 1)
  if rlBytes = 0 then return none
  let hdrBytes := 1 + rlBytes
  if pkt.length < hdrBytes ∨ pkt.length - hdrBytes < remLen then return none
  readBody pkt hdrBytes (hdrBytes + remLen)

def actOn (st : St) (pkt : Bytes) : Option Taken → St
  | none => st
  | some t =>
    let st := match t.ack with
      | some pktId => (mqttSend st (puback pktId)).2
      | none => st
    deliver st (t.topic.of pkt) (t.payload.of pkt)

theorem readU16_eq {mem : Bytes} {ptr : ℕ} {hi lo : UInt8} {rest : Bytes}
    (h : mem.drop ptr = hi :: lo :: rest) : readU16 mem ptr = some (getU16 hi lo) := by
  have h₀ : mem[ptr]? = some hi := by
    have := congrArg (·[0]?) h
    simpa using this
  have h₁ : mem[ptr + 1]? = some lo := by
    have := congrArg (·[1]?) h
    simpa using this
  simp [readU16, h₀, h₁]

theorem take_drop_two {mem : Bytes} {ptr len : ℕ} (hlen : 2 ≤ len)
    (hmem : ptr + len ≤ mem.length) :
    ∃ hi lo, readU16 mem ptr = some (getU16 hi lo) ∧
      (mem.drop ptr).take len = hi :: lo :: (mem.drop (ptr + 2)).take (len - 2) := by
  have h₀ := drop_eq_getElem_cons (show ptr < mem.length by omega)
  have h₁ := drop_eq_getElem_cons (show ptr + 1 < mem.length by omega)
  rw [h₁] at h₀
  refine ⟨_, _, readU16_eq h₀, ?_⟩
  obtain ⟨len, rfl⟩ := Nat.exists_eq_add_of_le' hlen
  rw [h₀, take_succ_cons, take_succ_cons, Nat.add_sub_cancel]

structure Acted (pkt : Bytes) (act : St → St) (o : Option Taken) : Prop where
  within : ∀ t, o = some t → t.topic.Within pkt ∧ t.payload.Within pkt
  acts : ∀ st, st.client.onMessage = true → act st = actOn st pkt o

theorem Acted.dropped {pkt : Bytes} {act : St → St}
    (h : ∀ st, st.client.onMessage = true → act st = st) : Acted pkt act none := by
  refine ⟨?_, h⟩
  rintro t ⟨⟩

theorem Acted.taken {pkt : Bytes} {act : St → St} {t : Taken} (htopic : t.topic.Within pkt)
    (hpayload : t.payload.Within pkt)
    (h : ∀ st, st.client.onMessage = true → act st = actOn st pkt (some t)) :
    Acted pkt act (some t) := by
  refine ⟨fun t' ht => ?_, h⟩
  cases ht
  exact ⟨htopic, hpayload⟩

theorem readTail_spec {head : UInt8} {tail : Bytes} {topic : Range} {ptr stop : ℕ}
    (htopic : topic.Within (head :: tail)) (hptr : ptr ≤ stop)
    (hstop : stop ≤ (head :: tail).length) :
    ∃ o, readTail (head :: tail) topic ptr stop = some o ∧
      Acted (head :: tail) (fun st => dispatchTail st (publishQos head)
        (topic.of (head :: tail)) (((head :: tail).drop ptr).take (stop - ptr))) o := by
  have hread : (head :: tail)[0]? = some head := rfl
  simp only [readTail, hread, bind_eq_bind, bind_some, dispatchTail]
  by_cases hq : 1 ≤ publishQos head
  · simp only [if_pos hq]
    by_cases hroom : stop - ptr < 2
    · refine ⟨none, if_pos hroom, .dropped fun st _ => ?_⟩
      have hshort : (((head :: tail).drop ptr).take (stop - ptr)).length < 2 := by
        rw [length_take]
        omega
      generalize ((head :: tail).drop ptr).take (stop - ptr) = body at hshort
      rcases body with _ | ⟨a, _ | ⟨b, rest⟩⟩
      · rfl
      · rfl
      · exact absurd hshort (by simp only [length_cons]; omega)
    · obtain ⟨hi, lo, hid, hbody⟩ :=
        @take_drop_two (head :: tail) ptr (stop - ptr) (by omega) (by omega)
      rw [if_neg hroom, hid, hbody, Nat.sub_sub]
      refine ⟨_, rfl, .taken htopic (by simp only [Range.Within]; omega) fun st _ => ?_⟩
      simp only [actOn, Range.of]
      split_ifs <;> rfl
  · simp only [if_neg hq]
    exact ⟨_, rfl, .taken htopic (by simp only [Range.Within]; omega) fun st _ => rfl⟩

def dispatchBody (st : St) (head : UInt8) (body : Bytes) : St :=
  match body with
  | hi :: lo :: rest =>
    let tlen := (getU16 hi lo).toNat
    if rest.length < tlen then st
    else dispatchTail st (publishQos head) (rest.take tlen) (rest.drop tlen)
  | _ => st

theorem dispatchPublish_cons {st : St} (hm : st.client.onMessage = true) (head : UInt8)
    {tail : Bytes} (hne : tail ≠ []) :
    dispatchPublish st (head :: tail) =
      if (decodeRemainingLength tail).1 = 0 then st
      else if tail.length < (decodeRemainingLength tail).1 ∨
          tail.length - (decodeRemainingLength tail).1 < (decodeRemainingLength tail).2 then st
      else dispatchBody st head
        ((tail.drop (decodeRemainingLength tail).1).take (decodeRemainingLength tail).2) := by
  rw [dispatchPublish, if_neg (by simp [hm])]
  exact if_neg hne

theorem readBody_spec {head : UInt8} {tail : Bytes} {ptr stop : ℕ} (hptr : ptr ≤ stop)
    (hstop : stop ≤ (head :: tail).length) :
    ∃ o, readBody (head :: tail) ptr stop = some o ∧
      Acted (head :: tail) (fun st => dispatchBody st head
        (((head :: tail).drop ptr).take (stop - ptr))) o := by
  have hlen : (((head :: tail).drop ptr).take (stop - ptr)).length = stop - ptr := by
    rw [length_take, length_drop]
    omega
  rw [readBody]
  by_cases hroom : stop - ptr < 2
  · refine ⟨none, if_pos hroom, .dropped fun st _ => ?_⟩
    generalize ((head :: tail).drop ptr).take (stop - ptr) = body at hlen
    rcases body with _ | ⟨a, _ | ⟨b, rest⟩⟩
    · rfl
    · rfl
    · exact absurd hlen (by simp only [length_cons]; omega)
  obtain ⟨hi, lo, htlen, hbody⟩ :=
    @take_drop_two (head :: tail) ptr (stop - ptr) (by omega) (by omega)
  have hrest : (((head :: tail).drop (ptr + 2)).take (stop - ptr - 2)).length = stop - ptr - 2 := by
    rw [length_take, length_drop]
    omega
  rw [if_neg hroom, htlen, hbody]
  simp only [bind_eq_bind, bind_some, dispatchBody, hrest, ← Nat.sub_sub]
  by_cases hfit : stop - ptr - 2 < (getU16 hi lo).toNat
  · exact ⟨none, if_pos hfit, .dropped fun st _ => if_pos hfit⟩
  · have htopic : (Range.mk (ptr + 2) (getU16 hi lo).toNat).Within (head :: tail) := by
      simp only [Range.Within]
      omega
    obtain ⟨o, ho, hact⟩ := readTail_spec htopic
      (show ptr + 2 + (getU16 hi lo).toNat ≤ stop by omega) hstop
    rw [if_neg hfit]
    refine ⟨o, ho, hact.within, fun st hm => ?_⟩
    have hst := hact.acts st hm
    rw [Range.of, ← Nat.sub_sub, ← Nat.sub_sub] at hst
    rw [if_neg hfit, take_take, Nat.min_eq_left (Nat.le_of_not_lt hfit), drop_take, drop_drop]
    exact hst

theorem readPublish_spec (pkt : Bytes) :
    ∃ o, readPublish pkt = some o ∧ Acted pkt (fun st => dispatchPublish st pkt) o := by
  rcases pkt with _ | ⟨head, tail⟩
  · exact ⟨none, rfl, .dropped fun st hm => by simp [dispatchPublish, hm]⟩
  by_cases hne : tail = []
  · subst hne
    exact ⟨none, rfl, .dropped fun st hm => by simp [dispatchPublish, hm]⟩
  have hpos : 0 < tail.length := length_pos_of_ne_nil hne
  have hdigits : readRemainingLength (head :: tail) 1 ((head :: tail).length - 1) =
      some (decodeRemainingLength tail) := by
    rw [readRemainingLength_eq (by simp only [length_cons]; omega)]
    simp
  rw [readPublish, if_neg (by simp only [length_cons]; omega), hdigits]
  simp only [bind_eq_bind, bind_some, length_cons, Nat.add_comm 1,
    Nat.add_sub_add_right, Nat.add_lt_add_iff_right]
  by_cases hzero : (decodeRemainingLength tail).1 = 0
  · rw [if_pos hzero]
    exact ⟨none, rfl, .dropped fun st hm => by rw [dispatchPublish_cons hm head hne, if_pos hzero]⟩
  by_cases hlen : tail.length < (decodeRemainingLength tail).1 ∨
      tail.length - (decodeRemainingLength tail).1 < (decodeRemainingLength tail).2
  · rw [if_neg hzero, if_pos hlen]
    exact ⟨none, rfl, .dropped fun st hm => by
      rw [dispatchPublish_cons hm head hne, if_neg hzero, if_pos hlen]⟩
  · rw [if_neg hzero, if_neg hlen]
    obtain ⟨o, ho, hact⟩ := @readBody_spec head tail ((decodeRemainingLength tail).1 + 1)
      ((decodeRemainingLength tail).1 + 1 + (decodeRemainingLength tail).2)
      (Nat.le_add_right ..) (by simp only [length_cons]; omega)
    refine ⟨o, ho, hact.within, fun st hm => ?_⟩
    rw [dispatchPublish_cons hm head hne, if_neg hzero, if_neg hlen, ← hact.acts st hm,
      Nat.add_sub_cancel_left, drop_succ_cons]

def Publishes (b : Build) (st : St) (topic : CString) (payload : Payload) (qos : Qos)
    (f : Frame) : Prop :=
  ∃ count size es, (oveMqttPublish b st (some topic) payload qos).2.world.log =
    st.world.log ++ .wroteTx count size :: .sent f :: es

def HeardAs (pkt : Bytes) (ack : Option UInt16) (m : Message) : Prop :=
  ∀ st : St, st.client.onMessage = true → st.client.subFilters = [] →
    (dispatchPublish st pkt).world.log =
      st.world.log ++ (ack.toList.map fun id => .sent (puback id)) ++ [.delivered m]

def PublishHeard (b : Build) (st : St) (topic : CString) (data : Bytes) (qos : Qos) : Prop :=
  ∀ f, Publishes b st topic (.bytes data) qos f →
    HeardAs f.bytes (if qos = .qos1 then some st.client.pktId else none) ⟨topic.bytes, data⟩

theorem publishes_iff {b : Build} {st : St} {topic : CString} {payload : Payload} {qos : Qos}
    {f : Frame} : Publishes b st topic payload qos f ↔
      PublishAccepted b st topic payload qos ∧ f = publishFrame b st topic payload qos := by
  by_cases ha : PublishAccepted b st topic payload qos
  · obtain ⟨es, hlog, -⟩ := publish_events ha
    constructor
    · rintro ⟨count, size, es', h⟩
      rw [hlog] at h
      have h' := append_cancel_left h
      simp only [cons.injEq, Event.sent.injEq] at h'
      exact ⟨ha, h'.2.1.symm⟩
    · rintro ⟨-, rfl⟩
      exact ⟨_, _, es, hlog⟩
  · refine iff_of_false ?_ fun h => ha h.1
    rintro ⟨count, size, es, h⟩
    rw [publish_rejected ha] at h
    simp at h

theorem dispatchPublish_long {st : St} (f : Frame) (h : 128 ^ 4 ≤ f.remaining) :
    dispatchPublish st f.bytes = st := by
  have hdigits : ¬remainingLengthBytes f.remaining ≤ 4 := by
    rw [remainingLengthBytes_le_iff 3]
    omega
  have hzero : (decodeRemainingLength (encodeRemainingLength f.remaining ++ f.body)).1 = 0 :=
    decodeLoop_encode_long 4 0 1 0 _ _ (by omega)
  have hne : encodeRemainingLength f.remaining ++ f.body ≠ [] := by
    apply ne_nil_of_length_pos
    rw [length_append, length_encodeRemainingLength]
    omega
  by_cases hm : st.client.onMessage = true
  · rw [Frame.bytes, dispatchPublish_cons hm _ hne, if_pos hzero]
  · simp [dispatchPublish, hm]

theorem publishQos_publishFrame (b : Build) (st : St) (topic : CString) (payload : Payload)
    (qos : Qos) : publishQos (publishFrame b st topic payload qos).head = qos.toByte ∧
      packetType (publishFrame b st topic payload qos).head = mqttPublish := by
  have hheads : ∀ qos : Qos,
      publishQos (if qos = .qos1 then mqttPublish ||| 0x02 else mqttPublish) = qos.toByte ∧
        packetType (if qos = .qos1 then mqttPublish ||| 0x02 else mqttPublish) = mqttPublish := by
    intro qos
    cases qos <;> decide
  exact hheads qos

theorem publishFrame_body (b : Build) (st : St) (topic : CString) (data : Bytes) (qos : Qos) :
    (publishFrame b st topic (.bytes data) qos).body =
      publishBody (publishFrame b st topic (.bytes data) qos).head topic.bytes st.client.pktId
        data := by
  have hdata : (Payload.bytes data).segs.flatMap Seg.bytes = data := by
    cases data <;> simp [Payload.segs, Seg.bytes]
  rw [publishBody, (publishQos_publishFrame b st topic (.bytes data) qos).1]
  simp only [Frame.body, publishFrame, cons_append, flatMap_cons, flatMap_append,
    hdata, Seg.bytes, append_assoc]
  cases qos <;> simp [Qos.toByte, Seg.bytes]

theorem deliver_all {st : St} (hsubs : st.client.subFilters = []) (topic payload : Bytes) :
    (deliver st topic payload).world.log = st.world.log ++ [.delivered ⟨topic, payload⟩] := by
  rw [deliver, if_pos (by simp [mqttAnySubMatches, hsubs]), note_log]

theorem publishFrame_heard {b : Build} {st : St} {topic : CString} {data : Bytes} {qos : Qos}
    (ht : topic.bytes.length ≤ 0xFFFF)
    (hr : publishRemaining b topic (.bytes data) qos = publishLen topic (.bytes data) qos)
    (hlt : publishLen topic (.bytes data) qos < 128 ^ 4) :
    HeardAs (publishFrame b st topic (.bytes data) qos).bytes
      (if qos = .qos1 then some st.client.pktId else none) ⟨topic.bytes, data⟩ := by
  intro peer hm hsubs
  obtain ⟨hq, htype⟩ := publishQos_publishFrame b st topic (.bytes data) qos
  have hbody := publishFrame_body b st topic data qos
  have hlen : (publishFrame b st topic (.bytes data) qos).body.length =
      publishLen topic (.bytes data) qos := by
    have hfaith := (@publishFrame_faithful_iff _ st _ _ _ ht hr).mpr ⟨hlt, by simp⟩
    rw [← ((faithful_iff _).mp hfaith).2.1, ← hr]
    rfl
  have hbytes : (publishFrame b st topic (.bytes data) qos).bytes = (Packet.publish
      ⟨(publishFrame b st topic (.bytes data) qos).head, topic.bytes, st.client.pktId, data, htype,
        ht, by rw [← hbody, hlen]; exact hlt⟩).bytes ++ [] := by
    simp only [Frame.bytes, Packet.bytes, Packet.head, Packet.body, ← hbody, hlen, append_nil]
    rw [show (publishFrame b st topic (.bytes data) qos).remaining = _ from hr]
  rw [hbytes, dispatchPublish_publish hm, hq]
  cases qos with
  | qos0 =>
    change (deliver peer topic.bytes data).world.log = _
    rw [deliver_all hsubs]
    simp
  | qos1 =>
    change (deliver (mqttSend peer (puback (getU16 (st.client.pktId >>> 8).toUInt8
      (st.client.pktId &&& 0xFF).toUInt8))).2 topic.bytes data).world.log = _
    have hkeep : ∀ f, (mqttSend peer f).2.client.subFilters = [] := fun f => by
      simp [mqttSend, hsubs]
    rw [getU16_putU16, deliver_all (hkeep _), mqttSend_log]
    rfl

theorem publishHeard_iff_safe (b : Build) (st : St) (topic : CString) (data : Bytes) (qos : Qos)
    (hobj : st.client.txSize < 2 ^ (b.arch.bits - 1)) :
    PublishHeard b st topic data qos ↔ PublishSafe st.client topic (.bytes data) qos := by
  by_cases ha : PublishAccepted b st topic (.bytes data) qos
  · have hnot := (publishAccepted_iff hobj).mp ha
    obtain ⟨hr, -⟩ := publishRemaining_eq (b := b) qos hobj ha.2.1 ha.2.2.1
    constructor
    · intro h
      refine Or.inr ⟨?_, by simp⟩
      by_contra hlong
      have hheard := h _ (publishes_iff.mpr ⟨ha, rfl⟩)
        ⟨{ st.client with onMessage := true, subFilters := [] }, st.world⟩ rfl rfl
      have hrem : 128 ^ 4 ≤ (publishFrame b st topic (.bytes data) qos).remaining :=
        (Nat.le_of_not_lt hlong).trans_eq hr.symm
      rw [dispatchPublish_long _ hrem] at hheard
      simp at hheard
    · rintro (h | h) f hf
      · exact absurd h hnot
      · rw [(publishes_iff.mp hf).2]
        exact publishFrame_heard ha.2.1 hr h.1
  · refine iff_of_true (fun f hf => absurd (publishes_iff.mp hf).1 ha) (Or.inl ?_)
    rwa [publishAccepted_iff hobj, not_not] at ha

/-- What is published is heard as given exactly if the call refuses it or its Remaining Length is at
most 268435455. -/
theorem publish_heard_iff (b : Build) (st : St) (topic : CString) (data : Bytes) (qos : Qos)
    (hobj : st.client.txSize < 2 ^ (b.arch.bits - 1)) :
    (PublishHeard b st topic data qos ↔ PublishSafe st.client topic (.bytes data) qos) ∧
      ∀ pkt, ∃ o, readPublish pkt = some o ∧ Acted pkt (fun st => dispatchPublish st pkt) o :=
  ⟨publishHeard_iff_safe b st topic data qos hobj, readPublish_spec⟩

theorem publish_three_bytes_heard :
    PublishHeard smallBuild ⟨smallClient, ⟨fun _ => [], [], []⟩⟩ topicT [1, 2, 3] .qos1 :=
  (publish_heard_iff smallBuild ⟨smallClient, ⟨fun _ => [], [], []⟩⟩ topicT [1, 2, 3] .qos1
    (by decide)).1.mpr (Or.inr ⟨by decide, by simp⟩)

def wideClient : Client := { smallClient with txSize := 2 ^ 28 + 16 }

theorem wideClient_not_heard {data : Bytes} (h : data.length = 2 ^ 28 - 3) :
    ¬PublishHeard smallBuild ⟨wideClient, ⟨fun _ => [], [], []⟩⟩ topicT data .qos0 := by
  have hlen : publishLen topicT (.bytes data) .qos0 = 2 ^ 28 := by
    rw [publishLen, Payload.len, h]
    decide
  have hdigits : remainingLengthBytes (2 ^ 28) ≤ 5 :=
    (remainingLengthBytes_le_iff 4 (2 ^ 28)).mpr (by decide)
  rw [publishHeard_iff_safe _ _ _ _ _ (by decide), PublishSafe, hlen, frameSize, Payload.len, h]
  generalize remainingLengthBytes (2 ^ 28) = digits at hdigits
  simp [wideClient, smallClient, topicT]
  omega

theorem wide_publish_dropped :
    ∃ data : Bytes, data.length = 2 ^ 28 - 3 ∧
      ¬PublishHeard smallBuild ⟨wideClient, ⟨fun _ => [], [], []⟩⟩ topicT data .qos0 :=
  ⟨replicate (2 ^ 28 - 3) 0, length_replicate, wideClient_not_heard length_replicate⟩

end Overtos.Mqtt
