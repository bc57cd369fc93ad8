import Overtos.Lib.Runs
import Overtos.Mqtt.Receive

/-! The bounded table of topic filters against the filters the application is subscribed to. -/
namespace Overtos.Mqtt
open List

open CStr (Bytes CString)

section
variable (st : St)

theorem dispatchTail_hears (qos : UInt8) (topic rest : Bytes) :
    ∃ ms, Hears st (dispatchTail st qos topic rest) ms ∧
      ∀ m ∈ ms, mqttAnySubMatches st m.topic = true := by
  have hadm : ∀ payload, ∀ m ∈ admitted st [⟨topic, payload⟩],
      mqttAnySubMatches st m.topic = true :=
    fun payload m hm => (mem_filter.mp hm).2
  unfold dispatchTail
  by_cases hq : 1 ≤ qos
  · rw [if_pos hq]
    rcases rest with _ | ⟨hi, _ | ⟨lo, payload⟩⟩
    · exact ⟨[], Hears.refl st, by simp⟩
    · exact ⟨[], Hears.refl st, by simp⟩
    · dsimp only
      split_ifs
      · have hs := Hears.send st (puback (getU16 hi lo))
        have hd := hs.trans (deliver_hears topic payload)
        rw [admitted_congr hs.client] at hd
        exact ⟨_, hd, by simpa using hadm payload⟩
      · exact ⟨_, deliver_hears topic payload, hadm payload⟩
  · rw [if_neg hq]
    exact ⟨_, deliver_hears topic rest, hadm rest⟩

theorem dispatchPublish_admits (pkt : Bytes) : ∃ ms, Hears st (dispatchPublish st pkt) ms ∧
      ∀ m ∈ ms, mqttAnySubMatches st m.topic = true := by
  have hnone : ∃ ms, Hears st st ms ∧ ∀ m ∈ ms, mqttAnySubMatches st m.topic = true :=
    ⟨[], Hears.refl st, by simp⟩
  unfold dispatchPublish
  cases pkt with
  | nil => split_ifs <;> exact hnone
  | cons head tail =>
    dsimp only
    split_ifs
    · exact hnone
    · exact hnone
    · exact hnone
    · exact hnone
    · split
      · split_ifs
        · exact hnone
        · exact dispatchTail_hears st _ _ _
      · exact hnone

theorem dispatchPublish_client (pkt : Bytes) : (dispatchPublish st pkt).client = st.client := by
  obtain ⟨ms, hh, -⟩ := dispatchPublish_admits st pkt
  exact hh.client

theorem scanPackets_client (expected : UInt8) (fuel : ℕ) (buf : Bytes) :
    (scanPackets expected fuel buf st).2.client = st.client := by
  induction fuel generalizing buf st with
  | zero => rfl
  | succ fuel ih =>
    cases buf with
    | nil => rfl
    | cons head tail =>
      simp only [scanPackets]
      split_ifs
      · rfl
      · rfl
      · exact (ih _ _).trans (dispatchPublish_client st _)
      · exact ih _ _

theorem mqttRecv_client (len : ℕ) : (mqttRecv st len).2.2.client = st.client := by
  unfold mqttRecv
  split <;> rfl

theorem mqttSend_client (f : Frame) : (mqttSend st f).2.client = st.client :=
  (Hears.send st f).client

theorem mqttWaitFor_client (expected : UInt8) (n : ℕ) :
    (mqttWaitFor expected n st).2.client = st.client := by
  induction n generalizing st with
  | zero => rfl
  | succ n ih =>
    have hr := mqttRecv_client st st.client.rxSize
    have hs := scanPackets_client (mqttRecv st st.client.rxSize).2.2 expected
      (mqttRecv st st.client.rxSize).2.1.length (mqttRecv st st.client.rxSize).2.1
    simp only [mqttWaitFor]
    split_ifs
    · exact (ih _).trans hr
    · exact hr
    · split
      · next st' heq =>
        rw [heq] at hs
        exact hs.trans hr
      · next st' heq =>
        rw [heq] at hs
        exact (ih _).trans (hs.trans hr)

end

inductive Action where
  | call (c : Call)
  | loop
  | disconnect

def Action.exec (b : Build) (st : St) : Action → Rc × St
  | .call c => c.exec b st
  | .loop => oveMqttLoop st
  | .disconnect => (.ok, oveMqttDisconnect st)

def Action.track (subscribed : List Bytes) : Action → List Bytes
  | .call (.subscribe (some t) _) =>
    if t.bytes ∈ subscribed then subscribed else subscribed ++ [t.bytes]
  | .call (.unsubscribe (some t)) => subscribed.filter (· ≠ t.bytes)
  | _ => subscribed

structure Session where
  st : St
  subscribed : List Bytes

def Session.next (b : Build) (s : Session) (a : Action) : Session :=
  ⟨(a.exec b s.st).2, if (a.exec b s.st).1 = .ok then a.track s.subscribed else s.subscribed⟩

def Session.step (b : Build) (s : Session) (a : Action) : Option Session := some (s.next b a)

def Session.after (b : Build) (s : Session) (as : List Action) : Session :=
  as.foldl (Session.next b) s

def Session.init (w : World) : Session := ⟨⟨oveMqttClientInit, w⟩, []⟩

def Session.wants (s : Session) (topic : Bytes) : Bool :=
  s.subscribed.any fun f => oveMqttTopicMatches f topic

/-- A PUBLISH with a topic the application wants calls it; with a filter subscribed, none with
another topic does. -/
def Session.Served (s : Session) : Prop :=
  s.st.client.onMessage = true → ∀ w : World,
    (∀ (p : Publish) (rest : Bytes), s.wants p.topic = true →
      deliveries (dispatchPublish ⟨s.st.client, w⟩ ((Packet.publish p).bytes ++ rest)).world.log =
        deliveries w.log ++ [⟨p.topic, p.payload⟩]) ∧
    (s.subscribed ≠ [] → ∀ pkt : Bytes, ∃ ms,
      deliveries (dispatchPublish ⟨s.st.client, w⟩ pkt).world.log = deliveries w.log ++ ms ∧
        ∀ m ∈ ms, s.wants m.topic = true)

/-- Filters have at most 63 bytes, and a new one is subscribed once, while the table has room. -/
def Session.Within (b : Build) (s : Session) : Action → Prop
  | .call (.subscribe (some t) _) =>
    t.bytes.length ≤ 63 ∧ t.bytes ∉ s.subscribed ∧ s.subscribed.length < b.maxSubs
  | .call (.unsubscribe (some t)) => t.bytes.length ≤ 63
  | _ => True

structure Session.Exact (s : Session) : Prop where
  table : s.st.client.subFilters = s.subscribed
  short : ∀ f ∈ s.subscribed, f.length ≤ 63
  nodup : s.subscribed.Nodup

variable {s : Session}

theorem Session.Exact.served (h : s.Exact) : s.Served := by
  intro hm w
  have hmatch : ∀ topic, s.subscribed ≠ [] →
      mqttAnySubMatches ⟨s.st.client, w⟩ topic = s.wants topic := by
    intro topic hne
    simp [mqttAnySubMatches, h.table, Session.wants, hne]
  constructor
  · intro p rest hw
    have hne : s.subscribed ≠ [] := by
      intro hnil
      simp [Session.wants, hnil] at hw
    have hheard := (@dispatchPublish_hears ⟨s.st.client, w⟩ hm p rest).heard
    rw [hheard, admitted, filter_singleton, hmatch p.topic hne, hw]
    rfl
  · intro hne pkt
    obtain ⟨ms, hh, hadm⟩ := dispatchPublish_admits ⟨s.st.client, w⟩ pkt
    exact ⟨ms, hh.heard, fun m hmem => by rw [← hmatch m.topic hne]; exact hadm m hmem⟩

section
variable {b : Build} {st : St}

theorem acquireBuffers_subFilters :
    (acquireBuffers b st).2.client.subFilters = st.client.subFilters := by
  unfold acquireBuffers
  dsimp only
  split_ifs <;> simp

theorem dropTls_subFilters : (dropTls st).client.subFilters = st.client.subFilters := by
  unfold dropTls
  split_ifs <;> rfl

theorem openTransport_subFilters (cfg : ConnectConfig) :
    (openTransport b st cfg).2.client.subFilters = st.client.subFilters :=
  openTransport_keeps b st cfg (Q := fun st' => st'.client.subFilters = st.client.subFilters)
    (fun _ _ h => by rwa [ask_client]) (fun _ _ _ h => h) (fun _ _ h => h) (fun _ h => h) rfl

theorem handshake_subFilters (f : Frame) :
    (handshake st f).2.client.subFilters = st.client.subFilters := by
  have hsend := mqttSend_client (st.note (.wroteTx f.bytes.length st.client.txSize)) f
  have hrecv := mqttRecv_client
    (mqttSend (st.note (.wroteTx f.bytes.length st.client.txSize)) f).2 4
  have hfail : ∀ (st' : St) (rc : Rc), st'.client = st.client →
      (failConnect st' rc).2.client.subFilters = st.client.subFilters := by
    intro st' rc h
    exact (@dropTls_subFilters st').trans (by rw [h])
  unfold handshake
  dsimp only
  split_ifs
  · exact hfail _ _ hsend
  · exact hfail _ _ (hrecv.trans hsend)
  · split
    · split_ifs
      · exact hfail _ _ (hrecv.trans hsend)
      · have hfilters := congrArg Client.subFilters (hrecv.trans hsend)
        exact hfilters
    · exact hfail _ _ (hrecv.trans hsend)

theorem connect_subFilters (cfg : ConnectConfig) :
    (oveMqttConnect b st cfg).2.client.subFilters = st.client.subFilters := by
  have hacq := @acquireBuffers_subFilters b st
  have hopen := @openTransport_subFilters b (configure (acquireBuffers b st).2 cfg) cfg
  unfold oveMqttConnect
  split
  · dsimp only
    split_ifs
    · exact hacq
    · exact hopen.trans hacq
    · exact hopen.trans hacq
    · exact (handshake_subFilters _).trans (hopen.trans hacq)
  · rfl

theorem disconnect_subFilters :
    (oveMqttDisconnect st).client.subFilters = st.client.subFilters := by
  unfold oveMqttDisconnect
  split_ifs
  · rfl
  · have hsend := congrArg Client.subFilters (mqttSend_client st ⟨0xE0, 0, []⟩)
    exact dropTls_subFilters.trans hsend

theorem transmit_client (f : Frame) : (transmit st f).2.client = st.client :=
  (Hears.transmit st f).client

theorem publish_subFilters (topic : Option CString) (payload : Payload) (qos : Qos) :
    (oveMqttPublish b st topic payload qos).2.client.subFilters = st.client.subFilters := by
  cases topic with
  | none => rfl
  | some topic =>
    have hbump : (if qos = .qos1 then bumpPktId st else st).client.subFilters =
        st.client.subFilters := by split_ifs <;> rfl
    have hsend := congrArg Client.subFilters (@transmit_client
      (if qos = .qos1 then bumpPktId st else st) (publishFrame b st topic payload qos))
    simp only [oveMqttPublish]
    split_ifs at hbump hsend ⊢
    all_goals first
      | rfl
      | exact hsend.trans hbump
      | exact (congrArg Client.subFilters (mqttWaitFor_client _ _ _)).trans (hsend.trans hbump)

theorem request_subFilters (b : Build) (st : St) (topic : Option CString) (frame : CString → Frame)
    (ack : UInt8) (done : CString → St → St) :
    ((request b st topic frame ack done).1 ≠ .ok ∧
      (request b st topic frame ack done).2.client.subFilters = st.client.subFilters) ∨
    ∃ t st', topic = some t ∧ st'.client.subFilters = st.client.subFilters ∧
      request b st topic frame ack done = (.ok, done t st') := by
  cases topic with
  | none => exact .inl ⟨by simp [request], rfl⟩
  | some t =>
    have hsend : (transmit (bumpPktId st) (frame t)).2.client.subFilters =
        st.client.subFilters := by
      rw [transmit_client]
      rfl
    have hwait : (mqttWaitFor ack 10 (transmit (bumpPktId st) (frame t)).2).2.client.subFilters =
        st.client.subFilters := (congrArg Client.subFilters (mqttWaitFor_client _ _ _)).trans hsend
    simp only [request]
    split_ifs with h₁ h₂ h₃ h₄ h₅
    · exact .inl ⟨by simp, rfl⟩
    · exact .inl ⟨by simp, rfl⟩
    · exact .inl ⟨h₄, hsend⟩
    · exact .inl ⟨h₅, hwait⟩
    · exact .inr ⟨t, _, rfl, hwait, rfl⟩
    · exact .inl ⟨by simp, rfl⟩

theorem loop_subFilters : (oveMqttLoop st).2.client.subFilters = st.client.subFilters := by
  have hr := mqttRecv_client st st.client.rxSize
  unfold oveMqttLoop
  dsimp only
  split_ifs
  · rfl
  · exact congrArg Client.subFilters ((mqttSend_client _ _).trans hr)
  · exact congrArg Client.subFilters hr
  · refine congrArg Client.subFilters (Eq.trans ?_ hr)
    unfold processReceived
    split
    · rfl
    · split_ifs
      · exact dispatchPublish_client _ _
      · rfl

end

theorem stored_whole {t : CString} (h : t.bytes.length ≤ 63) :
    CStr.ofArray (CStr.strncpy 63 t ++ [0]) = t.bytes := by
  have hsplit : CStr.strncpy 63 t ++ [0] =
      t.bytes ++ 0 :: replicate (63 - t.bytes.length) 0 := by
    rw [CStr.strncpy, take_of_length_le h, append_assoc, ← replicate_succ']
    rfl
  rw [hsplit]
  exact CStr.ofArray_append_zero t.noNul _

theorem eraseP_short {table : List Bytes} (hs : ∀ f ∈ table, f.length ≤ 63) (hn : table.Nodup)
    {t : Bytes} (ht : t.length ≤ 63) :
    table.eraseP (fun f => f.take 63 = t.take 63) = table.filter (· ≠ t) := by
  induction table with
  | nil => rfl
  | cons f fs ih =>
    obtain ⟨hnotin, hn⟩ := nodup_cons.mp hn
    have hf : f.take 63 = t.take 63 ↔ f = t := by
      rw [take_of_length_le (hs f (by simp)), take_of_length_le ht]
    by_cases he : f = t
    · have hall : fs.filter (· ≠ t) = fs := by
        rw [filter_eq_self]
        intro g hg
        simp only [decide_eq_true_eq]
        rintro rfl
        exact hnotin (he ▸ hg)
      rw [eraseP_cons_of_pos (by simp [he]), filter_cons_of_neg (by simp [he]), hall]
    · rw [eraseP_cons_of_neg (by simp [hf, he]), filter_cons_of_pos (by simp [he]),
        ih (fun g hg => hs g (by simp [hg])) hn]

section
variable {b : Build} {s : Session} {t : CString}

theorem Session.Exact.store (h : s.Exact) {st : St} (hst : st.client.subFilters = s.subscribed)
    (hlen : t.bytes.length ≤ 63) (hnew : t.bytes ∉ s.subscribed)
    (hroom : s.subscribed.length < b.maxSubs) :
    Session.Exact ⟨storeFilter b t st, s.subscribed ++ [t.bytes]⟩ where
  table := by
    rw [storeFilter, hst, if_pos hroom, stored_whole hlen]
  short := by
    intro f hf
    rcases mem_append.mp hf with hf | hf
    · exact h.short f hf
    · rw [mem_singleton.mp hf]
      exact hlen
  nodup := Nodup.append h.nodup (nodup_singleton _) (by simpa using hnew)

theorem Session.Exact.remove (h : s.Exact) {st : St} (hst : st.client.subFilters = s.subscribed)
    (hlen : t.bytes.length ≤ 63) :
    Session.Exact ⟨removeFilter t st, s.subscribed.filter (· ≠ t.bytes)⟩ where
  table := by
    rw [removeFilter, hst]
    exact eraseP_short h.short h.nodup hlen
  short := fun f hf => h.short f (mem_filter.mp hf).1
  nodup := h.nodup.filter _

theorem Session.Exact.step {a : Action} {s' : Session} (h : s.Exact) (hw : s.Within b a)
    (hstep : s.step b a = some s') : s'.Exact := by
  cases hstep
  -- every other call leaves both the table and the subscriptions as they are
  have hkeep : a.track s.subscribed = s.subscribed →
      (a.exec b s.st).2.client.subFilters = s.st.client.subFilters → (s.next b a).Exact := by
    intro ht hst
    rw [Session.next, ht, ite_self]
    exact ⟨hst.trans h.table, h.short, h.nodup⟩
  have hfail : (a.exec b s.st).1 ≠ .ok →
      (a.exec b s.st).2.client.subFilters = s.st.client.subFilters → (s.next b a).Exact := by
    intro hrc hst
    rw [Session.next, if_neg hrc]
    exact ⟨hst.trans h.table, h.short, h.nodup⟩
  cases a with
  | loop => exact hkeep rfl loop_subFilters
  | disconnect => exact hkeep rfl disconnect_subFilters
  | call c =>
    cases c with
    | connect cfg => exact hkeep rfl (connect_subFilters cfg)
    | publish topic payload qos => exact hkeep rfl (publish_subFilters topic payload qos)
    | subscribe topic qos =>
      rcases request_subFilters b s.st topic
        (fun t => requestFrame s.st 0x82 t [.raw [qos.toByte]] 1) 0x90 (storeFilter b)
        with ⟨hrc, hst⟩ | ⟨t, st', rfl, hst, heq⟩
      · exact hfail hrc hst
      · obtain ⟨hlen, hnew, hroom⟩ := hw
        have hexec : (Action.call (.subscribe (some t) qos)).exec b s.st =
            (.ok, storeFilter b t st') :=
          heq
        rw [Session.next, hexec, if_pos rfl, Action.track, if_neg hnew]
        exact h.store (hst.trans h.table) hlen hnew hroom
    | unsubscribe topic =>
      rcases request_subFilters b s.st topic (fun t => requestFrame s.st 0xA2 t [] 0) 0xB0
        removeFilter with ⟨hrc, hst⟩ | ⟨t, st', rfl, hst, heq⟩
      · exact hfail hrc hst
      · have hexec : (Action.call (.unsubscribe (some t))).exec b s.st =
            (.ok, removeFilter t st') :=
          heq
        rw [Session.next, hexec, if_pos rfl, Action.track]
        exact h.remove (hst.trans h.table) hw

end

theorem filters_serve_within (b : Build) (w : World) (as : List Action)
    (h : Runs.Each (Session.step b) (Session.Within b) (Session.init w) as) :
    Runs.Always (Session.step b) Session.Served (Session.init w) as := by
  have hinit : (Session.init w).Exact := ⟨rfl, by simp [Session.init], by simp [Session.init]⟩
  have hall : Runs.Always (Session.step b) Session.Exact (Session.init w) as :=
    Runs.always_of_each (fun s a t hs hc ht => hs.step hc ht) hinit h
  exact hall.mono fun s hs => hs.served

theorem Session.served_after {b : Build} {as : List Action}
    (h : Runs.Always (Session.step b) Session.Served s as) : (s.after b as).Served := by
  induction as generalizing s with
  | nil => exact h
  | cons a as ih => exact ih (h.2 _ rfl)

def plainConfig : ConnectConfig := ⟨some topicT, some topicT, none, none, 60, false, true⟩

def accepting (n : ℕ) : World :=
  ⟨fun _ => [], (.ok, [0x20, 2, 0, 0]) :: replicate n (.ok, [0x90, 3, 0, 1, 0]), []⟩

def subscribing (ts : List CString) : List Action :=
  .call (.connect plainConfig) :: ts.map fun t => .call (.subscribe (some t) .qos0)

theorem one_filter_served :
    ((Session.init (accepting 1)).after smallBuild (subscribing [topicT])).subscribed = [[0x74]] ∧
      Runs.Always (Session.step smallBuild) Session.Served (Session.init (accepting 1))
        (subscribing [topicT]) := by
  refine ⟨by decide +kernel, filters_serve_within _ _ _ ?_⟩
  intro s hs
  cases hs
  exact ⟨trivial, fun s hs => ⟨⟨by decide, by decide +kernel, by decide +kernel⟩, trivial⟩⟩

def letter (i : Fin 26) : CString where
  bytes := [0x61 + UInt8.ofNat i.val]
  noNul := by
    have h : ∀ i : Fin 26, 0x61 + UInt8.ofNat i.val ≠ 0 := by decide +kernel
    simpa using h i

def longFilter : CString := ⟨replicate 64 0x61, by decide +kernel⟩

theorem filter_lost_or_cut :
    ¬Runs.Always (Session.step smallBuild) Session.Served (Session.init (accepting 9))
      (subscribing (((finRange 26).take 9).map letter)) ∧
    ¬Runs.Always (Session.step smallBuild) Session.Served (Session.init (accepting 1))
      (subscribing [longFilter]) := by
  constructor
  · intro h
    have hs := (Session.served_after h (by decide +kernel) quiet).1
      ⟨0x30, [0x69], 0, [1], by decide, by decide, by decide⟩ [] (by decide +kernel)
    revert hs
    decide +kernel
  · intro h
    have hs := (Session.served_after h (by decide +kernel) quiet).1
      ⟨0x30, replicate 64 0x61, 0, [1], by decide, by decide, by decide⟩ [] (by decide +kernel)
    revert hs
    decide +kernel

end Overtos.Mqtt
