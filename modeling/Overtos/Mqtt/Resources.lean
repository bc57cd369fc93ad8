import Overtos.Lib.Ledger
import Overtos.Mqtt.Filters

/-! Who owns the buffers, sockets and TLS sessions of an MQTT client over its whole life. -/
namespace Overtos.Mqtt
open CStr (Bytes CString)
open Ledgers (Ledger acquire clear release move Balanced Lost Accounted)

inductive Slot where
  | rxBuf | txBuf | sock | tls | session
  deriving DecidableEq, Repr

inductive Kind where
  | buffer | socket | session
  deriving DecidableEq, Repr

inductive Storage where
  | client
  | connectFrame
  deriving DecidableEq, Repr

def Slot.storage : Slot → Option Storage
  | .sock => some .client
  | .tls => some .connectFrame
  | .session => some .connectFrame
  | _ => none

def Storage.live : Storage → Bool
  | .client => true
  | .connectFrame => false

structure Holder where
  st : St
  ledger : Ledger Slot Kind

def Overlong (cfg : ConnectConfig) (cid : CString) : Prop :=
  0xFFFF < cid.bytes.length ∨ 0xFFFF < optLen cfg.username ∨ 0xFFFF < optLen cfg.password

instance (cfg : ConnectConfig) (cid : CString) : Decidable (Overlong cfg cid) :=
  inferInstanceAs (Decidable (_ ∨ _))

namespace Holder

def init (w : World) : Holder := ⟨⟨oveMqttClientInit, w⟩, Ledgers.empty⟩

section
variable (h : Holder)

def ask (e : Ext) : Rc × Holder := ((h.st.ask e).1, ⟨(h.st.ask e).2, h.ledger⟩)

def note (e : Event) : Holder := ⟨h.st.note e, h.ledger⟩

def setClient (c : Client) : Holder := ⟨{ h.st with client := c }, h.ledger⟩

def storeBuffer (e : Ext) (s : Slot) (rc : Rc) : Holder :=
  if rc = .ok then ⟨h.st.note (.allocated e), acquire h.ledger s .buffer⟩
  else ⟨h.st, clear h.ledger s⟩

def acquireBuffers (b : Build) : Rc × Holder :=
  let h := h.setClient { h.st.client with rxSize := b.rxBuf, txSize := b.txBuf }
  if b.zeroHeap then (.ok, h)
  else
    let (r₁, h) := h.ask .mallocRx
    let h := h.storeBuffer .mallocRx .rxBuf r₁
    let (r₂, h) := h.ask .mallocTx
    let h := h.storeBuffer .mallocTx .txBuf r₂
    (if r₁ = .ok ∧ r₂ = .ok then .ok else .errNoMemory, h)

def closeSocket : Holder := ⟨Mqtt.closeSocket h.st, release h.ledger .sock⟩

def dropTls : Holder :=
  ⟨Mqtt.dropTls h.st, if h.st.client.tls then release h.ledger .tls else h.ledger⟩

def openSocket : Rc × Holder :=
  let (rc, h) := h.ask .dnsResolve
  if rc ≠ .ok then (rc, h)
  else
    let (rc, h) := h.ask .socketOpen
    if rc ≠ .ok then (rc, h)
    else (.ok, ⟨{ h.st.note .socketOpened with client := { h.st.client with sock := true } },
      acquire h.ledger .sock .socket⟩)

def secure (b : Build) (cfg : ConnectConfig) : Rc × Holder :=
  let (rc, h) := h.ask .socketConnect
  if rc ≠ .ok then (rc, h.closeSocket)
  else if cfg.useTls = false then (.ok, h)
  else if b.tls = false then (.errNotSupported, h.closeSocket)
  else
    let (rc, h) := h.ask .tlsInit
    if rc ≠ .ok then (rc, h.closeSocket)
    else
      let h : Holder := ⟨h.st.note .tlsStarted, acquire h.ledger .session .session⟩
      let (rc, h) := h.ask .tlsHandshake
      if rc ≠ .ok then
        (rc, closeSocket ⟨h.st.note .tlsEnded, release h.ledger .session⟩)
      else (.ok, ⟨{ h.st with client := { h.st.client with tls := true } },
        move h.ledger .session .tls⟩)

def failConnect (rc : Rc) : Rc × Holder := (rc, h.dropTls.closeSocket)

def handshake (f : Frame) : Rc × Holder :=
  let h := h.note (.wroteTx f.bytes.length h.st.client.txSize)
  let (rc, st) := mqttSend h.st f
  let h : Holder := ⟨st, h.ledger⟩
  if rc ≠ .ok then h.failConnect rc
  else
    let (rc, data, st) := mqttRecv h.st 4
    let h : Holder := ⟨st, h.ledger⟩
    if rc ≠ .ok then h.failConnect rc
    else
      match data with
      | [b₀, _, _, b₃] =>
        if b₀ ≠ 0x20 ∨ b₃ ≠ 0 then h.failConnect .errNotSupported
        else (.ok, h.setClient { h.st.client with connected := true })
      | _ => h.failConnect .errNotSupported

def connect (b : Build) (cfg : ConnectConfig) : Rc × Holder :=
  match cfg.host, cfg.clientId with
  | some _, some cid =>
    let (rc, h) := h.acquireBuffers b
    if rc ≠ .ok then (rc, h)
    else
      let h : Holder := ⟨configure h.st cfg, h.ledger⟩
      let (rc, h) := h.openSocket
      if rc ≠ .ok then (rc, h)
      else
        let (rc, h) := h.secure b cfg
        if rc ≠ .ok then (rc, h)
        else if Overlong cfg cid then (.errInvalidParam, h)
        else h.handshake (connectFrame cfg cid (keepAlive cfg))
  | _, _ => (.errInvalidParam, h)

def disconnect : Holder :=
  if h.st.client.connected = false then h
  else
    let h : Holder := ⟨(mqttSend h.st ⟨0xE0, 0, []⟩).2, h.ledger⟩
    (h.setClient { h.st.client with connected := false }).dropTls.closeSocket

def deinit (b : Build) : Holder :=
  let ledger := if b.zeroHeap then h.ledger else release (release h.ledger .rxBuf) .txBuf
  ⟨{ h.st with client := oveMqttClientInit }, clear (clear ledger .sock) .tls⟩

end

def erase (r : Rc × Holder) : Rc × St := (r.1, r.2.st)

section
variable (h : Holder) (b : Build)

theorem acquireBuffers_erase : erase (h.acquireBuffers b) = Mqtt.acquireBuffers b h.st := by
  unfold acquireBuffers Mqtt.acquireBuffers erase
  dsimp only [setClient, ask, storeBuffer]
  split_ifs <;> rfl

theorem openTransport_erase (cfg : ConnectConfig) :
    erase (if h.openSocket.1 ≠ .ok then h.openSocket else h.openSocket.2.secure b cfg) =
      openTransport b h.st cfg := by
  unfold openSocket openTransport
  dsimp only [ask]
  by_cases hdns : (h.st.ask .dnsResolve).1 = .ok
  · by_cases hsock : ((h.st.ask .dnsResolve).2.ask .socketOpen).1 = .ok
    · -- the socket is open: what is left of both is the same decision tree
      simp only [hdns, hsock, ne_eq, not_true_eq_false, if_false]
      unfold secure
      simp only [apply_ite erase]
      rfl
    · simp only [hdns, hsock, ne_eq, not_true_eq_false, not_false_eq_true, if_true, if_false]
      rfl
  · simp only [hdns, ne_eq, not_false_eq_true, if_true]
    rfl

theorem handshake_erase (f : Frame) : erase (h.handshake f) = Mqtt.handshake h.st f := by
  unfold handshake Mqtt.handshake
  dsimp only [note]
  generalize mqttRecv (mqttSend _ f).2 4 = recv
  obtain ⟨rc, data, st⟩ := recv
  split_ifs
  · rfl
  · rfl
  · rcases data with _ | ⟨b₀, _ | ⟨b₁, _ | ⟨b₂, _ | ⟨b₃, _ | ⟨b₄, data⟩⟩⟩⟩⟩
    all_goals first | rfl | (dsimp only; split_ifs <;> rfl)

theorem connect_erase (cfg : ConnectConfig) :
    erase (h.connect b cfg) = oveMqttConnect b h.st cfg := by
  cases hhost : cfg.host with
  | none => simp only [connect, oveMqttConnect, hhost, erase]
  | some host =>
    cases hcid : cfg.clientId with
    | none => simp only [connect, oveMqttConnect, hhost, hcid, erase]
    | some cid =>
      have hacq : Mqtt.acquireBuffers b h.st = erase (h.acquireBuffers b) :=
        (h.acquireBuffers_erase b).symm
      simp only [connect, oveMqttConnect, hhost, hcid, hacq]
      generalize h.acquireBuffers b = got
      obtain ⟨rc, h₁⟩ := got
      by_cases hrc : rc = .ok
      · have hopen := (openTransport_erase ⟨configure h₁.st cfg, h₁.ledger⟩ b cfg).symm
        simp only [hrc, erase, ne_eq, not_true_eq_false, if_false] at hopen ⊢
        simp only [hopen]
        generalize openSocket ⟨configure h₁.st cfg, h₁.ledger⟩ = opened
        obtain ⟨rc, h₂⟩ := opened
        by_cases ho : rc = .ok
        · simp only [ho, not_true_eq_false, if_false]
          generalize h₂.secure b cfg = secured
          obtain ⟨rc, h₃⟩ := secured
          by_cases hs : rc = .ok
          · simp only [hs, not_true_eq_false, if_false]
            by_cases hlong : Overlong cfg cid
            · rw [if_pos hlong]
              exact (if_pos hlong).symm
            · rw [if_neg hlong]
              exact (h₃.handshake_erase _).trans (if_neg hlong).symm
          · simp only [hs, not_false_eq_true, if_true]
        · simp only [ho, not_false_eq_true, if_true]
      · simp only [hrc, erase, ne_eq, not_false_eq_true, if_true]

theorem disconnect_erase : h.disconnect.st = oveMqttDisconnect h.st := by
  unfold disconnect oveMqttDisconnect
  split_ifs <;> rfl

end

/-! What each stage of a connect does to the ledger. -/

def put (L : Ledger Slot Kind) (s : Slot) (rc : Rc) : Ledger Slot Kind :=
  if rc = .ok then acquire L s .buffer else clear L s

theorem put_slot_of_ne (L : Ledger Slot Kind) {s t : Slot} (rc : Rc) (hts : t ≠ s) :
    (put L s rc).slot t = L.slot t := by
  unfold put
  split_ifs
  · rw [Ledgers.acquire_slot, if_neg hts]
  · rw [Ledgers.clear_slot, if_neg hts]

section
variable (h : Holder) (b : Build)

theorem storeBuffer_ledger (e : Ext) (s : Slot) (rc : Rc) :
    (h.storeBuffer e s rc).ledger = put h.ledger s rc := by
  unfold storeBuffer put
  split_ifs <;> rfl

theorem storeBuffer_client (e : Ext) (s : Slot) (rc : Rc) :
    (h.storeBuffer e s rc).st.client = h.st.client := by
  unfold storeBuffer
  split_ifs <;> rfl

theorem ask_holder_client (e : Ext) : (h.ask e).2.st.client = h.st.client := ask_client h.st e

def SameFlags (c c' : Client) : Prop := c'.tls = c.tls ∧ c'.connected = c.connected

theorem acquireBuffers_cases : SameFlags h.st.client (h.acquireBuffers b).2.st.client ∧
    ((b.zeroHeap = true ∧ (h.acquireBuffers b).2.ledger = h.ledger) ∨
      (b.zeroHeap = false ∧ ∃ r₁ r₂, (h.acquireBuffers b).2.ledger =
        put (put h.ledger .rxBuf r₁) .txBuf r₂)) := by
  unfold acquireBuffers
  dsimp only
  by_cases hz : b.zeroHeap = true
  · rw [if_pos hz]
    exact ⟨⟨rfl, rfl⟩, .inl ⟨hz, rfl⟩⟩
  · rw [if_neg hz]
    refine ⟨?_, .inr ⟨by simpa using hz, ?_⟩⟩
    · simp only [SameFlags, storeBuffer_client, ask_holder_client]
      exact ⟨rfl, rfl⟩
    · have hrx : ∀ h' : Holder, h'.ledger = h.ledger →
          ((h'.ask .mallocRx).2.storeBuffer .mallocRx .rxBuf (h'.ask .mallocRx).1).ledger =
            put h.ledger .rxBuf (h'.ask .mallocRx).1 := by
        intro h' hl
        rw [storeBuffer_ledger, ← hl]
        rfl
      exact ⟨_, _, (storeBuffer_ledger _ _ _ _).trans
        (congrArg (fun L => put L .txBuf _) (hrx _ rfl))⟩

theorem openSocket_cases : SameFlags h.st.client h.openSocket.2.st.client ∧
    ((h.openSocket.1 ≠ .ok ∧ h.openSocket.2.ledger = h.ledger) ∨
      (h.openSocket.1 = .ok ∧ h.openSocket.2.ledger = acquire h.ledger .sock .socket)) := by
  unfold openSocket
  dsimp only [ask]
  split_ifs with h₁ h₂
  · exact ⟨⟨by simp, by simp⟩, .inl ⟨h₁, rfl⟩⟩
  · exact ⟨⟨by simp, by simp⟩, .inl ⟨h₂, rfl⟩⟩
  · exact ⟨⟨by simp, by simp⟩, .inr ⟨rfl, rfl⟩⟩

def Secured (cfg : ConnectConfig) (r : Rc × Holder) : Prop :=
  (r.1 = .ok ∧ cfg.useTls = false ∧ r.2.ledger = h.ledger ∧ SameFlags h.st.client r.2.st.client) ∨
  (r.1 = .ok ∧ cfg.useTls = true ∧
    r.2.ledger = move (acquire h.ledger .session .session) .session .tls ∧
    r.2.st.client.tls = true ∧ r.2.st.client.connected = h.st.client.connected) ∨
  (r.1 ≠ .ok ∧ SameFlags h.st.client r.2.st.client ∧
    (r.2.ledger = release h.ledger .sock ∨
      r.2.ledger = release (release (acquire h.ledger .session .session) .session) .sock))

theorem secure_cases (cfg : ConnectConfig) : h.Secured cfg (h.secure b cfg) := by
  have hclose : ∀ st : St, st.client = h.st.client →
      SameFlags h.st.client (Mqtt.closeSocket st).client := by
    intro st hst
    rw [← hst]
    exact ⟨rfl, rfl⟩
  unfold secure
  dsimp only [ask, closeSocket]
  split_ifs with h₁ h₂ h₃ h₄ h₅
  · exact .inr (.inr ⟨h₁, hclose _ (by simp), .inl rfl⟩)
  · exact .inl ⟨rfl, h₂, rfl, by simp, by simp⟩
  · exact .inr (.inr ⟨by simp, hclose _ (by simp), .inl rfl⟩)
  · exact .inr (.inr ⟨h₄, hclose _ (by simp), .inl rfl⟩)
  · exact .inr (.inr ⟨h₅, hclose _ (by simp), .inr rfl⟩)
  · exact .inr (.inl ⟨rfl, by simpa using h₂, rfl, rfl, by simp⟩)

def dropped (tls : Bool) (L : Ledger Slot Kind) : Ledger Slot Kind :=
  release (if tls then release L .tls else L) .sock

theorem dropTls_flags : (Mqtt.dropTls h.st).client.connected = h.st.client.connected ∧
    (Mqtt.dropTls h.st).client.tls = false := by
  unfold Mqtt.dropTls
  split_ifs with ht
  · exact ⟨rfl, rfl⟩
  · exact ⟨rfl, by simpa using ht⟩

def Shaken (r : Rc × Holder) : Prop :=
  (r.1 = .ok ∧ r.2.ledger = h.ledger ∧ r.2.st.client.tls = h.st.client.tls ∧
    r.2.st.client.connected = true) ∨
  (r.1 ≠ .ok ∧ r.2.ledger = dropped h.st.client.tls h.ledger ∧ r.2.st.client.tls = false ∧
    r.2.st.client.connected = h.st.client.connected)

theorem handshake_cases (f : Frame) : h.Shaken (h.handshake f) := by
  have hsend := mqttSend_client (h.st.note (.wroteTx f.bytes.length h.st.client.txSize)) f
  have hrecv := mqttRecv_client
    (mqttSend (h.st.note (.wroteTx f.bytes.length h.st.client.txSize)) f).2 4
  have hfail : ∀ (st' : St) (rc : Rc), rc ≠ .ok → st'.client = h.st.client →
      h.Shaken (failConnect ⟨st', h.ledger⟩ rc) := by
    intro st' rc hrc hst
    obtain ⟨hc, ht⟩ := dropTls_flags ⟨st', h.ledger⟩
    refine .inr ⟨hrc, ?_, ht, hc.trans (by rw [hst])⟩
    rw [← hst]
    rfl
  unfold handshake
  dsimp only [note]
  split_ifs with h₁ h₂
  · exact hfail _ _ h₁ hsend
  · exact hfail _ _ h₂ (hrecv.trans hsend)
  · split
    · split_ifs
      · exact hfail _ _ (by simp) (hrecv.trans hsend)
      · have htls := congrArg Client.tls (hrecv.trans hsend)
        exact .inl ⟨rfl, rfl, htls, rfl⟩
    · exact hfail _ _ (by simp) (hrecv.trans hsend)

end

/-! The invariant of the ledger between calls. -/

structure Clean (b : Build) (L : Ledger Slot Kind) : Prop where
  balanced : Balanced L
  buffers : ∀ s i, s = .rxBuf ∨ s = .txBuf → L.slot s = some i → L.kinds[i]? = some .buffer
  noTls : L.slot .tls = none
  noSession : L.slot .session = none
  embedded : b.zeroHeap = true → L.slot .rxBuf = none ∧ L.slot .txBuf = none

section
variable {b : Build} {L : Ledger Slot Kind}

theorem kind_append {i : ℕ} {k : Kind} (h : L.kinds[i]? = some k) (k' : Kind) :
    (L.kinds ++ [k'])[i]? = some k := by
  rw [List.getElem?_append_left (List.getElem?_eq_some_iff.mp h).1, h]

theorem kind_last (L : Ledger Slot Kind) (k : Kind) :
    (L.kinds ++ [k])[L.kinds.length]? = some k := by simp

theorem Clean.put (h : Clean b L) {s : Slot} (hs : s = .rxBuf ∨ s = .txBuf)
    (hnone : L.slot s = none)
    (hz : b.zeroHeap = false) (rc : Rc) : Clean b (put L s rc) := by
  unfold Holder.put
  split_ifs
  · constructor
    · exact h.balanced.acquire hnone _
    · intro t i ht hi
      rw [Ledgers.acquire_slot] at hi
      split_ifs at hi
      · cases hi
        exact kind_last L _
      · exact kind_append (h.buffers t i ht hi) _
    · rw [Ledgers.acquire_slot, if_neg (by rcases hs with rfl | rfl <;> simp)]
      exact h.noTls
    · rw [Ledgers.acquire_slot, if_neg (by rcases hs with rfl | rfl <;> simp)]
      exact h.noSession
    · simp [hz]
  · rw [Ledgers.clear_of_none hnone]
    exact h

variable {L' : Ledger Slot Kind}

theorem Clean.of_buffers (h : Clean b L) (hb : Balanced L')
    (hk : ∀ (i : ℕ) (k : Kind), L.kinds[i]? = some k → L'.kinds[i]? = some k)
    (hrx : L'.slot .rxBuf = L.slot .rxBuf) (htx : L'.slot .txBuf = L.slot .txBuf)
    (ht : L'.slot .tls = none) (hs : L'.slot .session = none) : Clean b L' := by
  refine ⟨hb, ?_, ht, hs, fun hz => by rw [hrx, htx]; exact h.embedded hz⟩
  rintro s i (rfl | rfl) hi
  · exact hk i _ (h.buffers _ i (.inl rfl) (hrx ▸ hi))
  · exact hk i _ (h.buffers _ i (.inr rfl) (htx ▸ hi))

theorem Clean.openSocket (h : Clean b L) (hnone : L.slot .sock = none) :
    Clean b (acquire L .sock .socket) :=
  h.of_buffers (h.balanced.acquire hnone _) (fun _ _ hk => kind_append hk _) rfl rfl h.noTls
    h.noSession

theorem Clean.closeSocket (h : Clean b L) : Clean b (release L .sock) :=
  h.of_buffers (h.balanced.release _) (fun _ _ hk => hk) rfl rfl h.noTls h.noSession

theorem Clean.failedSession (h : Clean b L) :
    Clean b (release (acquire L .session .session) .session) :=
  h.of_buffers ((h.balanced.acquire h.noSession _).release _) (fun _ _ hk => kind_append hk _)
    rfl rfl h.noTls rfl

theorem Clean.endedSession (h : Clean b L) :
    Clean b (release (move (acquire L .session .session) .session .tls) .tls) := by
  have hmove : Balanced (move (acquire L .session .session) .session .tls) :=
    (h.balanced.acquire h.noSession .session).move (by simp) h.noTls
  exact h.of_buffers (hmove.release _) (fun _ _ hk => kind_append hk _) rfl rfl rfl rfl

theorem Clean.none_of_ne_sock (h : Clean b L) (hrx : L'.slot .rxBuf = none)
    (htx : L'.slot .txBuf = none) (ht : L'.slot .tls = L.slot .tls)
    (hs : L'.slot .session = L.slot .session) : ∀ s, s ≠ .sock → L'.slot s = none := by
  intro s hne
  cases s with
  | rxBuf => exact hrx
  | txBuf => exact htx
  | sock => exact absurd rfl hne
  | tls => exact ht.trans h.noTls
  | session => exact hs.trans h.noSession

end

inductive Op where
  | connect (cfg : ConnectConfig)
  | disconnect

def exec (b : Build) (h : Holder) : Op → Rc × Holder
  | .connect cfg => h.connect b cfg
  | .disconnect => (.ok, h.disconnect)

def HandlesLive (h : Holder) : Prop :=
  h.st.client.connected = true → h.ledger.slot .sock ≠ none ∧
    ∀ s, s = .sock ∨ s = .tls → h.ledger.slot s ≠ none → ∀ o, s.storage = some o → o.live = true

def NothingOpen (h h' : Holder) : Prop :=
  ∀ i k, h.ledger.kinds.length ≤ i → h'.ledger.kinds[i]? = some k → k ≠ .buffer →
    i ∈ h'.ledger.released

/-- No failed connect leaves anything open, and after deinit everything has been released exactly
once. -/
def Sound (b : Build) : Holder → List Op → Prop
  | h, [] => Accounted (h.deinit b).ledger
  | h, op :: ops =>
    ((h.exec b op).1 ≠ .ok → NothingOpen h (h.exec b op).2) ∧ HandlesLive (h.exec b op).2 ∧
      Sound b (h.exec b op).2 ops

def buffered (b : Build) (h : Holder) (cfg : ConnectConfig) : Holder :=
  ⟨configure (h.acquireBuffers b).2.st cfg, (h.acquireBuffers b).2.ledger⟩

def OpensSocket (b : Build) (h : Holder) (cfg : ConnectConfig) : Prop :=
  (h.acquireBuffers b).1 = .ok ∧ (h.buffered b cfg).openSocket.1 = .ok

def OpensTransport (b : Build) (h : Holder) (cfg : ConnectConfig) : Prop :=
  h.OpensSocket b cfg ∧ ((h.buffered b cfg).openSocket.2.secure b cfg).1 = .ok

/-- A connect finds no heap buffers, no open connection and no overlong text, and does not succeed
over TLS. -/
def Careful (b : Build) (h : Holder) : Op → Prop
  | .connect cfg => ∀ host cid, cfg.host = some host → cfg.clientId = some cid →
    (b.zeroHeap = false → h.ledger.slot .rxBuf = none ∧ h.ledger.slot .txBuf = none) ∧
    (h.OpensSocket b cfg → h.st.client.connected = false) ∧
    (h.OpensTransport b cfg → ¬Overlong cfg cid) ∧
    ((h.connect b cfg).1 = .ok → cfg.useTls = false)
  | .disconnect => True

def CarefulRun (b : Build) : Holder → List Op → Prop
  | h, [] => h.st.client.connected = false
  | h, op :: ops => h.Careful b op ∧ CarefulRun b (h.exec b op).2 ops

structure Good (b : Build) (h : Holder) : Prop where
  clean : Clean b h.ledger
  noTls : h.st.client.tls = false
  connected : h.st.client.connected = true ↔ h.ledger.slot .sock ≠ none

section
variable {b : Build} {h h' : Holder}

theorem Good.handlesLive (hg : Good b h) : HandlesLive h := by
  intro hc
  refine ⟨hg.connected.mp hc, ?_⟩
  rintro s (rfl | rfl) hs o ho
  · cases ho
    rfl
  · exact absurd hg.clean.noTls hs

theorem Clean.nothingOpen (hc : Clean b h'.ledger)
    (hs : ∀ i, h'.ledger.slot .sock = some i → i < h.ledger.kinds.length) : NothingOpen h h' := by
  intro i k hi hk hne
  have hlt : i < h'.ledger.kinds.length := (List.getElem?_eq_some_iff.mp hk).1
  rcases hc.balanced.kept i hlt with hr | ⟨s, hslot⟩
  · exact hr
  · exfalso
    cases s with
    | rxBuf =>
      have hb := hc.buffers _ i (.inl rfl) hslot
      rw [hk] at hb
      exact hne (Option.some.inj hb)
    | txBuf =>
      have hb := hc.buffers _ i (.inr rfl) hslot
      rw [hk] at hb
      exact hne (Option.some.inj hb)
    | sock =>
      have := hs i hslot
      omega
    | tls => rw [hc.noTls] at hslot; cases hslot
    | session => rw [hc.noSession] at hslot; cases hslot

theorem Good.deinit_iff (hg : Good b h) :
    Accounted (h.deinit b).ledger ↔ h.st.client.connected = false := by
  -- the ledger before the fields are zeroed
  have hfree : ∃ L : Ledger Slot Kind, (h.deinit b).ledger = clear (clear L .sock) .tls ∧
      Balanced L ∧ L.slot .sock = h.ledger.slot .sock ∧ ∀ s, s ≠ .sock → L.slot s = none := by
    by_cases hz : b.zeroHeap = true
    · obtain ⟨hrx, htx⟩ := hg.clean.embedded hz
      exact ⟨h.ledger, by simp only [deinit, hz, if_true], hg.clean.balanced, rfl,
        hg.clean.none_of_ne_sock hrx htx rfl rfl⟩
    · refine ⟨release (release h.ledger .rxBuf) .txBuf, ?_, (hg.clean.balanced.release _).release _,
        rfl, hg.clean.none_of_ne_sock rfl rfl rfl rfl⟩
      simp only [deinit, hz, if_false, Bool.false_eq_true]
  obtain ⟨L, hL, hbal, hsock, hnone⟩ := hfree
  rw [hL]
  have hconn := hg.connected
  rw [← hsock] at hconn
  constructor
  · intro ha
    by_contra hc
    have hlost := hbal.lost_clear (hconn.mp (by simpa using hc))
    exact (hlost.clear .tls).not_accounted ha
  · intro hc
    have hs : L.slot .sock = none := by
      by_contra hs
      rw [hconn.mpr hs] at hc
      cases hc
    rw [Ledgers.clear_of_none hs, Ledgers.clear_of_none (hnone .tls (by simp)), hbal.accounted_iff]
    intro s
    by_cases hss : s = .sock
    · rw [hss, hs]
    · exact hnone s hss

end

/-! What is lost stays lost. -/

section
variable {b : Build} {h : Holder} {cfg : ConnectConfig} {L : Ledger Slot Kind}

theorem lost_put (hl : Lost L) (s : Slot) (rc : Rc) : Lost (put L s rc) := by
  unfold Holder.put
  split_ifs
  · exact hl.acquire _ _
  · exact hl.clear _

theorem lost_dropped (hl : Lost L) (tls : Bool) : Lost (dropped tls L) := by
  unfold Holder.dropped
  cases tls
  · exact hl.release _
  · exact (hl.release _).release _

theorem lost_acquireBuffers (hl : Lost h.ledger) : Lost (h.acquireBuffers b).2.ledger := by
  obtain ⟨-, ⟨-, hL⟩ | ⟨-, r₁, r₂, hL⟩⟩ := h.acquireBuffers_cases b
  · rwa [hL]
  · rw [hL]
    exact lost_put (lost_put hl _ _) _ _

theorem lost_openSocket (hl : Lost h.ledger) : Lost h.openSocket.2.ledger := by
  obtain ⟨-, ⟨-, hL⟩ | ⟨-, hL⟩⟩ := h.openSocket_cases
  · rwa [hL]
  · rw [hL]
    exact hl.acquire _ _

theorem lost_secure (hl : Lost h.ledger) : Lost (h.secure b cfg).2.ledger := by
  obtain ⟨-, -, hL, -⟩ | ⟨-, -, hL, -⟩ | ⟨-, -, hL | hL⟩ := h.secure_cases b cfg
  · rwa [hL]
  · rw [hL]
    exact (hl.acquire _ _).move _ _
  · rw [hL]
    exact hl.release _
  · rw [hL]
    exact ((hl.acquire _ _).release _).release _

theorem lost_handshake (hl : Lost h.ledger) (f : Frame) : Lost (h.handshake f).2.ledger := by
  obtain ⟨-, hL, -⟩ | ⟨-, hL, -⟩ := h.handshake_cases f
  · rwa [hL]
  · rw [hL]
    exact lost_dropped hl _

variable {host cid : CString} (hhost : cfg.host = some host) (hcid : cfg.clientId = some cid)
include hhost hcid

theorem connect_stages : h.connect b cfg =
    if (h.acquireBuffers b).1 = .ok then
      if (h.buffered b cfg).openSocket.1 = .ok then
        if ((h.buffered b cfg).openSocket.2.secure b cfg).1 = .ok then
          if Overlong cfg cid then
            (.errInvalidParam, ((h.buffered b cfg).openSocket.2.secure b cfg).2)
          else ((h.buffered b cfg).openSocket.2.secure b cfg).2.handshake
            (connectFrame cfg cid (keepAlive cfg))
        else (h.buffered b cfg).openSocket.2.secure b cfg
      else (h.buffered b cfg).openSocket
    else h.acquireBuffers b := by
  simp only [connect, hhost, hcid, ne_eq, ite_not]
  rfl

theorem lost_connect_of_opened (ho : h.OpensSocket b cfg)
    (hl : Lost (h.buffered b cfg).openSocket.2.ledger) : Lost (h.connect b cfg).2.ledger := by
  rw [connect_stages hhost hcid, if_pos ho.1, if_pos ho.2]
  have hs := @lost_secure b _ cfg hl
  split_ifs
  · exact hs
  · exact lost_handshake hs _
  · exact hs

theorem lost_connect_of_buffered (hl : Lost (h.acquireBuffers b).2.ledger) :
    Lost (h.connect b cfg).2.ledger := by
  have hopen : Lost (h.buffered b cfg).openSocket.2.ledger := @lost_openSocket (h.buffered b cfg) hl
  by_cases ho : h.OpensSocket b cfg
  · exact lost_connect_of_opened hhost hcid ho hopen
  · rw [connect_stages hhost hcid]
    by_cases hacq : (h.acquireBuffers b).1 = .ok
    · rw [if_pos hacq, if_neg fun hok => ho ⟨hacq, hok⟩]
      exact hopen
    · rw [if_neg hacq]
      exact hl

end

section
variable {b : Build} {h : Holder}

theorem connect_rejected {cfg : ConnectConfig} (hnull : cfg.host = none ∨ cfg.clientId = none) :
    h.connect b cfg = (.errInvalidParam, h) := by
  unfold connect
  rcases hnull with hn | hn
  · simp only [hn]
  · cases cfg.host <;> simp only [hn]

theorem disconnect_cases : (h.st.client.connected = false ∧ h.disconnect = h) ∨
    (h.st.client.connected = true ∧
      h.disconnect.ledger = dropped h.st.client.tls h.ledger ∧
      h.disconnect.st.client.tls = false ∧ h.disconnect.st.client.connected = false) := by
  unfold disconnect
  by_cases hc : h.st.client.connected = false
  · rw [if_pos hc]
    exact .inl ⟨hc, rfl⟩
  · rw [if_neg hc]
    have hsend := mqttSend_client h.st ⟨0xE0, 0, []⟩
    have hflags := dropTls_flags (setClient ⟨(mqttSend h.st ⟨0xE0, 0, []⟩).2, h.ledger⟩
      { (mqttSend h.st ⟨0xE0, 0, []⟩).2.client with connected := false })
    refine .inr ⟨by simpa using hc, ?_, hflags.2, hflags.1⟩
    rw [← congrArg Client.tls hsend]
    rfl

theorem lost_exec (hl : Lost h.ledger) (op : Op) : Lost (h.exec b op).2.ledger := by
  cases op with
  | connect cfg =>
    cases hhost : cfg.host with
    | none =>
      rw [exec, connect_rejected (.inl hhost)]
      exact hl
    | some host =>
      cases hcid : cfg.clientId with
      | none =>
        rw [exec, connect_rejected (.inr hcid)]
        exact hl
      | some cid => exact lost_connect_of_buffered hhost hcid (lost_acquireBuffers hl)
  | disconnect =>
    rcases @disconnect_cases h with ⟨-, hd⟩ | ⟨-, hL, -⟩
    · rw [exec, hd]
      exact hl
    · rw [exec, hL]
      exact lost_dropped hl _

theorem not_sound_of_lost (hl : Lost h.ledger) (ops : List Op) : ¬Sound b h ops := by
  induction ops generalizing h with
  | nil =>
    have hd : Lost (h.deinit b).ledger := by
      simp only [deinit]
      refine Lost.clear (Lost.clear ?_ _) _
      split_ifs
      · exact hl
      · exact (hl.release _).release _
    exact hd.not_accounted
  | cons op ops ih => exact fun hs => ih (lost_exec hl op) hs.2.2

end

section
variable {b : Build} {h : Holder} {cfg : ConnectConfig}

theorem Good.buffered (hg : Good b h) (hbuf : b.zeroHeap = false →
      h.ledger.slot .rxBuf = none ∧ h.ledger.slot .txBuf = none) :
    Good b (h.buffered b cfg) ∧
      (h.buffered b cfg).ledger.slot .sock = h.ledger.slot .sock := by
  obtain ⟨⟨htls, hconn⟩, ⟨-, hL⟩ | ⟨hz, r₁, r₂, hL⟩⟩ := h.acquireBuffers_cases b
  · refine ⟨⟨?_, htls.trans hg.noTls, ?_⟩, ?_⟩
    · exact (congrArg (Clean b) hL).mpr hg.clean
    · have hc := hg.connected
      rw [← hconn, ← hL] at hc
      exact hc
    · exact congrArg (fun L => L.slot .sock) hL
  · obtain ⟨hrx, htx⟩ := hbuf hz
    have hsock : (h.acquireBuffers b).2.ledger.slot .sock = h.ledger.slot .sock := by
      rw [hL, put_slot_of_ne _ _ (by simp), put_slot_of_ne _ _ (by simp)]
    refine ⟨⟨?_, htls.trans hg.noTls, ?_⟩, hsock⟩
    · have hc := (hg.clean.put (.inl rfl) hrx hz r₁).put (.inr rfl)
        ((put_slot_of_ne _ _ (by simp)).trans htx) hz r₂
      rw [← hL] at hc
      exact hc
    · have hc := hg.connected
      rw [← hconn, ← hsock] at hc
      exact hc

structure Fresh (b : Build) (h : Holder) : Prop where
  clean : Clean b h.ledger
  noTls : h.st.client.tls = false
  notConnected : h.st.client.connected = false
  sock : h.ledger.slot .sock ≠ none

theorem Good.fresh (hg : Good b h) (hc : h.st.client.connected = false)
    (ho : h.openSocket.1 = .ok) : Fresh b h.openSocket.2 := by
  have hsock : h.ledger.slot .sock = none := by
    by_contra hs
    rw [hg.connected.mpr hs] at hc
    cases hc
  obtain ⟨⟨htls, hconn⟩, ⟨hno, -⟩ | ⟨-, hL⟩⟩ := h.openSocket_cases
  · exact absurd ho hno
  · have hclean := hg.clean.openSocket hsock
    rw [← hL] at hclean
    refine ⟨hclean, htls.trans hg.noTls, hconn.trans hc, ?_⟩
    rw [hL, Ledgers.acquire_slot, if_pos rfl]
    simp

theorem good_of_closed (hc : Clean b h.ledger) (ht : h.st.client.tls = false)
    (hn : h.st.client.connected = false) (hs : h.ledger.slot .sock = none) : Good b h :=
  ⟨hc, ht, by simp [hn, hs]⟩

theorem Fresh.secure_fails (hf : Fresh b h) (hrc : (h.secure b cfg).1 ≠ .ok) :
    Good b (h.secure b cfg).2 ∧ (h.secure b cfg).2.ledger.slot .sock = none := by
  obtain ⟨hok, -⟩ | ⟨hok, -⟩ | ⟨-, ⟨ht, hn⟩, hL⟩ := h.secure_cases b cfg
  · exact absurd hok hrc
  · exact absurd hok hrc
  · have hclean : Clean b (h.secure b cfg).2.ledger := by
      rcases hL with hL | hL <;> rw [hL]
      · exact hf.clean.closeSocket
      · exact hf.clean.failedSession.closeSocket
    have hs : (h.secure b cfg).2.ledger.slot .sock = none := by
      rcases hL with hL | hL <;> rw [hL, Ledgers.release_slot, if_pos rfl]
    exact ⟨good_of_closed hclean (ht.trans hf.noTls) (hn.trans hf.notConnected) hs, hs⟩

theorem Fresh.handshake (hf : Fresh b h) (hok : (h.secure b cfg).1 = .ok) (f : Frame)
    (htls : ((h.secure b cfg).2.handshake f).1 = .ok → cfg.useTls = false) :
    Good b ((h.secure b cfg).2.handshake f).2 ∧ (((h.secure b cfg).2.handshake f).1 ≠ .ok →
      ((h.secure b cfg).2.handshake f).2.ledger.slot .sock = none) := by
  have hshake := (h.secure b cfg).2.handshake_cases f
  generalize (h.secure b cfg).2.handshake f = r at hshake htls ⊢
  obtain ⟨-, -, hL, ht, hn⟩ | ⟨-, hsec, hL, ht, hn⟩ | ⟨hfail, -⟩ := h.secure_cases b cfg
  · rw [Shaken, hL, ht, hf.noTls, hn, hf.notConnected] at hshake
    obtain ⟨hrc, hL', ht', hn'⟩ | ⟨hrc, hL', ht', hn'⟩ := hshake
    · refine ⟨⟨by rw [hL']; exact hf.clean, ht', ?_⟩, fun hne => absurd hrc hne⟩
      rw [hL', hn']
      exact iff_of_true rfl hf.sock
    · have hs : r.2.ledger.slot .sock = none := by
        rw [hL', dropped, Ledgers.release_slot, if_pos rfl]
      exact ⟨good_of_closed (by rw [hL']; exact hf.clean.closeSocket) ht' hn' hs, fun _ => hs⟩
  · rw [Shaken, hL, ht, hn, hf.notConnected] at hshake
    obtain ⟨hrc, -⟩ | ⟨hrc, hL', ht', hn'⟩ := hshake
    · rw [htls hrc] at hsec
      cases hsec
    · have hs : r.2.ledger.slot .sock = none := by
        rw [hL', dropped, Ledgers.release_slot, if_pos rfl]
      have hclean : Clean b r.2.ledger := by
        rw [hL']
        exact hf.clean.endedSession.closeSocket
      exact ⟨good_of_closed hclean ht' hn' hs, fun _ => hs⟩
  · exact absurd hok hfail

theorem Good.connect (hg : Good b h) (hc : h.Careful b (.connect cfg)) :
    Good b (h.connect b cfg).2 ∧
      ((h.connect b cfg).1 ≠ .ok → NothingOpen h (h.connect b cfg).2) := by
  have hkept : ∀ h' : Holder, Good b h' → h'.ledger.slot .sock = h.ledger.slot .sock →
      NothingOpen h h' := by
    intro h' hg' hs
    refine hg'.clean.nothingOpen fun i hi => ?_
    rw [hs] at hi
    exact hg.clean.balanced.slot_lt _ i hi
  have hempty : ∀ h' : Holder, Good b h' → h'.ledger.slot .sock = none → NothingOpen h h' := by
    intro h' hg' hs
    refine hg'.clean.nothingOpen fun i hi => ?_
    rw [hs] at hi
    cases hi
  by_cases hnull : cfg.host = none ∨ cfg.clientId = none
  · rw [connect_rejected hnull]
    exact ⟨hg, fun _ => hkept h hg rfl⟩
  obtain ⟨hhost, hcid⟩ := not_or.mp hnull
  obtain ⟨host, hhost⟩ := Option.ne_none_iff_exists'.mp hhost
  obtain ⟨cid, hcid⟩ := Option.ne_none_iff_exists'.mp hcid
  obtain ⟨hbuf, hclosed, hlong, htls⟩ := hc host cid hhost hcid
  obtain ⟨hgb, hsock⟩ := hg.buffered hbuf
  rw [connect_stages hhost hcid] at htls ⊢
  by_cases hacq : (h.acquireBuffers b).1 = .ok
  · rw [if_pos hacq] at htls ⊢
    by_cases ho : (h.buffered b cfg).openSocket.1 = .ok
    · have hb : (h.buffered b cfg).st.client.connected = false := by
        have hfl := (h.acquireBuffers_cases b).1.2
        exact hfl.trans (hclosed ⟨hacq, ho⟩)
      have hfresh := hgb.fresh hb ho
      rw [if_pos ho] at htls ⊢
      by_cases hs : ((h.buffered b cfg).openSocket.2.secure b cfg).1 = .ok
      · rw [if_pos hs, if_neg (hlong ⟨⟨hacq, ho⟩, hs⟩)] at htls ⊢
        obtain ⟨hgood, hnone⟩ := hfresh.handshake hs _ htls
        exact ⟨hgood, fun hrc => hempty _ hgood (hnone hrc)⟩
      · rw [if_neg hs]
        obtain ⟨hgood, hnone⟩ := hfresh.secure_fails hs
        exact ⟨hgood, fun _ => hempty _ hgood hnone⟩
    · rw [if_neg ho]
      obtain ⟨⟨htf, hcf⟩, ⟨-, hL⟩ | ⟨hok, -⟩⟩ := (h.buffered b cfg).openSocket_cases
      · have hgood : Good b (h.buffered b cfg).openSocket.2 :=
          ⟨by rw [hL]; exact hgb.clean, htf.trans hgb.noTls, by rw [hL, hcf]; exact hgb.connected⟩
        exact ⟨hgood, fun _ => hkept _ hgood (by rw [hL, hsock])⟩
      · exact absurd hok ho
  · rw [if_neg hacq]
    have hgood : Good b (h.acquireBuffers b).2 := ⟨hgb.clean, hgb.noTls, hgb.connected⟩
    exact ⟨hgood, fun _ => hkept _ hgood hsock⟩

end

/-! What goes wrong without care. -/

section
variable {b : Build} {h : Holder} {cfg : ConnectConfig}

theorem lost_put_of_slot {L : Ledger Slot Kind} (hb : Balanced L) {s : Slot} (hs : L.slot s ≠ none)
    (rc : Rc) : Lost (put L s rc) := by
  unfold put
  split_ifs
  · exact hb.lost_acquire hs _
  · exact hb.lost_clear hs

theorem lost_of_buffers (hg : Good b h) (hz : b.zeroHeap = false)
    (hbuf : ¬(h.ledger.slot .rxBuf = none ∧ h.ledger.slot .txBuf = none)) :
    Lost (h.acquireBuffers b).2.ledger := by
  obtain ⟨-, ⟨hz', -⟩ | ⟨-, r₁, r₂, hL⟩⟩ := h.acquireBuffers_cases b
  · rw [hz] at hz'
    cases hz'
  rw [hL]
  by_cases hrx : h.ledger.slot .rxBuf = none
  · have htx : (put h.ledger .rxBuf r₁).slot .txBuf ≠ none := by
      rw [put_slot_of_ne _ _ (by simp)]
      exact fun htx => hbuf ⟨hrx, htx⟩
    exact lost_put_of_slot (hg.clean.put (.inl rfl) hrx hz r₁).balanced htx r₂
  · exact lost_put (lost_put_of_slot hg.clean.balanced hrx r₁) _ _

theorem lost_of_socket (hg : Good b h) (hc : h.st.client.connected = true)
    (ho : h.openSocket.1 = .ok) : Lost h.openSocket.2.ledger := by
  obtain ⟨-, ⟨hno, -⟩ | ⟨-, hL⟩⟩ := h.openSocket_cases
  · exact absurd ho hno
  rw [hL]
  exact hg.clean.balanced.lost_acquire (hg.connected.mp hc) _

theorem kinds_le_buffered : h.ledger.kinds.length ≤ (h.buffered b cfg).ledger.kinds.length := by
  have hput : ∀ (L : Ledger Slot Kind) (s : Slot) (rc : Rc),
      L.kinds.length ≤ (put L s rc).kinds.length := by
    intro L s rc
    unfold put
    split_ifs <;> simp [acquire, clear]
  obtain ⟨-, ⟨-, hL⟩ | ⟨-, r₁, r₂, hL⟩⟩ := h.acquireBuffers_cases b
  · exact (congrArg (fun L => L.kinds.length) hL).ge
  · exact ((hput _ _ r₁).trans (hput _ _ r₂)).trans_eq
      (congrArg (fun L => L.kinds.length) hL).symm

theorem socket_open (hg : Good b h) (ho : h.openSocket.1 = .ok)
    (hs : (h.openSocket.2.secure b cfg).1 = .ok) :
    (h.openSocket.2.secure b cfg).2.ledger.kinds[h.ledger.kinds.length]? = some .socket ∧
      h.ledger.kinds.length ∉ (h.openSocket.2.secure b cfg).2.ledger.released := by
  obtain ⟨-, ⟨hno, -⟩ | ⟨-, hL⟩⟩ := h.openSocket_cases
  · exact absurd ho hno
  have hnot : h.ledger.kinds.length ∉ h.ledger.released := fun hr =>
    absurd (hg.clean.balanced.released_lt _ hr) (lt_irrefl _)
  obtain ⟨-, -, hL', -⟩ | ⟨-, -, hL', -⟩ | ⟨hfail, -⟩ := h.openSocket.2.secure_cases b cfg
  · rw [hL', hL]
    exact ⟨kind_last _ _, hnot⟩
  · rw [hL', hL]
    exact ⟨@kind_append (acquire h.ledger .sock .socket) _ _ (kind_last _ _) _, hnot⟩
  · exact absurd hs hfail

theorem tls_dangles (hs : (h.secure b cfg).1 = .ok) (hu : cfg.useTls = true) {f : Frame}
    (hrc : ((h.secure b cfg).2.handshake f).1 = .ok) :
    ¬HandlesLive ((h.secure b cfg).2.handshake f).2 := by
  obtain ⟨-, hplain, -⟩ | ⟨-, -, hL, -⟩ | ⟨hfail, -⟩ := h.secure_cases b cfg
  · rw [hu] at hplain
    cases hplain
  · obtain ⟨-, hL', -, hn⟩ | ⟨hno, -⟩ := (h.secure b cfg).2.handshake_cases f
    · intro hlive
      have htls : ((h.secure b cfg).2.handshake f).2.ledger.slot .tls ≠ none := by
        rw [hL', hL, Ledgers.move_slot, if_neg (by simp), if_pos rfl, Ledgers.acquire_slot,
          if_pos rfl]
        simp
      exact absurd ((hlive hn).2 .tls (.inr rfl) htls .connectFrame rfl) (by simp [Storage.live])
    · exact absurd hrc hno
  · exact absurd hs hfail

theorem Good.connect_careless (hg : Good b h) (hc : ¬h.Careful b (.connect cfg)) :
    Lost (h.connect b cfg).2.ledger ∨
      ((h.connect b cfg).1 ≠ .ok ∧ ¬NothingOpen h (h.connect b cfg).2) ∨
      ¬HandlesLive (h.connect b cfg).2 := by
  simp only [Careful, not_forall] at hc
  obtain ⟨host, cid, hhost, hcid, hc⟩ := hc
  by_cases hbuf : b.zeroHeap = false →
      h.ledger.slot .rxBuf = none ∧ h.ledger.slot .txBuf = none
  · obtain ⟨hgb, hsock⟩ := @Good.buffered b h cfg hg hbuf
    by_cases hclosed : h.OpensSocket b cfg → h.st.client.connected = false
    · by_cases hlong : h.OpensTransport b cfg → ¬Overlong cfg cid
      · have htls : ¬((h.connect b cfg).1 = .ok → cfg.useTls = false) :=
          fun htls => hc ⟨hbuf, hclosed, hlong, htls⟩
        obtain ⟨hrc, hu⟩ := Classical.not_imp.mp htls
        rw [connect_stages hhost hcid] at hrc ⊢
        right; right
        split_ifs at hrc ⊢ with h₁ h₂ h₃ h₄
        · exact tls_dangles h₃ (by simpa using hu) hrc
        · exact absurd hrc h₃
        · exact absurd hrc h₂
        · exact absurd hrc h₁
      · obtain ⟨ht, hov⟩ := Classical.not_imp.mp hlong
        obtain ⟨⟨hacq, ho⟩, hs⟩ := ht
        right; left
        rw [connect_stages hhost hcid, if_pos hacq, if_pos ho, if_pos hs, if_pos (not_not.mp hov)]
        refine ⟨by simp, fun hopen => ?_⟩
        obtain ⟨hk, hr⟩ := socket_open hgb ho hs
        exact hr (hopen _ _ kinds_le_buffered hk (by simp))
    · obtain ⟨ho, hconn⟩ := Classical.not_imp.mp hclosed
      left
      refine lost_connect_of_opened hhost hcid ho (lost_of_socket hgb ?_ ho.2)
      have hfl := (h.acquireBuffers_cases b).1.2
      exact hfl.trans (by simpa using hconn)
  · obtain ⟨hz, hbuf⟩ := Classical.not_imp.mp hbuf
    exact .inl (lost_connect_of_buffered hhost hcid (lost_of_buffers hg hz hbuf))

theorem Good.disconnect (hg : Good b h) : Good b h.disconnect := by
  rcases @disconnect_cases h with ⟨-, hd⟩ | ⟨-, hL, ht, hn⟩
  · rw [hd]
    exact hg
  · rw [hg.noTls] at hL
    have hs : h.disconnect.ledger.slot .sock = none := by
      rw [hL, dropped, Ledgers.release_slot, if_pos rfl]
    exact good_of_closed (by rw [hL]; exact hg.clean.closeSocket) ht hn hs

end

theorem sound_iff_of_good {b : Build} {h : Holder} (hg : Good b h) (ops : List Op) :
    Sound b h ops ↔ CarefulRun b h ops := by
  induction ops generalizing h with
  | nil => exact hg.deinit_iff
  | cons op ops ih =>
    cases op with
    | connect cfg =>
      by_cases hc : h.Careful b (.connect cfg)
      · obtain ⟨hgood, hfail⟩ := hg.connect hc
        have hrest := ih hgood
        exact ⟨fun hs => ⟨hc, hrest.mp hs.2.2⟩,
          fun hs => ⟨hfail, hgood.handlesLive, hrest.mpr hs.2⟩⟩
      · refine iff_of_false (fun hs => ?_) fun hs => hc hs.1
        obtain ⟨hfail, hlive, hrest⟩ := hs
        rcases hg.connect_careless hc with hl | ⟨hrc, hopen⟩ | hdead
        · exact not_sound_of_lost hl ops hrest
        · exact hopen (hfail hrc)
        · exact hdead hlive
    | disconnect =>
      have hgood := hg.disconnect
      have hrest := ih hgood
      exact ⟨fun hs => ⟨trivial, hrest.mp hs.2.2⟩,
        fun hs => ⟨fun hrc => absurd rfl hrc, hgood.handlesLive, hrest.mpr hs.2⟩⟩

theorem good_init (b : Build) (w : World) : Good b (init w) where
  clean := ⟨Ledgers.balanced_empty, by simp [init, Ledgers.empty], rfl, rfl, fun _ => ⟨rfl, rfl⟩⟩
  noTls := rfl
  connected := by simp [init, oveMqttClientInit, Ledgers.empty]

end Holder

/-- A client's life is sound exactly if every connect is careful and the last connection is closed
before deinit. -/
theorem resources_sound_iff (b : Build) (w : World) (ops : List Holder.Op) :
    Holder.Sound b (Holder.init w) ops ↔ Holder.CarefulRun b (Holder.init w) ops :=
  Holder.sound_iff_of_good (Holder.good_init b w) ops

def heapBuild : Build := ⟨.arm32, false, true, 1024, 512, 8⟩

def brokerFor (n : ℕ) : World := ⟨fun _ => [], List.replicate n (.ok, [0x20, 2, 0, 0]), []⟩

def hugeId : CString :=
  ⟨List.replicate 0x10000 0x61, fun b hb => by rw [List.eq_of_mem_replicate hb]; decide⟩

theorem client_leaks :
    ¬Holder.Sound heapBuild (Holder.init (brokerFor 2))
      [.connect plainConfig, .disconnect, .connect plainConfig, .disconnect] ∧
    ¬Holder.Sound smallBuild (Holder.init (brokerFor 1)) [.connect plainConfig] ∧
    ¬Holder.Sound smallBuild (Holder.init (brokerFor 1))
      [.connect { plainConfig with clientId := some hugeId }] ∧
    ¬Holder.Sound heapBuild (Holder.init (brokerFor 1))
      [.connect { plainConfig with useTls := true }, .disconnect] := by
  refine ⟨fun hs => ?_, fun hs => ?_, fun hs => ?_, fun hs => ?_⟩
  · have hend : Accounted (Holder.deinit _ heapBuild).ledger := hs.2.2.2.2.2.2.2.2
    revert hend
    decide +kernel
  · have hend : Accounted (Holder.deinit _ smallBuild).ledger := hs.2.2
    revert hend
    decide +kernel
  · have hrun := (Holder.sound_iff_of_good (Holder.good_init _ _) _).mp hs
    have hlen : hugeId.bytes.length = 0x10000 := List.length_replicate
    have hopen : Holder.OpensTransport smallBuild (Holder.init (brokerFor 1))
        { plainConfig with clientId := some hugeId } :=
      ⟨⟨by decide +kernel, by decide +kernel⟩, by decide +kernel⟩
    exact (hrun.1 topicT hugeId rfl rfl).2.2.1 hopen (Or.inl (by omega))
  · have hlive := (hs.2.1 (by decide +kernel)).2 .tls (.inr rfl)
        (by decide +kernel) .connectFrame rfl
    cases hlive

end Overtos.Mqtt
