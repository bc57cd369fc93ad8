import Overtos.Lib.Word
import Overtos.Mqtt.Codec
import Overtos.Types

/-! The MQTT client of `ove_net_mqtt.c` over a network that answers as it likes. -/
namespace Overtos.Mqtt
open CStr (Bytes CString)

inductive Scan where
  | decided (r : Bool)
  | ended (filter topic : Bytes) (boundary : Bool)
  deriving DecidableEq, Repr

def slash : UInt8 := 0x2F
def plus : UInt8 := 0x2B
def hash : UInt8 := 0x23

def isMultilevelWildcard (boundary : Bool) (filter : Bytes) : Bool := boundary && filter == [hash]

def scanTopic : Bool → Bytes → Bytes → Scan
  | boundary, [], topic => .ended [] topic boundary
  | boundary, f :: fs, [] => .ended (f :: fs) [] boundary
  | boundary, f :: fs, t :: ts =>
    if isMultilevelWildcard boundary (f :: fs) then .decided true
    else if f = plus then scanTopic false fs ((t :: ts).dropWhile (· ≠ slash))
    else if f ≠ t then .decided false
    else scanTopic (f = slash) fs ts

def oveMqttTopicMatches (filter topic : Bytes) : Bool :=
  match scanTopic true filter topic with
  | .decided r => r
  | .ended fs ts boundary =>
    if fs = [] ∧ ts = [] then true
    else if [slash, hash] <+: fs then ts = []
    else isMultilevelWildcard boundary fs

inductive Qos where
  | qos0 | qos1
  deriving DecidableEq, Repr

def Qos.toByte : Qos → UInt8
  | .qos0 => 0
  | .qos1 => 1

structure Message where
  topic : Bytes
  payload : Bytes
  deriving DecidableEq, Repr

inductive Seg where
  | raw (data : Bytes)
  | field (lengthPrefix : UInt16) (data : Bytes)
  deriving DecidableEq, Repr

def Seg.bytes : Seg → Bytes
  | .raw data => data
  | .field n data => putU16 n ++ data

structure Frame where
  head : UInt8
  remaining : ℕ
  segs : List Seg
  deriving DecidableEq, Repr

def Frame.body (f : Frame) : Bytes := f.segs.flatMap Seg.bytes

def Frame.bytes (f : Frame) : Bytes := f.head :: (encodeRemainingLength f.remaining ++ f.body)

inductive Ext where
  | mallocRx | mallocTx | dnsResolve | socketOpen | socketConnect | tlsInit | tlsHandshake | send
  deriving DecidableEq, Repr

inductive Event where
  | allocated (e : Ext)
  | socketOpened
  | socketClosed
  | tlsStarted
  | tlsEnded
  | wroteTx (count size : ℕ)
  | sent (f : Frame)
  | delivered (m : Message)
  deriving DecidableEq, Repr

/-- Each list holds the results still to come; when it is used up a call succeeds and a receive
times out. -/
structure World where
  answers : Ext → List Rc
  inbox : List (Rc × Bytes)
  log : List Event

structure Client where
  sock : Bool
  tls : Bool
  rxSize : ℕ
  txSize : ℕ
  keepAliveS : UInt16
  pktId : UInt16
  connected : Bool
  subFilters : List Bytes
  onMessage : Bool
  deriving DecidableEq, Repr

def oveMqttClientInit : Client := ⟨false, false, 0, 0, 0, 0, false, [], false⟩

structure St where
  client : Client
  world : World

structure Build where
  arch : Arch
  zeroHeap : Bool
  tls : Bool
  rxBuf : ℕ
  txBuf : ℕ
  maxSubs : ℕ
  deriving DecidableEq, Repr

section
variable (st : St)

def St.note (e : Event) : St := { st with world := { st.world with log := st.world.log ++ [e] } }

def St.ask (e : Ext) : Rc × St :=
  match st.world.answers e with
  | [] => (.ok, st)
  | r :: rs => (r, { st with world :=
      { st.world with answers := fun x => if x = e then rs else st.world.answers x } })

def mqttSend (f : Frame) : Rc × St := (st.note (.sent f)).ask .send

def mqttRecv (len : ℕ) : Rc × Bytes × St :=
  match st.world.inbox with
  | [] => (.errTimeout, [], st)
  | (rc, data) :: rest =>
    let inbox := if data.length ≤ len then rest else (rc, data.drop len) :: rest
    (rc, data.take len, { st with world := { st.world with inbox := inbox } })

def mqttAnySubMatches (topic : Bytes) : Bool :=
  st.client.subFilters == [] || st.client.subFilters.any fun f => oveMqttTopicMatches f topic

def deliver (topic payload : Bytes) : St :=
  if mqttAnySubMatches st topic then st.note (.delivered ⟨topic, payload⟩) else st

def mqttPublish : UInt8 := 0x30

def puback (id : UInt16) : Frame := ⟨0x40, 2, [.raw (putU16 id)]⟩

def dispatchTail (qos : UInt8) (topic rest : Bytes) : St :=
  if 1 ≤ qos then
    match rest with
    | hi :: lo :: payload =>
      let st := if qos = 1 then (mqttSend st (puback (getU16 hi lo))).2 else st
      deliver st topic payload
    | _ => st
  else deliver st topic rest

def dispatchPublish (pkt : Bytes) : St :=
  if st.client.onMessage = false then st
  else
    match pkt with
    | [] => st
    | head :: tail =>
      if tail = [] then st
      else
        let (rlBytes, remLen) := decodeRemainingLength tail
        if rlBytes = 0 then st
        else if tail.length < rlBytes ∨ tail.length - rlBytes < remLen then st
        else
          match (tail.drop rlBytes).take remLen with
          | hi :: lo :: rest =>
            let tlen := (getU16 hi lo).toNat
            if rest.length < tlen then st
            else dispatchTail st ((head >>> 1) &&& 3) (rest.take tlen) (rest.drop tlen)
          | _ => st

end

def mqttPacketLen (buf : Bytes) : ℕ :=
  match buf with
  | _ :: b :: rest =>
    let (rlBytes, rem) := decodeRemainingLength (b :: rest)
    let hdr := 1 + rlBytes
    if hdr ≤ 1 then 0
    else if hdr + rem ≤ buf.length then hdr + rem else 0
  | _ => 0

def scanPackets (expected : UInt8) : ℕ → Bytes → St → Bool × St
  | 0, _, st => (false, st)
  | fuel + 1, buf, st =>
    match buf with
    | [] => (false, st)
    | head :: _ =>
      let pktLen := mqttPacketLen buf
      if pktLen = 0 then (false, st)
      else if head &&& 0xF0 = expected then (true, st)
      else
        let st := if head &&& 0xF0 = mqttPublish then dispatchPublish st (buf.take pktLen) else st
        scanPackets expected fuel (buf.drop pktLen) st

def mqttWaitFor (expected : UInt8) : ℕ → St → Rc × St
  | 0, st => (.errTimeout, st)
  | n + 1, st =>
    match mqttRecv st st.client.rxSize with
    | (rc, data, st) =>
      if rc = .errTimeout then mqttWaitFor expected n st
      else if rc ≠ .ok then (rc, st)
      else
        match scanPackets expected data.length data st with
        | (true, st) => (.ok, st)
        | (false, st) => mqttWaitFor expected n st

structure ConnectConfig where
  host : Option CString
  clientId : Option CString
  username : Option CString
  password : Option CString
  keepAliveS : UInt16
  useTls : Bool
  onMessage : Bool

variable (b : Build) (st : St)

def acquireBuffers : Rc × St :=
  let st := { st with client := { st.client with rxSize := b.rxBuf, txSize := b.txBuf } }
  if b.zeroHeap then (.ok, st)
  else
    let (r₁, st) := st.ask .mallocRx
    let st := if r₁ = .ok then st.note (.allocated .mallocRx) else st
    let (r₂, st) := st.ask .mallocTx
    let st := if r₂ = .ok then st.note (.allocated .mallocTx) else st
    (if r₁ = .ok ∧ r₂ = .ok then .ok else .errNoMemory, st)

def closeSocket : St := { st.note .socketClosed with client := { st.client with sock := false } }

def dropTls : St :=
  if st.client.tls then { st.note .tlsEnded with client := { st.client with tls := false } } else st

def openTransport (cfg : ConnectConfig) : Rc × St :=
  let (rc, st) := st.ask .dnsResolve
  if rc ≠ .ok then (rc, st)
  else
    let (rc, st) := st.ask .socketOpen
    if rc ≠ .ok then (rc, st)
    else
      let st := { st.note .socketOpened with client := { st.client with sock := true } }
      let (rc, st) := st.ask .socketConnect
      if rc ≠ .ok then (rc, closeSocket st)
      else if cfg.useTls = false then (.ok, st)
      else if b.tls = false then (.errNotSupported, closeSocket st)
      else
        let (rc, st) := st.ask .tlsInit
        if rc ≠ .ok then (rc, closeSocket st)
        else
          let st := st.note .tlsStarted
          let (rc, st) := st.ask .tlsHandshake
          if rc ≠ .ok then (rc, closeSocket (st.note .tlsEnded))
          else (.ok, { st with client := { st.client with tls := true } })

def optLen (s : Option CString) : ℕ := (s.map fun s => s.bytes.length).getD 0

def optField (s : Option CString) : List Seg :=
  match s with
  | none => []
  | some s => [.field (UInt16.ofNat s.bytes.length) s.bytes]

def connectFlags (cfg : ConnectConfig) : UInt8 :=
  0x02 ||| (if cfg.username.isSome then 0x80 else 0) ||| (if cfg.password.isSome then 0x40 else 0)

def protocolName : Bytes := [0x4D, 0x51, 0x54, 0x54]

def connectFrame (cfg : ConnectConfig) (cid : CString) (keepAliveS : UInt16) : Frame where
  head := 0x10
  remaining := 10 + 2 + cid.bytes.length +
    (if cfg.username.isSome then 2 + optLen cfg.username else 0) +
    (if cfg.password.isSome then 2 + optLen cfg.password else 0)
  segs := [.field 4 protocolName, .raw [0x04], .raw [connectFlags cfg], .raw (putU16 keepAliveS),
      .field (UInt16.ofNat cid.bytes.length) cid.bytes] ++
    optField cfg.username ++ optField cfg.password

def failConnect (rc : Rc) : Rc × St := (rc, closeSocket (dropTls st))

def handshake (f : Frame) : Rc × St :=
  let st := st.note (.wroteTx f.bytes.length st.client.txSize)
  let (rc, st) := mqttSend st f
  if rc ≠ .ok then failConnect st rc
  else
    let (rc, data, st) := mqttRecv st 4
    if rc ≠ .ok then failConnect st rc
    else
      match data with
      | [b₀, _, _, b₃] =>
        if b₀ ≠ 0x20 ∨ b₃ ≠ 0 then failConnect st .errNotSupported
        else (.ok, { st with client := { st.client with connected := true } })
      | _ => failConnect st .errNotSupported

def keepAlive (cfg : ConnectConfig) : UInt16 := if cfg.keepAliveS ≠ 0 then cfg.keepAliveS else 60

def configure (cfg : ConnectConfig) : St :=
  { st with client :=
    { st.client with keepAliveS := keepAlive cfg, onMessage := cfg.onMessage, pktId := 1 } }

def oveMqttConnect (cfg : ConnectConfig) : Rc × St :=
  match cfg.host, cfg.clientId with
  | some _, some cid =>
    let (rc, st) := acquireBuffers b st
    if rc ≠ .ok then (rc, st)
    else
      let (rc, st) := openTransport b (configure st cfg) cfg
      if rc ≠ .ok then (rc, st)
      else if 0xFFFF < cid.bytes.length ∨ 0xFFFF < optLen cfg.username ∨
          0xFFFF < optLen cfg.password then (.errInvalidParam, st)
      else handshake st (connectFrame cfg cid (keepAlive cfg))
  | _, _ => (.errInvalidParam, st)

def oveMqttDisconnect : St :=
  if st.client.connected = false then st
  else
    let (_, st) := mqttSend st ⟨0xE0, 0, []⟩
    closeSocket (dropTls { st with client := { st.client with connected := false } })

def mqttTxFrameFits (remaining : ℕ) : Prop :=
  Word.wrap b.arch.bits (1 + remainingLengthBytes remaining + remaining) ≤ st.client.txSize

instance (remaining : ℕ) : Decidable (mqttTxFrameFits b st remaining) :=
  inferInstanceAs (Decidable (_ ≤ _))

def bumpPktId : St :=
  let id := st.client.pktId + 1
  { st with client := { st.client with pktId := if id = 0 then 1 else id } }

inductive Payload where
  | null (len : ℕ)
  | bytes (data : Bytes)
  deriving DecidableEq, Repr

def Payload.len : Payload → ℕ
  | .null n => n
  | .bytes data => data.length

def Payload.segs : Payload → List Seg
  | .null _ => []
  | .bytes data => if 0 < data.length then [.raw data] else []

def publishRemaining (topic : CString) (payload : Payload) (qos : Qos) : ℕ :=
  Word.wrap b.arch.bits (2 + topic.bytes.length + payload.len + if qos = .qos1 then 2 else 0)

def publishFrame (topic : CString) (payload : Payload) (qos : Qos) : Frame where
  head := if qos = .qos1 then mqttPublish ||| 0x02 else mqttPublish
  remaining := publishRemaining b topic payload qos
  segs := .field (UInt16.ofNat topic.bytes.length) topic.bytes ::
    (if qos = .qos1 then [.raw (putU16 st.client.pktId)] else []) ++ payload.segs

def transmit (f : Frame) : Rc × St :=
  mqttSend (st.note (.wroteTx f.bytes.length st.client.txSize)) f

def oveMqttPublish (topic : Option CString) (payload : Payload) (qos : Qos) : Rc × St :=
  match topic with
  | none => (.errInvalidParam, st)
  | some topic =>
    if st.client.connected = false then (.errInvalidParam, st)
    else if 0xFFFF < topic.bytes.length then (.errInvalidParam, st)
    else if st.client.txSize < payload.len then (.errInvalidParam, st)
    else if ¬mqttTxFrameFits b st (publishRemaining b topic payload qos) then
      (.errInvalidParam, st)
    else
      let f := publishFrame b st topic payload qos
      let st := if qos = .qos1 then bumpPktId st else st
      let (rc, st) := transmit st f
      if rc ≠ .ok then (rc, st)
      else if qos = .qos1 then mqttWaitFor 0x40 10 st
      else (.ok, st)

def requestFrame (head : UInt8) (topic : CString) (tail : List Seg) (extra : ℕ) : Frame where
  head := head
  remaining := 2 + 2 + topic.bytes.length + extra
  segs := [.raw (putU16 st.client.pktId), .field (UInt16.ofNat topic.bytes.length) topic.bytes] ++
    tail

def request (topic : Option CString) (frame : CString → Frame) (ack : UInt8)
    (done : CString → St → St) : Rc × St :=
  match topic with
  | none => (.errInvalidParam, st)
  | some topic =>
    if st.client.connected = false then (.errInvalidParam, st)
    else if 0xFFFF < topic.bytes.length then (.errInvalidParam, st)
    else if ¬mqttTxFrameFits b st (frame topic).remaining then (.errInvalidParam, st)
    else
      let (rc, st) := transmit (bumpPktId st) (frame topic)
      if rc ≠ .ok then (rc, st)
      else
        let (rc, st) := mqttWaitFor ack 10 st
        if rc ≠ .ok then (rc, st) else (.ok, done topic st)

def storeFilter (topic : CString) (st : St) : St :=
  if st.client.subFilters.length < b.maxSubs then
    { st with client := { st.client with
        subFilters := st.client.subFilters ++ [CStr.ofArray (CStr.strncpy 63 topic ++ [0])] } }
  else st

def removeFilter (topic : CString) (st : St) : St :=
  { st with client := { st.client with
      subFilters := st.client.subFilters.eraseP fun f => f.take 63 = topic.bytes.take 63 } }

def oveMqttSubscribe (topic : Option CString) (qos : Qos) : Rc × St :=
  request b st topic (fun t => requestFrame st 0x82 t [.raw [qos.toByte]] 1) 0x90 (storeFilter b)

def oveMqttUnsubscribe (topic : Option CString) : Rc × St :=
  request b st topic (fun t => requestFrame st 0xA2 t [] 0) 0xB0 removeFilter

/-- A read of no bytes does nothing, whatever old first byte is in the buffer. -/
def processReceived (data : Bytes) : St :=
  match data with
  | [] => st
  | head :: _ => if head &&& 0xF0 = mqttPublish then dispatchPublish st data else st

def oveMqttLoop : Rc × St :=
  if st.client.connected = false then (.errInvalidParam, st)
  else
    let (rc, data, st) := mqttRecv st st.client.rxSize
    if rc = .errTimeout then mqttSend st ⟨0xC0, 0, []⟩
    else if rc ≠ .ok then (rc, st)
    else (.ok, processReceived st data)

end Overtos.Mqtt
