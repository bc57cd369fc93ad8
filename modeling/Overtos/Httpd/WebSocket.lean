import Overtos.Httpd.Task

/-! The WebSocket connections of the HTTP server, with callbacks that may send again. Each has a
socket of its own. -/
namespace Overtos.Httpd
open CStr

inductive WsEvent where
  | message (conn : ℕ)
  | sent (conn : ℕ)
  | failed (conn : ℕ)
  | onClose (conn : ℕ)
  | closed (conn : ℕ)
  deriving DecidableEq, Repr

inductive WsReaction where
  | done
  | send (slot : ℕ) (data : Bytes) (next : Rc → WsReaction)
  | broadcast (path : Option Bytes) (data : Bytes) (next : ℕ → WsReaction)

structure WsRoute where
  path : Bytes
  onMessage : Option (List WsEvent → ℕ → Bytes → WsReaction)
  onClose : Option (List WsEvent → ℕ → WsReaction)

/-- What the sockets do is by the number of calls made before. A send that succeeds takes a byte. -/
structure WsSetup where
  maxConns : ℕ
  maxFrame : ℕ
  routes : List WsRoute
  send : ℕ → Except Rc ℕ
  recv : ℕ → Except Rc Bytes
  poll : ℕ → Except Rc (Bool × Bool)

structure WsSlot where
  path : Bytes
  active : Bool
  isOpen : Bool
  conn : ℕ

structure WsState where
  slots : ℕ → WsSlot
  paths : List Bytes
  calls : ℕ
  log : List WsEvent

namespace WsState

def init : WsState := ⟨fun _ => ⟨[], false, false, 0⟩, [], 0, []⟩

def note (w : WsState) (e : WsEvent) : WsState := { w with log := e :: w.log }

def setSlot (w : WsState) (slot : ℕ) (v : WsSlot) : WsState :=
  { w with slots := Function.update w.slots slot v }

def takeIn (w : WsState) (slot : ℕ) (path : Bytes) : WsState where
  slots := Function.update w.slots slot ⟨path, true, true, w.paths.length⟩
  paths := w.paths ++ [path]
  calls := w.calls
  log := w.log

def wsPoolFree (w : WsState) (slot : ℕ) : WsState :=
  let v := w.slots slot
  (if v.isOpen then w.note (.closed v.conn) else w).setSlot slot
    { v with active := false, isOpen := false }

end WsState

section

variable (u : WsSetup)

def wsSocketSend (w : WsState) (slot : ℕ) (data : Bytes) : Except Rc ℕ × WsState :=
  ((u.send w.calls).map fun n => min (n + 1) data.length,
    { w with calls := w.calls + 1, log := .sent (w.slots slot).conn :: w.log })

def wsSendBytes (slot : ℕ) : ℕ → Bytes → WsState → Rc × WsState
  | 0, _, w => (.ok, w)
  | fuel + 1, data, w =>
    if data = [] then (.ok, w) else
    match wsSocketSend u w slot data with
    | (.error e, w) => (e, w)
    | (.ok n, w) => wsSendBytes slot fuel (data.drop n) w

def wsSendFrame (slot : ℕ) (data : Bytes) (w : WsState) : Rc × WsState :=
  wsSendBytes u slot data.length data w

def wsHeader (len : ℕ) : Bytes :=
  0x81 :: (if len < 126 then [.ofNat len]
    else if len ≤ 0xffff then [126, .ofNat (len / 2 ^ 8), .ofNat len]
    else [127, 0, 0, 0, 0, .ofNat (len / 2 ^ 24), .ofNat (len / 2 ^ 16), .ofNat (len / 2 ^ 8),
      .ofNat len])

def wsSendFailed (w : WsState) (slot : ℕ) : WsState :=
  (w.note (.failed (w.slots slot).conn)).wsPoolFree slot

def oveHttpdWsSend (w : WsState) (slot : ℕ) (data : Bytes) : Rc × WsState :=
  if slot < u.maxConns ∧ (w.slots slot).active = true then
    let (rc, w) := wsSendFrame u slot (wsHeader data.length) w
    if rc ≠ .ok then (rc, wsSendFailed w slot) else
    let (rc, w) := wsSendFrame u slot data w
    if rc ≠ .ok then (rc, wsSendFailed w slot) else (.ok, w)
  else (.errInvalidParam, w)

def wsBroadcastLoop (path : Option Bytes) (data : Bytes) : List ℕ → ℕ → WsState → ℕ × WsState
  | [], sent, w => (sent, w)
  | slot :: rest, sent, w =>
    if (w.slots slot).active = false ∨ (∃ p ∈ path, (w.slots slot).path ≠ p) then
      wsBroadcastLoop path data rest sent w
    else
      let (rc, w) := oveHttpdWsSend u w slot data
      wsBroadcastLoop path data rest (if rc = .ok then sent + 1 else sent) w

def oveHttpdWsBroadcast (w : WsState) (path : Option Bytes) (data : Bytes) : ℕ × WsState :=
  wsBroadcastLoop u path data (List.range u.maxConns) 0 w

def WsReaction.run : WsReaction → WsState → WsState
  | .done, w => w
  | .send slot data next, w =>
    (next (oveHttpdWsSend u w slot data).1).run (oveHttpdWsSend u w slot data).2
  | .broadcast path data next, w =>
    (next (oveHttpdWsBroadcast u w path data).1).run (oveHttpdWsBroadcast u w path data).2

def wsRecvExact : ℕ → ℕ → WsState → Option Bytes × WsState
  | _, 0, w => (some [], w)
  | 0, _ + 1, w => (none, w)
  | fuel + 1, len, w =>
    match u.recv w.calls with
    | .error _ => (none, { w with calls := w.calls + 1 })
    | .ok data =>
      if data.take len = [] then (none, { w with calls := w.calls + 1 }) else
      let r := wsRecvExact fuel (len - (data.take len).length) { w with calls := w.calls + 1 }
      (r.1.map (data.take len ++ ·), r.2)

def wsRecv (len : ℕ) (w : WsState) : Option Bytes × WsState := wsRecvExact u len len w

inductive WsFrame where
  | over
  | handled
  | payload (data : Bytes)
  | ignored

def wsCloseFrame (code : Option ℕ) : Bytes :=
  match code with
  | none => [0x88, 0]
  | some code => [0x88, 2, .ofNat (code / 256), .ofNat code]

def wsRefuse (slot : ℕ) (code : Option ℕ) (w : WsState) : WsFrame × WsState :=
  (.over, (wsSendFrame u slot (wsCloseFrame code) w).2)

def wsOpcode (slot opcode len : ℕ) (data : Bytes) (w : WsState) : WsFrame × WsState :=
  if opcode = 8 then wsRefuse u slot none w
  else if opcode = 9 then
    let w := (wsSendFrame u slot [0x8a, .ofNat len] w).2
    (.handled, (wsSendFrame u slot data w).2)
  else if opcode = 10 then (.handled, w)
  else if opcode = 1 ∨ opcode = 2 then (.payload data, w)
  else (.ignored, w)

def wsPayload (slot opcode len : ℕ) (w : WsState) : WsFrame × WsState :=
  if opcode ≥ 8 ∧ len > 125 then wsRefuse u slot (some 1002) w
  else if len > u.maxFrame then wsRefuse u slot (some 1009) w
  else
    match wsRecv u 4 w with
    | (none, w) => (.over, w)
    | (some mask, w) =>
      match wsRecv u len w with
      | (none, w) => (.over, w)
      | (some data, w) =>
        wsOpcode u slot opcode len (data.mapIdx fun i b => b ^^^ mask.getD (i % 4) 0) w

def wsLength (slot opcode len7 : ℕ) (w : WsState) : WsFrame × WsState :=
  if len7 = 126 then
    match wsRecv u 2 w with
    | (none, w) => (.over, w)
    | (some ext, w) => wsPayload u slot opcode (ext.foldl (fun n b => n * 256 + b.toNat) 0) w
  else if len7 = 127 then
    match wsRecv u 8 w with
    | (none, w) => (.over, w)
    | (some ext, w) =>
      if (ext.take 4).any (· ≠ 0) then wsRefuse u slot (some 1009) w
      else wsPayload u slot opcode ((ext.drop 4).foldl (fun n b => n * 256 + b.toNat) 0) w
  else wsPayload u slot opcode len7 w

def wsHead (slot : ℕ) (w : WsState) : WsFrame × WsState :=
  match wsRecv u 2 w with
  | (none, w) => (.over, w)
  | (some hdr, w) =>
    if (hdr.getD 1 0).toNat < 128 then wsRefuse u slot (some 1002) w
    else wsLength u slot ((hdr.getD 0 0).toNat % 16) ((hdr.getD 1 0).toNat % 128) w

def wsReadFrame (slot : ℕ) (w : WsState) : WsFrame × WsState :=
  match u.poll w.calls with
  | .error _ => (.over, { w with calls := w.calls + 1 })
  | .ok (lost, ready) =>
    if lost then (.over, { w with calls := w.calls + 1 })
    else if ready then wsHead u slot { w with calls := w.calls + 1 }
    else (.handled, { w with calls := w.calls + 1 })

def wsRouteOf (path : Bytes) : Option WsRoute := wsMatchRoute WsRoute.path u.routes path

def wsDispatch (slot : ℕ) (data : Bytes) (w : WsState) : WsState :=
  match (wsRouteOf u (w.slots slot).path).bind WsRoute.onMessage with
  | none => w
  | some onMessage =>
    let w := w.note (.message (w.slots slot).conn)
    (onMessage w.log slot data).run u w

def wsEnd (slot : ℕ) (w : WsState) : WsState :=
  match (wsRouteOf u (w.slots slot).path).bind WsRoute.onClose with
  | none => w.wsPoolFree slot
  | some onClose =>
    let w := w.note (.onClose (w.slots slot).conn)
    ((onClose w.log slot).run u w).wsPoolFree slot

def wsPollSlot (w : WsState) (slot : ℕ) : WsState :=
  if (w.slots slot).active = false then w else
  match wsReadFrame u slot w with
  | (.over, w) => wsEnd u slot w
  | (.payload data, w) => wsDispatch u slot data w
  | (_, w) => w

def wsPoolAlloc (w : WsState) : Option ℕ :=
  (List.range u.maxConns).find? fun i => !(w.slots i).active

def wsOpen (w : WsState) (path : Bytes) : Option WsState :=
  (wsRouteOf u path).bind fun _ => (wsPoolAlloc u w).map fun slot => w.takeIn slot (path.take 63)

end

end Overtos.Httpd
