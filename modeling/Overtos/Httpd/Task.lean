import Overtos.Httpd.Response

/-! The HTTP server's task: one connection after another, each with a WebSocket upgrade or a
request for the route table. -/
namespace Overtos.Httpd
open CStr

abbrev Handler := Req → Reaction

structure Config where
  arch : Arch
  maxBody : ℕ
  zeroHeap : Bool
  ws : Bool
  accept : Bytes → { text : Bytes // text.length < 32 }

def plainBuild : Config := ⟨.arm32, 1024, false, false, fun _ => ⟨[], by decide⟩⟩

structure Server where
  routes : List (Route Handler)
  wsRoutes : List Bytes
  pool : List Bool

def oveHttpdWsIsUpgrade (headers : Bytes) : Bool :=
  match (strstr headers (ascii "Upgrade:")).or (strstr headers (ascii "upgrade:")) with
  | none => false
  | some i => (strstr (headers.drop i) (ascii "websocket")).isSome ||
      (strstr (headers.drop i) (ascii "WebSocket")).isSome

def wsBetter {α : Type*} (key : α → Bytes) (path : Bytes) (best : Option α × ℕ) (route : α) :
    Option α × ℕ :=
  if (key route).isPrefixOf path ∧ best.2 < (key route).length then
    (some route, (key route).length)
  else best

def wsMatchRoute {α : Type*} (key : α → Bytes) (routes : List α) (path : Bytes) : Option α :=
  (routes.foldl (wsBetter key path) (none, 0)).1

def wsKey (headers : Bytes) : Option Bytes :=
  ((strstr headers (ascii "Sec-WebSocket-Key:")).or
    (strstr headers (ascii "sec-websocket-key:"))).map fun i =>
    let value := (headers.drop (i + 18)).dropWhile (· = 0x20)
    let key := (value.take 63).takeWhile fun b => b ≠ 0x0d ∧ b ≠ 0x0a
    (key.reverse.dropWhile (· = 0x20)).reverse

def wsMagic : Bytes := ascii "258EAFA5-E914-47DA-95CA-C5AB0DC85B11"

def switchingProtocols (accept : Bytes) : Message where
  status := .switchingProtocols
  header := ascii "HTTP/1.1 " ++ Status.switchingProtocols.text ++
    ascii "\r\nUpgrade: websocket\r\nConnection: Upgrade\r\nSec-WebSocket-Accept: " ++ accept ++
    ascii "\r\n\r\n"
  body := .bytes []
  own := false

def wsSendAll : ℕ → Bytes → Conn → Option (Rc × ℕ × Conn)
  | fuel, data, c =>
    if data = [] then some (.ok, 0, c) else
    match fuel with
    | 0 => none
    | fuel + 1 =>
      match oveSocketSend c data with
      | (.error e, c) => some (e, 0, c)
      | (.ok n, c) => (wsSendAll fuel (data.drop n) c).map fun r => (r.1, n + r.2.1, r.2.2)

inductive Handshake where
  | refused (c : Conn)
  | upgraded (pool : List Bool) (c : Conn)
  | spinning

def oveHttpdWsHandshake (cfg : Config) (s : Server) (headers path : Bytes) (c : Conn) : Handshake :=
  match wsMatchRoute id s.wsRoutes path, wsKey headers with
  | some _, some key =>
    if 128 ≤ (key ++ wsMagic).length then .refused c else
    match s.pool.idxOf? false with
    | none => .refused c
    | some slot =>
      let m := switchingProtocols (cfg.accept (key ++ wsMagic))
      match wsSendAll m.header.length m.header c with
      | none => .spinning
      | some (rc, taken, c) =>
        let c := if taken = 0 then c else { c with replies := c.replies ++ [⟨m, taken, []⟩] }
        if rc = .ok then .upgraded (s.pool.set slot true) c else .refused c
  | _, _ => .refused c

def recvBody : ℕ → ℕ → Conn → Bytes → Bytes × Conn
  | 0, _, c, body => (body, c)
  | fuel + 1, len, c, body =>
    if len ≤ body.length then (body, c) else
    match oveSocketRecv c (len - body.length) with
    | (.error _, c) => (body, c)
    | (.ok [], c) => (body, c)
    | (.ok got, c) => recvBody fuel len c (body ++ got)

def alreadyReceived (buf : Bytes) (len : ℕ) : Bytes :=
  match strstr (ofArray buf) (ascii "\r\n\r\n") with
  | none => []
  | some i => (buf.drop (i + 4)).take len

def badRequest : Message :=
  response 400 applicationJson (.bytes ((ascii "\x7b\"error\":\"bad request\"\x7d").take 23)) true
def tooLarge : Message :=
  response 413 applicationJson (.bytes ((ascii "\x7b\"error\":\"body too large\"\x7d").take 25)) true
def internalError : Message :=
  response 500 applicationJson (.bytes ((ascii "\x7b\"error\":\"internal error\"\x7d").take 26)) true
def notFound : Message :=
  response 404 applicationJson (.bytes ((ascii "\x7b\"error\":\"not found\"\x7d").take 20)) true

inductive Intake where
  | closed (c : Conn)
  | refused (c : Conn)
  | upgraded (pool : List Bool) (c : Conn)
  | spinning
  | request (req : Req) (c : Conn)

def receiveBody (cfg : Config) (mem : Bool) (buf : Bytes) (len : ℤ) (req : Req) (c : Conn) :
    Intake :=
  if req.method = ascii "POST" ∧ 0 < len then
    if cfg.zeroHeap ∧ cfg.maxBody < len.toNat then .refused (sendMessage c tooLarge).2
    else if cfg.zeroHeap ∨ mem then
      let r := recvBody len.toNat len.toNat c (alreadyReceived buf len.toNat)
      .request { req with body := some r.1 } r.2
    else .request req c
  else .request req c

def judge (cfg : Config) (s : Server) (mem : Bool) (buf : Bytes) (c : Conn) : Intake :=
  let (len, req) := parseRequest cfg.arch cfg.maxBody buf
  if len < 0 then .refused (sendMessage c badRequest).2
  else if cfg.ws ∧ req.method = ascii "GET" ∧ oveHttpdWsIsUpgrade (ofArray buf) then
    match oveHttpdWsHandshake cfg s (ofArray buf) req.path c with
    | .upgraded pool c => .upgraded pool c
    | .spinning => .spinning
    | .refused c => receiveBody cfg mem buf len req c
  else receiveBody cfg mem buf len req c

def intake (cfg : Config) (s : Server) (mem : Bool) (c : Conn) : Intake :=
  match oveSocketRecv c 1023 with
  | (.error _, c) => .closed c
  | (.ok [], c) => .closed c
  | (.ok buf, c) => judge cfg s mem buf c

def dispatch (routes : List (Route Handler)) (req : Req) (c : Conn) : Conn :=
  let resp : Resp := match matchRoute routes req with
    | none => ⟨c, false⟩
    | some route =>
      let (hret, resp) := (route.handler req).run ⟨c, false⟩
      if hret ≠ .ok ∧ resp.sent = false then
        { resp with conn := (sendMessage resp.conn internalError).2 }
      else resp
  if resp.sent = false then (sendMessage resp.conn notFound).2 else resp.conn

def serve (cfg : Config) (s : Server) (mem : Bool) (c : Conn) : Server × Conn :=
  match intake cfg s mem c with
  | .closed c => (s, c)
  | .refused c => (s, c)
  | .upgraded pool c => ({ s with pool }, c)
  | .spinning => (s, c)
  | .request req c => (s, dispatch s.routes req c)

inductive Event where
  | route (method path : CString) (handler : Handler)
  | wsRoute (path : CString)
  | wsClosed (slot : ℕ)
  | accept (mem : Bool) (peer : Peer)

def maxWsRoutes : ℕ := 4

def Server.init : Server := ⟨[], [], List.replicate 4 false⟩

def Server.step (cfg : Config) (s : Server) : Event → Server
  | .route method path handler =>
    { s with routes := (oveHttpdRoute s.routes method path handler).2 }
  | .wsRoute path =>
    if maxWsRoutes ≤ s.wsRoutes.length then s
    else { s with wsRoutes := s.wsRoutes ++ [ofArray (strncpy 63 path ++ [0])] }
  | .wsClosed slot => { s with pool := s.pool.set slot false }
  | .accept mem peer => (serve cfg s mem (.accepted peer)).1

structure Exchange where
  server : Server
  mem : Bool
  peer : Peer

def httpdTask (cfg : Config) : Server → List Event → List Exchange
  | _, [] => []
  | s, .accept mem peer :: events =>
    ⟨s, mem, peer⟩ :: httpdTask cfg (s.step cfg (.accept mem peer)) events
  | s, event :: events => httpdTask cfg (s.step cfg event) events

def Exchange.replies (cfg : Config) (x : Exchange) : List Reply :=
  (serve cfg x.server x.mem (.accepted x.peer)).2.replies

end Overtos.Httpd
