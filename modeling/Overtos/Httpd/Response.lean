import Overtos.Lib.JsonDocument
import Overtos.Httpd.Request

/-! Responses of the HTTP server: their texts, and how they are written to a connection. -/
namespace Overtos.Httpd
open CStr

def hexDigit (n : ℕ) : UInt8 := .ofNat (if n < 10 then 0x30 + n else 0x57 + n)

def escapeOf (c : UInt8) : Option Bytes :=
  if c = 0x22 then some [0x5c, 0x22]
  else if c = 0x5c then some [0x5c, 0x5c]
  else if c = 0x0a then some [0x5c, 0x6e]
  else if c = 0x0d then some [0x5c, 0x72]
  else if c = 0x09 then some [0x5c, 0x74]
  else if c = 0x08 then some [0x5c, 0x62]
  else if c = 0x0c then some [0x5c, 0x66]
  else if c.toNat < 0x20 then
    some [0x5c, 0x75, 0x30, 0x30, hexDigit (c.toNat / 16), hexDigit (c.toNat % 16)]
  else none

def jsonEscapeLoop (outCap : ℕ) : Bytes → Bytes → Bytes
  | [], out => out
  | c :: rest, out =>
    match escapeOf c with
    | some esc =>
      if outCap - 1 ≤ out.length + esc.length then out else jsonEscapeLoop outCap rest (out ++ esc)
    | none => if outCap - 1 ≤ out.length then out else jsonEscapeLoop outCap rest (out ++ [c])

def jsonEscape (outCap : ℕ) (text : CString) : Bytes := jsonEscapeLoop outCap text.bytes []

def errorKey : Bytes := ascii "error"

def errorText (message : Option CString) : Bytes :=
  Json.member errorKey (jsonEscape 192 (message.getD ⟨[], by simp⟩))

inductive Status where
  | switchingProtocols | ok | badRequest | notFound | internalServerError
  deriving DecidableEq, Repr

def Status.text : Status → Bytes
  | .switchingProtocols => ascii "101 Switching Protocols"
  | .ok => ascii "200 OK"
  | .badRequest => ascii "400 Bad Request"
  | .notFound => ascii "404 Not Found"
  | .internalServerError => ascii "500 Internal Server Error"

def statusStr (code : ℤ) : Status :=
  if code = 200 then .ok
  else if code = 400 then .badRequest
  else if code = 404 then .notFound
  else if code = 500 then .internalServerError
  else .ok

inductive Body where
  | null (len : ℕ)
  | bytes (data : Bytes)

def Body.len : Body → ℕ
  | .null len => len
  | .bytes data => data.length

def Body.data : Body → Bytes
  | .null _ => []
  | .bytes data => data

structure Message where
  status : Status
  header : Bytes
  body : Body
  own : Bool

def responseHeader (status : Status) (contentType encoding : Bytes) (len : ℕ) : Bytes :=
  ascii "HTTP/1.1 " ++ status.text ++ ascii "\r\nContent-Type: " ++ contentType ++ ascii "\r\n" ++
    encoding ++ ascii "Content-Length: " ++ decimal len ++
    ascii "\r\nConnection: close\r\nAccess-Control-Allow-Origin: *\r\n\r\n"

def response (status : ℤ) (contentType : Bytes) (body : Body) (own : Bool) : Message :=
  ⟨statusStr status, responseHeader (statusStr status) contentType [] body.len, body, own⟩

def gzipResponse (status : ℤ) (contentType : Bytes) (body : Body) : Message :=
  ⟨statusStr status, responseHeader (statusStr status) contentType
    (ascii "Content-Encoding: gzip\r\n") body.len, body, false⟩

def applicationJson : Bytes := ascii "application/json"

structure Reply where
  message : Message
  taken : ℕ
  body : Bytes

def Reply.Complete (r : Reply) : Prop :=
  r.taken = r.message.header.length ∧ r.body.length = r.message.body.len

structure Peer where
  recvs : List (Except Rc Bytes)
  sends : ℕ → Except Rc ℕ

structure Conn where
  recvs : List (Except Rc Bytes)
  sends : ℕ → Except Rc ℕ
  made : ℕ
  replies : List Reply

def Conn.accepted (p : Peer) : Conn := ⟨p.recvs, p.sends, 0, []⟩

def oveSocketRecv (c : Conn) (len : ℕ) : Except Rc Bytes × Conn :=
  match c.recvs with
  | [] => (.error .errNetClosed, c)
  | .error e :: rest => (.error e, { c with recvs := rest })
  | .ok data :: rest => (.ok (data.take len),
      { c with recvs := if data.length ≤ len then rest else .ok (data.drop len) :: rest })

def oveSocketSend (c : Conn) (data : Bytes) : Except Rc ℕ × Conn :=
  ((c.sends c.made).map (min · data.length), { c with made := c.made + 1 })

def sendBody : ℕ → Bytes → Conn → Rc × Bytes × Conn
  | 0, _, c => (.ok, [], c)
  | fuel + 1, data, c =>
    if data = [] then (.ok, [], c) else
    match oveSocketSend c data with
    | (.error e, c) => (e, [], c)
    | (.ok 0, c) => (.errNotSupported, [], c)
    | (.ok (n + 1), c) =>
      let r := sendBody fuel (data.drop (n + 1)) c
      (r.1, data.take (n + 1) ++ r.2.1, r.2.2)

def headerSize : ℕ := 256

def sendMessage (c : Conn) (m : Message) : Rc × Conn :=
  if headerSize ≤ m.header.length then (.errNoMemory, c) else
  match oveSocketSend c m.header with
  | (.error e, c) => (e, c)
  | (.ok taken, c) =>
    let r := sendBody m.body.data.length m.body.data c
    (r.1, { r.2.2 with replies := c.replies ++ [⟨m, taken, r.2.1⟩] })

structure Resp where
  conn : Conn
  sent : Bool

inductive Answer where
  | respJson (status : ℤ) (json : CString)
  | respHtml (status : ℤ) (html : Body)
  | respSend (status : ℤ) (contentType : CString) (body : Body)
  | respSendGz (status : ℤ) (contentType : CString) (body : Body)
  | respError (status : ℤ) (message : Option CString)

def Answer.message : Answer → Message
  | .respJson status json => response status applicationJson (.bytes json.bytes) false
  | .respHtml status html => response status (ascii "text/html") html false
  | .respSend status contentType body => response status contentType.bytes body false
  | .respSendGz status contentType body => gzipResponse status contentType.bytes body
  | .respError status message => response status applicationJson (.bytes (errorText message)) true

def respond (r : Resp) (a : Answer) : Rc × Resp :=
  let (rc, conn) := sendMessage r.conn a.message
  (rc, { conn, sent := true })

inductive Reaction where
  | done (rc : Rc)
  | call (a : Answer) (next : Rc → Reaction)

def Reaction.run : Reaction → Resp → Rc × Resp
  | .done rc, r => (rc, r)
  | .call a next, r => (next (respond r a).1).run (respond r a).2

end Overtos.Httpd
