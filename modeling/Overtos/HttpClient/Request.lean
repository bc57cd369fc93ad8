import Overtos.HttpClient.Url
import Overtos.Lib.Duplex
import Overtos.Lib.HttpRequest

/-! The request that `ove_http_request_ex` sends, and what it means to an HTTP server. -/
namespace Overtos.HttpClient
open CStr Http Duplex

inductive Method where
  | get | post | put | delete | patch
  deriving DecidableEq, Repr

def Method.str : Method → Bytes
  | .get => ascii "GET"
  | .post => ascii "POST"
  | .put => ascii "PUT"
  | .delete => ascii "DELETE"
  | .patch => ascii "PATCH"

structure Call where
  method : Method
  url : CString
  contentType : Option CString
  body : Option Bytes
  headers : List (Option CString × Option CString)

structure Net where
  resolve : Except Rc Unit
  openSocket : Except Rc Unit
  connect : Except Rc Unit
  handshake : Except Rc Unit

def Net.prepare (net : Net) (useTls : Bool) : Except Rc Unit := do
  net.resolve
  net.openSocket
  net.connect
  if useTls then net.handshake else pure ()

section

variable (takes : ℕ → Except Rc ℕ)

def httpSendAll (data : Bytes) : Io Rc UInt8 Unit := send takes data

def sendText (size : ℕ) (text : Bytes) : Io Rc UInt8 Unit :=
  if size ≤ text.length then throw .errInvalidParam else httpSendAll takes text

def requestText (u : Url) (call : Call) : Bytes :=
  call.method.str ++ ascii " " ++ u.path ++ ascii " HTTP/1.1\r\nHost: " ++ u.host ++
    ascii "\r\nConnection: close\r\n"

def headerText (name value : Bytes) : Bytes := name ++ ascii ": " ++ value ++ ascii "\r\n"

def typeText (contentType : Bytes) (bodyLen : ℕ) : Bytes :=
  ascii "Content-Type: " ++ contentType ++ ascii "\r\nContent-Length: " ++ decimal bodyLen ++
    ascii "\r\n"

def sendHeaders : List (Option CString × Option CString) → Io Rc UInt8 Unit
  | [] => pure ()
  | (some name, some value) :: rest => do
    sendText takes 256 (headerText name.bytes value.bytes)
    sendHeaders rest
  | _ :: rest => sendHeaders rest

def sendType (call : Call) : Io Rc UInt8 Unit :=
  match call.contentType, call.body with
  | some contentType, some body => sendText takes 256 (typeText contentType.bytes body.length)
  | _, _ => pure ()

def sendBody (call : Call) : Io Rc UInt8 Unit :=
  match call.body with
  | some body => if 0 < body.length then httpSendAll takes body else pure ()
  | none => pure ()

def sendRequest (u : Url) (call : Call) : Io Rc UInt8 Unit := do
  sendText takes 512 (requestText u call)
  sendHeaders takes call.headers
  sendType takes call
  httpSendAll takes (ascii "\r\n")
  sendBody takes call

def requestEx (arch : Arch) (net : Net) (call : Call) : Io Rc UInt8 Unit := do
  let u ← ExceptT.mk (pure (parseUrl arch 128 call.url))
  ExceptT.mk (pure (net.prepare u.useTls))
  sendRequest takes u call

end

def complete (headers : List (Option CString × Option CString)) : List (Bytes × Bytes) :=
  headers.filterMap fun h => h.1.bind fun name => h.2.map fun value => (name.bytes, value.bytes)

def Call.custom (call : Call) : List (Bytes × Bytes) := complete call.headers

def authority (u : Url) : Bytes :=
  if u.port = defaultPort u.useTls then u.host else u.host ++ ascii ":" ++ decimal u.port

def Says (u : Url) (call : Call) (wire : Bytes) : Prop :=
  ∃ r, parseRequest wire = some r ∧ r.method = call.method.str ∧ r.target = u.path ∧
    values (ascii "host") r.fields = [authority u] ∧ (∀ f ∈ call.custom, f ∈ r.fields) ∧
    r.body = call.body.getD [] ∧
    (call.body ≠ none → values (ascii "content-length") r.fields ≠ [])

def RequestCorrect (arch : Arch) (call : Call) : Prop :=
  ∀ takes net e e', requestEx takes arch net call e = (.ok (), e') →
    ∃ u wire, parseUrl arch 128 call.url = .ok u ∧ e'.outbox = e.outbox ++ wire ∧ Says u call wire

def Fits (u : Url) (call : Call) : Prop :=
  (requestText u call).length < 512 ∧
    (∀ f ∈ call.custom, (headerText f.1 f.2).length < 256) ∧
    ∀ contentType ∈ call.contentType, ∀ body ∈ call.body,
      (typeText contentType.bytes body.length).length < 256

def TypeFields (contentType : Bytes) (fields : List (Bytes × Bytes)) : Prop :=
  ∃ lines : List Bytes, ascii "Content-Type: " ++ contentType ++ crlf = lines.flatMap (· ++ crlf) ∧
    (∀ line ∈ lines, IsLine line) ∧ lines.mapM parseField = some fields

def AddedFields (call : Call) (fields : List (Bytes × Bytes)) : Prop :=
  match call.contentType, call.body with
  | some contentType, some _ => TypeFields contentType.bytes fields
  | _, _ => fields = []

def IsField (f : Bytes × Bytes) : Prop :=
  f.1 ≠ [] ∧ f.1.all isTokenByte ∧ f.2.all isFieldByte ∧ trim f.2 = f.2

/-- What the caller has to see to: a path without blanks and control bytes, a host with the scheme's
own port, custom headers that are fields and add no Host, Transfer-Encoding or other length, and a
content type or length where there is a body. -/
structure Sound (u : Url) (call : Call) (more : List (Bytes × Bytes)) : Prop where
  path : u.path.all isTargetByte
  port : u.port = defaultPort u.useTls
  host : u.host.all isFieldByte ∧ trim u.host = u.host
  custom : ∀ f ∈ call.custom, IsField f
  added : AddedFields call more
  noHost : values (ascii "host") (call.custom ++ more) = []
  noCoding : values (ascii "transfer-encoding") (call.custom ++ more) = []
  lengths : ∀ v ∈ values (ascii "content-length") (call.custom ++ more),
    number v = some (call.body.getD []).length
  delimited : call.body ≠ none → call.contentType ≠ none ∨
    values (ascii "content-length") call.custom ≠ []

def typePart (call : Call) : Bytes :=
  match call.contentType, call.body with
  | some contentType, some body => typeText contentType.bytes body.length
  | _, _ => []

def wire (u : Url) (call : Call) : Bytes :=
  requestText u call ++ (call.custom.flatMap fun f => headerText f.1 f.2) ++ typePart call ++
    crlf ++ call.body.getD []

section

variable {takes : ℕ → Except Rc ℕ} {u : Url} {call : Call} {e e' : Ends UInt8} {x : Unit}

theorem httpSendAll_ok {data : Bytes} (h : httpSendAll takes data e = (.ok x, e')) :
    e'.outbox = e.outbox ++ data :=
  (trySendAll_ok h).2

variable {text : Bytes} {headers : List (Option CString × Option CString)} {arch : Arch}

theorem sendText_ok {size : ℕ} (h : sendText takes size text e = (.ok x, e')) :
    text.length < size ∧ e'.outbox = e.outbox ++ text := by
  unfold sendText at h
  split_ifs at h with hsize
  · cases h
  · exact ⟨Nat.lt_of_not_le hsize, httpSendAll_ok h⟩

theorem complete_cons_skip {h : Option CString × Option CString}
    {rest : List (Option CString × Option CString)}
    (hnone : ∀ name value, h = (some name, some value) → False) :
    complete (h :: rest) = complete rest := by
  obtain ⟨name, value⟩ := h
  rw [complete, List.filterMap_cons_none, complete]
  cases name with
  | none => rfl
  | some name =>
    cases value with
    | none => rfl
    | some value => exact (hnone name value rfl).elim

theorem sendHeaders_ok (h : sendHeaders takes headers e = (.ok x, e')) :
    (∀ f ∈ complete headers, (headerText f.1 f.2).length < 256) ∧
      e'.outbox = e.outbox ++ (complete headers).flatMap fun f => headerText f.1 f.2 := by
  fun_induction sendHeaders takes headers generalizing e with
  | case1 =>
    cases h
    simp [complete]
  | case2 name value rest ih =>
    obtain ⟨_, e₁, hfirst, hrest⟩ := Io.bind_ok h
    obtain ⟨hfits, hsent⟩ := sendText_ok hfirst
    obtain ⟨hrestFits, hrestSent⟩ := ih hrest
    have hcons : complete ((some name, some value) :: rest) =
        (name.bytes, value.bytes) :: complete rest := rfl
    rw [hcons, List.flatMap_cons, hrestSent, hsent, List.append_assoc]
    exact ⟨List.forall_mem_cons.mpr ⟨hfits, hrestFits⟩, rfl⟩
  | case3 first rest hnone ih =>
    rw [complete_cons_skip hnone]
    exact ih h

theorem sendType_ok (h : sendType takes call e = (.ok x, e')) :
    (∀ contentType ∈ call.contentType, ∀ body ∈ call.body,
      (typeText contentType.bytes body.length).length < 256) ∧
      e'.outbox = e.outbox ++ typePart call := by
  rw [sendType] at h
  rw [typePart]
  cases htype : call.contentType with
  | none =>
    rw [htype] at h
    cases h
    simp
  | some contentType =>
    cases hbody : call.body with
    | none =>
      rw [htype, hbody] at h
      cases h
      simp
    | some body =>
      rw [htype, hbody] at h
      simpa using sendText_ok h

theorem sendBody_ok (h : sendBody takes call e = (.ok x, e')) :
    e'.outbox = e.outbox ++ call.body.getD [] := by
  rw [sendBody] at h
  cases hbody : call.body with
  | none =>
    rw [hbody] at h
    cases h
    simp
  | some body =>
    rw [hbody] at h
    dsimp only at h
    split_ifs at h with hempty
    · exact httpSendAll_ok h
    · cases h
      rw [Nat.not_lt, Nat.le_zero] at hempty
      simp [List.eq_nil_of_length_eq_zero hempty]

theorem sendRequest_ok (h : sendRequest takes u call e = (.ok x, e')) :
    Fits u call ∧ e'.outbox = e.outbox ++ wire u call := by
  obtain ⟨_, e₁, hrequest, h⟩ := Io.bind_ok h
  obtain ⟨_, e₂, hheaders, h⟩ := Io.bind_ok h
  obtain ⟨_, e₃, htype, h⟩ := Io.bind_ok h
  obtain ⟨_, e₄, hend, hbody⟩ := Io.bind_ok h
  obtain ⟨hfits, hsent⟩ := sendText_ok hrequest
  obtain ⟨hheadersFit, hheadersSent⟩ := sendHeaders_ok hheaders
  obtain ⟨htypeFits, htypeSent⟩ := sendType_ok htype
  refine ⟨⟨hfits, hheadersFit, htypeFits⟩, ?_⟩
  rw [sendBody_ok hbody, httpSendAll_ok hend, htypeSent, hheadersSent, hsent, wire]
  simp only [List.append_assoc]
  rfl

def Succeeds (c : Io Rc UInt8 Unit) : Prop := ∀ e, ∃ e', c e = (.ok (), e')

theorem Succeeds.pure : Succeeds (Pure.pure ()) := fun e => ⟨e, rfl⟩

theorem Succeeds.bind {c : Io Rc UInt8 Unit} {next : Unit → Io Rc UInt8 Unit} (hc : Succeeds c)
    (hnext : Succeeds (next ())) : Succeeds (c >>= next) := by
  intro e
  obtain ⟨e₁, h₁⟩ := hc e
  obtain ⟨e₂, h₂⟩ := hnext e₁
  exact ⟨e₂, (Io.bind_run h₁ next).trans h₂⟩

def slowSocket : ℕ → Except Rc ℕ := fun _ => .ok 0

theorem httpSendAll_succeeds (data : Bytes) : Succeeds (httpSendAll slowSocket data) :=
  fun e => ⟨_, trySendAll_eq_sendAll ⟨fun _ => 0, fun _ => 0⟩ data e⟩

theorem sendText_succeeds {size : ℕ} (h : text.length < size) :
    Succeeds (sendText slowSocket size text) := by
  rw [sendText, if_neg (Nat.not_le.mpr h)]
  exact httpSendAll_succeeds text

theorem sendHeaders_succeeds (h : ∀ f ∈ complete headers, (headerText f.1 f.2).length < 256) :
    Succeeds (sendHeaders slowSocket headers) := by
  fun_induction sendHeaders slowSocket headers with
  | case1 => exact Succeeds.pure
  | case2 name value rest ih =>
    obtain ⟨hfirst, hrest⟩ := List.forall_mem_cons.mp h
    exact (sendText_succeeds hfirst).bind (ih hrest)
  | case3 first rest hnone ih =>
    rw [complete_cons_skip hnone] at h
    exact ih h

theorem sendType_succeeds (h : ∀ contentType ∈ call.contentType, ∀ body ∈ call.body,
    (typeText contentType.bytes body.length).length < 256) :
    Succeeds (sendType slowSocket call) := by
  rw [sendType]
  cases htype : call.contentType with
  | none => exact Succeeds.pure
  | some contentType =>
    cases hbody : call.body with
    | none => exact Succeeds.pure
    | some body => exact sendText_succeeds (h contentType htype body hbody)

theorem sendBody_succeeds : Succeeds (sendBody slowSocket call) := by
  rw [sendBody]
  cases call.body with
  | none => exact Succeeds.pure
  | some body =>
    dsimp only
    split_ifs
    · exact httpSendAll_succeeds body
    · exact Succeeds.pure

theorem sendRequest_succeeds (h : Fits u call) : Succeeds (sendRequest slowSocket u call) :=
  (sendText_succeeds h.1).bind <| (sendHeaders_succeeds h.2.1).bind <|
    (sendType_succeeds h.2.2).bind <| (httpSendAll_succeeds _).bind sendBody_succeeds

theorem requestEx_ok {net : Net} (h : requestEx takes arch net call e = (.ok x, e')) :
    ∃ u, parseUrl arch 128 call.url = .ok u ∧ sendRequest takes u call e = (.ok x, e') := by
  obtain ⟨u, e₁, hurl, h⟩ := Io.bind_ok h
  obtain ⟨_, e₂, hnet, h⟩ := Io.bind_ok h
  obtain ⟨hparse, rfl⟩ := Prod.mk.inj hurl
  obtain ⟨-, rfl⟩ := Prod.mk.inj hnet
  exact ⟨u, hparse, h⟩

theorem requestEx_run (hurl : parseUrl arch 128 call.url = .ok u)
    (h : sendRequest takes u call e = (.ok x, e')) :
    requestEx takes arch ⟨.ok (), .ok (), .ok (), .ok ()⟩ call e = (.ok x, e') := by
  have hparse : (ExceptT.mk (pure (parseUrl arch 128 call.url)) : Io Rc UInt8 Url) e = (.ok u, e) :=
    Prod.ext hurl rfl
  have hnet : (ExceptT.mk (pure (Net.prepare ⟨.ok (), .ok (), .ok (), .ok ()⟩ u.useTls)) :
      Io Rc UInt8 Unit) e = (.ok (), e) := by
    cases u.useTls <;> rfl
  rw [requestEx, Io.bind_run hparse, Io.bind_run hnet]
  exact h

end

def requestLine (u : Url) (call : Call) : Bytes :=
  call.method.str ++ 0x20 :: (u.path ++ 0x20 :: ascii "HTTP/1.1")

def headerLine (f : Bytes × Bytes) : Bytes := f.1 ++ 0x3a :: 0x20 :: f.2

def lengthField (call : Call) : List (Bytes × Bytes) :=
  match call.contentType, call.body with
  | some _, some body => [(ascii "Content-Length", decimal body.length)]
  | _, _ => []

theorem headerText_eq (f : Bytes × Bytes) : headerText f.1 f.2 = headerLine f ++ crlf := by
  have hsep : ascii ": " = [0x3a, 0x20] := by decide
  have hend : ascii "\r\n" = crlf := by decide
  rw [headerText, headerLine, hsep, hend]
  simp

theorem request_texts : ascii " HTTP/1.1\r\nHost: " =
      0x20 :: ascii "HTTP/1.1" ++ crlf ++ ascii "Host" ++ [0x3a, 0x20] ∧
    ascii "\r\nConnection: close\r\n" =
      crlf ++ headerLine (ascii "Connection", ascii "close") ++ crlf ∧
    ascii "\r\nContent-Length: " = crlf ++ ascii "Content-Length" ++ [0x3a, 0x20] := by
  decide +kernel

theorem wire_eq (u : Url) (call : Call) : wire u call = requestLine u call ++ crlf ++
    (headerLine (ascii "Host", u.host) ++ crlf ++
      (((headerLine (ascii "Connection", ascii "close") :: call.custom.map headerLine).flatMap
        (· ++ crlf)) ++ (typePart call ++ crlf ++ call.body.getD []))) := by
  have hblank : ascii " " = [0x20] := by decide
  obtain ⟨hhost, hclose, -⟩ := request_texts
  simp only [wire, requestText, requestLine, hblank, hhost, hclose, headerText_eq,
    List.flatMap_cons, List.flatMap_map]
  simp [headerLine]

theorem field_names : ((ascii "Host").all isTokenByte ∧ (ascii "Content-Length").all isTokenByte) ∧
    (ascii "Host").map lower = ascii "host" ∧
    (ascii "Connection").map lower = ascii "connection" ∧
    (ascii "Content-Length").map lower = ascii "content-length" ∧
    [ascii "host", ascii "connection", ascii "content-length", ascii "transfer-encoding"].Nodup := by
  decide +kernel

theorem method_spec (m : Method) : m.str ≠ [] ∧ m.str.all isTokenByte ∧ OneLine m.str := by
  cases m <;> exact ⟨by decide, by decide, by decide⟩

theorem isTokenByte_oneLine {s : Bytes} (h : s.all isTokenByte) : OneLine s :=
  ⟨fun hm => absurd (List.all_eq_true.mp h _ hm) (by decide),
    fun hm => absurd (List.all_eq_true.mp h _ hm) (by decide)⟩

theorem isTargetByte_oneLine {s : Bytes} (h : s.all isTargetByte) : OneLine s :=
  ⟨fun hm => absurd (List.all_eq_true.mp h _ hm) (by decide),
    fun hm => absurd (List.all_eq_true.mp h _ hm) (by decide)⟩

variable {f : Bytes × Bytes}

theorem headerLine_isLine (hname : OneLine f.1) (hvalue : OneLine f.2) : IsLine (headerLine f) := by
  refine ⟨by simp [headerLine], hname.append ?_⟩
  rw [oneLine_cons, oneLine_cons]
  exact ⟨by decide, by decide, by decide, by decide, hvalue⟩

theorem IsField.isLine (h : IsField f) : IsLine (headerLine f) :=
  headerLine_isLine (isTokenByte_oneLine h.2.1) (isFieldByte_oneLine h.2.2.1)

theorem IsField.parseField (h : IsField f) : parseField (headerLine f) = some f := by
  rw [headerLine, parseField_eq h.1 h.2.1, trim_blank, h.2.2.2, if_pos h.2.2.1]

theorem mapM_headerLine {fields : List (Bytes × Bytes)} (h : ∀ f ∈ fields, IsField f) :
    (fields.map headerLine).mapM parseField = some fields := by
  induction fields with
  | nil => rfl
  | cons f fields ih =>
    obtain ⟨hf, hrest⟩ := List.forall_mem_cons.mp h
    rw [List.map_cons, List.mapM_cons, hf.parseField, ih hrest]
    rfl

theorem isField_of_parseField {line : Bytes} (h : Http.parseField line = some f) : IsField f := by
  obtain ⟨rest, -, hvalue, hne, htoken, hbytes⟩ := parseField_eq_some h
  exact ⟨hne, htoken, hbytes, by rw [hvalue, trim_trim]⟩

theorem lengthField_isField (call : Call) : ∀ f ∈ lengthField call, IsField f := by
  intro f hf
  rw [lengthField] at hf
  cases htype : call.contentType with
  | none => simp [htype] at hf
  | some contentType =>
    cases hbody : call.body with
    | none => simp [htype, hbody] at hf
    | some body =>
      rw [htype, hbody] at hf
      rw [List.mem_singleton.mp hf]
      exact ⟨show ascii "Content-Length" ≠ [] by decide,
        field_names.1.2, decimal_fieldBytes _, trim_decimal _⟩

theorem typeText_eq (contentType : Bytes) (bodyLen : ℕ) :
    typeText contentType bodyLen = ascii "Content-Type: " ++ contentType ++ crlf ++
      (headerLine (ascii "Content-Length", decimal bodyLen) ++ crlf) := by
  obtain ⟨-, -, hlength⟩ := request_texts
  have hend : ascii "\r\n" = crlf := by decide
  rw [typeText, hlength, hend]
  simp [headerLine]

theorem addedFields_iff {call : Call} {more : List (Bytes × Bytes)} :
    AddedFields call more ↔ ∃ lines : List Bytes, typePart call =
      lines.flatMap (· ++ crlf) ++ ((lengthField call).map headerLine).flatMap (· ++ crlf) ∧
      (∀ line ∈ lines, IsLine line) ∧ lines.mapM parseField = some more := by
  have hnothing : more = [] ↔ ∃ lines : List Bytes, [] = lines.flatMap (· ++ crlf) ++
      (([] : List (Bytes × Bytes)).map headerLine).flatMap (· ++ crlf) ∧
      (∀ line ∈ lines, IsLine line) ∧ lines.mapM Http.parseField = some more := by
    constructor
    · rintro rfl
      exact ⟨[], rfl, by simp, rfl⟩
    · rintro ⟨lines, hnil, -, hmapM⟩
      cases lines with
      | nil => exact (Option.some.inj hmapM).symm
      | cons line lines => simp [crlf] at hnil
  rw [AddedFields, typePart, lengthField]
  cases htype : call.contentType with
  | none => exact hnothing
  | some contentType =>
    cases hbody : call.body with
    | none => exact hnothing
    | some body =>
      dsimp only
      rw [typeText_eq, List.map_singleton, List.flatMap_singleton]
      simp only [List.append_cancel_right_eq]
      rfl

section

variable {u : Url} {call : Call} {more : List (Bytes × Bytes)}

theorem hostField_isField (h : u.host.all isFieldByte ∧ trim u.host = u.host) :
    IsField (ascii "Host", u.host) :=
  ⟨show ascii "Host" ≠ [] by decide, field_names.1.1, h⟩

theorem closeField_isField : IsField (ascii "Connection", ascii "close") :=
  ⟨by decide, by decide, by decide, by decide⟩

def requestFields (u : Url) (call : Call) (more : List (Bytes × Bytes)) : List (Bytes × Bytes) :=
  (ascii "Host", u.host) :: (ascii "Connection", ascii "close") ::
    (call.custom ++ (more ++ lengthField call))

theorem values_requestFields (name : Bytes) : values name (requestFields u call more) =
    (if ascii "host" = name then [u.host] else []) ++
      ((if ascii "connection" = name then [ascii "close"] else []) ++
        (values name (call.custom ++ more) ++
          if ascii "content-length" = name then (lengthField call).map Prod.snd else [])) := by
  obtain ⟨-, hhost, hclose, hname, -⟩ := field_names
  have hlength : values name (lengthField call) =
      if ascii "content-length" = name then (lengthField call).map Prod.snd else [] := by
    rw [lengthField]
    cases call.contentType with
    | none => simp [values]
    | some contentType =>
      cases call.body with
      | none => simp [values]
      | some body =>
        have hnil : values name [] = [] := rfl
        rw [values_cons, hname, hnil, List.append_nil]
        rfl
  rw [requestFields, values_cons, values_cons, ← List.append_assoc call.custom, values_append,
    hlength, hhost, hclose]

theorem requestFields_values : values (ascii "host") (requestFields u call more) =
      u.host :: values (ascii "host") (call.custom ++ more) ∧
    values (ascii "transfer-encoding") (requestFields u call more) =
      values (ascii "transfer-encoding") (call.custom ++ more) ∧
    values (ascii "content-length") (requestFields u call more) =
      values (ascii "content-length") (call.custom ++ more) ++
        (lengthField call).map Prod.snd := by
  obtain ⟨-, -, -, -, hnodup⟩ := field_names
  simp only [List.nodup_cons, List.mem_cons, List.not_mem_nil, not_or, or_false] at hnodup
  obtain ⟨⟨hhc, hhl, hht⟩, ⟨hcl, hct⟩, hlt, -⟩ := hnodup
  refine ⟨?_, ?_, ?_⟩
  · simp [values_requestFields, Ne.symm hhc, Ne.symm hhl]
  · simp [values_requestFields, hht, hct, hlt]
  · simp [values_requestFields, hhl, hcl]

def requestLines (u : Url) (call : Call) (lines : List Bytes) : List Bytes :=
  headerLine (ascii "Host", u.host) ::
    ((headerLine (ascii "Connection", ascii "close") :: call.custom.map headerLine) ++
      (lines ++ (lengthField call).map headerLine))

variable {lines : List Bytes}

theorem wire_eq_head (h : typePart call = lines.flatMap (· ++ crlf) ++
      ((lengthField call).map headerLine).flatMap (· ++ crlf)) :
    wire u call = head (requestLine u call :: requestLines u call lines) ++ call.body.getD [] := by
  rw [wire_eq, h, head_cons, requestLines, head_cons, head_append, head, List.flatMap_append]
  simp only [List.append_assoc]

theorem mapM_requestLines (h : Sound u call more) (hmapM : lines.mapM parseField = some more) :
    (requestLines u call lines).mapM parseField = some (requestFields u call more) := by
  have hfront := mapM_headerLine
    (List.forall_mem_cons.mpr ⟨hostField_isField h.host,
      List.forall_mem_cons.mpr ⟨closeField_isField, h.custom⟩⟩)
  have hback := mapM_headerLine (lengthField_isField call)
  have hlines : requestLines u call lines = ((ascii "Host", u.host) ::
      (ascii "Connection", ascii "close") :: call.custom).map headerLine ++
      (lines ++ (lengthField call).map headerLine) := rfl
  rw [hlines]
  exact mapM_append_eq_some.mpr
    ⟨_, _, hfront, mapM_append_eq_some.mpr ⟨_, _, hmapM, hback, rfl⟩, rfl⟩

theorem lengthField_value : ∀ v ∈ (lengthField call).map Prod.snd,
    number v = some (call.body.getD []).length := by
  intro v hv
  rw [lengthField] at hv
  cases htype : call.contentType with
  | none => simp [htype] at hv
  | some contentType =>
    cases hbody : call.body with
    | none => simp [htype, hbody] at hv
    | some body =>
      rw [htype, hbody] at hv
      rw [List.mem_singleton.mp hv, number_decimal]
      rfl

theorem length_values_ne_nil (h : Sound u call more) (hbody : call.body ≠ none) :
    values (ascii "content-length") (requestFields u call more) ≠ [] := by
  rw [requestFields_values.2.2, values_append]
  rcases h.delimited hbody with htype | hcustom
  · obtain ⟨contentType, htype⟩ := Option.ne_none_iff_exists'.mp htype
    obtain ⟨body, hbody⟩ := Option.ne_none_iff_exists'.mp hbody
    simp [lengthField, htype, hbody]
  · simp [hcustom]

theorem says_of_sound (hpath : u.path ≠ []) (h : Sound u call more) :
    Says u call (wire u call) := by
  obtain ⟨lines, htype, hlines, hmapM⟩ := addedFields_iff.mp h.added
  obtain ⟨hmethod, htoken, honeLine⟩ := method_spec call.method
  have hline : parseRequestLine (requestLine u call) = some (call.method.str, u.path) :=
    parseRequestLine_eq_some_iff.mpr ⟨rfl, hmethod, htoken, hpath, h.path⟩
  have hfirst : IsLine (requestLine u call) := by
    refine ⟨by simp [requestLine], honeLine.append ?_⟩
    rw [oneLine_cons]
    refine ⟨by decide, by decide, (isTargetByte_oneLine h.path).append ?_⟩
    decide
  have hall : ∀ line ∈ requestLine u call :: requestLines u call lines, IsLine line := by
    refine List.forall_mem_cons.mpr ⟨hfirst, List.forall_mem_cons.mpr
      ⟨(hostField_isField h.host).isLine, ?_⟩⟩
    simp only [List.forall_mem_append, List.forall_mem_cons, List.forall_mem_map]
    exact ⟨⟨closeField_isField.isLine, fun f hf => (h.custom f hf).isLine⟩, hlines,
      fun f hf => (lengthField_isField call f hf).isLine⟩
  refine ⟨⟨call.method.str, u.path, requestFields u call more, call.body.getD []⟩,
    parseRequest_eq_some_iff.mpr ⟨_, _, wire_eq_head htype, hall, hline, mapM_requestLines h hmapM,
      ?_, ?_, ?_⟩, rfl, rfl, ?_, ?_, rfl, ?_⟩
  · rw [requestFields_values.2.1, h.noCoding]
  · intro hnone
    cases hbody : call.body with
    | none => rfl
    | some body => exact absurd hnone (length_values_ne_nil h (by simp [hbody]))
  · intro v hv
    rw [requestFields_values.2.2] at hv
    exact (List.mem_append.mp hv).elim (h.lengths v) (lengthField_value v)
  · rw [requestFields_values.1, h.noHost, authority, if_pos h.port]
  · intro f hf
    simp only [requestFields, List.mem_cons, List.mem_append]
    exact Or.inr (Or.inr (Or.inl hf))
  · exact length_values_ne_nil h

theorem typePart_lines (hlines : ∀ line ∈ lines, IsLine line)
    (h : lines.flatMap (· ++ crlf) = typePart call) :
    ∃ front, lines = front ++ (lengthField call).map headerLine := by
  rw [typePart] at h
  rw [lengthField]
  cases htype : call.contentType with
  | none => exact ⟨lines, (List.append_nil _).symm⟩
  | some contentType =>
    cases hbody : call.body with
    | none => exact ⟨lines, (List.append_nil _).symm⟩
    | some body =>
      rw [htype, hbody] at h
      have hone : OneLine (headerLine (ascii "Content-Length", decimal body.length)) :=
        (lengthField_isField call _ (by simp [lengthField, htype, hbody])).isLine.2
      obtain ⟨front, hfront, -⟩ := lines_concat hlines hone (h.trans (typeText_eq _ _))
      exact ⟨front, hfront⟩

theorem host_of_line {line rest rest' : Bytes} {f : Bytes × Bytes} (hone : OneLine line)
    (heq : line ++ crlf ++ rest = headerLine (ascii "Host", u.host) ++ crlf ++ rest')
    (hread : parseField line = some f) (hvalue : f.1 = ascii "Host" → f.2 = authority u) :
    f = (ascii "Host", u.host) ∧ rest = rest' ∧ u.port = defaultPort u.useTls ∧
      u.host.all isFieldByte ∧ trim u.host = u.host := by
  have hname : OneLine (ascii "Host" ++ [0x3a, 0x20]) :=
    (isTokenByte_oneLine field_names.1.1).append (by decide)
  have hline : headerLine (ascii "Host", u.host) ++ crlf ++ rest' =
      (ascii "Host" ++ [0x3a, 0x20]) ++ (u.host ++ crlf ++ rest') := by simp [headerLine]
  obtain ⟨value, rfl, hrest⟩ := line_front hname (heq.trans hline)
  have hsplit : ascii "Host" ++ [0x3a, 0x20] ++ value = ascii "Host" ++ 0x3a :: 0x20 :: value := by
    simp
  rw [hsplit, parseField_eq (by decide) field_names.1.1, trim_blank] at hread
  split_ifs at hread with hbytes
  cases hread
  have hauthority : trim value = authority u := hvalue rfl
  have hshort : OneLine value := by
    simp only [OneLine, List.mem_append, not_or] at hone
    exact ⟨hone.1.2, hone.2.2⟩
  obtain ⟨more, hhost, htail⟩ := line_le hshort hrest
  -- The value is no longer than the host, and the authority no shorter.
  have hle := length_trim_le value
  have hsum := congrArg List.length hhost
  rw [List.length_append] at hsum
  have hport : u.port = defaultPort u.useTls := by
    by_contra hport
    rw [hauthority, authority, if_neg hport, List.length_append, List.length_append] at hle
    have hcolon : (ascii ":").length = 1 := by decide
    omega
  rw [authority, if_pos hport] at hauthority
  have hmore : more = [] := by
    rw [hauthority] at hle
    exact List.eq_nil_of_length_eq_zero (by omega)
  rw [hmore, List.append_nil] at hhost
  rw [hmore, List.nil_append] at htail
  rw [← hhost] at hauthority hbytes ⊢
  rw [hauthority] at hbytes
  exact ⟨by rw [hauthority], List.append_cancel_left htail, hport, hbytes, hauthority⟩

theorem requestFields_of_lines (hclean : ∀ f ∈ call.custom, OneLine f.1 ∧ OneLine f.2)
    {fields : List (Bytes × Bytes)} {rest : Bytes}
    (hrest : rest = ((headerLine (ascii "Connection", ascii "close") ::
      call.custom.map headerLine).flatMap (· ++ crlf)) ++
        (typePart call ++ crlf ++ call.body.getD []))
    (heq : head lines ++ call.body.getD [] = headerLine (ascii "Host", u.host) ++ crlf ++ rest)
    (hlines : ∀ line ∈ lines, IsLine line) (hfields : lines.mapM parseField = some fields)
    (hhost : values (ascii "host") fields = [authority u])
    (hcustom : ∀ f ∈ call.custom, f ∈ fields) :
    ∃ more, fields = requestFields u call more ∧ AddedFields call more ∧
      u.port = defaultPort u.useTls ∧ (u.host.all isFieldByte ∧ trim u.host = u.host) ∧
      ∀ f ∈ call.custom, IsField f := by
  have hisField : ∀ f ∈ call.custom, IsField f := fun f hf =>
    (exists_of_mapM hfields (hcustom f hf)).elim fun line hline => isField_of_parseField hline.2
  cases lines with
  | nil =>
    have hname : OneLine (ascii "Host") := isTokenByte_oneLine field_names.1.1
    have hstart : [] ++ crlf ++ call.body.getD [] = ascii "Host" ++ _ :=
      heq.trans (by rw [headerLine, List.append_assoc, List.append_assoc])
    obtain ⟨_, hnil, -⟩ := line_front hname hstart
    exact absurd hnil (by simp [ascii])
  | cons line lines =>
    obtain ⟨hline, hlines⟩ := List.forall_mem_cons.mp hlines
    obtain ⟨f, after, hf, hafter, rfl⟩ := mapM_cons_eq_some hfields
    rw [head_cons, List.append_assoc] at heq
    have hvalue : f.1 = ascii "Host" → f.2 = authority u := by
      intro hname
      rw [values_cons, hname, if_pos field_names.2.1, List.singleton_append] at hhost
      exact (List.cons.inj hhost).1
    obtain ⟨rfl, hnext, hport, hhostField⟩ := host_of_line hline.2 heq hf hvalue
    -- Then come the lines that have no line breaks of their own.
    rw [hrest] at hnext
    obtain ⟨last, rfl, hlast⟩ := head_split hlines (List.forall_mem_cons.mpr
      ⟨closeField_isField.isLine, List.forall_mem_map.mpr fun f hf =>
        headerLine_isLine (hclean f hf).1 (hclean f hf).2⟩) hnext
    have htype := List.append_cancel_right (List.append_cancel_right hlast)
    obtain ⟨front, rfl⟩ := typePart_lines (fun l hl => hlines l (List.mem_append_right _ hl)) htype
    obtain ⟨fixed, added, hfixed, hadded, rfl⟩ := mapM_append_eq_some.mp hafter
    obtain ⟨more, length, hmore, hlength, rfl⟩ := mapM_append_eq_some.mp hadded
    rw [mapM_headerLine (lengthField_isField call), Option.some_inj] at hlength
    rw [← List.map_cons, mapM_headerLine (List.forall_mem_cons.mpr ⟨closeField_isField, hisField⟩),
      Option.some_inj] at hfixed
    refine ⟨more, ?_, addedFields_iff.mpr ⟨front, ?_, ?_, hmore⟩, hport, hhostField, hisField⟩
    · rw [← hfixed, ← hlength]
      rfl
    · rw [← htype, List.flatMap_append]
    · exact fun l hl => hlines l (List.mem_append_right _ (List.mem_append_left _ hl))

theorem sound_of_says (hclean : ∀ f ∈ call.custom, OneLine f.1 ∧ OneLine f.2)
    (h : Says u call (wire u call)) : ∃ more, Sound u call more := by
  obtain ⟨r, hparse, hmethod, htarget, hhost, hcustom, hbody, hlength⟩ := h
  obtain ⟨first, lines, hwire, hlines, hline, hfields, hcoding, -, hall⟩ :=
    parseRequest_eq_some_iff.mp hparse
  rw [hmethod, htarget] at hline
  obtain ⟨hfirst, -, -, -, hpath⟩ := parseRequestLine_eq_some_iff.mp hline
  rw [wire_eq, head_cons, hfirst, ← requestLine, hbody, List.append_assoc _ (head lines)] at hwire
  obtain ⟨more, hmore, hadded, hport, hhostField, hisField⟩ := requestFields_of_lines hclean rfl
    (List.append_cancel_left hwire).symm (List.forall_mem_cons.mp hlines).2 hfields hhost hcustom
  rw [hmore, requestFields_values.1] at hhost
  rw [hmore, requestFields_values.2.1] at hcoding
  rw [hmore, requestFields_values.2.2] at hall hlength
  refine ⟨more, hpath, hport, hhostField, hisField, hadded, (List.cons.inj hhost).2, hcoding,
    fun v hv => hbody ▸ hall v (List.mem_append_left _ hv), fun hsome => ?_⟩
  by_cases htype : call.contentType = none
  · right
    have hnone : more = [] := by
      rw [AddedFields, htype] at hadded
      exact hadded
    have hlengthField : lengthField call = [] := by rw [lengthField, htype]
    have hvalues := hlength hsome
    rwa [hnone, hlengthField, List.append_nil, List.map_nil, List.append_nil] at hvalues
  · exact Or.inl htype

theorem sound_of_correct {arch : Arch} (hurl : parseUrl arch 128 call.url = .ok u)
    (hclean : ∀ f ∈ call.custom, OneLine f.1 ∧ OneLine f.2) (h : RequestCorrect arch call)
    (hfits : Fits u call) : ∃ more, Sound u call more := by
  obtain ⟨e', hsent⟩ := sendRequest_succeeds hfits ⟨[], [], 0⟩
  obtain ⟨u', bytes, hurl', hout, hsays⟩ := h _ _ _ _ (requestEx_run hurl hsent)
  rw [hurl] at hurl'
  obtain rfl := Except.ok.inj hurl'
  rw [(sendRequest_ok hsent).2] at hout
  rw [← List.append_cancel_left hout] at hsays
  exact sound_of_says hclean hsays

end

theorem portUrl_noNul : ∀ b ∈ ascii "http://h:8080/", b ≠ 0 := by decide +kernel

theorem plainUrl_noNul : ∀ b ∈ ascii "http://h/", b ≠ 0 := by decide +kernel

def portCall : Call := ⟨.get, ⟨ascii "http://h:8080/", portUrl_noNul⟩, none, none, []⟩

def untypedCall : Call := ⟨.post, ⟨ascii "http://h/", plainUrl_noNul⟩, none, some (ascii "hi"), []⟩

theorem request_not_correct :
    ¬RequestCorrect .arm32 portCall ∧ ¬RequestCorrect .arm32 untypedCall := by
  constructor
  · intro h
    obtain ⟨more, hsound⟩ := sound_of_correct (u := ⟨false, ascii "h", 8080, ascii "/"⟩) (by rfl)
      (by decide +kernel) h ⟨by decide +kernel, by decide +kernel, by simp [portCall]⟩
    exact absurd hsound.port (by decide)
  · intro h
    obtain ⟨more, hsound⟩ := sound_of_correct (u := ⟨false, ascii "h", 80, ascii "/"⟩) (by rfl)
      (by decide +kernel) h ⟨by decide +kernel, by decide +kernel, by simp [untypedCall]⟩
    exact (hsound.delimited (by decide)).elim (fun hne => hne rfl) fun hne => hne rfl

/-- The request sent says what was passed exactly if the caller has seen to what is not checked. -/
theorem requestCorrect_iff {arch : Arch} {call : Call} {u : Url}
    (hurl : parseUrl arch 128 call.url = .ok u)
    (hclean : ∀ f ∈ call.custom, OneLine f.1 ∧ OneLine f.2) :
    RequestCorrect arch call ↔ (Fits u call → ∃ more, Sound u call more) := by
  constructor
  · exact sound_of_correct hurl hclean
  · intro h takes net e e' hrun
    obtain ⟨u', hurl', hsent⟩ := requestEx_ok hrun
    obtain rfl := Except.ok.inj (hurl.symm.trans hurl')
    obtain ⟨hfits, hout⟩ := sendRequest_ok hsent
    obtain ⟨more, hsound⟩ := h hfits
    exact ⟨u, wire u call, hurl, hout, says_of_sound (parseUrl_path_ne_nil hurl) hsound⟩

def plainCall : Call := ⟨.get, ⟨ascii "http://h/", plainUrl_noNul⟩, none, none, []⟩

theorem plainCall_correct : RequestCorrect .arm32 plainCall :=
  (requestCorrect_iff (u := ⟨false, ascii "h", 80, ascii "/"⟩) (by rfl) (by decide +kernel)).mpr
    fun _ => ⟨[], by decide +kernel, rfl, by decide +kernel,
      by simp [plainCall, Call.custom, complete], rfl, rfl, rfl, by decide +kernel,
      by decide +kernel⟩

end Overtos.HttpClient
