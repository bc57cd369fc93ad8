import Overtos.Httpd.Once
import Overtos.Lib.Http

/-! What the bytes of a response mean to an HTTP client. -/
namespace Overtos.Httpd
open CStr Http

def Reply.wire (r : Reply) : Bytes := r.message.header.take r.taken ++ r.body

def Answer.status : Answer → ℤ
  | .respJson status _ => status
  | .respHtml status _ => status
  | .respSend status _ _ => status
  | .respSendGz status _ _ => status
  | .respError status _ => status

def Answer.contentType : Answer → Bytes
  | .respJson _ _ => applicationJson
  | .respHtml _ _ => ascii "text/html"
  | .respSend _ contentType _ => contentType.bytes
  | .respSendGz _ contentType _ => contentType.bytes
  | .respError _ _ => applicationJson

def Answer.isGzip : Answer → Bool
  | .respSendGz _ _ _ => true
  | _ => false

def Answer.SaidBy (a : Answer) (wire : Bytes) : Prop :=
  ∃ r, parseResponse wire = some r ∧ (r.status : ℤ) = a.status ∧
    values (ascii "content-type") r.fields = [a.contentType] ∧ r.body = a.message.body.data

def WireCorrect (r : Resp) (a : Answer) : Prop :=
  (respond r a).1 = .ok → ∃ reply,
    (respond r a).2.conn.replies = r.conn.replies ++ [reply] ∧ a.SaidBy reply.wire

def gzipLines (gzip : Bool) : List Bytes := if gzip then [ascii "Content-Encoding: gzip"] else []

def headerLines (status : Status) (contentType : Bytes) (gzip : Bool) (len : ℕ) : List Bytes :=
  (ascii "HTTP/1.1 " ++ status.text) :: (ascii "Content-Type: " ++ contentType) ::
    (gzipLines gzip ++ [ascii "Content-Length: " ++ decimal len, ascii "Connection: close",
      ascii "Access-Control-Allow-Origin: *"])

theorem responseHeader_eq (status : Status) (contentType : Bytes) (gzip : Bool) (len : ℕ) :
    responseHeader status contentType ((gzipLines gzip).flatMap (· ++ crlf)) len =
      head (headerLines status contentType gzip len) := by
  have htype : ascii "\r\nContent-Type: " = crlf ++ ascii "Content-Type: " := by decide
  have hbreak : ascii "\r\n" = crlf := by decide
  have hend : ascii "\r\nConnection: close\r\nAccess-Control-Allow-Origin: *\r\n\r\n" =
      crlf ++ ascii "Connection: close" ++ crlf ++ ascii "Access-Control-Allow-Origin: *" ++ crlf ++
        crlf := by decide +kernel
  simp only [responseHeader, htype, hbreak, hend, head, headerLines, List.flatMap_cons,
    List.flatMap_append, List.flatMap_nil, List.append_assoc, List.append_nil]

theorem Answer.header_eq (a : Answer) : a.message.header =
    head (headerLines (statusStr a.status) a.contentType a.isGzip a.message.body.len) := by
  rw [← responseHeader_eq]
  cases a <;> rfl

def headerFields (contentType : Bytes) (gzip : Bool) (len : ℕ) : List (Bytes × Bytes) :=
  (ascii "Content-Type", trim contentType) ::
    ((if gzip then [(ascii "Content-Encoding", ascii "gzip")] else []) ++
      [(ascii "Content-Length", decimal len), (ascii "Connection", ascii "close"),
        (ascii "Access-Control-Allow-Origin", ascii "*")])

theorem trim_fieldBytes {s : Bytes} (h : s.all isFieldByte) : (trim s).all isFieldByte := by
  rw [List.all_eq_true] at h ⊢
  exact fun c hc => h c ((List.dropWhile_sublist _).subset ((List.rdropWhile_prefix _ _).subset hc))

variable {contentType : Bytes}

theorem mapM_parseField (h : contentType.all isFieldByte) (status : Status) (gzip : Bool)
    (len : ℕ) : (headerLines status contentType gzip len).tail.mapM parseField =
      some (headerFields contentType gzip len) := by
  have htype : parseField (ascii "Content-Type: " ++ contentType) =
      some (ascii "Content-Type", trim contentType) := by
    have hline : ascii "Content-Type: " ++ contentType =
        ascii "Content-Type" ++ 0x3a :: 0x20 :: contentType := by
      rw [show ascii "Content-Type: " = ascii "Content-Type" ++ [0x3a, 0x20] by decide]
      simp
    rw [hline, parseField_eq (by decide) (by decide +kernel), trim_blank,
      if_pos (trim_fieldBytes h)]
  have hlength : parseField (ascii "Content-Length: " ++ decimal len) =
      some (ascii "Content-Length", decimal len) := by
    have hline : ascii "Content-Length: " ++ decimal len =
        ascii "Content-Length" ++ 0x3a :: 0x20 :: decimal len := by
      rw [show ascii "Content-Length: " = ascii "Content-Length" ++ [0x3a, 0x20] by decide]
      simp
    rw [hline, parseField_eq (by decide) (by decide +kernel), trim_blank, trim_decimal,
      if_pos (decimal_fieldBytes len)]
  have hgzip : parseField (ascii "Content-Encoding: gzip") =
      some (ascii "Content-Encoding", ascii "gzip") := by decide +kernel
  have hclose : parseField (ascii "Connection: close") =
      some (ascii "Connection", ascii "close") := by decide +kernel
  have horigin : parseField (ascii "Access-Control-Allow-Origin: *") =
      some (ascii "Access-Control-Allow-Origin", ascii "*") := by decide +kernel
  cases gzip <;>
    simp [headerLines, headerFields, gzipLines, htype, hlength, hgzip, hclose, horigin]

theorem headerLines_isLine (status : Status) (h : contentType.all isFieldByte) (gzip : Bool)
    (len : ℕ) : ∀ line ∈ headerLines status contentType gzip len, IsLine line := by
  have hstatus : IsLine (ascii "HTTP/1.1 " ++ status.text) := by
    cases status <;> exact ⟨by decide, by decide +kernel⟩
  have happend : ∀ {name value : Bytes}, IsLine name → value.all isFieldByte →
      IsLine (name ++ value) := fun hname hvalue =>
    ⟨List.append_ne_nil_of_left_ne_nil hname.1 _, hname.2.append (isFieldByte_oneLine hvalue)⟩
  have htype : IsLine (ascii "Content-Type: ") := ⟨by decide, by decide +kernel⟩
  have hgzip : IsLine (ascii "Content-Encoding: gzip") := ⟨by decide, by decide +kernel⟩
  have hlength : IsLine (ascii "Content-Length: ") := ⟨by decide, by decide +kernel⟩
  have hclose : IsLine (ascii "Connection: close") := ⟨by decide, by decide +kernel⟩
  have horigin : IsLine (ascii "Access-Control-Allow-Origin: *") := ⟨by decide, by decide +kernel⟩
  have hct := happend htype h
  have hcl := happend hlength (decimal_fieldBytes len)
  cases gzip <;>
    simp [headerLines, gzipLines, hstatus, hct, hcl, hgzip, hclose, horigin]

theorem values_contentType (contentType : Bytes) (gzip : Bool) (len : ℕ) :
    values (ascii "content-type") (headerFields contentType gzip len) = [trim contentType] := by
  have hnames : ∀ name ∈ [ascii "Content-Encoding", ascii "Content-Length", ascii "Connection",
      ascii "Access-Control-Allow-Origin"], name.map lower ≠ ascii "content-type" := by
    decide +kernel
  have hname : (ascii "Content-Type").map lower = ascii "content-type" := by decide +kernel
  simp only [List.forall_mem_cons] at hnames
  cases gzip <;> simp [values, headerFields, hname, hnames]

theorem values_contentLength (contentType : Bytes) (gzip : Bool) (len : ℕ) :
    values (ascii "content-length") (headerFields contentType gzip len) = [decimal len] := by
  have hnames : ∀ name ∈ [ascii "Content-Type", ascii "Content-Encoding", ascii "Connection",
      ascii "Access-Control-Allow-Origin"], name.map lower ≠ ascii "content-length" := by
    decide +kernel
  have hname : (ascii "Content-Length").map lower = ascii "content-length" := by decide +kernel
  simp only [List.forall_mem_cons] at hnames
  cases gzip <;> simp [values, headerFields, hname, hnames]

def Status.code : Status → ℕ
  | .switchingProtocols => 101
  | .ok => 200
  | .badRequest => 400
  | .notFound => 404
  | .internalServerError => 500

theorem parseStatusLine_text (status : Status) :
    parseStatusLine (ascii "HTTP/1.1 " ++ status.text) = some status.code := by
  cases status <;> decide +kernel

def KnownStatus (code : ℤ) : Prop := code = 200 ∨ code = 400 ∨ code = 404 ∨ code = 500

theorem statusStr_code_iff (code : ℤ) : ((statusStr code).code : ℤ) = code ↔ KnownStatus code := by
  unfold statusStr KnownStatus
  split_ifs <;> simp_all [Status.code]
  omega

def CleanValue (contentType : Bytes) : Prop :=
  contentType.all isFieldByte ∧ trim contentType = contentType

instance (contentType : Bytes) : Decidable (CleanValue contentType) :=
  inferInstanceAs (Decidable (_ ∧ _))

section
variable {a : Answer}

theorem Answer.saidBy_header (hstatus : KnownStatus a.status) (htype : CleanValue a.contentType)
    (hbody : a.message.body.data.length = a.message.body.len) :
    a.SaidBy (a.message.header ++ a.message.body.data) := by
  refine ⟨⟨(statusStr a.status).code, headerFields a.contentType a.isGzip a.message.body.len,
    a.message.body.data⟩, parseResponse_eq_some_iff.mpr ?_, (statusStr_code_iff _).mpr hstatus, ?_,
    rfl⟩
  · refine ⟨_, _, by rw [a.header_eq]; rfl, headerLines_isLine _ htype.1 _ _,
      parseStatusLine_text _, mapM_parseField htype.1 (statusStr a.status) _ _, ?_, ?_⟩
    · rw [values_contentLength]
      exact List.cons_ne_nil _ _
    · rw [values_contentLength, hbody]
      simp [number_decimal]
  · rw [values_contentType, htype.2]

theorem Answer.SaidBy.whole {k : ℕ}
    (h : a.SaidBy (a.message.header.take k ++ a.message.body.data)) :
    a.message.header.length ≤ k ∧ KnownStatus a.status ∧ CleanValue a.contentType ∧
      a.message.body.data.length = a.message.body.len := by
  obtain ⟨r, hparse, hstatus, htype, hbody⟩ := h
  obtain ⟨first, lines, hwire, hlines, hfirst, hfields, -, hlen⟩ :=
    parseResponse_eq_some_iff.mp hparse
  -- the content type was read from a field, so that the header consists of lines
  have hclean : a.contentType.all isFieldByte := by
    have hmem : a.contentType ∈ values (ascii "content-type") r.fields := by
      rw [htype]
      exact List.mem_singleton_self _
    obtain ⟨f, hf, hfv⟩ := List.mem_filterMap.mp hmem
    split_ifs at hfv
    rw [← Option.some.inj hfv]
    exact mapM_parseField_value hfields f hf
  -- a head ends where it ends, whatever follows: the part sent is the whole header
  rw [hbody] at hwire
  have htaken : a.message.header.take k = head (first :: lines) := List.append_cancel_right hwire
  have hread : readHead a.message.header = some (first :: lines, a.message.header.drop k) := by
    rw [readHead_eq_some_iff, ← htaken]
    exact ⟨(List.take_append_drop _ _).symm, hlines⟩
  have hown : readHead a.message.header =
      some (headerLines (statusStr a.status) a.contentType a.isGzip a.message.body.len, []) := by
    rw [readHead_eq_some_iff, List.append_nil]
    exact ⟨a.header_eq, headerLines_isLine _ hclean _ _⟩
  rw [hown, Option.some_inj, Prod.mk.injEq] at hread
  obtain ⟨hsame, hrest⟩ := hread
  obtain ⟨rfl, rfl⟩ := List.cons.inj hsame
  refine ⟨List.drop_eq_nil_iff.mp hrest.symm, ?_⟩
  rw [parseStatusLine_text, Option.some_inj] at hfirst
  have hown := mapM_parseField hclean (statusStr a.status) a.isGzip a.message.body.len
  rw [headerLines, List.tail_cons, hfields, Option.some_inj] at hown
  rw [hown, values_contentType, List.singleton_inj] at htype
  rw [hown, values_contentLength] at hlen
  have hnumber := hlen _ (List.mem_singleton_self _)
  rw [number_decimal, Option.some_inj, hbody] at hnumber
  refine ⟨(statusStr_code_iff _).mp (by rw [hfirst, hstatus]), ⟨hclean, htype⟩, hnumber.symm⟩

end

/-- A status that `status_str` knows, a clean content type, a body, and a first send that takes the
whole header. -/
def Answer.Plain (a : Answer) (c : Conn) : Prop :=
  KnownStatus a.status ∧ CleanValue a.contentType ∧
    a.message.body.data.length = a.message.body.len ∧
    ∃ n, c.sends c.made = .ok n ∧ a.message.header.length ≤ n

theorem wireCorrect_iff_saidBy {r : Resp} {a : Answer} (hs : SendsSucceed r.conn.sends)
    (hfit : a.message.header.length < headerSize) {n : ℕ}
    (hn : r.conn.sends r.conn.made = .ok n) :
    WireCorrect r a ↔ a.SaidBy (a.message.header.take n ++ a.message.body.data) := by
  obtain ⟨k, hk⟩ := sendMessage_fits hs hfit
  have hwire : (replyAt r.conn.sends r.conn.made a.message).wire =
      a.message.header.take n ++ a.message.body.data := by
    simp [replyAt, Reply.wire, hn, Except.toOption]
  rw [WireCorrect, respond, hk, ← hwire]
  simp

/-- A response that fits is read as it was passed exactly if it is plain. -/
theorem response_read_back_iff (r : Resp) (a : Answer) (hs : SendsSucceed r.conn.sends) :
    WireCorrect r a ↔ (a.message.header.length < headerSize → a.Plain r.conn) := by
  by_cases hfit : a.message.header.length < headerSize
  · obtain ⟨n, hn⟩ := hs r.conn.made
    rw [wireCorrect_iff_saidBy hs hfit hn]
    constructor
    · intro h _
      obtain ⟨hlen, hstatus, htype, hbody⟩ := h.whole
      exact ⟨hstatus, htype, hbody, n + 1, hn, hlen⟩
    · intro h
      obtain ⟨hstatus, htype, hbody, m, hm, hlen⟩ := h hfit
      rw [hn] at hm
      cases hm
      rw [List.take_of_length_le hlen]
      exact Answer.saidBy_header hstatus htype hbody
  · refine iff_of_true (fun hok => ?_) fun h => absurd h hfit
    rw [respond, sendMessage, if_pos (Nat.le_of_not_lt hfit)] at hok
    cases hok

def takingConn (n : ℕ) : Conn := ⟨[], fun _ => .ok (n + 1), 0, []⟩

theorem takingConn_sends (n : ℕ) : SendsSucceed (takingConn n).sends := fun _ => ⟨n, rfl⟩

theorem hello_noNul : ∀ b ∈ ascii "hello", b ≠ 0 := by decide +kernel

def helloJson (status : ℤ) : Answer := .respJson status ⟨ascii "hello", hello_noNul⟩

theorem hello_read_back : WireCorrect ⟨takingConn 1000, false⟩ (helloJson 200) := by
  refine (response_read_back_iff _ _ (takingConn_sends 1000)).mpr fun _ => ?_
  exact ⟨.inl rfl, by decide +kernel, rfl, 1001, rfl, by decide +kernel⟩

theorem created_and_short_header :
    ¬WireCorrect ⟨takingConn 1000, false⟩ (helloJson 201) ∧
      ¬WireCorrect ⟨takingConn 99, false⟩ (helloJson 200) := by
  constructor
  · rw [wireCorrect_iff_saidBy (takingConn_sends 1000) (by decide +kernel) rfl]
    intro h
    exact absurd h.whole.2.1 (by simp [KnownStatus, helloJson, Answer.status])
  · rw [wireCorrect_iff_saidBy (takingConn_sends 99) (by decide +kernel) rfl]
    intro h
    exact absurd h.whole.1 (by decide +kernel)

end Overtos.Httpd
