import Overtos.HttpClient.Request
import Overtos.Lib.Word

/-! The response that `ove_http_request_ex` reads, in the build with a heap. -/
namespace Overtos.HttpClient
open CStr Duplex List

structure Heap where
  malloc : ℕ → Option Bytes
  length_malloc : ∀ size block, malloc size = some block → block.length = size

def Heap.Ample (heap : Heap) : Prop := ∀ size, ∃ block, heap.malloc size = some block

structure Response where
  status : ℤ := 0
  headers : Option Bytes := none
  headersLen : ℕ := 0
  body : Option Bytes := none
  bodyLen : ℕ := 0
  deriving DecidableEq, Repr

section

variable (arch : Arch) (heap : Heap)

def growBuffer (cap total : ℕ) (buf : Bytes) : Option (Except Rc (ℕ × Bytes)) :=
  if cap < Word.wrap arch.bits (total + 1024) then
    let cap := Word.wrap arch.bits (cap * 2)
    match heap.malloc cap with
    | none => some (.error .errNoMemory)
    | some nb => (Checked.copy nb 0 buf total).map fun nb => .ok (cap, nb)
  else some (.ok (cap, buf))

def httpRecvSome (gives : ℕ → Except Rc ℕ) (len : ℕ) (e : Ends UInt8) :
    Except Rc Bytes × Ends UInt8 :=
  tryRecv .errNetClosed gives len e

def room (cap total : ℕ) : ℕ := Word.sub arch.bits (Word.sub arch.bits cap total) 1

def readLoop (gives : ℕ → Except Rc ℕ) (cap total : ℕ) (buf : Bytes) (e : Ends UInt8) :
    Option (Except Rc (ℕ × Bytes) × Ends UInt8) :=
  match growBuffer arch heap cap total buf with
  | none => none
  | some (.error rc) => some (.error rc, e)
  | some (.ok (cap, buf)) =>
    match _hrecv : httpRecvSome gives (room arch cap total) e with
    | (.error rc, e') => some (if rc = .errNetClosed then .ok (total, buf) else .error rc, e')
    | (.ok got, e') =>
      match Checked.put buf total got with
      | none => none
      | some buf => readLoop gives cap (Word.wrap arch.bits (total + got.length)) buf e'
termination_by e.inbox.length
decreasing_by exact tryRecv_length_lt _hrecv

def parseStatus (atoi : Bytes → ℤ) (text : Bytes) : ℤ :=
  match strstr text (ascii "\r\n"), cut 0x20 text with
  | some _, some (_, rest) => atoi rest
  | _, _ => 0

def copyText (src : Bytes) (len : ℕ) : Option (Option Bytes) :=
  match heap.malloc (Word.wrap arch.bits (len + 1)) with
  | none => some none
  | some block =>
    ((Checked.copy block 0 src len).bind fun block => Checked.put block len [0]).map some

def splitResponse (atoi : Bytes → ℤ) (total : ℕ) (buf : Bytes) : Option (Rc × Response) :=
  match Checked.put buf total [0] with
  | none => none
  | some buf =>
    let status := parseStatus atoi (ofArray buf)
    match strstr (ofArray buf) (ascii "\r\n\r\n") with
    | none => some (.ok, { status })
    | some hdrLen =>
      let bodyStart := hdrLen + 4
      let blen := Word.sub arch.bits total bodyStart
      match copyText arch heap buf hdrLen with
      | none => none
      | some none => some (.errNoMemory, { status })
      | some (some headers) =>
        match copyText arch heap (buf.drop bodyStart) blen with
        | none => none
        | some none => some (.errNoMemory, { status })
        | some (some body) => some (.ok, ⟨status, some headers, hdrLen, some body, blen⟩)

def readResponse (gives : ℕ → Except Rc ℕ) (atoi : Bytes → ℤ) (e : Ends UInt8) :
    Option (Rc × Response × Ends UInt8) :=
  match heap.malloc 4096 with
  | none => some (.errNoMemory, {}, e)
  | some buf =>
    match readLoop arch heap gives 4096 0 buf e with
    | none => none
    | some (.error rc, e') => some (rc, {}, e')
    | some (.ok (total, buf), e') =>
      (splitResponse arch heap atoi total buf).map fun r => (r.1, r.2, e')

def httpRequestEx (takes gives : ℕ → Except Rc ℕ) (atoi : Bytes → ℤ) (net : Net) (call : Call)
    (e : Ends UInt8) : Option (Rc × Response × Ends UInt8) :=
  match requestEx takes arch net call e with
  | (.error rc, e') => some (rc, {}, e')
  | (.ok (), e') => readResponse arch heap gives atoi e'

end

/-- What the server sends comes back as one response however it is split: headers up to the first
CRLFCRLF, and all behind it as the body. -/
def ResponseCorrect (arch : Arch) (atoi : Bytes → ℤ) (stream : Bytes) : Prop :=
  ∃ resp : Response,
    (∀ (heap : Heap) takes (brings : ℕ → ℕ) net call e e₁, heap.Ample → e.inbox = stream →
      requestEx takes arch net call e = (.ok (), e₁) →
      ∃ e', httpRequestEx arch heap takes (fun n => .ok (brings n)) atoi net call e =
        some (.ok, resp, e')) ∧
    ∀ head rest, IsFirst (ascii "\r\n\r\n") stream head rest → 0 ∉ head →
      resp.headers = some (head ++ [0]) ∧ resp.headersLen = head.length ∧
      resp.body = some (rest ++ [0]) ∧ resp.bodyLen = rest.length

section

variable {arch : Arch} {heap : Heap} {cap : ℕ} {written free : Bytes}

structure Buffer (arch : Arch) (cap : ℕ) (written free : Bytes) : Prop where
  size : ∃ k, 12 ≤ k ∧ k < arch.bits ∧ cap = 2 ^ k
  length : (written ++ free).length = cap
  room : written.length < cap

theorem Buffer.size_cases (h : Buffer arch cap written free) :
    4096 ≤ cap ∧ (cap = 2 ^ (arch.bits - 1) ∨ cap * 2 ≤ 2 ^ (arch.bits - 1)) := by
  obtain ⟨k, hk, hbits, rfl⟩ := h.size
  refine ⟨Nat.pow_le_pow_right two_pos hk, ?_⟩
  rcases Nat.lt_or_eq_of_le (Nat.le_sub_one_of_lt hbits) with hlt | rfl
  · exact .inr (by rw [← pow_succ]; exact Nat.pow_le_pow_right two_pos hlt)
  · exact .inl rfl

theorem Buffer.double (h : Buffer arch cap written free) (hle : cap * 2 ≤ 2 ^ (arch.bits - 1)) :
    ∃ k, 12 ≤ k ∧ k < arch.bits ∧ cap * 2 = 2 ^ k := by
  obtain ⟨k, hk, -, rfl⟩ := h.size
  rw [← pow_succ] at hle
  have hk' := (Nat.pow_le_pow_iff_right Nat.one_lt_two).mp hle
  have hbits := arch.bits_cases
  exact ⟨k + 1, by omega, by omega, pow_succ 2 k⟩

theorem two_pow_half_ge (arch : Arch) : 2 ^ 31 ≤ 2 ^ (arch.bits - 1) := by
  have h := arch.two_pow_bits_ge
  rw [arch.two_pow_half] at h
  omega

theorem growBuffer_ok (hheap : heap.Ample) (h : Buffer arch cap written free)
    (hsmall : written.length + 1024 ≤ 2 ^ (arch.bits - 1)) :
    ∃ cap' free', growBuffer arch heap cap written.length (written ++ free) =
        some (.ok (cap', written ++ free')) ∧
      Buffer arch cap' written free' ∧ written.length + 1024 ≤ cap' := by
  have hhalf := arch.two_pow_half
  obtain ⟨hmin, hsize⟩ := h.size_cases
  have hroom := h.room
  rw [growBuffer, Word.wrap_of_lt (by omega)]
  split_ifs with hfull
  · have hdouble : cap * 2 ≤ 2 ^ (arch.bits - 1) := by omega
    obtain ⟨nb, hnb⟩ := hheap (cap * 2)
    have hlen := heap.length_malloc _ _ hnb
    have hcopy : Checked.copy nb 0 (written ++ free) written.length =
        some (written ++ nb.drop written.length) := by
      rw [Checked.copy, if_pos (by simp), take_left]
      exact @Checked.put_append _ [] nb written 0 rfl (by omega)
    rw [Word.wrap_of_lt (by omega)]
    refine ⟨cap * 2, nb.drop written.length, by simp [hnb, hcopy],
      ⟨h.double hdouble, ?_, by omega⟩, by omega⟩
    rw [length_append, length_drop]
    omega
  · exact ⟨cap, free, rfl, h, by omega⟩

theorem growBuffer_fault (hheap : heap.Ample) (h : Buffer arch cap written free)
    (hlarge : 2 ^ (arch.bits - 1) < written.length + 1024) :
    growBuffer arch heap cap written.length (written ++ free) = none := by
  have hhalf := arch.two_pow_half
  have hge := two_pow_half_ge arch
  obtain ⟨hmin, hsize⟩ := h.size_cases
  have hroom := h.room
  have hcap : cap = 2 ^ (arch.bits - 1) := by omega
  have hzero : Word.wrap arch.bits (cap * 2) = 0 := by
    rw [hcap, Nat.mul_comm, ← hhalf, Word.wrap, Nat.mod_self]
  obtain ⟨nb, hnb⟩ := hheap 0
  have hlen := heap.length_malloc _ _ hnb
  have hcopy : Checked.copy nb 0 (written ++ free) written.length = none := by
    rw [Checked.copy, if_pos (by simp), take_left, Checked.put, if_neg (by omega)]
  rw [growBuffer, Word.wrap_of_lt (by omega), if_pos (by omega), hzero]
  simp [hnb, hcopy]

theorem readLoop_step (hheap : heap.Ample) (brings : ℕ → ℕ) (h : Buffer arch cap written free)
    (e : Ends UInt8) (hsmall : written.length + 1024 ≤ 2 ^ (arch.bits - 1)) :
    ∃ cap' free', Buffer arch cap' written free' ∧
      (e.inbox = [] ∧
          readLoop arch heap (fun n => .ok (brings n)) cap written.length (written ++ free) e =
            some (.ok (written.length, written ++ free'), { e with calls := e.calls + 1 }) ∨
        ∃ got rest, e.inbox = got ++ rest ∧ 0 < got.length ∧
          Buffer arch cap' (written ++ got) (free'.drop got.length) ∧
          readLoop arch heap (fun n => .ok (brings n)) cap written.length (written ++ free) e =
            readLoop arch heap (fun n => .ok (brings n)) cap' (written ++ got).length
              (written ++ got ++ free'.drop got.length)
              { e with inbox := rest, calls := e.calls + 1 }) := by
  have hhalf := arch.two_pow_half
  obtain ⟨cap', free', hgrow, hbuf, hroom⟩ := growBuffer_ok hheap h hsmall
  have hlt := hbuf.size_cases
  have hlen := hbuf.length
  rw [length_append] at hlen
  have hsub : Word.sub arch.bits cap' written.length = cap' - written.length :=
    Word.sub_of_le (by omega) (by omega)
  have hleft : room arch cap' written.length = cap' - written.length - 1 := by
    rw [room, hsub, Word.sub_of_le (by omega) (by omega)]
  refine ⟨cap', free', hbuf, ?_⟩
  rw [readLoop, hgrow]
  dsimp only
  rw [hleft, httpRecvSome]
  have hfree : 0 < cap' - written.length - 1 := by omega
  rcases tryRecv_spec Rc.errNetClosed brings hfree e with
    ⟨hnil, hrecv⟩ | ⟨got, rest, hinbox, hpos, hle, hrecv⟩
  · rw [hrecv]
    exact .inl ⟨hnil, rfl⟩
  · have hput : Checked.put (written ++ free') written.length got =
        some (written ++ got ++ free'.drop got.length) := Checked.put_append rfl (by omega)
    rw [hrecv]
    dsimp only
    rw [hput, Word.wrap_of_lt (by omega), ← length_append]
    refine .inr ⟨got, rest, hinbox, hpos, ⟨hbuf.size, ?_, ?_⟩, rfl⟩
    · rw [← hbuf.length, append_assoc, length_append, length_append,
        length_append, length_drop]
      omega
    · rw [length_append]
      omega

theorem readLoop_ok (hheap : heap.Ample) (brings : ℕ → ℕ) (h : Buffer arch cap written free)
    (e : Ends UInt8)
    (hsmall : written.length + e.inbox.length + 1024 ≤ 2 ^ (arch.bits - 1)) :
    ∃ cap' free' e', Buffer arch cap' (written ++ e.inbox) free' ∧
      readLoop arch heap (fun n => .ok (brings n)) cap written.length (written ++ free) e =
        some (.ok ((written ++ e.inbox).length, written ++ e.inbox ++ free'), e') := by
  induction hn : e.inbox.length using Nat.strong_induction_on generalizing cap written free e with
  | _ n ih =>
    subst hn
    obtain ⟨cap', free', hbuf, ⟨hnil, hread⟩ | ⟨got, rest, hinbox, hpos, hbuf', hread⟩⟩ :=
      readLoop_step hheap brings h e (by omega)
    · rw [hnil, append_nil]
      exact ⟨cap', free', _, hbuf, hread⟩
    · rw [hinbox, length_append] at hsmall
      rw [hread, hinbox, ← append_assoc]
      have hless : rest.length < e.inbox.length := by
        rw [hinbox, length_append]
        omega
      have hlen := @length_append _ written got
      exact ih rest.length hless hbuf' { e with inbox := rest, calls := e.calls + 1 }
        (by dsimp only; omega) rfl

theorem readLoop_fault (hheap : heap.Ample) (brings : ℕ → ℕ) (h : Buffer arch cap written free)
    (e : Ends UInt8)
    (hlarge : 2 ^ (arch.bits - 1) < written.length + e.inbox.length + 1024) :
    readLoop arch heap (fun n => .ok (brings n)) cap written.length (written ++ free) e = none := by
  induction hn : e.inbox.length using Nat.strong_induction_on generalizing cap written free e with
  | _ n ih =>
    subst hn
    rcases Nat.lt_or_ge (2 ^ (arch.bits - 1)) (written.length + 1024) with hnow | hlater
    · rw [readLoop, growBuffer_fault hheap h hnow]
    obtain ⟨cap', free', -, ⟨hnil, -⟩ | ⟨got, rest, hinbox, hpos, hbuf', hread⟩⟩ :=
      readLoop_step hheap brings h e hlater
    · rw [hnil, length_nil] at hlarge
      omega
    · rw [hinbox, length_append] at hlarge
      rw [hread]
      have hless : rest.length < e.inbox.length := by
        rw [hinbox, length_append]
        omega
      have hlen := @length_append _ written got
      exact ih rest.length hless hbuf' { e with inbox := rest, calls := e.calls + 1 }
        (by dsimp only; omega) rfl

end

def respond (atoi : Bytes → ℤ) (stream : Bytes) : Response :=
  match strstr (ofArray stream) (ascii "\r\n\r\n") with
  | none => { status := parseStatus atoi (ofArray stream) }
  | some i => ⟨parseStatus atoi (ofArray stream), some (stream.take i ++ [0]), i,
      some (stream.drop (i + 4) ++ [0]), stream.length - (i + 4)⟩

section

variable {arch : Arch} {heap : Heap}

theorem copyText_ok (hheap : heap.Ample) {src : Bytes} {len : ℕ} (hsrc : len ≤ src.length)
    (hlen : len + 1 < 2 ^ arch.bits) :
    copyText arch heap src len = some (some (src.take len ++ [0])) := by
  obtain ⟨block, hblock⟩ := hheap (len + 1)
  have hsize := heap.length_malloc _ _ hblock
  have htake : (src.take len).length = len := length_take_of_le hsrc
  have hcopy : Checked.copy block 0 src len = some (src.take len ++ block.drop len) := by
    have hput := @Checked.put_append _ [] block (src.take len) 0 rfl (by omega)
    rw [htake] at hput
    rw [Checked.copy, if_pos hsrc]
    exact hput
  have hput : Checked.put (src.take len ++ block.drop len) len [0] =
      some (src.take len ++ [0]) := by
    rw [Checked.put_append htake.symm (by rw [length_drop, length_singleton]; omega)]
    simp [hsize]
  rw [copyText, Word.wrap_of_lt hlen, hblock]
  simp [hcopy, hput]

theorem splitResponse_ok (hheap : heap.Ample) (atoi : Bytes → ℤ) {stream free : Bytes}
    (hfree : 0 < free.length) (hlen : stream.length + 1 < 2 ^ arch.bits) :
    splitResponse arch heap atoi stream.length (stream ++ free) =
      some (.ok, respond atoi stream) := by
  have hput : Checked.put (stream ++ free) stream.length [0] =
      some (stream ++ 0 :: free.drop 1) := by
    rw [Checked.put_append rfl (by rw [length_singleton]; omega), append_assoc]
    rfl
  rw [splitResponse, hput]
  dsimp only
  rw [ofArray_terminated, respond]
  cases hfind : strstr (ofArray stream) (ascii "\r\n\r\n") with
  | none => rfl
  | some i =>
    have hle := (strstr_le hfind).trans (length_ofArray_le stream)
    have hfour : (ascii "\r\n\r\n").length = 4 := by decide
    have hsub : Word.sub arch.bits stream.length (i + 4) = stream.length - (i + 4) :=
      Word.sub_of_le (by omega) (by omega)
    have hheaders : copyText arch heap (stream ++ 0 :: free.drop 1) i =
        some (some (stream.take i ++ [0])) := by
      rw [copyText_ok hheap (by rw [length_append]; omega) (by omega),
        take_append_of_le_length (by omega)]
    have hbody : copyText arch heap ((stream ++ 0 :: free.drop 1).drop (i + 4))
        (stream.length - (i + 4)) = some (some (stream.drop (i + 4) ++ [0])) := by
      rw [drop_append_of_le_length (by omega),
        copyText_ok hheap (by rw [length_append, length_drop]; omega) (by omega),
        take_append_of_le_length (by rw [length_drop]), ← length_drop,
        take_length]
    dsimp only
    rw [hsub, hheaders, hbody]

end

theorem respond_of_isFirst (atoi : Bytes → ℤ) {stream head rest : Bytes}
    (h : IsFirst (ascii "\r\n\r\n") stream head rest) (hnul : 0 ∉ head) :
    (respond atoi stream).headers = some (head ++ [0]) ∧
      (respond atoi stream).headersLen = head.length ∧
      (respond atoi stream).body = some (rest ++ [0]) ∧
      (respond atoi stream).bodyLen = rest.length := by
  have hclean : 0 ∉ head ++ ascii "\r\n\r\n" := by
    rw [mem_append, not_or]
    exact ⟨hnul, by decide⟩
  rw [respond, strstr_of_isFirst (h.ofArray hclean), h.1]
  have hfour : (ascii "\r\n\r\n").length = 4 := by decide
  have hfront : (head ++ ascii "\r\n\r\n").length = head.length + 4 := by
    rw [length_append, hfour]
  have hbehind : (head ++ ascii "\r\n\r\n" ++ rest).drop (head.length + 4) = rest := by
    rw [← hfront, drop_left]
  refine ⟨?_, rfl, ?_, ?_⟩
  · dsimp only
    rw [append_assoc, take_left]
  · dsimp only
    rw [hbehind]
  · dsimp only
    rw [length_append, hfront, Nat.add_sub_cancel_left]

section

variable {arch : Arch} {heap : Heap} {takes : ℕ → Except Rc ℕ} {call : Call}

theorem sendText_keepsInbox (size : ℕ) (text : Bytes) : (sendText takes size text).KeepsInbox := by
  unfold sendText
  split_ifs
  · exact fun e => rfl
  · exact send_keepsInbox takes text

theorem sendHeaders_keepsInbox (headers : List (Option CString × Option CString)) :
    (sendHeaders takes headers).KeepsInbox := by
  fun_induction sendHeaders takes headers with
  | case1 => exact fun e => rfl
  | case2 name value rest ih => exact (sendText_keepsInbox _ _).bind fun _ => ih
  | case3 _ _ _ ih => exact ih

theorem sendType_keepsInbox : (sendType takes call).KeepsInbox := by
  unfold sendType
  split
  · exact sendText_keepsInbox _ _
  · exact fun e => rfl

theorem sendBody_keepsInbox : (sendBody takes call).KeepsInbox := by
  unfold sendBody
  split
  · split_ifs
    · exact send_keepsInbox takes _
    · exact fun e => rfl
  · exact fun e => rfl

theorem requestEx_keepsInbox (net : Net) : (requestEx takes arch net call).KeepsInbox :=
  .bind (fun _ => rfl) fun _ => .bind (fun _ => rfl) fun _ =>
    (sendText_keepsInbox _ _).bind fun _ => (sendHeaders_keepsInbox _).bind fun _ =>
      sendType_keepsInbox.bind fun _ => (send_keepsInbox takes _).bind fun _ => sendBody_keepsInbox

theorem requestEx_inbox {net : Net} {e e' : Ends UInt8} {x : Unit}
    (h : requestEx takes arch net call e = (.ok x, e')) : e'.inbox = e.inbox := by
  rw [← @requestEx_keepsInbox arch takes call net e, h]

theorem readResponse_eq (hheap : heap.Ample) (brings : ℕ → ℕ) (atoi : Bytes → ℤ) (e : Ends UInt8) :
    (e.inbox.length + 1024 ≤ 2 ^ (arch.bits - 1) →
      ∃ e', readResponse arch heap (fun n => .ok (brings n)) atoi e =
        some (.ok, respond atoi e.inbox, e')) ∧
    (2 ^ (arch.bits - 1) < e.inbox.length + 1024 →
      readResponse arch heap (fun n => .ok (brings n)) atoi e = none) := by
  obtain ⟨buf, hbuf⟩ := hheap 4096
  have hsize := heap.length_malloc _ _ hbuf
  have hbits := arch.bits_cases
  have hstart : Buffer arch 4096 [] buf := ⟨⟨12, by omega, by omega, rfl⟩, hsize, by decide⟩
  constructor
  · intro hsmall
    obtain ⟨cap, free, e', hend, hread⟩ := readLoop_ok hheap brings hstart e (by simpa using hsmall)
    rw [nil_append, length_nil] at hread
    have hlen := hend.length
    have hroom := hend.room
    have hcap := hend.size_cases
    have hhalf := arch.two_pow_half
    rw [nil_append, length_append] at hlen
    rw [nil_append] at hroom
    have hsplit := @splitResponse_ok arch heap hheap atoi e.inbox free (by omega) (by omega)
    rw [readResponse, hbuf]
    simp [hread, hsplit]
  · intro hlarge
    have hread := readLoop_fault hheap brings hstart e (by simpa using hlarge)
    rw [nil_append, length_nil] at hread
    rw [readResponse, hbuf]
    simp [hread]

theorem plainCall_sent (arch : Arch) (e : Ends UInt8) :
    ∃ e', requestEx slowSocket arch ⟨.ok (), .ok (), .ok (), .ok ()⟩ plainCall e =
      (.ok (), e') := by
  have hurl : parseUrl arch 128 plainCall.url = .ok ⟨false, ascii "h", 80, ascii "/"⟩ := by
    cases arch <;> rfl
  have hfits : Fits ⟨false, ascii "h", 80, ascii "/"⟩ plainCall :=
    ⟨by decide +kernel, by simp [plainCall, Call.custom, complete], by simp [plainCall]⟩
  obtain ⟨e', hsent⟩ := sendRequest_succeeds hfits e
  exact ⟨e', requestEx_run hurl hsent⟩

def zeroHeap : Heap where
  malloc size := some (replicate size 0)
  length_malloc _ _ h := Option.some_inj.mp h ▸ length_replicate

theorem zeroHeap_ample : zeroHeap.Ample := fun _ => ⟨_, rfl⟩

theorem not_responseCorrect (atoi : Bytes → ℤ) {stream : Bytes}
    (h : 2 ^ (arch.bits - 1) < stream.length + 1024) : ¬ResponseCorrect arch atoi stream := by
  rintro ⟨resp, hall, -⟩
  obtain ⟨e₁, hsent⟩ := plainCall_sent arch ⟨stream, [], 0⟩
  obtain ⟨e', hok⟩ := hall zeroHeap _ (fun _ => 0) _ _ ⟨stream, [], 0⟩ e₁ zeroHeap_ample rfl hsent
  have hlarge : 2 ^ (arch.bits - 1) < e₁.inbox.length + 1024 := by rwa [requestEx_inbox hsent]
  have hnone := (readResponse_eq zeroHeap_ample (fun _ => 0) atoi e₁).2 hlarge
  rw [httpRequestEx, hsent] at hok
  dsimp only at hok
  rw [hnone] at hok
  cases hok

end

theorem large_response_not_correct :
    ¬ResponseCorrect .arm32 (fun _ => 200)
      (ascii "HTTP/1.1 200 OK\r\n\r\n" ++ replicate (2 ^ 31) 0x41) := by
  apply not_responseCorrect
  have hbits : Arch.arm32.bits - 1 = 31 := rfl
  rw [length_append, length_replicate, hbits]
  omega

theorem responseCorrect_iff (arch : Arch) (atoi : Bytes → ℤ) (stream : Bytes) :
    ResponseCorrect arch atoi stream ↔ stream.length + 1024 ≤ 2 ^ (arch.bits - 1) := by
  constructor
  · intro h
    by_contra hlarge
    exact not_responseCorrect atoi (Nat.lt_of_not_le hlarge) h
  · intro hsmall
    refine ⟨respond atoi stream, ?_, fun head rest hfirst hnul =>
      respond_of_isFirst atoi hfirst hnul⟩
    rintro heap takes brings net call e e₁ hheap rfl hsent
    rw [← requestEx_inbox hsent] at hsmall ⊢
    obtain ⟨e', hread⟩ := (readResponse_eq hheap brings atoi e₁).1 hsmall
    rw [httpRequestEx, hsent]
    exact ⟨e', hread⟩

end Overtos.HttpClient
