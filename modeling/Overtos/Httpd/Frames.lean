import Overtos.Httpd.WebSocket
import Overtos.Lib.Duplex
import Overtos.Lib.WebSocket

/-! `ws_recv_frame` on the bytes of one connection, however the socket splits both streams. -/
namespace Overtos.Httpd.WsStream
open CStr Duplex WebSocket Option

/-- The size of `frame_buf`, the socket's splits, and the route's callback, which may remember the
messages so far and answers with texts. -/
structure Peer where
  maxFrame : ℕ
  splits : Splits
  onMessage : Option (List Bytes → List Bytes)

structure Conn where
  frameBuf : Bytes
  ends : Ends UInt8
  messages : List Bytes

inductive Polled where
  | broken | idle | ready
  deriving DecidableEq, Repr

section

variable (p : Peer)

def wsSendAll (data : Bytes) (c : Conn) : Conn := { c with ends := sendAll p.splits data c.ends }

def wsSendClose (c : Conn) : Conn := wsSendAll p [0x88, 0] c

def wsSendCloseCode (code : ℕ) (c : Conn) : Conn :=
  wsSendAll p [0x88, 2, .ofNat (code / 256), .ofNat code] c

def wsSendPong (payload : Bytes) (len : ℕ) (c : Conn) : Conn :=
  let c := wsSendAll p [0x8a, .ofNat len] c
  if 0 < len then wsSendAll p (payload.take len) c else c

def oveHttpdWsSend (data : Bytes) (c : Conn) : Conn :=
  wsSendAll p data (wsSendAll p (wsHeader data.length) c)

def onMessage (data : Bytes) (c : Conn) : Conn :=
  match p.onMessage with
  | none => c
  | some f =>
    (f (c.messages ++ [data])).foldl (fun c text => oveHttpdWsSend p text c)
      { c with messages := c.messages ++ [data] }

def wsRecvArray (len : ℕ) (c : Conn) : Option (Option Bytes × Conn) := do
  let (ok, bytes, ends) ← recvExact p.splits (List.replicate len 0) len c.ends
  return (if ok then some bytes else none, { c with ends })

def wsRecvExact (len : ℕ) (c : Conn) : Option (Bool × Conn) := do
  let (ok, frameBuf, ends) ← recvExact p.splits c.frameBuf len c.ends
  return (ok, { c with frameBuf, ends })

def unmask (mask : Bytes) : ℕ → ℕ → Bytes → Option Bytes
  | 0, _, buf => some buf
  | todo + 1, i, buf => do
    let buf ← Checked.put buf i [buf.getD i 0 ^^^ mask.getD (i % 4) 0]
    unmask mask todo (i + 1) buf

def wsHandle (opcode len : ℕ) (c : Conn) : ℤ × Conn :=
  if opcode = 8 then (-1, wsSendClose p c)
  else if opcode = 9 then (0, wsSendPong p c.frameBuf len c)
  else if opcode = 10 then (0, c)
  else if opcode = 1 ∨ opcode = 2 then (1, onMessage p (c.frameBuf.take len) c)
  else (1, c)

def wsRecvPayload (opcode len : ℕ) (c : Conn) : Option (ℤ × Conn) :=
  if opcode &&& 8 ≠ 0 ∧ 125 < len then some (-1, wsSendCloseCode p 1002 c)
  else if p.maxFrame < len then some (-1, wsSendCloseCode p 1009 c)
  else do
    let (mask, c) ← wsRecvArray p 4 c
    match mask with
    | none => return (-1, c)
    | some mask =>
      let (ok, c) ← wsRecvExact p len c
      if ok = false then return (-1, c) else
      let frameBuf ← unmask mask len 0 c.frameBuf
      return wsHandle p opcode len { c with frameBuf }

def wsRecvLength (opcode len : ℕ) (c : Conn) : Option (ℤ × Conn) :=
  if len = 126 then do
    let (ext, c) ← wsRecvArray p 2 c
    match ext with
    | none => return (-1, c)
    | some ext => wsRecvPayload p opcode (value ext) c
  else if len = 127 then do
    let (ext, c) ← wsRecvArray p 8 c
    match ext with
    | none => return (-1, c)
    | some ext =>
      if (ext.take 4).any (· ≠ 0) then return (-1, wsSendCloseCode p 1009 c)
      else wsRecvPayload p opcode (value (ext.drop 4)) c
  else wsRecvPayload p opcode len c

def wsRecvFrame (polled : Polled) (c : Conn) : Option (ℤ × Conn) :=
  match polled with
  | .broken => some (-1, c)
  | .idle => some (0, c)
  | .ready => do
    let (hdr, c) ← wsRecvArray p 2 c
    match hdr with
    | none => return (-1, c)
    | some hdr =>
      if hdr.getD 1 0 &&& 0x80 = 0 then return (-1, wsSendCloseCode p 1002 c)
      else wsRecvLength p (hdr.getD 0 0 &&& 0x0f).toNat (hdr.getD 1 0 &&& 0x7f).toNat c

def run : List Polled → Conn → Option (Bool × Conn)
  | [], c => some (true, c)
  | polled :: rest, c => do
    let (ret, c) ← wsRecvFrame p polled c
    if ret < 0 then return (false, c) else run rest c

end

def takePayload (maxFrame opcode len : ℕ) (bs : Bytes) : Option (ℕ × Bytes × Bytes) :=
  if (opcode &&& 8 ≠ 0 ∧ 125 < len) ∨ maxFrame < len ∨ bs.length < 4 + len then none
  else some (opcode, xorMask (bs.take 4) ((bs.drop 4).take len), bs.drop (4 + len))

def takeLength (maxFrame opcode len : ℕ) (bs : Bytes) : Option (ℕ × Bytes × Bytes) :=
  if len = 126 then
    if bs.length < 2 then none else takePayload maxFrame opcode (value (bs.take 2)) (bs.drop 2)
  else if len = 127 then
    if bs.length < 8 ∨ (bs.take 4).any (· ≠ 0) then none
    else takePayload maxFrame opcode (value ((bs.take 8).drop 4)) (bs.drop 8)
  else takePayload maxFrame opcode len bs

def takeFrame (maxFrame : ℕ) (bs : Bytes) : Option (ℕ × Bytes × Bytes) :=
  if bs.length < 2 ∨ bs.getD 1 0 &&& 0x80 = 0 then none
  else takeLength maxFrame (bs.getD 0 0 &&& 0x0f).toNat (bs.getD 1 0 &&& 0x7f).toNat (bs.drop 2)

section
variable {p : Peer} {c : Conn}

@[simp] theorem wsSendAll_outbox (data : Bytes) :
    (wsSendAll p data c).ends.outbox = c.ends.outbox ++ data := by
  obtain ⟨calls, h⟩ := sendAll_spec p.splits data c.ends
  simp [wsSendAll, h]

@[simp] theorem wsSendAll_messages (data : Bytes) : (wsSendAll p data c).messages = c.messages :=
  rfl

@[simp] theorem wsSendAll_frameBuf (data : Bytes) : (wsSendAll p data c).frameBuf = c.frameBuf :=
  rfl

@[simp] theorem wsSendAll_inbox (data : Bytes) :
    (wsSendAll p data c).ends.inbox = c.ends.inbox := by
  obtain ⟨calls, h⟩ := sendAll_spec p.splits data c.ends
  simp [wsSendAll, h]

structure Conn.Ahead (c : Conn) (n : ℕ) (c' : Conn) : Prop where
  inbox : c'.ends.inbox = c.ends.inbox.drop n
  outbox : c'.ends.outbox = c.ends.outbox
  messages : c'.messages = c.messages
  length : c'.frameBuf.length = c.frameBuf.length

theorem wsRecvArray_spec (p : Peer) (len : ℕ) (c : Conn) :
    ∃ c', c.Ahead len c' ∧ wsRecvArray p len c =
      some (if len ≤ c.ends.inbox.length then some (c.ends.inbox.take len) else none, c') := by
  obtain ⟨calls, h⟩ := @recvExact_spec _ p.splits (List.replicate len 0) len (by simp) c.ends
  refine ⟨{ c with ends := { c.ends with inbox := c.ends.inbox.drop len, calls } },
    ⟨rfl, rfl, rfl, rfl⟩, ?_⟩
  rw [wsRecvArray, h]
  by_cases hlen : len ≤ c.ends.inbox.length
  · simp [hlen]
  · simp [hlen]

variable {len n : ℕ}

theorem wsRecvExact_spec (p : Peer) {c : Conn} (hlen : len ≤ c.frameBuf.length) :
    ∃ c', c.Ahead len c' ∧ wsRecvExact p len c = some (decide (len ≤ c.ends.inbox.length), c') ∧
      c'.frameBuf =
        c.ends.inbox.take len ++ c.frameBuf.drop (c.ends.inbox.take len).length := by
  obtain ⟨calls, h⟩ := recvExact_spec p.splits hlen c.ends
  refine ⟨{ c with
      frameBuf := c.ends.inbox.take len ++ c.frameBuf.drop (c.ends.inbox.take len).length
      ends := { c.ends with inbox := c.ends.inbox.drop len, calls } },
    ⟨rfl, rfl, rfl, ?_⟩, by rw [wsRecvExact, h]; rfl, rfl⟩
  simp only [List.length_append, List.length_drop, List.length_take]
  omega

theorem unmask_behind (mask written data free : Bytes) :
    unmask mask data.length written.length (written ++ (data ++ free)) =
      some (written ++
        (data.mapIdx fun j b => b ^^^ mask.getD ((written.length + j) % 4) 0) ++ free) := by
  induction data generalizing written with
  | nil => simp [unmask]
  | cons b data ih =>
    have hb : (written ++ (b :: data ++ free)).getD written.length 0 = b := by simp
    have hput := @Checked.put_append _ written (b :: data ++ free)
      [b ^^^ mask.getD (written.length % 4) 0] _ rfl (by simp)
    rw [List.length_cons, unmask, hb, hput]
    have hrest := ih (written ++ [b ^^^ mask.getD (written.length % 4) 0])
    rw [List.length_append, List.length_singleton] at hrest
    simp only [List.length_singleton, List.cons_append, List.drop_succ_cons, List.drop_zero,
      bind_eq_bind, bind_some]
    rw [hrest]
    simp [List.mapIdx_cons, Nat.add_assoc, Nat.add_comm 1]

theorem unmask_eq (mask data free : Bytes) :
    unmask mask data.length 0 (data ++ free) = some (xorMask mask data ++ free) := by
  simpa [xorMask] using unmask_behind mask [] data free

theorem wsRecvExact_unmask (p : Peer) (mask : Bytes) {c : Conn} (hlen : len ≤ c.frameBuf.length)
    (hall : len ≤ c.ends.inbox.length) :
    ∃ c', c.Ahead len c' ∧ wsRecvExact p len c = some (true, c') ∧
      unmask mask len 0 c'.frameBuf =
        some (xorMask mask (c.ends.inbox.take len) ++ c.frameBuf.drop len) := by
  obtain ⟨c', hahead, hread, hdata⟩ := wsRecvExact_spec p hlen
  have htake : (c.ends.inbox.take len).length = len := List.length_take_of_le hall
  have hunmask := unmask_eq mask (c.ends.inbox.take len) (c.frameBuf.drop len)
  rw [htake] at hdata hunmask
  rw [decide_eq_true hall] at hread
  exact ⟨c', hahead, hread, by rw [hdata, hunmask]⟩

/-- The frame at the front of the stream is in `frame_buf`; or none is taken, and the connection is
over. -/
def Agrees (p : Peer) (c : Conn) (taken : Option (ℕ × Bytes × Bytes))
    (result : Option (ℤ × Conn)) : Prop :=
  match taken with
  | none => ∃ c', result = some (-1, c') ∧ c'.messages = c.messages ∧
      c'.frameBuf.length = c.frameBuf.length
  | some (opcode, payload, rest) => ∃ c', result = some (wsHandle p opcode payload.length c') ∧
      c'.ends.inbox = rest ∧ c'.ends.outbox = c.ends.outbox ∧ c'.messages = c.messages ∧
      c'.frameBuf.length = c.frameBuf.length ∧ c'.frameBuf.take payload.length = payload

theorem Agrees.of_ahead {c' : Conn} {taken : Option (ℕ × Bytes × Bytes)}
    {result : Option (ℤ × Conn)} (hahead : c.Ahead n c') (h : Agrees p c' taken result) :
    Agrees p c taken result := by
  rw [Agrees.eq_def] at h ⊢
  rwa [hahead.outbox, hahead.messages, hahead.length] at h

theorem Agrees.over {c' : Conn} (hahead : c.Ahead n c') : Agrees p c none (some (-1, c')) :=
  ⟨c', rfl, hahead.messages, hahead.length⟩

theorem wsRecvPayload_agrees (hbuf : c.frameBuf.length = p.maxFrame) (opcode len : ℕ) :
    Agrees p c (takePayload p.maxFrame opcode len c.ends.inbox) (wsRecvPayload p opcode len c) := by
  rw [takePayload, wsRecvPayload]
  by_cases hcontrol : opcode &&& 8 ≠ 0 ∧ 125 < len
  · rw [if_pos (.inl hcontrol), if_pos hcontrol]
    exact ⟨_, rfl, rfl, rfl⟩
  by_cases hmax : p.maxFrame < len
  · rw [if_pos (.inr (.inl hmax)), if_neg hcontrol, if_pos hmax]
    exact ⟨_, rfl, rfl, rfl⟩
  rw [if_neg hcontrol, if_neg hmax]
  obtain ⟨c₁, hahead₁, hmask⟩ := wsRecvArray_spec p 4 c
  rw [hmask]
  by_cases hfour : 4 ≤ c.ends.inbox.length
  case neg =>
    rw [if_pos (by omega), if_neg hfour]
    exact .over hahead₁
  rw [if_pos hfour]
  have hroom : len ≤ c₁.frameBuf.length := by
    rw [hahead₁.length]
    omega
  have hleft : c₁.ends.inbox.length = c.ends.inbox.length - 4 := by
    rw [hahead₁.inbox, List.length_drop]
  by_cases hall : len ≤ c₁.ends.inbox.length
  case neg =>
    obtain ⟨c₂, hahead₂, hread, -⟩ := wsRecvExact_spec p hroom
    simp only [bind_eq_bind, bind_some, hread]
    rw [if_pos (by omega), if_pos (decide_eq_false hall)]
    exact .of_ahead hahead₁ (.over hahead₂)
  obtain ⟨c₂, hahead₂, hread, hunmask⟩ := wsRecvExact_unmask p (c.ends.inbox.take 4) hroom hall
  have hlen : (c₁.ends.inbox.take len).length = len := List.length_take_of_le hall
  simp only [bind_eq_bind, bind_some, hread, hunmask]
  rw [if_neg (by omega), if_neg (by simp), ← hahead₁.inbox]
  refine .of_ahead hahead₁ ⟨{ c₂ with
    frameBuf := xorMask (c.ends.inbox.take 4) (c₁.ends.inbox.take len) ++ c₁.frameBuf.drop len },
    ?_, ?_, hahead₂.outbox, hahead₂.messages, ?_, List.take_left⟩
  · rw [length_xorMask, hlen]
    rfl
  · rw [hahead₂.inbox, hahead₁.inbox, List.drop_drop]
  · rw [List.length_append, length_xorMask, List.length_drop]
    omega

theorem wsRecvLength_agrees (hbuf : c.frameBuf.length = p.maxFrame) (opcode len : ℕ) :
    Agrees p c (takeLength p.maxFrame opcode len c.ends.inbox) (wsRecvLength p opcode len c) := by
  rw [takeLength, wsRecvLength]
  split_ifs with hmedium htwo hlong height
  · obtain ⟨c', hahead, hext⟩ := wsRecvArray_spec p 2 c
    rw [hext, if_neg (Nat.not_le.mpr htwo)]
    exact .over hahead
  · obtain ⟨c', hahead, hext⟩ := wsRecvArray_spec p 2 c
    rw [hext, if_pos (Nat.not_lt.mp htwo), ← hahead.inbox]
    exact .of_ahead hahead (wsRecvPayload_agrees (hahead.length.trans hbuf) _ _)
  · obtain ⟨c', hahead, hext⟩ := wsRecvArray_spec p 8 c
    rw [hext]
    by_cases hlen : 8 ≤ c.ends.inbox.length
    · have hany := height.resolve_left (Nat.not_lt.mpr hlen)
      rw [if_pos hlen]
      dsimp only [bind_eq_bind, bind_some]
      rw [List.take_take, Nat.min_eq_left (by decide), if_pos hany]
      exact ⟨_, rfl, hahead.messages, hahead.length⟩
    · rw [if_neg hlen]
      exact .over hahead
  · obtain ⟨c', hahead, hext⟩ := wsRecvArray_spec p 8 c
    rw [not_or] at height
    rw [hext, if_pos (Nat.not_lt.mp height.1), ← hahead.inbox]
    dsimp only [bind_eq_bind, bind_some]
    rw [List.take_take, Nat.min_eq_left (by decide), if_neg height.2]
    exact .of_ahead hahead (wsRecvPayload_agrees (hahead.length.trans hbuf) _ _)
  · exact wsRecvPayload_agrees hbuf opcode len

theorem wsRecvFrame_agrees (hbuf : c.frameBuf.length = p.maxFrame) :
    Agrees p c (takeFrame p.maxFrame c.ends.inbox) (wsRecvFrame p .ready c) := by
  obtain ⟨c', hahead, hhdr⟩ := wsRecvArray_spec p 2 c
  rw [takeFrame, wsRecvFrame, hhdr]
  by_cases hlen : 2 ≤ c.ends.inbox.length
  case neg =>
    rw [if_pos (.inl (Nat.not_le.mp hlen)), if_neg hlen]
    exact .over hahead
  have hget (i : ℕ) (hi : i < 2) : (c.ends.inbox.take 2).getD i 0 = c.ends.inbox.getD i 0 := by
    simp [List.getD_eq_getElem?_getD, hi]
  rw [if_pos hlen]
  dsimp only [bind_eq_bind, bind_some]
  rw [hget 0 (by omega), hget 1 (by omega)]
  by_cases hmasked : c.ends.inbox.getD 1 0 &&& 0x80 = 0
  · rw [if_pos (.inr hmasked), if_pos hmasked]
    exact ⟨_, rfl, hahead.messages, hahead.length⟩
  · rw [if_neg (not_or.mpr ⟨Nat.not_lt.mpr hlen, hmasked⟩), if_neg hmasked, ← hahead.inbox]
    exact .of_ahead hahead (wsRecvLength_agrees (hahead.length.trans hbuf) _ _)

theorem sends_spec (texts : List Bytes) (c : Conn) :
    (texts.foldl (fun c text => oveHttpdWsSend p text c) c).ends.outbox =
        c.ends.outbox ++ texts.flatMap (fun text => wsHeader text.length ++ text) ∧
      (texts.foldl (fun c text => oveHttpdWsSend p text c) c).ends.inbox = c.ends.inbox ∧
      (texts.foldl (fun c text => oveHttpdWsSend p text c) c).messages = c.messages ∧
      (texts.foldl (fun c text => oveHttpdWsSend p text c) c).frameBuf = c.frameBuf := by
  induction texts generalizing c with
  | nil => simp
  | cons text texts ih =>
    obtain ⟨houtbox, hinbox, hmessages, hbuf⟩ := ih (oveHttpdWsSend p text c)
    rw [List.foldl_cons, houtbox, hinbox, hmessages, hbuf]
    simp [oveHttpdWsSend]

end

def Taken (maxFrame : ℕ) (f : Frame) : Prop :=
  f.payload.length ≤ maxFrame ∧ f.payload.length < 2 ^ 32

instance (maxFrame : ℕ) (f : Frame) : Decidable (Taken maxFrame f) :=
  inferInstanceAs (Decidable (_ ∧ _))

section
variable {maxFrame : ℕ} (f : Frame) (rest : Bytes)

theorem takePayload_body : takePayload maxFrame f.opcode.code f.payload.length
    (f.mask ++ (xorMask f.mask f.payload ++ rest)) =
      if f.payload.length ≤ maxFrame then some (f.opcode.code, f.payload, rest) else none := by
  have hcontrol : ¬(f.opcode.code &&& 8 ≠ 0 ∧ 125 < f.payload.length) := by
    rintro ⟨hcode, hlen⟩
    have hc : f.opcode.isControl = true := by
      revert hcode
      cases f.opcode <;> decide
    have := (f.control hc).2
    omega
  have hfour := f.four
  rw [takePayload]
  by_cases hmax : f.payload.length ≤ maxFrame
  · have hbody : f.mask ++ (xorMask f.mask f.payload ++ rest) =
        (f.mask ++ xorMask f.mask f.payload) ++ rest := by rw [List.append_assoc]
    rw [if_pos hmax, if_neg, List.take_left' hfour, List.drop_left' hfour,
      List.take_left' (length_xorMask _ _), xorMask_xorMask, hbody, List.drop_left']
    · rw [List.length_append, length_xorMask, hfour]
    · simp only [not_or, List.length_append, length_xorMask]
      refine ⟨hcontrol, ?_, ?_⟩ <;> omega
  · rw [if_neg hmax, if_pos (.inr (.inl (Nat.not_le.mp hmax)))]

theorem takeLength_medium {n : ℕ} (h : n < 2 ^ 16) (opcode : ℕ) (bs : Bytes) :
    takeLength maxFrame opcode 126 (bigEndian 2 n ++ bs) = takePayload maxFrame opcode n bs := by
  rw [takeLength, if_pos rfl, if_neg (by simp; omega), List.take_left' (length_bigEndian 2 n),
    List.drop_left' (length_bigEndian 2 n), value_bigEndian h]

theorem takeLength_long {n : ℕ} (h : n < 2 ^ 63) (opcode : ℕ) (bs : Bytes) :
    takeLength maxFrame opcode 127 (bigEndian 8 n ++ bs) =
      if n < 2 ^ 32 then takePayload maxFrame opcode n bs else none := by
  have hsplit : bigEndian 8 n = bigEndian 4 (n / 2 ^ 32) ++ bigEndian 4 n := bigEndian_add 4 4 n
  have hany : ((bigEndian 8 n ++ bs).take 4).any (· ≠ 0) = decide (n / 2 ^ 32 ≠ 0) := by
    rw [hsplit, List.append_assoc, List.take_left' (length_bigEndian 4 _), any_bigEndian (by omega)]
  rw [takeLength, if_neg (by decide), if_pos rfl, hany, List.take_left' (length_bigEndian 8 n),
    List.drop_left' (length_bigEndian 8 n)]
  by_cases hn : n < 2 ^ 32
  · rw [if_pos hn, if_neg, hsplit, List.drop_left' (length_bigEndian 4 _), value_bigEndian hn]
    simpa using hn
  · rw [if_neg hn, if_pos]
    refine .inr (decide_eq_true ?_)
    omega

theorem takeFrame_cons (b₀ b₁ : UInt8) (bs : Bytes) : takeFrame maxFrame (b₀ :: b₁ :: bs) =
    if b₁ &&& 0x80 = 0 then none
    else takeLength maxFrame (b₀ &&& 0x0f).toNat (b₁ &&& 0x7f).toNat bs := by
  simp [takeFrame]

theorem takeFrame_encode : takeFrame maxFrame (f.encode ++ rest) =
    if Taken maxFrame f then some (f.opcode.code, f.payload, rest) else none := by
  have hopcode : (UInt8.ofNat ((if f.fin then 128 else 0) + f.opcode.code) &&& 0x0f).toNat =
      f.opcode.code := by
    cases f.fin <;> cases f.opcode <;> decide
  have hfits := f.fits
  have hbody := @takePayload_body maxFrame f rest
  simp only [Frame.encode, List.append_assoc, List.cons_append]
  cases hform : f.form with rw [hform] at hfits
  | short =>
    have hlen : f.payload.length ≤ 125 := hfits
    have hbyte : ∀ n ≤ 125, UInt8.ofNat (128 + n) &&& 0x80 ≠ 0 ∧
        (UInt8.ofNat (128 + n) &&& 0x7f).toNat = n := by decide +kernel
    obtain ⟨hmasked, hn⟩ := hbyte _ hlen
    rw [lengthField, List.singleton_append, takeFrame_cons, if_neg hmasked, hopcode, hn, takeLength,
      if_neg (by omega), if_neg (by omega), hbody]
    simp only [Taken, show f.payload.length < 2 ^ 32 by omega, and_true]
  | medium =>
    have hlen : f.payload.length < 2 ^ 16 := hfits
    rw [lengthField, List.cons_append, takeFrame_cons, if_neg (by decide), hopcode,
      show ((254 : UInt8) &&& 0x7f).toNat = 126 from rfl, takeLength_medium hlen, hbody]
    simp only [Taken, show f.payload.length < 2 ^ 32 by omega, and_true]
  | long =>
    rw [lengthField, List.cons_append, takeFrame_cons, if_neg (by decide), hopcode,
      show ((255 : UInt8) &&& 0x7f).toNat = 127 from rfl, takeLength_long hfits, hbody]
    by_cases hlen : f.payload.length < 2 ^ 32
    · simp only [Taken, hlen, if_true, and_true]
    · simp only [Taken, hlen, if_false, and_false]

end

def messageOf (f : Frame) : List Bytes := if f.opcode.starts then [f.payload] else []

def pong (payload : Bytes) : Bytes := 0x8a :: .ofNat payload.length :: payload

def reply (handler : List Bytes → List Bytes) (seen : List Bytes) (f : Frame) : Bytes :=
  match f.opcode with
  | .ping => pong f.payload
  | .text | .binary => (handler (seen ++ [f.payload])).flatMap fun text =>
      wsHeader text.length ++ text
  | _ => []

def replies (handler : List Bytes → List Bytes) : List Bytes → List Frame → Bytes
  | _, [] => []
  | seen, f :: frames => reply handler seen f ++ replies handler (seen ++ messageOf f) frames

structure Conn.Heard (c : Conn) (handler : List Bytes → List Bytes) (frames : List Frame)
    (rest : Bytes) (c' : Conn) : Prop where
  inbox : c'.ends.inbox = rest
  outbox : c'.ends.outbox = c.ends.outbox ++ replies handler c.messages frames
  messages : c'.messages = c.messages ++ frames.flatMap messageOf
  length : c'.frameBuf.length = c.frameBuf.length

section
variable {p : Peer} {handler : List Bytes → List Bytes} {c : Conn}

variable {f : Frame} {frames : List Frame} {rest : Bytes}

theorem Conn.Heard.cons {c' c'' : Conn} {mid : Bytes} (h : c.Heard handler [f] mid c')
    (h' : c'.Heard handler frames rest c'') :
    c.Heard handler (f :: frames) rest c'' where
  inbox := h'.inbox
  outbox := by
    rw [h'.outbox, h.outbox, h.messages]
    simp [replies]
  messages := by
    rw [h'.messages, h.messages]
    simp
  length := h'.length.trans h.length

theorem onMessage_heard (hm : p.onMessage = some handler)
    (hf : f.opcode = .text ∨ f.opcode = .binary) :
    c.Heard handler [f] c.ends.inbox (onMessage p f.payload c) := by
  obtain ⟨houtbox, hinbox, hmessages, hbuf⟩ := @sends_spec p
    (handler (c.messages ++ [f.payload])) { c with messages := c.messages ++ [f.payload] }
  rw [onMessage, hm]
  refine ⟨hinbox, houtbox.trans ?_, hmessages.trans ?_, congrArg _ hbuf⟩
  · rcases hf with hf | hf <;> simp [replies, reply, hf]
  · rcases hf with hf | hf <;> simp [messageOf, Opcode.starts, hf]

theorem wsSendPong_heard (hf : f.opcode = .ping)
    (hpayload : c.frameBuf.take f.payload.length = f.payload) :
    c.Heard handler [f] c.ends.inbox (wsSendPong p c.frameBuf f.payload.length c) := by
  rw [wsSendPong, hpayload]
  by_cases hlen : 0 < f.payload.length
  · rw [if_pos hlen]
    constructor <;> simp [replies, reply, hf, pong, messageOf, Opcode.starts]
  · have hnil : f.payload = [] := List.eq_nil_of_length_eq_zero (by omega)
    rw [if_neg hlen]
    constructor <;> simp [replies, reply, hf, pong, messageOf, Opcode.starts, hnil]

theorem wsHandle_heard (hm : p.onMessage = some handler)
    (hpayload : c.frameBuf.take f.payload.length = f.payload) :
    0 ≤ (wsHandle p f.opcode.code f.payload.length c).1 ∧
      c.Heard handler [f] c.ends.inbox (wsHandle p f.opcode.code f.payload.length c).2 := by
  cases hf : f.opcode with
  | continuation =>
    refine ⟨Int.one_nonneg, rfl, ?_, ?_, rfl⟩ <;>
      simp [replies, reply, hf, messageOf, Opcode.starts, wsHandle, Opcode.code]
  | text =>
    have h := onMessage_heard (c := c) hm (.inl hf)
    simpa [wsHandle, Opcode.code, hpayload] using h
  | binary =>
    have h := onMessage_heard (c := c) hm (.inr hf)
    simpa [wsHandle, Opcode.code, hpayload] using h
  | ping => exact ⟨Int.le_refl 0, wsSendPong_heard hf hpayload⟩
  | pong =>
    refine ⟨Int.le_refl 0, rfl, ?_, ?_, rfl⟩ <;>
      simp [replies, reply, hf, messageOf, Opcode.starts, wsHandle, Opcode.code]

theorem wsRecvFrame_taken (hm : p.onMessage = some handler)
    (hbuf : c.frameBuf.length = p.maxFrame) (hf : Taken p.maxFrame f)
    (hinbox : c.ends.inbox = f.encode ++ rest) :
    ∃ ret c', wsRecvFrame p .ready c = some (ret, c') ∧ 0 ≤ ret ∧ c.Heard handler [f] rest c' := by
  have h := wsRecvFrame_agrees hbuf
  rw [hinbox, takeFrame_encode, if_pos hf] at h
  obtain ⟨c₁, hresult, hrest, houtbox, hmessages, hlength, hpayload⟩ := h
  obtain ⟨hret, hheard⟩ := wsHandle_heard hm hpayload
  refine ⟨(wsHandle p f.opcode.code f.payload.length c₁).1,
    (wsHandle p f.opcode.code f.payload.length c₁).2, hresult, hret, hheard.inbox.trans hrest, ?_,
    ?_, hheard.length.trans hlength⟩
  · rw [hheard.outbox, houtbox, hmessages]
  · rw [hheard.messages, hmessages]

theorem wsRecvFrame_refused (hbuf : c.frameBuf.length = p.maxFrame) (hf : ¬Taken p.maxFrame f)
    (hinbox : c.ends.inbox = f.encode ++ rest) :
    ∃ c', wsRecvFrame p .ready c = some (-1, c') ∧ c'.messages = c.messages := by
  have h := wsRecvFrame_agrees hbuf
  rw [hinbox, takeFrame_encode, if_neg hf] at h
  obtain ⟨c', hresult, hmessages, -⟩ := h
  exact ⟨c', hresult, hmessages⟩

theorem run_frames (hm : p.onMessage = some handler) (hbuf : c.frameBuf.length = p.maxFrame)
    (hinbox : c.ends.inbox = frames.flatMap Frame.encode) {polls : List Polled}
    (hpolls : .broken ∉ polls) (hcount : polls.count .ready ≤ frames.length) :
    ∃ alive c', run p polls c = some (alive, c') ∧
      c'.messages = c.messages ++ ((frames.take (polls.count .ready)).takeWhile
        (Taken p.maxFrame ·)).flatMap messageOf ∧
      ((∀ f ∈ frames, Taken p.maxFrame f) → alive = true ∧
        c.Heard handler (frames.take (polls.count .ready))
          ((frames.drop (polls.count .ready)).flatMap Frame.encode) c') := by
  induction polls generalizing c frames with
  | nil =>
    refine ⟨true, c, rfl, by simp, fun _ => ⟨rfl, hinbox, ?_, ?_, rfl⟩⟩
    · simp [replies]
    · simp
  | cons polled polls ih =>
    rw [List.mem_cons, not_or] at hpolls
    cases polled with
    | broken => exact absurd rfl hpolls.1
    | idle =>
      rw [List.count_cons_of_ne (by decide)] at hcount ⊢
      exact ih hbuf hinbox hpolls.2 hcount
    | ready =>
      rw [List.count_cons_self] at hcount ⊢
      cases frames with
      | nil => simp at hcount
      | cons f frames =>
        by_cases hf : Taken p.maxFrame f
        · obtain ⟨ret, c₁, hrecv, hret, hheard⟩ := wsRecvFrame_taken hm hbuf hf hinbox
          obtain ⟨alive, c₂, hrun, hmessages, hrest⟩ := ih (hheard.length.trans hbuf) hheard.inbox
            hpolls.2 (Nat.le_of_succ_le_succ hcount)
          refine ⟨alive, c₂, ?_, ?_, fun hall => ?_⟩
          · rw [run, hrecv]
            exact (if_neg (Int.not_lt.mpr hret)).trans hrun
          · rw [hmessages, hheard.messages]
            simp [hf]
          · obtain ⟨halive, hrest⟩ := hrest fun g hg => hall g (List.mem_cons_of_mem _ hg)
            exact ⟨halive, hheard.cons hrest⟩
        · obtain ⟨c₁, hrecv, hmessages⟩ := wsRecvFrame_refused hbuf hf hinbox
          refine ⟨false, c₁, ?_, ?_, fun hall => absurd (hall f List.mem_cons_self) hf⟩
          · rw [run, hrecv]
            rfl
          · rw [hmessages]
            simp [hf]

end

def start (frameBuf : Bytes) (stream : Bytes) : Conn := ⟨frameBuf, ⟨stream, [], 0⟩, []⟩

/-- However often the connection is polled: one frame a poll, its bytes and no others are read, the
messages go to the callback in order, and only pongs and the callback's texts are sent. -/
def Received (p : Peer) (handler : List Bytes → List Bytes) (frames : List Frame) : Prop :=
  ∀ (frameBuf : Vector UInt8 p.maxFrame) (polls : List Polled), .broken ∉ polls →
    polls.count .ready ≤ frames.length →
    ∃ c, run p polls (start frameBuf.toList (frames.flatMap Frame.encode)) = some (true, c) ∧
      c.ends.inbox = (frames.drop (polls.count .ready)).flatMap Frame.encode ∧
      c.messages = (frames.take (polls.count .ready)).flatMap messageOf ∧
      c.ends.outbox = replies handler [] (frames.take (polls.count .ready)) ∧
      c.frameBuf.length = p.maxFrame

theorem frames_received (p : Peer) (handler : List Bytes → List Bytes)
    (hm : p.onMessage = some handler) (frames : List Frame)
    (hframes : ∀ f ∈ frames, f.payload.length ≤ p.maxFrame ∧ f.payload.length < 2 ^ 32) :
    Received p handler frames := by
  intro frameBuf polls hpolls hcount
  have hbuf : frameBuf.toList.length = p.maxFrame := Vector.length_toList
  obtain ⟨alive, c, hrun, -, hall⟩ := run_frames
    (c := start frameBuf.toList (frames.flatMap Frame.encode)) hm hbuf rfl hpolls hcount
  obtain ⟨rfl, hheard⟩ := hall hframes
  exact ⟨c, hrun, hheard.inbox, hheard.messages, hheard.outbox, hheard.length.trans hbuf⟩

theorem greeting_fits : Form.Fits .medium [0x68, 0x69].length ∧
    (Opcode.text.isControl = true → true = true ∧ [0x68, 0x69].length ≤ 125) := by
  decide

def greeting : Frame where
  fin := true
  opcode := .text
  form := .medium
  mask := [1, 2, 3, 4]
  payload := [0x68, 0x69]
  four := rfl
  fits := greeting_fits.1
  control := greeting_fits.2

theorem longPing_fits : Form.Fits .short (List.replicate 100 0).length ∧
    (Opcode.ping.isControl = true → true = true ∧ (List.replicate 100 0).length ≤ 125) := by
  decide

def longPing : Frame where
  fin := true
  opcode := .ping
  form := .short
  mask := [1, 2, 3, 4]
  payload := List.replicate 100 0
  four := rfl
  fits := longPing_fits.1
  control := longPing_fits.2

theorem greeting_and_ping_received :
    (∀ f ∈ [greeting, longPing], f.payload.length ≤ 1024 ∧ f.payload.length < 2 ^ 32) ∧
      Received ⟨1024, ⟨fun _ => 0, fun _ => 2⟩, some fun seen => seen⟩ (fun seen => seen)
        [greeting, longPing] := by
  have hframes : ∀ f ∈ [greeting, longPing],
      f.payload.length ≤ 1024 ∧ f.payload.length < 2 ^ 32 := by decide +kernel
  exact ⟨hframes, frames_received _ _ rfl _ hframes⟩

theorem long_ping_refused :
    longPing.payload.length ≤ 125 ∧
      ((run ⟨64, ⟨fun _ => 0, fun _ => 2⟩, some fun seen => seen⟩ [.ready]
        (start (List.replicate 64 0) longPing.encode)).map fun r => (r.1, r.2.ends.outbox)) =
          some (false, [0x88, 2, 0x03, 0xf1]) ∧
      ¬Received ⟨64, ⟨fun _ => 0, fun _ => 2⟩, some fun seen => seen⟩ (fun seen => seen)
        [longPing] := by
  refine ⟨by decide +kernel, by decide +kernel, fun h => ?_⟩
  obtain ⟨c, hrun, -⟩ := h (Vector.replicate 64 0) [.ready] (by decide) (by decide)
  have hover : (run ⟨64, ⟨fun _ => 0, fun _ => 2⟩, some fun seen => seen⟩ [.ready]
      (start (Vector.replicate 64 (0 : UInt8)).toList ([longPing].flatMap Frame.encode))).map
        Prod.fst = some false := by decide +kernel
  rw [hrun] at hover
  cases hover

end Overtos.Httpd.WsStream
