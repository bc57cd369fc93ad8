import Overtos.Httpd.Task

/-! What a client is sent: when a request is answered by exactly one complete response. -/
namespace Overtos.Httpd
open CStr List

theorem escapeOf_reads {c : UInt8} {esc : Bytes} (h : escapeOf c = some esc) :
    Json.Reads esc [c] := by
  intro rest
  unfold escapeOf at h
  -- seven bytes have a short escape of their own
  iterate 7
    split at h
    · next hc =>
      subst hc
      cases h
      rfl
  split at h
  · next hc =>
    obtain ⟨n, hn, rfl⟩ : ∃ n < 0x20, c = UInt8.ofNat n := ⟨c.toNat, hc, by simp⟩
    cases h
    interval_cases n <;> rfl
  · cases h

theorem plain_reads {c : UInt8} (h : escapeOf c = none) : Json.Reads [c] [c] := by
  intro rest
  have hquote : c ≠ 0x22 := by
    rintro rfl
    cases h
  have hslash : c ≠ 0x5c := by
    rintro rfl
    cases h
  have hcontrol : ¬c.toNat < 0x20 := by
    intro hc
    obtain ⟨n, hn, rfl⟩ : ∃ n < 0x20, c = UInt8.ofNat n := ⟨c.toNat, hc, by simp⟩
    interval_cases n <;> cases h
  simp [Json.parseString, hquote, hslash, hcontrol]

theorem jsonEscapeLoop_reads (outCap : ℕ) (text : Bytes) {out s : Bytes} (h : Json.Reads out s) :
    ∃ t, Json.Reads (jsonEscapeLoop outCap text out) t := by
  induction text generalizing out s with
  | nil => exact ⟨s, h⟩
  | cons c text ih =>
    rw [jsonEscapeLoop]
    cases hc : escapeOf c with
    | some esc =>
      dsimp only
      split_ifs
      · exact ⟨s, h⟩
      · exact ih (h.append (escapeOf_reads hc))
    | none =>
      dsimp only
      split_ifs
      · exact ⟨s, h⟩
      · exact ih (h.append (plain_reads hc))

theorem jsonEscape_stands (outCap : ℕ) (text : CString) : Json.Stands (jsonEscape outCap text) := by
  obtain ⟨s, hs⟩ := jsonEscapeLoop_reads outCap text.bytes Json.Reads.nil
  exact hs.stands

theorem errorKey_eq : errorKey = [0x65, 0x72, 0x72, 0x6f, 0x72] := by decide +kernel

theorem document_errorText (message : Option CString) : Json.document (errorText message) =
    Json.utf8Valid (jsonEscape 192 (message.getD ⟨[], forall_mem_nil _⟩)) := by
  have hkey : Json.Plain errorKey := by
    rw [errorKey_eq]
    decide +kernel
  have hutf : Json.utf8Valid errorKey = true := by
    rw [errorKey_eq]
    decide +kernel
  rw [errorText, Json.document_member hkey.stands (jsonEscape_stands _ _), hutf, Bool.true_and]

theorem length_jsonEscapeLoop (outCap : ℕ) (text : Bytes) {out : Bytes}
    (h : out.length ≤ outCap - 1) : (jsonEscapeLoop outCap text out).length ≤ outCap - 1 := by
  induction text generalizing out with
  | nil => exact h
  | cons c text ih =>
    rw [jsonEscapeLoop]
    cases escapeOf c with
    | some esc =>
      dsimp only
      split_ifs with hroom
      · exact h
      · exact ih (by simp; omega)
    | none =>
      dsimp only
      split_ifs with hroom
      · exact h
      · exact ih (by simp; omega)

def SendsSucceed (sends : ℕ → Except Rc ℕ) : Prop := ∀ k, ∃ n, sends k = .ok (n + 1)

def replyAt (sends : ℕ → Except Rc ℕ) (k : ℕ) (m : Message) : Reply :=
  ⟨m, ((sends k).toOption.map (min · m.header.length)).getD 0, m.body.data⟩

section

variable {c : Conn} (hs : SendsSucceed c.sends)

include hs

theorem sendBody_spec {fuel : ℕ} {data : Bytes} (h : data.length ≤ fuel) :
    ∃ k, sendBody fuel data c = (.ok, data, { c with made := k }) := by
  induction fuel generalizing data c with
  | zero =>
    obtain rfl : data = [] := by simpa using h
    exact ⟨c.made, rfl⟩
  | succ fuel ih =>
    rw [sendBody]
    by_cases hd : data = []
    · exact ⟨c.made, by simp [hd]⟩
    · obtain ⟨n, hn⟩ := hs c.made
      obtain ⟨m, hm⟩ : ∃ m, min (n + 1) data.length = m + 1 :=
        ⟨min (n + 1) data.length - 1, by have := length_pos_iff.mpr hd; omega⟩
      have hsend : oveSocketSend c data = (.ok (m + 1), { c with made := c.made + 1 }) := by
        rw [oveSocketSend, hn, Except.map, hm]
      obtain ⟨k, hk⟩ := @ih { c with made := c.made + 1 } hs (data.drop (m + 1)) (by simp; omega)
      refine ⟨k, ?_⟩
      simp [hd, hsend, hk]

theorem sendMessage_fits {m : Message} (hfit : m.header.length < headerSize) :
    ∃ k, sendMessage c m =
      (.ok, { c with made := k, replies := c.replies ++ [replyAt c.sends c.made m] }) := by
  obtain ⟨n, hn⟩ := hs c.made
  have hsend : oveSocketSend c m.header =
      (.ok (min (n + 1) m.header.length), { c with made := c.made + 1 }) := by
    rw [oveSocketSend, hn, Except.map]
  obtain ⟨k, hk⟩ := @sendBody_spec { c with made := c.made + 1 } hs _ m.body.data le_rfl
  refine ⟨k, ?_⟩
  simp [sendMessage, Nat.not_le.mpr hfit, hsend, hk, replyAt, hn, Except.toOption]

theorem wsSendAll_spec {fuel : ℕ} {data : Bytes} (h : data.length ≤ fuel) :
    ∃ k, wsSendAll fuel data c = some (.ok, data.length, { c with made := k }) := by
  induction fuel generalizing data c with
  | zero =>
    obtain rfl : data = [] := by simpa using h
    exact ⟨c.made, rfl⟩
  | succ fuel ih =>
    rw [wsSendAll]
    by_cases hd : data = []
    · exact ⟨c.made, by simp [hd]⟩
    · obtain ⟨n, hn⟩ := hs c.made
      have hpos := length_pos_iff.mpr hd
      have hsend : oveSocketSend c data =
          (.ok (min (n + 1) data.length), { c with made := c.made + 1 }) := by
        rw [oveSocketSend, hn, Except.map]
      obtain ⟨k, hk⟩ := @ih { c with made := c.made + 1 } hs (data.drop (min (n + 1) data.length))
        (by simp; omega)
      refine ⟨k, ?_⟩
      simp [hd, hsend, hk]

end

def Answer.fits (a : Answer) : Bool := a.message.header.length < headerSize

def Reaction.calls : Reaction → List Answer
  | .done _ => []
  | .call a next => a :: (next (if a.fits then .ok else .errNoMemory)).calls

inductive Numbered (sends : ℕ → Except Rc ℕ) : ℕ → List Answer → List Reply → Prop
  | nil (k : ℕ) : Numbered sends k [] []
  | cons {k k' : ℕ} (a : Answer) {as : List Answer} {l : List Reply} (h : Numbered sends k' as l) :
    Numbered sends k (a :: as) (replyAt sends k a.message :: l)

theorem Reaction.run_spec (t : Reaction) {r : Resp} (hs : SendsSucceed r.conn.sends) :
    ∃ k l, (t.run r).2 = ⟨{ r.conn with made := k, replies := r.conn.replies ++ l },
      r.sent || !t.calls.isEmpty⟩ ∧
      Numbered r.conn.sends r.conn.made (t.calls.filter Answer.fits) l := by
  induction t generalizing r with
  | done rc => exact ⟨r.conn.made, [], by simp [run, calls], .nil _⟩
  | call a next ih =>
    rw [run, calls]
    by_cases hfit : a.fits = true
    · obtain ⟨k, hk⟩ := sendMessage_fits hs (of_decide_eq_true hfit)
      have hcall : respond r a = (.ok, ⟨{ r.conn with
          made := k
          replies := r.conn.replies ++ [replyAt r.conn.sends r.conn.made a.message] }, true⟩) := by
        simp [respond, hk]
      obtain ⟨k', l, hrun, hl⟩ := @ih .ok (respond r a).2 (by rw [hcall]; exact hs)
      rw [hcall] at hrun hl ⊢
      refine ⟨k', replyAt r.conn.sends r.conn.made a.message :: l, ?_, ?_⟩
      · simpa using hrun
      · simpa [hfit] using .cons a hl
    · have hcall : respond r a = (.errNoMemory, ⟨r.conn, true⟩) := by
        have hlong : headerSize ≤ a.message.header.length := by simpa [Answer.fits] using hfit
        simp [respond, sendMessage, hlong]
      obtain ⟨k', l, hrun, hl⟩ := @ih .errNoMemory (respond r a).2 (by rw [hcall]; exact hs)
      rw [hcall] at hrun hl ⊢
      exact ⟨k', l, by simpa using hrun, by simpa [hfit] using hl⟩

def Answer.Sound : Answer → Prop
  | .respError _ message =>
    Json.utf8Valid (jsonEscape 192 (message.getD ⟨[], forall_mem_nil _⟩)) = true
  | a => a.message.body.data.length = a.message.body.len

theorem Answer.sound_iff (a : Answer) : a.Sound ↔ a.message.body.data.length = a.message.body.len ∧
      (a.message.own = true → Json.document a.message.body.data = true) := by
  cases a with
  | respError status text =>
    simp only [Sound, message, response, Body.data, Body.len, true_and, forall_const]
    rw [document_errorText]
  | respJson | respHtml | respSend | respSendGz => simp [Sound, message, response, gzipResponse]

structure Fresh (p : Peer) (c : Conn) : Prop where
  made : c.made = 0
  replies : c.replies = []
  sends : c.sends = p.sends

def Received (p : Peer) : Prop := ∃ buf rest, p.recvs = .ok buf :: rest ∧ buf ≠ []

theorem findContentLength_le (arch : Arch) (maxBody : ℕ) (head : Bytes) :
    findContentLength arch maxBody head ≤ maxBody := by
  unfold findContentLength
  split
  · simp
  · split
    · omega
    · rename_i v erange _
      split_ifs with hbad
      · omega
      · have hv : (BitVec.ofNat 32 v).toInt ≤ v := by
          rw [BitVec.toInt_eq_toNat_cond, BitVec.toNat_ofNat]
          have := Nat.mod_le v (2 ^ 32)
          split_ifs <;> omega
        omega

theorem parseRequest_le (arch : Arch) (maxBody : ℕ) (buf : Bytes) :
    (parseRequest arch maxBody buf).1 ≤ maxBody := by
  unfold parseRequest
  split
  · simp
  · dsimp only
    split
    · simp
    · exact findContentLength_le arch maxBody _

theorem oveSocketRecv_fresh {p : Peer} {c : Conn} (h : Fresh p c) (len : ℕ) :
    Fresh p (oveSocketRecv c len).2 := by
  unfold oveSocketRecv
  split
  · exact h
  · exact ⟨h.made, h.replies, h.sends⟩
  · exact ⟨h.made, h.replies, h.sends⟩

theorem recvBody_fresh {p : Peer} (fuel len : ℕ) {c : Conn} (body : Bytes) (h : Fresh p c) :
    Fresh p (recvBody fuel len c body).2 := by
  induction fuel generalizing c body with
  | zero => exact h
  | succ fuel ih =>
    have hrecv := oveSocketRecv_fresh h (len - body.length)
    rw [recvBody]
    split_ifs
    · exact h
    · split
      · rename_i heq
        rwa [heq] at hrecv
      · rename_i heq
        rwa [heq] at hrecv
      · rename_i heq
        rw [heq] at hrecv
        exact ih _ hrecv

def Intake.Sends (p : Peer) : Intake → Prop
  | .closed _ => False
  | .refused c => c.replies = [replyAt p.sends 0 badRequest]
  | .upgraded _ c => ∃ accept, c.replies =
      [⟨switchingProtocols accept, (switchingProtocols accept).header.length, []⟩]
  | .spinning => False
  | .request _ c => Fresh p c

theorem receiveBody_sends (cfg : Config) (mem : Bool) {p : Peer} {c : Conn} (h : Fresh p c)
    (buf : Bytes) {len : ℤ} (hlen : len ≤ cfg.maxBody) (req : Req) :
    (receiveBody cfg mem buf len req c).Sends p := by
  unfold receiveBody
  split_ifs with hpost hlarge hmem
  · omega
  · exact recvBody_fresh _ _ _ h
  · exact h
  · exact h

theorem handshake_sends (cfg : Config) (s : Server) {p : Peer} (hs : SendsSucceed p.sends)
    {c : Conn} (h : Fresh p c) (headers path : Bytes) :
    (∃ pool accept c', oveHttpdWsHandshake cfg s headers path c = .upgraded pool c' ∧ c'.replies =
      [⟨switchingProtocols accept, (switchingProtocols accept).header.length, []⟩]) ∨
    oveHttpdWsHandshake cfg s headers path c = .refused c := by
  unfold oveHttpdWsHandshake
  cases wsMatchRoute id s.wsRoutes path with
  | none => exact .inr rfl
  | some route =>
    cases wsKey headers with
    | none => exact .inr rfl
    | some key =>
      dsimp only
      split_ifs
      · exact .inr rfl
      · cases s.pool.idxOf? false with
        | none => exact .inr rfl
        | some slot =>
          have hpos : (switchingProtocols (cfg.accept (key ++ wsMagic))).header.length ≠ 0 := by
            simp [switchingProtocols, ascii]
          obtain ⟨k, hk⟩ := @wsSendAll_spec c (h.sends ▸ hs) _
            (switchingProtocols (cfg.accept (key ++ wsMagic))).header le_rfl
          dsimp only
          rw [hk]
          exact .inl ⟨_, cfg.accept (key ++ wsMagic), _, rfl, by simp [hpos, h.replies]⟩

theorem judge_sends (cfg : Config) (s : Server) (mem : Bool) {p : Peer}
    (hs : SendsSucceed p.sends) {c : Conn} (hc : Fresh p c) (buf : Bytes) :
    (judge cfg s mem buf c).Sends p := by
  have hlen := parseRequest_le cfg.arch cfg.maxBody buf
  unfold judge
  dsimp only
  split_ifs with hbad hup
  · obtain ⟨k, hk⟩ := @sendMessage_fits c (hc.sends ▸ hs) badRequest (by decide +kernel)
    rw [hk, Intake.Sends, hc.sends, hc.made, hc.replies]
    rfl
  · obtain ⟨pool, accept, c', hshake, hreplies⟩ | hshake := handshake_sends cfg s hs hc
      (ofArray buf) (parseRequest cfg.arch cfg.maxBody buf).2.path
    · rw [hshake]
      exact ⟨accept, hreplies⟩
    · rw [hshake]
      exact receiveBody_sends cfg mem hc _ hlen _
  · exact receiveBody_sends cfg mem hc _ hlen _

theorem intake_sends (cfg : Config) (s : Server) (mem : Bool) {p : Peer} (hp : Received p)
    (hs : SendsSucceed p.sends) : (intake cfg s mem (.accepted p)).Sends p := by
  obtain ⟨buf, rest, hrecvs, hbuf⟩ := hp
  have hfresh := @oveSocketRecv_fresh p (.accepted p) ⟨rfl, rfl, rfl⟩ 1023
  obtain ⟨b, bs, hbs⟩ : ∃ b bs, buf.take 1023 = b :: bs := by
    cases buf with
    | nil => exact absurd rfl hbuf
    | cons b bs => exact ⟨b, bs.take 1022, rfl⟩
  simp only [intake, oveSocketRecv, Conn.accepted, hrecvs, hbs] at hfresh ⊢
  exact judge_sends cfg s mem hs hfresh (b :: bs)

section

variable {routes : List (Route Handler)} {req : Req} {p : Peer} {c : Conn} (hc : Fresh p c)
  (hs : SendsSucceed p.sends)

include hc hs

theorem dispatch_answered {route : Route Handler} (hroute : matchRoute routes req = some route)
    (hcalls : (route.handler req).calls ≠ []) :
    Numbered p.sends 0 ((route.handler req).calls.filter Answer.fits)
      (dispatch routes req c).replies := by
  obtain ⟨k, l, hrun, hl⟩ := (route.handler req).run_spec (r := ⟨c, false⟩) (hc.sends ▸ hs)
  have hsent : (false || !(route.handler req).calls.isEmpty) = true := by simpa using hcalls
  have hreplies : (dispatch routes req c).replies = l := by
    simp only [dispatch, hroute, hrun, hsent]
    simp [hc.replies]
  rw [hreplies]
  simpa only [hc.sends, hc.made] using hl

theorem dispatch_unanswered
    (h : ∀ route, matchRoute routes req = some route → (route.handler req).calls = []) :
    ∃ l k, (dispatch routes req c).replies = l ++ [replyAt p.sends k notFound] := by
  have hmissing (c' : Conn) (hsends : c'.sends = p.sends) :
      (sendMessage c' notFound).2.replies =
        c'.replies ++ [replyAt p.sends c'.made notFound] := by
    obtain ⟨k, hk⟩ := @sendMessage_fits c' (hsends ▸ hs) notFound (by decide +kernel)
    rw [hk, hsends]
  cases hroute : matchRoute routes req with
  | none =>
    refine ⟨c.replies, c.made, ?_⟩
    simp only [dispatch, hroute, if_true]
    exact hmissing c hc.sends
  | some route =>
    obtain ⟨rc, hrc⟩ : ∃ rc, route.handler req = .done rc := by
      have hcalls := h route hroute
      cases hr : route.handler req with
      | done rc => exact ⟨rc, rfl⟩
      | call a next => simp [hr, Reaction.calls] at hcalls
    by_cases hok : rc = .ok
    · refine ⟨c.replies, c.made, ?_⟩
      simp only [dispatch, hroute, hrc, Reaction.run, hok, ne_eq, not_true_eq_false, false_and,
        if_false, if_true]
      exact hmissing c hc.sends
    · obtain ⟨k, hk⟩ := @sendMessage_fits c (hc.sends ▸ hs) internalError (by decide +kernel)
      refine ⟨c.replies ++ [replyAt c.sends c.made internalError], k, ?_⟩
      simp only [dispatch, hroute, hrc, Reaction.run, hok, ne_eq, not_false_eq_true, and_true,
        if_true, hk]
      exact hmissing _ hc.sends

end

structure Exchange.RespondedOnce (cfg : Config) (x : Exchange) : Prop where
  one : ∃ r, x.replies cfg = [r] ∧ r.Complete
  notFound : ∀ req c, intake cfg x.server x.mem (.accepted x.peer) = .request req c →
    matchRoute x.server.routes req = none →
      ∀ r ∈ x.replies cfg, r.message.status = .notFound
  failed : ∀ req c route rc, intake cfg x.server x.mem (.accepted x.peer) = .request req c →
    matchRoute x.server.routes req = some route → route.handler req = .done rc → rc ≠ .ok →
      ∀ r ∈ x.replies cfg, r.message.status = .internalServerError
  own : ∀ r ∈ x.replies cfg, r.message.own = true →
    r.message.body.len = r.body.length ∧ Json.document r.body = true

def TakesWhole (p : Peer) (m : Message) : Prop := ∃ n, p.sends 0 = .ok n ∧ m.header.length ≤ n

/-- The request is refused, becomes a WebSocket, or reaches a handler that makes one call with a
response that can be sent. -/
def Exchange.Obliging (cfg : Config) (x : Exchange) : Prop :=
  match intake cfg x.server x.mem (.accepted x.peer) with
  | .closed _ => False
  | .refused _ => TakesWhole x.peer badRequest
  | .upgraded _ _ => True
  | .spinning => False
  | .request req _ => ∃ route a, matchRoute x.server.routes req = some route ∧
      (route.handler req).calls.filter Answer.fits = [a] ∧ a.Sound ∧ TakesWhole x.peer a.message

theorem taken_replyAt {p : Peer} (hs : SendsSucceed p.sends) (m : Message) :
    (replyAt p.sends 0 m).taken = m.header.length ↔ TakesWhole p m := by
  obtain ⟨n, hn⟩ := hs 0
  simp [replyAt, TakesWhole, hn, Except.toOption]

theorem notFound_malformed : Json.document notFound.body.data = false := by decide +kernel

theorem badRequest_document : Json.document badRequest.body.data = true := by decide +kernel

section

variable {p : Peer} (hs : SendsSucceed p.sends)

include hs

theorem Numbered.one_iff {as : List Answer} {l : List Reply} (h : Numbered p.sends 0 as l) :
    ((∃ r, l = [r] ∧ r.Complete) ∧ ∀ r ∈ l, r.message.own = true →
      r.message.body.len = r.body.length ∧ Json.document r.body = true) ↔
    ∃ a, as = [a] ∧ a.Sound ∧ TakesWhole p a.message := by
  constructor
  · rintro ⟨⟨r, rfl, htaken, hbody⟩, hown⟩
    cases h with
    | cons a hrest =>
      cases hrest
      refine ⟨a, rfl, a.sound_iff.mpr ⟨hbody, fun ho => ?_⟩, (taken_replyAt hs _).mp htaken⟩
      exact (hown _ (mem_singleton_self _) ho).2
  · rintro ⟨a, rfl, hsound, hwhole⟩
    cases h with
    | cons a hrest =>
      cases hrest
      obtain ⟨hbody, hown⟩ := a.sound_iff.mp hsound
      refine ⟨⟨_, rfl, (taken_replyAt hs _).mpr hwhole, hbody⟩, fun r hr ho => ?_⟩
      obtain rfl := mem_singleton.mp hr
      exact ⟨hbody.symm, hown ho⟩

end

section

variable {cfg : Config} {x : Exchange} (hs : SendsSucceed x.peer.sends)

include hs

theorem refused_once {c : Conn} (hin : intake cfg x.server x.mem (.accepted x.peer) = .refused c)
    (hc : c.replies = [replyAt x.peer.sends 0 badRequest]) :
    x.RespondedOnce cfg ↔ TakesWhole x.peer badRequest := by
  have hreplies : x.replies cfg = [replyAt x.peer.sends 0 badRequest] := by
    rw [Exchange.replies, serve, hin]
    exact hc
  constructor
  · rintro ⟨⟨r, hr, htaken, -⟩, -, -, -⟩
    obtain rfl : replyAt x.peer.sends 0 badRequest = r := by simpa [hreplies] using hr
    exact (taken_replyAt hs badRequest).mp htaken
  · intro hwhole
    refine ⟨⟨_, hreplies, (taken_replyAt hs badRequest).mpr hwhole, rfl⟩, ?_, ?_, ?_⟩
    · intro req c' hreq
      simp [hin] at hreq
    · intro req c' route rc hreq
      simp [hin] at hreq
    · intro r hr _
      rw [hreplies, mem_singleton] at hr
      subst hr
      exact ⟨rfl, badRequest_document⟩

omit hs in
theorem upgraded_once {pool : List Bool} {c : Conn}
    (hin : intake cfg x.server x.mem (.accepted x.peer) = .upgraded pool c)
    (hc : ∃ accept, c.replies =
      [⟨switchingProtocols accept, (switchingProtocols accept).header.length, []⟩]) :
    x.RespondedOnce cfg := by
  obtain ⟨accept, hc⟩ := hc
  have hreplies : x.replies cfg =
      [⟨switchingProtocols accept, (switchingProtocols accept).header.length, []⟩] := by
    rw [Exchange.replies, serve, hin]
    exact hc
  refine ⟨⟨_, hreplies, rfl, rfl⟩, ?_, ?_, ?_⟩
  · intro req c' hreq
    simp [hin] at hreq
  · intro req c' route rc hreq
    simp [hin] at hreq
  · intro r hr hown
    rw [hreplies, mem_singleton] at hr
    subst hr
    simp [switchingProtocols] at hown

theorem dispatched_once {req : Req} {c : Conn}
    (hin : intake cfg x.server x.mem (.accepted x.peer) = .request req c) (hc : Fresh x.peer c) :
    x.RespondedOnce cfg ↔ ∃ route a, matchRoute x.server.routes req = some route ∧
      (route.handler req).calls.filter Answer.fits = [a] ∧ a.Sound ∧
        TakesWhole x.peer a.message := by
  have hreplies : x.replies cfg = (dispatch x.server.routes req c).replies := by
    rw [Exchange.replies, serve, hin]
  by_cases hcalls : ∃ route, matchRoute x.server.routes req = some route ∧
      (route.handler req).calls ≠ []
  · obtain ⟨route, hroute, hcalls⟩ := hcalls
    have hone := (dispatch_answered hc hs hroute hcalls).one_iff hs
    rw [← hreplies] at hone
    constructor
    · intro h
      obtain ⟨a, ha⟩ := hone.mp ⟨h.one, h.own⟩
      exact ⟨route, a, hroute, ha⟩
    · rintro ⟨route', a, hroute', ha⟩
      obtain rfl : route = route' := by simpa [hroute] using hroute'
      obtain ⟨hcount, hown⟩ := hone.mpr ⟨a, ha⟩
      refine ⟨hcount, ?_, ?_, hown⟩
      · intro req' c' hreq hnone
        obtain ⟨rfl, rfl⟩ : req = req' ∧ c = c' := by simpa [hin] using hreq
        simp [hroute] at hnone
      · intro req' c' route' rc hreq hroute' hdone
        obtain ⟨rfl, rfl⟩ : req = req' ∧ c = c' := by simpa [hin] using hreq
        obtain rfl : route = route' := by simpa [hroute] using hroute'
        simp [hdone, Reaction.calls] at hcalls
  · have hsilent (route : Route Handler) (hroute : matchRoute x.server.routes req = some route) :
        (route.handler req).calls = [] := by
      by_contra hne
      exact hcalls ⟨route, hroute, hne⟩
    obtain ⟨l, k, hl⟩ := dispatch_unanswered hc hs hsilent
    constructor
    · intro h
      have hlast : replyAt x.peer.sends k notFound ∈ x.replies cfg := by simp [hreplies, hl]
      have hdoc : Json.document notFound.body.data = true := (h.own _ hlast rfl).2
      simp [notFound_malformed] at hdoc
    · rintro ⟨route, a, hroute, hfilter, -⟩
      simp [hsilent route hroute] at hfilter

end

/-- There is exactly one complete response exactly if the request is refused, upgraded, or answered
with one call. -/
theorem httpd_once_iff (cfg : Config) (events : List Event) :
    ∀ x ∈ httpdTask cfg .init events, Received x.peer → SendsSucceed x.peer.sends →
      (x.RespondedOnce cfg ↔ x.Obliging cfg) := by
  intro x _ hp hs
  have hsends := intake_sends cfg x.server x.mem hp hs
  unfold Exchange.Obliging
  cases hin : intake cfg x.server x.mem (.accepted x.peer) with
  | closed c =>
    rw [hin] at hsends
    exact hsends.elim
  | spinning =>
    rw [hin] at hsends
    exact hsends.elim
  | refused c =>
    rw [hin] at hsends
    exact refused_once hs hin hsends
  | upgraded pool c =>
    rw [hin] at hsends
    exact iff_of_true (upgraded_once hin hsends) trivial
  | request req c =>
    rw [hin] at hsends
    exact dispatched_once hs hin hsends

def rootClient : Peer := ⟨[.ok (ascii "GET / HTTP/1.1\r\n\r\n")], fun _ => .ok 1024⟩

def rootRequest : Req := { method := ascii "GET", path := ascii "/" }

def rootExchange (handler : Handler) : Exchange :=
  ⟨⟨[⟨ascii "GET", ascii "/", handler⟩], [], replicate 4 false⟩, true, rootClient⟩

def rootEvents (handler : Handler) : List Event :=
  [.route ⟨ascii "GET", by decide +kernel⟩ ⟨ascii "/", by decide +kernel⟩ handler,
    .accept true rootClient]

theorem mem_rootEvents (handler : Handler) :
    rootExchange handler ∈ httpdTask plainBuild .init (rootEvents handler) :=
  mem_singleton.mpr rfl

theorem intake_root (s : Server) : intake plainBuild s true (.accepted rootClient) =
    .request rootRequest ⟨[], rootClient.sends, 0, []⟩ := rfl

theorem rootClient_received : Received rootClient := ⟨_, _, rfl, by decide⟩

theorem rootClient_sends : SendsSucceed rootClient.sends := fun _ => ⟨1023, rfl⟩

def greeting : Handler := fun _ => .call (.respJson 200 ⟨ascii "\x7b\x7d", by decide +kernel⟩) .done

theorem greeting_once : Received rootClient ∧ SendsSucceed rootClient.sends ∧
    (rootExchange greeting).RespondedOnce plainBuild := by
  have hobliging : (rootExchange greeting).Obliging plainBuild := by
    unfold Exchange.Obliging
    rw [rootExchange, intake_root]
    have hfits : (Answer.respJson 200 ⟨ascii "\x7b\x7d", by decide +kernel⟩).fits = true := by
      decide +kernel
    refine ⟨⟨ascii "GET", ascii "/", greeting⟩, .respJson 200 ⟨ascii "\x7b\x7d", by decide +kernel⟩,
      rfl, ?_, rfl, 1024, rfl, ?_⟩
    · simp [greeting, Reaction.calls, hfits]
    · have hlen := of_decide_eq_true hfits
      exact (hlen.trans (by decide)).le
  exact ⟨rootClient_received, rootClient_sends,
    (httpd_once_iff plainBuild (rootEvents greeting) (rootExchange greeting)
      (mem_rootEvents greeting) rootClient_received rootClient_sends).mpr hobliging⟩

theorem silent_failure_answered_twice :
    Received rootClient ∧ SendsSucceed rootClient.sends ∧
      (rootExchange fun _ => .done .errIo) ∈
        httpdTask plainBuild .init (rootEvents fun _ => .done .errIo) ∧
      ((rootExchange fun _ => .done .errIo).replies plainBuild).map (fun r => r.message.status) =
        [.internalServerError, .notFound] ∧
      ¬(rootExchange fun _ => .done .errIo).RespondedOnce plainBuild ∧
      ¬(⟨.init, true, rootClient⟩ : Exchange).RespondedOnce plainBuild := by
  have htwice : ((rootExchange fun _ => .done .errIo).replies plainBuild).map
      (fun r => r.message.status) = [.internalServerError, .notFound] := by decide +kernel
  refine ⟨rootClient_received, rootClient_sends, mem_rootEvents _, htwice, ?_, ?_⟩
  · rintro ⟨⟨r, hr, -⟩, -, -, -⟩
    simp [hr] at htwice
  · intro h
    obtain ⟨route, a, hroute, -⟩ :=
      (dispatched_once rootClient_sends (intake_root .init) ⟨rfl, rfl, rfl⟩).mp h
    cases hroute

end Overtos.Httpd
