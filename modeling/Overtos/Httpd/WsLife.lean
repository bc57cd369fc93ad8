import Overtos.Httpd.WebSocket
import Overtos.Lib.Runs

/-! The life of a WebSocket connection: its socket is closed once, and its route is told unless a
send to it fails. -/
namespace Overtos.Httpd
open CStr Runs Function

def WsState.Live (w : WsState) (c : ℕ) : Prop :=
  ∃ i, (w.slots i).active = true ∧ (w.slots i).conn = c

def WsState.Watched (u : WsSetup) (w : WsState) (c : ℕ) : Prop :=
  ∃ p, w.paths[c]? = some p ∧ ∃ f, (wsRouteOf u p).bind WsRoute.onClose = some f

def Quiet (log : List WsEvent) : Prop :=
  log.Pairwise fun newer older => ∀ c, older = .closed c → newer ≠ .message c ∧ newer ≠ .sent c

def WsEvent.conn : WsEvent → ℕ
  | .message c => c
  | .sent c => c
  | .failed c => c
  | .onClose c => c
  | .closed c => c

structure WsInv (u : WsSetup) (x : Option ℕ) (w : WsState) : Prop where
  isOpen : ∀ i, (w.slots i).isOpen = (w.slots i).active
  path : ∀ i, (w.slots i).active = true → w.paths[(w.slots i).conn]? = some (w.slots i).path
  unique : ∀ i j, (w.slots i).active = true → (w.slots j).active = true →
    (w.slots i).conn = (w.slots j).conn → i = j
  known : ∀ e ∈ w.log, e.conn < w.paths.length
  live : ∀ c, w.Live c → .closed c ∉ w.log
  ended : ∀ c < w.paths.length, ¬w.Live c → w.log.count (.closed c) = 1
  once : ∀ c, w.log.count (.onClose c) ≤ 1
  untold : ∀ c, w.Live c → x ≠ some c → .onClose c ∉ w.log
  failed : ∀ c, .failed c ∈ w.log → ¬w.Live c
  told : ∀ c, w.Watched u c → ¬w.Live c → .onClose c ∈ w.log ∨ .failed c ∈ w.log
  quiet : Quiet w.log

variable {u : WsSetup} {w w' w'' : WsState} {slot : ℕ}

section

variable {u : WsSetup} {x : Option ℕ} {w : WsState}

theorem WsInv.conn_lt (h : WsInv u x w) {c : ℕ} (hc : w.Live c) : c < w.paths.length := by
  obtain ⟨i, hi, rfl⟩ := hc
  exact (List.getElem?_eq_some_iff.mp (h.path i hi)).1

variable {y : Option ℕ} {slot : ℕ}

theorem WsInv.note (h : WsInv u x w) {e : WsEvent} (hlive : w.Live e.conn)
    (hclosed : ∀ c, e ≠ .closed c) (hfailed : ∀ c, e ≠ .failed c)
    (hnew : ∀ c, e = .onClose c → .onClose c ∉ w.log)
    (hy : ∀ c, y ≠ some c → x ≠ some c ∧ e ≠ .onClose c) : WsInv u y (w.note e) := by
  have hmem {e' : WsEvent} (he : e' ∈ (w.note e).log) (hne : e ≠ e') : e' ∈ w.log :=
    (List.mem_cons.mp he).resolve_left hne.symm
  refine ⟨h.isOpen, h.path, h.unique, ?_, ?_, ?_, ?_, ?_, ?_, ?_, ?_⟩
  · exact List.forall_mem_cons.mpr ⟨h.conn_lt hlive, h.known⟩
  · exact fun c hc hc' => h.live c hc (hmem hc' (hclosed c))
  · intro c hc hdead
    rw [WsState.note, List.count_cons_of_ne (hclosed c)]
    exact h.ended c hc hdead
  · intro c
    by_cases he : e = .onClose c
    · rw [he, WsState.note, List.count_cons_self, List.count_eq_zero.mpr (hnew c he)]
    · rw [WsState.note, List.count_cons_of_ne he]
      exact h.once c
  · exact fun c hc hyc hc' => h.untold c hc (hy c hyc).1 (hmem hc' (hy c hyc).2)
  · exact fun c hc => h.failed c (hmem hc (hfailed c))
  · exact fun c hc hdead =>
      (h.told c hc hdead).imp (List.mem_cons_of_mem _) (List.mem_cons_of_mem _)
  · refine List.pairwise_cons.mpr ⟨fun older hold c hc => ?_, h.quiet⟩
    -- the connection is in the pool, so its socket has not been closed
    have hne : e.conn ≠ c := by
      rintro rfl
      exact h.live _ hlive (hc ▸ hold)
    constructor <;> (rintro rfl; exact hne rfl)

def WsState.freed (w : WsState) (slot : ℕ) (l : List WsEvent) : WsState :=
  { w with log := .closed (w.slots slot).conn :: (l ++ w.log) }.setSlot slot
    { w.slots slot with active := false, isOpen := false }

theorem WsInv.live_freed (h : WsInv u x w) (hslot : (w.slots slot).active = true)
    (l : List WsEvent) (d : ℕ) : (w.freed slot l).Live d ↔ w.Live d ∧ d ≠ (w.slots slot).conn := by
  have hself : ((w.freed slot l).slots slot).active = false := by
    simp [WsState.freed, WsState.setSlot]
  have hother {i : ℕ} (hi : i ≠ slot) : (w.freed slot l).slots i = w.slots i := update_of_ne hi _ _
  constructor
  · rintro ⟨i, hi, rfl⟩
    have hne : i ≠ slot := by
      rintro rfl
      simp [hself] at hi
    rw [hother hne] at hi ⊢
    exact ⟨⟨i, hi, rfl⟩, fun heq => hne (h.unique i slot hi hslot heq)⟩
  · rintro ⟨⟨i, hi, rfl⟩, hne⟩
    have hslot' : i ≠ slot := by
      rintro rfl
      exact hne rfl
    exact ⟨i, by rw [hother hslot']; exact hi, by rw [hother hslot']⟩

theorem WsInv.free (h : WsInv u x w) (hslot : (w.slots slot).active = true) {l : List WsEvent}
    (hl : l = [] ∨ l = [.failed (w.slots slot).conn]) (htold : w.Watched u (w.slots slot).conn →
      .onClose (w.slots slot).conn ∈ w.log ∨ .failed (w.slots slot).conn ∈ l)
    (hy : ∀ d ≠ (w.slots slot).conn, y ≠ some d → x ≠ some d) : WsInv u y (w.freed slot l) := by
  have hlive := h.live_freed hslot l
  have hlt := h.conn_lt ⟨slot, hslot, rfl⟩
  have hactive {i : ℕ} (hi : ((w.freed slot l).slots i).active = true) :
      (w.freed slot l).slots i = w.slots i := by
    by_cases hne : i = slot
    · subst hne
      simp [WsState.freed, WsState.setSlot] at hi
    · exact update_of_ne hne _ _
  have hfailed : ∀ e ∈ l, e = .failed (w.slots slot).conn := by rcases hl with rfl | rfl <;> simp
  have hlog {e : WsEvent} (he : e ∈ (w.freed slot l).log) : e = .closed (w.slots slot).conn ∨
      e = .failed (w.slots slot).conn ∨ e ∈ w.log := by
    rcases List.mem_cons.mp he with he | he
    · exact .inl he
    · exact .inr ((List.mem_append.mp he).imp_left (hfailed e))
  have hkept {e : WsEvent} (he : e ∈ l ++ w.log) : e ∈ (w.freed slot l).log :=
    List.mem_cons_of_mem _ he
  have hcount (e : WsEvent) (he : e ≠ .failed (w.slots slot).conn) : (w.freed slot l).log.count e =
      w.log.count e + if e = .closed (w.slots slot).conn then 1 else 0 := by
    have hnone := List.count_eq_zero.mpr fun hmem => he (hfailed e hmem)
    simp [WsState.freed, WsState.setSlot, List.count_cons, hnone, @eq_comm _ _ e]
  refine ⟨?_, ?_, ?_, ?_, ?_, ?_, ?_, ?_, ?_, ?_, ?_⟩
  · intro i
    by_cases hi : i = slot
    · simp [WsState.freed, WsState.setSlot, hi]
    · simp only [WsState.freed, WsState.setSlot, update_of_ne hi]
      exact h.isOpen i
  · intro i hi
    have hsame := hactive hi
    rw [hsame] at hi ⊢
    exact h.path i hi
  · intro i j hi hj heq
    have hsame := hactive hi
    have hsame' := hactive hj
    rw [hsame] at hi heq
    rw [hsame'] at hj heq
    exact h.unique i j hi hj heq
  · intro e he
    rcases hlog he with rfl | rfl | he
    · exact hlt
    · exact hlt
    · exact h.known e he
  · intro d hd hmem
    obtain ⟨hd, hne⟩ := (hlive d).mp hd
    rcases hlog hmem with heq | heq | hmem
    · exact hne (WsEvent.closed.inj heq)
    · cases heq
    · exact h.live d hd hmem
  · intro d hd hdead
    rw [hcount _ (by simp)]
    by_cases hdc : d = (w.slots slot).conn
    · rw [hdc, List.count_eq_zero.mpr (h.live _ ⟨slot, hslot, rfl⟩), if_pos rfl]
    · rw [if_neg fun heq => hdc (WsEvent.closed.inj heq),
        h.ended d hd fun hd => hdead ((hlive d).mpr ⟨hd, hdc⟩)]
  · intro d
    rw [hcount _ (by simp), if_neg (by simp)]
    exact h.once d
  · intro d hd hyd hmem
    obtain ⟨hd, hne⟩ := (hlive d).mp hd
    rcases hlog hmem with heq | heq | hmem
    · cases heq
    · cases heq
    · exact h.untold d hd (hy d hne hyd) hmem
  · intro d hmem hd
    obtain ⟨hd, hne⟩ := (hlive d).mp hd
    rcases hlog hmem with heq | heq | hmem
    · cases heq
    · exact hne (WsEvent.failed.inj heq)
    · exact h.failed d hmem hd
  · intro d hd hdead
    by_cases hdc : d = (w.slots slot).conn
    · subst hdc
      exact (htold hd).imp (fun hmem => hkept (List.mem_append_right _ hmem))
        fun hmem => hkept (List.mem_append_left _ hmem)
    · exact (h.told d hd fun hd => hdead ((hlive d).mpr ⟨hd, hdc⟩)).imp
        (fun hmem => hkept (List.mem_append_right _ hmem))
        fun hmem => hkept (List.mem_append_right _ hmem)
  · have hl' : Quiet (l ++ w.log) := by
      rcases hl with rfl | rfl
      · exact h.quiet
      · exact List.pairwise_cons.mpr ⟨fun _ _ _ _ => ⟨by simp, by simp⟩, h.quiet⟩
    exact List.pairwise_cons.mpr ⟨fun _ _ _ _ => ⟨by simp, by simp⟩, hl'⟩

theorem wsPoolFree_active (h : WsInv u x w) (hslot : (w.slots slot).active = true) :
    w.wsPoolFree slot = w.freed slot [] := by
  have hopen := (h.isOpen slot).trans hslot
  simp [WsState.wsPoolFree, hopen, WsState.freed, WsState.note, WsState.setSlot]

theorem wsPoolFree_inactive (h : WsInv u x w) (hslot : (w.slots slot).active = false) :
    w.wsPoolFree slot = w := by
  have hopen := (h.isOpen slot).trans hslot
  have hsame : { w.slots slot with active := false, isOpen := false } = w.slots slot := by
    rw [← hslot]
    nth_rewrite 2 [hslot]
    rw [← hopen]
  simp [WsState.wsPoolFree, hopen, WsState.setSlot, hsame]

theorem wsSendFailed_active (h : WsInv u x w) (hslot : (w.slots slot).active = true) :
    wsSendFailed w slot = w.freed slot [.failed (w.slots slot).conn] := by
  have hopen := (h.isOpen slot).trans hslot
  simp [wsSendFailed, WsState.wsPoolFree, WsState.note, hopen, WsState.freed, WsState.setSlot]

theorem WsInv.tell (h : WsInv u none w) (hslot : (w.slots slot).active = true) :
    WsInv u (some (w.slots slot).conn) (w.note (.onClose (w.slots slot).conn)) := by
  refine h.note ⟨slot, hslot, rfl⟩ (by simp) (by simp) (fun c hc => ?_) fun c hc => ?_
  · exact h.untold c ⟨slot, hslot, WsEvent.onClose.inj hc⟩ (by simp)
  · exact ⟨by simp, fun heq => hc (congrArg some (WsEvent.onClose.inj heq))⟩

end

def Touched (slot : ℕ) (w w' : WsState) : Prop :=
  ∃ n k, w' = { w with
    calls := n
    log := List.replicate k (.sent (w.slots slot).conn) ++ w.log }

theorem Touched.refl (slot : ℕ) (w : WsState) : Touched slot w w := ⟨w.calls, 0, rfl⟩

theorem Touched.trans (h : Touched slot w w') (h' : Touched slot w' w'') : Touched slot w w'' := by
  obtain ⟨n, k, rfl⟩ := h
  obtain ⟨n', k', rfl⟩ := h'
  refine ⟨n', k' + k, ?_⟩
  rw [← List.replicate_append_replicate, List.append_assoc]

theorem Touched.calls (slot : ℕ) (w : WsState) (n : ℕ) : Touched slot w { w with calls := n } :=
  ⟨n, 0, rfl⟩

theorem Touched.slots (h : Touched slot w w') : w'.slots = w.slots := by
  obtain ⟨n, k, rfl⟩ := h
  rfl

theorem Touched.inv {x : Option ℕ} (h : Touched slot w w') (hslot : (w.slots slot).active = true)
    (hw : WsInv u x w) : WsInv u x w' := by
  obtain ⟨n, k, rfl⟩ := h
  induction k with
  | zero => exact { hw with }
  | succ k ih => exact ih.note ⟨slot, hslot, rfl⟩ (by simp) (by simp) (by simp) (by simp)

section

variable (u : WsSetup) (slot : ℕ)

theorem wsSocketSend_touched (w : WsState) (data : Bytes) :
    Touched slot w (wsSocketSend u w slot data).2 := ⟨w.calls + 1, 1, rfl⟩

theorem wsSendBytes_touched (fuel : ℕ) (data : Bytes) (w : WsState) :
    Touched slot w (wsSendBytes u slot fuel data w).2 := by
  induction fuel generalizing data w with
  | zero => exact .refl slot w
  | succ fuel ih =>
    have hsend := wsSocketSend_touched u slot w data
    rw [wsSendBytes]
    split_ifs
    · exact .refl slot w
    · split
      · rename_i heq
        rwa [heq] at hsend
      · rename_i heq
        rw [heq] at hsend
        exact hsend.trans (ih _ _)

theorem wsSendFrame_touched (data : Bytes) (w : WsState) :
    Touched slot w (wsSendFrame u slot data w).2 := wsSendBytes_touched u slot _ data w

theorem wsRecv_touched (len : ℕ) (w : WsState) : Touched slot w (wsRecv u len w).2 := by
  have hloop (fuel len : ℕ) (w : WsState) : Touched slot w (wsRecvExact u fuel len w).2 := by
    induction fuel generalizing len w with
    | zero =>
      cases len with
      | zero => exact .refl slot w
      | succ len => exact .refl slot w
    | succ fuel ih =>
      cases len with
      | zero => exact .refl slot w
      | succ len =>
        rw [wsRecvExact]
        split
        · exact .calls slot w _
        · split_ifs
          · exact .calls slot w _
          · exact (Touched.calls slot w _).trans (ih _ _)
        · simp
  exact hloop len len w

theorem wsRefuse_touched (code : Option ℕ) (w : WsState) :
    Touched slot w (wsRefuse u slot code w).2 := wsSendFrame_touched u slot _ w

theorem wsOpcode_touched (opcode len : ℕ) (data : Bytes) (w : WsState) :
    Touched slot w (wsOpcode u slot opcode len data w).2 := by
  unfold wsOpcode
  split_ifs
  · exact wsRefuse_touched u slot _ w
  · exact (wsSendFrame_touched u slot _ w).trans (wsSendFrame_touched u slot _ _)
  · exact .refl slot w
  · exact .refl slot w
  · exact .refl slot w

theorem wsPayload_touched (opcode len : ℕ) (w : WsState) :
    Touched slot w (wsPayload u slot opcode len w).2 := by
  unfold wsPayload
  split_ifs
  · exact wsRefuse_touched u slot _ w
  · exact wsRefuse_touched u slot _ w
  · have hmask := wsRecv_touched u slot 4 w
    generalize wsRecv u 4 w = r at hmask ⊢
    obtain ⟨_ | mask, w1⟩ := r
    · exact hmask
    · have hdata := hmask.trans (wsRecv_touched u slot len w1)
      dsimp only
      generalize wsRecv u len w1 = r at hdata ⊢
      obtain ⟨_ | data, w2⟩ := r
      · exact hdata
      · exact hdata.trans (wsOpcode_touched u slot _ _ _ _)

theorem wsLength_touched (opcode len7 : ℕ) (w : WsState) :
    Touched slot w (wsLength u slot opcode len7 w).2 := by
  unfold wsLength
  split_ifs
  · have hext := wsRecv_touched u slot 2 w
    generalize wsRecv u 2 w = r at hext ⊢
    obtain ⟨_ | ext, w1⟩ := r
    · exact hext
    · exact hext.trans (wsPayload_touched u slot _ _ _)
  · have hext := wsRecv_touched u slot 8 w
    generalize wsRecv u 8 w = r at hext ⊢
    obtain ⟨_ | ext, w1⟩ := r
    · exact hext
    · dsimp only
      split_ifs
      · exact hext.trans (wsRefuse_touched u slot _ _)
      · exact hext.trans (wsPayload_touched u slot _ _ _)
  · exact wsPayload_touched u slot _ _ w

theorem wsHead_touched (w : WsState) : Touched slot w (wsHead u slot w).2 := by
  have hhdr := wsRecv_touched u slot 2 w
  unfold wsHead
  generalize wsRecv u 2 w = r at hhdr ⊢
  obtain ⟨_ | hdr, w1⟩ := r
  · exact hhdr
  · dsimp only
    split_ifs
    · exact hhdr.trans (wsRefuse_touched u slot _ _)
    · exact hhdr.trans (wsLength_touched u slot _ _ _)

theorem wsReadFrame_touched (w : WsState) : Touched slot w (wsReadFrame u slot w).2 := by
  have hpoll := Touched.calls slot w (w.calls + 1)
  unfold wsReadFrame
  split
  · exact hpoll
  · split_ifs
    · exact hpoll
    · exact hpoll.trans (wsHead_touched u slot _)
    · exact hpoll

end

structure Evolves (u : WsSetup) (w w' : WsState) : Prop where
  paths : w'.paths = w.paths
  conn : ∀ i, (w'.slots i).conn = (w.slots i).conn
  active : ∀ i, (w'.slots i).active = true → (w.slots i).active = true
  log : ∀ e ∈ w.log, e ∈ w'.log
  inv : ∀ x, WsInv u x w → WsInv u x w'

theorem Evolves.refl (u : WsSetup) (w : WsState) : Evolves u w w :=
  ⟨rfl, fun _ => rfl, fun _ hi => hi, fun _ he => he, fun _ h => h⟩

theorem Evolves.trans (h : Evolves u w w') (h' : Evolves u w' w'') : Evolves u w w'' where
  paths := h'.paths.trans h.paths
  conn i := (h'.conn i).trans (h.conn i)
  active i hi := h.active i (h'.active i hi)
  log e he := h'.log e (h.log e he)
  inv x hw := h'.inv x (h.inv x hw)

theorem Touched.evolves (u : WsSetup) (h : Touched slot w w')
    (hslot : (w.slots slot).active = true) : Evolves u w w' where
  paths := by
    obtain ⟨n, k, rfl⟩ := h
    rfl
  conn i := by rw [h.slots]
  active i hi := by rwa [h.slots] at hi
  log e he := by
    obtain ⟨n, k, rfl⟩ := h
    exact List.mem_append_right _ he
  inv x hw := h.inv hslot hw

section

variable (u : WsSetup)

theorem wsSendFailed_evolves {w : WsState} {slot : ℕ} (hslot : (w.slots slot).active = true) :
    Evolves u w (wsSendFailed w slot) where
  paths := by
    unfold wsSendFailed WsState.wsPoolFree
    dsimp only
    split_ifs <;> rfl
  conn i := by
    unfold wsSendFailed WsState.wsPoolFree
    by_cases hi : i = slot
    · subst hi
      simp [WsState.setSlot, WsState.note]
    · dsimp only
      split_ifs <;> simp [WsState.setSlot, WsState.note, update_of_ne hi]
  active i hi := by
    by_cases heq : i = slot
    · exact heq ▸ hslot
    · unfold wsSendFailed WsState.wsPoolFree at hi
      dsimp only at hi
      split_ifs at hi
      · simpa [WsState.setSlot, WsState.note, update_of_ne heq] using hi
      · simpa [WsState.setSlot, WsState.note, update_of_ne heq] using hi
  log e he := by
    unfold wsSendFailed WsState.wsPoolFree
    dsimp only
    split_ifs <;> simp [WsState.setSlot, WsState.note, he]
  inv x hw := by
    rw [wsSendFailed_active hw hslot]
    exact hw.free hslot (.inr rfl) (fun _ => .inr (List.mem_singleton_self _)) fun _ _ h => h

theorem oveHttpdWsSend_evolves (w : WsState) (slot : ℕ) (data : Bytes) :
    Evolves u w (oveHttpdWsSend u w slot data).2 := by
  unfold oveHttpdWsSend
  by_cases hact : slot < u.maxConns ∧ (w.slots slot).active = true
  · have hhdr := wsSendFrame_touched u slot (wsHeader data.length) w
    have hdata := wsSendFrame_touched u slot data (wsSendFrame u slot (wsHeader data.length) w).2
    have hslot1 := hact.2
    rw [← hhdr.slots] at hslot1
    have hslot2 := hslot1
    rw [← hdata.slots] at hslot2
    have hevolves := hhdr.evolves u hact.2
    rw [if_pos hact]
    dsimp only
    split_ifs
    · exact hevolves.trans (wsSendFailed_evolves u hslot1)
    · exact (hevolves.trans (hdata.evolves u hslot1)).trans (wsSendFailed_evolves u hslot2)
    · exact hevolves.trans (hdata.evolves u hslot1)
  · rw [if_neg hact]
    exact .refl u w

theorem wsBroadcastLoop_evolves (path : Option Bytes) (data : Bytes) (slots : List ℕ) (sent : ℕ)
    (w : WsState) : Evolves u w (wsBroadcastLoop u path data slots sent w).2 := by
  induction slots generalizing sent w with
  | nil => exact .refl u w
  | cons slot rest ih =>
    rw [wsBroadcastLoop]
    split_ifs
    · exact ih sent w
    · exact (oveHttpdWsSend_evolves u w slot data).trans (ih _ _)

theorem oveHttpdWsBroadcast_evolves (w : WsState) (path : Option Bytes) (data : Bytes) :
    Evolves u w (oveHttpdWsBroadcast u w path data).2 :=
  wsBroadcastLoop_evolves u path data _ 0 w

theorem WsReaction.run_evolves (r : WsReaction) (w : WsState) : Evolves u w (r.run u w) := by
  induction r generalizing w with
  | done => exact .refl u w
  | send slot data next ih => exact (oveHttpdWsSend_evolves u w slot data).trans (ih _ _)
  | broadcast path data next ih =>
    exact (oveHttpdWsBroadcast_evolves u w path data).trans (ih _ _)

end

section

variable {u : WsSetup} {w : WsState} (h : WsInv u none w)

include h

variable {slot : ℕ} {w' : WsState}

theorem wsDispatch_inv (hslot : (w.slots slot).active = true) (data : Bytes) :
    WsInv u none (wsDispatch u slot data w) := by
  unfold wsDispatch
  split
  · exact h
  · exact (WsReaction.run_evolves u _ _).inv none
      (h.note ⟨slot, hslot, rfl⟩ (by simp) (by simp) (by simp) (by simp))

theorem wsEnd_inv (hslot : (w.slots slot).active = true) : WsInv u none (wsEnd u slot w) := by
  unfold wsEnd
  split
  · rename_i hnone
    rw [wsPoolFree_active h hslot]
    refine h.free hslot (.inl rfl) ?_ fun _ _ hy => hy
    rintro ⟨p, hp, f, hf⟩
    rw [h.path slot hslot] at hp
    cases hp
    simp [hnone] at hf
  · rename_i onClose _
    have hevolves := WsReaction.run_evolves u
      (onClose (w.note (.onClose (w.slots slot).conn)).log slot)
      (w.note (.onClose (w.slots slot).conn))
    have hinv := hevolves.inv _ (h.tell hslot)
    have htold := hevolves.log (.onClose (w.slots slot).conn) List.mem_cons_self
    dsimp only
    generalize (onClose (w.note (.onClose (w.slots slot).conn)).log slot).run u
      (w.note (.onClose (w.slots slot).conn)) = w' at hevolves hinv htold
    have hconn : (w'.slots slot).conn = (w.slots slot).conn := hevolves.conn slot
    cases hact : (w'.slots slot).active with
    | true =>
      rw [← hconn] at hinv htold
      rw [wsPoolFree_active hinv hact]
      exact hinv.free hact (.inl rfl) (fun _ => .inl htold)
        fun d hd _ heq => hd (by simpa using heq.symm)
    | false =>
      -- the callback's own send failed, and the slot is free already
      have hdead : ¬w'.Live (w.slots slot).conn := by
        rintro ⟨j, hj, hjc⟩
        obtain rfl := h.unique j slot (hevolves.active j hj) hslot
          ((hevolves.conn j).symm.trans hjc)
        simp [hact] at hj
      rw [wsPoolFree_inactive hinv hact]
      refine { hinv with untold := fun d hd _ => hinv.untold d hd ?_ }
      rintro ⟨⟩
      exact hdead hd

theorem wsPollSlot_inv (slot : ℕ) : WsInv u none (wsPollSlot u w slot) := by
  unfold wsPollSlot
  cases hslot : (w.slots slot).active with
  | false => simpa using h
  | true =>
    have htouched := wsReadFrame_touched u slot w
    have hinv := htouched.inv hslot h
    rw [← htouched.slots] at hslot
    rw [if_neg (by simp)]
    generalize wsReadFrame u slot w = r at hinv hslot ⊢
    obtain ⟨_ | _ | data | _, w1⟩ := r
    · exact wsEnd_inv hinv hslot
    · exact hinv
    · exact wsDispatch_inv hinv hslot _
    · exact hinv

omit h in
theorem live_takeIn (hslot : (w.slots slot).active = false) (path : Bytes) (d : ℕ) :
    (w.takeIn slot path).Live d ↔ w.Live d ∨ d = w.paths.length := by
  have hother {i : ℕ} (hi : i ≠ slot) : (w.takeIn slot path).slots i = w.slots i :=
    update_of_ne hi _ _
  have hself : (w.takeIn slot path).slots slot = ⟨path, true, true, w.paths.length⟩ :=
    update_self _ _ _
  constructor
  · rintro ⟨i, hi, rfl⟩
    by_cases hne : i = slot
    · subst hne
      exact .inr (by rw [hself])
    · rw [hother hne] at hi ⊢
      exact .inl ⟨i, hi, rfl⟩
  · rintro (⟨i, hi, rfl⟩ | rfl)
    · have hne : i ≠ slot := by
        rintro rfl
        simp [hslot] at hi
      exact ⟨i, by rw [hother hne]; exact hi, by rw [hother hne]⟩
    · exact ⟨slot, by rw [hself], by rw [hself]⟩

theorem takeIn_inv (hslot : (w.slots slot).active = false) (path : Bytes) :
    WsInv u none (w.takeIn slot path) := by
  have hlive := live_takeIn hslot path
  have hlen : (w.takeIn slot path).paths.length = w.paths.length + 1 := by simp [WsState.takeIn]
  have hnew (e : WsEvent) (he : e ∈ w.log) : e.conn ≠ w.paths.length := (h.known e he).ne
  have hlt {i : ℕ} (hi : (w.slots i).active = true) : (w.slots i).conn < w.paths.length :=
    h.conn_lt ⟨i, hi, rfl⟩
  have hwatched {d : ℕ} (hd : (w.takeIn slot path).Watched u d) (hne : d ≠ w.paths.length) :
      w.Watched u d := by
    obtain ⟨p, hp, hf⟩ := hd
    have hbound := (List.getElem?_eq_some_iff.mp hp).1
    have hsame : (w.takeIn slot path).paths[d]? = w.paths[d]? :=
      List.getElem?_append_left (by omega)
    exact ⟨p, hsame ▸ hp, hf⟩
  have hcases (i : ℕ) : i = slot ∨ (w.takeIn slot path).slots i = w.slots i := by
    by_cases hi : i = slot
    · exact .inl hi
    · exact .inr (update_of_ne hi _ _)
  have hself : (w.takeIn slot path).slots slot = ⟨path, true, true, w.paths.length⟩ :=
    update_self _ _ _
  refine ⟨?_, ?_, ?_, ?_, ?_, ?_, h.once, ?_, ?_, ?_, h.quiet⟩
  · intro i
    rcases hcases i with rfl | hi
    · rw [hself]
    · rw [hi]
      exact h.isOpen i
  · intro i hact
    rcases hcases i with rfl | hi
    · rw [hself]
      simp [WsState.takeIn]
    · rw [hi] at hact ⊢
      exact (List.getElem?_append_left (hlt hact)).trans (h.path i hact)
  · intro i j hi hj heq
    rcases hcases i with rfl | hi' <;> rcases hcases j with rfl | hj'
    · rfl
    · rw [hj'] at hj heq
      rw [hself] at heq
      exact absurd heq (hlt hj).ne'
    · rw [hi'] at hi heq
      rw [hself] at heq
      exact absurd heq (hlt hi).ne
    · rw [hi'] at hi heq
      rw [hj'] at hj heq
      exact h.unique i j hi hj heq
  · intro e he
    rw [hlen]
    exact (h.known e he).trans (Nat.lt_succ_self _)
  · intro d hd hmem
    rcases (hlive d).mp hd with hd | rfl
    · exact h.live d hd hmem
    · exact hnew _ hmem rfl
  · intro d hd hdead
    have hd' : ¬w.Live d ∧ d ≠ w.paths.length := not_or.mp fun hor => hdead ((hlive d).mpr hor)
    rw [hlen] at hd
    exact h.ended d (by omega) hd'.1
  · intro d hd _ hmem
    rcases (hlive d).mp hd with hd | rfl
    · exact h.untold d hd (by simp) hmem
    · exact hnew _ hmem rfl
  · intro d hmem hd
    rcases (hlive d).mp hd with hd | rfl
    · exact h.failed d hmem hd
    · exact hnew _ hmem rfl
  · intro d hd hdead
    have hd' : ¬w.Live d ∧ d ≠ w.paths.length := not_or.mp fun hor => hdead ((hlive d).mpr hor)
    exact h.told d (hwatched hd hd'.2) hd'.1

theorem wsOpen_inv {path : Bytes} (hopen : wsOpen u w path = some w') : WsInv u none w' := by
  obtain ⟨route, -, hmap⟩ := Option.bind_eq_some_iff.mp hopen
  obtain ⟨slot, hslot, rfl⟩ := Option.map_eq_some_iff.mp hmap
  have hfree : (w.slots slot).active = false := by simpa using List.find?_some hslot
  exact takeIn_inv h hfree _

end

theorem init_wsInv (u : WsSetup) : WsInv u none .init := by
  have hdead (c : ℕ) : ¬WsState.init.Live c := by
    rintro ⟨i, hi, -⟩
    simp [WsState.init] at hi
  exact {
    isOpen := fun _ => rfl
    path := by simp [WsState.init]
    unique := by simp [WsState.init]
    known := by simp [WsState.init]
    live := fun c hc => absurd hc (hdead c)
    ended := by simp [WsState.init]
    once := by simp [WsState.init]
    untold := fun c hc => absurd hc (hdead c)
    failed := by simp [WsState.init]
    told := by simp [WsState.init, WsState.Watched]
    quiet := List.Pairwise.nil }

def deadNetwork : WsSetup where
  maxConns := 4
  maxFrame := 1024
  routes := [⟨ascii "/ws", none, some fun _ _ => .done⟩]
  send _ := .error .errNetReset
  recv _ := .error .errNetReset
  poll _ := .ok (false, false)

end Overtos.Httpd
