import Overtos.Lib.Checked

/-! Connected stream sockets that pass on any part of what they are asked for, and the loops that
make up for it. -/
namespace Duplex
open List

structure Splits where
  brings : ℕ → ℕ
  takes : ℕ → ℕ

structure Ends (α : Type*) where
  inbox : List α
  outbox : List α
  calls : ℕ

variable {α : Type*} (s : Splits)

def recv (len : ℕ) (e : Ends α) : List α × Ends α :=
  (e.inbox.take (min len (s.brings e.calls + 1)),
    { e with inbox := e.inbox.drop (min len (s.brings e.calls + 1)), calls := e.calls + 1 })

def recvLoop (len : ℕ) : ℕ → ℕ → List α → Ends α → Option (Bool × List α × Ends α)
  | 0, _, buf, e => some (true, buf, e)
  | fuel + 1, total, buf, e =>
    if len ≤ total then some (true, buf, e) else
    if (recv s (len - total) e).1.length = 0 then some (false, buf, (recv s (len - total) e).2) else
    (Checked.put buf total (recv s (len - total) e).1).bind fun buf =>
      recvLoop len fuel (total + (recv s (len - total) e).1.length) buf (recv s (len - total) e).2

def recvExact (buf : List α) (len : ℕ) (e : Ends α) : Option (Bool × List α × Ends α) :=
  recvLoop s len len 0 buf e

def sendLoop : ℕ → List α → Ends α → Ends α
  | 0, _, e => e
  | fuel + 1, data, e =>
    if data = [] then e else
    sendLoop fuel (data.drop (s.takes e.calls + 1))
      { e with outbox := e.outbox ++ data.take (s.takes e.calls + 1), calls := e.calls + 1 }

def sendAll (data : List α) (e : Ends α) : Ends α := sendLoop s data.length data e

def trySendLoop {ε : Type*} (takes : ℕ → Except ε ℕ) :
    ℕ → List α → Ends α → Except ε Unit × Ends α
  | 0, _, e => (.ok (), e)
  | fuel + 1, data, e =>
    if data = [] then (.ok (), e) else
    match takes e.calls with
    | .error err => (.error err, { e with calls := e.calls + 1 })
    | .ok n => trySendLoop takes fuel (data.drop (n + 1))
      { e with outbox := e.outbox ++ data.take (n + 1), calls := e.calls + 1 }

def trySendAll {ε : Type*} (takes : ℕ → Except ε ℕ) (data : List α) (e : Ends α) :
    Except ε Unit × Ends α :=
  trySendLoop takes data.length data e

def tryRecv {ε : Type*} (closed : ε) (gives : ℕ → Except ε ℕ) (len : ℕ) (e : Ends α) :
    Except ε (List α) × Ends α :=
  match gives e.calls with
  | .error err => (.error err, { e with calls := e.calls + 1 })
  | .ok n =>
    if (e.inbox.take (min len (n + 1))).length = 0 then
      (.error closed, { e with calls := e.calls + 1 })
    else (.ok (e.inbox.take (min len (n + 1))),
      { e with inbox := e.inbox.drop (min len (n + 1)), calls := e.calls + 1 })

variable {s}

theorem recv_spec (s : Splits) {len : ℕ} (hlen : 0 < len) (e : Ends α) :
    ∃ got rest, e.inbox = got ++ rest ∧ got.length ≤ len ∧ (got.length = 0 → rest = []) ∧
      recv s len e = (got, { e with inbox := rest, calls := e.calls + 1 }) := by
  refine ⟨_, _, (take_append_drop _ _).symm, ?_, fun hnone => ?_, rfl⟩
  · rw [length_take]
    omega
  · rw [length_take] at hnone
    rw [drop_eq_nil_iff]
    omega

theorem recvLoop_spec {fuel want : ℕ} (written free : List α) (e : Ends α) (hfuel : want ≤ fuel)
    (hfree : want ≤ free.length) :
    ∃ calls, recvLoop s (written.length + want) fuel written.length (written ++ free) e =
      some (decide (want ≤ e.inbox.length),
        written ++ e.inbox.take want ++ free.drop (e.inbox.take want).length,
        { e with inbox := e.inbox.drop want, calls }) := by
  induction fuel generalizing written free want e with
  | zero =>
    rw [Nat.le_zero.mp hfuel]
    exact ⟨e.calls, by simp [recvLoop]⟩
  | succ fuel ih =>
    rw [recvLoop]
    rcases Nat.eq_zero_or_pos want with rfl | hwant
    · exact ⟨e.calls, by simp⟩
    rw [if_neg (by omega), Nat.add_sub_cancel_left]
    obtain ⟨got, rest, hinbox, hgot, hend, hrecv⟩ := recv_spec s hwant e
    rw [hrecv, hinbox]
    dsimp only
    by_cases hnone : got.length = 0
    · rw [if_pos hnone, hend hnone, eq_nil_of_length_eq_zero hnone]
      exact ⟨e.calls + 1, by simp [Nat.ne_of_gt hwant]⟩
    · rw [if_neg hnone, Checked.put_append rfl (by omega), Option.bind_some]
      obtain ⟨calls, h⟩ := @ih (want - got.length) (written ++ got) (free.drop got.length)
        { e with inbox := rest, calls := e.calls + 1 } (by omega) (by rw [length_drop]; omega)
      rw [length_append, Nat.add_assoc, Nat.add_sub_cancel' hgot] at h
      refine ⟨calls, h.trans ?_⟩
      simp only [take_append, take_of_length_le hgot, drop_append, drop_of_length_le hgot,
        nil_append, length_append, drop_drop, append_assoc, Nat.sub_le_iff_le_add']

theorem recvExact_spec (s : Splits) {buf : List α} {len : ℕ} (hlen : len ≤ buf.length)
    (e : Ends α) :
    ∃ calls, recvExact s buf len e = some (decide (len ≤ e.inbox.length),
      e.inbox.take len ++ buf.drop (e.inbox.take len).length,
      { e with inbox := e.inbox.drop len, calls }) := by
  obtain ⟨calls, h⟩ := recvLoop_spec [] buf e (Nat.le_refl len) hlen
  rw [length_nil, Nat.zero_add] at h
  exact ⟨calls, h⟩

theorem sendLoop_spec {fuel : ℕ} {data : List α} (h : data.length ≤ fuel) (e : Ends α) :
    ∃ calls, sendLoop s fuel data e = { e with outbox := e.outbox ++ data, calls } := by
  induction fuel generalizing data e with
  | zero =>
    rw [eq_nil_of_length_eq_zero (Nat.le_zero.mp h)]
    exact ⟨e.calls, by simp [sendLoop]⟩
  | succ fuel ih =>
    rw [sendLoop]
    split_ifs with hnil
    · exact ⟨e.calls, by simp [hnil]⟩
    · obtain ⟨calls, hrest⟩ := @ih (data.drop (s.takes e.calls + 1))
        (by rw [length_drop]; omega)
        { e with outbox := e.outbox ++ data.take (s.takes e.calls + 1), calls := e.calls + 1 }
      refine ⟨calls, hrest.trans ?_⟩
      simp

theorem sendAll_spec (s : Splits) (data : List α) (e : Ends α) :
    ∃ calls, sendAll s data e = { e with outbox := e.outbox ++ data, calls } :=
  sendLoop_spec (Nat.le_refl _) e

theorem trySendLoop_ok {ε : Type*} {takes : ℕ → Except ε ℕ} {fuel : ℕ} {data : List α}
    {e e' : Ends α} (hfuel : data.length ≤ fuel)
    (h : trySendLoop takes fuel data e = (.ok (), e')) :
    e'.inbox = e.inbox ∧ e'.outbox = e.outbox ++ data := by
  induction fuel generalizing data e with
  | zero =>
    rw [trySendLoop, Prod.mk.injEq] at h
    rw [eq_nil_of_length_eq_zero (Nat.le_zero.mp hfuel), ← h.2]
    simp
  | succ fuel ih =>
    rw [trySendLoop] at h
    split_ifs at h with hnil
    · rw [hnil, ← (Prod.mk.inj h).2]
      simp
    cases htakes : takes e.calls with
    | error err => simp [htakes] at h
    | ok n =>
      rw [htakes] at h
      obtain ⟨hin, hout⟩ := ih (by rw [length_drop]; omega) h
      exact ⟨hin, by rw [hout, append_assoc, take_append_drop]⟩

theorem trySendAll_ok {ε : Type*} {takes : ℕ → Except ε ℕ} {data : List α} {e e' : Ends α}
    (h : trySendAll takes data e = (.ok (), e')) :
    e'.inbox = e.inbox ∧ e'.outbox = e.outbox ++ data :=
  trySendLoop_ok (Nat.le_refl _) h

theorem trySendLoop_eq_sendLoop {ε : Type*} (s : Splits) (fuel : ℕ) (data : List α) (e : Ends α) :
    trySendLoop (fun n => (.ok (s.takes n) : Except ε ℕ)) fuel data e =
      (.ok (), sendLoop s fuel data e) := by
  induction fuel generalizing data e with
  | zero => rfl
  | succ fuel ih =>
    rw [trySendLoop, sendLoop]
    split_ifs
    · rfl
    · exact ih _ _

theorem trySendAll_eq_sendAll {ε : Type*} (s : Splits) (data : List α) (e : Ends α) :
    trySendAll (fun n => (.ok (s.takes n) : Except ε ℕ)) data e = (.ok (), sendAll s data e) :=
  trySendLoop_eq_sendLoop s data.length data e

theorem tryRecv_length_lt {ε : Type*} {closed : ε} {gives : ℕ → Except ε ℕ} {len : ℕ}
    {e e' : Ends α} {got : List α} (h : tryRecv closed gives len e = (.ok got, e')) :
    e'.inbox.length < e.inbox.length := by
  unfold tryRecv at h
  cases hgives : gives e.calls with
  | error err => simp [hgives] at h
  | ok n =>
    rw [hgives] at h
    dsimp only at h
    split_ifs at h with hnone
    · cases h
    · rw [← (Prod.mk.inj h).2, length_drop]
      rw [length_take] at hnone
      omega

theorem tryRecv_spec {ε : Type*} (closed : ε) (brings : ℕ → ℕ) {len : ℕ} (hlen : 0 < len)
    (e : Ends α) :
    e.inbox = [] ∧ tryRecv closed (fun n => .ok (brings n)) len e =
        (.error closed, { e with calls := e.calls + 1 }) ∨
      ∃ got rest, e.inbox = got ++ rest ∧ 0 < got.length ∧ got.length ≤ len ∧
        tryRecv closed (fun n => .ok (brings n)) len e =
          (.ok got, { e with inbox := rest, calls := e.calls + 1 }) := by
  unfold tryRecv
  dsimp only
  split_ifs with hnone
  · rw [length_take] at hnone
    exact .inl ⟨eq_nil_of_length_eq_zero (by omega), rfl⟩
  · exact .inr ⟨_, _, (take_append_drop _ _).symm, Nat.pos_of_ne_zero hnone,
      (length_take_le _ _).trans (min_le_left _ _), rfl⟩

abbrev Io (ε : Type) (α : Type) := ExceptT ε (StateM (Ends α))

def send {ε α : Type} (takes : ℕ → Except ε ℕ) (data : List α) : Io ε α Unit :=
  fun e => trySendAll takes data e

theorem Io.bind_run {ε α β γ : Type} {c : Io ε α β} {y : β} {e e' : Ends α}
    (h : c e = (.ok y, e')) (next : β → Io ε α γ) : (c >>= next) e = next y e' := by
  change (ExceptT.bindCont next (c e).1) (c e).2 = _
  rw [h]
  rfl

theorem Io.bind_ok {ε α β γ : Type} {c : Io ε α β} {next : β → Io ε α γ} {z : γ} {e e' : Ends α}
    (h : (c >>= next) e = (.ok z, e')) :
    ∃ y e₁, c e = (.ok y, e₁) ∧ next y e₁ = (.ok z, e') := by
  cases hc : (c e).1 with
  | error err =>
    have herr : (c >>= next) e = (.error err, (c e).2) := by
      change (ExceptT.bindCont next (c e).1) (c e).2 = _
      rw [hc]
      rfl
    rw [herr] at h
    cases h
  | ok y =>
    have hrun : c e = (.ok y, (c e).2) := Prod.ext hc rfl
    rw [Io.bind_run hrun] at h
    exact ⟨y, _, hrun, h⟩

def Io.KeepsInbox {ε α β : Type} (c : Io ε α β) : Prop := ∀ e, (c e).2.inbox = e.inbox

theorem Io.KeepsInbox.bind {ε α β γ : Type} {c : Io ε α β} {next : β → Io ε α γ}
    (hc : c.KeepsInbox) (hnext : ∀ y, (next y).KeepsInbox) : (c >>= next).KeepsInbox := by
  intro e
  rw [← hc e]
  change ((ExceptT.bindCont next (c e).1) (c e).2).2.inbox = _
  cases (c e).1 with
  | ok y => exact hnext y _
  | error err => rfl

theorem send_keepsInbox {ε α : Type} (takes : ℕ → Except ε ℕ) (data : List α) :
    (send takes data).KeepsInbox := by
  intro e
  unfold send trySendAll
  fun_induction trySendLoop takes data.length data e with
  | case1 => rfl
  | case2 => rfl
  | case3 => rfl
  | case4 fuel data e hnil n hn ih => exact ih

end Duplex
