import Overtos.Httpd.Frames

/-! `ove_httpd_ws_send` over a socket whose sends may fail or take only a part. -/
namespace Overtos.Httpd.WsOut
open CStr Duplex WebSocket List

structure Conn where
  active : Bool
  ends : Ends UInt8

section

variable (takes : ℕ → Except Rc ℕ)

def wsSendAll (data : Bytes) (c : Conn) : Except Rc Unit × Conn :=
  ((trySendAll takes data c.ends).1, { c with ends := (trySendAll takes data c.ends).2 })

def wsPoolFree (c : Conn) : Conn := { c with active := false }

def oveHttpdWsSend (conn : Option Conn) (data : Bytes) : Except Rc Unit × Option Conn :=
  match conn with
  | none => (.error .errInvalidParam, none)
  | some c =>
    if c.active = false then (.error .errInvalidParam, some c) else
    match wsSendAll takes (wsHeader data.length) c with
    | (.error e, c) => (.error e, some (wsPoolFree c))
    | (.ok _, c) =>
      if data.length = 0 then (.ok (), some c) else
      match wsSendAll takes data c with
      | (.error e, c) => (.error e, some (wsPoolFree c))
      | (.ok _, c) => (.ok (), some c)

end

variable {takes : ℕ → Except Rc ℕ} {data : Bytes}

theorem wsSendAll_ok {c c' : Conn} {u : Unit} (h : wsSendAll takes data c = (.ok u, c')) :
    c'.ends.outbox = c.ends.outbox ++ data := by
  obtain ⟨hrc, rfl⟩ := Prod.mk.inj h
  exact (trySendAll_ok (Prod.ext hrc rfl)).2

theorem oveHttpdWsSend_wire {conn conn' : Option Conn}
    (h : oveHttpdWsSend takes conn data = (.ok (), conn')) :
    ∃ c c', conn = some c ∧ conn' = some c' ∧
      c'.ends.outbox = c.ends.outbox ++ (wsHeader data.length ++ data) := by
  unfold oveHttpdWsSend at h
  split at h
  · simp at h
  rename_i c
  by_cases hactive : c.active = false
  · simp [hactive] at h
  rw [if_neg hactive] at h
  split at h
  · simp at h
  rename_i hheader
  have hsent := wsSendAll_ok hheader
  by_cases hempty : data.length = 0
  · rw [if_pos hempty] at h
    obtain ⟨-, rfl⟩ := Prod.mk.inj h
    exact ⟨c, _, rfl, rfl, by rw [hsent, eq_nil_of_length_eq_zero hempty, append_nil]⟩
  rw [if_neg hempty] at h
  split at h
  · simp at h
  rename_i hdata
  obtain ⟨-, rfl⟩ := Prod.mk.inj h
  exact ⟨c, _, rfl, rfl, by rw [wsSendAll_ok hdata, hsent, append_assoc]⟩

def headerForm (len : ℕ) : Form :=
  if len < 126 then .short else if len ≤ 0xffff then .medium else .long

theorem headerForm_shortest {len : ℕ} (h : len < 2 ^ 32) : (headerForm len).Shortest len := by
  unfold headerForm Form.Shortest
  split_ifs with hshort hmedium
  · refine ⟨Nat.le_of_lt_succ hshort, fun other _ => ?_⟩
    cases other <;> decide
  · refine ⟨Nat.lt_succ_of_le hmedium, fun other hother => ?_⟩
    cases other with
    | short => exact absurd (Nat.lt_succ_of_le hother) hshort
    | medium => exact Nat.le_refl _
    | long => decide
  · refine ⟨Nat.lt_trans h (by norm_num), fun other hother => ?_⟩
    cases other with
    | short => exact absurd (Nat.lt_succ_of_le hother) hshort
    | medium => exact absurd (Nat.le_of_lt_succ hother) hmedium
    | long => exact Nat.le_refl _

theorem wsHeader_eq {len : ℕ} (h : len < 2 ^ 32) :
    ∃ second field, wsHeader len = 0x81 :: second :: field ∧ second.toNat < 128 ∧
      ∀ rest, readLength second (field ++ rest) = some (headerForm len, len, rest) := by
  unfold wsHeader headerForm
  split_ifs with hshort hmedium
  · have hlen : (UInt8.ofNat len).toNat = len := by
      rw [UInt8.toNat_ofNat', Nat.mod_eq_of_lt (by omega)]
    refine ⟨.ofNat len, [], rfl, by omega, fun rest => ?_⟩
    rw [readLength, hlen, if_neg (by omega), if_neg (by omega), Nat.mod_eq_of_lt (by omega),
      nil_append]
  · have hfield : [.ofNat (len / 2 ^ 8), .ofNat len] = bigEndian 2 len := rfl
    refine ⟨126, bigEndian 2 len, by rw [hfield], by decide, fun rest => ?_⟩
    rw [readLength, if_pos (by decide), splitOff_append _ _ (length_bigEndian 2 len),
      Option.map_some, value_bigEndian (by omega)]
  · have hfield : [0, 0, 0, 0, .ofNat (len / 2 ^ 24), .ofNat (len / 2 ^ 16), .ofNat (len / 2 ^ 8),
        .ofNat len] = bigEndian 8 len := by
      have hhigh : len / 256 ^ 4 = 0 := Nat.div_eq_of_lt h
      rw [bigEndian_add 4 4, hhigh]
      simp [bigEndian, Nat.div_div_eq_div_mul]
    refine ⟨127, bigEndian 8 len, by rw [hfield], by decide, fun rest => ?_⟩
    rw [readLength, if_neg (by decide), if_pos (by decide),
      splitOff_append _ _ (length_bigEndian 8 len), Option.map_some, value_bigEndian (by omega)]

theorem decode_frame (h : data.length < 2 ^ 32) (rest : Bytes) :
    decode (wsHeader data.length ++ data ++ rest) =
      some (⟨true, 0, Opcode.text.code, headerForm data.length, none, data⟩, rest) := by
  obtain ⟨second, field, hheader, hunmasked, hlength⟩ := wsHeader_eq h
  have hmask (bs : Bytes) : readMask second bs = some (none, bs) := by
    rw [readMask, if_neg (by omega)]
  rw [hheader, append_assoc, cons_append, cons_append, decode, hlength]
  simp only [Option.bind_eq_bind, Option.bind_some, hmask, splitOff_append data rest rfl]
  rfl

/-- A send that returns `OVE_OK` has put one final, unmasked text frame on the wire and nothing
else. -/
theorem oveHttpdWsSend_ok {data : Bytes} (hlen : data.length < 2 ^ 32)
    {conn conn' : Option Conn} (h : oveHttpdWsSend takes conn data = (.ok (), conn')) :
    ∃ c c' wire form, conn = some c ∧ conn' = some c' ∧
      c'.ends.outbox = c.ends.outbox ++ wire ∧ form.Shortest data.length ∧
      decode wire = some (⟨true, 0, Opcode.text.code, form, none, data⟩, []) := by
  obtain ⟨c, c', hconn, hconn', hwire⟩ := oveHttpdWsSend_wire h
  have hdecode := decode_frame hlen []
  rw [append_nil] at hdecode
  exact ⟨c, c', _, _, hconn, hconn', hwire, headerForm_shortest hlen, hdecode⟩

theorem oveHttpdWsSend_three_bytes :
    ∃ c c' wire form, some (⟨true, [], [], 0⟩ : Conn) = some c ∧
      (oveHttpdWsSend (fun _ => .ok 1) (some ⟨true, [], [], 0⟩) [1, 2, 3]).2 = some c' ∧
      c'.ends.outbox = c.ends.outbox ++ wire ∧ Form.Shortest form 3 ∧
      decode wire = some (⟨true, 0, Opcode.text.code, form, none, [1, 2, 3]⟩, []) :=
  @oveHttpdWsSend_ok (fun _ => .ok 1) [1, 2, 3] (by decide) _ _ (by rfl)

theorem oveHttpdWsSend_eq_stream (p : WsStream.Peer) (data : Bytes) (c : WsStream.Conn) :
    oveHttpdWsSend (fun n => .ok (p.splits.takes n)) (some ⟨true, c.ends⟩) data =
      (.ok (), some ⟨true, (WsStream.oveHttpdWsSend p data c).ends⟩) := by
  have hall (data : Bytes) (c : Conn) : wsSendAll (fun n => .ok (p.splits.takes n)) data c =
      (.ok (), { c with ends := sendAll p.splits data c.ends }) := by
    rw [wsSendAll, trySendAll_eq_sendAll]
  rw [oveHttpdWsSend, if_neg (by simp), hall]
  dsimp only
  split_ifs with hempty
  · rw [eq_nil_of_length_eq_zero hempty]
    rfl
  · rw [hall]
    rfl

end Overtos.Httpd.WsOut
