import Overtos.Httpd.Base64
import Overtos.Httpd.Once
import Overtos.Httpd.Sha1

/-! The text that the WebSocket handshake sends as `Sec-WebSocket-Accept`. -/
namespace Overtos.Httpd
open CStr
open List hiding Vector

/-- `hash` and `accept` are the two arrays as the call finds them. -/
def wsAccept (arch : Arch) (hash : Vector UInt8 20) (accept : Vector UInt8 32) (concat : Bytes) :
    Option Bytes := do
  let (hash, _) ← Sha.oveSha1 concat concat.length hash.toList []
  let (_, accept) ← B64.oveBase64Encode arch hash 20 accept.toList 32
  return ofArray accept

theorem encode_ne_zero (bs : Bytes) : ∀ c ∈ Base64.encode bs, c ≠ 0 := by
  obtain ⟨body, hbody, hchars⟩ := Base64.encode_eq bs
  have hchar : ∀ v < 64, Base64.char v ≠ 0 := by decide +kernel
  intro c hc
  rw [hbody] at hc
  rcases mem_append.mp hc with hc | hc
  · obtain ⟨v, hv, rfl⟩ := hchars c hc
    exact hchar v hv
  · rw [eq_of_mem_replicate hc]
    decide

theorem length_digest (bs : Bytes) : (Sha1.digest bs).length = 20 := by
  simp [Sha1.digest, Sha1.State.words]

variable {hash : Vector UInt8 20} {accept : Vector UInt8 32}

theorem wsAccept_eq {arch : Arch} {concat : Bytes} (h : concat.length < 128) :
    wsAccept arch hash accept concat = some (Base64.encode (Sha1.digest concat)) := by
  have hsha : Sha.oveSha1 concat concat.length hash.toList [] =
      some (Sha1.digest concat, range concat.length) := by
    rw [← take_append_drop (64 * (concat.length / 64)) concat] at h ⊢
    refine Sha.oveSha1_append (n := concat.length / 64) ?_ ?_ (h.trans (by decide)) hash
    · rw [length_take]
      omega
    · rw [length_drop]
      omega
  have hlength := length_digest concat
  have hencode := @B64.oveBase64Encode_run arch (Sha1.digest concat) accept.toList
    (by rw [hlength]; decide) (by rw [hlength, Vector.length_toList]; decide)
  rw [hlength, Vector.length_toList] at hencode
  simp only [wsAccept, hsha, hencode, Option.bind_eq_bind, Option.bind_some]
  exact congrArg some (ofArray_append_zero (encode_ne_zero _) _)

theorem wsKey_length {headers key : Bytes} (h : wsKey headers = some key) : key.length ≤ 63 := by
  obtain ⟨i, -, rfl⟩ := Option.map_eq_some_iff.mp h
  rw [length_reverse]
  refine (dropWhile_sublist _).length_le.trans ?_
  rw [length_reverse]
  exact (takeWhile_sublist _).length_le.trans (length_take_le ..)

/-- Given a route, a key and a free slot, the client is sent the RFC 6455 value of its key. -/
theorem handshake_accepts {cfg : Config} (haccept : ∀ concat : Bytes, concat.length < 128 →
      wsAccept cfg.arch hash accept concat = some (cfg.accept concat).1)
    {p : Peer} (hs : SendsSucceed p.sends) {c : Conn} (hc : Fresh p c) {s : Server}
    {headers path route key : Bytes} {slot : ℕ} (hroute : wsMatchRoute id s.wsRoutes path = route)
    (hkey : wsKey headers = key) (hslot : s.pool.idxOf? false = slot) :
    ∃ c', oveHttpdWsHandshake cfg s headers path c = .upgraded (s.pool.set slot true) c' ∧
      let m := switchingProtocols (Base64.encode (Sha1.digest (key ++ wsMagic)))
      c'.replies = [⟨m, m.header.length, []⟩] := by
  have hlength : (key ++ wsMagic).length < 128 := by
    have hmagic : wsMagic.length = 36 := by decide +kernel
    have hshort := wsKey_length hkey
    rw [length_append]
    omega
  have hsame := Option.some.inj ((haccept _ hlength).symm.trans (wsAccept_eq hlength))
  generalize hm : switchingProtocols (Base64.encode (Sha1.digest (key ++ wsMagic))) = m
  have hpos : m.header.length ≠ 0 := by simp [← hm, switchingProtocols, ascii]
  obtain ⟨k, hk⟩ := @wsSendAll_spec c (hc.sends ▸ hs) _ m.header le_rfl
  simp only [oveHttpdWsHandshake, hroute, hkey, hslot, hsame, hm, hk]
  rw [if_neg (Nat.not_le.mpr hlength)]
  exact ⟨_, rfl, by simp [hpos, hc.replies]⟩

def hashingBuild : Config :=
  { plainBuild with accept := fun concat => ⟨Base64.encode (Sha1.digest concat), by
      rw [Base64.length_encode, length_digest]
      decide⟩ }

theorem handshake_accepts_key : ∃ c',
    oveHttpdWsHandshake hashingBuild ⟨[], [[0x2f]], [false]⟩
      (ascii "Sec-WebSocket-Key: x3Jh\r\n") [0x2f] (.accepted rootClient) = .upgraded [true] c' ∧
      let m := switchingProtocols (Base64.encode (Sha1.digest (ascii "x3Jh" ++ wsMagic)))
      c'.replies = [⟨m, m.header.length, []⟩] :=
  @handshake_accepts (.replicate 20 7) (.replicate 32 7) hashingBuild (fun _ h => wsAccept_eq h) _
    rootClient_sends _ ⟨rfl, rfl, rfl⟩ ⟨[], [[0x2f]], [false]⟩ _ _ [0x2f] _ 0 (by decide +kernel)
    (by decide +kernel) rfl

end Overtos.Httpd
