import Overtos.Httpd.Request
import Overtos.Lib.Strtoul

/-! The body length that `parse_request` reads, and the one that the header section declares. -/
namespace Overtos.Httpd
open CStr Http List Option

structure CompleteHead (buf line : Bytes) (lines : List Bytes) (body : Bytes) : Prop where
  head : readHead (ofArray buf) = some (line :: lines, body)
  spaces : ∃ method rest, cut 0x20 line = some (method, rest) ∧ (cut 0x20 rest).isSome

def lengthFields (lines : List Bytes) : List Bytes :=
  lines.filterMap fun line => (cut 0x3a line).bind fun r =>
    if r.1.map lower = ascii "content-length" then some (trim r.2) else none

def declared (maxBody : ℕ) (value : Bytes) : ℤ :=
  match number value with
  | some v => if v ≤ maxBody then v else -1
  | none => -1

def LengthCorrect (arch : Arch) (maxBody : ℕ) (buf : Bytes) (lines : List Bytes) : Prop :=
  (lengthFields lines = [] → (parseRequest arch maxBody buf).1 = 0) ∧
    ∀ value ∈ lengthFields lines, (parseRequest arch maxBody buf).1 = declared maxBody value

def behindName (text : Bytes) : Option Bytes :=
  ((strstr text (ascii "Content-Length:")).or (strstr text (ascii "content-length:"))).map fun i =>
    text.drop (i + 15)

def ReadsAs (bits : ℕ) (text : Bytes) (v : ℕ) : Prop :=
  ∃ space sign digits rest, text = space ++ sign ++ digits ++ rest ∧ (∀ c ∈ space, isSpace c) ∧
    sign ∈ [[], [0x2b], [0x2d]] ∧ digits ≠ [] ∧ (∀ c ∈ digits, isDigit c) ∧
    (∀ c ∈ rest.head?, ¬isDigit c) ∧ digitsValue digits < 2 ^ bits ∧
    v = if sign = [0x2d] then (2 ^ bits - digitsValue digits) % 2 ^ bits else digitsValue digits

section
variable {bits : ℕ} {text : Bytes} {v : ℕ}

theorem strtoul_eq_some_iff : strtoul bits text = some (v, false) ↔ ReadsAs bits text v := by
  constructor
  · intro h
    obtain ⟨space, sgn, digits, hnum⟩ := @exists_numeral bits text (by simp [h])
    rw [hnum.strtoul_eq, some_inj] at h
    split_ifs at h with hbig
    · cases h
    exact ⟨space, sgn, digits, _, hnum.split, hnum.spaces, hnum.signed, hnum.nonempty, hnum.digit,
      hnum.ends, Nat.lt_of_not_le hbig, (Prod.mk.inj h).1.symm⟩
  · rintro ⟨space, sgn, digits, rest, hsplit, hspace, hsign, hne, hdigits, hrest, hlt, rfl⟩
    have hnum : Numeral text space sgn digits rest := ⟨hsplit, hspace, hsign, hne, hdigits, hrest⟩
    rw [hnum.strtoul_eq, if_neg (Nat.not_le.mpr hlt), signedValue]

end

def toInt (v : ℕ) : ℤ := (BitVec.ofNat 32 v).toInt

/-- The number behind the name that the search finds is the one that the fields declare, or both are
refused. -/
def SearchMeetsFields (arch : Arch) (maxBody : ℕ) (text : Bytes) (lines : List Bytes) : Prop :=
  match behindName text with
  | none => ∀ value ∈ lengthFields lines, number value = some 0
  | some found =>
    (lengthFields lines = [] → ∃ v ≤ maxBody, ReadsAs arch.bits found v ∧ toInt v = 0) ∧
    ∀ value ∈ lengthFields lines,
      (∀ u ≤ maxBody, number value = some u → ∃ v ≤ maxBody, ReadsAs arch.bits found v ∧
        toInt v = u) ∧
      ((∀ u ≤ maxBody, number value ≠ some u) → ∀ v ≤ maxBody, ReadsAs arch.bits found v →
        toInt v = -1)

theorem strtoul_dropWhile (bits : ℕ) (text : Bytes) :
    strtoul bits (text.dropWhile (· = 0x20)) = strtoul bits text := by
  have hskip : (text.dropWhile (· = 0x20)).dropWhile isSpace = text.dropWhile isSpace := by
    induction text with
    | nil => rfl
    | cons c text ih =>
      by_cases hc : c = 0x20
      · rw [dropWhile_cons_of_pos (by simpa using hc), ih,
          dropWhile_cons_of_pos (by simp [hc, isSpace])]
      · rw [dropWhile_cons_of_neg (by simpa using hc)]
  rw [strtoul, hskip, ← strtoul]

section
variable {arch : Arch} {maxBody : ℕ} {text found : Bytes}

theorem findContentLength_none (h : behindName text = none) :
    findContentLength arch maxBody text = 0 := by
  rw [behindName, map_eq_none_iff] at h
  rw [findContentLength, h]

theorem findContentLength_cases (h : behindName text = some found) :
    (∃ v ≤ maxBody, (∀ w, ReadsAs arch.bits found w ↔ w = v) ∧
      findContentLength arch maxBody text = toInt v) ∨
    (∀ v ≤ maxBody, ¬ReadsAs arch.bits found v) ∧ findContentLength arch maxBody text = -1 := by
  rw [behindName] at h
  obtain ⟨i, hi, rfl⟩ := map_eq_some_iff.mp h
  simp only [← strtoul_eq_some_iff]
  rw [findContentLength, hi]
  dsimp only
  rw [strtoul_dropWhile]
  rcases strtoul arch.bits (text.drop (i + 15)) with _ | ⟨v, _ | _⟩
  · exact .inr ⟨by simp, rfl⟩
  · by_cases hv : v ≤ maxBody
    · exact .inl ⟨v, hv, fun w => by simp [eq_comm], by simp [Nat.not_lt.mpr hv, toInt]⟩
    · refine .inr ⟨fun w hw h => ?_, by simp [Nat.lt_of_not_le hv]⟩
      cases h
      exact hv hw
  · exact .inr ⟨by simp, by simp⟩

theorem declared_cases (maxBody : ℕ) (value : Bytes) :
    (∃ v ≤ maxBody, number value = some v ∧ declared maxBody value = v) ∨
    (∀ v ≤ maxBody, number value ≠ some v) ∧ declared maxBody value = -1 := by
  rw [declared]
  rcases number value with _ | v
  · exact .inr ⟨by simp, rfl⟩
  · by_cases hv : v ≤ maxBody
    · exact .inl ⟨v, hv, rfl, if_pos hv⟩
    · refine .inr ⟨fun w hw heq => ?_, if_neg hv⟩
      cases heq
      exact hv hw

theorem findContentLength_eq_natCast_iff (h : behindName text = some found) (u : ℕ) :
    findContentLength arch maxBody text = u ↔
      ∃ v ≤ maxBody, ReadsAs arch.bits found v ∧ toInt v = u := by
  rcases findContentLength_cases h with ⟨v, hv, hreads, hr⟩ | ⟨hnone, hr⟩ <;> rw [hr]
  · simp [hreads, hv]
  · refine iff_of_false (by omega) ?_
    rintro ⟨v, hv, hread, -⟩
    exact hnone v hv hread

theorem findContentLength_eq_neg_one_iff (h : behindName text = some found) :
    findContentLength arch maxBody text = -1 ↔
      ∀ v ≤ maxBody, ReadsAs arch.bits found v → toInt v = -1 := by
  rcases findContentLength_cases h with ⟨v, hv, hreads, hr⟩ | ⟨hnone, hr⟩ <;> rw [hr]
  · refine ⟨fun heq w _ hw => ?_, fun hall => hall v hv ((hreads v).mpr rfl)⟩
    rw [(hreads w).mp hw, heq]
  · exact iff_of_true rfl fun v hv hread => absurd hread (hnone v hv)

theorem findContentLength_eq_declared_iff (h : behindName text = some found) (value : Bytes) :
    findContentLength arch maxBody text = declared maxBody value ↔
      (∀ u ≤ maxBody, number value = some u → ∃ v ≤ maxBody, ReadsAs arch.bits found v ∧
        toInt v = u) ∧
      ((∀ u ≤ maxBody, number value ≠ some u) → ∀ v ≤ maxBody, ReadsAs arch.bits found v →
        toInt v = -1) := by
  rcases declared_cases maxBody value with ⟨u, hu, hnum, hd⟩ | ⟨hbad, hd⟩
  · rw [hd, findContentLength_eq_natCast_iff h]
    constructor
    · intro hfound
      refine ⟨fun w _ hw => ?_, fun hall => absurd hnum (hall u hu)⟩
      rwa [← some.inj (hnum.symm.trans hw)]
    · exact fun hall => hall.1 u hu hnum
  · rw [hd, findContentLength_eq_neg_one_iff h]
    exact ⟨fun hall => ⟨fun u hu hnum => absurd hnum (hbad u hu), fun _ => hall⟩,
      fun hall => hall.2 hbad⟩

end

theorem CompleteHead.parseRequest_eq {buf line : Bytes} {lines : List Bytes} {body : Bytes}
    (h : CompleteHead buf line lines body) (arch : Arch) (maxBody : ℕ) :
    (parseRequest arch maxBody buf).1 = findContentLength arch maxBody (ofArray buf) := by
  have hbuf : ∃ rest, buf = line ++ rest := by
    obtain ⟨htext, -⟩ := readHead_eq_some_iff.mp h.head
    refine ⟨crlf ++ Http.head lines ++ body ++ buf.dropWhile (· ≠ 0), ?_⟩
    conv_lhs => rw [← takeWhile_append_dropWhile (p := (· ≠ 0)) (l := buf), ← ofArray, htext]
    simp [Http.head]
  obtain ⟨rest, rfl⟩ := hbuf
  obtain ⟨method, target, hmethod, htarget⟩ := h.spaces
  obtain ⟨⟨path, version⟩, hpath⟩ := isSome_iff_exists.mp htarget
  obtain ⟨rfl, hm⟩ := cut_eq_some hmethod
  obtain ⟨rfl, hp⟩ := cut_eq_some hpath
  rw [parseRequest, append_assoc, cons_append, cut_append hm]
  dsimp only
  rw [append_assoc, cons_append, cut_append hp]

/-- The length returned is the one declared exactly if the number found in the text is the one in
the fields. -/
theorem content_length_iff (arch : Arch) (maxBody : ℕ) (buf line : Bytes) (lines : List Bytes)
    (body : Bytes) (h : CompleteHead buf line lines body) :
    LengthCorrect arch maxBody buf lines ↔
      SearchMeetsFields arch maxBody (ofArray buf) lines := by
  rw [LengthCorrect, h.parseRequest_eq, SearchMeetsFields]
  cases hfound : behindName (ofArray buf) with
  | none =>
    rw [findContentLength_none hfound]
    simp only [implies_true, true_and]
    refine forall₂_congr fun value _ => ?_
    rcases declared_cases maxBody value with ⟨v, -, hnum, hd⟩ | ⟨hbad, hd⟩
    · rw [hd, hnum, some_inj, eq_comm, Nat.cast_eq_zero]
    · exact iff_of_false (by omega) (hbad 0 (Nat.zero_le _))
  | some found =>
    dsimp only
    refine and_congr (imp_congr_right fun _ => ?_) (forall₂_congr fun value _ => ?_)
    · exact findContentLength_eq_natCast_iff hfound 0
    · exact findContentLength_eq_declared_iff hfound value

def posted : Bytes := ascii "POST /a HTTP/1.1\r\nContent-Length: 5\r\n\r\nhello"

theorem posted_complete : CompleteHead posted (ascii "POST /a HTTP/1.1")
    [ascii "Content-Length: 5"] (ascii "hello") :=
  ⟨by decide +kernel, ascii "POST", ascii "/a HTTP/1.1", by decide +kernel, by decide +kernel⟩

theorem posted_search : SearchMeetsFields .arm32 1024 (ofArray posted)
    [ascii "Content-Length: 5"] := by
  have hfound : behindName (ofArray posted) = some (ascii " 5\r\n\r\nhello") := by decide +kernel
  have hfields : lengthFields [ascii "Content-Length: 5"] = [ascii "5"] := by decide +kernel
  have hnumber : number (ascii "5") = some 5 := by decide +kernel
  have hreads : ReadsAs Arch.arm32.bits (ascii " 5\r\n\r\nhello") 5 :=
    strtoul_eq_some_iff.mp (by decide +kernel)
  rw [SearchMeetsFields, hfound, hfields]
  simp only [mem_singleton, forall_eq, hnumber]
  refine ⟨by simp, ?_, fun hall => absurd rfl (hall 5 (by decide))⟩
  intro u _ hu
  rw [← some.inj hu]
  exact ⟨5, by decide, hreads, by decide⟩

theorem posted_length_five :
    CompleteHead posted (ascii "POST /a HTTP/1.1") [ascii "Content-Length: 5"] (ascii "hello") ∧
      LengthCorrect .arm32 1024 posted [ascii "Content-Length: 5"] :=
  ⟨posted_complete, (content_length_iff _ _ _ _ _ _ posted_complete).mpr posted_search⟩

theorem length_from_target_and_capitals :
    CompleteHead (ascii "GET /?Content-Length:5 HTTP/1.1\r\n\r\n")
        (ascii "GET /?Content-Length:5 HTTP/1.1") [] [] ∧
      (parseRequest .arm32 1024 (ascii "GET /?Content-Length:5 HTTP/1.1\r\n\r\n")).1 = 5 ∧
      ¬LengthCorrect .arm32 1024 (ascii "GET /?Content-Length:5 HTTP/1.1\r\n\r\n") [] ∧
    CompleteHead (ascii "POST /a HTTP/1.1\r\nCONTENT-LENGTH: 5\r\n\r\nhello")
        (ascii "POST /a HTTP/1.1") [ascii "CONTENT-LENGTH: 5"] (ascii "hello") ∧
      (parseRequest .arm32 1024
        (ascii "POST /a HTTP/1.1\r\nCONTENT-LENGTH: 5\r\n\r\nhello")).1 = 0 ∧
      ¬LengthCorrect .arm32 1024 (ascii "POST /a HTTP/1.1\r\nCONTENT-LENGTH: 5\r\n\r\nhello")
        [ascii "CONTENT-LENGTH: 5"] := by
  refine ⟨⟨by decide +kernel, ascii "GET", ascii "/?Content-Length:5 HTTP/1.1", by decide +kernel,
    by decide +kernel⟩, by decide +kernel, fun h => ?_, ⟨by decide +kernel, ascii "POST",
    ascii "/a HTTP/1.1", by decide +kernel, by decide +kernel⟩, by decide +kernel, fun h => ?_⟩
  · exact absurd (h.1 (by decide +kernel)) (by decide +kernel)
  · exact absurd (h.2 (ascii "5") (by decide +kernel)) (by decide +kernel)

end Overtos.Httpd
