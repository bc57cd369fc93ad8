import Overtos.Lib.Strtoul
import Overtos.Types

/-! `parse_url` of the HTTP client, and the URLs that it ought to take. -/
namespace Overtos.HttpClient
open CStr Http List Option

def colon : UInt8 := 0x3a

def slash : UInt8 := 0x2f

structure Url where
  useTls : Bool
  host : Bytes
  port : ℕ
  path : Bytes
  deriving DecidableEq, Repr

def schemeText (tls : Bool) : Bytes := if tls then ascii "https://" else ascii "http://"

def defaultPort (tls : Bool) : ℕ := if tls then 443 else 80

def takeScheme (url : Bytes) : Option (Bool × Bytes) :=
  if (schemeText true).isPrefixOf url then some (true, url.drop 8)
  else if (schemeText false).isPrefixOf url then some (false, url.drop 7)
  else none

def endsHost (c : UInt8) : Bool := c = colon ∨ c = slash

def takePort (arch : Arch) (dflt : ℕ) : Bytes → Option (ℕ × Bytes)
  | [] => some (dflt, [])
  | c :: text =>
    if c = colon then
      match strtoul arch.bits text with
      | none => none
      | some (p, _) => if p = 0 ∨ 65535 < p then none else some (p % 2 ^ 16, strtoulEnd text)
    else some (dflt, c :: text)

def pathOf (hostEnd : Bytes) : Bytes := if hostEnd.head? = some slash then hostEnd else [slash]

def parseUrl (arch : Arch) (hostSz : ℕ) (url : CString) : Except Rc Url :=
  match takeScheme url.bytes with
  | none => .error .errInvalidParam
  | some (useTls, rest) =>
    let host := rest.takeWhile fun c => !endsHost c
    if host.length = 0 ∨ hostSz ≤ host.length then .error .errInvalidParam else
    match takePort arch (defaultPort useTls) (rest.dropWhile fun c => !endsHost c) with
    | none => .error .errInvalidParam
    | some (port, hostEnd) =>
      if 256 < (pathOf hostEnd).length then .error .errInvalidParam
      else .ok ⟨useTls, host, port, pathOf hostEnd⟩

def IsHost (hostSz : ℕ) (host : Bytes) : Prop :=
  host ≠ [] ∧ (∀ c ∈ host, endsHost c = false) ∧ host.length < hostSz

def PortText (dflt port : ℕ) (text : Bytes) : Prop :=
  text = [] ∧ port = dflt ∨
    ∃ digits, text = colon :: digits ∧ digits ≠ [] ∧ (∀ c ∈ digits, isDigit c) ∧
      digitsValue digits = port ∧ 1 ≤ port ∧ port ≤ 65535

def PathText (path text : Bytes) : Prop :=
  text = [] ∧ path = [slash] ∨ text = path ∧ path.head? = some slash ∧ path.length ≤ 256

def Parts (hostSz : ℕ) (url : Bytes) (u : Url) : Prop :=
  ∃ port path, url = schemeText u.useTls ++ u.host ++ port ++ path ∧ IsHost hostSz u.host ∧
    PortText (defaultPort u.useTls) u.port port ∧ PathText u.path path

def ParsesExactly (arch : Arch) (hostSz : ℕ) (url : CString) : Prop :=
  ∀ u, parseUrl arch hostSz url = .ok u ↔ Parts hostSz url.bytes u

/-- A port that `strtoul` reads although it is not just digits up to a path. -/
def LenientPort (arch : Arch) (text : Bytes) : Prop :=
  ∃ space sgn digits tail, Numeral text space sgn digits tail ∧
    digitsValue digits < 2 ^ arch.bits ∧ 1 ≤ signedValue arch.bits sgn digits ∧
    signedValue arch.bits sgn digits ≤ 65535 ∧ (pathOf tail).length ≤ 256 ∧
    (space ++ sgn ≠ [] ∨ tail ≠ [] ∧ tail.head? ≠ some slash)

def Lenient (arch : Arch) (hostSz : ℕ) (url : Bytes) : Prop :=
  ∃ tls host text, url = schemeText tls ++ host ++ colon :: text ∧ IsHost hostSz host ∧
    LenientPort arch text

section

variable {arch : Arch} {hostSz : ℕ} {url : CString} {u : Url}

theorem takeScheme_eq_some_iff {bytes rest : Bytes} {tls : Bool} :
    takeScheme bytes = some (tls, rest) ↔ bytes = schemeText tls ++ rest := by
  have hsecure : (schemeText true).length = 8 := by decide +kernel
  have hplain : (schemeText false).length = 7 := by decide +kernel
  rw [takeScheme, ← hsecure, ← hplain]
  constructor
  · intro h
    split_ifs at h with htrue hfalse
    · obtain ⟨rest', rfl⟩ := isPrefixOf_iff_prefix.mp htrue
      rw [drop_left, some_inj, Prod.mk.injEq] at h
      rw [← h.1, ← h.2]
    · obtain ⟨rest', rfl⟩ := isPrefixOf_iff_prefix.mp hfalse
      rw [drop_left, some_inj, Prod.mk.injEq] at h
      rw [← h.1, ← h.2]
  · rintro rfl
    cases tls with
    | true => rw [if_pos (by simp), drop_left]
    | false =>
      have hno : (schemeText true).isPrefixOf (schemeText false ++ rest) = false := rfl
      rw [hno, if_neg Bool.false_ne_true, if_pos (by simp), drop_left]

theorem host_split {host after : Bytes} (hhost : ∀ c ∈ host, endsHost c = false)
    (hafter : ∀ c ∈ after.head?, endsHost c = true) :
    (host ++ after).takeWhile (fun c => !endsHost c) = host ∧
      (host ++ after).dropWhile (fun c => !endsHost c) = after := by
  have hin : ∀ c ∈ host, (!endsHost c) = true := fun c hc => by rw [hhost c hc]; rfl
  rw [takeWhile_append_of_pos hin, dropWhile_append_of_pos hin]
  cases after with
  | nil => simp
  | cons c rest =>
    have hc : endsHost c = true := hafter c rfl
    simp [hc]

theorem takePort_eq_some_iff {dflt port : ℕ} {after tail : Bytes} :
    takePort arch dflt after = some (port, tail) ↔
      after.head? ≠ some colon ∧ port = dflt ∧ tail = after ∨
      ∃ text space sgn digits, after = colon :: text ∧ Numeral text space sgn digits tail ∧
        digitsValue digits < 2 ^ arch.bits ∧ signedValue arch.bits sgn digits = port ∧
        1 ≤ port ∧ port ≤ 65535 := by
  cases after with
  | nil => simp [takePort, eq_comm]
  | cons c text =>
    rw [takePort]
    by_cases hcolon : c = colon
    · subst hcolon
      have hbits := arch.two_pow_bits_ge
      simp only [if_true, head?_cons, ne_eq, not_true_eq_false, false_and, false_or]
      constructor
      · intro h
        cases hread : strtoul arch.bits text with
        | none => simp [hread] at h
        | some r =>
          obtain ⟨p, errno⟩ := r
          rw [hread] at h
          dsimp only at h
          split_ifs at h with hrange
          obtain ⟨rfl, rfl⟩ := Prod.mk.inj (some.inj h)
          obtain ⟨space, sgn, digits, hnum⟩ := @exists_numeral arch.bits text (by simp [hread])
          rw [hnum.strtoul_eq, some_inj] at hread
          split_ifs at hread with hbig
          · obtain ⟨rfl, -⟩ := Prod.mk.inj hread
            omega
          · obtain ⟨rfl, -⟩ := Prod.mk.inj hread
            rw [Nat.mod_eq_of_lt (by omega)]
            exact ⟨text, space, sgn, digits, rfl, hnum, by omega, rfl, by omega, by omega⟩
      · rintro ⟨text', space, sgn, digits, hafter, hnum, hlt, hport, hpos, hle⟩
        obtain rfl := (cons.inj hafter).2
        rw [hnum.strtoul_eq, if_neg (by omega), hnum.strtoulEnd_eq, hport]
        dsimp only
        rw [if_neg (by omega), Nat.mod_eq_of_lt (by omega)]
    · rw [if_neg hcolon]
      constructor
      · intro h
        obtain ⟨rfl, rfl⟩ := Prod.mk.inj (some.inj h)
        exact Or.inl ⟨by simpa using hcolon, rfl, rfl⟩
      · rintro (⟨-, rfl, rfl⟩ | ⟨text', _, _, _, hafter, -⟩)
        · rfl
        · exact absurd (cons.inj hafter).1 hcolon

theorem parseUrl_eq_ok_iff : parseUrl arch hostSz url = .ok u ↔
    ∃ after tail, url.bytes = schemeText u.useTls ++ u.host ++ after ∧ IsHost hostSz u.host ∧
      (∀ c ∈ after.head?, endsHost c = true) ∧
      takePort arch (defaultPort u.useTls) after = some (u.port, tail) ∧ u.path = pathOf tail ∧
      u.path.length ≤ 256 := by
  constructor
  · intro h
    unfold parseUrl at h
    split at h
    · cases h
    rename_i tls rest hscheme
    dsimp only at h
    split_ifs at h with hhost
    split at h
    · cases h
    rename_i port tail hport
    split_ifs at h with hpath
    obtain rfl := Except.ok.inj h
    refine ⟨_, tail, ?_, ⟨?_, ?_, ?_⟩, ?_, hport, rfl, Nat.le_of_not_lt hpath⟩
    · rw [append_assoc, takeWhile_append_dropWhile]
      exact takeScheme_eq_some_iff.mp hscheme
    · intro hnil
      exact hhost (Or.inl (congrArg length hnil))
    · intro c hc
      simpa using mem_takeWhile_imp hc
    · exact Nat.lt_of_not_le fun hbig => hhost (Or.inr hbig)
    · intro c hc
      have hhead := head?_dropWhile_not (fun c => !endsHost c) rest
      rw [mem_def.mp hc] at hhead
      simpa using hhead
  · rintro ⟨after, tail, hurl, ⟨hne, hhost, hfits⟩, hafter, hport, hpath, hlen⟩
    rw [append_assoc] at hurl
    obtain ⟨htake, hdrop⟩ := host_split hhost hafter
    rw [hpath] at hlen
    rw [parseUrl, takeScheme_eq_some_iff.mpr hurl]
    dsimp only
    have hpos := length_pos_of_ne_nil hne
    rw [htake, hdrop, hport, if_neg (by omega)]
    dsimp only
    rw [if_neg (by omega), ← hpath]

theorem parseUrl_path_ne_nil (h : parseUrl arch hostSz url = .ok u) : u.path ≠ [] := by
  obtain ⟨after, tail, -, -, -, -, hpath, -⟩ := parseUrl_eq_ok_iff.mp h
  rw [hpath, pathOf]
  split_ifs with hhead
  · rintro rfl
    cases hhead
  · simp

theorem pathText_iff {path tail : Bytes}
    (htail : tail = [] ∨ tail.head? = some slash) :
    PathText path tail ↔ path = pathOf tail ∧ path.length ≤ 256 := by
  rcases htail with rfl | hhead
  · constructor
    · rintro (⟨-, rfl⟩ | ⟨rfl, hnone, -⟩)
      · exact ⟨rfl, by simp⟩
      · cases hnone
    · rintro ⟨rfl, -⟩
      exact Or.inl ⟨rfl, rfl⟩
  · rw [pathOf, if_pos hhead]
    constructor
    · rintro (⟨rfl, -⟩ | ⟨rfl, -, hlen⟩)
      · cases hhead
      · exact ⟨rfl, hlen⟩
    · rintro ⟨rfl, hlen⟩
      exact Or.inr ⟨rfl, hhead, hlen⟩

theorem PathText.start {path text : Bytes} (h : PathText path text) :
    text = [] ∨ text.head? = some slash := by
  rcases h with ⟨hnil, -⟩ | ⟨rfl, hhead, -⟩
  · exact Or.inl hnil
  · exact Or.inr hhead

theorem PortText.start {dflt port : ℕ} {text path tail : Bytes} (h : PortText dflt port text)
    (hpath : PathText path tail) : ∀ c ∈ (text ++ tail).head?, endsHost c = true := by
  intro c hc
  rcases h with ⟨rfl, -⟩ | ⟨digits, rfl, -⟩
  · rw [nil_append] at hc
    rcases hpath.start with rfl | hhead
    · cases hc
    · rw [hhead, mem_some] at hc
      rw [← hc]
      rfl
  · rw [cons_append, head?_cons, mem_some] at hc
    rw [← hc]
    rfl

theorem numeral_of_digits {digits path tail : Bytes} (hne : digits ≠ [])
    (hdigits : ∀ c ∈ digits, isDigit c) (hpath : PathText path tail) :
    Numeral (digits ++ tail) [] [] digits tail := by
  refine ⟨rfl, by simp, by simp, hne, hdigits, fun c hc => ?_⟩
  rcases hpath.start with rfl | hhead
  · cases hc
  · rw [hhead, mem_some] at hc
    rw [← hc]
    decide

theorem parseUrl_of_parts (h : Parts hostSz url.bytes u) : parseUrl arch hostSz url = .ok u := by
  obtain ⟨port, path, hurl, hhost, hport, hpath⟩ := h
  obtain ⟨hpathOf, hlen⟩ := (pathText_iff hpath.start).mp hpath
  rw [append_assoc] at hurl
  refine parseUrl_eq_ok_iff.mpr ⟨port ++ path, path, hurl, hhost, hport.start hpath, ?_, hpathOf,
    hlen⟩
  rw [takePort_eq_some_iff]
  rcases hport with ⟨rfl, hdflt⟩ | ⟨digits, rfl, hne, hdigits, hvalue, hpos, hle⟩
  · refine Or.inl ⟨?_, hdflt, rfl⟩
    rw [nil_append]
    rcases hpath.start with rfl | hhead
    · simp
    · rw [hhead]
      decide
  · have hbits := arch.two_pow_bits_ge
    exact Or.inr ⟨digits ++ path, [], [], digits, rfl, numeral_of_digits hne hdigits hpath,
      by omega, hvalue, hpos, hle⟩

theorem parts_or_lenient (h : parseUrl arch hostSz url = .ok u) :
    Parts hostSz url.bytes u ∨ Lenient arch hostSz url.bytes := by
  obtain ⟨after, tail, hurl, hhost, hafter, hport, hpath, hlen⟩ := parseUrl_eq_ok_iff.mp h
  rcases takePort_eq_some_iff.mp hport with ⟨hcolon, hdflt, rfl⟩ |
    ⟨text, space, sgn, digits, rfl, hnum, hlt, hvalue, hpos, hle⟩
  · left
    have hstart : tail = [] ∨ tail.head? = some slash := by
      cases tail with
      | nil => exact Or.inl rfl
      | cons c rest =>
        have hc : c = colon ∨ c = slash := by simpa [endsHost] using hafter c rfl
        rcases hc with rfl | rfl
        · exact absurd rfl hcolon
        · exact Or.inr rfl
    exact ⟨[], tail, by rw [append_nil, hurl], hhost, Or.inl ⟨rfl, hdflt⟩,
      (pathText_iff hstart).mpr ⟨hpath, hlen⟩⟩
  · by_cases hplain : space ++ sgn = [] ∧ (tail = [] ∨ tail.head? = some slash)
    · left
      obtain ⟨hnone, hstart⟩ := hplain
      obtain ⟨rfl, rfl⟩ := append_eq_nil_iff.mp hnone
      refine ⟨colon :: digits, tail, ?_, hhost, Or.inr ⟨digits, rfl, hnum.nonempty, hnum.digit,
        hvalue, hpos, hle⟩, (pathText_iff hstart).mpr ⟨hpath, hlen⟩⟩
      rw [hurl, hnum.split]
      simp
    · right
      refine ⟨u.useTls, u.host, text, hurl, hhost, space, sgn, digits, tail, hnum, hlt, ?_, ?_,
        hpath ▸ hlen, ?_⟩
      · rwa [hvalue]
      · rwa [hvalue]
      · tauto

theorem parseUrl_of_lenient (h : Lenient arch hostSz url.bytes) :
    ∃ u, parseUrl arch hostSz url = .ok u := by
  obtain ⟨tls, host, text, hurl, hhost, space, sgn, digits, tail, hnum, hlt, hpos, hle, hlen, -⟩ :=
    h
  refine ⟨⟨tls, host, signedValue arch.bits sgn digits, pathOf tail⟩, parseUrl_eq_ok_iff.mpr
    ⟨colon :: text, tail, hurl, hhost, ?_, takePort_eq_some_iff.mpr (Or.inr
      ⟨text, space, sgn, digits, rfl, hnum, hlt, rfl, hpos, hle⟩), rfl, hlen⟩⟩
  intro c hc
  rw [head?_cons, mem_some] at hc
  rw [← hc]
  rfl

theorem not_parts_of_lenient (h : Lenient arch hostSz url.bytes) : ¬Parts hostSz url.bytes u := by
  rintro ⟨port, path, hurl', hhost', hport, hpath⟩
  obtain ⟨tls, host, text, hurl, hhost, space, sgn, digits, tail, hnum, -, -, -, -, hlenient⟩ := h
  rw [append_assoc] at hurl
  rw [append_assoc, append_assoc] at hurl'
  have hscheme := takeScheme_eq_some_iff.mpr hurl
  rw [takeScheme_eq_some_iff.mpr hurl', some_inj, Prod.mk.injEq] at hscheme
  have hsplit := (@host_split host (colon :: text) hhost.2.1 (by simp [endsHost])).2
  rw [← hscheme.2, (host_split hhost'.2.1 (hport.start hpath)).2] at hsplit
  rcases hport with ⟨rfl, -⟩ | ⟨digits', rfl, hne, hdigits, -⟩
  · rw [nil_append] at hsplit
    rcases hpath.start with rfl | hhead
    · cases hsplit
    · rw [hsplit] at hhead
      simp [colon, slash] at hhead
  · -- The same digits, read as a plain number: nothing stands before them, and a path behind.
    obtain rfl := (cons.inj hsplit).2
    have hplain := numeral_of_digits hne hdigits hpath
    have htail : tail = path := hnum.strtoulEnd_eq.symm.trans hplain.strtoulEnd_eq
    subst htail
    have hsame := append_cancel_right (hplain.split.symm.trans hnum.split)
    rcases hlenient with hbefore | ⟨hne', hhead⟩
    · obtain ⟨c, hc⟩ := exists_mem_of_ne_nil _ hbefore
      have hdigit : isDigit c := hdigits c (by
        rw [nil_append, nil_append] at hsame
        rw [hsame]
        exact mem_append_left _ hc)
      exact hnum.not_isDigit hc hdigit
    · exact hpath.start.elim hne' hhead

end

theorem trailingUrl_noNul : ∀ b ∈ ascii "http://h:80abc", b ≠ 0 := by decide +kernel

def trailingUrl : CString := ⟨ascii "http://h:80abc", trailingUrl_noNul⟩

theorem parseUrl_drops_trailing :
    parseUrl .arm32 128 trailingUrl = .ok ⟨false, ascii "h", 80, ascii "/"⟩ ∧
      ¬ParsesExactly .arm32 128 trailingUrl := by
  have hparse : parseUrl .arm32 128 trailingUrl = .ok ⟨false, ascii "h", 80, ascii "/"⟩ := by
    rfl
  have hnum : Numeral (ascii "80abc") [] [] (ascii "80") (ascii "abc") :=
    ⟨rfl, by simp, by simp, by decide +kernel, by decide +kernel, by decide +kernel⟩
  have hlenient : Lenient .arm32 128 trailingUrl.bytes :=
    ⟨false, ascii "h", ascii "80abc", rfl,
      ⟨by decide +kernel, by decide +kernel, by decide +kernel⟩, [], [], ascii "80", ascii "abc",
      hnum, by decide +kernel, by decide +kernel, by decide +kernel, by decide +kernel,
      by decide +kernel⟩
  exact ⟨hparse, fun h => not_parts_of_lenient hlenient ((h _).mp hparse)⟩

/-- `parse_url` takes exactly the URLs that it ought to unless the port is read leniently. -/
theorem parsesExactly_iff (arch : Arch) (hostSz : ℕ) (url : CString) :
    ParsesExactly arch hostSz url ↔ ¬Lenient arch hostSz url.bytes := by
  constructor
  · intro h hlenient
    obtain ⟨u, hu⟩ := parseUrl_of_lenient hlenient
    exact not_parts_of_lenient hlenient ((h u).mp hu)
  · intro h u
    exact ⟨fun hu => (parts_or_lenient hu).resolve_right h, parseUrl_of_parts⟩

end Overtos.HttpClient
