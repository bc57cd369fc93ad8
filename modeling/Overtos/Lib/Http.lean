import Mathlib.Data.List.DropRight
import Overtos.Lib.CString

/-! Messages of HTTP/1.1: lines that CRLF ends, header fields, and responses. -/
namespace Http
open CStr List Option

def crlf : Bytes := [0x0d, 0x0a]

def OneLine (s : Bytes) : Prop := 0x0d ∉ s ∧ 0x0a ∉ s

instance (s : Bytes) : Decidable (OneLine s) := inferInstanceAs (Decidable (_ ∧ _))

def readLine : Bytes → Option (Bytes × Bytes)
  | [] => none
  | c :: rest =>
    if c = 0x0d then
      if rest.head? = some 0x0a then some ([], rest.tail) else none
    else if c = 0x0a then none
    else (readLine rest).map fun r => (c :: r.1, r.2)

def readLines : ℕ → Bytes → Option (List Bytes × Bytes)
  | 0, _ => none
  | fuel + 1, bs =>
    (readLine bs).bind fun r =>
      if r.1 = [] then some ([], r.2)
      else (readLines fuel r.2).map fun q => (r.1 :: q.1, q.2)

def readHead (bs : Bytes) : Option (List Bytes × Bytes) := readLines bs.length bs

def head (lines : List Bytes) : Bytes := lines.flatMap (· ++ crlf) ++ crlf

def IsLine (s : Bytes) : Prop := s ≠ [] ∧ OneLine s

variable {c : UInt8} {s bs line rest : Bytes} {lines : List Bytes}

theorem oneLine_cons : OneLine (c :: s) ↔ c ≠ 0x0d ∧ c ≠ 0x0a ∧ OneLine s := by
  simp only [OneLine, mem_cons, not_or, eq_comm (b := c)]
  tauto

theorem readLine_eq_some_iff :
    readLine bs = some (line, rest) ↔ bs = line ++ crlf ++ rest ∧ OneLine line := by
  induction bs generalizing line with
  | nil => simp [readLine, crlf]
  | cons c bs ih =>
    rw [readLine]
    split_ifs with hcr hlf hbare
    · -- the line ends here
      obtain ⟨tail, rfl⟩ : ∃ tail, bs = 0x0a :: tail := by
        cases bs with
        | nil => simp at hlf
        | cons d tail => exact ⟨tail, by simpa using hlf⟩
      subst hcr
      constructor
      · intro h
        cases h
        exact ⟨rfl, by simp [OneLine]⟩
      · rintro ⟨h, hline⟩
        cases line with
        | nil => simpa [crlf] using h
        | cons d line => exact absurd (cons.inj h).1.symm (oneLine_cons.mp hline).1
    · subst hcr
      refine iff_of_false (by simp) ?_
      rintro ⟨h, hline⟩
      cases line with
      | nil =>
        apply hlf
        rw [(cons.inj h).2]
        rfl
      | cons d line => exact (oneLine_cons.mp hline).1 (cons.inj h).1.symm
    · subst hbare
      refine iff_of_false (by simp) ?_
      rintro ⟨h, hline⟩
      cases line with
      | nil => exact absurd (cons.inj h).1 (by decide)
      | cons d line => exact (oneLine_cons.mp hline).2.1 (cons.inj h).1.symm
    · rw [map_eq_some_iff]
      constructor
      · rintro ⟨⟨l, r⟩, hread, heq⟩
        cases heq
        obtain ⟨rfl, hl⟩ := ih.mp hread
        exact ⟨rfl, oneLine_cons.mpr ⟨hcr, hbare, hl⟩⟩
      · rintro ⟨h, hline⟩
        cases line with
        | nil => exact absurd (cons.inj h).1 hcr
        | cons d line =>
          obtain ⟨rfl, hbs⟩ := cons.inj h
          exact ⟨(line, rest), ih.mpr ⟨hbs, (oneLine_cons.mp hline).2.2⟩, rfl⟩

theorem head_cons (line : Bytes) (lines : List Bytes) :
    head (line :: lines) = line ++ crlf ++ head lines := by
  rw [head, flatMap_cons, append_assoc, ← head]

theorem length_lt_head (lines : List Bytes) : lines.length < (head lines).length := by
  induction lines with
  | nil => decide
  | cons line lines ih =>
    rw [head_cons, length_append, length_append, length_cons]
    have hcrlf : crlf.length = 2 := rfl
    omega

theorem readLines_eq_some {fuel : ℕ} (h : readLines fuel bs = some (lines, rest)) :
    bs = head lines ++ rest ∧ ∀ line ∈ lines, IsLine line := by
  induction fuel generalizing bs lines with
  | zero => simp [readLines] at h
  | succ fuel ih =>
    obtain ⟨⟨line, after⟩, hline, hrest⟩ := bind_eq_some_iff.mp h
    obtain ⟨rfl, hone⟩ := readLine_eq_some_iff.mp hline
    dsimp only at hrest
    split_ifs at hrest with hempty
    · cases hrest
      rw [hempty]
      exact ⟨rfl, by simp⟩
    · obtain ⟨⟨ls, r⟩, hread, heq⟩ := map_eq_some_iff.mp hrest
      cases heq
      obtain ⟨rfl, hls⟩ := ih hread
      refine ⟨by simp [head_cons], ?_⟩
      exact forall_mem_cons.mpr ⟨⟨hempty, hone⟩, hls⟩

theorem readLines_head {fuel : ℕ} (h : ∀ line ∈ lines, IsLine line) (hfuel : lines.length < fuel)
    (rest : Bytes) : readLines fuel (head lines ++ rest) = some (lines, rest) := by
  induction lines generalizing fuel with
  | nil =>
    obtain ⟨fuel, rfl⟩ := Nat.exists_eq_succ_of_ne_zero (Nat.ne_zero_of_lt hfuel)
    have hline : readLine (head [] ++ rest) = some ([], rest) :=
      readLine_eq_some_iff.mpr ⟨rfl, by simp [OneLine]⟩
    rw [readLines, hline]
    rfl
  | cons line lines ih =>
    obtain ⟨fuel, rfl⟩ := Nat.exists_eq_succ_of_ne_zero (Nat.ne_zero_of_lt hfuel)
    obtain ⟨⟨hne, hone⟩, hlines⟩ := forall_mem_cons.mp h
    have hline : readLine (head (line :: lines) ++ rest) = some (line, head lines ++ rest) := by
      rw [readLine_eq_some_iff, head_cons, append_assoc]
      exact ⟨rfl, hone⟩
    rw [readLines, hline, bind_some, if_neg hne, ih hlines (by rw [length_cons] at hfuel; omega)]
    rfl

theorem readHead_eq_some_iff :
    readHead bs = some (lines, rest) ↔ bs = head lines ++ rest ∧ ∀ line ∈ lines, IsLine line := by
  refine ⟨readLines_eq_some, ?_⟩
  rintro ⟨rfl, h⟩
  refine readLines_head h ?_ rest
  have hlen := length_lt_head lines
  rw [length_append]
  omega

def isBlank (c : UInt8) : Bool := c = 0x20 ∨ c = 0x09

def trim (s : Bytes) : Bytes := (s.dropWhile isBlank).rdropWhile isBlank

def isFieldByte (c : UInt8) : Bool := c = 0x09 ∨ 0x20 ≤ c.toNat ∧ c ≠ 0x7f

def isTokenByte (c : UInt8) : Bool :=
  isDigit c ∨ (0x41 ≤ c.toNat ∧ c.toNat ≤ 0x5a) ∨ (0x61 ≤ c.toNat ∧ c.toNat ≤ 0x7a) ∨
    c ∈ ascii "!#$%&'*+-.^_`|~"

def parseField (line : Bytes) : Option (Bytes × Bytes) :=
  (cut 0x3a line).bind fun r =>
    if r.1 ≠ [] ∧ r.1.all isTokenByte ∧ (trim r.2).all isFieldByte then some (r.1, trim r.2)
    else none

def lower (c : UInt8) : UInt8 := if 0x41 ≤ c.toNat ∧ c.toNat ≤ 0x5a then c + 0x20 else c

def values (name : Bytes) (fields : List (Bytes × Bytes)) : List Bytes :=
  fields.filterMap fun f => if f.1.map lower = name then some f.2 else none

def digitsValue (digits : Bytes) : ℕ := digits.foldl (fun n d => n * 10 + (d.toNat - 0x30)) 0

def number (digits : Bytes) : Option ℕ :=
  if digits ≠ [] ∧ digits.all isDigit then some (digitsValue digits) else none

structure Response where
  status : ℕ
  fields : List (Bytes × Bytes)
  body : Bytes
  deriving DecidableEq, Repr

def parseStatusLine (line : Bytes) : Option ℕ :=
  if ascii "HTTP/1.1 " <+: line ∧ (line.drop 12).head? = some 0x20 ∧
      (line.drop 13).all isFieldByte then
    number ((line.drop 9).take 3)
  else none

def parseResponse (bs : Bytes) : Option Response := do
  let (lines, body) ← readHead bs
  let first ← lines.head?
  let status ← parseStatusLine first
  let fields ← lines.tail.mapM parseField
  if values (ascii "content-length") fields = [] then none
  else if ∀ v ∈ values (ascii "content-length") fields, number v = some body.length then
    some ⟨status, fields, body⟩
  else none

theorem parseResponse_eq_some_iff {r : Response} :
    parseResponse bs = some r ↔ ∃ first lines, bs = head (first :: lines) ++ r.body ∧
      (∀ line ∈ first :: lines, IsLine line) ∧ parseStatusLine first = some r.status ∧
      lines.mapM parseField = some r.fields ∧ values (ascii "content-length") r.fields ≠ [] ∧
      ∀ v ∈ values (ascii "content-length") r.fields, number v = some r.body.length := by
  simp only [parseResponse, bind_eq_bind, bind_eq_some_iff]
  constructor
  · rintro ⟨⟨lines, body⟩, hhead, first, hfirst, status, hstatus, fields, hfields, hrest⟩
    obtain ⟨hbs, hlines⟩ := readHead_eq_some_iff.mp hhead
    cases lines with
    | nil => simp at hfirst
    | cons line lines =>
      cases hfirst
      split_ifs at hrest with hnone hall
      cases hrest
      exact ⟨first, lines, hbs, hlines, hstatus, hfields, hnone, hall⟩
  · rintro ⟨first, lines, hbs, hlines, hstatus, hfields, hnone, hall⟩
    refine ⟨(first :: lines, r.body), readHead_eq_some_iff.mpr ⟨hbs, hlines⟩, first, rfl, r.status,
      hstatus, r.fields, hfields, ?_⟩
    rw [if_neg hnone, if_pos hall]

theorem parseField_value {f : Bytes × Bytes} (h : parseField line = some f) :
    f.2.all isFieldByte := by
  obtain ⟨r, -, hr⟩ := bind_eq_some_iff.mp h
  split_ifs at hr with hok
  cases hr
  exact hok.2.2

theorem mapM_parseField_value {fields : List (Bytes × Bytes)}
    (h : lines.mapM parseField = some fields) : ∀ f ∈ fields, f.2.all isFieldByte := by
  induction lines generalizing fields with
  | nil =>
    cases h
    exact forall_mem_nil _
  | cons line lines ih =>
    rw [mapM_cons, bind_eq_bind, bind_eq_some_iff] at h
    obtain ⟨g, hg, hrest⟩ := h
    rw [bind_eq_bind, bind_eq_some_iff] at hrest
    obtain ⟨gs, hgs, heq⟩ := hrest
    cases heq
    exact forall_mem_cons.mpr ⟨parseField_value hg, ih hgs⟩

theorem parseField_eq {name : Bytes} (hne : name ≠ []) (hname : name.all isTokenByte)
    (rest : Bytes) : parseField (name ++ 0x3a :: rest) =
      if (trim rest).all isFieldByte then some (name, trim rest) else none := by
  have hcolon : (0x3a : UInt8) ∉ name := fun h => by
    have := all_eq_true.mp hname _ h
    revert this
    decide
  rw [parseField, cut_append hcolon, bind_some]
  simp [hne, hname]

theorem trim_blank (s : Bytes) : trim (0x20 :: s) = trim s := by
  rw [trim, dropWhile_cons_of_pos (by decide), trim]

theorem trim_eq_self (h : ∀ c ∈ s, isBlank c = false) : trim s = s := by
  have hdrop : s.dropWhile isBlank = s := by
    rw [dropWhile_eq_self_iff]
    intro hpos
    rw [h _ (getElem_mem hpos)]
    exact Bool.false_ne_true
  rw [trim, hdrop, rdropWhile_eq_self_iff]
  intro hne
  rw [h _ (getLast_mem hne)]
  exact Bool.false_ne_true

theorem isSpace_of_isDigit (h : isDigit c) : isSpace c = false := by
  have hc : 0x30 ≤ c.toNat ∧ c.toNat ≤ 0x39 := by simpa [isDigit] using h
  have hne : c ≠ 0x20 := fun hc' => by
    rw [hc'] at hc
    exact absurd hc.1 (by decide)
  simp only [isSpace, hne, false_or, decide_eq_false_iff_not]
  omega

theorem isDigit_spec (h : isDigit c) : isBlank c = false ∧ isFieldByte c = true := by
  have hc : 0x30 ≤ c.toNat ∧ c.toNat ≤ 0x39 := by simpa [isDigit] using h
  obtain ⟨n, hn, rfl⟩ : ∃ n ≤ 0x39, c = UInt8.ofNat n := ⟨c.toNat, hc.2, by simp⟩
  rw [UInt8.toNat_ofNat', Nat.mod_eq_of_lt (by omega)] at hc
  obtain ⟨hlow, -⟩ := hc
  interval_cases n <;> decide

theorem isFieldByte_oneLine (h : s.all isFieldByte) : OneLine s := by
  constructor
  · intro hm
    exact absurd (all_eq_true.mp h _ hm) (by decide)
  · intro hm
    exact absurd (all_eq_true.mp h _ hm) (by decide)

theorem OneLine.append {t : Bytes} (hs : OneLine s) (ht : OneLine t) : OneLine (s ++ t) := by
  simp only [OneLine, mem_append, not_or]
  exact ⟨⟨hs.1, ht.1⟩, hs.2, ht.2⟩

theorem digitsValue_append (digits : Bytes) (d : UInt8) :
    digitsValue (digits ++ [d]) = digitsValue digits * 10 + (d.toNat - 0x30) := by
  rw [digitsValue, foldl_append, ← digitsValue]
  rfl

theorem decimal_digit {d : ℕ} (h : d < 10) :
    isDigit d.digitChar.val.toUInt8 = true ∧ d.digitChar.val.toUInt8.toNat - 0x30 = d := by
  interval_cases d <;> decide

theorem number_decimal (n : ℕ) : number (decimal n) = some n := by
  have h : decimal n ≠ [] ∧ (decimal n).all isDigit ∧ digitsValue (decimal n) = n := by
    induction n using Nat.strongRecOn with
    | ind n ih =>
      by_cases hn : n < 10
      · obtain ⟨hdigit, hvalue⟩ := decimal_digit hn
        rw [decimal, Nat.toDigits_of_lt_base hn]
        exact ⟨by simp, by simpa using hdigit, by simpa [digitsValue] using hvalue⟩
      · obtain ⟨-, hall, hvalue⟩ := ih (n / 10) (by omega)
        obtain ⟨hdigit, hlast⟩ := decimal_digit (Nat.mod_lt n (by decide : 10 > 0))
        rw [decimal, Nat.toDigits_of_base_le (by decide) (by omega), map_append, ← decimal]
        refine ⟨by simp, by simpa [hall] using hdigit, ?_⟩
        rw [map_singleton, digitsValue_append, hvalue, hlast]
        omega
  rw [number, if_pos ⟨h.1, h.2.1⟩, h.2.2]

theorem decimal_all_digit (n : ℕ) : ∀ c ∈ decimal n, isDigit c = true := by
  have h := number_decimal n
  rw [number] at h
  split_ifs at h with hok
  exact all_eq_true.mp hok.2

theorem trim_decimal (n : ℕ) : trim (decimal n) = decimal n :=
  trim_eq_self fun c hc => (isDigit_spec (decimal_all_digit n c hc)).1

theorem decimal_fieldBytes (n : ℕ) : (decimal n).all isFieldByte = true :=
  all_eq_true.mpr fun c hc => (isDigit_spec (decimal_all_digit n c hc)).2

end Http
