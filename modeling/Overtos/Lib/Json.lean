import Mathlib.Tactic

/-! JSON text, as bytes: UTF-8 well-formedness, strings, and an object that holds one
array of strings. -/
namespace Json
open List

abbrev Bytes := List UInt8

structure Owed where
  left : ℕ
  lo : ℕ
  hi : ℕ
  deriving DecidableEq, Repr

def Owed.zero : Owed := ⟨0, 0x80, 0xbf⟩

def utf8Step (q : Owed) (b : UInt8) : Option Owed :=
  let n := b.toNat
  if n < 0x80 then if q.left = 0 then some .zero else none
  else match q.left with
    | 0 =>
      if n < 0xc2 then none
      else if n < 0xe0 then some ⟨1, 0x80, 0xbf⟩
      else if n < 0xf0 then
        some ⟨2, if n = 0xe0 then 0xa0 else 0x80, if n = 0xed then 0x9f else 0xbf⟩
      else if n < 0xf5 then
        some ⟨3, if n = 0xf0 then 0x90 else 0x80, if n = 0xf4 then 0x8f else 0xbf⟩
      else none
    | k + 1 => if q.lo ≤ n ∧ n ≤ q.hi then some ⟨k, 0x80, 0xbf⟩ else none

def utf8Run : Owed → Bytes → Option Owed
  | q, [] => some q
  | q, b :: bs => (utf8Step q b).bind fun q' => utf8Run q' bs

def utf8Valid (bs : Bytes) : Bool := (utf8Run .zero bs).any fun q => q.left = 0

theorem utf8Run_append (q : Owed) (a b : Bytes) :
    utf8Run q (a ++ b) = (utf8Run q a).bind fun q' => utf8Run q' b := by
  induction a generalizing q with
  | nil => rfl
  | cons x a ih =>
    cases h : utf8Step q x with
    | none => simp [utf8Run, h]
    | some q' => simp [utf8Run, h, ih]

variable {c : UInt8} {s last key : Bytes} {ss : List Bytes}

theorem utf8Valid_separator (a b : Bytes) (hc : c.toNat < 0x80) :
    utf8Valid (a ++ c :: b) = (utf8Valid a && utf8Valid b) := by
  unfold utf8Valid
  rw [utf8Run_append]
  cases ha : utf8Run .zero a with
  | none => rfl
  | some q =>
    by_cases hq : q.left = 0
    · simp [utf8Run, utf8Step, hc, hq]
    · simp [utf8Run, utf8Step, hc, hq]

theorem utf8Valid_cons_ascii (b : Bytes) (hc : c.toNat < 0x80) :
    utf8Valid (c :: b) = utf8Valid b := utf8Valid_separator [] b hc

def isSpace (c : UInt8) : Bool := c = 0x20 || c = 0x09 || c = 0x0a || c = 0x0d

def expect (c : UInt8) (bs : Bytes) : Option Bytes :=
  match bs.dropWhile isSpace with
  | d :: rest => if d = c then some rest else none
  | [] => none

def hexVal (c : UInt8) : Option ℕ :=
  let n := c.toNat
  if 0x30 ≤ n ∧ n ≤ 0x39 then some (n - 0x30)
  else if 0x41 ≤ n ∧ n ≤ 0x46 then some (n - 0x41 + 10)
  else if 0x61 ≤ n ∧ n ≤ 0x66 then some (n - 0x61 + 10)
  else none

def utf8Encode (n : ℕ) : Bytes :=
  if n < 0x80 then [.ofNat n]
  else if n < 0x800 then [.ofNat (0xc0 + n / 64), .ofNat (0x80 + n % 64)]
  else if n < 0x10000 then
    [.ofNat (0xe0 + n / 4096), .ofNat (0x80 + n / 64 % 64), .ofNat (0x80 + n % 64)]
  else [.ofNat (0xf0 + n / 262144), .ofNat (0x80 + n / 4096 % 64), .ofNat (0x80 + n / 64 % 64),
    .ofNat (0x80 + n % 64)]

def unescape (e : UInt8) : Option UInt8 :=
  if e = 0x22 ∨ e = 0x5c ∨ e = 0x2f then some e
  else if e = 0x62 then some 0x08
  else if e = 0x66 then some 0x0c
  else if e = 0x6e then some 0x0a
  else if e = 0x72 then some 0x0d
  else if e = 0x74 then some 0x09
  else none

inductive Pending where
  | plain
  | slash
  | hex (digits value : ℕ) (high : Option ℕ)
  | low (high : ℕ)
  | lowMark (high : ℕ)

def parseString : Pending → Bytes → Option (Bytes × Bytes)
  | _, [] => none
  | .plain, c :: rest =>
    if c = 0x22 then some ([], rest)
    else if c = 0x5c then parseString .slash rest
    else if c.toNat < 0x20 then none
    else (parseString .plain rest).map fun r => (c :: r.1, r.2)
  | .slash, c :: rest =>
    if c = 0x75 then parseString (.hex 0 0 none) rest
    else (unescape c).bind fun x => (parseString .plain rest).map fun r => (x :: r.1, r.2)
  | .hex k v high, c :: rest =>
    (hexVal c).bind fun d =>
      let v := v * 16 + d
      if k < 3 then parseString (.hex (k + 1) v high) rest
      else match high with
        | none =>
          if 0xd800 ≤ v ∧ v < 0xdc00 then parseString (.low v) rest
          else if 0xdc00 ≤ v ∧ v < 0xe000 then none
          else (parseString .plain rest).map fun r => (utf8Encode v ++ r.1, r.2)
        | some hi =>
          if 0xdc00 ≤ v ∧ v < 0xe000 then
            (parseString .plain rest).map fun r =>
              (utf8Encode (0x10000 + (hi - 0xd800) * 1024 + (v - 0xdc00)) ++ r.1, r.2)
          else none
  | .low hi, c :: rest => if c = 0x5c then parseString (.lowMark hi) rest else none
  | .lowMark hi, c :: rest => if c = 0x75 then parseString (.hex 0 0 (some hi)) rest else none

def parseTail : ℕ → Bytes → Option (List Bytes × Bytes)
  | 0, _ => none
  | fuel + 1, bs =>
    match expect 0x5d bs with
    | some rest => some ([], rest)
    | none => do
      let (s, rest) ← parseString .plain (← expect 0x22 (← expect 0x2c bs))
      let (ss, rest) ← parseTail fuel rest
      return (s :: ss, rest)

def parseStrings (bs : Bytes) : Option (List Bytes × Bytes) :=
  match expect 0x5d bs with
  | some rest => some ([], rest)
  | none => do
    let (s, rest) ← parseString .plain (← expect 0x22 bs)
    let (ss, rest) ← parseTail rest.length rest
    return (s :: ss, rest)

def decodeStrings (key : Bytes) (bs : Bytes) : Option (List Bytes) := do
  if utf8Valid bs = false then none
  let (k, rest) ← parseString .plain (← expect 0x22 (← expect 0x7b bs))
  if k ≠ key then none
  let (ss, rest) ← parseStrings (← expect 0x5b (← expect 0x3a rest))
  let rest ← expect 0x7d rest
  if rest.dropWhile isSpace ≠ [] then none
  return ss

def isPlain (c : UInt8) : Bool := c ≠ 0x22 ∧ c ≠ 0x5c ∧ 0x20 ≤ c.toNat

theorem parseString_plain (hs : ∀ c ∈ s, isPlain c = true) (rest : Bytes) :
    parseString .plain (s ++ 0x22 :: rest) = some (s, rest) := by
  induction s with
  | nil => simp [parseString]
  | cons c s ih =>
    have hc := hs c (by simp)
    simp only [isPlain, decide_eq_true_eq] at hc
    have ih := ih fun d hd => hs d (by simp [hd])
    simp [parseString, hc, ih, Nat.not_lt.mpr hc.2.2]

theorem parseString_control (hq : ∀ c ∈ s, c ≠ 0x22 ∧ c ≠ 0x5c) (hs : ∃ c ∈ s, isPlain c = false)
    (rest : Bytes) : parseString .plain (s ++ rest) = none := by
  induction s with
  | nil => simp at hs
  | cons c s ih =>
    have hc := hq c (by simp)
    by_cases hl : c.toNat < 0x20
    · simp [parseString, hc, hl]
    · obtain ⟨d, hd, hp⟩ := hs
      have hcp : isPlain c = true := by simp [isPlain, hc, Nat.not_lt.mp hl]
      have hds : d ∈ s := by
        rcases mem_cons.mp hd with rfl | h
        · simp [hcp] at hp
        · exact h
      have ih := ih (fun e he => hq e (by simp [he])) ⟨d, hds, hp⟩
      simp [parseString, hc, hl, ih]

theorem parseString_unclosed (hs : ∀ c ∈ s, c ≠ 0x22 ∧ c ≠ 0x5c) : parseString .plain s = none := by
  induction s with
  | nil => rfl
  | cons c s ih =>
    have hc := hs c (by simp)
    have ih := ih fun d hd => hs d (by simp [hd])
    simp [parseString, hc, ih]

theorem expect_same (hc : isSpace c = false) (rest : Bytes) : expect c (c :: rest) = some rest := by simp [expect, dropWhile, hc]

theorem expect_ne {d : UInt8} (hd : isSpace d = false) (h : d ≠ c) (rest : Bytes) :
    expect c (d :: rest) = none := by simp [expect, dropWhile, hd, h]

def quoted (s : Bytes) : Bytes := 0x22 :: (s ++ [0x22])

def tailText (ss : List Bytes) : Bytes := ss.flatMap fun s => 0x2c :: quoted s

def joined : List Bytes → Bytes
  | [] => []
  | s :: ss => quoted s ++ tailText ss

def Plain (s : Bytes) : Prop := ∀ c ∈ s, isPlain c = true

def NoEscape (s : Bytes) : Prop := ∀ c ∈ s, c ≠ 0x22 ∧ c ≠ 0x5c

instance (s : Bytes) : Decidable (Plain s) := inferInstanceAs (Decidable (∀ c ∈ s, _))

instance (s : Bytes) : Decidable (NoEscape s) := inferInstanceAs (Decidable (∀ c ∈ s, _))

theorem Plain.of_not_exists (h : ¬∃ c ∈ s, isPlain c = false) : Plain s := by
  intro c hc
  by_contra hp
  exact h ⟨c, hc, by simpa using hp⟩

theorem parseTail_cons (fuel : ℕ) (s rest : Bytes) (hs : Plain s) :
    parseTail (fuel + 1) (0x2c :: quoted s ++ rest) =
      (parseTail fuel rest).map fun r => (s :: r.1, r.2) := by
  have h1 : expect 0x5d (0x2c :: quoted s ++ rest) = none := expect_ne (by decide) (by decide) _
  have h2 : expect 0x2c (0x2c :: quoted s ++ rest) = some (quoted s ++ rest) :=
    expect_same (by decide) _
  have h3 : expect 0x22 (quoted s ++ rest) = some (s ++ 0x22 :: rest) := by
    simpa [quoted] using expect_same (c := 0x22) (by decide) (s ++ 0x22 :: rest)
  rw [parseTail, h1]
  simp only [h2, h3, parseString_plain hs, Option.bind_eq_bind, Option.bind_some]
  cases parseTail fuel rest <;> rfl

theorem tailText_cons (s : Bytes) (ss : List Bytes) :
    tailText (s :: ss) = 0x2c :: quoted s ++ tailText ss := by simp [tailText]

theorem parseTail_close (hs : ∀ s ∈ ss, Plain s) {fuel : ℕ} (hf : ss.length < fuel) (rest : Bytes) :
    parseTail fuel (tailText ss ++ 0x5d :: rest) = some (ss, rest) := by
  induction ss generalizing fuel with
  | nil =>
    obtain ⟨k, rfl⟩ : ∃ k, fuel = k + 1 := ⟨fuel - 1, by simp at hf; omega⟩
    have h : expect 0x5d (0x5d :: rest) = some rest := expect_same (by decide) _
    simp [tailText, parseTail, h]
  | cons s ss ih =>
    obtain ⟨k, rfl⟩ : ∃ k, fuel = k + 1 := ⟨fuel - 1, by simp at hf; omega⟩
    have ih := @ih (fun u hu => hs u (by simp [hu])) k (by simp at hf; omega)
    rw [tailText_cons, append_assoc, parseTail_cons k s _ (hs s (by simp)), ih]
    rfl

theorem parseTail_cut (hs : ∀ s ∈ ss, Plain s) (fuel : ℕ)
    (hl : last = [] ∨ ∃ s, NoEscape s ∧ last = 0x2c :: 0x22 :: s) :
    parseTail fuel (tailText ss ++ last) = none := by
  induction ss generalizing fuel with
  | nil =>
    cases fuel with
    | zero => rfl
    | succ k =>
      rcases hl with rfl | ⟨s, hn, rfl⟩
      · simp [tailText, parseTail, expect]
      · have h1 : expect 0x5d (0x2c :: 0x22 :: s) = none := expect_ne (by decide) (by decide) _
        have h2 : expect 0x2c (0x2c :: 0x22 :: s) = some (0x22 :: s) := expect_same (by decide) _
        have h3 : expect 0x22 (0x22 :: s) = some s := expect_same (by decide) _
        simp [tailText, parseTail, h1, h2, h3, parseString_unclosed hn]
  | cons s ss ih =>
    cases fuel with
    | zero => rfl
    | succ k =>
      rw [tailText_cons, append_assoc, parseTail_cons k s _ (hs s (by simp)),
        ih fun u hu => hs u (by simp [hu])]
      rfl

theorem parseTail_control (hn : ∀ s ∈ ss, NoEscape s) (hc : ∃ s ∈ ss, ¬Plain s) (fuel : ℕ)
    (rest : Bytes) : parseTail fuel (tailText ss ++ rest) = none := by
  induction ss generalizing fuel with
  | nil => simp at hc
  | cons s ss ih =>
    cases fuel with
    | zero => rfl
    | succ k =>
      rw [tailText_cons, append_assoc]
      by_cases hp : Plain s
      · obtain ⟨u, hu, hup⟩ := hc
        have hus : u ∈ ss := by
          rcases mem_cons.mp hu with rfl | h
          · exact absurd hp hup
          · exact h
        rw [parseTail_cons k s _ hp, ih (fun v hv => hn v (by simp [hv])) ⟨u, hus, hup⟩]
        rfl
      · have hx : ∃ c ∈ s, isPlain c = false := by
          by_contra h
          exact hp (Plain.of_not_exists h)
        have h1 : expect 0x5d (0x2c :: quoted s ++ (tailText ss ++ rest)) = none :=
          expect_ne (by decide) (by decide) _
        have h2 : expect 0x2c (0x2c :: quoted s ++ (tailText ss ++ rest)) =
            some (quoted s ++ (tailText ss ++ rest)) := expect_same (by decide) _
        have h3 : expect 0x22 (quoted s ++ (tailText ss ++ rest)) =
            some (s ++ 0x22 :: (tailText ss ++ rest)) := by
          simpa [quoted] using expect_same (c := 0x22) (by decide)
            (s ++ 0x22 :: (tailText ss ++ rest))
        rw [parseTail, h1]
        simp only [h2, h3, parseString_control (hn s (by simp)) hx, Option.bind_eq_bind,
          Option.bind_some, Option.bind_none]

theorem tailText_length_le (ss : List Bytes) : ss.length ≤ (tailText ss).length := by
  induction ss with
  | nil => simp
  | cons s ss ih =>
    simp only [tailText_cons, length_append, length_cons]
    omega

private theorem parseStrings_open (s rest : Bytes) :
    parseStrings (quoted s ++ rest) =
      (parseString .plain (s ++ 0x22 :: rest)).bind fun r =>
        (parseTail r.2.length r.2).map fun q => (r.1 :: q.1, q.2) := by
  have h1 : expect 0x5d (quoted s ++ rest) = none := expect_ne (by decide) (by decide) _
  have h2 : expect 0x22 (quoted s ++ rest) = some (s ++ 0x22 :: rest) := by
    simpa [quoted] using expect_same (c := 0x22) (by decide) (s ++ 0x22 :: rest)
  rw [parseStrings, h1]
  simp only [h2, Option.bind_eq_bind, Option.bind_some]
  cases parseString .plain (s ++ 0x22 :: rest) with
  | none => rfl
  | some r =>
    simp only [Option.bind_some]
    cases parseTail r.2.length r.2 <;> rfl

theorem parseStrings_close (hs : ∀ s ∈ ss, Plain s) (rest : Bytes) :
    parseStrings (joined ss ++ 0x5d :: rest) = some (ss, rest) := by
  cases ss with
  | nil =>
    have h : expect 0x5d (0x5d :: rest) = some rest := expect_same (by decide) _
    simp [joined, parseStrings, h]
  | cons s ss =>
    have hlen : ss.length < (tailText ss ++ 0x5d :: rest).length := by
      have := tailText_length_le ss
      simp only [length_append, length_cons]
      omega
    rw [joined, append_assoc, parseStrings_open, parseString_plain (hs s (by simp))]
    simp only [Option.bind_some]
    rw [parseTail_close (fun u hu => hs u (by simp [hu])) hlen]
    rfl

theorem parseStrings_unfinished (hs : ∀ s ∈ ss, Plain s) : parseStrings (joined ss) = none := by
  cases ss with
  | nil => rfl
  | cons s ss =>
    have h := parseTail_cut (fun u hu => hs u (mem_cons_of_mem s hu)) (tailText ss).length
      (Or.inl rfl)
    rw [append_nil] at h
    rw [joined, parseStrings_open, parseString_plain (hs s (by simp))]
    simp [h]

theorem parseStrings_control (hn : ∀ s ∈ ss, NoEscape s) (hc : ∃ s ∈ ss, ¬Plain s) (rest : Bytes) :
    parseStrings (joined ss ++ rest) = none := by
  cases ss with
  | nil => simp at hc
  | cons s ss =>
    rw [joined, append_assoc, parseStrings_open]
    by_cases hp : Plain s
    · obtain ⟨u, hu, hup⟩ := hc
      have hus : u ∈ ss := by
        rcases mem_cons.mp hu with rfl | h
        · exact absurd hp hup
        · exact h
      have h := parseTail_control (fun v hv => hn v (by simp [hv])) ⟨u, hus, hup⟩
        (tailText ss ++ rest).length rest
      rw [parseString_plain hp]
      simp only [Option.bind_some]
      rw [h]
      rfl
    · have hx : ∃ c ∈ s, isPlain c = false := by
        by_contra h
        exact hp (Plain.of_not_exists h)
      rw [parseString_control (hn s (by simp)) hx]
      rfl

theorem parseStrings_unclosed (hn : ∀ s ∈ ss, NoEscape s) (hl : NoEscape last) :
    parseStrings ((joined (ss ++ [last])).dropLast) = none := by
  cases ss with
  | nil =>
    have h1 : expect 0x5d (0x22 :: last) = none := expect_ne (by decide) (by decide) _
    have h2 : expect 0x22 (0x22 :: last) = some last := expect_same (by decide) _
    have he : (joined ([] ++ [last])).dropLast = 0x22 :: last := by
      rw [nil_append, joined, tailText, quoted, flatMap_nil, append_nil,
        ← cons_append, dropLast_concat]
    rw [he, parseStrings, h1]
    simp [h2, parseString_unclosed hl]
  | cons s ss =>
    have he : (joined (s :: ss ++ [last])).dropLast =
        joined (s :: ss) ++ 0x2c :: 0x22 :: last := by
      have : joined (s :: ss ++ [last]) = joined (s :: ss) ++ 0x2c :: 0x22 :: last ++ [0x22] := by
        simp [joined, tailText, quoted]
      rw [this, dropLast_concat]
    rw [he]
    by_cases hs : ∀ u ∈ s :: ss, Plain u
    · have h := parseTail_cut (fun u hu => hs u (mem_cons_of_mem s hu))
        (tailText ss ++ 0x2c :: 0x22 :: last).length (Or.inr ⟨last, hl, rfl⟩)
      rw [joined, append_assoc, parseStrings_open, parseString_plain (hs s (by simp))]
      simp only [Option.bind_some]
      rw [h]
      rfl
    · push Not at hs
      exact parseStrings_control hn hs _

def docHead (key : Bytes) : Bytes := 0x7b :: (quoted key ++ [0x3a, 0x5b])

theorem decodeStrings_head (hk : Plain key) (body : Bytes) :
    decodeStrings key (docHead key ++ body) =
      if utf8Valid (docHead key ++ body) = false then none
      else (parseStrings body).bind fun r => (expect 0x7d r.2).bind fun rest =>
        if rest.dropWhile isSpace ≠ [] then none else some r.1 := by
  have h1 : expect 0x7b (docHead key ++ body) = some (quoted key ++ 0x3a :: 0x5b :: body) := by
    simpa [docHead] using expect_same (c := 0x7b) (by decide) (quoted key ++ 0x3a :: 0x5b :: body)
  have h2 : expect 0x22 (quoted key ++ 0x3a :: 0x5b :: body) =
      some (key ++ 0x22 :: 0x3a :: 0x5b :: body) := by
    simpa [quoted] using expect_same (c := 0x22) (by decide) (key ++ 0x22 :: 0x3a :: 0x5b :: body)
  have h3 : expect 0x3a (0x3a :: 0x5b :: body) = some (0x5b :: body) := expect_same (by decide) _
  have h4 : expect 0x5b (0x5b :: body) = some body := expect_same (by decide) _
  unfold decodeStrings
  split_ifs with hu
  · rfl
  · simp only [h1, h2, h3, h4, parseString_plain hk, Option.bind_eq_bind, Option.bind_some]
    cases parseStrings body with
    | none => simp
    | some r =>
      simp only [Option.bind_some]
      cases expect 0x7d r.2 with
      | none => simp
      | some rest => split_ifs <;> simp_all

theorem utf8Valid_quoted (s rest : Bytes) :
    utf8Valid (quoted s ++ rest) = (utf8Valid s && utf8Valid rest) := by
  have h := utf8Valid_separator s rest (c := 0x22) (by decide)
  rw [← h, quoted, cons_append, utf8Valid_cons_ascii _ (c := 0x22) (by decide)]
  simp

theorem utf8Valid_joined (ss : List Bytes) (rest : Bytes) :
    utf8Valid (joined ss ++ rest) = (ss.all utf8Valid && utf8Valid rest) := by
  have htail (us : List Bytes) :
      utf8Valid (tailText us ++ rest) = (us.all utf8Valid && utf8Valid rest) := by
    induction us with
    | nil => simp [tailText]
    | cons u us ih =>
      rw [tailText_cons, append_assoc, cons_append,
        utf8Valid_cons_ascii _ (c := 0x2c) (by decide), utf8Valid_quoted, ih]
      simp [Bool.and_assoc]
  cases ss with
  | nil => simp [joined]
  | cons s ss =>
    rw [joined, append_assoc, utf8Valid_quoted, htail, all_cons, Bool.and_assoc]

theorem utf8Valid_head (key body : Bytes) :
    utf8Valid (docHead key ++ body) = (utf8Valid key && utf8Valid body) := by
  rw [docHead, cons_append, utf8Valid_cons_ascii _ (c := 0x7b) (by decide), append_assoc,
    utf8Valid_quoted, cons_append, utf8Valid_cons_ascii _ (c := 0x3a) (by decide),
    cons_append, utf8Valid_cons_ascii _ (c := 0x5b) (by decide), nil_append]

theorem decodeStrings_finished (hk : Plain key) (hku : utf8Valid key = true)
    (hn : ∀ s ∈ ss, NoEscape s) :
    decodeStrings key (docHead key ++ (joined ss ++ [0x5d, 0x7d])) =
      if ∀ s ∈ ss, Plain s ∧ utf8Valid s = true then some ss else none := by
  rw [decodeStrings_head hk, utf8Valid_head, hku, utf8Valid_joined, Bool.true_and,
    show utf8Valid [0x5d, 0x7d] = true by decide, Bool.and_true]
  by_cases hu : ss.all utf8Valid = true
  · rw [if_neg (by simp [hu])]
    rw [all_eq_true] at hu
    by_cases hp : ∀ s ∈ ss, Plain s
    · have hx : expect 0x7d [0x7d] = some [] := expect_same (by decide) _
      rw [if_pos fun s hs => ⟨hp s hs, hu s hs⟩, parseStrings_close hp]
      simp [hx]
    · rw [if_neg fun h => hp fun s hs => (h s hs).1]
      push Not at hp
      rw [parseStrings_control hn hp]
      rfl
  · rw [if_pos (by simpa using hu), if_neg]
    intro h
    exact hu (all_eq_true.mpr fun s hs => (h s hs).2)

theorem decodeStrings_truncated (hk : Plain key) (hn : ∀ s ∈ ss, NoEscape s) :
    decodeStrings key (docHead key ++ (joined ss ++ [0x5d])) = none ∧
      decodeStrings key (docHead key ++ joined ss) = none ∧
      (ss ≠ [] → decodeStrings key (docHead key ++ (joined ss).dropLast) = none) := by
  simp only [decodeStrings_head hk]
  refine ⟨?_, ?_, fun hne => ?_⟩
  · by_cases hp : ∀ s ∈ ss, Plain s
    · rw [parseStrings_close hp]
      simp [expect]
    · push Not at hp
      rw [parseStrings_control hn hp]
      simp
  · by_cases hp : ∀ s ∈ ss, Plain s
    · rw [parseStrings_unfinished hp]
      simp
    · push Not at hp
      have h := parseStrings_control hn hp []
      rw [append_nil] at h
      rw [h]
      simp
  · obtain ⟨us, u, rfl⟩ : ∃ us u, ss = us ++ [u] :=
      ⟨ss.dropLast, ss.getLast hne, (dropLast_append_getLast hne).symm⟩
    rw [parseStrings_unclosed (fun s hs => hn s (by simp [hs])) (hn u (by simp))]
    simp

end Json
