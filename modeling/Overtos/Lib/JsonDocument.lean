import Overtos.Lib.Json

/-! Whole JSON documents, of any shape: which texts are one. -/
namespace Json

def isDigit (c : UInt8) : Bool := 0x30 ≤ c.toNat ∧ c.toNat ≤ 0x39

def digits (bs : Bytes) : Option Bytes :=
  if (bs.takeWhile isDigit).isEmpty then none else some (bs.dropWhile isDigit)

def integer : Bytes → Option Bytes
  | c :: rest => if c = 0x30 then some rest else digits (c :: rest)
  | [] => none

def fraction : Bytes → Option Bytes
  | c :: rest => if c = 0x2e then digits rest else some (c :: rest)
  | [] => some []

def unsigned : Bytes → Bytes
  | c :: rest => if c = 0x2b ∨ c = 0x2d then rest else c :: rest
  | [] => []

def exponent : Bytes → Option Bytes
  | c :: rest => if c = 0x65 ∨ c = 0x45 then digits (unsigned rest) else some (c :: rest)
  | [] => some []

def number : Bytes → Option Bytes
  | c :: rest => do exponent (← fraction (← integer (if c = 0x2d then rest else c :: rest)))
  | [] => none

def keyword (word bs : Bytes) : Option Bytes :=
  if word.isPrefixOf bs then some (bs.drop word.length) else none

def scalar (bs : Bytes) : Option Bytes :=
  keyword [0x74, 0x72, 0x75, 0x65] bs <|> keyword [0x66, 0x61, 0x6c, 0x73, 0x65] bs <|>
    keyword [0x6e, 0x75, 0x6c, 0x6c] bs <|> number bs

inductive Expected where
  | value
  | members
  | elements
  deriving DecidableEq

/-- Read what is expected, return what follows it; the fuel bounds the nesting and the members. -/
def read : ℕ → Expected → Bytes → Option Bytes
  | 0, _, _ => none
  | fuel + 1, .value, bs =>
    match bs.dropWhile isSpace with
    | [] => none
    | c :: rest =>
      if c = 0x7b then (expect 0x7d rest).or (read fuel .members rest)
      else if c = 0x5b then (expect 0x5d rest).or (read fuel .elements rest)
      else if c = 0x22 then (parseString .plain rest).map Prod.snd
      else scalar (c :: rest)
  | fuel + 1, .members, bs => do
    let (_, rest) ← parseString .plain (← expect 0x22 bs)
    let rest ← read fuel .value (← expect 0x3a rest)
    match expect 0x2c rest with
    | some rest => read fuel .members rest
    | none => expect 0x7d rest
  | fuel + 1, .elements, bs => do
    let rest ← read fuel .value bs
    match expect 0x2c rest with
    | some rest => read fuel .elements rest
    | none => expect 0x5d rest

def document (bs : Bytes) : Bool :=
  utf8Valid bs && (read (bs.length + 1) .value bs).any fun rest => rest.all isSpace

def Stands (text : Bytes) : Prop :=
  ∃ s, ∀ rest, parseString .plain (text ++ 0x22 :: rest) = some (s, rest)

def Reads (text s : Bytes) : Prop :=
  ∀ rest, parseString .plain (text ++ rest) =
    (parseString .plain rest).map fun r => (s ++ r.1, r.2)

theorem Reads.nil : Reads [] [] := by
  intro rest
  simp

variable {s text key : Bytes}

theorem Reads.append {a b t : Bytes} (ha : Reads a s) (hb : Reads b t) :
    Reads (a ++ b) (s ++ t) := by
  intro rest
  rw [List.append_assoc, ha, hb, Option.map_map]
  simp [Function.comp_def]

theorem Reads.stands (h : Reads text s) : Stands text := by
  refine ⟨s, fun rest => ?_⟩
  rw [h]
  simp [parseString]

def member (key text : Bytes) : Bytes := 0x7b :: (quoted key ++ 0x3a :: (quoted text ++ [0x7d]))

theorem read_member (hk : Stands key) (ht : Stands text) (fuel : ℕ) :
    read (fuel + 3) .value (member key text) = some [] := by
  obtain ⟨k, hk⟩ := hk
  obtain ⟨s, ht⟩ := ht
  have hkey : expect 0x22 (quoted key ++ 0x3a :: (quoted text ++ [0x7d])) =
      some (key ++ 0x22 :: 0x3a :: (quoted text ++ [0x7d])) := by
    simpa [quoted] using expect_same (c := 0x22) (by decide) _
  have hvalue : read (fuel + 1) .value (quoted text ++ [0x7d]) = some [0x7d] := by
    have hstart : (quoted text ++ [0x7d]).dropWhile isSpace = 0x22 :: (text ++ 0x22 :: [0x7d]) := by
      simp [quoted, isSpace]
    simp [read, hstart, ht]
  have hmembers : read (fuel + 2) .members (quoted key ++ 0x3a :: (quoted text ++ [0x7d])) =
      some [] := by
    rw [read]
    simp [hkey, hk, expect_same (c := 0x3a) (by decide), hvalue, expect_ne (c := 0x2c) (d := 0x7d),
      expect_same (c := 0x7d), isSpace]
  have hclose : expect 0x7d (quoted key ++ 0x3a :: (quoted text ++ [0x7d])) = none := by
    exact expect_ne (by decide) (by decide) _
  have hopen : (member key text).dropWhile isSpace = member key text := by simp [member, isSpace]
  rw [read, hopen]
  simp [member, hclose, hmembers]

theorem Plain.stands (h : Plain text) : Stands text := ⟨text, fun rest => parseString_plain h rest⟩

theorem utf8Valid_member (key text : Bytes) :
    utf8Valid (member key text) = (utf8Valid key && utf8Valid text) := by
  have hclose : utf8Valid [0x7d] = true := by decide
  rw [member, utf8Valid_cons_ascii _ (by decide), utf8Valid_quoted,
    utf8Valid_cons_ascii _ (by decide), utf8Valid_quoted, hclose, Bool.and_true]

theorem document_member (hk : Stands key) (ht : Stands text) :
    document (member key text) = (utf8Valid key && utf8Valid text) := by
  have hlen : (member key text).length + 1 = key.length + text.length + 5 + 3 := by
    simp [member, quoted]
    omega
  rw [document, hlen, read_member hk ht, utf8Valid_member]
  simp

end Json
