import Overtos.Lib.Http

/-! Requests of HTTP/1.1 whose body a Content-Length delimits. -/
namespace Http
open CStr List

structure Request where
  method : Bytes
  target : Bytes
  fields : List (Bytes × Bytes)
  body : Bytes
  deriving DecidableEq, Repr

def isTargetByte (c : UInt8) : Bool := 0x21 ≤ c.toNat ∧ c ≠ 0x7f

def parseRequestLine (line : Bytes) : Option (Bytes × Bytes) :=
  (cut 0x20 line).bind fun r => (cut 0x20 r.2).bind fun q =>
    if r.1 ≠ [] ∧ r.1.all isTokenByte ∧ q.1 ≠ [] ∧ q.1.all isTargetByte ∧
        q.2 = ascii "HTTP/1.1" then
      some (r.1, q.1)
    else none

def parseRequest (bs : Bytes) : Option Request := do
  let (lines, body) ← readHead bs
  let first ← lines.head?
  let (method, target) ← parseRequestLine first
  let fields ← lines.tail.mapM parseField
  if values (ascii "transfer-encoding") fields ≠ [] then none
  else if values (ascii "content-length") fields = [] ∧ body ≠ [] then none
  else if ∀ v ∈ values (ascii "content-length") fields, number v = some body.length then
    some ⟨method, target, fields, body⟩
  else none

theorem parseRequest_eq_some_iff {bs : Bytes} {r : Request} :
    parseRequest bs = some r ↔ ∃ first lines, bs = head (first :: lines) ++ r.body ∧
      (∀ line ∈ first :: lines, IsLine line) ∧
      parseRequestLine first = some (r.method, r.target) ∧
      lines.mapM parseField = some r.fields ∧
      values (ascii "transfer-encoding") r.fields = [] ∧
      (values (ascii "content-length") r.fields = [] → r.body = []) ∧
      ∀ v ∈ values (ascii "content-length") r.fields, number v = some r.body.length := by
  simp only [parseRequest, Option.bind_eq_bind, Option.bind_eq_some_iff]
  constructor
  · rintro ⟨⟨lines, body⟩, hhead, first, hfirst, ⟨method, target⟩, hline, fields, hfields, hrest⟩
    obtain ⟨hbs, hlines⟩ := readHead_eq_some_iff.mp hhead
    cases lines with
    | nil => simp at hfirst
    | cons line lines =>
      cases hfirst
      split_ifs at hrest with hcoding hbody hall
      cases hrest
      exact ⟨first, lines, hbs, hlines, hline, hfields, not_not.mp hcoding,
        fun hnone => not_not.mp fun hne => hbody ⟨hnone, hne⟩, hall⟩
  · rintro ⟨first, lines, hbs, hlines, hline, hfields, hcoding, hbody, hall⟩
    refine ⟨(first :: lines, r.body), readHead_eq_some_iff.mpr ⟨hbs, hlines⟩, first, rfl,
      (r.method, r.target), hline, r.fields, hfields, ?_⟩
    rw [if_neg (not_not.mpr hcoding), if_neg fun h => h.2 (hbody h.1), if_pos hall]

theorem parseRequestLine_eq_some_iff {line method target : Bytes} :
    parseRequestLine line = some (method, target) ↔
      line = method ++ 0x20 :: (target ++ 0x20 :: ascii "HTTP/1.1") ∧ method ≠ [] ∧
        method.all isTokenByte ∧ target ≠ [] ∧ target.all isTargetByte := by
  constructor
  · intro h
    obtain ⟨⟨m, rest⟩, hm, hrest⟩ := Option.bind_eq_some_iff.mp h
    obtain ⟨⟨t, version⟩, ht, hif⟩ := Option.bind_eq_some_iff.mp hrest
    dsimp only at hif
    split_ifs at hif with hok
    cases hif
    obtain ⟨hne, htoken, hne', htarget, rfl⟩ := hok
    exact ⟨(cut_eq_some ht).1 ▸ (cut_eq_some hm).1, hne, htoken, hne', htarget⟩
  · rintro ⟨rfl, hne, htoken, hne', htarget⟩
    have hm : (0x20 : UInt8) ∉ method := fun hmem =>
      absurd (all_eq_true.mp htoken _ hmem) (by decide)
    have ht : (0x20 : UInt8) ∉ target := fun hmem =>
      absurd (all_eq_true.mp htarget _ hmem) (by decide)
    rw [parseRequestLine, cut_append hm, Option.bind_some]
    dsimp only
    rw [cut_append ht, Option.bind_some]
    exact if_pos ⟨hne, htoken, hne', htarget, rfl⟩

theorem head_append (lines lines' : List Bytes) :
    head (lines ++ lines') = lines.flatMap (· ++ crlf) ++ head lines' := by
  rw [head, flatMap_append, append_assoc, ← head]

theorem line_inj {line line' rest rest' : Bytes} (h : OneLine line) (h' : OneLine line')
    (heq : line ++ crlf ++ rest = line' ++ crlf ++ rest') : line = line' ∧ rest = rest' := by
  have hread := readLine_eq_some_iff.mpr ⟨heq, h'⟩
  rw [readLine_eq_some_iff.mpr ⟨rfl, h⟩] at hread
  exact Prod.mk.inj (Option.some.inj hread)

theorem head_split {lines front : List Bytes} {body rest : Bytes}
    (hlines : ∀ line ∈ lines, IsLine line) (hfront : ∀ line ∈ front, IsLine line)
    (h : head lines ++ body = front.flatMap (· ++ crlf) ++ rest) :
    ∃ lines', lines = front ++ lines' ∧ head lines' ++ body = rest := by
  induction front generalizing lines with
  | nil => exact ⟨lines, rfl, h⟩
  | cons line front ih =>
    obtain ⟨hline, hrestLines⟩ := forall_mem_cons.mp hfront
    rw [flatMap_cons, append_assoc] at h
    cases lines with
    | nil =>
      have hread : [] ++ crlf ++ body = line ++ crlf ++ (front.flatMap (· ++ crlf) ++ rest) := h
      exact absurd (line_inj (by simp [OneLine]) hline.2 hread).1.symm hline.1
    | cons line' lines =>
      obtain ⟨hline', hlines⟩ := forall_mem_cons.mp hlines
      rw [head_cons, append_assoc] at h
      obtain ⟨rfl, hrest⟩ := line_inj hline'.2 hline.2 h
      obtain ⟨lines', rfl, hbody⟩ := ih hlines hrestLines hrest
      exact ⟨lines', rfl, hbody⟩

theorem line_front {line front rest rest' : Bytes} (h : OneLine front)
    (heq : line ++ crlf ++ rest = front ++ rest') :
    ∃ line', line = front ++ line' ∧ line' ++ crlf ++ rest = rest' := by
  rw [append_assoc] at heq
  rcases append_eq_append_iff.mp heq with ⟨t, hfront, htail⟩ | ⟨t, hline, htail⟩
  · cases t with
    | nil =>
      rw [append_nil] at hfront
      exact ⟨[], by rw [hfront, append_nil], htail⟩
    | cons c t =>
      have hc : c = 0x0d := (cons.inj htail).1.symm
      exact absurd (by rw [hfront, hc]; simp) h.1
  · exact ⟨t, hline, by rw [htail, append_assoc]⟩

theorem line_le {line text rest rest' : Bytes} (h : OneLine line)
    (heq : line ++ crlf ++ rest = text ++ crlf ++ rest') :
    ∃ more, text = line ++ more ∧ crlf ++ rest = more ++ crlf ++ rest' := by
  obtain ⟨t, htext, htail⟩ := @line_front text line _ _ h (heq.symm.trans (append_assoc _ _ _))
  exact ⟨t, htext, htail.symm⟩

theorem getLast?_lines {lines : List Bytes} (h : lines ≠ []) :
    (lines.flatMap (· ++ crlf)).getLast? = some 0x0a := by
  obtain ⟨front, line, rfl⟩ := (eq_nil_or_concat lines).resolve_left h
  rw [concat_eq_append, flatMap_append]
  simp [crlf]

theorem lines_concat {lines : List Bytes} {text line : Bytes} (hlines : ∀ l ∈ lines, IsLine l)
    (hline : OneLine line)
    (h : lines.flatMap (· ++ crlf) = text ++ crlf ++ (line ++ crlf)) :
    ∃ front, lines = front ++ [line] ∧ front.flatMap (· ++ crlf) = text ++ crlf := by
  rcases eq_nil_or_concat lines with rfl | ⟨front, last, rfl⟩
  · simp [crlf] at h
  rw [concat_eq_append] at hlines h ⊢
  have hlast := hlines last (by simp)
  rw [flatMap_append, flatMap_singleton, ← append_assoc, ← append_assoc] at h
  -- The last line starts behind the last line feed, which ends both fronts.
  have hcancel := append_cancel_right h
  have hfeed {s t : Bytes} (hs : (s ++ t).getLast? = some 0x0a) (hne : t ≠ []) : 0x0a ∈ t := by
    rw [getLast?_append_of_ne_nil _ hne] at hs
    exact mem_of_getLast? hs
  rcases append_eq_append_iff.mp hcancel with ⟨t, htext, hlast'⟩ | ⟨t, hfront, hline'⟩
  · have ht : t = [] := by
      by_contra hne
      refine hlast.2.2 ?_
      rw [hlast']
      exact mem_append_left _ (hfeed (by rw [← htext]; simp [crlf]) hne)
    rw [ht, append_nil] at htext
    exact ⟨front, by rw [hlast', ht, nil_append], htext.symm⟩
  · have ht : t = [] := by
      by_contra hne
      refine hline.2 ?_
      rw [hline']
      refine mem_append_left _ (@hfeed (text ++ crlf) t ?_ hne)
      rw [← hfront]
      refine getLast?_lines fun hnil => ?_
      rw [hnil] at hfront
      simp [crlf] at hfront
    rw [ht, append_nil] at hfront
    exact ⟨front, by rw [hline', ht, nil_append], hfront⟩

theorem mapM_append_eq_some {α β : Type} {f : α → Option β} {xs ys : List α} {zs : List β} :
    (xs ++ ys).mapM f = some zs ↔
      ∃ as bs, xs.mapM f = some as ∧ ys.mapM f = some bs ∧ zs = as ++ bs := by
  rw [mapM_append]
  simp only [Option.bind_eq_bind, Option.bind_eq_some_iff, Option.pure_def, Option.some_inj]
  constructor
  · rintro ⟨as, has, bs, hbs, rfl⟩
    exact ⟨as, bs, has, hbs, rfl⟩
  · rintro ⟨as, bs, has, hbs, rfl⟩
    exact ⟨as, has, bs, hbs, rfl⟩

theorem mapM_cons_eq_some {α β : Type} {f : α → Option β} {x : α} {xs : List α} {ys : List β}
    (h : (x :: xs).mapM f = some ys) :
    ∃ a as, f x = some a ∧ xs.mapM f = some as ∧ ys = a :: as := by
  rw [mapM_cons] at h
  simp only [Option.bind_eq_bind, Option.bind_eq_some_iff, Option.pure_def, Option.some_inj] at h
  obtain ⟨a, ha, as, has, rfl⟩ := h
  exact ⟨a, as, ha, has, rfl⟩

theorem exists_of_mapM {α β : Type} {f : α → Option β} {xs : List α} {ys : List β}
    (h : xs.mapM f = some ys) {y : β} (hy : y ∈ ys) : ∃ x ∈ xs, f x = some y := by
  induction xs generalizing ys with
  | nil =>
    cases h
    cases hy
  | cons x xs ih =>
    obtain ⟨a, as, hx, hxs, rfl⟩ := mapM_cons_eq_some h
    rcases mem_cons.mp hy with rfl | hy
    · exact ⟨x, mem_cons_self, hx⟩
    · obtain ⟨x', hx', heq⟩ := ih hxs hy
      exact ⟨x', mem_cons_of_mem _ hx', heq⟩

theorem values_append (name : Bytes) (fields fields' : List (Bytes × Bytes)) :
    values name (fields ++ fields') = values name fields ++ values name fields' :=
  filterMap_append

theorem values_cons (name : Bytes) (f : Bytes × Bytes) (fields : List (Bytes × Bytes)) :
    values name (f :: fields) =
      (if f.1.map lower = name then [f.2] else []) ++ values name fields := by
  rw [values, filterMap_cons]
  split_ifs <;> rfl

theorem parseField_eq_some {line name value : Bytes} (h : parseField line = some (name, value)) :
    ∃ rest, line = name ++ 0x3a :: rest ∧ value = trim rest ∧ name ≠ [] ∧ name.all isTokenByte ∧
      value.all isFieldByte := by
  obtain ⟨⟨front, back⟩, hcut, hif⟩ := Option.bind_eq_some_iff.mp h
  dsimp only at hif
  split_ifs at hif with hok
  cases hif
  exact ⟨back, (cut_eq_some hcut).1, rfl, hok⟩

theorem trim_front (s : Bytes) : trim s <+: s.dropWhile isBlank := rdropWhile_prefix _ _

theorem trim_trim (s : Bytes) : trim (trim s) = trim s := by
  have hfront : (trim s).dropWhile isBlank = trim s := by
    obtain ⟨rest, hrest⟩ := trim_front s
    have hhead := head?_dropWhile_not isBlank s
    rw [← hrest] at hhead
    cases hs : trim s with
    | nil => rfl
    | cons c t =>
      rw [hs, cons_append, head?_cons] at hhead
      rw [dropWhile_cons_of_neg (by simpa using hhead)]
  rw [trim, hfront, trim, rdropWhile_idempotent]

theorem length_trim_le (s : Bytes) : (trim s).length ≤ s.length :=
  Nat.le_trans (trim_front s).length_le (dropWhile_sublist _).length_le

end Http
