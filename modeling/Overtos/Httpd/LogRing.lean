import Overtos.Lib.CString
import Overtos.Lib.Json
import Overtos.Lib.Word
import Overtos.Types

/-! The dashboard's log ring and the `GET /api/log` handler that renders it. -/
namespace Overtos.Httpd
open CStr Json List

def logRingLines : ℕ := 32
def logLineMax : ℕ := 128

structure LogRing where
  slot : ℕ → CStr.Bytes
  head : ℕ

def LogRing.init : LogRing := ⟨fun _ => replicate logLineMax 0, 0⟩

def oveHttpdLogAppend (r : LogRing) (line : CString) : LogRing :=
  { slot := Function.update r.slot r.head (strncpy (logLineMax - 1) line ++ [0])
    head := (r.head + 1) % logRingLines }

def LogRing.visited (r : LogRing) : List CStr.Bytes :=
  (range logRingLines).map fun i => r.slot ((r.head + i) % logRingLines)

structure Buf where
  mem : ℕ → UInt8
  writes : List (ℕ × ℕ)

def Buf.write (b : Buf) (off : ℕ) (out : CStr.Bytes) : Buf :=
  { mem := fun i => if off ≤ i ∧ i < off + out.length then out.getD (i - off) 0 else b.mem i
    writes := (off, out.length) :: b.writes }

def snprintf (b : Buf) (off size : ℕ) (text : CStr.Bytes) : Buf × ℕ :=
  if size = 0 then (b, text.length)
  else (b.write off (text.take (size - 1) ++ [0]), text.length)

def bufSize : ℕ := 2048

structure LogOut where
  buf : Buf
  off : ℕ

def put (arch : Arch) (s : LogOut) (text : CStr.Bytes) : LogOut :=
  let r := snprintf s.buf s.off (Word.wrap arch.bits (bufSize + 2 ^ arch.bits - s.off)) text
  ⟨r.1, s.off + r.2⟩

def logLoop (arch : Arch) : List CStr.Bytes → Bool → LogOut → LogOut
  | [], _, s => s
  | slot :: rest, first, s =>
    if slot.headD 0 = 0 then logLoop arch rest first s
    else if 0x22 ∈ ofArray slot ∨ 0x5c ∈ ofArray slot then logLoop arch rest first s
    else
      let s := if first then s else put arch s [0x2c]
      let s := put arch s (0x22 :: (ofArray slot ++ [0x22]))
      if bufSize - 2 ≤ s.off then s else logLoop arch rest false s

def linesKey : CStr.Bytes := [0x6c, 0x69, 0x6e, 0x65, 0x73]

def handleLog (arch : Arch) (mem : ℕ → UInt8) (r : LogRing) : LogOut :=
  let s := put arch ⟨⟨mem, []⟩, 0⟩ (0x7b :: 0x22 :: linesKey ++ [0x22, 0x3a, 0x5b])
  let s := logLoop arch r.visited true s
  put arch s [0x5d, 0x7d]

def LogOut.body (s : LogOut) : CStr.Bytes := ofArray ((range bufSize).map s.buf.mem)

theorem visited_append (r : LogRing) (line : CString) (hr : r.head < logRingLines) :
    (oveHttpdLogAppend r line).visited =
      r.visited.tail ++ [strncpy (logLineMax - 1) line ++ [0]] := by
  unfold logRingLines at hr
  apply ext_getElem
  · simp [LogRing.visited, logRingLines]
  · intro i h1 h2
    have hi : i < 32 := by simpa [LogRing.visited, logRingLines] using h1
    by_cases hlast : i = 31
    · subst hlast
      have he : (r.head + 1 + 31) % 32 = r.head := by omega
      simp [LogRing.visited, oveHttpdLogAppend, logRingLines, he]
    · have heq : ((r.head + 1) % 32 + i) % 32 = (r.head + (i + 1)) % 32 := by omega
      have hne : (r.head + (i + 1)) % 32 ≠ r.head := by omega
      rw [getElem_append_left (by simp [LogRing.visited, logRingLines]; omega)]
      simp only [LogRing.visited, oveHttpdLogAppend, logRingLines, getElem_map,
        getElem_range, getElem_tail, heq]
      exact Function.update_of_ne hne _ _

def storedLines (lines : List CString) : List CStr.Bytes :=
  (lines.drop (lines.length - logRingLines)).map fun l => l.bytes.take (logLineMax - 1)

def loggable (l : CStr.Bytes) : Bool := decide (l ≠ []) && decide (NoEscape l)

def logAll (lines : List CString) : LogRing := lines.foldl oveHttpdLogAppend .init

theorem logAll_visited (lines : List CString) : (logAll lines).head < logRingLines ∧
      (logAll lines).visited =
        (replicate logRingLines (replicate logLineMax 0) ++
          lines.map fun l => strncpy (logLineMax - 1) l ++ [0]).drop lines.length := by
  induction lines using reverseRecOn with
  | nil =>
    refine ⟨by decide, ?_⟩
    simp only [logAll, LogRing.visited, LogRing.init, foldl_nil, map_nil,
      append_nil, length_nil, drop_zero]
    rw [map_const', length_range]
  | append_singleton lines line ih =>
    have hfold : logAll (lines ++ [line]) = oveHttpdLogAppend (logAll lines) line := by
      simp [logAll]
    rw [hfold]
    refine ⟨Nat.mod_lt _ (by decide), ?_⟩
    have hlen : lines.length + 1 ≤ (replicate logRingLines (replicate logLineMax 0) ++
        lines.map fun l => strncpy (logLineMax - 1) l ++ [0]).length := by
      simp [logRingLines]
    rw [visited_append _ _ ih.1, ih.2, tail_drop, map_append, ← append_assoc, length_append,
      length_singleton, drop_append_of_le_length hlen]
    rfl

theorem logAll_strings (lines : List CString) : (logAll lines).visited.map ofArray =
      replicate (logRingLines - lines.length) [] ++ storedLines lines := by
  rw [(logAll_visited lines).2, drop_append, length_replicate, drop_replicate,
    map_append, map_replicate, storedLines, ← map_drop, map_map]
  have hz : ofArray (replicate logLineMax 0) = [] := rfl
  rw [hz]
  congr 1
  exact map_congr_left fun l _ => ofArray_strncpy _ l

structure Filled (s : LogOut) (text : CStr.Bytes) : Prop where
  off : s.off = text.length
  bytes : ∀ i, i < min text.length (bufSize - 1) → s.buf.mem i = text.getD i 0
  inside : ∀ w ∈ s.buf.writes, w.1 + w.2 ≤ bufSize

structure Holds (s : LogOut) (text : CStr.Bytes) : Prop extends Filled s text where
  nul : s.buf.mem (min text.length (bufSize - 1)) = 0

theorem space_eq (arch : Arch) {off : ℕ} (h : off ≤ bufSize) :
    Word.wrap arch.bits (bufSize + 2 ^ arch.bits - off) = bufSize - off := by
  have hb := arch.two_pow_bits_ge
  have he : bufSize + 2 ^ arch.bits - off = bufSize - off + 2 ^ arch.bits := by omega
  unfold Word.wrap
  rw [he, Nat.add_mod_right]
  apply Nat.mod_eq_of_lt
  unfold bufSize at h ⊢
  omega

variable {s : LogOut} {text : CStr.Bytes}

theorem put_holds (arch : Arch) (h : Filled s text) (hlen : text.length < bufSize)
    (t : CStr.Bytes) : Holds (put arch s t) (text ++ t) := by
  have hoff := h.off
  have hsp := space_eq arch (hoff ▸ hlen.le)
  unfold bufSize at hlen
  have hne : bufSize - s.off ≠ 0 := by unfold bufSize; omega
  have hput : put arch s t =
      ⟨s.buf.write s.off (t.take (bufSize - s.off - 1) ++ [0]), s.off + t.length⟩ := by
    simp [put, hsp, snprintf, hne]
  rw [hput]
  refine ⟨⟨?_, ?_, ?_⟩, ?_⟩
  · simp [hoff]
  · intro i hi
    simp only [Buf.write, length_append, length_take, length_singleton] at hi ⊢
    unfold bufSize at hi ⊢
    by_cases hlt : i < text.length
    · rw [if_neg (by omega), h.bytes i (by unfold bufSize; omega), getD_append _ _ _ _ hlt]
    · have hk : i - s.off < 2048 - s.off - 1 := by omega
      have hl : (t.take (2048 - s.off - 1) ++ [0]).getD (i - s.off) 0 = t.getD (i - s.off) 0 := by
        rw [getD_append _ _ _ _ (by simp only [length_take]; omega)]
        simp [getD_eq_getElem?_getD, getElem?_take_of_lt hk]
      rw [if_pos (by omega), hl, getD_append_right text _ _ _ (by omega), hoff]
  · intro w hw
    rcases mem_cons.mp hw with rfl | hw
    · simp only [length_append, length_take, length_singleton]
      unfold bufSize
      omega
    · exact h.inside w hw
  · simp only [Buf.write, length_append, length_take, length_singleton]
    unfold bufSize
    rw [if_pos (by omega), getD_append_right _ _ _ _ (by simp; omega)]
    have : min (text.length + t.length) 2047 - s.off - (t.take (2048 - s.off - 1)).length = 0 := by
      simp only [length_take]
      omega
    rw [this]
    rfl

theorem put_full (arch : Arch) (h : Holds s text) (hlen : text.length = bufSize) (t : CStr.Bytes) :
    Holds (put arch s t) (text ++ t) := by
  have hsp := space_eq arch (show s.off ≤ bufSize by rw [h.off, hlen])
  rw [h.off, hlen, Nat.sub_self] at hsp
  have hput : put arch s t = ⟨s.buf, s.off + t.length⟩ := by
    rw [put, h.off, hlen, hsp]
    rfl
  have hmin : min (text ++ t).length (bufSize - 1) = min text.length (bufSize - 1) := by
    simp only [length_append]
    omega
  rw [hput]
  refine ⟨⟨by simp [h.off], fun i hi => ?_, h.inside⟩, ?_⟩
  · rw [hmin] at hi
    rw [h.bytes i hi, getD_append _ _ _ _ (by omega)]
  · rw [hmin]
    exact h.nul

theorem put_overrun (arch : Arch) (hoff : bufSize < s.off) (hle : s.off < bufSize + 2 ^ arch.bits)
    (t : CStr.Bytes) : ∃ w ∈ (put arch s t).buf.writes, bufSize < w.1 + w.2 := by
  have hlt : bufSize + 2 ^ arch.bits - s.off < 2 ^ arch.bits := by omega
  have hne : bufSize + 2 ^ arch.bits - s.off ≠ 0 := by omega
  simp only [put, snprintf, Word.wrap_of_lt hlt, hne, ↓reduceIte, Buf.write]
  exact ⟨_, mem_cons_self, by dsimp only; omega⟩

theorem Holds.body (h : Holds s text) (hz : ∀ b ∈ text, b ≠ 0) : s.body = text.take (bufSize - 1) := by
  have hsplit : (range bufSize).map s.buf.mem =
      text.take (bufSize - 1) ++
        0 :: ((range bufSize).map s.buf.mem).drop (min text.length (bufSize - 1) + 1) := by
    have hm : min text.length (bufSize - 1) < ((range bufSize).map s.buf.mem).length := by
      simp [bufSize]
    have htake : ((range bufSize).map s.buf.mem).take (min text.length (bufSize - 1)) =
        text.take (bufSize - 1) := by
      apply ext_getElem
      · simp
        omega
      · intro i h1 h2
        have hi : i < min text.length (bufSize - 1) := by
          simp only [length_take] at h1
          omega
        have hit : i < text.length := by omega
        simp only [getElem_take, getElem_map, getElem_range]
        rw [h.bytes i hi, getD_eq_getElem _ _ hit]
    conv_lhs => rw [← take_append_drop (min text.length (bufSize - 1)) (map _ _)]
    rw [htake, drop_eq_getElem_cons hm]
    simp [h.nul]
  rw [LogOut.body, hsplit]
  exact ofArray_append_zero (fun b hb => hz b (mem_of_mem_take hb)) _

def logText (ls : List CStr.Bytes) : CStr.Bytes := docHead linesKey ++ joined ls

theorem logText_concat (ls : List CStr.Bytes) (l : CStr.Bytes) :
    logText (ls ++ [l]) = logText ls ++ (if ls = [] then [] else [0x2c]) ++ quoted l := by
  cases ls with
  | nil => simp [logText, joined, tailText]
  | cons u us => simp [logText, joined, tailText]

theorem logText_length (ls : List CStr.Bytes) (h : ls ≠ []) :
    (logText ls).length + 1 = 10 + (ls.map (·.length + 3)).sum := by
  cases ls with
  | nil => exact absurd rfl h
  | cons u us =>
    have ht : (tailText us).length = (us.map (·.length + 3)).sum := by
      induction us with
      | nil => rfl
      | cons v vs ih =>
        simp only [tailText_cons, quoted, length_append, length_cons, map_cons,
          sum_cons, length_nil, ih (by simp)]
    simp [logText, joined, docHead, quoted, linesKey, ht]
    omega

theorem logText_length_mono {ls ms : List CStr.Bytes} (h : ls <+: ms) :
    (logText ls).length ≤ (logText ms).length := by
  obtain ⟨us, rfl⟩ := h
  induction us using reverseRecOn with
  | nil => simp
  | append_singleton us u ih =>
    rw [← append_assoc, logText_concat]
    simp only [length_append]
    omega

def loggableSlots (slots : List CStr.Bytes) : List CStr.Bytes := (slots.map ofArray).filter loggable

theorem headD_eq_zero_iff (slot : CStr.Bytes) : slot.headD 0 = 0 ↔ ofArray slot = [] := by
  cases slot with
  | nil => simp [ofArray]
  | cons b bs => simp [ofArray, takeWhile_cons]

theorem noEscape_iff (l : CStr.Bytes) : NoEscape l ↔ ¬(0x22 ∈ l ∨ 0x5c ∈ l) := by
  constructor
  · rintro h (hm | hm)
    · exact (h _ hm).1 rfl
    · exact (h _ hm).2 rfl
  · intro h c hc
    exact ⟨fun he => h (Or.inl (he ▸ hc)), fun he => h (Or.inr (he ▸ hc))⟩

/-- The loop renders every line that remains, or leaves once the text has passed the limit; the
induction is over the slots still to visit. -/
theorem logLoop_holds (arch : Arch) (slots done : List CStr.Bytes) (s : LogOut)
    (hslot : ∀ slot ∈ slots, (ofArray slot).length < logLineMax) (h : Holds s (logText done))
    (hlen : (logText done).length < bufSize - 2) :
    (Holds (logLoop arch slots done.isEmpty s) (logText (done ++ loggableSlots slots)) ∧
      (logText (done ++ loggableSlots slots)).length < bufSize - 2) ∨
    ∃ out, out <+: done ++ loggableSlots slots ∧ out ≠ [] ∧
      bufSize - 2 ≤ (logText out).length ∧ (logText out).length ≤ bufSize + logLineMax ∧
      Holds (logLoop arch slots done.isEmpty s) (logText out) := by
  induction slots generalizing done s with
  | nil =>
    left
    simpa [logLoop, loggableSlots] using And.intro h hlen
  | cons slot slots ih =>
    have ih := fun d u => ih d u fun x hx => hslot x (mem_cons_of_mem _ hx)
    by_cases hlog : loggable (ofArray slot) = true
    · have hcons : loggableSlots (slot :: slots) = ofArray slot :: loggableSlots slots := by
        simp [loggableSlots, hlog]
      simp only [loggable, Bool.and_eq_true, decide_eq_true_eq] at hlog
      have h1 : slot.headD 0 ≠ 0 := fun he => hlog.1 ((headD_eq_zero_iff _).mp he)
      have h2 := (noEscape_iff _).mp hlog.2
      -- the separating comma, then the quoted line
      obtain ⟨s1, hs1, hcomma⟩ : ∃ s1, s1 = (if done.isEmpty = true then s else put arch s [0x2c]) ∧
          Holds s1 (logText done ++ if done = [] then [] else [0x2c]) := by
        refine ⟨_, rfl, ?_⟩
        by_cases hd : done = []
        · simpa [hd] using hd ▸ h
        · have hne : done.isEmpty = false := by simpa using hd
          simp only [hne, hd, ↓reduceIte, Bool.false_eq_true]
          exact put_holds arch h.toFilled (by omega) _
      have hcl : (logText done ++ if done = [] then [] else [0x2c]).length ≤
          (logText done).length + 1 := by
        split_ifs <;> simp
      have hline := put_holds arch hcomma.toFilled (by unfold bufSize at *; omega)
        (quoted (ofArray slot))
      rw [← logText_concat] at hline
      have hdone : (done ++ [ofArray slot]).isEmpty = false := by simp
      have hloop : logLoop arch (slot :: slots) done.isEmpty s =
          if bufSize - 2 ≤ (logText (done ++ [ofArray slot])).length then
            put arch s1 (quoted (ofArray slot))
          else logLoop arch slots (done ++ [ofArray slot]).isEmpty
            (put arch s1 (quoted (ofArray slot))) := by
        rw [logLoop, if_neg h1, if_neg h2, ← hline.off, hdone, hs1]
        rfl
      have happ : done ++ loggableSlots (slot :: slots) =
          done ++ [ofArray slot] ++ loggableSlots slots := by simp [hcons]
      rw [hloop, happ]
      by_cases hbreak : bufSize - 2 ≤ (logText (done ++ [ofArray slot])).length
      · right
        rw [if_pos hbreak]
        refine ⟨done ++ [ofArray slot], prefix_append _ _, by simp, hbreak, ?_, hline⟩
        have hs := hslot slot mem_cons_self
        have hq : (quoted (ofArray slot)).length = (ofArray slot).length + 2 := by simp [quoted]
        rw [logText_concat, length_append, hq]
        unfold bufSize logLineMax at *
        omega
      · rw [if_neg hbreak]
        exact ih _ _ hline (by omega)
    · have hcons : loggableSlots (slot :: slots) = loggableSlots slots := by
        simp [loggableSlots, hlog]
      have hloop : logLoop arch (slot :: slots) done.isEmpty s =
          logLoop arch slots done.isEmpty s := by
        simp only [loggable, Bool.and_eq_true, decide_eq_true_eq, not_and, noEscape_iff,
          not_not] at hlog
        by_cases h1 : slot.headD 0 = 0
        · rw [logLoop, if_pos h1]
        · rw [logLoop, if_neg h1, if_pos (hlog fun he => h1 ((headD_eq_zero_iff _).mpr he))]
      rw [hloop, hcons]
      exact ih done s h hlen

theorem handleLog_cases (arch : Arch) (mem : ℕ → UInt8) (lines : List CString) :
    (Holds (handleLog arch mem (logAll lines))
        (logText ((storedLines lines).filter loggable) ++ [0x5d, 0x7d]) ∧
      (logText ((storedLines lines).filter loggable)).length < bufSize - 2) ∨
    ∃ s out, handleLog arch mem (logAll lines) = put arch s [0x5d, 0x7d] ∧
      out <+: (storedLines lines).filter loggable ∧ out ≠ [] ∧
      bufSize - 2 ≤ (logText out).length ∧ (logText out).length ≤ bufSize + logLineMax ∧
      Holds s (logText out) := by
  have hstart : Holds (put arch ⟨⟨mem, []⟩, 0⟩ (0x7b :: 0x22 :: linesKey ++ [0x22, 0x3a, 0x5b]))
      (logText []) := by
    have h0 : Filled ⟨⟨mem, []⟩, 0⟩ [] := ⟨rfl, by simp, by simp⟩
    exact put_holds arch h0 (by decide) _
  have hstr := logAll_strings lines
  have hslots : loggableSlots (logAll lines).visited = (storedLines lines).filter loggable := by
    rw [loggableSlots, hstr, filter_append]
    simp [loggable]
  have hslot : ∀ slot ∈ (logAll lines).visited, (ofArray slot).length < logLineMax := by
    intro slot hm
    have hm' := mem_map_of_mem (f := ofArray) hm
    rw [hstr, mem_append] at hm'
    rcases hm' with hm' | hm'
    · simp [eq_of_mem_replicate hm', logLineMax]
    · obtain ⟨l, -, he⟩ := mem_map.mp hm'
      rw [← he]
      simp [logLineMax]
  rcases logLoop_holds arch _ [] _ hslot hstart (by decide) with ⟨h, hlen⟩ | h
  · rw [hslots] at h hlen
    exact Or.inl ⟨put_holds arch h.toFilled (by omega) _, hlen⟩
  · obtain ⟨out, hp, hne, h1, h2, hh⟩ := h
    rw [hslots] at hp
    exact Or.inr ⟨_, out, rfl, hp, hne, h1, h2, hh⟩

def LogCorrect (arch : Arch) (mem : ℕ → UInt8) (lines : List CString) : Prop :=
  (∀ w ∈ (handleLog arch mem (logAll lines)).buf.writes, w.1 + w.2 ≤ bufSize) ∧
    ∃ ss, decodeStrings linesKey (handleLog arch mem (logAll lines)).body = some ss ∧
      ss <+: (storedLines lines).filter loggable

theorem logText_noNul {ls : List CStr.Bytes} (h : ∀ l ∈ ls, ∀ b ∈ l, b ≠ 0) :
    ∀ b ∈ logText ls ++ [0x5d, 0x7d], b ≠ 0 := by
  have hq (l : CStr.Bytes) (hl : ∀ b ∈ l, b ≠ 0) : ∀ b ∈ quoted l, b ≠ 0 := by
    intro b hb
    simp only [quoted, mem_cons, mem_append, not_mem_nil, or_false] at hb
    rcases hb with rfl | hb | rfl
    · decide
    · exact hl b hb
    · decide
  have hj : ∀ b ∈ joined ls, b ≠ 0 := by
    cases ls with
    | nil => simp [joined]
    | cons u us =>
      intro b hb
      rcases mem_append.mp hb with hb | hb
      · exact hq u (h u (by simp)) b hb
      · obtain ⟨l, hl, hb⟩ := mem_flatMap.mp hb
        rcases mem_cons.mp hb with rfl | hb
        · decide
        · exact hq l (h l (by simp [hl])) b hb
  intro b hb
  simp only [logText, mem_append, mem_cons, not_mem_nil, or_false] at hb
  rcases hb with (hb | hb) | rfl | rfl
  · revert b
    decide +kernel
  · exact hj b hb
  · decide
  · decide

theorem stored_noNul (lines : List CString) :
    ∀ l ∈ (storedLines lines).filter loggable, ∀ b ∈ l, b ≠ 0 := by
  intro l hl b hb
  obtain ⟨c, -, rfl⟩ := mem_map.mp (mem_filter.mp hl).1
  exact c.noNul b (mem_of_mem_take hb)

theorem stored_noEscape (lines : List CString) :
    ∀ l ∈ (storedLines lines).filter loggable, NoEscape l := by
  intro l hl
  have h := (mem_filter.mp hl).2
  simp only [loggable, Bool.and_eq_true, decide_eq_true_eq] at h
  exact h.2

theorem plain_linesKey : Plain linesKey := by decide +kernel

theorem decode_cut {out : List CStr.Bytes} (hn : ∀ l ∈ out, NoEscape l) (hne : out ≠ [])
    (h1 : bufSize - 2 ≤ (logText out).length) (h2 : (logText out).length ≤ bufSize) :
    decodeStrings linesKey ((logText out ++ [0x5d, 0x7d]).take (bufSize - 1)) = none := by
  obtain ⟨hbracket, helem, hinside⟩ := decodeStrings_truncated plain_linesKey hn
  unfold bufSize at *
  rcases (by omega : (logText out).length = 2046 ∨ (logText out).length = 2047 ∨
    (logText out).length = 2048) with h | h | h
  · have he : (logText out ++ [0x5d, 0x7d]).take (2048 - 1) =
        docHead linesKey ++ (joined out ++ [0x5d]) := by
      rw [take_append, take_of_length_le (by omega), h]
      simp [logText]
    rw [he, hbracket]
  · have he : (logText out ++ [0x5d, 0x7d]).take (2048 - 1) = docHead linesKey ++ joined out := by
      rw [take_append, take_of_length_le (by omega), h]
      simp [logText]
    rw [he, helem]
  · have hj : joined out ≠ [] := by
      cases out with
      | nil => exact absurd rfl hne
      | cons u us => simp [joined, quoted]
    have he : (logText out ++ [0x5d, 0x7d]).take (2048 - 1) =
        docHead linesKey ++ (joined out).dropLast := by
      rw [take_append_of_le_length (by omega), ← h, ← dropLast_eq_take, logText,
        dropLast_append_of_ne_nil hj]
    rw [he, hinside hne]

theorem LogCorrect.fits {arch : Arch} {mem : ℕ → UInt8} {lines : List CString}
    (h : LogCorrect arch mem lines) :
    10 + (((storedLines lines).filter loggable).map (·.length + 3)).sum ≤ bufSize - 2 := by
  rcases handleLog_cases arch mem lines with ⟨-, hlen⟩ | ⟨s, out, hs, hp, hne, h1, h2, hh⟩
  · by_cases he : (storedLines lines).filter loggable = []
    · rw [he]
      decide
    · rw [← logText_length _ he]
      omega
  · exfalso
    have hn : ∀ l ∈ out, NoEscape l := fun l hl => stored_noEscape lines l (hp.subset hl)
    have hz := logText_noNul fun l hl => stored_noNul lines l (hp.subset hl)
    obtain ⟨hin, ss, hd, -⟩ := h
    rw [hs] at hin hd
    by_cases hover : bufSize < (logText out).length
    · have hb := arch.two_pow_bits_ge
      obtain ⟨w, hw, hgt⟩ := put_overrun arch (s := s) (by rw [hh.off]; exact hover)
        (by rw [hh.off]; unfold logLineMax at h2; omega) [0x5d, 0x7d]
      have := hin w hw
      omega
    · have hfin : Holds (put arch s [0x5d, 0x7d]) (logText out ++ [0x5d, 0x7d]) := by
        by_cases hfull : (logText out).length = bufSize
        · exact put_full arch hh hfull _
        · exact put_holds arch hh.toFilled (by omega) _
      rw [hfin.body hz, decode_cut hn hne h1 (by omega)] at hd
      cases hd

/-- The handler is correct exactly on histories whose stored lines fit the buffer and are plain
UTF-8. -/
theorem handleLog_correct_iff (arch : Arch) (mem : ℕ → UInt8) (lines : List CString) :
    LogCorrect arch mem lines ↔
      10 + (((storedLines lines).filter loggable).map (·.length + 3)).sum ≤ bufSize - 2 ∧
        ∀ l ∈ (storedLines lines).filter loggable, Plain l ∧ utf8Valid l = true := by
  have hz := logText_noNul (stored_noNul lines)
  have hbody (hh : Holds (handleLog arch mem (logAll lines))
        (logText ((storedLines lines).filter loggable) ++ [0x5d, 0x7d]))
      (hlen : (logText ((storedLines lines).filter loggable)).length < bufSize - 2) :
      decodeStrings linesKey (handleLog arch mem (logAll lines)).body =
        if ∀ l ∈ (storedLines lines).filter loggable, Plain l ∧ utf8Valid l = true then
          some ((storedLines lines).filter loggable) else none := by
    have hle : (logText ((storedLines lines).filter loggable) ++ [0x5d, 0x7d]).length ≤
        bufSize - 1 := by
      simp only [length_append, length_cons, length_nil]
      omega
    rw [hh.body hz, take_of_length_le hle, logText, append_assoc]
    exact decodeStrings_finished plain_linesKey (by decide) (stored_noEscape lines)
  constructor
  · intro h
    refine ⟨h.fits, ?_⟩
    rcases handleLog_cases arch mem lines with ⟨hh, hlen⟩ | ⟨s, out, -, hp, hne, h1, -, -⟩
    · obtain ⟨-, ss, hd, -⟩ := h
      rw [hbody hh hlen] at hd
      by_contra hc
      rw [if_neg hc] at hd
      cases hd
    · have hfit := h.fits
      have hmono := logText_length_mono hp
      rw [← logText_length _ (fun he => hne (by simpa [he] using hp))] at hfit
      omega
  · rintro ⟨hfit, hclean⟩
    rcases handleLog_cases arch mem lines with ⟨hh, hlen⟩ | ⟨s, out, -, hp, hne, h1, -, -⟩
    · refine ⟨hh.inside, _, ?_, prefix_rfl⟩
      rw [hbody hh hlen, if_pos hclean]
    · have hmono := logText_length_mono hp
      rw [← logText_length _ (fun he => hne (by simpa [he] using hp))] at hfit
      omega

def fullLine : CString := ⟨replicate 127 0x61, fun _ hb => by rw [eq_of_mem_replicate hb]; decide⟩

theorem handleLog_overrun : ¬LogCorrect .arm32 (fun _ => 0) (replicate 16 fullLine) := by
  intro h
  have hstored : (storedLines (replicate 16 fullLine)).filter loggable =
      replicate 16 (replicate 127 0x61) := by decide +kernel
  have hfit := h.fits
  rw [hstored] at hfit
  simp [bufSize] at hfit

end Overtos.Httpd
