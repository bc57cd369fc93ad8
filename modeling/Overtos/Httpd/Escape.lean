import Overtos.Httpd.Once
import Overtos.Lib.Checked

/-! `json_escape` over the array it writes. -/
namespace Overtos.Httpd
open CStr List

def escapeInto (outCap : ℕ) : Bytes → Bytes → ℕ → Option (Bytes × ℕ)
  | [], out, n => do return (← Checked.put out n [0], n)
  | c :: rest, out, n =>
    match escapeOf c with
    | some esc =>
      if outCap - 1 ≤ n + esc.length then do return (← Checked.put out n [0], n)
      else do escapeInto outCap rest (← Checked.put out n esc) (n + esc.length)
    | none =>
      if outCap - 1 ≤ n then do return (← Checked.put out n [0], n)
      else do escapeInto outCap rest (← Checked.put out n [c]) (n + 1)

def jsonEscapeInto (outCap : ℕ) (text : CString) (out : Bytes) : Option (Bytes × ℕ) :=
  if outCap = 0 then some (out, 0) else escapeInto outCap text.bytes out 0

def piece (c : UInt8) : Bytes := (escapeOf c).getD [c]

def escapes (text : Bytes) : Bytes := text.flatMap piece

def stops (outCap n : ℕ) (c : UInt8) : Bool :=
  match escapeOf c with
  | some esc => outCap - 1 ≤ n + esc.length
  | none => outCap - 1 ≤ n

section
variable {outCap n : ℕ} {c : UInt8}

theorem fits_of_not_stops (h : ¬stops outCap n c) : n + (piece c).length ≤ outCap - 1 := by
  unfold stops at h
  unfold piece
  cases hc : escapeOf c with
  | none =>
    simp only [hc, decide_eq_true_eq] at h
    simp only [Option.getD_none, length_singleton]
    omega
  | some esc =>
    simp only [hc, decide_eq_true_eq] at h
    simp only [Option.getD_some]
    omega

theorem long_of_stops (h : stops outCap n c) : outCap - 1 ≤ n + (piece c).length := by
  unfold stops at h
  unfold piece
  cases hc : escapeOf c with
  | none =>
    simp only [hc, decide_eq_true_eq] at h
    omega
  | some esc =>
    simp only [hc, decide_eq_true_eq] at h
    exact h

theorem jsonEscapeLoop_cons (text out : Bytes) : jsonEscapeLoop outCap (c :: text) out =
    if stops outCap out.length c then out else jsonEscapeLoop outCap text (out ++ piece c) := by
  cases hc : escapeOf c <;> simp [jsonEscapeLoop, stops, piece, hc]

theorem escapeInto_cons (text out : Bytes) : escapeInto outCap (c :: text) out n =
    if stops outCap n c then (Checked.put out n [0]).map fun out => (out, n)
    else (Checked.put out n (piece c)).bind fun out =>
      escapeInto outCap text out (n + (piece c).length) := by
  cases hc : escapeOf c <;>
    simp [escapeInto, stops, piece, hc, Option.map_eq_bind]

theorem piece_reads (c : UInt8) : Json.Reads (piece c) [c] := by
  unfold piece
  cases hc : escapeOf c with
  | none => exact plain_reads hc
  | some esc => exact escapeOf_reads hc

end

theorem jsonEscapeLoop_kept (outCap : ℕ) (text out : Bytes) :
    ∃ kept, kept <+: text ∧ jsonEscapeLoop outCap text out = out ++ escapes kept ∧
      (out.length + (escapes text).length + 2 ≤ outCap → kept = text) := by
  induction text generalizing out with
  | nil => exact ⟨[], prefix_refl _, by simp [jsonEscapeLoop, escapes], fun _ => rfl⟩
  | cons c text ih =>
    rw [jsonEscapeLoop_cons]
    have hcons : ∀ t, escapes (c :: t) = piece c ++ escapes t := fun t => flatMap_cons
    rw [hcons text, length_append]
    split_ifs with hstop
    · have hlong := long_of_stops hstop
      exact ⟨[], nil_prefix, by simp [escapes], fun hroom => by omega⟩
    · obtain ⟨kept, hprefix, hloop, hall⟩ := ih (out ++ piece c)
      refine ⟨c :: kept, cons_prefix_cons.mpr ⟨rfl, hprefix⟩, ?_, fun hroom => ?_⟩
      · rw [hloop, hcons, append_assoc]
      · rw [hall (by rw [length_append]; omega)]

theorem escapes_reads (text : Bytes) : Json.Reads (escapes text) text := by
  induction text with
  | nil => exact Json.Reads.nil
  | cons c text ih => exact (piece_reads c).append ih

theorem escapeInto_eq {outCap : ℕ} (text : Bytes) {written free : Bytes}
    (hcap : outCap = written.length + free.length) (hfree : free ≠ []) :
    ∃ m, jsonEscapeLoop outCap text written = written ++ m ∧
      escapeInto outCap text (written ++ free) written.length =
        some (written ++ m ++ 0 :: free.drop (m.length + 1), (written ++ m).length) := by
  induction text generalizing written free with
  | nil =>
    have hpos := length_pos_of_ne_nil hfree
    refine ⟨[], by rw [jsonEscapeLoop, append_nil], ?_⟩
    rw [escapeInto, Checked.put_append rfl (by rw [length_singleton]; omega)]
    simp
  | cons c text ih =>
    have hpos := length_pos_of_ne_nil hfree
    rw [jsonEscapeLoop_cons, escapeInto_cons]
    split_ifs with hs
    · refine ⟨[], (append_nil _).symm, ?_⟩
      rw [Checked.put_append rfl (by rw [length_singleton]; omega)]
      simp
    · have hfits := fits_of_not_stops hs
      have hleft : (free.drop (piece c).length).length = free.length - (piece c).length :=
        length_drop
      obtain ⟨m, hloop, hinto⟩ := @ih (written ++ piece c)
        (free.drop (piece c).length) (by rw [length_append, hleft]; omega)
        (ne_nil_of_length_pos (by omega))
      refine ⟨piece c ++ m, by rw [hloop, append_assoc], ?_⟩
      rw [Checked.put_append rfl (by omega), Option.bind_some, ← length_append, hinto]
      simp [Nat.add_assoc]

/-- `json_escape` stays inside its array and leaves escapes there from which a JSON reader gets back
the input, or the part that has room. -/
theorem json_escape_correct (text : CString) (out : Bytes) (hcap : 1 ≤ out.length) :
    ∃ kept, kept <+: text.bytes ∧
      jsonEscapeInto out.length text out = some (escapes kept ++
        0 :: out.drop ((escapes kept).length + 1), (escapes kept).length) ∧
      (escapes kept).length + 1 ≤ out.length ∧
      ((escapes text.bytes).length + 2 ≤ out.length → kept = text.bytes) ∧
      ∀ rest, Json.parseString .plain (escapes kept ++ 0x22 :: rest) = some (kept, rest) := by
  obtain ⟨kept, hprefix, hloop, hall⟩ := jsonEscapeLoop_kept out.length text.bytes []
  obtain ⟨m, hloop', hinto⟩ := @escapeInto_eq _ text.bytes [] out
    (Nat.zero_add _).symm (ne_nil_of_length_pos hcap)
  obtain rfl : m = escapes kept := by simpa [hloop] using hloop'.symm
  have hlen := @length_jsonEscapeLoop out.length text.bytes [] (Nat.zero_le _)
  rw [hloop, nil_append] at hlen
  refine ⟨kept, hprefix, ?_, by omega, fun hroom => hall ?_, fun rest => ?_⟩
  · rw [jsonEscapeInto, if_neg (by omega)]
    exact hinto
  · rw [length_nil, Nat.zero_add]
    exact hroom
  · rw [escapes_reads kept]
    simp [Json.parseString]

theorem quote_noNul : ∀ b ∈ ([0x22] : Bytes), b ≠ 0 := by decide +kernel

theorem quote_in_four :
    (∃ kept, kept <+: [0x22] ∧ jsonEscapeInto 4 ⟨[0x22], quote_noNul⟩ [1, 1, 1, 1] =
      some (escapes kept ++ 0 :: [1, 1, 1, 1].drop ((escapes kept).length + 1),
        (escapes kept).length) ∧ kept = [0x22]) ∧
    jsonEscapeInto 3 ⟨[0x22], quote_noNul⟩ [1, 1, 1] = some ([0, 1, 1], 0) := by
  obtain ⟨kept, hprefix, hinto, -, hall, -⟩ :=
    json_escape_correct ⟨[0x22], quote_noNul⟩ [1, 1, 1, 1] (by decide)
  exact ⟨⟨kept, hprefix, hinto, hall (by decide)⟩, by decide⟩

end Overtos.Httpd
