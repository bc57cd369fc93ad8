import Overtos.Lib.Word

/-! Data under a sequence number, raised before and after an update by a writer that the reader
cannot interrupt. -/
namespace Seqlock
open Word

structure Cell (δ : Type*) where
  seq : ℕ
  data : δ

variable {δ : Type*}

def Cell.update (c : Cell δ) (d : δ) : Cell δ := ⟨wrap 32 (wrap 32 (c.seq + 1) + 1), d⟩

/-- The number found and the words loaded so far; `since` counts the updates since it began. -/
structure Pass where
  seq : ℕ
  words : List ℕ
  since : ℕ
  deriving DecidableEq, Repr

namespace Pass

def start (c : Cell δ) : Pass := ⟨c.seq, [], 0⟩

def load (fields : δ → List ℕ) (c : Cell δ) (p : Pass) : Pass :=
  { p with words := p.words ++ ((fields c.data)[p.words.length]?).toList }

def accepts (c : Cell δ) (p : Pass) : Bool := p.seq % 2 = 0 && p.seq = c.seq

def updated (p : Pass) : Pass := { p with since := p.since + 1 }

structure Tracks (fields : δ → List ℕ) (c : Cell δ) (p : Pass) : Prop where
  bounded : p.seq < 2 ^ 32
  seq : c.seq = wrap 32 (p.seq + 2 * p.since)
  words : p.since = 0 → p.words <+: fields c.data

variable {fields : δ → List ℕ} {c : Cell δ} {p : Pass}

theorem tracks_start (h : c.seq < 2 ^ 32) : Tracks fields c (start c) :=
  ⟨h, (wrap_of_lt h).symm, fun _ => List.nil_prefix⟩

theorem Tracks.load (h : Tracks fields c p) : Tracks fields c (p.load fields c) := by
  refine ⟨h.bounded, h.seq, fun hsince => ?_⟩
  obtain ⟨rest, hrest⟩ := h.words hsince
  cases rest with
  | nil =>
    rw [List.append_nil] at hrest
    simp [Pass.load, ← hrest]
  | cons w rest =>
    refine ⟨rest, ?_⟩
    simp [Pass.load, ← hrest]

theorem Tracks.update (h : Tracks fields c p) (d : δ) : Tracks fields (c.update d) p.updated := by
  refine ⟨h.bounded, ?_, fun hsince => absurd hsince (Nat.succ_ne_zero _)⟩
  calc wrap 32 (wrap 32 (c.seq + 1) + 1)
      = wrap 32 (c.seq + 2) := wrap_wrap_add ..
    _ = wrap 32 (p.seq + 2 * p.since + 2) := by rw [h.seq, wrap_wrap_add]
    _ = wrap 32 (p.seq + 2 * (p.since + 1)) := by rw [Nat.mul_add, Nat.add_assoc]

theorem Tracks.since_eq_zero (h : Tracks fields c p) (hsince : p.since < 2 ^ 31)
    (haccepts : p.accepts c = true) : p.since = 0 := by
  simp only [accepts, Bool.and_eq_true, decide_eq_true_eq] at haccepts
  have hseq : wrap 32 (p.seq + 2 * p.since) = wrap 32 p.seq := by
    rw [← h.seq, ← haccepts.2, wrap_of_lt h.bounded]
  have := eq_of_wrap_eq (by omega) (by omega) hseq
  omega

end Pass

end Seqlock
