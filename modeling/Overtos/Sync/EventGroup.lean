import Overtos.Lib.Runs
import Overtos.Lib.Tally
import Overtos.Types

/-! The event groups of the NuttX backend: waiters on one counting semaphore, and setters that post
for each. -/
namespace Overtos.EventGroup
open Runs Tally Function

abbrev EventBits := BitVec 32

structure Request where
  bits : EventBits
  all : Bool
  clear : Bool
  forever : Bool
  deriving DecidableEq, Repr

def Request.matched (r : Request) (bits : EventBits) : Bool :=
  if r.all then bits &&& r.bits == r.bits else bits &&& r.bits != 0

inductive Pos where
  | idle
  | waiting (r : Request)
  | woken (r : Request)
  | expired (r : Request)
  deriving DecidableEq, Repr

structure Group (ι : Type) where
  bits : EventBits
  nwaiters : ℕ
  tokens : ℕ
  pos : ι → Pos
  results : List (Request × Rc × EventBits)

inductive Action (ι : Type) where
  | setBits (bits : EventBits)
  | clearBits (bits : EventBits)
  | waitBits (i : ι) (r : Request)
  | take (i : ι)
  | resume (i : ι)
  | expire (i : ι)
  | giveUp (i : ι)
  deriving DecidableEq, Repr

variable {ι : Type}

def Group.init : Group ι := ⟨0, 0, 0, fun _ => .idle, []⟩

section

variable [DecidableEq ι]

def Group.finish (s : Group ι) (i : ι) (r : Request) (rc : Rc) : Group ι :=
  { s with
    bits := if rc = .ok ∧ r.clear then s.bits &&& ~~~r.bits else s.bits
    pos := update s.pos i .idle
    results := s.results ++ [(r, rc, s.bits)] }

def Group.test (s : Group ι) (i : ι) (r : Request) : Group ι :=
  if r.matched s.bits then s.finish i r .ok
  else { s with nwaiters := s.nwaiters + 1, pos := update s.pos i (.waiting r) }

def step (s : Group ι) : Action ι → Option (Group ι)
  | .setBits bits => some { s with bits := s.bits ||| bits, tokens := s.tokens + s.nwaiters }
  | .clearBits bits => some { s with bits := s.bits &&& ~~~bits }
  | .waitBits i r =>
    match s.pos i with
    | .idle => some (s.test i r)
    | _ => none
  | .take i =>
    match s.pos i with
    | .waiting r =>
      if 0 < s.tokens then
        some { s with tokens := s.tokens - 1, pos := update s.pos i (.woken r) }
      else none
    | _ => none
  | .resume i =>
    match s.pos i with
    | .woken r => some (Group.test { s with nwaiters := s.nwaiters - 1 } i r)
    | _ => none
  | .expire i =>
    match s.pos i with
    | .waiting r =>
      if r.forever then none else some { s with pos := update s.pos i (.expired r) }
    | _ => none
  | .giveUp i =>
    match s.pos i with
    | .expired r => some (Group.finish { s with nwaiters := s.nwaiters - 1 } i r .errTimeout)
    | _ => none

end

def NoLostWakeup (s : Group ι) : Prop :=
  ∀ i r, s.pos i = .waiting r → r.matched s.bits = true → 0 < s.tokens

def Pos.inside : Pos → ℕ
  | .idle => 0
  | _ => 1

def Pos.entitled (bits : EventBits) : Pos → ℕ
  | .waiting r => if r.matched bits then 1 else 0
  | _ => 0

def Group.inVain (s : Group ι) : Action ι → Bool
  | .take i =>
    match s.pos i with
    | .waiting r => !r.matched s.bits
    | _ => false
  | _ => false

/-- A token is taken in vain only if there are more of them than threads that would find what they
wait for. -/
def Fair [Fintype ι] (s : Group ι) (a : Action ι) : Prop :=
  s.inVain a = true → tally (Pos.entitled s.bits) s.pos < s.tokens

instance [Fintype ι] (s : Group ι) (a : Action ι) : Decidable (Fair s a) :=
  inferInstanceAs (Decidable (s.inVain a = true → _ < _))

theorem Request.matched_of_clear {r : Request} {bits cleared : EventBits}
    (h : r.matched (bits &&& ~~~cleared) = true) : r.matched bits = true := by
  have hswap : bits &&& ~~~cleared &&& r.bits = bits &&& r.bits &&& ~~~cleared := by
    rw [BitVec.and_assoc, BitVec.and_comm (~~~cleared), BitVec.and_assoc]
  unfold Request.matched at h ⊢
  rw [hswap] at h
  cases hall : r.all with
  | false =>
    rw [hall, if_neg Bool.false_ne_true, bne_iff_ne] at h
    rw [if_neg Bool.false_ne_true, bne_iff_ne]
    intro hzero
    rw [hzero] at h
    exact h BitVec.zero_and
  | true =>
    rw [hall, if_pos rfl, beq_iff_eq] at h
    rw [if_pos rfl, beq_iff_eq]
    calc bits &&& r.bits = bits &&& (bits &&& r.bits &&& ~~~cleared) := by rw [h]
      _ = bits &&& r.bits &&& ~~~cleared := by
        rw [← BitVec.and_assoc, ← BitVec.and_assoc, BitVec.and_self]
      _ = r.bits := h

theorem Pos.entitled_le_inside (bits : EventBits) (p : Pos) : p.entitled bits ≤ p.inside := by
  cases p with
  | waiting r =>
    simp only [entitled, inside]
    split_ifs <;> omega
  | _ => exact Nat.zero_le _

theorem Pos.entitled_clear_le (bits cleared : EventBits) (p : Pos) :
    p.entitled (bits &&& ~~~cleared) ≤ p.entitled bits := by
  cases p with
  | waiting r =>
    rw [entitled, entitled]
    split_ifs with hnew hold
    · exact le_rfl
    · exact absurd (Request.matched_of_clear hnew) hold
    · exact Nat.zero_le _
    · exact le_rfl
  | _ => exact le_rfl

section

variable [DecidableEq ι] [Fintype ι] {s t : Group ι} {a : Action ι}

structure Accounts (s : Group ι) : Prop where
  inside : s.nwaiters = tally Pos.inside s.pos
  entitled : tally (Pos.entitled s.bits) s.pos ≤ s.tokens

variable {r : Request}

theorem finish_accounts {i : ι} {rc : Rc}
    (hin : s.nwaiters + (s.pos i).inside = tally Pos.inside s.pos)
    (hent : tally (Pos.entitled s.bits) s.pos ≤ s.tokens) : Accounts (s.finish i r rc) := by
  have hmove := tally_update Pos.inside s.pos i .idle
  have hidle := tally_update (Pos.entitled s.bits) s.pos i .idle
  have hclear := tally_mono (Pos.entitled_clear_le s.bits r.bits) (update s.pos i .idle)
  have hnone : Pos.inside .idle = 0 := rfl
  have hzero : Pos.entitled s.bits .idle = 0 := rfl
  constructor
  · show s.nwaiters = tally Pos.inside (update s.pos i .idle)
    omega
  · show tally (Pos.entitled (if rc = .ok ∧ r.clear then s.bits &&& ~~~r.bits else s.bits))
      (update s.pos i .idle) ≤ s.tokens
    split_ifs <;> omega

theorem test_accounts {i : ι} (hin : s.nwaiters + (s.pos i).inside = tally Pos.inside s.pos)
    (hent : tally (Pos.entitled s.bits) s.pos ≤ s.tokens) : Accounts (s.test i r) := by
  unfold Group.test
  split_ifs with hmatch
  · exact finish_accounts hin hent
  · have hmove := tally_update Pos.inside s.pos i (.waiting r)
    have hwait := tally_update (Pos.entitled s.bits) s.pos i (.waiting r)
    have hone : Pos.inside (.waiting r) = 1 := rfl
    have hzero : Pos.entitled s.bits (.waiting r) = 0 := if_neg hmatch
    exact ⟨by dsimp only; omega, by dsimp only; omega⟩

theorem step_accounts (h : Accounts s) (hfair : Fair s a) (hstep : step s a = some t) :
    Accounts t := by
  have hin := h.inside
  have hent := h.entitled
  revert hstep
  fun_cases step s a <;> intro hstep <;> cases hstep
  · next bits => -- every thread at the semaphore gets a token
    have hall := tally_mono (Pos.entitled_le_inside (s.bits ||| bits)) s.pos
    exact ⟨hin, by dsimp only; omega⟩
  · exact ⟨hin, (tally_mono (Pos.entitled_clear_le s.bits _) s.pos).trans hent⟩
  · next i r hpos => exact test_accounts (by rw [hpos]; exact hin) hent
  · next i r hpos htoken => -- `take`
    have hmove := tally_update Pos.inside s.pos i (.woken r)
    have hgone := tally_update (Pos.entitled s.bits) s.pos i (.woken r)
    rw [hpos] at hmove hgone
    have hone : Pos.inside (.woken r) = Pos.inside (.waiting r) := rfl
    have hzero : Pos.entitled s.bits (.woken r) = 0 := rfl
    refine ⟨by dsimp only; omega, ?_⟩
    -- The token goes with a thread that was entitled to it, or is one too many.
    cases hmatch : r.matched s.bits with
    | true =>
      have hself : Pos.entitled s.bits (.waiting r) = 1 := if_pos hmatch
      dsimp only
      omega
    | false =>
      have hspare := hfair (by simp [Group.inVain, hpos, hmatch])
      dsimp only
      omega
  · next i r hpos => -- `resume`
    have hself := le_tally Pos.inside s.pos i
    have hone : (s.pos i).inside = 1 := by rw [hpos]; rfl
    exact test_accounts (by dsimp only; omega) hent
  · next i r hpos _ => -- `expire`
    have hmove := tally_update Pos.inside s.pos i (.expired r)
    have hgone := tally_update (Pos.entitled s.bits) s.pos i (.expired r)
    rw [hpos] at hmove
    have hone : Pos.inside (.expired r) = Pos.inside (.waiting r) := rfl
    have hzero : Pos.entitled s.bits (.expired r) = 0 := rfl
    exact ⟨by dsimp only; omega, by dsimp only; omega⟩
  · next i r hpos => -- `giveUp`
    have hself := le_tally Pos.inside s.pos i
    have hone : (s.pos i).inside = 1 := by rw [hpos]; rfl
    exact finish_accounts (by dsimp only; omega) hent

end

theorem init_accounts [Fintype ι] : Accounts (Group.init : Group ι) :=
  ⟨(tally_eq_zero fun _ => rfl).symm, (tally_eq_zero fun _ => rfl).le⟩

theorem noLostWakeup_of_accounts [Fintype ι] {s : Group ι} (h : Accounts s) : NoLostWakeup s := by
  intro i r hpos hmatch
  have hself := le_tally (Pos.entitled s.bits) s.pos i
  have hone : (s.pos i).entitled s.bits = 1 := by
    rw [hpos]
    exact if_pos hmatch
  have hent := h.entitled
  omega

def bitZero : Request := ⟨1, false, false, true⟩

def bitOne : Request := ⟨2, false, false, true⟩

def stolen : List (Action Bool) :=
  [.waitBits true bitZero, .waitBits false bitOne, .setBits 1, .take false, .resume false,
    .take false]

theorem wakeup_lost : ¬Always step NoLostWakeup (Group.init : Group Bool) stolen := by
  intro h
  have hlast := h.last rfl
  exact absurd (hlast true bitZero rfl rfl) (Nat.lt_irrefl 0)

/-- A run in which no token is taken in vain that a thread has a use for loses no wake-up. -/
theorem noLostWakeup_of_fair {ι : Type} [DecidableEq ι] [Fintype ι] (as : List (Action ι))
    (h : Each step Fair Group.init as) : Always step NoLostWakeup (Group.init : Group ι) as :=
  (always_of_each (fun _ _ _ hs hfair hstep => step_accounts hs hfair hstep) init_accounts h).mono
    fun _ => noLostWakeup_of_accounts

theorem noLostWakeup_in_turn : Always step NoLostWakeup (Group.init : Group Bool)
    [.waitBits true bitZero, .waitBits false bitOne, .setBits 1, .take true, .resume true,
      .take false, .resume false] :=
  noLostWakeup_of_fair _ (by decide +kernel)

end Overtos.EventGroup
