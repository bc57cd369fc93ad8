import Overtos.Lib.Runs
import Overtos.Lib.Tally
import Overtos.Types

/-! The condition variables of the NuttX backend: a count of waiters, and a semaphore with a token
for each wake-up. -/
namespace Overtos.Condvar
open Runs Tally Function List

inductive Pos where
  | idle
  | enrolled (forever : Bool)
  | waiting (ticket : ℕ) (forever : Bool)
  | woken (ok : Bool)
  | relocked (ok : Bool)
  | posting (left : ℕ)
  deriving DecidableEq, Repr

structure Call where
  all : Bool
  before : ℕ
  takes : ℕ
  posted : ℕ
  deriving DecidableEq, Repr

/-- The last four fields record what happened: the waits that released the mutex, the tickets that
took a token, the calls, and what the waits returned. -/
structure Cv (ι : Type) where
  owner : Option ι
  guard : Option ι
  nwaiters : ℕ
  tokens : ℕ
  pos : ι → Pos
  tickets : ℕ
  taken : List ℕ
  calls : List Call
  returned : List (ι × Rc)

inductive Action (ι : Type) where
  | lock (i : ι)
  | unlock (i : ι)
  | wait (i : ι) (forever : Bool)
  | release (i : ι)
  | take (i : ι)
  | expire (i : ι)
  | relock (i : ι)
  | retire (i : ι)
  | signal (i : ι)
  | broadcast (i : ι)
  | post (i : ι)
  | endBroadcast (i : ι)
  deriving DecidableEq, Repr

variable {ι : Type}

def Cv.init : Cv ι := ⟨none, none, 0, 0, fun _ => .idle, 0, [], [], []⟩

section

variable [DecidableEq ι]

def Cv.move (s : Cv ι) (i : ι) (p : Pos) : Cv ι := { s with pos := update s.pos i p }

/-- One lock or unlock, one operation on the semaphore, or what is done under the guard. -/
def step (s : Cv ι) : Action ι → Option (Cv ι)
  | .lock i => if s.pos i = .idle ∧ s.owner = none then some { s with owner := some i } else none
  | .unlock i => if s.pos i = .idle ∧ s.owner = some i then some { s with owner := none } else none
  | .wait i forever =>
    if s.pos i = .idle ∧ s.owner = some i ∧ s.guard = none then
      some (Cv.move { s with nwaiters := s.nwaiters + 1 } i (.enrolled forever))
    else none
  | .release i =>
    match s.pos i with
    | .enrolled forever =>
      some (Cv.move { s with owner := none, tickets := s.tickets + 1 } i
        (.waiting s.tickets forever))
    | _ => none
  | .take i =>
    match s.pos i with
    | .waiting ticket _ =>
      if 0 < s.tokens then
        some (Cv.move { s with tokens := s.tokens - 1, taken := s.taken ++ [ticket] } i
          (.woken true))
      else none
    | _ => none
  | .expire i =>
    match s.pos i with
    | .waiting _ false => some (s.move i (.woken false))
    | _ => none
  | .relock i =>
    match s.pos i with
    | .woken ok =>
      if s.owner = none then some (Cv.move { s with owner := some i } i (.relocked ok)) else none
    | _ => none
  | .retire i =>
    match s.pos i with
    | .relocked ok =>
      if s.guard = none then
        some (Cv.move { s with
          nwaiters := s.nwaiters - 1
          returned := s.returned ++ [(i, if ok then .ok else .errTimeout)] } i .idle)
      else none
    | _ => none
  | .signal i =>
    if s.pos i = .idle ∧ s.guard = none then
      let posts := if 0 < s.nwaiters then 1 else 0
      some { s with
        tokens := s.tokens + posts
        calls := s.calls ++
          [⟨false, s.tickets, s.taken.length, s.taken.length + s.tokens + posts⟩] }
    else none
  | .broadcast i =>
    if s.pos i = .idle ∧ s.guard = none then
      some (Cv.move { s with
        guard := some i
        calls := s.calls ++
          [⟨true, s.tickets, s.taken.length, s.taken.length + s.tokens + s.nwaiters⟩] } i
        (.posting s.nwaiters))
    else none
  | .post i =>
    match s.pos i with
    | .posting (left + 1) => some (Cv.move { s with tokens := s.tokens + 1 } i (.posting left))
    | _ => none
  | .endBroadcast i =>
    match s.pos i with
    | .posting 0 => some (Cv.move { s with guard := none } i .idle)
    | _ => none

end

def Pos.ticket : Pos → Option ℕ
  | .waiting ticket _ => some ticket
  | _ => none

def Pos.left : Pos → ℕ
  | .posting left => left
  | _ => 0

def Cv.Waits (s : Cv ι) (c : Call) : Prop := ∃ i, ∃ w ∈ (s.pos i).ticket, w < c.before

def Cv.HasToken [Fintype ι] (s : Cv ι) : Prop := 0 < s.tokens + tally Pos.left s.pos

def Cv.served (s : Cv ι) (c : Call) : ℕ := s.taken.countP (· < c.before)

structure Delivered [Fintype ι] (s : Cv ι) : Prop where
  broadcast : ∀ c ∈ s.calls, c.all = true → s.Waits c → s.HasToken
  signal : ∀ c ∈ s.calls, c.all = false → s.Waits c →
    s.HasToken ∨ ∃ v ∈ s.taken.drop c.takes, v < c.before
  tokens : ∀ c ∈ s.calls, s.Waits c → s.HasToken ∨ c.posted ≤ s.served c

def Action.taker : Action ι → Option ι
  | .take i => some i
  | _ => none

def InOrder (s : Cv ι) (a : Action ι) : Prop :=
  ∀ i ∈ a.taker, ∀ w ∈ (s.pos i).ticket, ∀ j, ∀ v ∈ (s.pos j).ticket, w ≤ v

instance [Fintype ι] (s : Cv ι) (a : Action ι) : Decidable (InOrder s a) :=
  inferInstanceAs (Decidable (∀ i ∈ a.taker, _))

def Pos.inside : Pos → ℕ
  | .enrolled _ | .waiting _ _ | .woken _ | .relocked _ => 1
  | _ => 0

def Pos.waitsBefore (before : ℕ) : Pos → ℕ
  | .waiting ticket _ => if ticket < before then 1 else 0
  | _ => 0

section

variable [Fintype ι] {s t : Cv ι} {a : Action ι} {c : Call}

def Cv.ahead (s : Cv ι) (c : Call) : ℕ := tally (Pos.waitsBefore c.before) s.pos

/-- While threads wait that were there before the call, the tokens posted are there or went to such
threads, and are enough. -/
structure CallSound (s : Cv ι) (c : Call) : Prop where
  before : c.before ≤ s.tickets
  takes : c.takes ≤ s.taken.length
  owed : s.ahead c = 0 ∨ c.posted ≤ s.served c + (s.tokens + tally Pos.left s.pos)
  enough : s.ahead c = 0 ∨
    if c.all then s.ahead c + s.served c ≤ c.posted else c.takes < c.posted

structure Sound (s : Cv ι) : Prop where
  inside : s.nwaiters = tally Pos.inside s.pos
  tickets : ∀ i, ∀ w ∈ (s.pos i).ticket, w < s.tickets
  taken : ∀ v ∈ s.taken, v < s.tickets
  calls : ∀ c ∈ s.calls, CallSound s c

theorem CallSound.mono (h : CallSound s c) (htickets : s.tickets ≤ t.tickets)
    (htaken : t.taken = s.taken) (hahead : t.ahead c ≤ s.ahead c)
    (htokens : s.tokens + tally Pos.left s.pos ≤ t.tokens + tally Pos.left t.pos) :
    CallSound t c := by
  have hserved : t.served c = s.served c := by rw [Cv.served, htaken, Cv.served]
  refine ⟨h.before.trans htickets, htaken ▸ h.takes, ?_, ?_⟩
  · rcases h.owed with hnone | howed
    · exact .inl (by omega)
    · exact .inr (by omega)
  · rcases h.enough with hnone | henough
    · exact .inl (by omega)
    · right
      cases hall : c.all with
      | true =>
        rw [hall, if_pos rfl] at henough
        rw [if_pos rfl]
        omega
      | false =>
        rwa [hall, if_neg Bool.false_ne_true] at henough

theorem ahead_pos_of_waits (h : s.Waits c) : 0 < s.ahead c := by
  obtain ⟨i, w, hw, hlt⟩ := h
  have hself := le_tally (Pos.waitsBefore c.before) s.pos i
  have hone : (s.pos i).waitsBefore c.before = 1 := by
    cases hpos : s.pos i with
    | waiting ticket forever =>
      rw [hpos] at hw
      cases hw
      exact if_pos hlt
    | _ => simp [hpos, Pos.ticket] at hw
  rw [hone] at hself
  exact hself

theorem ahead_eq_zero (h : ∀ i, ∀ w ∈ (s.pos i).ticket, c.before ≤ w) : s.ahead c = 0 := by
  apply tally_eq_zero
  intro i
  cases hpos : s.pos i with
  | waiting ticket forever =>
    have hle := h i ticket (by rw [hpos]; rfl)
    exact if_neg (Nat.not_lt.mpr hle)
  | _ => rfl

theorem delivered_of_sound (h : Sound s) : Delivered s := by
  have howed : ∀ c ∈ s.calls, s.Waits c → s.HasToken ∨ c.posted ≤ s.served c := by
    intro c hc hwaits
    have hpos := ahead_pos_of_waits hwaits
    rcases (h.calls c hc).owed with hnone | howed
    · omega
    · rcases Nat.eq_zero_or_pos (s.tokens + tally Pos.left s.pos) with hzero | htoken
      · exact .inr (by omega)
      · exact .inl htoken
  refine ⟨fun c hc hall hwaits => ?_, fun c hc hall hwaits => ?_, howed⟩
  · have hpos := ahead_pos_of_waits hwaits
    have henough := (h.calls c hc).enough
    rw [hall, if_pos rfl] at henough
    rcases howed c hc hwaits with htoken | hserved
    · exact htoken
    · omega
  · have hpos := ahead_pos_of_waits hwaits
    have henough := (h.calls c hc).enough
    rw [hall, if_neg Bool.false_ne_true] at henough
    refine (howed c hc hwaits).imp_right fun hserved => ?_
    -- More threads than tokens taken before the call: one of them took its token after it.
    have hsplit : s.served c = (s.taken.take c.takes).countP (· < c.before) +
        (s.taken.drop c.takes).countP (· < c.before) := by
      rw [← countP_append, take_append_drop, Cv.served]
    have hfront := (countP_le_length (p := (· < c.before)) (l := s.taken.take c.takes)).trans
      (length_take_le _ _)
    have hback : 0 < (s.taken.drop c.takes).countP (· < c.before) := by omega
    obtain ⟨v, hv, hlt⟩ := countP_pos_iff.mp hback
    exact ⟨v, hv, of_decide_eq_true hlt⟩

theorem Sound.of_move [DecidableEq ι] (h : Sound s) {i : ι} {p p' : Pos} (hp : s.pos i = p)
    (hpos : t.pos = update s.pos i p') (htaken : t.taken = s.taken)
    (hcalls : t.calls = s.calls) (htickets : s.tickets ≤ t.tickets)
    (hin : t.nwaiters + p.inside = s.nwaiters + p'.inside)
    (hticket : ∀ w ∈ p'.ticket, w < t.tickets)
    (hahead : ∀ b ≤ s.tickets, p'.waitsBefore b ≤ p.waitsBefore b)
    (htokens : s.tokens + p.left ≤ t.tokens + p'.left) : Sound t := by
  subst hp
  constructor
  · have hmove := tally_update Pos.inside s.pos i p'
    have hold := h.inside
    rw [hpos]
    omega
  · intro j w hw
    rw [hpos] at hw
    rcases eq_or_ne j i with rfl | hne
    · rw [update_self] at hw
      exact hticket w hw
    · rw [update_of_ne hne] at hw
      exact (h.tickets j w hw).trans_le htickets
  · intro v hv
    rw [htaken] at hv
    exact (h.taken v hv).trans_le htickets
  · intro c hc
    rw [hcalls] at hc
    have hcall := h.calls c hc
    have hmove := tally_update (Pos.waitsBefore c.before) s.pos i p'
    have hleft := tally_update Pos.left s.pos i p'
    have hless := hahead c.before hcall.before
    refine hcall.mono htickets htaken ?_ ?_
    · rw [Cv.ahead, Cv.ahead, hpos]
      omega
    · rw [hpos]
      omega

theorem Sound.of_leave [DecidableEq ι] (h : Sound s) {i : ι} {p p' : Pos} (hp : s.pos i = p)
    (hpos : t.pos = update s.pos i p') (htaken : t.taken = s.taken)
    (hcalls : t.calls = s.calls) (htickets : s.tickets ≤ t.tickets) (hoff : p'.ticket = none)
    (hin : t.nwaiters + p.inside = s.nwaiters + p'.inside)
    (htokens : s.tokens + p.left ≤ t.tokens + p'.left) : Sound t := by
  refine h.of_move hp hpos htaken hcalls htickets hin (fun w hw => ?_) (fun b _ => ?_) htokens
  · rw [hoff] at hw
    cases hw
  · cases p' with
    | waiting ticket forever => cases hoff
    | _ => exact Nat.zero_le _

theorem Sound.of_call (h : Sound s) (hc : CallSound s c) :
    Sound { s with calls := s.calls ++ [c] } := by
  refine ⟨h.inside, h.tickets, h.taken, fun d hd => ?_⟩
  rcases mem_append.mp hd with hold | hnew
  · have hcall := h.calls d hold
    exact ⟨hcall.before, hcall.takes, hcall.owed, hcall.enough⟩
  · rw [mem_singleton.mp hnew]
    exact ⟨hc.before, hc.takes, hc.owed, hc.enough⟩

theorem Sound.served_now (h : Sound s) (hc : c.before = s.tickets) :
    s.served c = s.taken.length := by
  rw [Cv.served, countP_eq_length]
  intro v hv
  rw [hc]
  exact decide_eq_true (h.taken v hv)

theorem Pos.waitsBefore_le_inside (b : ℕ) (p : Pos) : p.waitsBefore b ≤ p.inside := by
  cases p with
  | waiting ticket forever =>
    simp only [waitsBefore, inside]
    split_ifs <;> omega
  | _ => exact Nat.zero_le _

theorem Sound.ahead_le (h : Sound s) (c : Call) : s.ahead c ≤ s.nwaiters := by
  rw [h.inside]
  exact tally_mono (Pos.waitsBefore_le_inside c.before) s.pos

theorem sound_signal (h : Sound s) {posts : ℕ} (hposts : posts = if 0 < s.nwaiters then 1 else 0) :
    Sound { s with
      tokens := s.tokens + posts
      calls := s.calls ++
        [⟨false, s.tickets, s.taken.length, s.taken.length + s.tokens + posts⟩] } := by
  have hposted : Sound { s with tokens := s.tokens + posts } :=
    ⟨h.inside, h.tickets, h.taken, fun c hc =>
      (h.calls c hc).mono le_rfl rfl le_rfl (by dsimp only; omega)⟩
  refine hposted.of_call ⟨le_rfl, le_rfl, .inr ?_, ?_⟩
  · rw [hposted.served_now rfl]
    dsimp only
    omega
  · have hle := h.ahead_le ⟨false, s.tickets, s.taken.length, s.taken.length + s.tokens + posts⟩
    rw [if_neg Bool.false_ne_true]
    dsimp only
    split_ifs at hposts with hsome
    · exact .inr (by omega)
    · exact .inl (Nat.le_zero.mp (hle.trans (Nat.le_of_not_lt hsome)))

section

variable [DecidableEq ι]

theorem sound_broadcast (h : Sound s) {i : ι} (hpos : s.pos i = .idle) : Sound (Cv.move { s with
      guard := some i
      calls := s.calls ++
        [⟨true, s.tickets, s.taken.length, s.taken.length + s.tokens + s.nwaiters⟩] } i
      (.posting s.nwaiters)) := by
  have hmoved : Sound (Cv.move { s with guard := some i } i (.posting s.nwaiters)) :=
    h.of_leave hpos rfl rfl rfl le_rfl rfl rfl (Nat.le_add_right _ _)
  have hleft := tally_update Pos.left s.pos i (.posting s.nwaiters)
  rw [hpos] at hleft
  have hnone : Pos.left .idle = 0 := rfl
  have hall : Pos.left (.posting s.nwaiters) = s.nwaiters := rfl
  refine hmoved.of_call ⟨le_rfl, le_rfl, .inr ?_, .inr ?_⟩
  · rw [hmoved.served_now rfl]
    simp only [Cv.move]
    omega
  · have hle := hmoved.ahead_le
      ⟨true, s.tickets, s.taken.length, s.taken.length + s.tokens + s.nwaiters⟩
    rw [if_pos rfl, hmoved.served_now rfl]
    simp only [Cv.move] at hle ⊢
    omega

theorem sound_take (h : Sound s) {i : ι} {ticket : ℕ} {forever : Bool}
    (hpos : s.pos i = .waiting ticket forever) (htoken : 0 < s.tokens)
    (horder : InOrder s (.take i)) :
    Sound (Cv.move { s with tokens := s.tokens - 1, taken := s.taken ++ [ticket] } i
      (.woken true)) := by
  have hself : ticket ∈ (s.pos i).ticket := by rw [hpos]; rfl
  have hleft := tally_update Pos.left s.pos i (.woken true)
  rw [hpos] at hleft
  have hnone : Pos.left (.woken true) = 0 := rfl
  have hzero : Pos.left (.waiting ticket forever) = 0 := rfl
  constructor
  · have hmove := tally_update Pos.inside s.pos i (.woken true)
    rw [hpos] at hmove
    have hone : Pos.inside (.waiting ticket forever) = Pos.inside (.woken true) := rfl
    have hold := h.inside
    simp only [Cv.move]
    omega
  · intro j w hw
    simp only [Cv.move] at hw
    rcases eq_or_ne j i with rfl | hne
    · rw [update_self] at hw
      cases hw
    · rw [update_of_ne hne] at hw
      exact h.tickets j w hw
  · intro v hv
    rcases mem_append.mp hv with hold | hnew
    · exact h.taken v hold
    · rw [mem_singleton.mp hnew]
      exact h.tickets i ticket hself
  · intro c hc
    have hcall := h.calls c hc
    have hmove := tally_update (Pos.waitsBefore c.before) s.pos i (.woken true)
    rw [hpos] at hmove
    have hgone : Pos.waitsBefore c.before (.woken true) = 0 := rfl
    have hserved : (s.taken ++ [ticket]).countP (· < c.before) =
        s.served c + if ticket < c.before then 1 else 0 := by
      rw [countP_append, countP_singleton, Cv.served]
      simp only [decide_eq_true_eq]
    have hweight : Pos.waitsBefore c.before (.waiting ticket forever) =
        if ticket < c.before then 1 else 0 := rfl
    have htakes := hcall.takes
    rcases Nat.lt_or_ge ticket c.before with hbefore | hafter
    · -- The thread was there before the call: one token and one thread less.
      rw [if_pos hbefore] at hserved hweight
      refine ⟨hcall.before, by simp only [Cv.move, length_append]; omega, ?_, ?_⟩
      · refine hcall.owed.imp (fun hnone => ?_) fun howed => ?_
        · simp only [Cv.ahead, Cv.move] at hnone ⊢
          omega
        · simp only [Cv.served, Cv.move] at howed hserved ⊢
          omega
      · refine hcall.enough.imp (fun hnone => ?_) fun henough => ?_
        · simp only [Cv.ahead, Cv.move] at hnone ⊢
          omega
        · split_ifs at henough ⊢
          · simp only [Cv.ahead, Cv.served, Cv.move] at henough hserved ⊢
            omega
          · exact henough
    · -- It came later, and so did all that are at the semaphore.
      have hnone : Cv.ahead (Cv.move { s with tokens := s.tokens - 1, taken := s.taken ++ [ticket] }
          i (.woken true)) c = 0 := by
        apply ahead_eq_zero
        intro j w hw
        simp only [Cv.move] at hw
        rcases eq_or_ne j i with rfl | hne
        · rw [update_self] at hw
          cases hw
        · rw [update_of_ne hne] at hw
          exact hafter.trans (horder i rfl ticket hself j w hw)
      exact ⟨hcall.before, by simp only [Cv.move, length_append]; omega, .inl hnone, .inl hnone⟩

theorem step_sound (h : Sound s) (horder : InOrder s a) (hstep : step s a = some t) : Sound t := by
  revert hstep
  fun_cases step s a <;> intro hstep <;> cases hstep
  iterate 2 -- `lock` and `unlock`
    next => exact { h with calls := fun c hc => (h.calls c hc).mono le_rfl rfl le_rfl le_rfl }
  · next i forever hidle => -- `wait`
    exact h.of_leave hidle.1 rfl rfl rfl le_rfl rfl rfl le_rfl
  · next i forever hpos => -- `release`
    refine h.of_move hpos rfl rfl rfl (Nat.le_succ _) rfl (fun w hw => ?_) (fun b hb => ?_) le_rfl
    · rw [← Option.some.inj hw]
      exact Nat.lt_succ_self _
    · exact (if_neg (Nat.not_lt.mpr hb)).le.trans (Nat.zero_le _)
  · next i ticket forever hpos htoken => exact sound_take h hpos htoken horder
  · next i ticket hpos => -- `expire`
    exact h.of_leave hpos rfl rfl rfl le_rfl rfl rfl le_rfl
  · next i ok hpos hfree => -- `relock`
    exact h.of_leave hpos rfl rfl rfl le_rfl rfl rfl le_rfl
  · next i ok hpos hfree => -- `retire`, where the thread itself is counted
    have hself := le_tally Pos.inside s.pos i
    have hold := h.inside
    rw [hpos] at hself
    refine h.of_leave hpos rfl rfl rfl le_rfl rfl ?_ le_rfl
    simp only [Cv.move, Pos.inside] at hself ⊢
    omega
  · exact sound_signal h rfl
  · next i hidle => exact sound_broadcast h hidle.1
  · next i left hpos => -- `post`
    refine h.of_leave hpos rfl rfl rfl le_rfl rfl rfl ?_
    simp only [Cv.move, Pos.left]
    omega
  · next i hpos => exact h.of_leave hpos rfl rfl rfl le_rfl rfl rfl le_rfl

end

theorem init_sound : Sound (Cv.init : Cv ι) :=
  ⟨(tally_eq_zero fun _ => rfl).symm, (fun _ w hw => by cases hw), (fun v hv => by cases hv),
    (fun c hc => by cases hc)⟩

end

section

local instance threeThreads : NeZero 3 := ⟨by decide⟩

def late : List (Action (Fin 3)) :=
  [.lock 0, .wait 0 true, .release 0, .signal 1, .lock 2, .wait 2 true, .release 2, .take 2]

end

theorem token_taken_late : ¬Always step Delivered (Cv.init : Cv (Fin 3)) late := by
  intro h
  have hlast := h.last rfl
  have hwaits := hlast.signal ⟨false, 1, 0, 1⟩ (by decide) rfl ⟨0, 0, rfl, Nat.zero_lt_one⟩
  rcases hwaits with htoken | ⟨v, hv, hlt⟩
  · exact absurd htoken (by unfold Cv.HasToken; decide)
  · have hlate : v = 1 := mem_singleton.mp hv
    exact absurd (hlate ▸ hlt) (Nat.lt_irrefl 1)

/-- If the tokens are taken in the order of the mutex releases, every signal wakes whom it is for.
-/
theorem delivered_of_inOrder {ι : Type} [DecidableEq ι] [Fintype ι] (as : List (Action ι))
    (h : Each step InOrder Cv.init as) : Always step Delivered (Cv.init : Cv ι) as :=
  (always_of_each (fun _ _ _ hs horder hstep => step_sound hs horder hstep) init_sound h).mono
    fun _ => delivered_of_sound

theorem delivered_to_both : Always step Delivered (Cv.init : Cv (Fin 3))
    [.lock 0, .wait 0 false, .release 0, .lock 2, .wait 2 true, .release 2, .broadcast 1, .post 1,
      .take 0, .post 1, .endBroadcast 1, .relock 0, .take 2, .retire 0] :=
  delivered_of_inOrder _ (by decide +kernel)

end Overtos.Condvar
