import Overtos.Sync.Model

/-! Events of one waiting task: no wake-up is lost, and each latch is consumed once. -/
namespace Overtos.Sync
open Runs

variable {ι ε κ μ : Type}

def Pos.inWait : Pos ι ε κ μ → Bool
  | .dropStale _ _ | .register _ _ | .check _ _ | .block _ _ => true
  | .recheck _ _ _ | .deregister _ _ => true
  | _ => false

def Pos.waitsOn : Pos ι ε κ μ → Option ε
  | .check e _ | .block e _ | .recheck e _ _ | .deregister e _ => some e
  | _ => none

def System.AboutToGive (s : System ι ε κ μ) (e : ε) (w : ι) : Prop :=
  ∃ i, s.pos i = .giveEvent e w ∨ s.pos i = .loadWaiter e ∧ s.memory.waiter e = some w

def System.WokenUp (s : System ι ε κ μ) (w : ι) : Prop :=
  ∀ e, s.pos w = .block e true → s.memory.signaled e = true →
    0 < s.memory.count w ∨ s.AboutToGive e w

def System.ConsumesAfter (since : Memory ι ε κ μ → ε → ℕ) (s : System ι ε κ μ) (w : ι) : Prop :=
  ∀ e, s.pos w = .deregister e true → since s.memory e < s.memory.consumed e

structure System.Tracked (s : System ι ε κ μ) (w : ι) : Prop where
  sole : ∀ i, i ≠ w → (s.pos i).inWait = false
  registered : ∀ e, (s.pos w).waitsOn = some e → s.memory.waiter e = some w
  woken : ∀ e forever, s.pos w = .block e forever → s.memory.signaled e = true →
    0 < s.memory.count w ∨ s.AboutToGive e w
  fresh : ∀ e, s.memory.signaled e = true → s.memory.taken e < s.memory.stored e
  past : ∀ e, s.memory.taken e < s.memory.now
  consumes : s.ConsumesAfter Memory.previous w

theorem init_tracked (w : ι) : (System.init : System ι ε κ μ).Tracked w :=
  ⟨fun _ _ => rfl, nofun, nofun, nofun, fun _ => Nat.one_pos, nofun⟩

structure Outside (m : Memory ι ε κ μ) (i : ι) (r : Memory ι ε κ μ × Pos ι ε κ μ) : Prop where
  inWait : r.2.inWait = false
  waiter : r.1.waiter = m.waiter
  taken : r.1.taken = m.taken
  consumed : r.1.consumed = m.consumed
  previous : r.1.previous = m.previous
  count : ∀ j, j ≠ i → m.count j ≤ r.1.count j

theorem inWait_of_waitsOn {p : Pos ι ε κ μ} {e : ε} (h : p.waitsOn = some e) : p.inWait = true := by
  cases p <;> first | rfl | cases h

section

variable [DecidableEq ι] {m : Memory ι ε κ μ} {i j : ι}

theorem count_le_clear (h : j ≠ i) : m.count j ≤ (m.clear i).count j := by
  simp [Memory.clear, h]

theorem count_le_give : m.count j ≤ (m.give i).count j := by
  by_cases h : j = i
  · subst h
    simp [Memory.give]
  · simp [Memory.give, h]

theorem count_give_pos : 0 < (m.give i).count i := by
  simp [Memory.give]

end

theorem signaled_of_takeLatch [DecidableEq ε] {m : Memory ι ε κ μ} {e e' : ε}
    (h : (m.takeLatch e).signaled e' = true) : m.signaled e' = true := by
  by_cases he : e' = e
  · subst he
    simp [Memory.takeLatch] at h
  · simpa [Memory.takeLatch, he] using h

section

variable [DecidableEq ι] [DecidableEq ε] [DecidableEq κ] [DecidableEq μ]
  {m : Memory ι ε κ μ} {i : ι} {ok : Bool} {p : Pos ι ε κ μ}
  {r : Memory ι ε κ μ × Pos ι ε κ μ}

theorem taskStep_outside (hp : p.inWait = false) (hs : taskStep m i ok p = some r) :
    Outside m i r := by
  revert hp hs
  fun_cases taskStep m i ok p
  all_goals intro hp hs
  all_goals cases hs
  all_goals
    first
    | exact ⟨rfl, rfl, rfl, rfl, rfl, fun _ _ => le_rfl⟩
    | exact ⟨rfl, rfl, rfl, rfl, rfl, fun _ hj => count_le_clear hj⟩
    | exact ⟨rfl, rfl, rfl, rfl, rfl, fun _ _ => count_le_give⟩
    | cases hp

theorem taskStep_latch (hs : taskStep m i ok p = some r) :
    (∃ e, p = .storeLatch e ∧ r = (m.storeLatch e, .loadWaiter e)) ∨
      ((∀ e, r.1.signaled e = true → m.signaled e = true) ∧ r.1.stored = m.stored) := by
  revert hs
  fun_cases taskStep m i ok p
  all_goals intro hs
  all_goals cases hs
  all_goals
    first
    | exact .inr ⟨fun _ h => h, rfl⟩
    | exact .inr ⟨fun _ h => signaled_of_takeLatch h, rfl⟩
    | exact .inl ⟨_, rfl, rfl⟩

end

section

variable [DecidableEq ι] {s : System ι ε κ μ} {w : ι} {r : Memory ι ε κ μ × Pos ι ε κ μ}

theorem tracked_own (h : s.Tracked w)
    (hreg : ∀ e, r.2.waitsOn = some e → r.1.waiter e = some w)
    (hblock : ∀ e forever, r.2 = .block e forever → r.1.signaled e = false)
    (hfresh : ∀ e, r.1.signaled e = true → r.1.taken e < r.1.stored e)
    (hpast : ∀ e, r.1.taken e ≤ s.memory.now)
    (hcons : ∀ e, r.2 = .deregister e true → r.1.previous e < r.1.consumed e) :
    (s.move w r).Tracked w := by
  constructor
  · intro j hj
    rw [move_pos_of_ne hj, h.sole j hj]
  · intro e he
    rw [move_pos_self] at he
    exact hreg e he
  · intro e forever hb hl
    rw [move_pos_self] at hb
    exact absurd ((hblock e forever hb).symm.trans hl) nofun
  · exact hfresh
  · intro e
    exact Nat.lt_succ_of_le (hpast e)
  · intro e hd
    rw [move_pos_self] at hd
    exact hcons e hd

theorem tracked_takeLatch [DecidableEq ε] {e : ε} (h : s.Tracked w)
    (hw : s.memory.waiter e = some w)
    (hl : s.memory.signaled e = true) :
    (s.move w (s.memory.takeLatch e, .deregister e true)).Tracked w := by
  apply tracked_own h
  · intro e' he
    cases he
    exact hw
  · exact nofun
  · intro e' hl'
    by_cases he : e' = e
    · subst he
      simp [Memory.takeLatch] at hl'
    · simpa [Memory.takeLatch, he] using h.fresh e' (signaled_of_takeLatch hl')
  · intro e'
    by_cases he : e' = e
    · subst he
      simp [Memory.takeLatch]
    · simpa [Memory.takeLatch, he] using (h.past e').le
  · intro e' he
    cases he
    simpa [Memory.takeLatch] using h.fresh e hl

theorem tracked_keep (h : s.Tracked w) (hsig : r.1.signaled = s.memory.signaled)
    (hstored : r.1.stored = s.memory.stored) (htaken : r.1.taken = s.memory.taken)
    (hreg : ∀ e, r.2.waitsOn = some e → r.1.waiter e = some w)
    (hblock : ∀ e forever, r.2 = .block e forever → s.memory.signaled e = false)
    (hcons : ∀ e, r.2 ≠ .deregister e true) : (s.move w r).Tracked w := by
  apply tracked_own h hreg
  · intro e forever hb
    rw [hsig]
    exact hblock e forever hb
  · rw [hsig, hstored, htaken]
    exact h.fresh
  · rw [htaken]
    exact fun e => (h.past e).le
  · exact fun e he => absurd he (hcons e)

theorem tracked_call {i : ι} {p : Pos ι ε κ μ} (h : s.Tracked w) (hi : i ≠ w)
    (hidle : s.pos i = .idle) (hp : p.inWait = false) :
    (s.move i (s.memory, p)).Tracked w := by
  have hpos : (s.move i (s.memory, p)).pos w = s.pos w := move_pos_of_ne hi.symm
  constructor
  · intro j hj
    by_cases hji : j = i
    · rw [hji, move_pos_self, hp]
    · rw [move_pos_of_ne hji, h.sole j hj]
  · intro e he
    rw [hpos] at he
    exact h.registered e he
  · intro e forever hb hl
    rw [hpos] at hb
    obtain hc | ⟨j, hj⟩ := h.woken e forever hb hl
    · exact .inl hc
    · have hji : j ≠ i := by
        rintro rfl
        rw [hidle] at hj
        obtain hj | ⟨hj, -⟩ := hj <;> cases hj
      refine .inr ⟨j, ?_⟩
      rw [move_pos_of_ne hji]
      exact hj
  · exact h.fresh
  · exact fun e => (h.past e).trans (Nat.lt_succ_self _)
  · intro e hd
    rw [hpos] at hd
    exact h.consumes e hd

end

def soleStep [DecidableEq ι] [DecidableEq ε] [DecidableEq κ] [DecidableEq μ] (w : ι)
    (s : System ι ε κ μ) : Action ι ε κ μ → Option (System ι ε κ μ)
  | .call i (.eventWait e forever) =>
    if i = w then step s (.call i (.eventWait e forever)) else none
  | a => step s a

section

variable [DecidableEq ι] [DecidableEq ε] [DecidableEq κ] [DecidableEq μ]
  {s t : System ι ε κ μ} {w i : ι} {ok : Bool} {r : Memory ι ε κ μ × Pos ι ε κ μ}

theorem aboutToGive_move {e : ε} (h : s.AboutToGive e w) (hw : s.memory.waiter e = some w)
    (hm : r.1.waiter = s.memory.waiter)
    (hs : taskStep s.memory i ok (s.pos i) = some r) :
    0 < (s.move i r).memory.count w ∨ (s.move i r).AboutToGive e w := by
  obtain ⟨j, hj⟩ := h
  by_cases hji : j = i
  · subst hji
    obtain hj | ⟨hj, -⟩ := hj
    · rw [hj] at hs
      cases hs
      exact .inl count_give_pos
    · rw [hj] at hs
      simp only [taskStep, hw] at hs
      cases hs
      exact .inr ⟨j, .inl move_pos_self⟩
  · refine .inr ⟨j, ?_⟩
    rw [move_pos_of_ne hji]
    obtain hj | hj := hj
    · exact .inl hj
    · exact .inr ⟨hj.1, by rw [System.move, hm, hw]⟩

theorem tracked_outside (h : s.Tracked w) (hp : (s.pos i).inWait = false)
    (hs : taskStep s.memory i ok (s.pos i) = some r) : (s.move i r).Tracked w := by
  have ho := taskStep_outside hp hs
  -- a task that is now in an event wait has not moved
  have hstill : ∀ j, ((s.move i r).pos j).inWait = true → j ≠ i := by
    rintro j hj rfl
    rw [move_pos_self, ho.inWait] at hj
    cases hj
  constructor
  · intro j hj
    by_cases hji : j = i
    · rw [hji, move_pos_self, ho.inWait]
    · rw [move_pos_of_ne hji, h.sole j hj]
  · intro e he
    have hwi := hstill w (inWait_of_waitsOn he)
    rw [move_pos_of_ne hwi] at he
    exact (congrFun ho.waiter e).trans (h.registered e he)
  · intro e forever hb hl
    have hwi := hstill w (by rw [hb]; rfl)
    rw [move_pos_of_ne hwi] at hb
    have hreg := h.registered e (by rw [hb]; rfl)
    have hkept : s.memory.signaled e = true →
        0 < (s.move i r).memory.count w ∨ (s.move i r).AboutToGive e w := by
      intro hold
      obtain hc | hg := h.woken e forever hb hold
      · exact .inl (hc.trans_le (ho.count w hwi))
      · exact aboutToGive_move hg hreg ho.waiter hs
    obtain ⟨e', hp', rfl⟩ | ⟨hsig, -⟩ := taskStep_latch hs
    · by_cases he : e = e'
      · subst he
        exact .inr ⟨i, .inr ⟨move_pos_self, hreg⟩⟩
      · apply hkept
        simpa [System.move, Memory.storeLatch, he] using hl
    · exact hkept (hsig e hl)
  · intro e hl
    obtain ⟨e', hp', rfl⟩ | ⟨hsig, hstored⟩ := taskStep_latch hs
    · by_cases he : e = e'
      · subst he
        simpa [System.move, Memory.storeLatch] using h.past e
      · simp only [System.move, Memory.storeLatch, Function.update_of_ne he] at hl ⊢
        exact h.fresh e hl
    · have hfresh := h.fresh e (hsig e hl)
      simpa only [System.move, ho.taken, hstored] using hfresh
  · intro e
    have hpast := h.past e
    simp only [System.move, ho.taken]
    omega
  · intro e hd
    have hwi := hstill w (by rw [hd]; rfl)
    rw [move_pos_of_ne hwi] at hd
    simpa only [System.move, ho.previous, ho.consumed] using h.consumes e hd

theorem tracked_wait (h : s.Tracked w) (hp : (s.pos w).inWait = true)
    (hs : taskStep s.memory w ok (s.pos w) = some r) : (s.move w r).Tracked w := by
  have hreg := h.registered
  revert hp hreg
  cases hpos : s.pos w with
  | dropStale e forever =>
    intro _ _
    rw [hpos] at hs
    cases hs
    exact tracked_keep h rfl rfl rfl nofun nofun nofun
  | register e forever =>
    intro _ _
    rw [hpos] at hs
    cases hs
    exact tracked_keep h rfl rfl rfl (by simp [Pos.waitsOn, Memory.setWaiter]) nofun nofun
  | check e forever =>
    intro _ hreg
    rw [hpos] at hs
    simp only [taskStep] at hs
    split_ifs at hs with hl ht <;> cases hs
    · exact tracked_takeLatch h (hreg e rfl) hl
    · exact tracked_keep h rfl rfl rfl hreg nofun nofun
    · exact tracked_keep h rfl rfl rfl hreg (by simpa using hl) nofun
  | block e forever =>
    intro _ hreg
    rw [hpos] at hs
    simp only [taskStep] at hs
    split_ifs at hs with hc ht <;> cases hs <;> exact tracked_keep h rfl rfl rfl hreg nofun nofun
  | recheck e forever got =>
    intro _ hreg
    rw [hpos] at hs
    simp only [taskStep] at hs
    split_ifs at hs with hl hg <;> cases hs
    · exact tracked_takeLatch h (hreg e rfl) hl
    · exact tracked_keep h rfl rfl rfl hreg nofun nofun
    · exact tracked_keep h rfl rfl rfl hreg nofun nofun
  | deregister e ok =>
    intro _ _
    rw [hpos] at hs
    cases hs
    exact tracked_keep h rfl rfl rfl nofun nofun nofun
  | _ =>
    intro hp _
    cases hp

theorem soleStep_call {c : Call ε κ μ} (hs : soleStep w s (.call i c) = some t) :
    (∀ e forever, c = .eventWait e forever → i = w) ∧ s.pos i = .idle ∧
      t = s.move i (s.memory, c.first) := by
  have hstep : step s (.call i c) = some t := by
    cases c with
    | eventWait e forever =>
      simp only [soleStep] at hs
      split at hs
      · exact hs
      · cases hs
    | _ => exact hs
  have hsole : ∀ e forever, c = .eventWait e forever → i = w := by
    rintro e forever rfl
    by_contra hi
    simp [soleStep, hi] at hs
  simp only [step] at hstep
  split at hstep
  next hidle =>
    cases hstep
    exact ⟨hsole, hidle, rfl⟩
  next => cases hstep

theorem soleStep_tracked {a : Action ι ε κ μ} (h : s.Tracked w) (hs : soleStep w s a = some t) :
    t.Tracked w := by
  cases a with
  | run i ok =>
    obtain ⟨r, hr, rfl⟩ := Option.map_eq_some_iff.mp hs
    by_cases hp : (s.pos i).inWait = true
    · have hi : i = w := by
        by_contra hi
        exact absurd (h.sole i hi ▸ hp) nofun
      subst hi
      exact tracked_wait h hp hr
    · exact tracked_outside h (by simpa using hp) hr
  | call i c =>
    obtain ⟨hc, hidle, rfl⟩ := soleStep_call hs
    by_cases hi : i = w
    · subst hi
      cases c <;> exact tracked_keep h rfl rfl rfl nofun nofun nofun
    · apply tracked_call h hi hidle
      cases c <;> first | rfl | exact absurd (hc _ _ rfl) hi

/-- Under a sole waiter no wake-up is lost, and every `OVE_OK` consumes a latch of its own. -/
theorem sole_waiter_served (w : ι) (as : List (Action ι ε κ μ)) :
    Always (soleStep w) (fun s => s.WokenUp w ∧ s.ConsumesAfter Memory.previous w) System.init
      as := by
  have hall : Always (soleStep w) (fun s : System ι ε κ μ => s.Tracked w) System.init as :=
    always_of_invariant (fun _ _ _ h hs => soleStep_tracked h hs) (init_tracked w) as
  exact hall.mono fun s h => ⟨fun e => h.woken e true, h.consumes⟩

end

def signalBeforeReturn : List (Action ℕ Unit Unit Unit) :=
  [.call 1 (.eventSignal ()), .run 1 true, .run 1 true,
    .call 0 (.eventWait () true), .run 0 true, .run 0 true, .run 0 true,
    .call 1 (.eventSignal ()), .run 1 true, .run 0 true,
    .call 0 (.eventWait () true), .run 0 true, .run 0 true, .run 0 true]

theorem consumed_before_return :
    ¬Always (soleStep 0)
      (fun s => s.WokenUp 0 ∧ s.ConsumesAfter Memory.returned 0) System.init
      signalBeforeReturn := by
  intro h
  have hlater := (h.last rfl).2 () rfl
  revert hlater
  decide

end Overtos.Sync
