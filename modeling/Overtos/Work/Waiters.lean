import Overtos.Work.Model

/-! Cancellers that wait on the completion semaphore: when one is left behind. -/
namespace Overtos.Work
open Runs

def Daemon.gives : Daemon → Bool
  | .moved _ | .completing _ => true
  | _ => false

def Thread.gives : Thread → Bool
  | .stopTimer _ | .drain _ | .completing _ _ => true
  | _ => false

def Thread.waits : Thread → Bool
  | .take _ => true
  | _ => false

variable {ι : Type}

def System.ToGive (s : System ι) : Prop :=
  s.shared.worker.hasItem = true ∨ .item ∈ s.shared.queue ∨ s.shared.daemon.gives = true ∨
    ∃ i, (s.threads i).gives = true

def System.Waits (s : System ι) : Prop := ∃ i, (s.threads i).waits = true

def System.Stranded (s : System ι) : Prop :=
  s.shared.state = .idle ∧ s.shared.tokens = 0 ∧ ¬s.ToGive ∧ s.Waits

/-- A failed submit restores `WORK_IDLE`, and a canceller takes a token, only if every canceller
that waits still finds one. -/
def Heeds (s : System ι) : Action ι → Prop
  | .thread i _ =>
    match s.threads i with
    | .undoState _ => s.Waits → 0 < s.shared.tokens ∨ s.ToGive
    | .take _ =>
      s.shared.state = .idle → (∃ j ≠ i, (s.threads j).waits = true) →
        1 < s.shared.tokens ∨ s.ToGive
    | _ => True
  | _ => True

def Thread.deinits : Thread → Bool
  | .look deinit | .tryCancel deinit _ | .stopTimer deinit | .drain deinit => deinit
  | .completing deinit _ | .checkSem deinit | .recheck deinit | .take deinit => deinit
  | .deleteTimer | .drainDeleted | .dropTimer | .destroySem | .dropHandler => true
  | _ => false

inductive Leaves (m : Shared) (p : Thread) (r : Shared × Thread) : Prop where
  | busy (h : r.1.state ≠ .idle)
  | token (h : 0 < r.1.tokens)
  | queued (h : .item ∈ r.1.queue)
  | gives (h : r.2.gives = true)
  | same (hs : r.1.state = m.state) (ht : r.1.tokens = m.tokens) (hq : r.1.queue = m.queue)
    (hp : p.gives = false) (hr : r.2.waits = false)

section

variable {k : Kernel} {depth : ℕ} {m n : Shared} {ok : Bool} {p : Thread} {r : Shared × Thread}

theorem tokensAfterGive_pos (h : m.semInited = true) : 0 < m.tokensAfterGive k := by
  cases k <;> simp [Shared.tokensAfterGive, h]

@[simp] theorem waitForCompletion_waits (deinit : Bool) :
    (k.waitForCompletion deinit).waits = false := by cases k <;> rfl

@[simp] theorem lostRace_waits (deinit : Bool) : (k.lostRace deinit).waits = false := by
  cases k <;> rfl

@[simp] theorem afterCancel_waits (deinit : Bool) : (k.afterCancel deinit).waits = false := by
  cases k <;> cases deinit <;> rfl

theorem waitForCompletion_deinits (deinit : Bool) :
    (k.waitForCompletion deinit).deinits = deinit := by cases k <;> rfl

theorem lostRace_deinits (deinit : Bool) : (k.lostRace deinit).deinits = deinit := by
  cases k <;> rfl

theorem afterCancel_deinits (deinit : Bool) :
    (k.afterCancel deinit).deinits = deinit := by cases k <;> cases deinit <;> rfl

theorem threadStep_leaves (hm : m.semInited = true) (hw : p.waits = false)
    (hu : ∀ d, p ≠ .undoState d) (hs : threadStep k depth m ok p = some r) : Leaves m p r := by
  revert hs hw hu
  fun_cases threadStep k depth m ok p
  all_goals intro hw hu hs
  case case6 =>
    obtain rfl | ⟨-, rfl⟩ := send_cases hs
    · exact .same rfl rfl rfl rfl rfl
    · exact .queued (by simp [Shared.enqueue])
  all_goals cases hs
  case case2 delayed hi => exact .busy (by cases delayed <;> simp [Shared.claimed])
  case case13 delayed => exact absurd rfl (hu delayed)
  case case17 => exact .busy (by simp)
  case case19 | case20 | case22 | case23 => exact .gives rfl
  case case24 => exact .token (tokensAfterGive_pos hm)
  case case28 hi => exact .busy hi
  case case29 => cases hw
  all_goals
    first
    | exact .same rfl rfl rfl rfl rfl
    | exact .same rfl rfl rfl rfl (by simp)

theorem threadStep_deinits (hp : p.deinits = false) (hs : threadStep k depth m ok p = some r) :
    r.2.deinits = false ∧ r.1.semInited = m.semInited := by
  revert hs hp
  fun_cases threadStep k depth m ok p
  all_goals intro hp hs
  case case6 =>
    obtain rfl | ⟨-, rfl⟩ := send_cases hs <;> exact ⟨rfl, rfl⟩
  all_goals cases hs
  case case17 deinit =>
    dsimp only
    split
    · exact ⟨hp, rfl⟩
    · exact ⟨(waitForCompletion_deinits deinit).trans hp, rfl⟩
  all_goals
    first
    | exact ⟨hp, rfl⟩
    | exact ⟨(waitForCompletion_deinits _).trans hp, rfl⟩
    | exact ⟨(lostRace_deinits _).trans hp, rfl⟩
    | exact ⟨(afterCancel_deinits _).trans hp, rfl⟩
    | cases hp

end

section

variable [DecidableEq ι] {k : Kernel} {depth : ℕ} {s t : System ι} {i : ι} {r : Shared × Thread}

def cancelStep (k : Kernel) (depth : ℕ) (s : System ι) : Action ι → Option (System ι)
  | .call _ .deinit => none
  | a => step k depth s a

structure System.InUse (s : System ι) : Prop where
  semInited : s.shared.semInited = true
  deinits : ∀ i, (s.threads i).deinits = false

theorem move_toGive (hw : r.1.worker = s.shared.worker) (hd : r.1.daemon = s.shared.daemon)
    (hq : r.1.queue = s.shared.queue) (hi : (s.threads i).gives = false)
    (hr : r.2.gives = false) : (s.move i r).ToGive ↔ s.ToGive := by
  have hthreads : (∃ j, ((s.move i r).threads j).gives = true) ↔
      ∃ j, (s.threads j).gives = true := by
    apply exists_congr
    intro j
    by_cases hj : j = i
    · subst hj
      simp [System.move, hi, hr]
    · simp [System.move, Function.update_of_ne hj]
  rw [System.ToGive, System.ToGive, hthreads]
  simp only [System.move, hw, hd, hq]

theorem move_waits (hr : r.2.waits = false) :
    (s.move i r).Waits ↔ ∃ j ≠ i, (s.threads j).waits = true := by
  apply exists_congr
  intro j
  by_cases hj : j = i
  · subst hj
    simp [System.move, hr]
  · simp [System.move, hj]

theorem not_stranded_of_leaves (h : ¬s.Stranded) (hw : r.1.worker = s.shared.worker)
    (hd : r.1.daemon = s.shared.daemon) (hl : Leaves s.shared (s.threads i) r) :
    ¬(s.move i r).Stranded := by
  rintro ⟨hstate, htokens, hgive, hwaits⟩
  have hself : ((s.move i r).threads i) = r.2 := by simp [System.move]
  cases hl with
  | busy hb => exact hb hstate
  | token ht => exact ht.ne' htokens
  | queued hq => exact hgive (.inr (.inl hq))
  | gives hg => exact hgive (.inr (.inr (.inr ⟨i, by rw [hself, hg]⟩)))
  | same hs ht hq hp hr =>
    have hg : r.2.gives = false := by
      by_contra hg
      exact hgive (.inr (.inr (.inr ⟨i, by rw [hself]; simpa using hg⟩)))
    rw [move_toGive hw hd hq hp hg] at hgive
    obtain ⟨j, -, hj⟩ := (move_waits hr).mp hwaits
    exact h ⟨hs.symm.trans hstate, ht.symm.trans htokens, hgive, j, hj⟩

omit [DecidableEq ι] in
theorem not_stranded_iff : ¬s.Stranded ↔
    (s.shared.state = .idle → s.Waits → 0 < s.shared.tokens ∨ s.ToGive) := by
  constructor
  · intro h hs hw
    by_contra hnone
    obtain ⟨ht, hg⟩ := not_or.mp hnone
    exact h ⟨hs, Nat.eq_zero_of_not_pos ht, hg, hw⟩
  · rintro h ⟨hs, ht, hg, hw⟩
    obtain hpos | hgive := h hs hw
    · exact hpos.ne' ht
    · exact hg hgive

theorem undo_stranded {d : Bool} (hp : s.threads i = .undoState d) :
    ¬(s.move i ({ s.shared with state := .idle }, .idle)).Stranded ↔
      (s.Waits → 0 < s.shared.tokens ∨ s.ToGive) := by
  have hwaits : s.Waits ↔ ∃ j ≠ i, (s.threads j).waits = true := by
    constructor
    · rintro ⟨j, hj⟩
      refine ⟨j, ?_, hj⟩
      rintro rfl
      rw [hp] at hj
      cases hj
    · rintro ⟨j, -, hj⟩
      exact ⟨j, hj⟩
  rw [not_stranded_iff, move_waits (by rfl), ← hwaits,
    move_toGive (by rfl) (by rfl) (by rfl) (by rw [hp]; rfl) (by rfl)]
  exact forall_prop_of_true rfl

theorem take_stranded {d : Bool} (hp : s.threads i = .take d) (ht : 0 < s.shared.tokens) :
    ¬(s.move i ({ s.shared with tokens := s.shared.tokens - 1 }, .recheck d)).Stranded ↔
      (s.shared.state = .idle → (∃ j ≠ i, (s.threads j).waits = true) →
        1 < s.shared.tokens ∨ s.ToGive) := by
  rw [not_stranded_iff, move_waits (by rfl),
    move_toGive (by rfl) (by rfl) (by rfl) (by rw [hp]; rfl) (by rfl)]
  have htokens : 0 < s.shared.tokens - 1 ↔ 1 < s.shared.tokens := by omega
  simp only [System.move, htokens]

theorem threadStep_stranded {ok : Bool} (hu : s.InUse) (h : ¬s.Stranded)
    (hs : threadStep k depth s.shared ok (s.threads i) = some r) :
    ¬(s.move i r).Stranded ↔ Heeds s (.thread i ok) := by
  obtain ⟨hw, hd, -⟩ := threadStep_frame hs
  cases hp : s.threads i with
  | undoState d =>
    rw [hp] at hs
    cases hs
    rw [undo_stranded hp]
    simp only [Heeds, hp]
  | take d =>
    rw [hp] at hs
    simp only [threadStep] at hs
    split at hs <;> cases hs
    rw [take_stranded hp ‹_›]
    simp only [Heeds, hp]
  | _ =>
    apply iff_of_true
    · apply not_stranded_of_leaves h hw hd
      apply threadStep_leaves hu.semInited _ _ hs
      · rw [hp]
        rfl
      · rw [hp]
        exact nofun
    · simp only [Heeds, hp]

omit [DecidableEq ι]

variable {n m : Shared} {a : Action ι}

theorem not_stranded_of_keeps (h : ¬s.Stranded) (hs : n.state = s.shared.state)
    (ht : n.tokens = s.shared.tokens) (hg : s.ToGive → System.ToGive { s with shared := n }) :
    ¬System.Stranded { s with shared := n } := by
  rintro ⟨hstate, htokens, hgive, hwaits⟩
  exact h ⟨hs.symm.trans hstate, ht.symm.trans htokens, fun hi => hgive (hg hi), hwaits⟩

theorem not_stranded_of_toGive (h : s.ToGive) : ¬s.Stranded := fun hs => hs.2.2.1 h

theorem hasItem_of_unclaimed {w : Worker} (h : w.unclaimed = true) : w.hasItem = true := by
  cases w <;> simp_all [Worker.unclaimed, Worker.hasItem]

theorem workerMove_stranded (hu : s.InUse) (h : ¬s.Stranded) (hs : WorkerMove k s.shared n) :
    ¬System.Stranded { s with shared := n } := by
  cases hs with
  | @takeOther q hw hq =>
    refine not_stranded_of_keeps h rfl rfl ?_
    rintro (hi | hi | hi)
    · rw [hw] at hi
      cases hi
    · rw [hq] at hi
      exact .inr (.inl (by simpa using hi))
    · exact .inr (.inr hi)
  | doneOther hw =>
    refine not_stranded_of_keeps h rfl rfl ?_
    rintro (hi | hi)
    · rw [hw] at hi
      cases hi
    · exact .inr hi
  | delay hm hw => exact not_stranded_of_toGive (.inl (hasItem_of_unclaimed hw))
  | complete c hw =>
    cases c with
    | clear | store => exact not_stranded_of_toGive (.inl rfl)
    | give =>
      intro hstranded
      exact (tokensAfterGive_pos hu.semInited).ne' hstranded.2.1
  | takeItem | run | noHandler | skip | handled => exact not_stranded_of_toGive (.inl rfl)

theorem workerMove_semInited (hs : WorkerMove k m n) : n.semInited = m.semInited := by
  cases hs with
  | complete c => cases c <;> rfl
  | _ => rfl

theorem delayTimerCb_semInited (hs : delayTimerCb depth m = some n) :
    n.semInited = m.semInited := by
  revert hs
  fun_cases delayTimerCb depth m
  all_goals
    intro hs
    cases hs
  case case8 c hd => cases c <;> rfl
  all_goals rfl

theorem delayTimerCb_stranded (h : ¬s.Stranded) (hs : delayTimerCb depth s.shared = some n) :
    ¬System.Stranded { s with shared := n } := by
  revert hs
  fun_cases delayTimerCb depth s.shared
  all_goals
    intro hs
    cases hs
  case case6 =>
    exact not_stranded_of_toGive (.inr (.inl (by simp [Shared.enqueue])))
  case case8 c hd =>
    cases c with
    | clear | store => exact not_stranded_of_toGive (.inr (.inr (.inl rfl)))
    | give => exact fun hstranded => absurd hstranded.2.1 nofun
  case case4 | case7 => exact not_stranded_of_toGive (.inr (.inr (.inl rfl)))
  all_goals
    refine not_stranded_of_keeps h rfl rfl ?_
    rintro (hi | hi | hi | hi)
    · exact .inl hi
    · exact .inr (.inl hi)
    · simp_all [Daemon.gives]
    · exact .inr (.inr (.inr hi))

variable [DecidableEq ι]

theorem cancelStep_call {c : Call} (hs : cancelStep k depth s (.call i c) = some t) :
    c ≠ .deinit ∧ t = s.move i (c.enter k s.shared) ∧ s.threads i = .idle := by
  cases c with
  | deinit => cases hs
  | submit | submitDelayed | cancel =>
    simp only [cancelStep, step] at hs
    split at hs <;> cases hs
    exact ⟨nofun, rfl, ‹_›⟩

theorem step_inUse (h : s.InUse) (hs : cancelStep k depth s a = some t) : t.InUse := by
  have hmove : ∀ i (r : Shared × Thread), r.1.semInited = s.shared.semInited →
      r.2.deinits = false → (s.move i r).InUse := by
    intro i r hsem hr
    refine ⟨hsem.trans h.semInited, fun j => ?_⟩
    by_cases hj : j = i
    · subst hj
      simpa only [System.move, Function.update_self] using hr
    · simpa only [System.move, Function.update_of_ne hj] using h.deinits j
  cases a with
  | call i c =>
    obtain ⟨hc, rfl, -⟩ := cancelStep_call hs
    apply hmove
    · cases c <;> cases k <;> rfl
    · cases c <;> cases k <;> first | rfl | exact absurd rfl hc
  | thread i ok =>
    obtain ⟨r, hr, rfl⟩ := Option.map_eq_some_iff.mp hs
    obtain ⟨hdeinits, hsem⟩ := threadStep_deinits (h.deinits i) hr
    exact hmove i r hsem hdeinits
  | worker =>
    obtain ⟨n, hn, rfl⟩ := Option.map_eq_some_iff.mp hs
    exact ⟨(workerMove_semInited (workerStep_move hn)).trans h.semInited, h.deinits⟩
  | timer =>
    obtain ⟨n, hn, rfl⟩ := Option.map_eq_some_iff.mp hs
    exact ⟨(delayTimerCb_semInited hn).trans h.semInited, h.deinits⟩
  | other =>
    simp only [cancelStep, step] at hs
    split at hs <;> cases hs
    exact ⟨h.semInited, h.deinits⟩

theorem step_stranded (hu : s.InUse) (h : ¬s.Stranded) (hs : cancelStep k depth s a = some t) :
    ¬t.Stranded ↔ Heeds s a := by
  cases a with
  | call i c =>
    obtain ⟨hc, rfl, hi⟩ := cancelStep_call hs
    have hp : (s.threads i).gives = false := by rw [hi]; rfl
    apply iff_of_true _ trivial
    cases c <;> cases k <;>
      first
      | exact absurd rfl hc
      | exact not_stranded_of_leaves h rfl rfl (.same rfl rfl rfl hp rfl)
  | thread i ok =>
    obtain ⟨r, hr, rfl⟩ := Option.map_eq_some_iff.mp hs
    exact threadStep_stranded hu h hr
  | worker =>
    obtain ⟨n, hn, rfl⟩ := Option.map_eq_some_iff.mp hs
    exact iff_of_true (workerMove_stranded hu h (workerStep_move hn)) trivial
  | timer =>
    obtain ⟨n, hn, rfl⟩ := Option.map_eq_some_iff.mp hs
    exact iff_of_true (delayTimerCb_stranded h hn) trivial
  | other =>
    simp only [cancelStep, step] at hs
    split at hs <;> cases hs
    apply iff_of_true _ trivial
    refine not_stranded_of_keeps h rfl rfl ?_
    rintro (hi | hi | hi)
    · exact .inl hi
    · exact .inr (.inl (List.mem_append_left _ hi))
    · exact .inr (.inr hi)

/-- No canceller is left behind exactly in the runs in which no failed submit and no other canceller
takes what those waiting wait for. -/
theorem cancellers_served_iff (k : Kernel) (depth : ℕ) (as : List (Action ι)) :
    Always (cancelStep k depth) (fun s => ¬s.Stranded) System.init as ↔
      Each (cancelStep k depth) Heeds System.init as := by
  apply always_iff_each (I := System.InUse)
  · exact fun s a t hu h hs => ⟨step_inUse hu hs, step_stranded hu h hs⟩
  · exact ⟨rfl, fun _ => rfl⟩
  · rintro ⟨-, -, -, i, hi⟩
    cases hi

end

instance decidableStranded [Fintype ι] (s : System ι) : Decidable s.Stranded :=
  inferInstanceAs (Decidable (_ ∧ _ ∧ ¬(_ ∨ _ ∨ _ ∨ ∃ i, (s.threads i).gives = true) ∧
    ∃ i, (s.threads i).waits = true))

def twoCancellers : Kernel → List (Action (Fin 3))
  | .freertos =>
    [.call 0 .submit, .thread 0 true, .thread 0 true, .thread 0 true, .worker, .worker,
      .call 1 .cancel, .thread 1 true, .thread 1 true,
      .call 2 .cancel, .thread 2 true, .thread 2 true,
      .worker, .worker, .worker, .worker, .thread 1 true]
  | .nuttx =>
    [.call 0 .submit, .thread 0 true, .thread 0 true, .thread 0 true,
      .worker, .worker, .worker, .worker,
      .call 1 .cancel, .thread 1 true, .thread 1 true, .thread 1 true,
      .call 2 .cancel, .thread 2 true, .thread 2 true, .thread 2 true,
      .worker, .worker, .worker, .worker, .thread 1 true]

def fullQueue : List (Action (Fin 3)) :=
  List.append (List.replicate 16 .other)
    [.call 0 .submit, .thread 0 true, .thread 0 true,
      .call 1 .cancel, .thread 1 true, .thread 1 true, .thread 1 true,
      .thread 0 true, .thread 0 true, .thread 0 true]

theorem canceller_stranded :
    (∀ k, ¬Always (cancelStep k 16) (fun s => ¬s.Stranded) System.init (twoCancellers k)) ∧
    ¬Always (cancelStep .freertos 16) (fun s => ¬s.Stranded) System.init fullQueue := by
  constructor
  · intro k h
    cases k with
    | freertos => exact h.last rfl (by decide +kernel)
    | nuttx => exact h.last rfl (by decide +kernel)
  · intro h
    exact h.last rfl (by decide +kernel)

end Overtos.Work
