import Overtos.Work.Model

/-! One handler invocation for each submit, none after a cancel, and one pointer in the queue. -/
namespace Overtos.Work
open Runs List

variable {k : Kernel} {depth : ℕ} {m n : Shared} {ok : Bool} {p : Thread} {r : Shared × Thread}

structure Shared.Once (m : Shared) : Prop where
  runs : m.runs ≤ 1
  cancelled : m.cancelled = true → m.runs = 0
  active : m.active ≤ 1
  queue : m.queue.count .item ≤ 1

structure Shared.Counted (m : Shared) : Prop where
  runs : m.runs ≤ 1
  cancelled : m.cancelled = true → m.runs = 0
  pending : m.state = .delayed ∨ m.state = .queued → m.runs = 0 ∧ m.cancelled = false
  running : m.state = .running → m.cancelled = false
  active : m.active = if m.worker = .inHandler then 1 else 0

theorem init_counted : Shared.init.Counted := by
  constructor <;> simp [Shared.init]

theorem Shared.Counted.keep (h : m.Counted) (hr : n.runs = m.runs) (hc : n.cancelled = m.cancelled)
    (hs : n.state = m.state ∨ n.state = .idle)
    (ha : n.active = if n.worker = .inHandler then 1 else 0) : n.Counted := by
  constructor
  · rw [hr]
    exact h.runs
  · rw [hr, hc]
    exact h.cancelled
  · rw [hr, hc]
    obtain hs | hs := hs
    · rw [hs]
      exact h.pending
    · simp [hs]
  · rw [hc]
    obtain hs | hs := hs
    · rw [hs]
      exact h.running
    · simp [hs]
  · exact ha

theorem Shared.Counted.no_handler (h : m.Counted) (hw : m.worker ≠ .inHandler) : m.active = 0 := by
  rw [h.active, if_neg hw]

theorem claimed_counted (h : m.Counted) (delayed : Bool) : (m.claimed delayed).Counted := by
  constructor
  · exact Nat.zero_le 1
  · exact fun _ => rfl
  · exact fun _ => ⟨rfl, rfl⟩
  · exact fun _ => rfl
  · exact h.active

theorem cancelled_counted (h : m.Counted) (hs : k.cancels m.state = true) :
    Shared.Counted { m with state := .cancelled, cancelled := true } := by
  have hpending : m.state = .delayed ∨ m.state = .queued := by
    cases k <;> cases hm : m.state <;> simp_all [Kernel.cancels]
  obtain ⟨hruns, -⟩ := h.pending hpending
  constructor
  · exact h.runs
  · exact fun _ => hruns
  · simp
  · simp
  · exact h.active

theorem threadStep_counted (h : m.Counted)
    (hp : ∀ d seen, p = .tryCancel d seen → k.cancels seen = true)
    (hs : threadStep k depth m ok p = some r) : r.1.Counted := by
  revert hs hp
  fun_cases threadStep k depth m ok p
  case case2 delayed hi =>
    intro _ hs
    cases hs
    exact claimed_counted h delayed
  case case6 =>
    intro _ hs
    obtain rfl | ⟨-, rfl⟩ := send_cases hs
    · exact h
    · exact h.keep rfl rfl (.inl rfl) h.active
  case case17 deinit =>
    intro hp hs
    cases hs
    exact cancelled_counted h (hp _ _ rfl)
  all_goals
    intro _ hs
    cases hs
  all_goals
    first
    | exact h.keep rfl rfl (.inl rfl) h.active
    | exact h.keep rfl rfl (.inr rfl) h.active

theorem unclaimed_ne_inHandler {w : Worker} (h : w.unclaimed = true) : w ≠ .inHandler := by
  rintro rfl
  cases h

theorem workerMove_counted (h : m.Counted) (hs : WorkerMove k m n) : n.Counted := by
  cases hs with
  | takeItem hw | takeOther hw | doneOther hw =>
    exact h.keep rfl rfl (.inl rfl) (h.no_handler (by simp [hw]))
  | delay hm hw =>
    have hactive := h.no_handler (unclaimed_ne_inHandler hm)
    exact h.keep rfl rfl (.inl rfl) (hactive.trans (if_neg (unclaimed_ne_inHandler hw)).symm)
  | run hm hs =>
    obtain ⟨hruns, hcancelled⟩ := h.pending (.inr hs)
    have hactive := h.no_handler (unclaimed_ne_inHandler hm)
    constructor <;> simp [Shared.runHandler, hruns, hcancelled, hactive]
  | noHandler hm hs =>
    obtain ⟨hruns, hcancelled⟩ := h.pending (.inr hs)
    have hactive := h.no_handler (unclaimed_ne_inHandler hm)
    constructor <;> simp [hruns, hcancelled, hactive]
  | skip hm => exact h.keep rfl rfl (.inl rfl) (h.no_handler (unclaimed_ne_inHandler hm))
  | handled hw =>
    have hactive : m.active = 1 := by rw [h.active, if_pos hw]
    exact h.keep rfl rfl (.inl rfl) (by simp [hactive])
  | complete c hw =>
    have hactive := h.no_handler (by simp [hw])
    cases c with
    | clear | give => exact h.keep rfl rfl (.inl rfl) hactive
    | store => exact h.keep rfl rfl (.inr rfl) hactive

theorem delayTimerCb_counted (h : m.Counted) (hs : delayTimerCb depth m = some n) : n.Counted := by
  revert hs
  fun_cases delayTimerCb depth m
  all_goals
    intro hs
    cases hs
  case case4 target hd hm =>
    obtain ⟨hruns, hcancelled⟩ := h.pending (.inl hm)
    constructor
    · exact h.runs
    · exact h.cancelled
    · exact fun _ => ⟨hruns, hcancelled⟩
    · exact fun _ => hcancelled
    · exact h.active
  case case8 c hd =>
    cases c with
    | clear | give => exact h.keep rfl rfl (.inl rfl) h.active
    | store => exact h.keep rfl rfl (.inr rfl) h.active
  all_goals exact h.keep rfl rfl (.inl rfl) h.active

def WorkState.active : WorkState → Bool
  | .queued | .running | .cancelled => true
  | .idle | .delayed => false

def Worker.holds : Worker → Bool
  | .waiting | .other | .completing .give => false
  | _ => true

def Daemon.holds : Daemon → Bool
  | .moved _ | .completing .clear | .completing .store => true
  | _ => false

def Thread.holds : Thread → Bool
  | .setTarget delayed | .undoTarget delayed | .undoState delayed => !delayed
  | .send | .stopTimer _ | .drain _ | .completing _ .clear | .completing _ .store => true
  | _ => false

inductive Holder (ι : Type) where
  | queue
  | worker
  | daemon
  | thread (i : ι)

variable {ι : Type}

def System.Holds (s : System ι) : Holder ι → Prop
  | .queue => .item ∈ s.shared.queue
  | .worker => s.shared.worker.holds = true
  | .daemon => s.shared.daemon.holds = true
  | .thread i => (s.threads i).holds = true

structure System.Owned (s : System ι) : Prop where
  unique : ∀ h h', s.Holds h → s.Holds h' → h = h'
  inactive : s.shared.state.active = false → ∀ h, ¬s.Holds h
  queue : s.shared.queue.count .item ≤ 1

namespace System.Owned

variable {s t : System ι}

theorem shrink (h : s.Owned) (ht : ∀ x, t.Holds x → s.Holds x)
    (hi : t.shared.state.active = false → ∀ x, ¬t.Holds x)
    (hq : t.shared.queue.count .item ≤ s.shared.queue.count .item) : t.Owned where
  unique x y hx hy := h.unique x y (ht x hx) (ht y hy)
  inactive := hi
  queue := hq.trans h.queue

theorem of_only (x : Holder ι) (ht : ∀ y, t.Holds y → y = x) (ha : t.shared.state.active = true)
    (hq : t.shared.queue.count .item ≤ 1) : t.Owned where
  unique y z hy hz := (ht y hy).trans (ht z hz).symm
  inactive hi := absurd (ha.symm.trans hi) (by decide)
  queue := hq

theorem of_none (ht : ∀ x, ¬t.Holds x) : t.Owned where
  unique x _ hx := absurd hx (ht x)
  inactive _ := ht
  queue := by
    rw [List.count_eq_zero.mpr (ht .queue)]
    exact Nat.zero_le 1

variable {x : Holder ι}

theorem active_of_holds (h : s.Owned) (hx : s.Holds x) : s.shared.state.active = true := by
  by_contra ha
  exact h.inactive (by simpa using ha) x hx

theorem count_eq_zero (h : s.Owned) (hx : s.Holds x) (hne : x ≠ .queue) :
    s.shared.queue.count .item = 0 := by
  rw [List.count_eq_zero]
  intro hmem
  exact hne (h.unique x .queue hx hmem)

end System.Owned

inductive ThreadHold (m : Shared) (p : Thread) (r : Shared × Thread) : Prop where
  | keep (hq : r.1.queue = m.queue) (hr : r.2.holds = true → p.holds = true)
    (ha : r.1.state.active = m.state.active)
  | gain (hq : r.1.queue = m.queue) (hm : m.state.active = false) (ha : r.1.state.active = true)
  | send (hq : r.1.queue = m.queue ++ [.item]) (hp : p.holds = true) (hr : r.2.holds = false)
    (ha : r.1.state.active = m.state.active)
  | drop (hq : r.1.queue = m.queue) (hp : p.holds = true) (hr : r.2.holds = false)
  | undo (hq : r.1.queue = m.queue) (hp : p = .undoState true) (hr : r.2.holds = false)

@[simp] theorem waitForCompletion_holds (deinit : Bool) :
    (k.waitForCompletion deinit).holds = false := by cases k <;> rfl

@[simp] theorem lostRace_holds (deinit : Bool) : (k.lostRace deinit).holds = false := by
  cases k <;> rfl

@[simp] theorem afterCancel_holds (deinit : Bool) : (k.afterCancel deinit).holds = false := by
  cases k <;> cases deinit <;> rfl

theorem threadStep_hold (hs : threadStep k depth m ok p = some r) : ThreadHold m p r := by
  revert hs
  fun_cases threadStep k depth m ok p
  all_goals intro hs
  case case6 =>
    obtain rfl | ⟨-, rfl⟩ := send_cases hs
    · exact .keep rfl (fun _ => rfl) rfl
    · exact .send rfl rfl rfl rfl
  all_goals cases hs
  case case2 delayed hm =>
    cases delayed with
    | true => exact .keep rfl (fun h => h) (by simp [hm, Shared.claimed, WorkState.active])
    | false => exact .gain rfl (by simp [hm, WorkState.active]) rfl
  case case13 delayed =>
    cases delayed with
    | true => exact .undo rfl rfl rfl
    | false => exact .drop rfl rfl rfl
  case case17 deinit =>
    cases hm : m.state with
    | idle | delayed => exact .gain rfl (by simp [hm, WorkState.active]) rfl
    | queued | running | cancelled =>
      exact .keep rfl (by simp) (by simp [hm, WorkState.active])
  case case23 deinit => exact .drop rfl rfl rfl
  all_goals
    first
    | exact .keep rfl (fun h => h) rfl
    | exact .keep rfl (by simp) rfl

section

variable [DecidableEq ι] {s t : System ι} {i : ι}

omit [DecidableEq ι] in
theorem holds_queue (hq : r.1.queue = s.shared.queue) (hx : .item ∈ r.1.queue) :
    s.Holds .queue := by
  rwa [hq] at hx

theorem move_holds (hw : r.1.worker = s.shared.worker) (hd : r.1.daemon = s.shared.daemon)
    {x : Holder ι} (hx : (s.move i r).Holds x) :
    (x = .thread i ∧ r.2.holds = true) ∨ (x = .queue ∧ .item ∈ r.1.queue) ∨
      (x ≠ .thread i ∧ x ≠ .queue ∧ s.Holds x) := by
  cases x with
  | queue => exact .inr (.inl ⟨rfl, hx⟩)
  | worker => exact .inr (.inr ⟨nofun, nofun, by rwa [System.Holds, ← hw]⟩)
  | daemon => exact .inr (.inr ⟨nofun, nofun, by rwa [System.Holds, ← hd]⟩)
  | thread j =>
    by_cases hj : j = i
    · subst hj
      simp only [System.Holds, System.move, Function.update_self] at hx
      exact .inl ⟨rfl, hx⟩
    · simp only [System.Holds, System.move, Function.update_of_ne hj] at hx
      exact .inr (.inr ⟨by simpa using hj, nofun, hx⟩)

theorem System.Owned.move_keep (h : s.Owned) (hw : r.1.worker = s.shared.worker)
    (hd : r.1.daemon = s.shared.daemon) (hq : r.1.queue = s.shared.queue)
    (hr : r.2.holds = true → (s.threads i).holds = true)
    (ha : r.1.state.active = s.shared.state.active) : (s.move i r).Owned := by
  have hsub : ∀ x, (s.move i r).Holds x → s.Holds x := by
    intro x hx
    obtain ⟨rfl, hi⟩ | ⟨rfl, hi⟩ | ⟨-, -, hi⟩ := move_holds hw hd hx
    · exact hr hi
    · exact holds_queue hq hi
    · exact hi
  apply h.shrink hsub
  · intro hi x hx
    exact h.inactive (ha ▸ hi) x (hsub x hx)
  · exact (congrArg (count .item) hq).le

theorem threadStep_owned (h : s.Owned)
    (hs : threadStep k depth s.shared ok (s.threads i) = some r)
    (hu : s.threads i = .undoState true → s.shared.state.active = false) : (s.move i r).Owned := by
  obtain ⟨hw, hd, -⟩ := threadStep_frame hs
  have hholds := fun x => @move_holds r ι _ s i hw hd x
  cases threadStep_hold hs with
  | keep hq hr ha => exact h.move_keep hw hd hq hr ha
  | gain hq hm ha =>
    have hnone := h.inactive hm
    apply System.Owned.of_only (.thread i) _ ha
    · exact (congrArg (count .item) hq).trans_le h.queue
    · intro x hx
      obtain ⟨hi, -⟩ | ⟨rfl, hi⟩ | ⟨-, -, hi⟩ := hholds x hx
      · exact hi
      · exact absurd (holds_queue hq hi) (hnone .queue)
      · exact absurd hi (hnone x)
  | send hq hp hr ha =>
    have hthread : s.Holds (.thread i) := hp
    apply System.Owned.of_only .queue
    · intro x hx
      obtain ⟨-, hi⟩ | ⟨hi, -⟩ | ⟨hne, -, hi⟩ := hholds x hx
      · exact absurd (hr.symm.trans hi) (by decide)
      · exact hi
      · exact absurd (h.unique x _ hi hthread) hne
    · exact ha.trans (h.active_of_holds hthread)
    · have hzero := h.count_eq_zero hthread nofun
      simp only [System.move, hq, count_append, hzero]
      decide
  | drop hq hp hr =>
    have hthread : s.Holds (.thread i) := hp
    apply System.Owned.of_none
    intro x hx
    obtain ⟨-, hi⟩ | ⟨rfl, hi⟩ | ⟨hne, -, hi⟩ := hholds x hx
    · exact absurd (hr.symm.trans hi) (by decide)
    · exact absurd (h.unique .queue _ (holds_queue hq hi) hthread) nofun
    · exact hne (h.unique x _ hi hthread)
  | undo hq hp hr =>
    have hnone := h.inactive (hu hp)
    apply System.Owned.of_none
    intro x hx
    obtain ⟨-, hi⟩ | ⟨rfl, hi⟩ | ⟨-, -, hi⟩ := hholds x hx
    · exact absurd (hr.symm.trans hi) (by decide)
    · exact hnone .queue (holds_queue hq hi)
    · exact hnone x hi

end

section

variable {s : System ι}

theorem System.Owned.shared (h : s.Owned)
    (hc : n.queue.count .item ≤ s.shared.queue.count .item)
    (hw : n.worker.holds = true → s.shared.worker.holds = true)
    (hd : n.daemon.holds = true → s.shared.daemon.holds = true)
    (ha : n.state.active = false → s.shared.state.active = false) :
    System.Owned { s with shared := n } := by
  have hsub : ∀ x, System.Holds { s with shared := n } x → s.Holds x := by
    intro x hx
    cases x with
    | queue => exact count_pos_iff.mp ((count_pos_iff.mpr hx).trans_le hc)
    | worker => exact hw hx
    | daemon => exact hd hx
    | thread i => exact hx
  apply h.shrink hsub _ hc
  intro hi x hx
  exact h.inactive (ha hi) x (hsub x hx)

theorem holds_of_unclaimed {w : Worker} (h : w.unclaimed = true) : w.holds = true := by
  cases w <;> simp_all [Worker.unclaimed, Worker.holds]

theorem workerMove_owned (h : s.Owned) (hs : WorkerMove k s.shared n) :
    System.Owned { s with shared := n } := by
  cases hs with
  | takeItem hw hq =>
    have hqueue : s.Holds .queue := by simp [System.Holds, hq]
    have hcount := h.queue
    rw [hq, count_cons_self] at hcount
    apply System.Owned.of_only .worker
    · intro x hx
      cases x with
      | queue =>
        have hpos := count_pos_iff.mpr hx
        dsimp only at hpos
        omega
      | worker => rfl
      | daemon => exact absurd (h.unique .daemon _ hx hqueue) nofun
      | thread i => exact absurd (h.unique (.thread i) _ hx hqueue) nofun
    · exact h.active_of_holds hqueue
    · dsimp only
      omega
  | @takeOther q hw hq =>
    have hcount : q.count .item ≤ s.shared.queue.count .item := by
      rw [hq]
      exact count_le_count_cons
    exact h.shared hcount nofun id id
  | doneOther hw => exact h.shared le_rfl nofun id id
  | delay hm hw => exact h.shared le_rfl (fun _ => holds_of_unclaimed hm) id id
  | run hm | noHandler hm => exact h.shared le_rfl (fun _ => holds_of_unclaimed hm) id nofun
  | skip hm => exact h.shared le_rfl (fun _ => holds_of_unclaimed hm) id id
  | handled hw => exact h.shared le_rfl (fun _ => by simp [hw, Worker.holds]) id id
  | complete c hw =>
    cases c with
    | clear => exact h.shared le_rfl (fun _ => by simp [hw, Worker.holds]) id id
    | store =>
      have hworker : s.Holds .worker := by simp [System.Holds, hw, Worker.holds]
      apply System.Owned.of_none
      intro x hx
      cases x with
      | queue => exact absurd (h.unique .queue _ hx hworker) nofun
      | worker => exact absurd hx nofun
      | daemon => exact absurd (h.unique .daemon _ hx hworker) nofun
      | thread i => exact absurd (h.unique (.thread i) _ hx hworker) nofun
    | give => exact h.shared le_rfl nofun id id

theorem delayTimerCb_owned (h : s.Owned) (hs : delayTimerCb depth s.shared = some n) :
    System.Owned { s with shared := n } := by
  revert hs
  fun_cases delayTimerCb depth s.shared
  all_goals
    intro hs
    cases hs
  case case4 target hd hm =>
    -- the callback takes a delayed item, which nobody holds
    have hnone := h.inactive (by rw [hm]; rfl)
    apply System.Owned.of_only .daemon
    · intro x hx
      cases x with
      | queue => exact absurd hx (hnone .queue)
      | worker => exact absurd hx (hnone .worker)
      | daemon => rfl
      | thread i => exact absurd hx (hnone (.thread i))
    · rfl
    · exact h.queue
  case case6 target hd hroom =>
    have hdaemon : s.Holds .daemon := by simp [System.Holds, hd, Daemon.holds]
    apply System.Owned.of_only .queue
    · intro x hx
      cases x with
      | queue => rfl
      | worker => exact absurd (h.unique .worker _ hx hdaemon) nofun
      | daemon => exact absurd hx nofun
      | thread i => exact absurd (h.unique (.thread i) _ hx hdaemon) nofun
    · exact h.active_of_holds hdaemon
    · have hzero := h.count_eq_zero hdaemon nofun
      simp only [Shared.enqueue, count_append, hzero]
      decide
  case case8 c hd =>
    cases c with
    | clear => exact h.shared le_rfl id (fun _ => by simp [hd, Daemon.holds]) id
    | store =>
      have hdaemon : s.Holds .daemon := by simp [System.Holds, hd, Daemon.holds]
      apply System.Owned.of_none
      intro x hx
      cases x with
      | queue => exact absurd (h.unique .queue _ hx hdaemon) nofun
      | worker => exact absurd (h.unique .worker _ hx hdaemon) nofun
      | daemon => exact absurd hx nofun
      | thread i => exact absurd (h.unique (.thread i) _ hx hdaemon) nofun
    | give => exact h.shared le_rfl id nofun id
  case case7 target hd hroom =>
    exact h.shared le_rfl id (fun _ => by simp [hd, Daemon.holds]) id
  all_goals exact h.shared le_rfl id nofun id

end

def Thread.fits : Kernel → Thread → Bool
  | k, .tryCancel _ seen => k.cancels seen
  | .nuttx, .claim delayed | .nuttx, .setTarget delayed => !delayed
  | .nuttx, .undoTarget delayed | .nuttx, .undoState delayed => !delayed
  | .nuttx, .armTimer | .nuttx, .startTimer => false
  | _, _ => true

/-- A failed delayed submit puts the item back to `WORK_IDLE` only while nobody has it in hand. -/
def Undisturbed (s : System ι) : Action ι → Prop
  | .thread i _ => s.threads i = .undoState true → s.shared.state.active = false
  | _ => True

instance decidableUndisturbed (s : System ι) : ∀ a, Decidable (Undisturbed s a)
  | .thread _ _ => inferInstanceAs (Decidable (_ → _))
  | .call _ _ | .worker | .timer | .other => .isTrue trivial

section

@[simp] theorem waitForCompletion_fits (deinit : Bool) :
    (k.waitForCompletion deinit).fits k = true := by cases k <;> rfl

@[simp] theorem afterCancel_fits (deinit : Bool) : (k.afterCancel deinit).fits k = true := by
  cases k <;> cases deinit <;> rfl

theorem threadStep_fits (hp : p.fits k = true) (hs : threadStep k depth m ok p = some r) :
    r.2.fits k = true := by
  revert hs hp
  fun_cases threadStep k depth m ok p
  all_goals intro hp hs
  case case6 =>
    obtain rfl | ⟨-, rfl⟩ := send_cases hs <;> cases k <;> rfl
  all_goals cases hs
  case case15 hcancels => exact hcancels
  case case17 deinit =>
    dsimp only
    split
    · cases k <;> rfl
    · simp
  all_goals
    first
    | cases k <;> rfl
    | cases k <;> exact hp
    | simp

structure System.Sane (k : Kernel) (s : System ι) : Prop where
  counted : s.shared.Counted
  fits : ∀ i, (s.threads i).fits k = true

theorem init_sane (k : Kernel) : (System.init : System ι).Sane k :=
  ⟨init_counted, fun _ => by cases k <;> rfl⟩

theorem init_owned : (System.init : System ι).Owned := by
  apply System.Owned.of_none
  intro x hx
  cases x <;> simp [System.Holds, System.init, Shared.init, Worker.holds, Daemon.holds,
    Thread.holds] at hx

variable {s t : System ι} {a : Action ι}

theorem once_of_owned (hs : s.Sane k) (ho : s.Owned) : s.shared.Once where
  runs := hs.counted.runs
  cancelled := hs.counted.cancelled
  active := by
    rw [hs.counted.active]
    split <;> decide
  queue := ho.queue

theorem nuttx_undisturbed (s : System ι) (h : s.Sane .nuttx) (a : Action ι) : Undisturbed s a := by
  cases a with
  | thread i ok =>
    intro hp
    have hfits := h.fits i
    rw [hp] at hfits
    cases hfits
  | call | worker | timer | other => trivial

variable [DecidableEq ι]

theorem step_sane (h : s.Sane k) (hs : step k depth s a = some t) : t.Sane k := by
  have hmove : ∀ i (r : Shared × Thread), r.1.Counted → r.2.fits k = true →
      (s.move i r).Sane k := by
    intro i r hcounted hfits
    refine ⟨hcounted, fun j => ?_⟩
    by_cases hj : j = i
    · subst hj
      simpa only [System.move, Function.update_self] using hfits
    · simpa only [System.move, Function.update_of_ne hj] using h.fits j
  cases a with
  | call i c =>
    simp only [step] at hs
    split at hs <;> cases hs
    apply hmove
    · cases c <;> cases k <;> exact h.counted.keep rfl rfl (.inl rfl) h.counted.active
    · cases c <;> cases k <;> rfl
  | thread i ok =>
    obtain ⟨r, hr, rfl⟩ := Option.map_eq_some_iff.mp hs
    have hfits := h.fits i
    apply hmove
    · exact threadStep_counted h.counted (fun d seen hp => by rw [hp] at hfits; exact hfits) hr
    · exact threadStep_fits hfits hr
  | worker =>
    obtain ⟨n, hn, rfl⟩ := Option.map_eq_some_iff.mp hs
    exact ⟨workerMove_counted h.counted (workerStep_move hn), h.fits⟩
  | timer =>
    obtain ⟨n, hn, rfl⟩ := Option.map_eq_some_iff.mp hs
    exact ⟨delayTimerCb_counted h.counted hn, h.fits⟩
  | other =>
    simp only [step] at hs
    split at hs <;> cases hs
    exact ⟨h.counted.keep rfl rfl (.inl rfl) h.counted.active, h.fits⟩

theorem step_owned (h : s.Owned) (hu : Undisturbed s a) (hs : step k depth s a = some t) : t.Owned := by
  cases a with
  | call i c =>
    simp only [step] at hs
    split at hs <;> cases hs
    cases c <;> cases k <;> exact h.move_keep rfl rfl rfl nofun rfl
  | thread i ok =>
    obtain ⟨r, hr, rfl⟩ := Option.map_eq_some_iff.mp hs
    exact threadStep_owned h hr hu
  | worker =>
    obtain ⟨n, hn, rfl⟩ := Option.map_eq_some_iff.mp hs
    exact workerMove_owned h (workerStep_move hn)
  | timer =>
    obtain ⟨n, hn, rfl⟩ := Option.map_eq_some_iff.mp hs
    exact delayTimerCb_owned h hn
  | other =>
    simp only [step] at hs
    split at hs <;> cases hs
    have hcount : (s.shared.queue ++ [Entry.other]).count .item ≤ s.shared.queue.count .item := by
      simp
    exact h.shared hcount id id id

theorem once_of_undisturbed {as : List (Action ι)}
    (h : Each (step k depth) Undisturbed System.init as) :
    Always (step k depth) (fun s => s.shared.Once) System.init as := by
  have hall : Always (step k depth) (fun s => s.Sane k ∧ s.Owned) System.init as :=
    always_of_each (fun s a t hs hu ht => ⟨step_sane hs.1 ht, step_owned hs.2 hu ht⟩)
      ⟨init_sane k, init_owned⟩ h
  exact hall.mono fun s hs => once_of_owned hs.1 hs.2

/-- At most one invocation for a submit, none once a canceller has won, never two at a time: on
NuttX in every run, on FreeRTOS if no failed delayed submit stores `WORK_IDLE` over an item in other
hands. -/
theorem handler_once (depth : ℕ) :
    (∀ as, Always (step .nuttx depth) (fun s => s.shared.Once) (System.init : System ι) as) ∧
    ∀ as, Each (step .freertos depth) Undisturbed (System.init : System ι) as →
      Always (step .freertos depth) (fun s => s.shared.Once) System.init as := by
  constructor
  · intro as
    have hall : Always (step .nuttx depth) (fun s : System ι => s.Sane .nuttx ∧ s.Owned)
        System.init as :=
      always_of_invariant
        (fun s a t hs ht => ⟨step_sane hs.1 ht, step_owned hs.2 (nuttx_undisturbed s hs.1 a) ht⟩)
        ⟨init_sane .nuttx, init_owned⟩ as
    exact hall.mono fun s hs => once_of_owned hs.1 hs.2
  · intro as h
    exact once_of_undisturbed h

end

def timerRefused : List (Action ℕ) :=
  [.call 0 (.submitDelayed 5), .thread 0 true, .thread 0 true, .thread 0 true, .thread 0 false,
    .thread 0 true, .thread 0 true]

theorem handler_once_timerRefused :
    Each (step .freertos 16) Undisturbed System.init timerRefused ∧
    Always (step .freertos 16) (fun s => s.shared.Once) System.init timerRefused := by
  have h : Each (step .freertos 16) Undisturbed System.init timerRefused := by decide +kernel
  exact ⟨h, (handler_once 16).2 timerRefused h⟩

/-- Thread 1 cancels the delayed submit of thread 0, whose timer command then fails; thread 2
submits the item, the canceller completes it, and thread 3 submits it once more. -/
def queuedTwice : List (Action ℕ) :=
  [.call 0 (.submitDelayed 5), .thread 0 true, .thread 0 true, .thread 0 true,
    .call 1 .cancel, .thread 1 true, .thread 1 true,
    .thread 0 false, .thread 0 true, .thread 0 true,
    .call 2 .submit, .thread 2 true, .thread 2 true, .thread 2 true,
    .thread 1 true, .thread 1 true, .thread 1 true, .thread 1 true, .thread 1 true,
    .call 3 .submit, .thread 3 true, .thread 3 true, .thread 3 true]

theorem pointer_queued_twice :
    ¬Always (step .freertos 16) (fun s => s.shared.Once) System.init queuedTwice := by
  intro h
  have hqueue := (h.last rfl).queue
  revert hqueue
  decide

end Overtos.Work
