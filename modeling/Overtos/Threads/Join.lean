import Overtos.Sync.Model

/-! Joining a thread on the FreeRTOS backend, one atomic step at a time. -/
namespace Overtos.Threads
open Runs

inductive Worker where
  | entry | publish | check | notify | suspend | suspended
  deriving DecidableEq, Repr

inductive Caller where
  | enter | publish | check | drain | block | delete | freeStack | freeWrapper | done
  deriving DecidableEq, Repr

/-- The only task ever stored in `destroyer` is the caller. -/
structure Join where
  exited : Bool
  destroyer : Bool
  count : ℕ
  worker : Worker
  caller : Caller
  deleted : Bool
  freed : Bool
  deriving DecidableEq, Repr

def Join.init (count : ℕ) : Join := ⟨false, false, count, .entry, .enter, false, false⟩

/-- `destroy` tells `ove_thread_destroy` from `ove_thread_deinit`; others may notify the caller
where `others` allows it. -/
structure Cfg where
  destroy : Bool
  separateHeap : Bool
  started : Bool
  others : Caller → Bool

def freertosThreadWrapper (s : Join) : Option Join :=
  if s.deleted then none
  else
    match s.worker with
    | .entry => some { s with worker := .publish }
    | .publish => some { s with exited := true, worker := .check }
    | .check => some { s with worker := if s.destroyer then .notify else .suspend }
    | .notify => some { s with count := s.count + 1, worker := .suspend }
    | .suspend => some { s with worker := .suspended }
    | .suspended => none

def oveThreadDestroy (cfg : Cfg) (s : Join) : Option Join :=
  match s.caller with
  | .enter => some { s with caller := if cfg.started then .publish else .delete }
  | .publish => some { s with destroyer := true, caller := .check }
  | .check => some { s with caller := if s.exited then .drain else .block }
  | .drain => some { s with count := 0, caller := .delete }
  | .block => if 0 < s.count then some { s with count := 0, caller := .delete } else none
  | .delete =>
    some { s with
      deleted := true
      caller :=
        if cfg.destroy then if cfg.separateHeap then .freeStack else .freeWrapper else .done }
  | .freeStack => some { s with freed := true, caller := .freeWrapper }
  | .freeWrapper => some { s with freed := true, caller := .done }
  | .done => none

inductive Act where
  | worker | caller | give
  deriving DecidableEq, Repr

def step (cfg : Cfg) (s : Join) : Act → Option Join
  | .worker => if cfg.started then freertosThreadWrapper s else none
  | .caller => oveThreadDestroy cfg s
  | .give => if cfg.others s.caller then some { s with count := s.count + 1 } else none

/-- The thread is freed only after its entry function has returned, and a caller blocked after
`exited` goes on after at most two steps of the wrapper. -/
structure Joined (cfg : Cfg) (s : Join) : Prop where
  returned : s.deleted = true ∨ s.freed = true → s.worker ≠ .entry
  woken : s.exited = true → s.caller = .block →
    ∃ k ≤ 2, ∃ t, (List.replicate k Act.worker).foldlM (step cfg) s = some t ∧
      (step cfg t .caller).isSome

def Caller.waiting : Caller → Bool
  | .enter | .publish | .check | .block => true
  | _ => false

def Caller.past : Caller → Bool
  | .delete | .freeStack | .freeWrapper | .done => true
  | _ => false

theorem Caller.not_waiting_of_past {p : Caller} (h : p.past = true) : p.waiting = false := by
  revert h
  cases p <;> decide

structure Handshake (s : Join) : Prop where
  exited : s.exited = true ↔ s.worker ≠ .entry ∧ s.worker ≠ .publish
  destroyer : s.destroyer = true ↔ s.caller ≠ .enter ∧ s.caller ≠ .publish
  noticed : s.caller = .block → s.count = 0 → s.worker ≠ .suspend ∧ s.worker ≠ .suspended
  alive : s.deleted = true ∨ s.freed = true → s.caller.past = true ∧ s.caller ≠ .delete

section

variable {cfg : Cfg} {s t : Join}

theorem handshake_init (n : ℕ) : Handshake (.init n) := by
  constructor <;> simp [Join.init]

theorem handshake_worker (hI : Handshake s) (hs : freertosThreadWrapper s = some t) :
    Handshake t := by
  unfold freertosThreadWrapper at hs
  by_cases hdeleted : s.deleted = true
  · rw [if_pos hdeleted] at hs
    cases hs
  rw [if_neg hdeleted] at hs
  obtain ⟨exited, destroyer, count, worker, caller, deleted, freed⟩ := s
  obtain ⟨hexited, hdestroyer, hnoticed, halive⟩ := hI
  dsimp only at *
  cases worker with
  | entry =>
    cases hs
    exact ⟨by simpa using hexited, hdestroyer, fun _ _ => by simp, halive⟩
  | publish =>
    cases hs
    exact ⟨by simp, hdestroyer, fun _ _ => by simp, halive⟩
  | check =>
    cases hs
    refine ⟨?_, hdestroyer, ?_, halive⟩
    · cases destroyer <;> simpa using hexited
    · intro hblock _
      -- a caller that blocks has stored itself before
      have hblock : caller = .block := hblock
      have hstored : destroyer = true := hdestroyer.mpr (by simp [hblock])
      simp [hstored]
  | notify =>
    cases hs
    exact ⟨by simpa using hexited, hdestroyer, fun _ h => absurd h (by simp), halive⟩
  | suspend =>
    cases hs
    refine ⟨by simpa using hexited, hdestroyer, fun hblock hzero => ?_, halive⟩
    exact absurd rfl (hnoticed hblock hzero).1
  | suspended => cases hs

theorem handshake_caller (hstarted : cfg.started = true) (hI : Handshake s)
    (hs : oveThreadDestroy cfg s = some t) : Handshake t := by
  obtain ⟨exited, destroyer, count, worker, caller, deleted, freed⟩ := s
  obtain ⟨hexited, hdestroyer, hnoticed, halive⟩ := hI
  unfold oveThreadDestroy at hs
  dsimp only at *
  cases caller with
  | enter =>
    cases hs
    exact ⟨hexited, by simpa [hstarted] using hdestroyer, by simp [hstarted],
      fun h => absurd (halive h).1 (by simp [Caller.past])⟩
  | publish =>
    cases hs
    exact ⟨hexited, by simp, by simp, fun h => absurd (halive h).1 (by simp [Caller.past])⟩
  | check =>
    cases hs
    refine ⟨hexited, ?_, ?_, fun h => absurd (halive h).1 (by simp [Caller.past])⟩
    · cases exited <;> simpa using hdestroyer
    · intro hblock _
      -- it blocks only if `exited` was not set
      have hrunning : exited = false := by
        cases exited with
        | false => rfl
        | true => simp at hblock
      rw [hrunning] at hexited
      constructor
      · rintro rfl
        simp at hexited
      · rintro rfl
        simp at hexited
  | drain =>
    cases hs
    exact ⟨hexited, by simpa using hdestroyer, by simp,
      fun h => absurd (halive h).1 (by simp [Caller.past])⟩
  | block =>
    dsimp only at hs
    split_ifs at hs
    cases hs
    exact ⟨hexited, by simpa using hdestroyer, by simp,
      fun h => absurd (halive h).1 (by simp [Caller.past])⟩
  | delete =>
    cases hs
    refine ⟨hexited, ?_, ?_, ?_⟩
    · cases cfg.destroy <;> cases cfg.separateHeap <;> simpa using hdestroyer
    · cases cfg.destroy <;> cases cfg.separateHeap <;> simp
    · cases cfg.destroy <;> cases cfg.separateHeap <;> simp [Caller.past]
  | freeStack =>
    cases hs
    exact ⟨hexited, by simpa using hdestroyer, by simp, fun _ => by simp [Caller.past]⟩
  | freeWrapper =>
    cases hs
    exact ⟨hexited, by simpa using hdestroyer, by simp, fun _ => by simp [Caller.past]⟩
  | done => cases hs

theorem handshake_step (hstarted : cfg.started = true) {a : Act} (hI : Handshake s)
    (hs : step cfg s a = some t) : Handshake t := by
  cases a with
  | worker =>
    rw [step, if_pos hstarted] at hs
    exact handshake_worker hI hs
  | caller => exact handshake_caller hstarted hI hs
  | give =>
    simp only [step] at hs
    split_ifs at hs
    cases hs
    exact ⟨hI.exited, hI.destroyer, fun _ h => absurd h (by simp), hI.alive⟩

theorem Handshake.woken (hstarted : cfg.started = true) (hI : Handshake s)
    (hexited : s.exited = true) (hblock : s.caller = .block) :
    ∃ k ≤ 2, ∃ t, (List.replicate k Act.worker).foldlM (step cfg) s = some t ∧
      (step cfg t .caller).isSome := by
  have hgo : ∀ t : Join, t.caller = .block → 0 < t.count → (step cfg t .caller).isSome := by
    intro t ht hcount
    simp [step, oveThreadDestroy, ht, hcount]
  rcases Nat.eq_zero_or_pos s.count with hzero | hpos
  · have halive : s.deleted = false := by
      by_contra h
      exact absurd (hI.alive (.inl (by simpa using h))).1 (by simp [hblock, Caller.past])
    have hstored : s.destroyer = true := hI.destroyer.mpr (by simp [hblock])
    have hreturned := hI.exited.mp hexited
    have hpending := hI.noticed hblock hzero
    cases hw : s.worker with
    | entry => exact absurd hw hreturned.1
    | publish => exact absurd hw hreturned.2
    | check =>
      refine ⟨2, le_rfl, { s with count := s.count + 1, worker := .suspend }, ?_,
        hgo _ hblock (Nat.succ_pos _)⟩
      simp [List.replicate, step, hstarted, freertosThreadWrapper, halive, hw, hstored]
    | notify =>
      refine ⟨1, by norm_num, { s with count := s.count + 1, worker := .suspend }, ?_,
        hgo _ hblock (Nat.succ_pos _)⟩
      simp [List.replicate, step, hstarted, freertosThreadWrapper, halive, hw]
    | suspend => exact absurd hw hpending.1
    | suspended => exact absurd hw hpending.2
  · exact ⟨0, by norm_num, s, rfl, hgo s hblock hpos⟩

structure Undisturbed (s : Join) : Prop where
  quiet : s.caller.waiting = true → s.worker = .entry → s.count = 0
  returned : s.caller.waiting = false → s.worker ≠ .entry

theorem wrapper_returned (hs : freertosThreadWrapper s = some t) : t.worker ≠ .entry := by
  unfold freertosThreadWrapper at hs
  by_cases hdeleted : s.deleted = true
  · rw [if_pos hdeleted] at hs
    cases hs
  rw [if_neg hdeleted] at hs
  cases hw : s.worker
  all_goals
    rw [hw] at hs
    cases hs
  · simp
  · simp
  · cases s.destroyer <;> simp
  · simp
  · simp

theorem undisturbed_caller (hstarted : cfg.started = true) (hI : Handshake s) (h : Undisturbed s)
    (hs : oveThreadDestroy cfg s = some t) : Undisturbed t := by
  obtain ⟨exited, destroyer, count, worker, caller, deleted, freed⟩ := s
  obtain ⟨hquiet, hreturned⟩ := h
  have hexited := hI.exited
  unfold oveThreadDestroy at hs
  dsimp only at *
  cases caller with
  | enter =>
    cases hs
    rw [if_pos hstarted]
    exact ⟨fun _ => hquiet rfl, fun h => absurd h (by simp [Caller.waiting])⟩
  | publish =>
    cases hs
    exact ⟨fun _ => hquiet rfl, fun h => absurd h (by simp [Caller.waiting])⟩
  | check =>
    cases hs
    cases exited with
    | false => exact ⟨fun _ => hquiet rfl, fun h => absurd h (by simp [Caller.waiting])⟩
    | true =>
      have hworker := (hexited.mp rfl).1
      exact ⟨fun _ h => absurd h hworker, fun _ => hworker⟩
  | block =>
    dsimp only at hs
    split_ifs at hs with hpos
    cases hs
    -- a notification was pending, so the entry function has returned
    have hworker : worker ≠ .entry := fun h => absurd (hquiet rfl h) hpos.ne'
    exact ⟨fun _ h => absurd h hworker, fun _ => hworker⟩
  | delete =>
    cases hs
    exact ⟨fun _ h => absurd h (hreturned rfl), fun _ => hreturned rfl⟩
  | drain | freeStack | freeWrapper =>
    cases hs
    exact ⟨fun _ h => absurd h (hreturned rfl), fun _ => hreturned rfl⟩
  | done => cases hs

theorem undisturbed_step (hstarted : cfg.started = true)
    (hothers : ∀ p : Caller, p.waiting = true → cfg.others p = false) {a : Act} (hI : Handshake s)
    (h : Undisturbed s) (hs : step cfg s a = some t) : Undisturbed t := by
  cases a with
  | worker =>
    rw [step, if_pos hstarted] at hs
    have hworker := wrapper_returned hs
    exact ⟨fun _ h => absurd h hworker, fun _ => hworker⟩
  | caller => exact undisturbed_caller hstarted hI h hs
  | give =>
    simp only [step] at hs
    split_ifs at hs with hgive
    cases hs
    refine ⟨fun hwaiting => ?_, h.returned⟩
    exact absurd hgive (by simp [hothers s.caller hwaiting])

end

def hasty (p : Option Caller) : List Act :=
  [.enter, .publish, .check, .block, .delete].flatMap fun q =>
    if p = some q then [.give, .caller] else [.caller]

theorem hasty_deletes {cfg : Cfg} (hstarted : cfg.started = true) {n : ℕ} {p : Option Caller}
    (hgive : ∀ q ∈ p, q.waiting = true ∧ cfg.others q = true) (hnone : p = none → 0 < n) :
    ∃ t, (hasty p).foldlM (step cfg) (.init n) = some t ∧ t.deleted = true ∧ t.worker = .entry := by
  cases p with
  | none =>
    have hpos := hnone rfl
    simp [hasty, step, oveThreadDestroy, Join.init, hstarted, hpos]
  | some q =>
    obtain ⟨hwaiting, hothers⟩ := hgive q rfl
    cases q with
    | enter | publish | check | block =>
      simp [hasty, step, oveThreadDestroy, Join.init, hstarted, hothers]
    | drain | delete | freeStack | freeWrapper | done => cases hwaiting

/-- The join is right exactly if no notification is left over at the call, and no other task
notifies the caller until the wait is over. -/
theorem join_safe_iff (cfg : Cfg) (hstarted : cfg.started = true) (n : ℕ) :
    (∀ acts, Always (step cfg) (Joined cfg) (.init n) acts) ↔
      n = 0 ∧ ∀ p : Caller, p.waiting = true → cfg.others p = false := by
  constructor
  · intro h
    have hnever : ∀ p : Option Caller, (∀ q ∈ p, q.waiting = true ∧ cfg.others q = true) →
        ¬(p = none → 0 < n) := by
      intro p hgive hnone
      obtain ⟨t, ht, hdeleted, hentry⟩ := hasty_deletes hstarted hgive hnone
      exact ((h _).last ht).returned (.inl hdeleted) hentry
    constructor
    · by_contra hn
      exact hnever none (by simp) fun _ => Nat.pos_of_ne_zero hn
    · intro p hwaiting
      by_contra hothers
      exact hnever (some p) (by simpa [hwaiting] using hothers) (by simp)
  · rintro ⟨rfl, hothers⟩ acts
    have hstart : Handshake (.init 0) ∧ Undisturbed (.init 0) :=
      ⟨handshake_init 0, fun _ _ => rfl, fun h => absurd h (by decide)⟩
    have hinv : Always (step cfg) (fun s => Handshake s ∧ Undisturbed s) (.init 0) acts := by
      refine always_of_invariant (P := fun s => Handshake s ∧ Undisturbed s) ?_ hstart acts
      intro s a t hs ht
      exact ⟨handshake_step hstarted hs.1 ht, undisturbed_step hstarted hothers hs.1 hs.2 ht⟩
    refine hinv.mono fun s hs => ⟨fun hgone => hs.2.returned ?_, hs.1.woken hstarted⟩
    exact Caller.not_waiting_of_past (hs.1.alive hgone).1

def alone : Cfg := ⟨true, false, true, fun _ => false⟩

theorem join_alone :
    alone.started = true ∧ ∀ acts, Always (step alone) (Joined alone) (.init 0) acts :=
  ⟨rfl, (join_safe_iff alone rfl 0).mpr ⟨rfl, fun _ _ => rfl⟩⟩

def lateNotification : List (Sync.Action Bool Unit Unit Unit) :=
  [.call true (.eventWait () true), .run true true, .run true true, .call false (.eventSignal ()),
    .run false true, .run false true, .run true true, .run true true, .run false true]

theorem deleted_while_running :
    (∃ t, lateNotification.foldlM Sync.step Sync.System.init = some t ∧ t.pos true = .idle ∧
      t.memory.signaled () = false ∧ t.memory.count true = 1) ∧
    ∃ t, (List.replicate 6 Act.caller).foldlM (step alone) (.init 1) = some t ∧
      t.deleted = true ∧ t.freed = true ∧ t.worker = .entry ∧ ¬Joined alone t := by
  refine ⟨⟨_, rfl, rfl, rfl, rfl⟩, _, rfl, rfl, rfl, rfl, fun h => ?_⟩
  exact h.returned (.inl rfl) rfl

end Overtos.Threads
