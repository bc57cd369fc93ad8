import Overtos.Channels.Model

/-! When a receiver is told that the channel is disconnected: `recv` and `try_recv` look at the
queue first and at `tx_count` later. -/
namespace Overtos.Channels
open Word Runs

section
variable {α : Type*} {K : ℕ}

structure Final (N bits : ℕ) (t : Channel α K) : Prop where
  senders : (t.half .tx).live = ∅
  drained : t.received = t.sent
  closed : ∀ (as : List (Act α K)) (u : Channel α K), as.foldlM (step N bits) t = some u →
    u.sent = t.sent ∧ u.received = t.received

def Truthful (N bits : ℕ) (s : Channel α K) (a : Act α K) : Prop :=
  ∀ i t r, a = .run i → step N bits s a = some t → t.task i = .idle (some r) → r.stops →
    Final N bits t

/-- The last sender is not dropped while an item is in the queue and a receiver is between its looks
at the queue and at `tx_count`. -/
def PromptDrop (bits : ℕ) (s : Channel α K) : Act α K → Prop
  | .drop .tx h => (s.half .tx).live = {h} → s.queue ≠ [] →
      ∀ i, (s.task i).meets Pc.undecided = false
  | .clone .tx _ _ => (s.half .tx).live.card + 1 < 2 ^ bits
  | _ => True

instance [DecidableEq α] (bits : ℕ) (s : Channel α K) (a : Act α K) :
    Decidable (PromptDrop bits s a) :=
  match a with
  | .drop .tx _ => inferInstanceAs (Decidable (_ → _ → ∀ _, _))
  | .clone .tx _ _ => inferInstanceAs (Decidable (_ < _))
  | .drop .rx _ | .clone .rx _ _ | .call .. | .run _ => inferInstanceAs (Decidable True)

end

section
variable {α : Type*} {K N bits : ℕ} {s t : Channel α K} {a : Act α K}

structure Over (bits : ℕ) (s : Channel α K) : Prop extends Inv bits s where
  senders : (s.half .tx).live = ∅
  empty : s.queue = []

variable {i : Fin K}

theorem Over.no_put (hs : Over bits s) {h : ℕ} {pc : Pc α} (hi : s.task i = .busy h pc) : ¬pc.puts := by
  intro hp
  have hlive := hs.live i h pc hi
  rw [Pc.side_of_puts hp, hs.senders] at hlive
  exact Finset.notMem_empty h hlive

theorem over_step (hs : Over bits s) (ht : step N bits s a = some t) :
    Over bits t ∧ t.sent = s.sent ∧ t.received = s.received := by
  have hinv := inv_step hs.toInv ht
  cases a with
  | clone d h h' =>
    obtain ⟨⟨hold, -⟩, rfl⟩ := step_clone.mp ht
    have hd : Side.tx ≠ d := by
      rintro rfl
      simp [hs.senders] at hold
    refine ⟨⟨hinv, ?_, hs.empty⟩, rfl, rfl⟩
    rw [setHalf_ne _ _ _ hd]
    exact hs.senders
  | drop d h =>
    obtain ⟨⟨hold, -⟩, rfl⟩ := step_drop.mp ht
    have hd : Side.tx ≠ d := by
      rintro rfl
      simp [hs.senders] at hold
    refine ⟨⟨hinv, ?_, hs.empty⟩, rfl, rfl⟩
    rw [setHalf_ne _ _ _ hd]
    exact hs.senders
  | call i h c =>
    obtain ⟨-, rfl⟩ := step_call.mp ht
    exact ⟨⟨hinv, hs.senders, hs.empty⟩, rfl, rfl⟩
  | run i =>
    obtain ⟨h, pc, mv, nx, hi, ho, rfl⟩ := step_run ht
    cases ho with
    | push x r hpc => exact absurd hpc (hs.no_put hi)
    | pop x q r hpc hq =>
      rw [hs.empty] at hq
      cases hq
    | stay nx => exact ⟨⟨hinv, hs.senders, hs.empty⟩, rfl, rfl⟩

theorem Over.final (hs : Over bits s) : Final N bits s where
  senders := hs.senders
  drained := by rw [hs.items, hs.empty, List.append_nil]
  closed as u hu := by
    have hrun : Always (step N bits) (fun u => Over bits u ∧ u.sent = s.sent ∧
        u.received = s.received) s as := by
      refine always_of_invariant (fun v a w hv hw => ?_) ⟨hs, rfl, rfl⟩ as
      obtain ⟨hover, hsent, hrec⟩ := over_step hv.1 hw
      exact ⟨hover, hsent.trans hv.2.1, hrec.trans hv.2.2⟩
    exact (hrun.last hu).2

structure Orderly (bits : ℕ) (s : Channel α K) : Prop extends Inv bits s where
  fits : (s.half .tx).live.card < 2 ^ bits
  undecided : ∀ i, (s.task i).meets Pc.undecided → (s.half .tx).live = ∅ → s.queue = []

theorem Start.orderly (hs : Start bits s) : Orderly bits s where
  toInv := hs.inv
  fits := hs.counts .tx ▸ hs.fits .tx
  undecided i hi := by
    have := hs.idle i
    cases hp : s.task i with
    | idle => simp [hp, Task.meets] at hi
    | busy => simp [hp, Task.isIdle] at this

theorem Orderly.senders (hs : Orderly bits s) (h : (s.half .tx).count = 0) :
    (s.half .tx).live = ∅ := by
  rw [hs.counts .tx, wrap_of_lt hs.fits] at h
  exact Finset.card_eq_zero.mp h

theorem Orderly.truthful (hs : Orderly bits s) : Truthful N bits s a := by
  rintro i t r rfl ht hi hr
  have hinv := inv_step hs.toInv ht
  obtain ⟨h, pc, mv, nx, hpc, ho, rfl⟩ := step_run ht
  rw [setTask_self] at hi
  cases ho with
  | push x r' _ _ hr' | pop x q r' _ _ hr' =>
    cases hi
    simp [hr'] at hr
  | stay nx _ _ hret =>
    cases nx with
    | goto pc' => cases hi
    | ret r' =>
      cases hi
      obtain ⟨hund, hzero⟩ := hret r rfl hr
      have hgone := hs.senders hzero
      exact Over.final ⟨hinv, hgone, hs.undecided i (by rw [hpc]; exact hund) hgone⟩

theorem Orderly.setHalf_rx (hs : Orderly bits s) {q : Half} (hinv : Inv bits (s.setHalf .rx q)) :
    Orderly bits (s.setHalf .rx q) := ⟨hinv, hs.fits, hs.undecided⟩

theorem Orderly.step (hs : Orderly bits s) (hc : PromptDrop bits s a)
    (ht : step N bits s a = some t) : Orderly bits t := by
  have hinv := inv_step hs.toInv ht
  cases a with
  | clone d h h' =>
    obtain ⟨⟨-, hnew⟩, rfl⟩ := step_clone.mp ht
    cases d with
    | rx => exact hs.setHalf_rx hinv
    | tx =>
      refine ⟨hinv, ?_, fun i _ hempty => ?_⟩
      · rw [setHalf_self, Half.clone, Finset.card_insert_of_notMem hnew]
        exact hc
      · rw [setHalf_self, Half.clone] at hempty
        exact absurd hempty (Finset.insert_ne_empty h' _)
  | drop d h =>
    obtain ⟨⟨hold, -⟩, rfl⟩ := step_drop.mp ht
    cases d with
    | rx => exact hs.setHalf_rx hinv
    | tx =>
      refine ⟨hinv, ?_, fun i hi hempty => ?_⟩
      · rw [setHalf_self, Half.drop, Finset.card_erase_of_mem hold]
        exact (Nat.sub_le _ _).trans_lt hs.fits
      · rw [setHalf_self, Half.drop_eq_empty hold] at hempty
        by_contra hq
        have hnone := hc hempty hq i
        rw [setHalf_task, hnone] at hi
        cases hi
  | call i h c =>
    obtain ⟨-, rfl⟩ := step_call.mp ht
    refine ⟨hinv, hs.fits, fun j hj hempty => ?_⟩
    by_cases hij : j = i
    · subst hij
      rw [setTask_self] at hj
      cases c <;> cases hj
    · rw [setTask_ne _ _ _ hij] at hj
      exact hs.undecided j hj hempty
  | run i =>
    obtain ⟨h, pc, mv, nx, hpc, ho, rfl⟩ := step_run ht
    refine ⟨hinv, by simpa using hs.fits, fun j hj hempty => ?_⟩
    rw [setTask_half, move_half] at hempty
    by_cases hij : j = i
    · subst hij
      rw [setTask_self] at hj
      cases ho with
      | push | pop => cases hj
      | stay nx _ _ _ hgoto =>
        cases nx with
        | ret r => cases hj
        | goto pc' => exact (hgoto pc' rfl).2.1 hj
    · rw [setTask_ne _ _ _ hij, move_task] at hj
      have hq := hs.undecided j hj hempty
      cases ho with
      | push x r hputs => exact absurd hputs (Over.no_put ⟨hs.toInv, hempty, hq⟩ hpc)
      | pop x q r _ hq' =>
        rw [hq] at hq'
        cases hq'
      | stay => exact hq

variable (N bits) in
theorem step_undecided (hi : (s.task i).meets Pc.undecided) (h0 : (s.half .tx).count = 0) :
    ∃ r, r.stops ∧
      step N bits s (.run i) = some (s.setTask i (.idle (some r))) := by
  cases hp : s.task i with
  | idle => simp [hp, Task.meets] at hi
  | busy h pc =>
    rw [hp] at hi
    cases pc with
    | recvLoad =>
      refine ⟨.recv (.error .netClosed), rfl, ?_⟩
      simp [step, hp, Pc.exec, h0, Channel.move, Next.task]
    | tryRecvLoad =>
      refine ⟨.tryRecv (.error .disconnected), rfl, ?_⟩
      simp [step, hp, Pc.exec, h0, Channel.move, Next.task]
    | _ => cases hi

theorem lies_after_drop (hs : Inv bits s) {h : ℕ} (hlast : (s.half .tx).live = {h})
    (hq : s.queue ≠ []) (hi : (s.task i).meets Pc.undecided)
    (ht : step N bits s (.drop .tx h) = some t) : ¬Truthful N bits t (.run i) := by
  intro htrue
  have hinv := inv_step hs ht
  obtain ⟨⟨hold, -⟩, rfl⟩ := step_drop.mp ht
  have hempty : ((s.setHalf .tx ((s.half .tx).drop bits h)).half .tx).live = ∅ := by
    rw [setHalf_self]
    exact (Half.drop_eq_empty hold).mpr hlast
  obtain ⟨r, hr, hstep⟩ := step_undecided N bits (s := s.setHalf .tx ((s.half .tx).drop bits h))
    (i := i) hi ((hinv.counts .tx).count_of_empty hempty)
  have hdrained := (htrue i _ r rfl hstep (setTask_self ..) hr).drained
  rw [setTask_received, setTask_sent, hinv.items] at hdrained
  exact hq (List.append_right_eq_self.mp hdrained.symm)

end

theorem disconnect_final {α : Type*} {K : ℕ} (N bits : ℕ) (s : Channel α K) (hs : Start bits s)
    (as : List (Act α K)) (h : Each (step N bits) (PromptDrop bits) s as) :
    Each (step N bits) (Truthful N bits) s as :=
  h.imp (I := Orderly bits) (fun _ _ _ hs ht hc => ⟨hs.truthful, hs.step hc ht⟩) hs.orderly

def drainRun : List (Act ℕ 2) :=
  [.call sender 0 (.send 7), .run sender, .run sender, .drop .tx 0,
    .call receiver 0 .recv, .run receiver, .call receiver 0 .tryRecv, .run receiver, .run receiver]

theorem drainRun_final : Each (step 1 32) (Truthful 1 32) (channel ℕ 2) drainRun ∧
    ∃ t, drainRun.foldlM (step 1 32) (channel ℕ 2) = some t ∧ t.received = [7] ∧
      ∃ r, t.task receiver = .idle (some r) ∧ r.stops :=
  ⟨disconnect_final 1 32 (channel ℕ 2) (channel_start (by decide)) drainRun (by decide),
    _, rfl, rfl, _, rfl, rfl⟩

def lostRun : List (Act ℕ 2) :=
  [.call receiver 0 .recv, .run receiver, .call sender 0 (.send 7), .run sender, .run sender,
    .drop .tx 0]

theorem disconnect_loses_item : ∃ t,
    (lostRun ++ [Act.run receiver]).foldlM (step 1 32) (channel ℕ 2) = some t ∧
    (∃ r, t.task receiver = .idle (some r) ∧ r.stops) ∧ t.sent = [7] ∧ t.received = [] ∧
    t.queue = [7] ∧
    ¬Each (step 1 32) (Truthful 1 32) (channel ℕ 2) (lostRun ++ [Act.run receiver]) := by
  refine ⟨_, rfl, ⟨_, rfl, rfl⟩, rfl, rfl, rfl, fun h => ?_⟩
  obtain ⟨htrue, -⟩ := h.right rfl _ rfl
  have hdrained := (htrue receiver _ _ rfl rfl rfl rfl).drained
  cases hdrained

theorem lies_after_lostRun : ∃ s t, (lostRun.take 5).foldlM (step 1 32) (channel ℕ 2) = some s ∧
    step 1 32 s (.drop .tx 0) = some t ∧ ¬Truthful 1 32 t (.run receiver) := by
  have hrun : (lostRun.take 5).foldlM (step 1 32) (channel ℕ 2) = some _ := rfl
  have hinv := (always_of_invariant (fun _ _ _ => inv_step) (channel_start (by decide)).inv _).last
    hrun
  exact ⟨_, _, hrun, rfl, lies_after_drop hinv rfl (List.cons_ne_nil 7 []) rfl rfl⟩

end Overtos.Channels
