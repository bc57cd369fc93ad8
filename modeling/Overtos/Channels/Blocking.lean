import Overtos.Channels.Model

/-! Calls that wait in the queue: the counts are loaded once, before the wait, and the drop of the
last handle of a side wakes nobody. -/
namespace Overtos.Channels
open Word Runs

section
variable {α : Type*} {K : ℕ}

def RecvHangs (s : Channel α K) : Prop :=
  (∃ i, (s.task i).meets Pc.waitsRecv) ∧ s.queue = [] ∧ (s.half .tx).live = ∅

def SendHangs (N : ℕ) (s : Channel α K) : Prop :=
  (∃ i, (s.task i).meets Pc.waitsSend) ∧ N ≤ s.queue.length ∧ (s.half .rx).live = ∅

def Pc.inRecv : Pc α → Bool
  | .recvTry | .recvLoad | .queueRecv => true
  | _ => false

def Pc.inSend : Pc α → Bool
  | .sendLoad _ | .queueSend _ => true
  | _ => false

def Returns (N bits : ℕ) (s : Channel α K) (i : Fin K) (r : Ret α) : Prop :=
  ∃ n t, (List.replicate n (Act.run i)).foldlM (step N bits) s = some t ∧
    t.task i = .idle (some r)

structure Settles (N bits : ℕ) (s : Channel α K) : Prop where
  recv : ¬RecvHangs s
  send : ¬SendHangs N s
  recvCloses : ∀ i, (s.task i).meets Pc.inRecv → s.queue = [] → (s.half .tx).live = ∅ →
    Returns N bits s i (.recv (.error .netClosed))
  sendCloses : ∀ i, (s.task i).meets Pc.inSend → N ≤ s.queue.length → (s.half .rx).live = ∅ →
    Returns N bits s i (.send (.error .netClosed))

/-- The last sender is not dropped while a receiver waits, nor the last receiver while a sender
does; once a side is gone, what is left does not go to one of several that wait. -/
def Considerate (N : ℕ) (s : Channel α K) : Act α K → Prop
  | .clone .. | .call .. => True
  | .drop .tx h => (s.half .tx).live = {h} → s.queue = [] →
      ∀ i, (s.task i).meets Pc.waitsRecv = false
  | .drop .rx h => (s.half .rx).live = {h} → N ≤ s.queue.length →
      ∀ i, (s.task i).meets Pc.waitsSend = false
  | .run i =>
    ((s.task i).meets Pc.takes → (s.half .tx).live = ∅ → s.queue.length = 1 →
      ∀ j ≠ i, (s.task j).meets Pc.waitsRecv = false) ∧
    ((s.task i).meets Pc.puts → (s.half .rx).live = ∅ → s.queue.length + 1 = N →
      ∀ j ≠ i, (s.task j).meets Pc.waitsSend = false)

instance [DecidableEq α] (N : ℕ) (s : Channel α K) (a : Act α K) : Decidable (Considerate N s a) :=
  match a with
  | .clone .. | .call .. => inferInstanceAs (Decidable True)
  | .drop .tx _ | .drop .rx _ => inferInstanceAs (Decidable (_ → _ → ∀ _, _))
  | .run _ => @instDecidableAnd _ _ (inferInstanceAs (Decidable (_ → _ → _ → ∀ _, _ → _)))
      (inferInstanceAs (Decidable (_ → _ → _ → ∀ _, _ → _)))

end

section
variable {α : Type*} {K N bits : ℕ} {s t : Channel α K} {a : Act α K}

def NoHang (N : ℕ) (s : Channel α K) : Prop := ¬RecvHangs s ∧ ¬SendHangs N s

theorem Start.noHang (hs : Start bits s) : NoHang N s := by
  have hnone : ∀ (f : Pc α → Bool) i, ¬(s.task i).meets f := by
    intro f i
    have := hs.idle i
    cases hp : s.task i with
    | idle => simp [Task.meets]
    | busy => simp [hp, Task.isIdle] at this
  constructor
  · rintro ⟨⟨i, hi⟩, -⟩
    exact hnone _ i hi
  · rintro ⟨⟨i, hi⟩, -⟩
    exact hnone _ i hi

variable {f : Pc α → Bool} {i : Fin K} {h : ℕ}

theorem exists_meets_idle {r : Option (Ret α)} :
    (∃ j, ((s.setTask i (.idle r)).task j).meets f) ↔ ∃ j ≠ i, (s.task j).meets f := by
  constructor
  · rintro ⟨j, hj⟩
    by_cases hij : j = i
    · subst hij
      rw [setTask_self] at hj
      cases hj
    · rw [setTask_ne _ _ _ hij] at hj
      exact ⟨j, hij, hj⟩
  · rintro ⟨j, hij, hj⟩
    refine ⟨j, ?_⟩
    rw [setTask_ne _ _ _ hij]
    exact hj

theorem exists_meets_of_setTask {p : Task α} (hp : ¬p.meets f)
    (h : ∃ j, ((s.setTask i p).task j).meets f) : ∃ j, (s.task j).meets f := by
  obtain ⟨j, hj⟩ := h
  by_cases hij : j = i
  · subst hij
    rw [setTask_self] at hj
    exact absurd hj hp
  · rw [setTask_ne _ _ _ hij] at hj
    exact ⟨j, hj⟩

theorem not_recvHangs_of_mem (hh : h ∈ (s.half .tx).live) : ¬RecvHangs s := by
  rintro ⟨-, -, hempty⟩
  rw [hempty] at hh
  exact Finset.notMem_empty h hh

theorem not_sendHangs_of_mem (hh : h ∈ (s.half .rx).live) : ¬SendHangs N s := by
  rintro ⟨-, -, hempty⟩
  rw [hempty] at hh
  exact Finset.notMem_empty h hh

theorem noHang_clone (hn : NoHang N s) {d : Side} :
    NoHang N (s.setHalf d ((s.half d).clone bits h)) := by
  have hmem : h ∈ ((s.setHalf d ((s.half d).clone bits h)).half d).live := by
    rw [setHalf_self]
    exact Finset.mem_insert_self h _
  cases d with
  | tx => exact ⟨not_recvHangs_of_mem hmem, hn.2⟩
  | rx => exact ⟨hn.1, not_sendHangs_of_mem hmem⟩

theorem noHang_drop (hn : NoHang N s) {d : Side} (hh : h ∈ (s.half d).live) :
    NoHang N (s.setHalf d ((s.half d).drop bits h)) ↔ Considerate N s (.drop d h) := by
  cases d with
  | tx =>
    have hrecv : RecvHangs (s.setHalf .tx ((s.half .tx).drop bits h)) ↔
        (∃ i, (s.task i).meets Pc.waitsRecv) ∧ s.queue = [] ∧ (s.half .tx).live = {h} := by
      rw [RecvHangs, setHalf_self, Half.drop_eq_empty hh]
      rfl
    have hsend : ¬SendHangs N (s.setHalf .tx ((s.half .tx).drop bits h)) := hn.2
    rw [NoHang, hrecv, and_iff_left hsend, Considerate]
    constructor
    · intro hnot hlast hq i
      rw [Bool.eq_false_iff]
      exact fun hi => hnot ⟨⟨i, hi⟩, hq, hlast⟩
    · rintro hall ⟨⟨i, hi⟩, hq, hlast⟩
      rw [hall hlast hq i] at hi
      cases hi
  | rx =>
    have hsend : SendHangs N (s.setHalf .rx ((s.half .rx).drop bits h)) ↔
        (∃ i, (s.task i).meets Pc.waitsSend) ∧ N ≤ s.queue.length ∧ (s.half .rx).live = {h} := by
      rw [SendHangs, setHalf_self, Half.drop_eq_empty hh]
      rfl
    have hrecv : ¬RecvHangs (s.setHalf .rx ((s.half .rx).drop bits h)) := hn.1
    rw [NoHang, hsend, and_iff_right hrecv, Considerate]
    constructor
    · intro hnot hlast hq i
      rw [Bool.eq_false_iff]
      exact fun hi => hnot ⟨⟨i, hi⟩, hq, hlast⟩
    · rintro hall ⟨⟨i, hi⟩, hq, hlast⟩
      rw [hall hlast hq i] at hi
      cases hi

theorem noHang_call (hn : NoHang N s) {c : Call α} : NoHang N (s.setTask i (.busy h c.entry)) := by
  constructor
  · rintro ⟨hw, hrest⟩
    exact hn.1 ⟨exists_meets_of_setTask (by cases c <;> simp [Task.meets, Call.entry, Pc.waitsRecv])
      hw, hrest⟩
  · rintro ⟨hw, hrest⟩
    exact hn.2 ⟨exists_meets_of_setTask (by cases c <;> simp [Task.meets, Call.entry, Pc.waitsSend])
      hw, hrest⟩

theorem noHang_stay (hs : Inv bits s) (hn : NoHang N s) {nx : Next α}
    (hgoto : ∀ pc', nx = .goto pc' → (pc'.waitsRecv → (s.half .tx).count ≠ 0) ∧
      (pc'.waitsSend → (s.half .rx).count ≠ 0)) : NoHang N (s.setTask i (nx.task h)) := by
  constructor
  · rintro ⟨hw, hq, hgone⟩
    refine hn.1 ⟨exists_meets_of_setTask (fun hp => ?_) hw, hq, hgone⟩
    cases nx with
    | ret r => cases hp
    | goto pc' => exact (hgoto pc' rfl).1 hp ((hs.counts .tx).count_of_empty hgone)
  · rintro ⟨hw, hq, hgone⟩
    refine hn.2 ⟨exists_meets_of_setTask (fun hp => ?_) hw, hq, hgone⟩
    cases nx with
    | ret r => cases hp
    | goto pc' => exact (hgoto pc' rfl).2 hp ((hs.counts .rx).count_of_empty hgone)

section
variable {i : Fin K} {h : ℕ} {pc : Pc α} (hpc : s.task i = .busy h pc)
include hpc

theorem noHang_push (hs : Inv bits s) (hputs : pc.puts) (hroom : s.queue.length < N) {x : α}
    {r : Ret α} : NoHang N ((s.move (.push x)).setTask i (.idle (some r))) ↔
      Considerate N s (.run i) := by
  have hside := Pc.side_of_puts hputs
  have hlive := hs.live i h pc hpc
  rw [hside] at hlive
  have htakes : ¬(s.task i).meets Pc.takes := by
    rw [hpc]
    intro ht
    cases hside.symm.trans (Pc.side_of_takes ht)
  have hmeets : (s.task i).meets Pc.puts := by
    rw [hpc]
    exact hputs
  have hsend : SendHangs N ((s.move (.push x)).setTask i (.idle (some r))) ↔
      (∃ j ≠ i, (s.task j).meets Pc.waitsSend) ∧ s.queue.length + 1 = N ∧
        (s.half .rx).live = ∅ := by
    have hlen : N ≤ (s.move (.push x)).queue.length ↔ s.queue.length + 1 = N := by
      simp only [Channel.move, List.length_append, List.length_singleton]
      omega
    rw [SendHangs, exists_meets_idle, setTask_queue, hlen, setTask_half, move_half, move_task]
  have hrecv : ¬RecvHangs ((s.move (.push x)).setTask i (.idle (some r))) := by
    apply not_recvHangs_of_mem (h := h)
    rw [setTask_half, move_half]
    exact hlive
  rw [NoHang, hsend, and_iff_right hrecv, Considerate]
  constructor
  · intro hnot
    refine ⟨fun ht => absurd ht htakes, fun _ hgone hfull j hj => ?_⟩
    rw [Bool.eq_false_iff]
    exact fun hw => hnot ⟨⟨j, hj, hw⟩, hfull, hgone⟩
  · rintro ⟨-, hall⟩ ⟨⟨j, hj, hw⟩, hfull, hgone⟩
    rw [hall hmeets hgone hfull j hj] at hw
    cases hw

theorem noHang_pop (hs : Inv bits s) (htakes : pc.takes) {x : α} {q : List α}
    (hq : s.queue = x :: q) {r : Ret α} :
    NoHang N ((s.move (.pop x)).setTask i (.idle (some r))) ↔ Considerate N s (.run i) := by
  have hside := Pc.side_of_takes htakes
  have hlive := hs.live i h pc hpc
  rw [hside] at hlive
  have hputs : ¬(s.task i).meets Pc.puts := by
    rw [hpc]
    intro hp
    cases hside.symm.trans (Pc.side_of_puts hp)
  have hmeets : (s.task i).meets Pc.takes := by
    rw [hpc]
    exact htakes
  have hrecv : RecvHangs ((s.move (.pop x)).setTask i (.idle (some r))) ↔
      (∃ j ≠ i, (s.task j).meets Pc.waitsRecv) ∧ s.queue.length = 1 ∧ (s.half .tx).live = ∅ := by
    have hlen : (s.move (.pop x)).queue = [] ↔ s.queue.length = 1 := by
      simp [Channel.move, hq]
    rw [RecvHangs, exists_meets_idle, setTask_queue, hlen, setTask_half, move_half, move_task]
  have hsend : ¬SendHangs N ((s.move (.pop x)).setTask i (.idle (some r))) := by
    apply not_sendHangs_of_mem (h := h)
    rw [setTask_half, move_half]
    exact hlive
  rw [NoHang, hrecv, and_iff_left hsend, Considerate]
  constructor
  · intro hnot
    refine ⟨fun _ hgone hone j hj => ?_, fun hp => absurd hp hputs⟩
    rw [Bool.eq_false_iff]
    exact fun hw => hnot ⟨⟨j, hj, hw⟩, hone, hgone⟩
  · rintro ⟨hall, -⟩ ⟨⟨j, hj, hw⟩, hone, hgone⟩
    rw [hall hmeets hgone hone j hj] at hw
    cases hw

theorem considerate_stay (htake : pc.takes → s.queue = []) (hput : pc.puts → N ≤ s.queue.length) :
    Considerate N s (.run i) := by
  rw [Considerate, hpc]
  constructor
  · intro ht _ hone
    rw [htake ht] at hone
    cases hone
  · intro hp _ hone
    have := hput hp
    omega

end

theorem noHang_step (hs : Inv bits s) (hn : NoHang N s) (ht : step N bits s a = some t) :
    NoHang N t ↔ Considerate N s a := by
  cases a with
  | clone d h h' =>
    obtain ⟨-, rfl⟩ := step_clone.mp ht
    exact iff_of_true (noHang_clone hn) trivial
  | drop d h =>
    obtain ⟨⟨hold, -⟩, rfl⟩ := step_drop.mp ht
    exact noHang_drop hn hold
  | call i h c =>
    obtain ⟨-, rfl⟩ := step_call.mp ht
    exact iff_of_true (noHang_call hn) trivial
  | run i =>
    obtain ⟨h, pc, mv, nx, hpc, ho, rfl⟩ := step_run ht
    cases ho with
    | push x r hputs hroom => exact noHang_push hpc hs hputs hroom
    | pop x q r htakes hq => exact noHang_pop hpc hs htakes hq
    | stay nx htake hput _ hgoto =>
      exact iff_of_true (noHang_stay hs hn fun pc' hp => (hgoto pc' hp).2.2)
        (considerate_stay hpc htake hput)

theorem settles_iff (hs : Inv bits s) : Settles N bits s ↔ NoHang N s := by
  refine ⟨fun h => ⟨h.recv, h.send⟩, fun hn => ⟨hn.1, hn.2, fun i hi hq hgone => ?_,
    fun i hi hfull hgone => ?_⟩⟩
  · have h0 := (hs.counts .tx).count_of_empty hgone
    cases hp : s.task i with
    | idle => simp [hp, Task.meets] at hi
    | busy h pc =>
      rw [hp] at hi
      cases pc with
      | recvTry =>
        refine ⟨2, (s.setTask i (.busy h .recvLoad)).setTask i (.idle (some _)), ?_,
          setTask_self ..⟩
        simp [step, hp, Pc.exec, hq, h0, Channel.move, Next.task]
      | recvLoad =>
        refine ⟨1, s.setTask i (.idle (some _)), ?_, setTask_self ..⟩
        simp [step, hp, Pc.exec, h0, Channel.move, Next.task]
      | queueRecv => exact absurd ⟨⟨i, by rw [hp]; rfl⟩, hq, hgone⟩ hn.1
      | _ => cases hi
  · have h0 := (hs.counts .rx).count_of_empty hgone
    cases hp : s.task i with
    | idle => simp [hp, Task.meets] at hi
    | busy h pc =>
      rw [hp] at hi
      cases pc with
      | sendLoad x =>
        refine ⟨1, s.setTask i (.idle (some _)), ?_, setTask_self ..⟩
        simp [step, hp, Pc.exec, h0, Channel.move, Next.task]
      | queueSend x => exact absurd ⟨⟨i, by rw [hp]; rfl⟩, hfull, hgone⟩ hn.2
      | _ => cases hi

end

theorem settles_iff_considerate {α : Type*} {K : ℕ} (N bits : ℕ) (s : Channel α K)
    (hs : Start bits s) (as : List (Act α K)) :
    Always (step N bits) (Settles N bits) s as ↔ Each (step N bits) (Considerate N) s as := by
  rw [always_congr (I := Inv bits) (fun _ _ _ hs ht => inv_step hs ht)
    (fun _ hs => settles_iff hs) hs.inv as]
  exact always_iff_each (I := Inv bits)
    (fun _ _ _ hs hn ht => ⟨inv_step hs ht, noHang_step hs hn ht⟩) hs.inv hs.noHang as

def quietRun : List (Act ℕ 2) :=
  [.call sender 0 (.send 7), .run sender, .run sender, .drop .tx 0,
    .call receiver 0 .recv, .run receiver, .call receiver 0 .recv, .run receiver, .run receiver]

theorem quietRun_settles : Always (step 1 32) (Settles 1 32) (channel ℕ 2) quietRun ∧
    ∃ t, quietRun.foldlM (step 1 32) (channel ℕ 2) = some t ∧
      t.task receiver = .idle (some (.recv (.error .netClosed))) :=
  ⟨(settles_iff_considerate 1 32 (channel ℕ 2) (channel_start (by decide)) quietRun).mpr
    (by decide), _, rfl, rfl⟩

def stuckRecvRun : List (Act ℕ 2) :=
  [.call receiver 0 .recv, .run receiver, .run receiver, .drop .tx 0]

def stuckSendRun : List (Act ℕ 2) :=
  [.call sender 0 (.send 7), .run sender, .run sender, .call sender 0 (.send 8), .run sender,
    .drop .rx 0]

theorem last_drop_hangs :
    (∃ t, stuckRecvRun.foldlM (step 1 32) (channel ℕ 2) = some t ∧ RecvHangs t) ∧
    (∃ t, stuckSendRun.foldlM (step 1 32) (channel ℕ 2) = some t ∧ SendHangs 1 t) ∧
    ¬Always (step 1 32) (Settles 1 32) (channel ℕ 2) stuckRecvRun ∧
    ¬Always (step 1 32) (Settles 1 32) (channel ℕ 2) stuckSendRun := by
  have hrecv : ∃ t, stuckRecvRun.foldlM (step 1 32) (channel ℕ 2) = some t ∧ RecvHangs t :=
    ⟨_, rfl, ⟨receiver, rfl⟩, rfl, rfl⟩
  have hsend : ∃ t, stuckSendRun.foldlM (step 1 32) (channel ℕ 2) = some t ∧ SendHangs 1 t :=
    ⟨_, rfl, ⟨sender, rfl⟩, le_rfl, rfl⟩
  refine ⟨hrecv, hsend, fun h => ?_, fun h => ?_⟩
  · obtain ⟨t, ht, hhang⟩ := hrecv
    exact (h.last ht).recv hhang
  · obtain ⟨t, ht, hhang⟩ := hsend
    exact (h.last ht).send hhang

end Overtos.Channels
