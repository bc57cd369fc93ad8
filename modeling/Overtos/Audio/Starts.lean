import Overtos.Audio.Build

/-! The callbacks that starting and stopping a graph calls, node by node, over any run of both. -/
namespace Overtos.Audio
open List

inductive NodeCall where
  | start (node : ℕ) (rc : Rc)
  | stop (node : ℕ)
  deriving DecidableEq, Repr

def startNodes (start : ℕ → Rc) : List ℕ → List ℕ → Rc × List NodeCall
  | _, [] => (.ok, [])
  | started, idx :: rest =>
    if start idx = .ok then
      let r := startNodes start (idx :: started) rest
      (r.1, .start idx .ok :: r.2)
    else (start idx, .start idx (start idx) :: started.map .stop)

def startCalls (g : Graph) (start : ℕ → Rc) : Rc × Graph × List NodeCall :=
  if g.state ≠ .ready then (.errNotSupported, g, [])
  else
    let r := startNodes start [] g.execOrder
    (r.1, if r.1 = .ok then { g with state := .running } else g, r.2)

def stopCalls (g : Graph) : Rc × Graph × List NodeCall :=
  if g.state ≠ .running then (.errNotSupported, g, [])
  else (.ok, { g with state := .ready }, g.execOrder.reverse.map .stop)

inductive RunOp where
  | start (start : ℕ → Rc)
  | stop

structure Ran where
  graph : Graph
  calls : List NodeCall

def runStep (s : Ran) : RunOp → Ran
  | .start start => ⟨(startCalls s.graph start).2.1, s.calls ++ (startCalls s.graph start).2.2⟩
  | .stop => ⟨(stopCalls s.graph).2.1, s.calls ++ (stopCalls s.graph).2.2⟩

def runAll (g : Graph) (ops : List RunOp) : Ran := ops.foldl runStep ⟨g, []⟩

def follow (i : ℕ) (started : Bool) : NodeCall → Option Bool
  | .start n rc =>
    if n = i ∧ rc = .ok then if started then none else some true else some started
  | .stop n => if n = i then if started then some false else none else some started

def RollsBack (g : Graph) (start : ℕ → Rc) : Prop :=
  g.state = .ready → (startCalls g start).1 ≠ .ok → ∃ before idx rest,
    g.execOrder = before ++ idx :: rest ∧ before.Nodup ∧ (∀ j ∈ before, start j = .ok) ∧
    startCalls g start = (start idx, g, before.map (.start · .ok) ++
      .start idx (start idx) :: before.reverse.map .stop) ∧
    (startCalls g fun _ => .ok).1 = .ok

theorem startNodes_cases (start : ℕ → Rc) (started order : List ℕ) : ((∀ j ∈ order, start j = .ok) ∧
      startNodes start started order = (.ok, order.map (.start · .ok))) ∨
    ∃ before idx rest, order = before ++ idx :: rest ∧ (∀ j ∈ before, start j = .ok) ∧
      start idx ≠ .ok ∧ startNodes start started order = (start idx, before.map (.start · .ok) ++
        .start idx (start idx) :: (before.reverse ++ started).map .stop) := by
  induction order generalizing started with
  | nil => exact .inl ⟨by simp, rfl⟩
  | cons j order ih =>
    by_cases hj : start j = .ok
    · rcases ih (j :: started) with ⟨hall, heq⟩ | ⟨before, idx, rest, rfl, hall, hidx, heq⟩
      · refine .inl ⟨forall_mem_cons.mpr ⟨hj, hall⟩, ?_⟩
        rw [startNodes, if_pos hj, heq]
        rfl
      · refine .inr ⟨j :: before, idx, rest, rfl, forall_mem_cons.mpr ⟨hj, hall⟩, hidx, ?_⟩
        rw [startNodes, if_pos hj, heq]
        simp
    · refine .inr ⟨[], j, order, rfl, by simp, hj, ?_⟩
      rw [startNodes, if_neg hj]
      simp

theorem startCalls_ready {g : Graph} (hready : g.state = .ready) (start : ℕ → Rc) :
    ((∀ j ∈ g.execOrder, start j = .ok) ∧ startCalls g start =
      (.ok, { g with state := .running }, g.execOrder.map (.start · .ok))) ∨
    ∃ before idx rest, g.execOrder = before ++ idx :: rest ∧ (∀ j ∈ before, start j = .ok) ∧
      start idx ≠ .ok ∧ startCalls g start = (start idx, g, before.map (.start · .ok) ++
        .start idx (start idx) :: before.reverse.map .stop) := by
  rw [startCalls, if_neg (not_not.mpr hready)]
  rcases startNodes_cases start [] g.execOrder with
    ⟨hall, heq⟩ | ⟨before, idx, rest, hsplit, hall, hidx, heq⟩
  · exact .inl ⟨hall, by rw [heq]; rfl⟩
  · refine .inr ⟨before, idx, rest, hsplit, hall, hidx, ?_⟩
    rw [heq]
    simp [hidx]

theorem startCalls_eq (g : Graph) (start : ℕ → Rc) :
    ((startCalls g start).1, (startCalls g start).2.1) = oveAudioGraphStart g start := by
  rw [oveAudioGraphStart]
  split_ifs with hready
  · rw [startCalls, if_pos hready]
  rcases startCalls_ready (not_not.mp hready) start with
    ⟨hall, heq⟩ | ⟨before, idx, rest, hsplit, hall, hidx, heq⟩
  · have hnone : g.execOrder.find? (fun idx => start idx ≠ .ok) = none := by simpa using hall
    rw [heq, hnone]
  · have hsome : g.execOrder.find? (fun idx => start idx ≠ .ok) = some idx := by
      rw [hsplit, find?_append, find?_eq_none.mpr (by simpa using hall), Option.none_or]
      simp [hidx]
    rw [heq, hsome]

theorem foldlM_follow {i : ℕ} {ev : ℕ → NodeCall} {target : Bool}
    (hev : ∀ n b, follow i b (ev n) = if n = i then if b = target then none else some target
      else some b) {l : List ℕ} (hl : l.Nodup) {b : Bool} (hb : i ∈ l → b = !target) :
    (l.map ev).foldlM (follow i) b = some (if i ∈ l then target else b) := by
  induction l generalizing b with
  | nil => rfl
  | cons n l ih =>
    obtain ⟨hn, hl⟩ := nodup_cons.mp hl
    rw [map_cons, foldlM_cons, hev]
    by_cases hi : n = i
    · subst hi
      rw [if_pos rfl, hb mem_cons_self, if_neg (by simp)]
      refine (ih hl fun h => absurd h hn).trans ?_
      simp [hn]
    · rw [if_neg hi]
      refine (ih hl fun h => hb (mem_cons_of_mem n h)).trans ?_
      simp [Ne.symm hi]

theorem follow_start (i n : ℕ) (b : Bool) : follow i b (.start n .ok) =
    if n = i then if b = true then none else some true else some b := by
  simp [follow]

theorem follow_stop (i n : ℕ) (b : Bool) : follow i b (.stop n) =
    if n = i then if b = false then none else some false else some b := by
  cases b <;> simp [follow]

def Follows (g : Graph) (r : Rc × Graph × List NodeCall) : Prop :=
  r.2.1.state ≠ .idle ∧ r.2.1.nodeCount = g.nodeCount ∧ ∀ i < g.nodeCount,
    r.2.2.foldlM (follow i) (decide (g.state = .running)) =
      some (decide (r.2.1.state = .running))

section

variable {arch : Arch} {g : Graph}

theorem startCalls_follows (hidle : g.state ≠ .idle) (hb : Built arch g) (start : ℕ → Rc) :
    Follows g (startCalls g start) := by
  by_cases hready : g.state = .ready
  · rcases startCalls_ready hready start with ⟨-, heq⟩ | ⟨before, idx, rest, hsplit, -, hidx, heq⟩
    · rw [heq]
      refine ⟨by simp, rfl, fun i hi => ?_⟩
      have hmem : i ∈ g.execOrder := hb.perm.mem_iff.mpr (mem_range.mpr hi)
      rw [hready]
      refine (foldlM_follow (follow_start i) hb.nodup fun _ => rfl).trans ?_
      rw [if_pos hmem]
      rfl
    · rw [heq]
      refine ⟨hidle, rfl, fun i _ => ?_⟩
      have hnodup : before.Nodup := (nodup_append.mp (hsplit ▸ hb.nodup)).1
      have hfailed (b : Bool) : follow i b (.start idx (start idx)) = some b := by
        simp [follow, hidx]
      have hstarted := foldlM_follow (b := false) (follow_start i) hnodup fun _ => rfl
      have hstopped := foldlM_follow (b := if i ∈ before then true else false) (follow_stop i)
        (nodup_reverse.mpr hnodup) fun h => if_pos (mem_reverse.mp h)
      have hstill : decide (GraphState.ready = .running) = false := rfl
      rw [hready, hstill, foldlM_append, hstarted, Option.bind_eq_bind, Option.bind_some,
        foldlM_cons, hfailed, Option.bind_eq_bind, Option.bind_some, hstopped]
      by_cases hbefore : i ∈ before <;> simp [hbefore]
  · rw [startCalls, if_pos hready]
    exact ⟨hidle, rfl, fun i _ => rfl⟩

theorem stopCalls_follows (hidle : g.state ≠ .idle) (hb : Built arch g) :
    Follows g (stopCalls g) := by
  rw [stopCalls]
  split_ifs with hrunning
  · exact ⟨hidle, rfl, fun i _ => rfl⟩
  · refine ⟨by simp, rfl, fun i hi => ?_⟩
    have hmem : i ∈ g.execOrder.reverse := mem_reverse.mpr (hb.perm.mem_iff.mpr (mem_range.mpr hi))
    rw [not_not.mp hrunning]
    refine (foldlM_follow (follow_stop i) (nodup_reverse.mpr hb.nodup) fun _ => rfl).trans ?_
    rw [if_pos hmem]
    rfl

structure Alternating (arch : Arch) (n : ℕ) (s : Ran) : Prop where
  inv : GraphInv arch s.graph
  built : s.graph.state ≠ .idle
  count : s.graph.nodeCount = n
  follows : ∀ i < n,
    s.calls.foldlM (follow i) false = some (decide (s.graph.state = .running))

theorem Alternating.after {n : ℕ} {s : Ran} (h : Alternating arch n s)
    {r : Rc × Graph × List NodeCall} (hinv : GraphInv arch r.2.1) (hr : Follows s.graph r) :
    Alternating arch n ⟨r.2.1, s.calls ++ r.2.2⟩ := by
  obtain ⟨hidle, hcount, hfollows⟩ := hr
  refine ⟨hinv, hidle, hcount.trans h.count, fun i hi => ?_⟩
  dsimp only
  rw [foldlM_append, h.follows i hi]
  exact hfollows i (h.count.symm ▸ hi)

theorem runStep_alternating {n : ℕ} {s : Ran} (h : Alternating arch n s) (op : RunOp) :
    Alternating arch n (runStep s op) := by
  have hb := h.inv.built h.built
  cases op with
  | start start =>
    have hgraph : (startCalls s.graph start).2.1 = (oveAudioGraphStart s.graph start).2 :=
      congrArg Prod.snd (startCalls_eq s.graph start)
    refine h.after ?_ (startCalls_follows h.built hb start)
    rw [hgraph]
    exact start_inv h.inv start
  | stop =>
    refine h.after ?_ (stopCalls_follows h.built hb)
    rw [stopCalls]
    split_ifs with hrunning
    · exact h.inv
    · exact h.inv.setRun h.built h.inv.errors

theorem rollsBack (hb : Built arch g) (start : ℕ → Rc) : RollsBack g start := by
  intro hready hfailed
  rcases startCalls_ready hready start with ⟨-, heq⟩ | ⟨before, idx, rest, hsplit, hall, -, heq⟩
  · rw [heq] at hfailed
    exact absurd rfl hfailed
  · have hnodup : before.Nodup := (nodup_append.mp (hsplit ▸ hb.nodup)).1
    refine ⟨before, idx, rest, hsplit, hnodup, hall, heq, ?_⟩
    rcases startCalls_ready hready fun _ => .ok with ⟨-, hagain⟩ | ⟨_, _, _, -, -, hne, -⟩
    · rw [hagain]
    · exact absurd rfl hne

end

/-- Each node is started and stopped in turn, and a start that fails rolls back. -/
theorem starts_alternate {arch : Arch} {framesPerPeriod : ℕ} {m m' : Mem} {ops : List GraphOp}
    {g : Graph} (h : graphAfter arch framesPerPeriod m ops = .ok (g, m'))
    (hready : g.state = .ready) (runs : List RunOp) :
    (∀ i < g.nodeCount, (runAll g runs).calls.foldlM (follow i) false =
      some (decide ((runAll g runs).graph.state = .running))) ∧
    (0 < g.nodeCount → ((runAll g runs).graph.state = .running ↔
      ∀ i < g.nodeCount, (runAll g runs).calls.foldlM (follow i) false = some true)) ∧
    ∀ start, RollsBack (runAll g runs).graph start := by
  have hstart : Alternating arch g.nodeCount ⟨g, []⟩ :=
    ⟨graphAfter_inv h, by simp [hready], rfl, fun i _ => by rw [hready]; rfl⟩
  have hrun : Alternating arch g.nodeCount (runAll g runs) :=
    foldlRecOn runs runStep hstart fun s hs op _ => runStep_alternating hs op
  refine ⟨hrun.follows, fun hpos => ?_, rollsBack (hrun.inv.built hrun.built)⟩
  constructor
  · intro hrunning i hi
    rw [hrun.follows i hi, hrunning]
    rfl
  · intro hall
    simpa using (hrun.follows 0 hpos).symm.trans (hall 0 hpos)

def wire : List GraphOp :=
  [.addNode .source, .addNode .sink, .connect 0 1,
    .build (fun _ _ _ => (.ok, ⟨48000, 1, .s16⟩)) 4096]

def wired : Graph := (wire.foldl (graphStep .arm32) (.zero 64, fun _ => 0)).1

theorem starts_alternate_wired :
    (runAll wired [.start fun i => if i = 1 then .errIo else .ok, .start fun _ => .ok, .stop]).calls
        = [.start 0 .ok, .start 1 .errIo, .stop 0, .start 0 .ok, .start 1 .ok, .stop 1, .stop 0] ∧
      RollsBack wired fun i => if i = 1 then .errIo else .ok := by
  have h := @starts_alternate .arm32 64 (fun _ => 0) _ wire wired rfl rfl []
  exact ⟨by decide, h.2.2 _⟩

theorem empty_graph_started :
    graphAfter .arm32 64 (fun _ => 0) [.build (fun _ _ _ => (.ok, ⟨48000, 1, .s16⟩)) 4096] =
        .ok ({ Graph.zero 64 with state := .ready }, fun _ => 0) ∧
      ¬((runAll { Graph.zero 64 with state := .ready } []).graph.state = .running ↔
        ∀ i < (Graph.zero 64).nodeCount,
          (runAll { Graph.zero 64 with state := .ready } []).calls.foldlM (follow i) false =
            some true) := by
  refine ⟨rfl, fun h => ?_⟩
  have hrunning := h.mpr (by simp [Graph.zero])
  cases hrunning

end Overtos.Audio
