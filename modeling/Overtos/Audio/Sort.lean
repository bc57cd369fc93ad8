import Overtos.Audio.Build

/-! `topo_sort` on its arrays: it stays inside them, and finds an order exactly if there is one. -/
namespace Overtos.Audio

inductive SortFault where
  | queueOverrun | orderOverrun | underflow | unfinished
  deriving DecidableEq, Repr

structure Sorter where
  inDegree : ℕ → ℕ
  queue : List ℕ
  head : ℕ
  execOrder : List ℕ

def Sorter.enqueue (s : Sorter) (i : ℕ) : Except SortFault Sorter :=
  if maxNodes ≤ s.queue.length then .error .queueOverrun
  else .ok { s with queue := s.queue ++ [i] }

def Sorter.enqueueRoot (s : Sorter) (i : ℕ) : Except SortFault Sorter :=
  if s.inDegree i = 0 then s.enqueue i else .ok s

def Sorter.relaxEdge (node : ℕ) (s : Sorter) (e : ℕ × ℕ) : Except SortFault Sorter :=
  if e.1 = node then
    if s.inDegree e.2 = 0 then .error .underflow
    else
      let s := { s with inDegree := Function.update s.inDegree e.2 (s.inDegree e.2 - 1) }
      if s.inDegree e.2 = 0 then s.enqueue e.2 else .ok s
  else .ok s

def Sorter.turn (edges : List (ℕ × ℕ)) (s : Sorter) (node : ℕ) : Except SortFault Sorter :=
  if maxNodes ≤ s.execOrder.length then .error .orderOverrun
  else
    edges.foldlM (relaxEdge node)
      { s with head := s.head + 1, execOrder := s.execOrder ++ [node] }

def Sorter.loop (edges : List (ℕ × ℕ)) : ℕ → Sorter → Except SortFault Sorter
  | 0, s => if s.head < s.queue.length then .error .unfinished else .ok s
  | turns + 1, s =>
    match s.queue[s.head]? with
    | none => .ok s
    | some node => (s.turn edges node).bind (loop edges turns)

def sortArrays (g : Graph) : Except SortFault (Rc × Graph) :=
  let inDegree := g.edges.foldl (fun d e => Function.update d e.2 (d e.2 + 1)) fun _ => 0
  ((List.range g.nodeCount).foldlM Sorter.enqueueRoot ⟨inDegree, [], 0, []⟩).bind fun s =>
    (s.loop g.edges g.nodeCount).bind fun s =>
      .ok (if s.execOrder.length = g.nodeCount then .ok else .errInvalidParam,
        { g with execOrder := s.execOrder })

section

open TopoSort List

variable {edges : List (ℕ × ℕ)} {n : ℕ}

theorem counters_eq (edges : List (ℕ × ℕ)) :
    edges.foldl (fun d e => Function.update d e.2 (d e.2 + 1)) (fun _ => 0) = inDegree edges := by
  induction edges using reverseRecOn with
  | nil => rfl
  | append_singleton edges e ih =>
    rw [foldl_append, ih]
    funext i
    simp only [foldl_cons, foldl_nil, inDegree, countP_append, countP_cons,
      countP_nil, Function.update_apply]
    by_cases hi : i = e.2
    · simp [hi]
    · simp [hi, Ne.symm hi]

theorem queue_eq (hn : n ≤ maxNodes) (degree : ℕ → ℕ) :
    (List.range n).foldlM Sorter.enqueueRoot ⟨degree, [], 0, []⟩ =
      .ok ⟨degree, (List.range n).filter fun i => degree i = 0, 0, []⟩ := by
  induction n with
  | zero => rfl
  | succ n ih =>
    have hlen : ((List.range n).filter fun i => decide (degree i = 0)).length ≤ n :=
      (length_filter_le _ _).trans_eq length_range
    rw [range_succ, foldlM_append, ih (by omega), filter_append]
    change Sorter.enqueueRoot _ n >>= pure = _
    by_cases hzero : degree n = 0
    · have hroot : [n].filter (fun i => decide (degree i = 0)) = [n] := by simp [hzero]
      rw [Sorter.enqueueRoot, if_pos hzero, Sorter.enqueue, if_neg (by dsimp only; omega), hroot]
      rfl
    · have hroot : [n].filter (fun i => decide (degree i = 0)) = [] := by simp [hzero]
      rw [Sorter.enqueueRoot, if_neg hzero, hroot, append_nil]
      rfl

theorem relaxEdges_eq {node head : ℕ} {order : List ℕ} (hn : n ≤ maxNodes)
    {rest : List (ℕ × ℕ)} (hrest : ∀ e ∈ rest, e.2 < n) {s : (ℕ → ℕ) × List ℕ}
    (h : Relaxing edges rest n node order s) :
    rest.foldlM (Sorter.relaxEdge node) ⟨s.1, order ++ s.2, head, order⟩ =
      .ok ⟨(rest.foldl (relax node) s).1, order ++ (rest.foldl (relax node) s).2, head, order⟩ := by
  induction rest generalizing s with
  | nil => rfl
  | cons e rest ih =>
    have hnext := h.relax (hrest e mem_cons_self)
    have hstep : Sorter.relaxEdge node ⟨s.1, order ++ s.2, head, order⟩ e =
        .ok ⟨(relax node s e).1, order ++ (relax node s e).2, head, order⟩ := by
      by_cases hnode : e.1 = node
      · have hdeg := h.degree e.2
        have hahead : 0 < ahead (e :: rest) node e.2 := by
          simp [ahead, hnode]
        have hlen := length_le_of_nodup hnext.nodup hnext.bound
        simp only [Sorter.relaxEdge, relax, if_pos hnode, if_neg (show s.1 e.2 ≠ 0 by omega)]
          at hlen ⊢
        split_ifs at hlen ⊢ with hzero
        · rw [Sorter.enqueue, if_neg]
          · simp
          · simp only [length_append, length_singleton] at hlen ⊢
            omega
        · rfl
      · simp only [Sorter.relaxEdge, relax, if_neg hnode]
    rw [foldlM_cons, hstep]
    exact ih (fun e' he' => hrest e' (mem_cons_of_mem _ he')) hnext

theorem turn_eq (hn : n ≤ maxNodes) (hedges : ∀ e ∈ edges, e.2 < n) {degree : ℕ → ℕ} {node : ℕ}
    {queue order : List ℕ} (h : Sorting edges n degree (node :: queue) order) :
    Sorter.turn edges ⟨degree, order ++ node :: queue, order.length, order⟩ node =
      .ok ⟨(edges.foldl (relax node) (degree, queue)).1,
        order ++ [node] ++ (edges.foldl (relax node) (degree, queue)).2,
        (order ++ [node]).length, order ++ [node]⟩ := by
  have hlen := length_le_of_nodup h.nodup h.bound
  simp only [length_append, length_cons] at hlen
  rw [Sorter.turn, if_neg (by dsimp only; omega)]
  have hrelax := @relaxEdges_eq edges n node (order ++ [node]).length (order ++ [node]) hn edges
    hedges (degree, queue) (h.relaxing)
  simpa using hrelax

theorem loop_eq (hn : n ≤ maxNodes) (hedges : ∀ e ∈ edges, e.2 < n) {turns : ℕ} {degree : ℕ → ℕ}
    {queue order : List ℕ} (h : Sorting edges n degree queue order)
    (hempty : (TopoSort.loop edges turns degree queue order).2 = []) :
    ∃ s, Sorter.loop edges turns ⟨degree, order ++ queue, order.length, order⟩ = .ok s ∧
      s.execOrder = (TopoSort.loop edges turns degree queue order).1 := by
  induction turns generalizing degree queue order with
  | zero =>
    obtain rfl : queue = [] := hempty
    exact ⟨_, if_neg (by simp), rfl⟩
  | succ turns ih =>
    cases queue with
    | nil =>
      refine ⟨⟨degree, order ++ [], order.length, order⟩, ?_, rfl⟩
      simp [Sorter.loop]
    | cons node queue =>
      obtain ⟨s, hs, horder⟩ := ih (h.next hedges) hempty
      refine ⟨s, ?_, horder⟩
      simp only [Sorter.loop, getElem?_append_right le_rfl, Nat.sub_self,
        getElem?_cons_zero, turn_eq hn hedges h]
      exact hs

end

theorem sortArrays_eq {g : Graph} (h : Wired g) : sortArrays g = .ok (topoSort g) := by
  have hto : ∀ e ∈ g.edges, e.2 < g.nodeCount := fun e he => (h.edge e he).2.1
  obtain ⟨-, -, hempty⟩ := TopoSort.kahn_sorting hto
  obtain ⟨s, hs, horder⟩ := loop_eq h.nodeCount_le hto (TopoSort.start_sorting g.nodeCount) hempty
  rw [List.nil_append, List.length_nil] at hs
  simp only [sortArrays, counters_eq, queue_eq h.nodeCount_le, Except.bind, hs, horder]
  rfl

/-- `topo_sort` keeps to its arrays and orders the nodes along the edges exactly if they have no
cycle. -/
theorem topo_sort_correct {arch : Arch} {framesPerPeriod : ℕ} {m m' : Mem} {ops : List GraphOp}
    {g : Graph} (h : graphAfter arch framesPerPeriod m ops = .ok (g, m')) :
    ∃ rc g', sortArrays g = .ok (rc, g') ∧ (rc = .ok ↔ TopoSort.Acyclic g.edges) ∧
      (rc = .ok → g'.execOrder.Perm (List.range g.nodeCount) ∧
        ∀ e ∈ g.edges, g'.execOrder.idxOf e.1 < g'.execOrder.idxOf e.2) := by
  have hwired := (graphAfter_inv h).wired
  have hedges : ∀ e ∈ g.edges, e.1 < g.nodeCount ∧ e.2 < g.nodeCount := fun e he =>
    ⟨(hwired.edge e he).1, (hwired.edge e he).2.1⟩
  have hstatus : (topoSort g).1 = .ok ↔
      (TopoSort.kahn g.edges g.nodeCount).1.length = g.nodeCount := by
    simp only [topoSort]
    split_ifs with hlen <;> simp [hlen]
  refine ⟨_, _, sortArrays_eq hwired, hstatus.trans (TopoSort.kahn_complete_iff hedges), ?_⟩
  intro hok
  have hto : ∀ e ∈ g.edges, e.2 < g.nodeCount := fun e he => (hedges e he).2
  obtain ⟨hnodup, -, hordered⟩ := TopoSort.kahn_spec hto
  have hperm := TopoSort.kahn_perm hto (hstatus.mp hok)
  refine ⟨hperm, fun e he => hordered.idxOf_lt hnodup he ?_⟩
  exact hperm.mem_iff.mpr (List.mem_range.mpr (hedges e he).2)

def feedback : Graph :=
  ([.addNode .source, .addNode .processor, .addNode .processor, .connect 1 2,
    .connect 2 1].foldl (graphStep .arm32) (.zero 64, fun _ => 0)).1

theorem topo_sort_feedback : ∃ rc g', sortArrays feedback = .ok (rc, g') ∧
    (rc = .ok ↔ TopoSort.Acyclic feedback.edges) ∧
    (rc = .ok → g'.execOrder.Perm (List.range feedback.nodeCount) ∧
      ∀ e ∈ feedback.edges, g'.execOrder.idxOf e.1 < g'.execOrder.idxOf e.2) :=
  @topo_sort_correct .arm32 64 (fun _ => 0) _ [.addNode .source, .addNode .processor,
    .addNode .processor, .connect 1 2, .connect 2 1] _ rfl

example : (sortArrays feedback).map Prod.fst = .ok .errInvalidParam := by decide +kernel

end Overtos.Audio
