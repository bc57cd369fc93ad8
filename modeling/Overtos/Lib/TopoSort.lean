import Mathlib.Tactic

/-! Topological orders of a list of edges, and the queue algorithm that finds one. -/
namespace TopoSort
open Function List

variable {edges : List (ℕ × ℕ)}

def Ordered (edges : List (ℕ × ℕ)) (order : List ℕ) : Prop :=
  ∀ pre i post, order = pre ++ i :: post → ∀ e ∈ edges, e.2 = i → e.1 ∈ pre

def relax (node : ℕ) (s : (ℕ → ℕ) × List ℕ) (e : ℕ × ℕ) : (ℕ → ℕ) × List ℕ :=
  if e.1 = node then
    let degree := update s.1 e.2 (s.1 e.2 - 1)
    (degree, if degree e.2 = 0 then s.2 ++ [e.2] else s.2)
  else s

def loop (edges : List (ℕ × ℕ)) : ℕ → (ℕ → ℕ) → List ℕ → List ℕ → List ℕ × List ℕ
  | 0, _, queue, order => (order, queue)
  | _ + 1, _, [], order => (order, [])
  | n + 1, degree, node :: queue, order =>
    let s := edges.foldl (relax node) (degree, queue)
    loop edges n s.1 s.2 (order ++ [node])

def inDegree (edges : List (ℕ × ℕ)) (i : ℕ) : ℕ := edges.countP fun e => e.2 = i

def kahn (edges : List (ℕ × ℕ)) (n : ℕ) : List ℕ × List ℕ :=
  loop edges n (inDegree edges) ((range n).filter fun i => inDegree edges i = 0) []

def waiting (edges : List (ℕ × ℕ)) (order : List ℕ) (i : ℕ) : ℕ :=
  edges.countP fun e => e.2 = i ∧ e.1 ∉ order

def ahead (rest : List (ℕ × ℕ)) (node i : ℕ) : ℕ := rest.countP fun e => e.2 = i ∧ e.1 = node

structure Relaxing (edges rest : List (ℕ × ℕ)) (n node : ℕ) (order : List ℕ)
    (s : (ℕ → ℕ) × List ℕ) : Prop where
  degree : ∀ i, waiting edges order i + ahead rest node i ≤ s.1 i
  free : ∀ i ∈ order ++ s.2, waiting edges order i + ahead rest node i = 0
  nodup : (order ++ s.2).Nodup
  bound : ∀ i ∈ order ++ s.2, i < n

theorem Relaxing.relax {rest : List (ℕ × ℕ)} {n node : ℕ} {order : List ℕ} {s : (ℕ → ℕ) × List ℕ}
    {e : ℕ × ℕ} (h : Relaxing edges (e :: rest) n node order s) (he : e.2 < n) :
    Relaxing edges rest n node order (relax node s e) := by
  have hahead (i : ℕ) : ahead (e :: rest) node i =
      ahead rest node i + if e.2 = i ∧ e.1 = node then 1 else 0 := by
    simp [ahead, countP_cons]
  by_cases hnode : e.1 = node
  · have hnew : e.2 ∉ order ++ s.2 := by
      intro hmem
      have hzero := h.free _ hmem
      simp [hahead, hnode] at hzero
    have hdeg (i : ℕ) : waiting edges order i + ahead rest node i ≤
        (update s.1 e.2 (s.1 e.2 - 1) : ℕ → ℕ) i := by
      have hold := h.degree i
      rw [hahead] at hold
      by_cases hi : i = e.2
      · subst hi
        simp only [hnode, and_self, if_true] at hold
        rw [update_self]
        omega
      · rw [update_of_ne hi]
        omega
    have hfree (i : ℕ) (hi : i ∈ order ++ s.2) : waiting edges order i + ahead rest node i = 0 := by
      have hold := h.free i hi
      rw [hahead] at hold
      omega
    simp only [TopoSort.relax, if_pos hnode]
    by_cases hzero : (update s.1 e.2 (s.1 e.2 - 1) : ℕ → ℕ) e.2 = 0
    · rw [if_pos hzero]
      refine ⟨hdeg, ?_, ?_, ?_⟩
      · intro i hi
        rw [← append_assoc, mem_append, mem_singleton] at hi
        rcases hi with hi | rfl
        · exact hfree i hi
        · have := hdeg e.2
          omega
      · rw [← append_assoc]
        exact h.nodup.append (nodup_singleton _) (by simpa using hnew)
      · intro i hi
        rw [← append_assoc, mem_append, mem_singleton] at hi
        rcases hi with hi | rfl
        · exact h.bound i hi
        · exact he
    · rw [if_neg hzero]
      exact ⟨hdeg, hfree, h.nodup, h.bound⟩
  · have hsame (i : ℕ) : ahead (e :: rest) node i = ahead rest node i := by
      simp [hahead, hnode]
    rw [TopoSort.relax, if_neg hnode]
    exact ⟨fun i => hsame i ▸ h.degree i, fun i hi => hsame i ▸ h.free i hi, h.nodup, h.bound⟩

theorem Relaxing.foldl {rest : List (ℕ × ℕ)} {n node : ℕ} {order : List ℕ} {s : (ℕ → ℕ) × List ℕ}
    (h : Relaxing edges rest n node order s) (hrest : ∀ e ∈ rest, e.2 < n) :
    Relaxing edges [] n node order (rest.foldl (TopoSort.relax node) s) := by
  induction rest generalizing s with
  | nil => exact h
  | cons e rest ih =>
    exact ih (h.relax (hrest e mem_cons_self)) fun e' he' =>
      hrest e' (mem_cons_of_mem _ he')

structure Sorting (edges : List (ℕ × ℕ)) (n : ℕ) (degree : ℕ → ℕ) (queue order : List ℕ) : Prop where
  degree : ∀ i, waiting edges order i ≤ degree i
  free : ∀ i ∈ order ++ queue, waiting edges order i = 0
  nodup : (order ++ queue).Nodup
  bound : ∀ i ∈ order ++ queue, i < n
  ordered : Ordered edges order

theorem waiting_eq_zero {order : List ℕ} {i : ℕ} :
    waiting edges order i = 0 ↔ ∀ e ∈ edges, e.2 = i → e.1 ∈ order := by
  simp [waiting, countP_eq_zero]

theorem Ordered.snoc {order : List ℕ} {node : ℕ} (h : Ordered edges order)
    (hnode : ∀ e ∈ edges, e.2 = node → e.1 ∈ order) : Ordered edges (order ++ [node]) := by
  intro pre i post heq e he hi
  rcases eq_nil_or_concat post with rfl | ⟨post', j, rfl⟩
  · obtain ⟨rfl, hlast⟩ := append_inj' heq rfl
    obtain rfl : node = i := by simpa using hlast
    exact hnode e he hi
  · have hcut : order = pre ++ i :: post' := by
      have hlast : order ++ [node] = (pre ++ i :: post') ++ [j] := by simpa using heq
      exact (append_inj' hlast rfl).1
    exact h pre i post' hcut e he hi

theorem waiting_snoc {order : List ℕ} {node : ℕ} (hnode : node ∉ order) (i : ℕ) :
    waiting edges (order ++ [node]) i + ahead edges node i = waiting edges order i := by
  induction edges with
  | nil => rfl
  | cons e edges ih =>
    simp only [waiting, ahead, countP_cons, mem_append, mem_singleton] at ih ⊢
    rw [← ih]
    by_cases hi : e.2 = i
    · by_cases he : e.1 = node
      · simp [hi, he, hnode]
        omega
      · by_cases ho : e.1 ∈ order <;> simp [hi, he, ho]
        omega
    · simp [hi]

theorem Sorting.relaxing {n : ℕ} {degree : ℕ → ℕ} {node : ℕ} {queue order : List ℕ}
    (h : Sorting edges n degree (node :: queue) order) :
    Relaxing edges edges n node (order ++ [node]) (degree, queue) := by
  have hshift : order ++ node :: queue = order ++ [node] ++ queue := by simp
  have hnode : node ∉ order := fun hmem =>
    disjoint_of_nodup_append h.nodup hmem mem_cons_self
  have hsplit (i : ℕ) : waiting edges (order ++ [node]) i + ahead edges node i =
      waiting edges order i := waiting_snoc hnode i
  refine ⟨fun i => hsplit i ▸ h.degree i, fun i hi => ?_, hshift ▸ h.nodup, fun i hi => ?_⟩
  · rw [hsplit]
    exact h.free i (hshift ▸ hi)
  · exact h.bound i (hshift ▸ hi)

theorem Sorting.next {n : ℕ} {degree : ℕ → ℕ} {node : ℕ} {queue order : List ℕ}
    (h : Sorting edges n degree (node :: queue) order) (hedges : ∀ e ∈ edges, e.2 < n) :
    Sorting edges n (edges.foldl (relax node) (degree, queue)).1
      (edges.foldl (relax node) (degree, queue)).2 (order ++ [node]) := by
  have hend := h.relaxing.foldl hedges
  refine ⟨fun i => by simpa [ahead] using hend.degree i, fun i hi => by
    simpa [ahead] using hend.free i hi, hend.nodup, hend.bound, ?_⟩
  exact h.ordered.snoc (waiting_eq_zero.mp (h.free node (by simp)))

theorem loop_sorting {n : ℕ} (hedges : ∀ e ∈ edges, e.2 < n) {turns : ℕ} {degree : ℕ → ℕ}
    {queue order : List ℕ} (h : Sorting edges n degree queue order) :
    ∃ degree', Sorting edges n degree' (loop edges turns degree queue order).2
      (loop edges turns degree queue order).1 ∧
      ((loop edges turns degree queue order).2 = [] ∨
        (loop edges turns degree queue order).1.length = order.length + turns) := by
  induction turns generalizing degree queue order with
  | zero => exact ⟨degree, h, .inr rfl⟩
  | succ turns ih =>
    cases queue with
    | nil => exact ⟨degree, h, .inl rfl⟩
    | cons node queue =>
      obtain ⟨degree', hend, hdone⟩ := ih (h.next hedges)
      refine ⟨degree', hend, hdone.imp_right fun hlen => ?_⟩
      simp only [loop, hlen, length_append, length_singleton]
      omega

theorem start_sorting (n : ℕ) : Sorting edges n (inDegree edges)
    ((range n).filter fun i => inDegree edges i = 0) [] := by
  have hcount (i : ℕ) : waiting edges [] i = inDegree edges i := by
    simp [waiting, inDegree]
  refine ⟨fun i => (hcount i).le, ?_, nodup_range.filter _, ?_, ?_⟩
  · intro i hi
    rw [hcount]
    simpa using (mem_filter.mp hi).2
  · intro i hi
    exact mem_range.mp (mem_filter.mp hi).1
  · intro pre i post heq
    simp at heq

section

variable {l : List ℕ} {n : ℕ} (hnodup : l.Nodup) (hbound : ∀ i ∈ l, i < n)
include hnodup hbound

theorem subperm_range : l.Subperm (range n) :=
  hnodup.subperm fun i hi => mem_range.mpr (hbound i hi)

theorem length_le_of_nodup : l.length ≤ n :=
  (subperm_range hnodup hbound).length_le.trans_eq length_range

theorem perm_range_of_nodup (hlen : l.length = n) : l.Perm (range n) :=
  (subperm_range hnodup hbound).perm_of_length_le (by rw [hlen, length_range])

end

theorem kahn_sorting {n : ℕ} (hedges : ∀ e ∈ edges, e.2 < n) :
    ∃ degree, Sorting edges n degree (kahn edges n).2 (kahn edges n).1 ∧ (kahn edges n).2 = [] := by
  obtain ⟨degree, hend, hdone⟩ := @loop_sorting _ _ hedges n _ _ _ (start_sorting n)
  refine ⟨degree, hend, ?_⟩
  rcases hdone with hempty | hlen
  · exact hempty
  · -- all `n` nodes are in the order, so nothing can be queued besides them
    have hle : ((kahn edges n).1 ++ (kahn edges n).2).length ≤ n :=
      length_le_of_nodup hend.nodup hend.bound
    have hfull : (kahn edges n).1.length = n := by
      rw [kahn, hlen]
      simp
    rw [length_append, hfull] at hle
    exact eq_nil_of_length_eq_zero (by omega)

theorem kahn_spec {n : ℕ} (hedges : ∀ e ∈ edges, e.2 < n) :
    (kahn edges n).1.Nodup ∧ (∀ i ∈ (kahn edges n).1, i < n) ∧ Ordered edges (kahn edges n).1 := by
  obtain ⟨degree, h, hempty⟩ := kahn_sorting hedges
  have hnodup := h.nodup
  have hbound := h.bound
  rw [hempty, append_nil] at hnodup hbound
  exact ⟨hnodup, hbound, h.ordered⟩

theorem kahn_perm {n : ℕ} (hedges : ∀ e ∈ edges, e.2 < n) (hlen : (kahn edges n).1.length = n) :
    (kahn edges n).1.Perm (range n) := by
  obtain ⟨hnodup, hbound, -⟩ := kahn_spec hedges
  exact perm_range_of_nodup hnodup hbound hlen

def Acyclic (edges : List (ℕ × ℕ)) : Prop := ∀ i, ¬Relation.TransGen (fun a b => (a, b) ∈ edges) i i

structure Complete (edges rest : List (ℕ × ℕ)) (n node : ℕ) (order : List ℕ)
    (s : (ℕ → ℕ) × List ℕ) : Prop where
  degree : ∀ i, s.1 i = waiting edges order i + ahead rest node i
  queued : ∀ i < n, s.1 i = 0 → i ∈ order ++ s.2

theorem Complete.relax {rest : List (ℕ × ℕ)} {n node : ℕ} {order : List ℕ} {s : (ℕ → ℕ) × List ℕ}
    {e : ℕ × ℕ} (h : Complete edges (e :: rest) n node order s) :
    Complete edges rest n node order (relax node s e) := by
  have hdeg (i : ℕ) : s.1 i = waiting edges order i +
      (ahead rest node i + if e.2 = i ∧ e.1 = node then 1 else 0) := by
    rw [h.degree i]
    simp [ahead, countP_cons]
  unfold TopoSort.relax
  split_ifs with hnode
  · constructor
    · intro i
      have hi := hdeg i
      by_cases heq : i = e.2
      · subst heq
        simp only [hnode, and_self, if_true] at hi
        simp only [update_self]
        omega
      · simp only [Ne.symm heq, false_and, if_false] at hi
        simp only [update_of_ne heq]
        omega
    · intro i hi hzero
      dsimp only at hzero ⊢
      by_cases heq : i = e.2
      · subst heq
        rw [if_pos hzero]
        simp
      · rw [update_of_ne heq] at hzero
        have hmem := mem_append.mp (h.queued i hi hzero)
        split_ifs <;> simp only [mem_append] <;> tauto
  · refine ⟨fun i => ?_, h.queued⟩
    rw [hdeg i, if_neg (fun hand => hnode hand.2), Nat.add_zero]

theorem Complete.foldl {rest : List (ℕ × ℕ)} {n node : ℕ} {order : List ℕ} {s : (ℕ → ℕ) × List ℕ}
    (h : Complete edges rest n node order s) :
    Complete edges [] n node order (rest.foldl (TopoSort.relax node) s) := by
  induction rest generalizing s with
  | nil => exact h
  | cons e rest ih => exact ih h.relax

theorem Complete.next {n last node : ℕ} {degree : ℕ → ℕ} {queue order : List ℕ}
    (h : Complete edges [] n last order (degree, node :: queue)) (hnode : node ∉ order) :
    Complete edges [] n node (order ++ [node])
      (edges.foldl (TopoSort.relax node) (degree, queue)) := by
  apply Complete.foldl
  constructor
  · intro i
    rw [waiting_snoc hnode]
    exact h.degree i
  · intro i hi hzero
    simpa using h.queued i hi hzero

theorem loop_complete {n last turns : ℕ} (hedges : ∀ e ∈ edges, e.2 < n) {degree : ℕ → ℕ}
    {queue order : List ℕ} (hs : Sorting edges n degree queue order)
    (h : Complete edges [] n last order (degree, queue)) :
    ∃ degree' last', Complete edges [] n last' (loop edges turns degree queue order).1
      (degree', (loop edges turns degree queue order).2) := by
  induction turns generalizing degree queue order last with
  | zero => exact ⟨degree, last, h⟩
  | succ turns ih =>
    cases queue with
    | nil => exact ⟨degree, last, h⟩
    | cons node queue =>
      have hnode : node ∉ order := by
        intro hmem
        exact disjoint_of_nodup_append hs.nodup hmem mem_cons_self
      exact ih (hs.next hedges) (h.next hnode)

theorem start_complete (n : ℕ) : Complete edges [] n 0 []
    (inDegree edges, (range n).filter fun i => inDegree edges i = 0) := by
  constructor
  · intro i
    simp [inDegree, waiting, ahead]
  · intro i hi hzero
    simpa using ⟨hi, hzero⟩

theorem kahn_left_out {n : ℕ} (hedges : ∀ e ∈ edges, e.2 < n) {i : ℕ} (hi : i < n)
    (hout : i ∉ (kahn edges n).1) : ∃ e ∈ edges, e.2 = i ∧ e.1 ∉ (kahn edges n).1 := by
  obtain ⟨-, -, hempty⟩ := kahn_sorting hedges
  obtain ⟨degree, last, h⟩ := @loop_complete edges n 0 n hedges _ _ _ (start_sorting n)
    (start_complete n)
  by_contra hnone
  push Not at hnone
  have hzero : degree i = 0 := by
    have hwait : waiting edges (kahn edges n).1 i = 0 := waiting_eq_zero.mpr hnone
    exact (h.degree i).trans (Nat.add_eq_zero_iff.mpr ⟨hwait, rfl⟩)
  have hmem := h.queued i hi hzero
  change i ∈ (kahn edges n).1 ++ (kahn edges n).2 at hmem
  rw [hempty, append_nil] at hmem
  exact hout hmem

theorem Ordered.idxOf_lt {order : List ℕ} (h : Ordered edges order) (hnodup : order.Nodup)
    {e : ℕ × ℕ} (he : e ∈ edges) (hmem : e.2 ∈ order) : order.idxOf e.1 < order.idxOf e.2 := by
  obtain ⟨pre, post, rfl⟩ := append_of_mem hmem
  have hpre := h pre e.2 post rfl e he rfl
  have hnot : e.2 ∉ pre := fun hin =>
    disjoint_of_nodup_append hnodup hin mem_cons_self
  rw [idxOf_append_of_mem hpre, idxOf_append_of_notMem hnot, idxOf_cons_self]
  exact (idxOf_lt_length_of_mem hpre).trans_le (Nat.le_add_right _ _)

theorem acyclic_of_ordered {order : List ℕ} (h : Ordered edges order) (hnodup : order.Nodup)
    (hmem : ∀ e ∈ edges, e.2 ∈ order) : Acyclic edges := by
  intro i hcycle
  have hlt : ∀ j, Relation.TransGen (fun a b => (a, b) ∈ edges) i j →
      order.idxOf i < order.idxOf j := by
    intro j hj
    induction hj with
    | single he => exact h.idxOf_lt hnodup he (hmem _ he)
    | tail _ he ih => exact ih.trans (h.idxOf_lt hnodup he (hmem _ he))
  exact (hlt i hcycle).false

theorem not_acyclic_of_closed {n : ℕ} {p : ℕ → Prop} {i : ℕ} (hi : i < n) (hp : p i)
    (hclosed : ∀ i < n, p i → ∃ e ∈ edges, e.2 = i ∧ e.1 < n ∧ p e.1) : ¬Acyclic edges := by
  intro hacyclic
  let r : ℕ → ℕ → Prop := Relation.TransGen fun a b => (a, b) ∈ edges
  have : IsStrictOrder ℕ r := { irrefl := hacyclic, trans := fun _ _ _ => Relation.TransGen.trans }
  have hfinite : {j | j < n ∧ p j}.Finite := (Set.finite_lt_nat n).subset fun _ hj => hj.1
  obtain ⟨j, hj, hmin⟩ := (hfinite.wellFoundedOn (r := r)).has_min Set.univ ⟨⟨i, hi, hp⟩, trivial⟩
  obtain ⟨e, he, hto, hlt, hpe⟩ := hclosed j.1 j.2.1 j.2.2
  exact hmin ⟨e.1, hlt, hpe⟩ trivial (.single (hto ▸ he))

theorem kahn_complete_iff {n : ℕ} (hedges : ∀ e ∈ edges, e.1 < n ∧ e.2 < n) :
    (kahn edges n).1.length = n ↔ Acyclic edges := by
  have hto : ∀ e ∈ edges, e.2 < n := fun e he => (hedges e he).2
  obtain ⟨hnodup, hbound, hordered⟩ := kahn_spec hto
  constructor
  · intro hlen
    exact acyclic_of_ordered hordered hnodup fun e he =>
      (kahn_perm hto hlen).mem_iff.mpr (mem_range.mpr (hto e he))
  · intro hacyclic
    have hall : ∀ i < n, i ∈ (kahn edges n).1 := by
      by_contra hnot
      push Not at hnot
      obtain ⟨i, hi, hout⟩ := hnot
      refine not_acyclic_of_closed (p := (· ∉ (kahn edges n).1)) hi hout (fun j hj hjout => ?_)
        hacyclic
      obtain ⟨e, he, heq, hfrom⟩ := kahn_left_out hto hj hjout
      exact ⟨e, he, heq, (hedges e he).1, hfrom⟩
    have hperm : (kahn edges n).1.Perm (range n) :=
      perm_of_nodup_nodup_toFinset_eq hnodup nodup_range (by
        ext i
        simp only [mem_toFinset, mem_range]
        exact ⟨hbound i, hall i⟩)
    rw [hperm.length_eq, length_range]

end TopoSort
