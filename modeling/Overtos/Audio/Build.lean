import Overtos.Audio.Graph

/-! What the set-up calls and a successful build guarantee of an audio graph. -/
namespace Overtos.Audio
open Word Circular

structure Wired (g : Graph) : Prop where
  nodeCount_le : g.nodeCount ≤ maxNodes
  edges_le : g.edges.length ≤ maxEdges
  edge : ∀ e ∈ g.edges, e.1 < g.nodeCount ∧ e.2 < g.nodeCount ∧ (g.nodes e.1).type ≠ .sink ∧
    (g.nodes e.2).type ≠ .source
  single : (g.edges.map Prod.snd).Nodup

structure Built (arch : Arch) (g : Graph) : Prop where
  nodup : g.execOrder.Nodup
  bound : ∀ i ∈ g.execOrder, i < g.nodeCount
  length : g.execOrder.length = g.nodeCount
  ordered : TopoSort.Ordered g.edges g.execOrder
  buffers : ∀ i < g.nodeCount, g.buffers i = bufferOf arch g i
  storage : ∃ total, totalSize arch g g.nodeCount = some total ∧ (0 < total → g.bufStorage ≠ 0)

structure GraphInv (arch : Arch) (g : Graph) : Prop where
  wired : Wired g
  errors : g.nodeErrors < 2 ^ 32
  supplied : 0 < g.bufStorageSize → g.bufStorage ≠ 0
  built : g.state ≠ .idle → Built arch g

variable {arch : Arch} {g : Graph}

theorem Built.perm (hb : Built arch g) : g.execOrder.Perm (List.range g.nodeCount) :=
  TopoSort.perm_range_of_nodup hb.nodup hb.bound hb.length

variable {g' : Graph} {total alloc : ℕ}

theorem Wired.congr (h : Wired g) (hcount : g'.nodeCount = g.nodeCount)
    (hedges : g'.edges = g.edges) (htype : ∀ i, (g'.nodes i).type = (g.nodes i).type) :
    Wired g' := by
  refine ⟨hcount ▸ h.nodeCount_le, hedges ▸ h.edges_le, ?_, hedges ▸ h.single⟩
  intro e he
  rw [hcount, htype, htype]
  exact h.edge e (hedges ▸ he)

theorem zero_inv (framesPerPeriod : ℕ) : GraphInv arch (.zero framesPerPeriod) := by
  refine ⟨⟨Nat.zero_le _, Nat.zero_le _, ?_, List.nodup_nil⟩, Nat.two_pow_pos 32, ?_, ?_⟩
  · intro e he
    cases he
  · intro h
    cases h
  · intro h
    exact absurd rfl h

theorem addNode_inv (h : GraphInv arch g) (type : NodeType) :
    GraphInv arch (oveAudioGraphAddNode g type).2 := by
  unfold oveAudioGraphAddNode
  split_ifs with hstate hfull
  · exact h
  · exact h
  · have hidle : g.state = .idle := not_not.mp hstate
    refine ⟨⟨by simp; omega, h.wired.edges_le, ?_, h.wired.single⟩, h.errors, h.supplied, ?_⟩
    · intro e he
      obtain ⟨h₁, h₂, h₃, h₄⟩ := h.wired.edge e he
      refine ⟨by simp; omega, by simp; omega, ?_, ?_⟩
      · simpa [Function.update_of_ne h₁.ne] using h₃
      · simpa [Function.update_of_ne h₂.ne] using h₄
    · intro hbuilt
      exact absurd hidle hbuilt

theorem connect_inv (h : GraphInv arch g) (source dest : ℕ) :
    GraphInv arch (oveAudioGraphConnect g source dest).2 := by
  unfold oveAudioGraphConnect
  split_ifs with hstate hrange hfull hsink hsource hfan
  any_goals exact h
  have hidle : g.state = .idle := not_not.mp hstate
  simp only [not_or, Nat.not_le] at hrange
  refine ⟨⟨h.wired.nodeCount_le, by simp; omega, ?_, ?_⟩, h.errors, h.supplied, ?_⟩
  · intro e he
    rcases List.mem_append.mp he with hold | hnew
    · exact h.wired.edge e hold
    · obtain rfl := List.mem_singleton.mp hnew
      exact ⟨hrange.1, hrange.2.1, hsink, hsource⟩
  · rw [List.map_append]
    apply h.wired.single.append (List.nodup_singleton _)
    simpa using hfan
  · intro hbuilt
    exact absurd hidle hbuilt

theorem setBufStorage_inv (h : GraphInv arch g) (storage size : ℕ) :
    GraphInv arch (oveAudioGraphSetBufStorage g storage size).2 := by
  unfold oveAudioGraphSetBufStorage
  split_ifs with hnull hstate
  · exact h
  · exact h
  · have hidle : g.state = .idle := not_not.mp hstate
    simp only [not_or] at hnull
    refine ⟨h.wired.congr rfl rfl fun _ => rfl, h.errors, fun _ => hnull.1, ?_⟩
    intro hbuilt
    exact absurd hidle hbuilt

structure SameButFormats (g g' : Graph) : Prop where
  types : ∀ i, (g'.nodes i).type = (g.nodes i).type
  rest : g' = { g with nodes := g'.nodes }

theorem SameButFormats.trans {g g'' : Graph} (h : SameButFormats g g')
    (h' : SameButFormats g' g'') : SameButFormats g g'' :=
  ⟨fun i => (h'.types i).trans (h.types i), by rw [h'.rest, h.rest]⟩

theorem configureAll_same (configure : Configure) (order : List ℕ) (g : Graph) :
    SameButFormats g (configureAll configure order g).2 := by
  induction order generalizing g with
  | nil => exact ⟨fun _ => rfl, rfl⟩
  | cons idx rest ih =>
    simp only [configureAll]
    generalize configure idx _ _ = r
    -- the node configured keeps its type
    have hset : SameButFormats g (if (g.nodes idx).type ≠ .sink then
        { g with nodes := Function.update g.nodes idx { g.nodes idx with outFmt := r.2 } }
        else g) := by
      split_ifs
      · refine ⟨fun i => ?_, rfl⟩
        by_cases hi : i = idx
        · subst hi
          simp
        · simp [Function.update_of_ne hi]
      · exact ⟨fun _ => rfl, rfl⟩
    by_cases hrc : r.1 = .ok
    · rw [if_pos hrc]
      exact hset.trans (ih _)
    · rw [if_neg hrc]
      exact hset

theorem totalSize_congr (hnodes : g'.nodes = g.nodes)
    (hframes : g'.framesPerPeriod = g.framesPerPeriod) (n : ℕ) :
    totalSize arch g' n = totalSize arch g n := by
  induction n with
  | zero => rfl
  | succ n ih => simp only [totalSize, ih, hnodes, hframes]

theorem buildStorage_spec (hsupplied : 0 < g.bufStorageSize → g.bufStorage ≠ 0) (m : Mem)
    (total alloc : ℕ) :
    (buildStorage g m total alloc).2.1 =
        { g with bufStorage := (buildStorage g m total alloc).2.1.bufStorage } ∧
      (0 < g.bufStorageSize → (buildStorage g m total alloc).2.1.bufStorage ≠ 0) ∧
      ((buildStorage g m total alloc).1 = .ok → 0 < total →
        (buildStorage g m total alloc).2.1.bufStorage ≠ 0) := by
  unfold buildStorage
  split_ifs with htotal hsize hroom hnull
  · exact ⟨rfl, hsupplied, fun h => by cases h⟩
  · exact ⟨rfl, hsupplied, fun _ _ => hsupplied hsize⟩
  · exact ⟨rfl, fun h => absurd h hsize, fun h => by cases h⟩
  · exact ⟨rfl, fun h => absurd h hsize, fun _ _ => hnull⟩
  · exact ⟨rfl, hsupplied, fun _ h => absurd h htotal⟩

theorem SameButFormats.inv {order : List ℕ} (h : GraphInv arch g) (hidle : g.state = .idle)
    (hsame : SameButFormats { g with execOrder := order } g') : GraphInv arch g' := by
  have hrest := hsame.rest
  refine ⟨h.wired.congr ?_ ?_ hsame.types, ?_, ?_, ?_⟩
  · rw [hrest]
  · rw [hrest]
  · rw [hrest]
    exact h.errors
  · rw [hrest]
    exact h.supplied
  · rw [hrest]
    exact fun hbuilt => absurd hidle hbuilt

theorem GraphInv.setStorage {b : ℕ} (h : GraphInv arch g) (hidle : g.state = .idle)
    (hb : 0 < g.bufStorageSize → b ≠ 0) : GraphInv arch { g with bufStorage := b } :=
  ⟨h.wired.congr rfl rfl fun _ => rfl, h.errors, hb, fun hbuilt => absurd hidle hbuilt⟩

theorem GraphInv.setBuffers (h : GraphInv arch g)
    (horder : g.execOrder = (TopoSort.kahn g.edges g.nodeCount).1)
    (hlength : g.execOrder.length = g.nodeCount)
    (htotal : totalSize arch g g.nodeCount = some total) (hstorage : 0 < total → g.bufStorage ≠ 0) :
    GraphInv arch (setBuffers arch g) := by
  obtain ⟨hnodup, hbound, hordered⟩ := TopoSort.kahn_spec fun e he => (h.wired.edge e he).2.1
  rw [← horder] at hnodup hbound hordered
  have hsizes := @totalSize_congr arch g (Audio.setBuffers arch g) rfl rfl
  refine ⟨h.wired.congr rfl rfl fun _ => rfl, h.errors, h.supplied, fun _ =>
    ⟨hnodup, hbound, hlength, hordered, ?_, total, (hsizes _).trans htotal, hstorage⟩⟩
  intro i hi
  have hbuf : (Audio.setBuffers arch g).buffers i = bufferOf arch g i := if_pos hi
  rw [hbuf, bufferOf, bufferOf, hsizes]
  rfl

theorem storage_inv (h : GraphInv arch g) (hidle : g.state = .idle)
    (horder : g.execOrder = (TopoSort.kahn g.edges g.nodeCount).1)
    (hlength : g.execOrder.length = g.nodeCount)
    (htotal : totalSize arch g g.nodeCount = some total) (m : Mem) (alloc : ℕ) :
    GraphInv arch (if ¬(buildStorage g m total alloc).1 = .ok then buildStorage g m total alloc
      else (.ok, setBuffers arch (buildStorage g m total alloc).2.1,
        (buildStorage g m total alloc).2.2)).2.1 := by
  obtain ⟨hrest, hsupplied, hstorage⟩ := buildStorage_spec h.supplied m total alloc
  have hstored : GraphInv arch (buildStorage g m total alloc).2.1 := by
    rw [hrest]
    exact h.setStorage hidle hsupplied
  by_cases hok : (buildStorage g m total alloc).1 = .ok
  · rw [if_neg (not_not.mpr hok)]
    have hsizes := @totalSize_congr arch g (buildStorage g m total alloc).2.1 (by rw [hrest])
      (by rw [hrest])
    apply hstored.setBuffers
    · rw [hrest]
      exact horder
    · rw [hrest]
      exact hlength
    · rw [hsizes, hrest]
      exact htotal
    · exact hstorage hok
  · rw [if_pos hok]
    exact hstored

theorem build_inv (h : GraphInv arch g) (m : Mem) (configure : Configure) (alloc : ℕ) :
    GraphInv arch (oveAudioGraphBuild arch g m configure alloc).2.1 := by
  by_cases hidle : g.state = .idle
  · simp only [oveAudioGraphBuild, hidle, ne_eq, not_true_eq_false, if_false]
    by_cases hsort : (topoSort g).1 = .ok
    · have hsame := configureAll_same configure (topoSort g).2.execOrder (topoSort g).2
      simp only [hsort, not_true_eq_false, if_false]
      generalize configureAll configure (topoSort g).2.execOrder (topoSort g).2 = c at hsame ⊢
      have hconf : GraphInv arch c.2 := hsame.inv h hidle
      have hidle' : c.2.state = .idle := by
        rw [hsame.rest]
        exact hidle
      have horder : c.2.execOrder = (TopoSort.kahn c.2.edges c.2.nodeCount).1 := by
        rw [hsame.rest]
        rfl
      have hlength : c.2.execOrder.length = c.2.nodeCount := by
        rw [hsame.rest]
        by_contra hne
        simp [topoSort] at hsort hne
        exact hne hsort
      split_ifs
      · cases htotal : totalSize arch c.2 c.2.nodeCount with
        | none => exact hconf
        | some total => exact storage_inv hconf hidle' horder hlength htotal m alloc
      · exact hconf
      · exact hconf
      · exact hconf
    · simp only [hsort, not_false_eq_true, if_true]
      exact SameButFormats.inv h hidle ⟨fun _ => rfl, rfl⟩
  · simpa [oveAudioGraphBuild, hidle] using h

theorem buildStorage_room {m : Mem} (h : (buildStorage g m total alloc).1 = .ok)
    (hsize : 0 < g.bufStorageSize) : total ≤ g.bufStorageSize := by
  unfold buildStorage at h
  split_ifs at h <;> omega

theorem build_ok {m : Mem} {configure : Configure}
    (h : (oveAudioGraphBuild arch g m configure alloc).1 = .ok) :
    ∃ g₁ total, g.state = .idle ∧ (topoSort g).1 = .ok ∧
      configureAll configure (topoSort g).2.execOrder (topoSort g).2 = (.ok, g₁) ∧
      totalSize arch g₁ g₁.nodeCount = some total ∧ (buildStorage g₁ m total alloc).1 = .ok ∧
      (oveAudioGraphBuild arch g m configure alloc).2.1 =
        setBuffers arch (buildStorage g₁ m total alloc).2.1 := by
  unfold oveAudioGraphBuild at h ⊢
  dsimp only at h ⊢
  generalize hc : configureAll configure (topoSort g).2.execOrder (topoSort g).2 = c at h ⊢
  split_ifs at h ⊢ with hidle hsort hconf hformats hrates
  · exact absurd h hsort
  · exact absurd h hconf
  · cases htotal : totalSize arch c.2 c.2.nodeCount with
    | none =>
      rw [htotal] at h
      cases h
    | some total =>
      simp only [htotal] at h ⊢
      split_ifs at h ⊢ with hstored
      · exact absurd h hstored
      · refine ⟨c.2, total, not_not.mp hidle, not_not.mp hsort, ?_, htotal, not_not.mp hstored, rfl⟩
        rw [← not_not.mp hconf]

theorem GraphInv.setRun (h : GraphInv arch g) {state : GraphState} {cycles nodeErrors : ℕ}
    (hstate : g.state ≠ .idle) (herrors : nodeErrors < 2 ^ 32) :
    GraphInv arch { g with state := state, cycles := cycles, nodeErrors := nodeErrors } := by
  obtain ⟨hnodup, hbound, hlength, hordered, hbuffers, total, htotal, hstorage⟩ := h.built hstate
  have hsizes := @totalSize_congr arch g
    { g with state := state, cycles := cycles, nodeErrors := nodeErrors } rfl rfl
  refine ⟨h.wired.congr rfl rfl fun _ => rfl, herrors, h.supplied, fun _ =>
    ⟨hnodup, hbound, hlength, hordered, ?_, total, (hsizes _).trans htotal, hstorage⟩⟩
  intro i hi
  show g.buffers i = _
  rw [hbuffers i hi, bufferOf, bufferOf, hsizes]

theorem processNode_errors (behave : Behave) {s : Cycle} (h : s.nodeErrors < 2 ^ 32) (idx : ℕ) :
    (processNode g behave s idx).nodeErrors < 2 ^ 32 := by
  simp only [processNode]
  split_ifs
  all_goals first | exact h | exact wrap_lt 32 _

theorem foldl_errors (behave : Behave) (order : List ℕ) {s : Cycle} (h : s.nodeErrors < 2 ^ 32) :
    (order.foldl (processNode g behave) s).nodeErrors < 2 ^ 32 := by
  induction order generalizing s with
  | nil => exact h
  | cons idx order ih => exact ih (processNode_errors behave h idx)

theorem process_inv (h : GraphInv arch g) (m : Mem) (behave : Behave) :
    GraphInv arch (oveAudioGraphProcess g m behave).2.1 := by
  unfold oveAudioGraphProcess
  split_ifs with hstate
  · exact h
  · exact h.setRun hstate (foldl_errors behave g.execOrder h.errors)

theorem start_inv (h : GraphInv arch g) (start : ℕ → Rc) :
    GraphInv arch (oveAudioGraphStart g start).2 := by
  unfold oveAudioGraphStart
  split_ifs with hstate
  · exact h
  · have hready : g.state = .ready := not_not.mp hstate
    split
    · exact h
    · exact h.setRun (by simp [hready]) h.errors

theorem stop_inv (h : GraphInv arch g) : GraphInv arch (oveAudioGraphStop g).2 := by
  unfold oveAudioGraphStop
  split_ifs with hstate
  · exact h
  · have hrunning : g.state = .running := not_not.mp hstate
    exact h.setRun (by simp [hrunning]) h.errors

theorem graphStep_inv {s : Graph × Mem} (h : GraphInv arch s.1) (op : GraphOp) :
    GraphInv arch (graphStep arch s op).1 := by
  cases op with
  | setBufStorage storage size => exact setBufStorage_inv h storage size
  | addNode type => exact addNode_inv h type
  | connect source dest => exact connect_inv h source dest
  | build configure alloc => exact build_inv h s.2 configure alloc
  | start start => exact start_inv h start
  | stop => exact stop_inv h
  | process behave => exact process_inv h s.2 behave

theorem foldl_graphStep_inv {s : Graph × Mem} (h : GraphInv arch s.1) (ops : List GraphOp) :
    GraphInv arch (ops.foldl (graphStep arch) s).1 := by
  induction ops generalizing s with
  | nil => exact h
  | cons op ops ih => exact ih (graphStep_inv h op)

theorem graphAfter_inv {framesPerPeriod : ℕ} {m m' : Mem} {ops : List GraphOp}
    (h : graphAfter arch framesPerPeriod m ops = .ok (g, m')) : GraphInv arch g := by
  unfold graphAfter oveAudioGraphInit at h
  split_ifs at h with hzero
  · cases h
  · have hrun := foldl_graphStep_inv (s := (Graph.zero framesPerPeriod, m))
      (zero_inv framesPerPeriod : GraphInv arch _) ops
    have hend : ops.foldl (graphStep arch) (Graph.zero framesPerPeriod, m) = (g, m') :=
      Except.ok.inj h
    rw [hend] at hrun
    exact hrun

end Overtos.Audio
