import Overtos.Audio.Cycle

/-! Which nodes are given an input, when a graph is built and when it runs. -/
namespace Overtos.Audio
open List

def configureCalls (configure : Configure) : List ℕ → Graph → List (ℕ × Option Fmt)
  | [], _ => []
  | idx :: rest, g =>
    let inFmt := (inputOf g idx).map fun u => (g.nodes u).outFmt
    let next := configureAll configure [idx] g
    (idx, inFmt) :: if next.1 = .ok then configureCalls configure rest next.2 else []

def buildCalls (g : Graph) (configure : Configure) : List (ℕ × Option Fmt) :=
  if g.state ≠ .idle ∨ (topoSort g).1 ≠ .ok then []
  else configureCalls configure (topoSort g).2.execOrder (topoSort g).2

def Connected (g : Graph) : Prop :=
  ∀ i < g.nodeCount, (g.nodes i).type ≠ .source → ∃ e ∈ g.edges, e.2 = i

/-- `configure` and `process` have an input exactly if the node is no source, and a graph with an
unconnected processor or sink is rejected. -/
structure Feeds (arch : Arch) (g : Graph) (m : Mem) (configure : Configure) (alloc : ℕ) : Prop where
  configured : ∀ c ∈ buildCalls g configure, c.2.isSome = true ↔ (g.nodes c.1).type ≠ .source
  processed : ∀ g' m', oveAudioGraphBuild arch g m configure alloc = (.ok, g', m') →
    ∀ (ops : List GraphOp) (behave : Behave), ∀ c ∈ (oveAudioGraphProcess (ops.foldl (graphStep arch) (g', m')).1
      (ops.foldl (graphStep arch) (g', m')).2 behave).2.2.2,
        c.input.isSome = true ↔ (g.nodes c.node).type ≠ .source
  rejected : ¬Connected g → (oveAudioGraphBuild arch g m configure alloc).1 ≠ .ok

structure SameWiring (g g' : Graph) : Prop where
  nodeCount : g'.nodeCount = g.nodeCount
  edges : g'.edges = g.edges
  types : ∀ i, (g'.nodes i).type = (g.nodes i).type

section

variable {arch : Arch} {g g' g'' : Graph}

theorem SameWiring.refl (g : Graph) : SameWiring g g := ⟨rfl, rfl, fun _ => rfl⟩

theorem SameWiring.trans (h : SameWiring g g') (h' : SameWiring g' g'') : SameWiring g g'' :=
  ⟨h'.nodeCount.trans h.nodeCount, h'.edges.trans h.edges,
    fun i => (h'.types i).trans (h.types i)⟩

theorem SameButFormats.wiring (h : SameButFormats g g') : SameWiring g g' := by
  refine ⟨?_, ?_, h.types⟩
  · rw [h.rest]
  · rw [h.rest]

theorem build_wiring {m : Mem} {configure : Configure} {alloc : ℕ}
    (h : (oveAudioGraphBuild arch g m configure alloc).1 = .ok) :
    SameWiring g (oveAudioGraphBuild arch g m configure alloc).2.1 ∧
      (oveAudioGraphBuild arch g m configure alloc).2.1.state = .ready := by
  obtain ⟨g₁, total, -, -, hconf, -, -, hbuilt⟩ := build_ok h
  have hsame := configureAll_same configure (topoSort g).2.execOrder (topoSort g).2
  rw [hconf] at hsame
  have hsorted : SameWiring g (topoSort g).2 := ⟨rfl, rfl, fun _ => rfl⟩
  refine ⟨(hsorted.trans hsame.wiring).trans ?_, by rw [hbuilt]; rfl⟩
  rw [hbuilt]
  simp only [setBuffers, buildStorage]
  split_ifs <;> exact ⟨rfl, rfl, fun _ => rfl⟩

theorem graphStep_wiring {s : Graph × Mem} (hs : s.1.state ≠ .idle) (op : GraphOp) :
    SameWiring s.1 (graphStep arch s op).1 ∧ (graphStep arch s op).1.state ≠ .idle := by
  cases op with
  | setBufStorage storage size =>
    simp only [graphStep, oveAudioGraphSetBufStorage]
    split_ifs <;> exact ⟨.refl _, hs⟩
  | addNode type =>
    simp only [graphStep, oveAudioGraphAddNode, if_pos hs]
    exact ⟨.refl _, hs⟩
  | connect source dest =>
    simp only [graphStep, oveAudioGraphConnect, if_pos hs]
    exact ⟨.refl _, hs⟩
  | build configure alloc =>
    simp only [graphStep, oveAudioGraphBuild, if_pos hs]
    exact ⟨.refl _, hs⟩
  | start start =>
    simp only [graphStep, oveAudioGraphStart]
    split_ifs
    · exact ⟨.refl _, hs⟩
    · split
      · exact ⟨.refl _, hs⟩
      · exact ⟨⟨rfl, rfl, fun _ => rfl⟩, by simp⟩
  | stop =>
    simp only [graphStep, oveAudioGraphStop]
    split_ifs
    · exact ⟨.refl _, hs⟩
    · exact ⟨⟨rfl, rfl, fun _ => rfl⟩, by simp⟩
  | process behave =>
    simp only [graphStep, oveAudioGraphProcess, if_neg hs]
    exact ⟨⟨rfl, rfl, fun _ => rfl⟩, hs⟩

theorem foldl_wiring {s : Graph × Mem} (hs : s.1.state ≠ .idle) (ops : List GraphOp) :
    SameWiring s.1 (ops.foldl (graphStep arch) s).1 := by
  induction ops generalizing s with
  | nil => exact .refl _
  | cons op ops ih =>
    obtain ⟨hwiring, hstate⟩ := @graphStep_wiring arch s hs op
    exact hwiring.trans (ih hstate)

theorem SameWiring.inputOf (h : SameWiring g g') (i : ℕ) : inputOf g' i = inputOf g i := by
  simp only [Audio.inputOf, findUpstream, h.types, h.edges]

theorem findUpstream_isSome (g : Graph) (i : ℕ) :
    (findUpstream g i).isSome = true ↔ ∃ e ∈ g.edges, e.2 = i := by
  simp [findUpstream]

theorem Connected.inputOf (h : Connected g) {i : ℕ} (hi : i < g.nodeCount) :
    (inputOf g i).isSome = true ↔ (g.nodes i).type ≠ .source := by
  unfold Audio.inputOf
  split_ifs with hsource
  · exact iff_of_true ((findUpstream_isSome g i).mpr (h i hi hsource)) hsource
  · exact iff_of_false nofun hsource

theorem configureCalls_mem (configure : Configure) {order : List ℕ} {c : ℕ × Option Fmt}
    (hsame : SameWiring g g') (hc : c ∈ configureCalls configure order g') :
    c.1 ∈ order ∧ c.2.isSome = (Audio.inputOf g c.1).isSome := by
  induction order generalizing g' with
  | nil => cases hc
  | cons idx rest ih =>
    rw [configureCalls, mem_cons] at hc
    rcases hc with rfl | hc
    · exact ⟨mem_cons_self, by rw [Option.isSome_map, hsame.inputOf]⟩
    · split_ifs at hc
      · have hnext := hsame.trans (configureAll_same configure [idx] g').wiring
        obtain ⟨hmem, hin⟩ := ih hnext hc
        exact ⟨mem_cons_of_mem _ hmem, hin⟩
      · cases hc

theorem processNode_call (behave : Behave) (s : Cycle) (k : ℕ) : (processNode g behave s k).calls =
      s.calls ++ [⟨k, (Audio.inputOf g k).map fun u => (u, contents g s.mem u)⟩] := by
  simp only [processNode]
  split_ifs <;> rfl

theorem foldl_calls_mem {behave : Behave} {order : List ℕ} {s : Cycle} {c : Call}
    (hc : c ∈ (order.foldl (processNode g behave) s).calls) :
    c ∈ s.calls ∨ c.node ∈ order ∧ c.input.isSome = (Audio.inputOf g c.node).isSome := by
  induction order generalizing s with
  | nil => exact .inl hc
  | cons idx order ih =>
    rcases ih hc with hold | ⟨hmem, hin⟩
    · rw [processNode_call, mem_append, mem_singleton] at hold
      rcases hold with hold | rfl
      · exact .inl hold
      · exact .inr ⟨mem_cons_self, Option.isSome_map⟩
    · exact .inr ⟨mem_cons_of_mem _ hmem, hin⟩

theorem process_calls_mem {m : Mem} {behave : Behave} {c : Call}
    (hc : c ∈ (oveAudioGraphProcess g m behave).2.2.2) :
    g.state ≠ .idle ∧ c.node ∈ g.execOrder ∧
      c.input.isSome = (Audio.inputOf g c.node).isSome := by
  unfold oveAudioGraphProcess at hc
  split_ifs at hc with hidle
  · cases hc
  · exact ⟨hidle, (foldl_calls_mem hc).resolve_left nofun⟩

end

section

variable {arch : Arch} {g : Graph}

def accepting : Configure := fun _ _ _ => (.ok, ⟨1, 1, .other⟩)

theorem configureAll_accepting (order : List ℕ) (g : Graph) :
    (configureAll accepting order g).1 = .ok ∧ ∀ i, (g.nodes i).type ≠ .sink →
      i ∈ order ∨ (g.nodes i).outFmt = ⟨1, 1, .other⟩ →
        ((configureAll accepting order g).2.nodes i).outFmt = ⟨1, 1, .other⟩ := by
  induction order generalizing g with
  | nil => exact ⟨rfl, fun i _ hi => hi.resolve_left nofun⟩
  | cons idx rest ih =>
    have hcons : configureAll accepting (idx :: rest) g =
        configureAll accepting rest (configureAll accepting [idx] g).2 := rfl
    have htypes := (configureAll_same accepting [idx] g).types
    rw [hcons]
    obtain ⟨hok, hfmt⟩ := ih (configureAll accepting [idx] g).2
    refine ⟨hok, fun i hsink hi => hfmt i (by rwa [htypes]) ?_⟩
    by_cases heq : i = idx
    · subst heq
      right
      simp [configureAll, accepting, hsink]
    · rcases hi with hi | hi
      · exact .inl ((mem_cons.mp hi).resolve_left heq)
      · right
        simp only [configureAll, accepting]
        split_ifs <;> simp [Function.update_of_ne heq, hi]

theorem totalSize_accepting {n : ℕ}
    (h : ∀ i < n, (g.nodes i).type ≠ .sink → (g.nodes i).outFmt = ⟨1, 1, .other⟩) :
    totalSize arch g n = some 0 := by
  induction n with
  | zero => rfl
  | succ n ih =>
    rw [totalSize, ih fun i hi => h i (by omega), Option.bind_some]
    split_ifs with hsink
    · rfl
    · have hbytes : bufByteSize (g.nodes n).outFmt g.framesPerPeriod = 0 := by
        rw [h n (by omega) hsink]
        simp [bufByteSize, oveAudioSampleSize, Word.wrap]
      simp [hbytes, Word.wrap]

theorem build_accepting (h : GraphInv arch g) (hidle : g.state = .idle)
    (hacyclic : TopoSort.Acyclic g.edges) (m : Mem) :
    (oveAudioGraphBuild arch g m accepting 0).1 = .ok := by
  have hedges : ∀ e ∈ g.edges, e.1 < g.nodeCount ∧ e.2 < g.nodeCount := fun e he =>
    ⟨(h.wired.edge e he).1, (h.wired.edge e he).2.1⟩
  have hlen := (TopoSort.kahn_complete_iff hedges).mpr hacyclic
  have hperm := TopoSort.kahn_perm (fun e he => (hedges e he).2) hlen
  have hall : ∀ i < g.nodeCount, i ∈ (topoSort g).2.execOrder := fun i hi =>
    hperm.mem_iff.mpr (mem_range.mpr hi)
  have hsort : (topoSort g).1 = .ok := if_pos hlen
  obtain ⟨hok, hfmt⟩ := configureAll_accepting (topoSort g).2.execOrder (topoSort g).2
  have hsame := configureAll_same accepting (topoSort g).2.execOrder (topoSort g).2
  generalize hc : configureAll accepting (topoSort g).2.execOrder (topoSort g).2 = c
    at hok hfmt hsame
  have hcount : c.2.nodeCount = g.nodeCount := by
    rw [hsame.rest]
    rfl
  have hcedges : c.2.edges = g.edges := by
    rw [hsame.rest]
    rfl
  have hformat : ∀ i < c.2.nodeCount, (c.2.nodes i).type ≠ .sink →
      (c.2.nodes i).outFmt = ⟨1, 1, .other⟩ := by
    intro i hi hsink
    exact hfmt i (by rwa [← hsame.types]) (.inl (hall i (hcount ▸ hi)))
  have hvalid : formatsValid c.2 = true := by
    simp only [formatsValid, all_eq_true, mem_range]
    intro i hi
    by_cases hsink : (c.2.nodes i).type = .sink
    · simp [hsink]
    · simp [hformat i hi hsink]
  have hrates : ratesAgree c.2 = true := by
    simp only [ratesAgree, all_eq_true]
    intro e he
    rw [hcedges] at he
    have hfrom : (c.2.nodes e.1).type ≠ .sink := by
      rw [hsame.types]
      exact (h.wired.edge e he).2.2.1
    by_cases hsink : (c.2.nodes e.2).type = .sink
    · simp [hsink]
    · simp [hformat e.1 (hcount ▸ (hedges e he).1) hfrom,
        hformat e.2 (hcount ▸ (hedges e he).2) hsink]
  simp only [oveAudioGraphBuild, hidle, hsort, hc, hok, hvalid, hrates,
    totalSize_accepting hformat, buildStorage]
  rfl

end

/-- Builds feed their nodes and reject what they cannot feed exactly if the graph has a cycle or
every processor and sink is connected. -/
theorem inputs_fed_iff {arch : Arch} {framesPerPeriod : ℕ} {m m' : Mem} {ops : List GraphOp}
    {g : Graph} (h : graphAfter arch framesPerPeriod m ops = .ok (g, m')) :
    (∀ configure alloc, Feeds arch g m' configure alloc) ↔
      (g.state = .idle → TopoSort.Acyclic g.edges → Connected g) := by
  have hinv := graphAfter_inv h
  have hedges : ∀ e ∈ g.edges, e.1 < g.nodeCount ∧ e.2 < g.nodeCount := fun e he =>
    ⟨(hinv.wired.edge e he).1, (hinv.wired.edge e he).2.1⟩
  have hsorted : (topoSort g).1 = .ok → TopoSort.Acyclic g.edges := by
    intro hok
    apply (TopoSort.kahn_complete_iff hedges).mp
    by_contra hlen
    rw [topoSort, if_neg hlen] at hok
    cases hok
  constructor
  · intro hall hidle hacyclic
    by_contra hnot
    exact (hall accepting 0).rejected hnot (build_accepting hinv hidle hacyclic m')
  · intro hcond configure alloc
    refine ⟨?_, ?_, ?_⟩
    · intro c hc
      unfold buildCalls at hc
      split_ifs at hc with hno
      · cases hc
      · push Not at hno
        obtain ⟨hmem, hin⟩ := @configureCalls_mem g (topoSort g).2 configure _ c
          ⟨rfl, rfl, fun _ => rfl⟩ hc
        obtain ⟨-, hbound, -⟩ := TopoSort.kahn_spec fun e he => (hedges e he).2
        rw [hin]
        exact (hcond hno.1 (hsorted hno.2)).inputOf (hbound _ hmem)
    · intro g' m'' hbuild later behave c hc
      obtain ⟨-, -, hidle, hsort, -, -, -, -⟩ := build_ok (congrArg Prod.fst hbuild)
      obtain ⟨hwiring, hready⟩ := build_wiring (congrArg Prod.fst hbuild)
      have hinv' := build_inv hinv m' configure alloc
      rw [hbuild] at hwiring hready hinv'
      dsimp only at hwiring hready hinv'
      have hrun : (g', m'').1.state ≠ .idle := by simp [hready]
      have hlater : SameWiring g (later.foldl (graphStep arch) (g', m'')).1 :=
        hwiring.trans (foldl_wiring hrun later)
      have hend := foldl_graphStep_inv (s := (g', m'')) hinv' later
      obtain ⟨hstate, hmem, hin⟩ := process_calls_mem hc
      rw [hin, hlater.inputOf]
      apply (hcond hidle (hsorted hsort)).inputOf
      rw [← hlater.nodeCount]
      exact (hend.built hstate).bound _ hmem
    · intro hnot hok
      obtain ⟨-, -, hidle, hsort, -, -, -, -⟩ := build_ok hok
      exact hnot (hcond hidle (hsorted hsort))

def pipeline : Graph :=
  ([.addNode .sink, .addNode .source, .addNode .processor, .connect 1 2, .connect 2 0].foldl
    (graphStep .arm32) (.zero 64, fun _ => 0)).1

theorem pipeline_fed : Connected pipeline ∧
    ∀ configure alloc, Feeds .arm32 pipeline (fun _ => 0) configure alloc := by
  have hconnected : Connected pipeline := by
    unfold Connected
    decide +kernel
  exact ⟨hconnected, (@inputs_fed_iff .arm32 64 (fun _ => 0) _ [.addNode .sink, .addNode .source,
    .addNode .processor, .connect 1 2, .connect 2 0] _ rfl).mpr fun _ _ => hconnected⟩

def loneProcessor : Graph :=
  ([.addNode .source, .addNode .processor].foldl (graphStep .arm32) (.zero 64, fun _ => 0)).1

theorem lone_processor_built :
    (1, none) ∈ buildCalls loneProcessor (fun _ _ _ => (.ok, ⟨48000, 1, .s16⟩)) ∧
      ¬Feeds .arm32 loneProcessor (fun _ => 0) (fun _ _ _ => (.ok, ⟨48000, 1, .s16⟩)) 4096 := by
  refine ⟨by decide +kernel, fun h => h.rejected ?_ (by decide +kernel)⟩
  unfold Connected
  decide +kernel

end Overtos.Audio
