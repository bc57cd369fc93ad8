import Overtos.Lib.Circular
import Overtos.Lib.TopoSort
import Overtos.Lib.Word
import Overtos.Types

/-! The audio graph of `ove_audio_graph.c`: set-up, build and one processing cycle. -/
namespace Overtos.Audio
open Word Circular

inductive SampleFmt where
  | s16 | s32 | f32 | other
  deriving DecidableEq, Repr

def oveAudioSampleSize : SampleFmt → ℕ
  | .s16 => 2
  | .s32 => 4
  | .f32 => 4
  | .other => 0

structure Fmt where
  sampleRate : ℕ
  channels : ℕ
  sampleFmt : SampleFmt
  deriving DecidableEq, Repr

inductive NodeType where
  | source | processor | sink
  deriving DecidableEq, Repr

structure Node where
  type : NodeType
  outFmt : Fmt
  deriving DecidableEq, Repr

inductive GraphState where
  | idle | ready | running
  deriving DecidableEq, Repr

structure Buf where
  data : ℕ
  frames : ℕ
  fmt : Option ℕ
  deriving DecidableEq, Repr

structure Graph where
  nodes : ℕ → Node
  nodeCount : ℕ
  edges : List (ℕ × ℕ)
  execOrder : List ℕ
  buffers : ℕ → Buf
  bufStorage : ℕ
  bufStorageSize : ℕ
  framesPerPeriod : ℕ
  state : GraphState
  cycles : ℕ
  nodeErrors : ℕ

def maxNodes : ℕ := 16
def maxEdges : ℕ := 16

abbrev Mem := ℕ → UInt8

def bufByteSize (fmt : Fmt) (frames : ℕ) : ℕ :=
  wrap 64 (wrap 64 (frames * fmt.channels) * oveAudioSampleSize fmt.sampleFmt)

def findUpstream (g : Graph) (node : ℕ) : Option ℕ :=
  (g.edges.find? fun e => e.2 = node).map Prod.fst

def Graph.zero (framesPerPeriod : ℕ) : Graph :=
  ⟨fun _ => ⟨.source, ⟨0, 0, .s16⟩⟩, 0, [], [], fun _ => ⟨0, 0, none⟩, 0, 0, framesPerPeriod, .idle,
    0, 0⟩

def oveAudioGraphInit (framesPerPeriod : ℕ) : Except Rc Graph :=
  if framesPerPeriod = 0 then .error .errInvalidParam else .ok (.zero framesPerPeriod)

def oveAudioGraphSetBufStorage (g : Graph) (storage size : ℕ) : Rc × Graph :=
  if storage = 0 ∨ size = 0 then (.errInvalidParam, g)
  else if g.state ≠ .idle then (.errNotSupported, g)
  else (.ok, { g with bufStorage := storage, bufStorageSize := size })

def oveAudioGraphAddNode (g : Graph) (type : NodeType) : Except Rc ℕ × Graph :=
  if g.state ≠ .idle then (.error .errNotSupported, g)
  else if maxNodes ≤ g.nodeCount then (.error .errQueueFull, g)
  else
    (.ok g.nodeCount, { g with
      nodes := Function.update g.nodes g.nodeCount ⟨type, ⟨0, 0, .s16⟩⟩
      nodeCount := g.nodeCount + 1 })

def oveAudioGraphConnect (g : Graph) (source dest : ℕ) : Rc × Graph :=
  if g.state ≠ .idle then (.errNotSupported, g)
  else if g.nodeCount ≤ source ∨ g.nodeCount ≤ dest ∨ source = dest then (.errInvalidParam, g)
  else if maxEdges ≤ g.edges.length then (.errQueueFull, g)
  else if (g.nodes source).type = .sink then (.errInvalidParam, g)
  else if (g.nodes dest).type = .source then (.errInvalidParam, g)
  else if g.edges.any fun e => e.2 = dest then (.errInvalidParam, g)
  else (.ok, { g with edges := g.edges ++ [(source, dest)] })

def topoSort (g : Graph) : Rc × Graph :=
  let order := (TopoSort.kahn g.edges g.nodeCount).1
  (if order.length = g.nodeCount then .ok else .errInvalidParam, { g with execOrder := order })

abbrev Configure := ℕ → Option Fmt → Option Fmt → Rc × Fmt

def configureAll (configure : Configure) : List ℕ → Graph → Rc × Graph
  | [], g => (.ok, g)
  | idx :: rest, g =>
    let node := g.nodes idx
    let inFmt := if node.type ≠ .source then (findUpstream g idx).map fun u => (g.nodes u).outFmt
      else none
    let outPtr := if node.type ≠ .sink then some node.outFmt else none
    let r := configure idx inFmt outPtr
    let g := if node.type ≠ .sink then
        { g with nodes := Function.update g.nodes idx { node with outFmt := r.2 } }
      else g
    if r.1 = .ok then configureAll configure rest g else (r.1, g)

def formatsValid (g : Graph) : Bool :=
  (List.range g.nodeCount).all fun i => (g.nodes i).type = .sink ||
    !((g.nodes i).outFmt.channels = 0 || (g.nodes i).outFmt.sampleRate = 0)

def ratesAgree (g : Graph) : Bool :=
  g.edges.all fun e => (g.nodes e.2).type = .sink ||
    (g.nodes e.1).outFmt.sampleRate = (g.nodes e.2).outFmt.sampleRate

def totalSize (arch : Arch) (g : Graph) : ℕ → Option ℕ
  | 0 => some 0
  | n + 1 =>
    (totalSize arch g n).bind fun total =>
      if (g.nodes n).type = .sink then some total
      else
        let bs := bufByteSize (g.nodes n).outFmt g.framesPerPeriod
        if 2 ^ arch.bits - 1 - total < bs then none else some (wrap arch.bits (total + bs))

def buildStorage (g : Graph) (m : Mem) (total alloc : ℕ) : Rc × Graph × Mem :=
  if 0 < total then
    if 0 < g.bufStorageSize then
      if g.bufStorageSize < total then (.errNoMemory, g, m)
      else (.ok, g, put m g.bufStorage (List.replicate total 0))
    else if alloc = 0 then (.errNoMemory, { g with bufStorage := 0 }, m)
    else (.ok, { g with bufStorage := alloc }, put m alloc (List.replicate total 0))
  else (.ok, g, m)

def bufferOf (arch : Arch) (g : Graph) (i : ℕ) : Buf :=
  if (g.nodes i).type = .sink then ⟨0, g.framesPerPeriod, none⟩
  else ⟨g.bufStorage + (totalSize arch g i).getD 0, g.framesPerPeriod, some i⟩

def setBuffers (arch : Arch) (g : Graph) : Graph :=
  { g with
    buffers := fun i => if i < g.nodeCount then bufferOf arch g i else g.buffers i
    state := .ready }

def oveAudioGraphBuild (arch : Arch) (g : Graph) (m : Mem) (configure : Configure) (alloc : ℕ) :
    Rc × Graph × Mem :=
  if g.state ≠ .idle then (.errNotSupported, g, m)
  else
    let sorted := topoSort g
    if sorted.1 ≠ .ok then (sorted.1, sorted.2, m)
    else
      let configured := configureAll configure sorted.2.execOrder sorted.2
      let g := configured.2
      if configured.1 ≠ .ok then (configured.1, g, m)
      else if ¬formatsValid g then (.errInvalidParam, g, m)
      else if ¬ratesAgree g then (.errInvalidParam, g, m)
      else
        match totalSize arch g g.nodeCount with
        | none => (.errNoMemory, g, m)
        | some total =>
          let stored := buildStorage g m total alloc
          if stored.1 ≠ .ok then stored
          else (.ok, setBuffers arch stored.2.1, stored.2.2)

def fullSize (g : Graph) (buf : Buf) : ℕ :=
  buf.fmt.elim 0 fun k =>
    buf.frames * (g.nodes k).outFmt.channels * oveAudioSampleSize (g.nodes k).outFmt.sampleFmt

def contents (g : Graph) (m : Mem) (i : ℕ) : List UInt8 :=
  get m (g.buffers i).data (fullSize g (g.buffers i))

/-- What the `process` callbacks of one cycle do: the node, the bytes of its input buffer and those
that its output buffer holds give the status and the bytes it leaves there. -/
abbrev Behave := ℕ → Option (List UInt8) → List UInt8 → Rc × (ℕ → UInt8)

structure Call where
  node : ℕ
  input : Option (ℕ × List UInt8)
  deriving DecidableEq, Repr

structure Cycle where
  mem : Mem
  nodeErrors : ℕ
  calls : List Call

def inputOf (g : Graph) (idx : ℕ) : Option ℕ :=
  if (g.nodes idx).type ≠ .source then findUpstream g idx else none

def silence (g : Graph) (m : Mem) (idx : ℕ) : Mem :=
  let out := g.buffers idx
  if (g.nodes idx).type ≠ .sink ∧ out.data ≠ 0 then
    put m out.data (List.replicate (out.fmt.elim 0 fun k => bufByteSize (g.nodes k).outFmt out.frames) 0)
  else m

def processNode (g : Graph) (behave : Behave) (s : Cycle) (idx : ℕ) : Cycle :=
  let input := (inputOf g idx).map fun u => (u, contents g s.mem u)
  let old := if (g.nodes idx).type ≠ .sink then contents g s.mem idx else []
  let r := behave idx (input.map Prod.snd) old
  let m := if (g.nodes idx).type ≠ .sink then
      put s.mem (g.buffers idx).data (get r.2 0 (fullSize g (g.buffers idx)))
    else s.mem
  let calls := s.calls ++ [⟨idx, input⟩]
  if r.1 = .ok then ⟨m, s.nodeErrors, calls⟩
  else ⟨silence g m idx, wrap 32 (s.nodeErrors + 1), calls⟩

def oveAudioGraphProcess (g : Graph) (m : Mem) (behave : Behave) : Rc × Graph × Mem × List Call :=
  if g.state = .idle then (.errNotSupported, g, m, [])
  else
    let s := g.execOrder.foldl (processNode g behave) ⟨m, g.nodeErrors, []⟩
    (.ok, { g with nodeErrors := s.nodeErrors, cycles := wrap 32 (g.cycles + 1) }, s.mem, s.calls)

/-- After a failure the nodes started are stopped again. -/
def oveAudioGraphStart (g : Graph) (start : ℕ → Rc) : Rc × Graph :=
  if g.state ≠ .ready then (.errNotSupported, g)
  else
    match g.execOrder.find? fun idx => start idx ≠ .ok with
    | some idx => (start idx, g)
    | none => (.ok, { g with state := .running })

def oveAudioGraphStop (g : Graph) : Rc × Graph :=
  if g.state ≠ .running then (.errNotSupported, g) else (.ok, { g with state := .ready })

inductive GraphOp where
  | setBufStorage (storage size : ℕ)
  | addNode (type : NodeType)
  | connect (source dest : ℕ)
  | build (configure : Configure) (alloc : ℕ)
  | start (start : ℕ → Rc)
  | stop
  | process (behave : Behave)

def graphStep (arch : Arch) (s : Graph × Mem) : GraphOp → Graph × Mem
  | .setBufStorage storage size => ((oveAudioGraphSetBufStorage s.1 storage size).2, s.2)
  | .addNode type => ((oveAudioGraphAddNode s.1 type).2, s.2)
  | .connect source dest => ((oveAudioGraphConnect s.1 source dest).2, s.2)
  | .build configure alloc => (oveAudioGraphBuild arch s.1 s.2 configure alloc).2
  | .start start => ((oveAudioGraphStart s.1 start).2, s.2)
  | .stop => ((oveAudioGraphStop s.1).2, s.2)
  | .process behave =>
    let o := oveAudioGraphProcess s.1 s.2 behave
    (o.2.1, o.2.2.1)

def graphAfter (arch : Arch) (framesPerPeriod : ℕ) (m : Mem) (ops : List GraphOp) :
    Except Rc (Graph × Mem) :=
  (oveAudioGraphInit framesPerPeriod).map fun g => ops.foldl (graphStep arch) (g, m)

end Overtos.Audio
