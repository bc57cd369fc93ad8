import Overtos.Lib.Circular
import Overtos.Lib.Runs
import Overtos.Types

/-! The file calls of `lxp_ove_storage_adapter.c`, one asynchronous request at a time. -/
namespace Overtos.Storage.Async
open Circular Runs Function

def ioChunk : ℕ := 4096

structure File where
  contents : ℕ → UInt8
  size : ℕ
  pos : ℕ

abbrev Files := ℕ → File

def File.advance (f : File) (n : ℕ) : File := { f with pos := f.pos + n }

def File.write (f : File) (data : List UInt8) : File :=
  if data = [] then f
  else ⟨put f.contents f.pos data, max f.size (f.pos + data.length), f.pos + data.length⟩

inductive Op where
  | fileRead | fileWrite | fileSeek
  deriving DecidableEq, Repr

inductive Request where
  | read (file count : ℕ)
  | write (file : ℕ) (data : List UInt8)
  | seek (file : ℕ) (offset : ℤ) (whence : ℕ)
  deriving DecidableEq, Repr

def Request.op : Request → Op
  | .read .. => .fileRead
  | .write .. => .fileWrite
  | .seek .. => .fileSeek

def Request.allows (fs : Files) (n : ℕ) : Request → Bool
  | .read file count => n ≤ count && n ≤ (fs file).size - (fs file).pos
  | .write _ data => n ≤ data.length
  | .seek .. => true

def executeRequest (fs : Files) (n : ℕ) : Request → Files
  | .read file _ => update fs file ((fs file).advance n)
  | .write file data => update fs file ((fs file).write (data.take n))
  | .seek file _ _ => update fs file { fs file with pos := n }

def Request.bytes (fs : Files) (n : ℕ) : Request → List UInt8
  | .read file _ => get (fs file).contents (fs file).pos n
  | _ => []

inductive Gate where
  | idle | inFlight | complete
  deriving DecidableEq, Repr

structure Globals where
  gate : Gate
  request : Request
  result : Rc
  transferred : ℕ
  ioBuffer : List UInt8
  offset : ℕ
  deriving DecidableEq, Repr

structure Answer where
  rc : Rc
  transferred : ℕ
  bytes : List UInt8
  offset : ℕ
  deriving DecidableEq, Repr

def Answer.status (rc : Rc) : Answer := ⟨rc, 0, [], 0⟩

def asyncCollect (g : Globals) (r : Request) : Answer :=
  if r.op ≠ g.request.op then .status .errInvalidParam
  else
    match r with
    | .read _ count =>
      if count < g.transferred then ⟨.errIo, g.transferred, [], 0⟩
      else ⟨g.result, g.transferred, g.ioBuffer, 0⟩
    | .write .. => ⟨g.result, g.transferred, [], 0⟩
    | .seek .. => ⟨g.result, 0, [], g.offset⟩

def Request.tooLong : Request → Bool
  | .write _ data => ioChunk < data.length
  | _ => false

def submitAsync (g : Globals) (r : Request) (queue : Rc) : Answer × Globals :=
  match g.gate with
  | .inFlight => (.status .errWouldBlock, g)
  | .complete =>
    if r.op = g.request.op then (asyncCollect g r, { g with gate := .idle })
    else (.status .errWouldBlock, g)
  | .idle =>
    if r.tooLong then (.status .errInvalidParam, g)
    else if queue = .ok then
      (.status .errWouldBlock, { g with gate := .inFlight, request := r, transferred := 0 })
    else (.status queue, { g with request := r, transferred := 0 })

abbrev Result := Rc × ℕ × List UInt8

def transferLoop (request : ℕ → ℕ → Request) (count : ℕ) (queue : Rc) :
    ℕ → Globals → ℕ → List UInt8 → Result × Globals
  | 0, g, total, bytes => ((.ok, total, bytes), g)
  | turns + 1, g, total, bytes =>
    if total < count then
      let chunk := min (count - total) ioChunk
      let o := submitAsync g (request total chunk) queue
      if chunk < o.1.transferred then ((.errIo, 0, bytes), o.2)
      else
        let total := total + o.1.transferred
        let bytes := bytes ++ o.1.bytes
        if o.1.rc ≠ .ok ∨ o.1.transferred < chunk then
          ((if total ≠ 0 then .ok else o.1.rc, total, bytes), o.2)
        else transferLoop request count queue turns o.2 total bytes
    else ((.ok, total, bytes), g)

def fsFileRead (g : Globals) (file count : ℕ) (queue : Rc) : Result × Globals :=
  transferLoop (fun _ chunk => .read file chunk) count queue count g 0 []

def fsFileWrite (g : Globals) (file : ℕ) (data : List UInt8) (queue : Rc) : Result × Globals :=
  transferLoop (fun total chunk => .write file ((data.drop total).take chunk)) data.length queue
    data.length g 0 []

def fsFileSeek (g : Globals) (file : ℕ) (offset : ℤ) (whence : ℕ) (queue : Rc) :
    Result × Globals :=
  let o := submitAsync g (.seek file offset whence) queue
  ((o.1.rc, o.1.offset, []), o.2)

inductive Call where
  | read (file count : ℕ)
  | write (file : ℕ) (data : List UInt8)
  | seek (file : ℕ) (offset : ℤ) (whence : ℕ)
  deriving DecidableEq, Repr

def Call.run (g : Globals) (queue : Rc) : Call → Result × Globals
  | .read file count => fsFileRead g file count queue
  | .write file data => fsFileWrite g file data queue
  | .seek file offset whence => fsFileSeek g file offset whence queue

def Call.count : Call → ℕ
  | .read _ count => count
  | .write _ data => data.length
  | .seek .. => 0

structure Report where
  call : Call
  count : ℕ
  bytes : List UInt8
  files : Files
  gate : Gate

/-- `pending` is the call that reported would-block and is retried; `before` are the files when it
was first made. -/
structure System where
  globals : Globals
  files : Files
  pending : Option Call
  before : Files
  report : Option Report

def System.init (fs : Files) : System := ⟨⟨.idle, .read 0 0, .ok, 0, [], 0⟩, fs, none, fs, none⟩

inductive Act where
  | attempt (call : Call) (queue : Rc)
  | work (rc : Rc) (n : ℕ)

def step (s : System) : Act → Option System
  | .attempt call queue =>
    if s.pending = none ∨ s.pending = some call then
      let o := call.run s.globals queue
      some { s with
        globals := o.2
        pending := if o.1.1 = .errWouldBlock then some call else none
        before := if s.pending = none then s.files else s.before
        report := if o.1.1 = .ok then some ⟨call, o.1.2.1, o.1.2.2, s.files, o.2.gate⟩ else none }
    else none
  | .work rc n =>
    let r := s.globals.request
    if s.globals.gate = .inFlight ∧ r.allows s.files n then
      some { s with
        globals := { s.globals with
          gate := .complete
          result := rc
          transferred := n
          ioBuffer := r.bytes s.files n
          offset := if rc = .ok then n else s.globals.offset }
        files := executeRequest s.files n r }
    else none

def Report.Exact (before : Files) (r : Report) : Prop :=
  r.gate = .idle ∧
    match r.call with
    | .read file _ =>
      r.files = update before file ((before file).advance r.count) ∧
        r.bytes = get (before file).contents (before file).pos r.count
    | .write file data =>
      r.files = update before file ((before file).write (data.take r.count))
    | .seek file _ _ => (r.files file).pos = r.count

def Exact (s : System) : Prop := ∀ r ∈ s.report, r.Exact s.before

/-- A call of more than one chunk does not go on after a full first chunk, or cannot. -/
def OneChunk (s : System) : Act → Prop
  | .attempt call queue =>
    s.globals.gate = .complete → s.globals.result = .ok → s.globals.transferred = ioChunk →
      queue = .ok → call.count ≤ ioChunk
  | .work .. => True

section

variable {request : ℕ → ℕ → Request} {count : ℕ} {queue : Rc} {g : Globals}

theorem loop_inFlight (hgate : g.gate = .inFlight) (hcount : 0 < count) :
    transferLoop request count queue count g 0 [] = ((.errWouldBlock, 0, []), g) := by
  obtain ⟨turns, rfl⟩ := Nat.exists_eq_succ_of_ne_zero hcount.ne'
  simp [transferLoop, submitAsync, hgate, Answer.status]

theorem loop_idle {turns total : ℕ} {bytes : List UInt8} (hgate : g.gate = .idle)
    (hlt : total < count)
    (hshort : (request total (min (count - total) ioChunk)).tooLong = false) :
    transferLoop request count queue (turns + 1) g total bytes =
      if queue = .ok then
        ((if total ≠ 0 then .ok else .errWouldBlock, total, bytes),
          { g with
            gate := .inFlight
            request := request total (min (count - total) ioChunk)
            transferred := 0 })
      else
        ((if total ≠ 0 then .ok else queue, total, bytes),
          { g with
            request := request total (min (count - total) ioChunk)
            transferred := 0 }) := by
  by_cases hqueue : queue = .ok
  · simp [transferLoop, submitAsync, hgate, hlt, hshort, hqueue, Answer.status]
  · simp [transferLoop, submitAsync, hgate, hlt, hshort, hqueue, Answer.status]

theorem loop_complete {bytes : List UInt8} (hgate : g.gate = .complete) (hcount : 0 < count)
    (hop : (request 0 (min count ioChunk)).op = g.request.op)
    (hcollect : asyncCollect g (request 0 (min count ioChunk)) =
      ⟨g.result, g.transferred, bytes, 0⟩) (hle : g.transferred ≤ min count ioChunk) :
    transferLoop request count queue count g 0 [] =
      if g.result ≠ .ok ∨ g.transferred < min count ioChunk then
        ((if g.transferred ≠ 0 then .ok else g.result, g.transferred, bytes),
          { g with gate := .idle })
      else
        transferLoop request count queue (count - 1) { g with gate := .idle } g.transferred
          bytes := by
  obtain ⟨turns, rfl⟩ := Nat.exists_eq_succ_of_ne_zero hcount.ne'
  have hsubmit : submitAsync g (request 0 (min (turns + 1) ioChunk)) queue =
      (⟨g.result, g.transferred, bytes, 0⟩, { g with gate := .idle }) := by
    simp only [submitAsync, hgate, if_pos hop, hcollect]
  simp only [transferLoop, Nat.succ_eq_add_one, Nat.zero_lt_succ, if_true, Nat.sub_zero, hsubmit,
    if_neg (Nat.not_lt.mpr hle), Nat.zero_add, List.nil_append, Nat.add_sub_cancel]

theorem loop_full {total : ℕ} {bytes : List UInt8} (hgate : g.gate = .idle)
    (htotal : total = min count ioChunk) (hcount : 0 < count)
    (hshort : ∀ total n, (request total (min n ioChunk)).tooLong = false) :
    ∃ g' : Globals,
      transferLoop request count queue (count - 1) g total bytes = ((.ok, total, bytes), g') ∧
        (g'.gate = .idle ↔ (queue = .ok → count ≤ ioChunk)) := by
  have hpos : 0 < ioChunk := by norm_num [ioChunk]
  subst htotal
  rcases Nat.lt_or_ge ioChunk count with hlong | hone
  · obtain ⟨turns, hturns⟩ : ∃ turns, count - 1 = turns + 1 :=
      Nat.exists_eq_succ_of_ne_zero (by omega)
    rw [min_eq_right hlong.le, hturns, loop_idle hgate hlong (hshort _ _), if_pos hpos.ne',
      if_pos hpos.ne']
    by_cases hqueue : queue = .ok
    · rw [if_pos hqueue]
      refine ⟨_, rfl, iff_of_false (by simp) fun h => ?_⟩
      exact absurd (h hqueue) (Nat.not_le.mpr hlong)
    · rw [if_neg hqueue]
      exact ⟨_, rfl, iff_of_true hgate fun h => absurd h hqueue⟩
  · rw [min_eq_left hone]
    refine ⟨g, ?_, iff_of_true hgate fun _ => hone⟩
    cases count - 1 with
    | zero => rfl
    | succ turns => rw [transferLoop, if_neg (lt_irrefl count)]

end

def Call.isSeek : Call → Bool
  | .seek .. => true
  | _ => false

def Call.chunk : Call → ℕ → ℕ → Request
  | .read file _, _, chunk => .read file chunk
  | .write file data, total, chunk => .write file ((data.drop total).take chunk)
  | .seek file offset whence, _, _ => .seek file offset whence

def Call.first (c : Call) : Request := c.chunk 0 (min c.count ioChunk)

def Call.Unmoved (before files : Files) (c : Call) : Prop := c.isSeek = false → files = before

def Call.Moved (before files : Files) (g : Globals) : Call → Prop
  | .read file count =>
    g.transferred ≤ min count ioChunk ∧
      files = update before file ((before file).advance g.transferred) ∧
      g.ioBuffer = get (before file).contents (before file).pos g.transferred
  | .write file data =>
    g.transferred ≤ min data.length ioChunk ∧
      files = update before file ((before file).write (data.take g.transferred))
  | .seek file _ _ => (files file).pos = g.transferred ∧ (g.result = .ok → g.offset = g.transferred)

structure Tracked (s : System) : Prop where
  idle : s.globals.gate = .idle → ∀ c ∈ s.pending, c.Unmoved s.before s.files
  inFlight : s.globals.gate = .inFlight → ∃ c ∈ s.pending, (c.isSeek = false → 0 < c.count) ∧
    s.globals.request = c.first ∧ c.Unmoved s.before s.files
  complete : s.globals.gate = .complete → ∃ c ∈ s.pending, (c.isSeek = false → 0 < c.count) ∧
    s.globals.request = c.first ∧ c.Moved s.before s.files s.globals

section

variable {s t : System} {call c : Call} {queue rc : Rc} {n : ℕ} {g : Globals}

theorem run_transfer (h : c.isSeek = false) :
    c.run g queue = transferLoop c.chunk c.count queue c.count g 0 [] := by
  cases c with
  | read file count => rfl
  | write file data => rfl
  | seek file offset whence => cases h

theorem chunk_short (c : Call) (total n : ℕ) : (c.chunk total (min n ioChunk)).tooLong = false := by
  cases c with
  | read file count => rfl
  | write file data =>
    have hle := List.length_take_le (min n ioChunk) (data.drop total)
    simp only [Call.chunk, Request.tooLong, decide_eq_false_iff_not, not_lt]
    exact hle.trans (min_le_right _ _)
  | seek file offset whence => rfl

theorem moved_of_execute {before : Files} (hunmoved : c.Unmoved before s.files)
    (hallows : c.first.allows s.files n = true) (hbuffer : g.ioBuffer = c.first.bytes s.files n)
    (hcount : g.transferred = n) (hoffset : g.result = .ok → g.offset = n) :
    c.Moved before (executeRequest s.files n c.first) g := by
  cases c with
  | read file count =>
    obtain rfl := hunmoved rfl
    have hle : n ≤ min count ioChunk := by
      simp only [Call.first, Call.chunk, Call.count, Request.allows, Bool.and_eq_true,
        decide_eq_true_eq] at hallows
      exact hallows.1
    subst hcount
    exact ⟨hle, rfl, hbuffer⟩
  | write file data =>
    obtain rfl := hunmoved rfl
    have hle : n ≤ min data.length ioChunk := by
      simp only [Call.first, Call.chunk, Call.count, Request.allows, decide_eq_true_eq] at hallows
      exact hallows.trans (List.length_take_le _ _)
    subst hcount
    refine ⟨hle, ?_⟩
    simp only [Call.first, Call.chunk, Call.count, executeRequest, List.drop_zero, List.take_take,
      min_eq_left hle]
  | seek file offset whence =>
    subst hcount
    refine ⟨?_, hoffset⟩
    simp [Call.first, Call.chunk, executeRequest]

theorem tracked_work (h : Tracked s) (hs : step s (.work rc n) = some t) :
    Tracked t ∧ t.report = s.report ∧ t.before = s.before := by
  by_cases hguard : s.globals.gate = .inFlight ∧ s.globals.request.allows s.files n
  · simp only [step, if_pos hguard, Option.some.injEq] at hs
    subst hs
    obtain ⟨c, hc, hsubmits, hrequest, hunmoved⟩ := h.inFlight hguard.1
    refine ⟨⟨fun hgate => by simp at hgate, fun hgate => by simp at hgate, fun _ => ?_⟩, rfl, rfl⟩
    refine ⟨c, hc, hsubmits, hrequest, ?_⟩
    dsimp only
    rw [hrequest] at hguard ⊢
    exact moved_of_execute hunmoved hguard.2 rfl rfl fun hok => if_pos hok
  · simp [step, if_neg hguard] at hs

/-- A call leaves the gate idle; it is exact if it returns `LXP_OK`, and without effect if it
reports would-block. -/
structure Settles (before files : Files) (c : Call) (o : Result × Globals) : Prop where
  idle : o.2.gate = .idle
  exact : o.1.1 = .ok → Report.Exact before ⟨c, o.1.2.1, o.1.2.2, files, o.2.gate⟩
  blocked : o.1.1 = .errWouldBlock → c.Unmoved before files

structure Waits (before files : Files) (c : Call) (o : Result × Globals) : Prop where
  blocked : o.1.1 = .errWouldBlock
  inFlight : o.2.gate = .inFlight
  submits : c.isSeek = false → 0 < c.count
  request : o.2.request = c.first
  unmoved : c.Unmoved before files

theorem seek_first (h : c.isSeek = true) : ∃ file offset whence, c = .seek file offset whence := by
  cases c with
  | read file count => cases h
  | write file data => cases h
  | seek file offset whence => exact ⟨file, offset, whence, rfl⟩

theorem exact_zero {before : Files} {bytes : List UInt8} (hseek : c.isSeek = false)
    (hbytes : bytes = []) : Report.Exact before ⟨c, 0, bytes, before, .idle⟩ := by
  subst hbytes
  refine ⟨rfl, ?_⟩
  cases c with
  | read file count => exact ⟨(update_eq_self file before).symm, rfl⟩
  | write file data =>
    have hwrite : (before file).write (data.take 0) = before file := by simp [File.write]
    exact (update_eq_self_iff.mpr hwrite).symm
  | seek file offset whence => cases hseek

theorem run_idle {before files : Files} (hgate : g.gate = .idle)
    (hunmoved : c.Unmoved before files) :
    Settles before files c (c.run g queue) ∨ Waits before files c (c.run g queue) := by
  cases hseek : c.isSeek with
  | true =>
    obtain ⟨file, offset, whence, rfl⟩ := seek_first hseek
    by_cases hqueue : queue = .ok
    · right
      have hrun : Call.run g queue (.seek file offset whence) = ((.errWouldBlock, 0, []),
          { g with gate := .inFlight, request := .seek file offset whence, transferred := 0 }) := by
        simp [Call.run, fsFileSeek, submitAsync, hgate, Request.tooLong, hqueue, Answer.status]
      rw [hrun]
      exact ⟨rfl, rfl, fun h => absurd h (by simp [hseek]), rfl, hunmoved⟩
    · left
      have hrun : Call.run g queue (.seek file offset whence) = ((queue, 0, []),
          { g with request := .seek file offset whence, transferred := 0 }) := by
        simp [Call.run, fsFileSeek, submitAsync, hgate, Request.tooLong, hqueue, Answer.status]
      rw [hrun]
      exact ⟨hgate, fun h => absurd h hqueue, fun _ => hunmoved⟩
  | false =>
    rw [run_transfer hseek]
    rcases Nat.eq_zero_or_pos c.count with hzero | hpos
    · left
      rw [hzero, transferLoop]
      obtain rfl := hunmoved hseek
      refine ⟨hgate, fun _ => ?_, fun h => by simp at h⟩
      rw [hgate]
      exact exact_zero hseek rfl
    · obtain ⟨turns, hturns⟩ := Nat.exists_eq_succ_of_ne_zero hpos.ne'
      have hloop := @loop_idle c.chunk c.count queue g turns 0 [] hgate hpos (chunk_short c 0 _)
      rw [← Nat.succ_eq_add_one, ← hturns] at hloop
      rw [hloop]
      by_cases hqueue : queue = .ok
      · rw [if_pos hqueue]
        exact .inr ⟨rfl, rfl, fun _ => hpos, rfl, hunmoved⟩
      · rw [if_neg hqueue]
        exact .inl ⟨hgate, fun h => absurd h hqueue, fun _ => hunmoved⟩

theorem run_inFlight {before files : Files} (hgate : g.gate = .inFlight)
    (hsubmits : c.isSeek = false → 0 < c.count) (hrequest : g.request = c.first)
    (hunmoved : c.Unmoved before files) : Waits before files c (c.run g queue) := by
  have hrun : c.run g queue = ((.errWouldBlock, 0, []), g) := by
    cases hseek : c.isSeek with
    | true =>
      obtain ⟨file, offset, whence, rfl⟩ := seek_first hseek
      simp [Call.run, fsFileSeek, submitAsync, hgate, Answer.status]
    | false => rw [run_transfer hseek, loop_inFlight hgate (hsubmits hseek)]
  rw [hrun]
  exact ⟨rfl, hgate, hsubmits, hrequest, hunmoved⟩

def Call.collected (g : Globals) : Call → List UInt8
  | .read .. => g.ioBuffer
  | _ => []

theorem exact_collected {before files : Files} (hseek : c.isSeek = false)
    (hmoved : c.Moved before files g) :
    g.transferred ≤ min c.count ioChunk ∧
      Report.Exact before ⟨c, g.transferred, c.collected g, files, .idle⟩ ∧
      (g.transferred = 0 → c.Unmoved before files) := by
  cases c with
  | read file count =>
    obtain ⟨hle, hfiles, hbuffer⟩ := hmoved
    refine ⟨hle, ⟨rfl, hfiles, hbuffer⟩, fun hzero _ => ?_⟩
    rw [hfiles, hzero]
    exact update_eq_self file before
  | write file data =>
    obtain ⟨hle, hfiles⟩ := hmoved
    refine ⟨hle, ⟨rfl, hfiles⟩, fun hzero _ => ?_⟩
    rw [hfiles, hzero]
    exact update_eq_self_iff.mpr (by simp [File.write])
  | seek file offset whence => cases hseek

theorem collect_first (hseek : c.isSeek = false) (hrequest : g.request = c.first)
    (hle : g.transferred ≤ min c.count ioChunk) :
    asyncCollect g (c.chunk 0 (min c.count ioChunk)) =
      ⟨g.result, g.transferred, c.collected g, 0⟩ := by
  have hop : (c.chunk 0 (min c.count ioChunk)).op = g.request.op := by rw [hrequest, Call.first]
  unfold asyncCollect
  rw [if_neg (not_not.mpr hop)]
  cases c with
  | read file count => exact if_neg (Nat.not_lt.mpr hle)
  | write file data => rfl
  | seek file offset whence => cases hseek

theorem run_complete {before files : Files} (hgate : g.gate = .complete)
    (hsubmits : c.isSeek = false → 0 < c.count) (hrequest : g.request = c.first)
    (hmoved : c.Moved before files g) :
    (Settles before files c (c.run g queue) ∧ (g.result = .ok → g.transferred = ioChunk →
        queue = .ok → c.count ≤ ioChunk)) ∨
      (c.run g queue).1.1 = .ok ∧ (c.run g queue).2.gate ≠ .idle ∧
        ¬(g.result = .ok → g.transferred = ioChunk → queue = .ok → c.count ≤ ioChunk) := by
  cases hseek : c.isSeek with
  | true =>
    obtain ⟨file, offset, whence, rfl⟩ := seek_first hseek
    have hrun : Call.run g queue (.seek file offset whence) = ((g.result, g.offset, []),
        { g with gate := .idle }) := by
      simp [Call.run, fsFileSeek, submitAsync, hgate, asyncCollect, hrequest, Call.first,
        Call.chunk]
    refine .inl ⟨?_, fun _ _ _ => Nat.zero_le _⟩
    rw [hrun]
    refine ⟨rfl, fun hok => ⟨rfl, ?_⟩, fun _ h => absurd h (by simp [hseek])⟩
    exact hmoved.1.trans (hmoved.2 hok).symm
  | false =>
    obtain ⟨hle, hexact, hnone⟩ := exact_collected hseek hmoved
    have hpos := hsubmits hseek
    have hop : (c.chunk 0 (min c.count ioChunk)).op = g.request.op := by rw [hrequest, Call.first]
    have hcollect := collect_first hseek hrequest hle
    rw [run_transfer hseek, loop_complete hgate hpos hop hcollect hle]
    by_cases hlast : g.result ≠ .ok ∨ g.transferred < min c.count ioChunk
    · rw [if_pos hlast]
      refine .inl ⟨⟨rfl, fun _ => hexact, fun hblocked => ?_⟩, fun hok hfull _ => ?_⟩
      · apply hnone
        by_contra hne
        simp [hne] at hblocked
      · rcases hlast with hlast | hlast
        · exact absurd hok hlast
        · rw [hfull] at hlast
          exact absurd hlast (Nat.not_lt.mpr (min_le_right _ _))
    · rw [if_neg hlast]
      obtain ⟨hok, hfull⟩ := not_or.mp hlast
      have hfull : g.transferred = min c.count ioChunk := le_antisymm hle (Nat.not_lt.mp hfull)
      obtain ⟨g', hloop, hidle⟩ := @loop_full c.chunk c.count queue { g with gate := .idle }
        g.transferred (c.collected g) rfl hfull hpos (chunk_short c)
      rw [hloop]
      by_cases hone : queue = .ok → c.count ≤ ioChunk
      · have hgate' : g'.gate = .idle := hidle.mpr hone
        refine .inl ⟨⟨hgate', fun _ => ?_, fun h => by simp at h⟩, fun _ _ => hone⟩
        dsimp only
        rw [hgate']
        exact hexact
      · refine .inr ⟨rfl, fun hgate' => hone (hidle.mp hgate'), fun h => ?_⟩
        obtain ⟨-, hlong⟩ := Classical.not_imp.mp hone
        exact hone (h (not_not.mp hok) (hfull.trans (min_eq_right (Nat.not_le.mp hlong).le)))

def System.answered (s : System) (before : Files) (c : Call) (o : Result × Globals) : System :=
  { s with
    globals := o.2
    pending := if o.1.1 = .errWouldBlock then some c else none
    before := before
    report := if o.1.1 = .ok then some ⟨c, o.1.2.1, o.1.2.2, s.files, o.2.gate⟩ else none }

theorem step_attempt (hs : step s (.attempt c queue) = some t) :
    (s.pending = none ∨ s.pending = some c) ∧
      t = s.answered (if s.pending = none then s.files else s.before) c
        (c.run s.globals queue) := by
  by_cases hguard : s.pending = none ∨ s.pending = some c
  · simp only [step, if_pos hguard, Option.some.injEq] at hs
    exact ⟨hguard, hs.symm⟩
  · simp [step, if_neg hguard] at hs

theorem Settles.tracked {before : Files} {o : Result × Globals}
    (h : Settles before s.files c o) :
    Exact (s.answered before c o) ∧ Tracked (s.answered before c o) := by
  have hidle : (s.answered before c o).globals.gate = .idle := h.idle
  refine ⟨fun r hr => ?_, ⟨fun _ c' hc' => ?_, fun hgate => ?_, fun hgate => ?_⟩⟩
  · obtain ⟨hok, hr⟩ := Option.ite_none_right_eq_some.mp hr
    cases hr
    exact h.exact hok
  · obtain ⟨hblocked, hc'⟩ := Option.ite_none_right_eq_some.mp hc'
    cases hc'
    exact h.blocked hblocked
  · simp [hidle] at hgate
  · simp [hidle] at hgate

theorem Waits.tracked {before : Files} {o : Result × Globals} (h : Waits before s.files c o) :
    Exact (s.answered before c o) ∧ Tracked (s.answered before c o) := by
  have hgate : (s.answered before c o).globals.gate = .inFlight := h.inFlight
  have hreport : (s.answered before c o).report = none := if_neg (by simp [h.blocked])
  refine ⟨fun r hr => by simp [hreport] at hr, ⟨fun h' => by simp [hgate] at h', fun _ => ?_,
    fun h' => by simp [hgate] at h'⟩⟩
  exact ⟨c, if_pos h.blocked, h.submits, h.request, h.unmoved⟩

theorem attempt_exact (h : Tracked s) (hs : step s (.attempt c queue) = some t) :
    (Exact t → Tracked t) ∧ (Exact t ↔ OneChunk s (.attempt c queue)) := by
  obtain ⟨hguard, ht⟩ := step_attempt hs
  generalize hbefore : (if s.pending = none then s.files else s.before) = before at ht
  have hsame : ∀ c' ∈ s.pending, c' = c ∧ before = s.before := by
    intro c' hc'
    rcases hguard with hnone | hsome
    · simp [hnone] at hc'
    · rw [hsome] at hc' hbefore
      cases hc'
      exact ⟨rfl, hbefore.symm⟩
  cases hgate : s.globals.gate with
  | idle =>
    have honce : OneChunk s (.attempt c queue) := fun h' => by simp [hgate] at h'
    have hunmoved : c.Unmoved before s.files := by
      rcases hguard with hnone | hsome
      · rw [if_pos hnone] at hbefore
        exact fun _ => hbefore
      · obtain ⟨-, rfl⟩ := hsame c hsome
        exact h.idle hgate c hsome
    have hboth : Exact t ∧ Tracked t := by
      rcases @run_idle c queue s.globals before s.files hgate hunmoved with hrun | hrun
      · exact ht ▸ hrun.tracked
      · exact ht ▸ hrun.tracked
    exact ⟨fun _ => hboth.2, iff_of_true hboth.1 honce⟩
  | inFlight =>
    have honce : OneChunk s (.attempt c queue) := fun h' => by simp [hgate] at h'
    obtain ⟨c', hc', hsubmits, hrequest, hunmoved⟩ := h.inFlight hgate
    obtain ⟨rfl, rfl⟩ := hsame c' hc'
    have hrun := @run_inFlight _ queue _ _ _ hgate hsubmits hrequest hunmoved
    have hboth : Exact t ∧ Tracked t := ht ▸ hrun.tracked
    exact ⟨fun _ => hboth.2, iff_of_true hboth.1 honce⟩
  | complete =>
    obtain ⟨c', hc', hsubmits, hrequest, hmoved⟩ := h.complete hgate
    obtain ⟨rfl, rfl⟩ := hsame c' hc'
    rcases @run_complete _ queue _ _ _ hgate hsubmits hrequest hmoved with
      ⟨hrun, hone⟩ | ⟨hok, hbusy, hmore⟩
    · have hboth : Exact t ∧ Tracked t := ht ▸ hrun.tracked
      exact ⟨fun _ => hboth.2, iff_of_true hboth.1 fun _ => hone⟩
    · have hinexact : ¬Exact t := by
        intro hexact
        rw [ht] at hexact
        exact hbusy (hexact _ (if_pos hok)).1
      refine ⟨fun hexact => absurd hexact hinexact, iff_of_false hinexact ?_⟩
      exact fun hone => hmore (hone hgate)

end

/-- Every call returns its own result and leaves nothing in flight exactly if none goes on after a
full first chunk. -/
theorem calls_exact_iff (fs : Files) (acts : List Act) :
    Always step Exact (.init fs) acts ↔ Each step OneChunk (.init fs) acts := by
  apply always_iff_each (I := fun s => Exact s → Tracked s)
  · intro s a t hI hP hs
    cases a with
    | attempt call queue => exact attempt_exact (hI hP) hs
    | work rc n =>
      obtain ⟨htracked, hreport, hbefore⟩ := tracked_work (hI hP) hs
      have hexact : Exact t := by
        rw [Exact, hreport, hbefore]
        exact hP
      exact ⟨fun _ => htracked, iff_of_true hexact trivial⟩
  · intro _
    refine ⟨fun _ c hc => ?_, fun h => ?_, fun h => ?_⟩
    · cases hc
    · cases h
    · cases h
  · intro r hr
    cases hr

def twoFiles : Files := fun i => ⟨fun _ => i.toUInt8, 2 * ioChunk, 0⟩

def longRead : List Act :=
  [.attempt (.read 0 (2 * ioChunk)) .ok, .work .ok ioChunk, .attempt (.read 0 (2 * ioChunk)) .ok]

def otherRead : List Act :=
  longRead ++ [.attempt (.read 1 ioChunk) .ok, .work .ok ioChunk, .attempt (.read 1 ioChunk) .ok]

theorem second_chunk_in_flight :
    (∃ t, longRead.foldlM step (.init twoFiles) = some t ∧
      ∃ r ∈ t.report, r.count = ioChunk ∧ r.gate = .inFlight ∧ ¬r.Exact t.before) ∧
    ∃ t, otherRead.foldlM step (.init twoFiles) = some t ∧
      ∃ r ∈ t.report, r.call = .read 1 ioChunk ∧ r.count = ioChunk ∧ (r.files 1).pos = 0 ∧
        (r.files 0).pos = 2 * ioChunk ∧ ¬r.Exact t.before := by
  refine ⟨⟨_, rfl, _, rfl, rfl, rfl, fun h => ?_⟩, _, rfl, _, rfl, rfl, rfl, rfl, rfl, fun h => ?_⟩
  · exact absurd h.1 (by decide)
  · have hpos : 0 = ioChunk := congrArg (fun fs : Files => (fs 1).pos) h.2.1
    exact absurd hpos (by decide)

end Overtos.Storage.Async
