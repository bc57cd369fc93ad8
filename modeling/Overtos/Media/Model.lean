import Overtos.Lib.Word
import Overtos.Types

/-! Removable-media ownership: the atomic steps of every party on the shared words. -/
namespace Overtos.Media

def mediaFs : ℕ := 0x1
def mediaWriter : ℕ := 0x2
def mediaReaderOne : ℕ := 0x4
def rawWrite : ℕ := 0x01
def uint32Max : ℕ := 2 ^ 32 - 1

structure Shared where
  owners : ℕ
  generation : ℕ
  present : ℕ
  deriving DecidableEq, Repr

structure Lease where
  generation : ℕ
  access : ℕ
  active : ℕ
  deriving DecidableEq, Repr

def Lease.empty : Lease := ⟨0, 0, 0⟩

inductive Call where
  | fsAcquire
  | fsRelease
  | rawAcquire (flags generation : ℕ)
  | rawRelease
  | observe (generation present : ℕ)
  | removed
  | blockWrite
  deriving DecidableEq, Repr

/-- The next atomic step of a party; `undo` marks the release that a failed `ove_media_raw_acquire`
performs on itself. -/
inductive Pc where
  | idle
  | fsLoad
  | fsCas (state : ℕ)
  | fsFetchAnd
  | rawPresent (flags generation : ℕ)
  | rawGeneration (flags generation : ℕ)
  | rawLoad (flags generation : ℕ)
  | rawCas (flags generation state : ℕ)
  | validPresent
  | validGeneration
  | releaseFetchAnd (undo : Bool)
  | releaseLoad (undo : Bool)
  | releaseCas (undo : Bool) (state : ℕ)
  | observeGeneration (generation present : ℕ)
  | observePresent (present : ℕ)
  | removedStore
  | readCheckPresent
  | readCheckGeneration
  | writeCheckPresent
  | writeCheckGeneration (present : ℕ)
  | backendWrite (present generation : ℕ)
  deriving DecidableEq, Repr

structure Held where
  fs : Bool
  reader : Bool
  writer : Bool
  deriving DecidableEq, Repr

def Held.none : Held := ⟨false, false, false⟩

structure Party where
  pc : Pc
  lease : Lease
  held : Held
  took : ℕ
  entry : Held
  call : Call
  ret : Rc
  deriving DecidableEq, Repr

def Party.init : Party := ⟨.idle, .empty, .none, 0, .none, .removed, .ok⟩

def Party.finish (a : Party) (rc : Rc) : Party := { a with pc := .idle, ret := rc }

def leaseAllows (lease : Lease) (required : ℕ) : Bool :=
  decide (lease.active ≠ 0) && decide (required &&& Word.comp 32 rawWrite = 0) &&
    decide (required &&& rawWrite ≤ lease.access &&& rawWrite)

def rawRelease (a : Party) (undo : Bool) : Party :=
  if a.lease.access &&& rawWrite ≠ 0 then { a with pc := .releaseFetchAnd undo }
  else { a with pc := .releaseLoad undo }

def rawReleased (a : Party) (undo : Bool) : Party :=
  { a with lease := .empty }.finish (if undo then .errNotRegistered else .ok)

def observe (a : Party) (generation present : ℕ) : Party :=
  { a with pc := .observeGeneration (if generation = 0 then 1 else generation) present }

/-- A call up to its first atomic step. Only the filesystem's owner releases it. -/
def begin (a : Party) (c : Call) : Option Party :=
  if a.pc ≠ .idle then none else
    let a := { a with call := c, entry := a.held }
    match c with
    | .fsAcquire => some { a with pc := .fsLoad }
    | .fsRelease => if a.held.fs then some { a with pc := .fsFetchAnd } else none
    | .rawAcquire flags generation =>
      let flags := Word.wrap 32 flags
      let generation := Word.wrap 32 generation
      if a.lease.active ≠ 0 ∨ flags &&& Word.comp 32 rawWrite ≠ 0 ∨ generation = 0 then
        some (a.finish .errInvalidParam)
      else some { a with pc := .rawPresent flags generation }
    | .rawRelease =>
      if a.lease.active = 0 then some (a.finish .ok) else some (rawRelease a false)
    | .observe generation present => some (observe a (Word.wrap 32 generation) present)
    | .removed => some { a with pc := .removedStore }
    | .blockWrite =>
      if leaseAllows a.lease 0 then some { a with pc := .readCheckPresent }
      else some (a.finish .errNotRegistered)

def undoAcquire (a : Party) : Party := rawRelease a true

def rawCasStep (s : Shared) (a : Party) (flags generation state : ℕ) : Shared × Party :=
  let taken (writer : Bool) : Party :=
    { a with
      held := { a.held with reader := a.held.reader || !writer, writer := a.held.writer || writer }
      took := generation
      lease := ⟨generation, Word.wrap 8 flags, 1⟩
      pc := .validPresent }
  if flags &&& rawWrite ≠ 0 then
    if state ≠ 0 then (s, a.finish .errBusy)
    else if s.owners = state then ({ s with owners := mediaWriter }, taken true)
    else (s, { a with pc := .rawCas flags generation s.owners })
  else if state &&& mediaWriter ≠ 0 ∨ state > uint32Max - mediaReaderOne then
    (s, a.finish .errBusy)
  else if s.owners = state then
    ({ s with owners := Word.wrap 32 (state + mediaReaderOne) }, taken false)
  else (s, { a with pc := .rawCas flags generation s.owners })

def atom (s : Shared) (a : Party) : Option (Shared × Party) :=
  match a.pc with
  | .idle => none
  | .fsLoad => some (s, { a with pc := .fsCas s.owners })
  | .fsCas state =>
    if state &&& (mediaFs ||| mediaWriter) ≠ 0 then some (s, a.finish .errBusy)
    else if s.owners = state then
      some ({ s with owners := state ||| mediaFs },
        { a with held := { a.held with fs := true } }.finish .ok)
    else some (s, { a with pc := .fsCas s.owners })
  | .fsFetchAnd =>
    some ({ s with owners := s.owners &&& Word.comp 32 mediaFs },
      { a with held := { a.held with fs := false } }.finish .ok)
  | .rawPresent flags generation =>
    if s.present = 0 then some (s, a.finish .errNotRegistered)
    else some (s, { a with pc := .rawGeneration flags generation })
  | .rawGeneration flags generation =>
    if s.generation ≠ generation then some (s, a.finish .errNotRegistered)
    else some (s, { a with pc := .rawLoad flags generation })
  | .rawLoad flags generation => some (s, { a with pc := .rawCas flags generation s.owners })
  | .rawCas flags generation state => some (rawCasStep s a flags generation state)
  | .validPresent =>
    if s.present = 0 then some (s, undoAcquire a) else some (s, { a with pc := .validGeneration })
  | .validGeneration =>
    if s.generation = a.lease.generation then some (s, a.finish .ok) else some (s, undoAcquire a)
  | .releaseFetchAnd undo =>
    some ({ s with owners := s.owners &&& Word.comp 32 mediaWriter },
      rawReleased { a with held := { a.held with writer := false } } undo)
  | .releaseLoad undo => some (s, { a with pc := .releaseCas undo s.owners })
  | .releaseCas undo state =>
    -- The loop also ends, without a swap, on a word that counts no reader.
    if state < mediaReaderOne then some (s, rawReleased a undo)
    else if s.owners = state then
      some ({ s with owners := state - mediaReaderOne },
        rawReleased { a with held := { a.held with reader := false } } undo)
    else some (s, { a with pc := .releaseCas undo s.owners })
  | .observeGeneration generation present =>
    some ({ s with generation := generation }, { a with pc := .observePresent present })
  | .observePresent present =>
    some ({ s with present := if present = 0 then 0 else 1 }, a.finish .ok)
  | .removedStore => some ({ s with present := 0 }, a.finish .ok)
  | .readCheckPresent =>
    if s.present = 0 then some (s, a.finish .errNotRegistered)
    else some (s, { a with pc := .readCheckGeneration })
  | .readCheckGeneration =>
    if s.generation ≠ a.lease.generation then some (s, a.finish .errNotRegistered)
    else if leaseAllows a.lease rawWrite then some (s, { a with pc := .writeCheckPresent })
    else some (s, a.finish .errPermission)
  | .writeCheckPresent =>
    if s.present = 0 then some (s, a.finish .errPermission)
    else some (s, { a with pc := .writeCheckGeneration s.present })
  | .writeCheckGeneration present =>
    if s.generation = a.lease.generation then
      some (s, { a with pc := .backendWrite present s.generation })
    else some (s, a.finish .errPermission)
  | .backendWrite _ _ => none

inductive Outcome where
  | written
  | failed
  | failedInfo (generation present : ℕ)
  | failedRemoved
  deriving DecidableEq, Repr

def backendReturn (a : Party) (o : Outcome) : Option Party :=
  match a.pc with
  | .backendWrite _ _ =>
    match o with
    | .written => some (a.finish .ok)
    | .failed => some (a.finish .errIo)
    | .failedInfo generation present => some (observe a (Word.wrap 32 generation) present)
    | .failedRemoved => some { a with pc := .removedStore }
  | _ => none

structure Sys (n : ℕ) where
  shared : Shared
  party : Fin n → Party

inductive Action (n : ℕ) where
  | call (p : Fin n) (c : Call)
  | atom (p : Fin n)
  | backend (p : Fin n) (o : Outcome)
  deriving DecidableEq, Repr

variable {n : ℕ}

def Sys.set (s : Sys n) (p : Fin n) (r : Shared × Party) : Sys n :=
  ⟨r.1, Function.update s.party p r.2⟩

def step (s : Sys n) : Action n → Option (Sys n)
  | .call p c => (begin (s.party p) c).map fun a => s.set p (s.shared, a)
  | .atom p => (atom s.shared (s.party p)).map (s.set p)
  | .backend p o => (backendReturn (s.party p) o).map fun a => s.set p (s.shared, a)

def run (s : Sys n) : List (Action n) → Option (Sys n)
  | [] => some s
  | a :: as => (step s a).bind fun t => run t as

def Sys.init (generation present : ℕ) : Sys n := ⟨⟨0, generation, present⟩, fun _ => .init⟩

end Overtos.Media
