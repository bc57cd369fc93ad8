import Overtos.Loader.Bounds

/-! The FDPIC program loader `ove_loader_load_fdpic`. -/
namespace Overtos.Loader
open Word Memory Traced

/-- Why a load ended early: with an error code, or in a loop that outlasted the given turns. -/
inductive Halt where
  | rc (r : Rc)
  | spin
  deriving DecidableEq, Repr

structure FdpicArgs extends Space where
  isInterp : Bool
  copyText : Bool

structure Header where
  entry : ℕ
  phoff : ℕ
  phentsize : ℕ
  phnum : ℕ

structure Segments where
  textSz : ℕ
  textOff : ℕ
  haveText : Bool
  rwLo : ℕ
  rwHi : ℕ
  dynOff : ℕ
  dynSz : ℕ
  nload : ℕ

structure Plan where
  header : Header
  segs : Segments

structure Placed where
  dataV : ℕ
  dataFsz : ℕ
  dataMsz : ℕ
  si : ℕ

structure Dynamic where
  o : ℕ
  done : Bool
  relV : ℕ
  relSz : ℕ
  relEnt : ℕ
  pltgotV : ℕ
  symV : ℕ
  isDynamic : Bool

structure Job where
  plan : Plan
  placed : Placed
  dyn : Dynamic
  gotBase : ℕ
  rel0 : ℕ

structure Pool where
  o : ℕ
  used : ℕ

structure Flat where
  region : ℕ
  regionSize : ℕ
  regionUsed : ℕ
  entry : ℕ
  textBase : ℕ
  textSize : ℕ
  dataBase : ℕ
  dataSize : ℕ
  bssSize : ℕ
  stackSize : ℕ
  isFdpic : Bool
  loadmap : ℕ
  phdr : ℕ
  phnum : ℕ
  isDynamic : Bool
  got : ℕ
  dynamic : ℕ
  regionExec : Bool

def ptLoad : ℕ := 1
def ptDynamic : ℕ := 2
def pfX : ℕ := 1

section
variable (A : FdpicArgs)

def readHeader : Prog Halt Header := do
  let img := A.image.addr
  require (img ≠ 0 ∧ A.region.addr ≠ 0 ∧ 52 ≤ A.image.size) (.rc .errInvalidParam)
  let magic ← get img 4
  let cls ← get (img + 4) 1
  require (magic = 0x464c457f ∧ cls = 1) (.rc .errInvalidParam)
  let e_type ← get (img + 16) 2
  let e_machine ← get (img + 18) 2
  require (e_type = 3 ∧ e_machine = 40) (.rc .errInvalidParam)
  let osabi ← get (img + 7) 1
  let e_flags ← get (img + 36) 4
  require (osabi = 65 ∨ e_flags &&& 0x10000000 ≠ 0) (.rc .errNotSupported)
  let e_entry ← get (img + 24) 4
  let e_phoff ← get (img + 28) 4
  let e_phentsize ← get (img + 42) 2
  let e_phnum ← get (img + 44) 2
  require (e_phoff + e_phnum * e_phentsize ≤ A.image.size) (.rc .errInvalidParam)
  pure ⟨e_entry, e_phoff, e_phentsize, e_phnum⟩

def phdrAddr (h : Header) (i : ℕ) : ℕ := A.word (A.image.addr + h.phoff + i * h.phentsize)

def Segments.none : Segments := ⟨0, 0, false, 0xffffffff, 0, 0, 0, 0⟩

def Segments.add (s : Segments) (p_off v msz p_flags : ℕ) : Segments :=
  if p_flags &&& pfX ≠ 0 then
    { s with nload := s.nload + 1, textSz := msz, textOff := p_off, haveText := true }
  else
    { s with
      nload := s.nload + 1
      rwLo := if v < s.rwLo then v else s.rwLo
      rwHi := if wrap 32 (v + msz) > s.rwHi then wrap 32 (v + msz) else s.rwHi }

def classify (h : Header) (i : ℕ) (s : Segments) : Prog Halt Segments := do
  let ph := phdrAddr A h i
  let p_type ← get ph 4
  if p_type = ptDynamic then do
    let v ← get (ph + 8) 4
    let msz ← get (ph + 20) 4
    pure { s with dynOff := v, dynSz := msz }
  else if p_type = ptLoad then do
    let p_off ← get (ph + 4) 4
    let v ← get (ph + 8) 4
    let msz ← get (ph + 20) 4
    let p_flags ← get (ph + 24) 4
    pure (s.add p_off v msz p_flags)
  else pure s

end

section
variable (A : FdpicArgs) (s : Segments)

def Segments.rwSpan : ℕ := if s.rwHi > s.rwLo then s.rwHi - s.rwLo else 0

def Segments.rwA : ℕ := wrap 32 (s.rwSpan + 3) &&& comp 32 3

def Segments.loadmapSz : ℕ := wrap 32 (4 + s.nload * 12)

def textA : ℕ := if A.copyText then wrap 32 (s.textSz + 15) &&& comp 32 15 else 0

def Segments.poolOff : ℕ := wrap 32 (wrap 32 (s.rwA + s.loadmapSz) + 7) &&& comp 32 7

def fdBase : ℕ := A.word (A.region.addr + textA A s)

def loadmapAddr : ℕ := A.word (fdBase A s + s.rwA)

def fdpool : ℕ := A.word (fdBase A s + s.poolOff)

def fdpicPlan : Prog Halt Plan := do
  let h ← readHeader A
  let s ← loop (classify A h) h.phnum 0 Segments.none
  require (s.haveText = true ∧ 1 ≤ s.nload) (.rc .errInvalidParam)
  require (textA A s + s.rwA + s.loadmapSz ≤ A.region.size) (.rc .errNoMemory)
  pure ⟨h, s⟩

end

section
variable (A : FdpicArgs) (P : Plan)

def copySegment (p_off p_vaddr p_filesz p_flags : ℕ) : Prog Halt ℕ :=
  if p_flags &&& pfX ≠ 0 then
    if A.copyText then do
      memcpy A.region.addr (A.word (A.image.addr + p_off)) p_filesz
      pure (wrap 32 A.region.addr)
    else pure (wrap 32 (A.image.addr + p_off))
  else do
    let d := A.word (fdBase A P.segs + wrap 32 (p_vaddr + 2 ^ 32 - P.segs.rwLo))
    memcpy d (A.word (A.image.addr + p_off)) p_filesz
    pure (wrap 32 d)

def noteData (st : Placed) (p_vaddr p_filesz p_memsz p_flags : ℕ) : Placed :=
  if p_flags &&& pfX ≠ 0 then { st with si := st.si + 1 }
  else ⟨p_vaddr, p_filesz, p_memsz, st.si + 1⟩

def entryAddr (si : ℕ) : ℕ := A.word (loadmapAddr A P.segs + 4 + si * 12)

def placeSegment (i : ℕ) (st : Placed) : Prog Halt Placed := do
  let ph := phdrAddr A P.header i
  let p_type ← get ph 4
  if p_type = ptLoad then do
    let p_off ← get (ph + 4) 4
    let p_vaddr ← get (ph + 8) 4
    let p_filesz ← get (ph + 16) 4
    let p_memsz ← get (ph + 20) 4
    let p_flags ← get (ph + 24) 4
    require (p_off + p_filesz ≤ A.image.size) (.rc .errInvalidParam)
    let seg_addr ← copySegment A P p_off p_vaddr p_filesz p_flags
    put (entryAddr A P st.si) 4 seg_addr
    put (entryAddr A P st.si + 4) 4 p_vaddr
    put (entryAddr A P st.si + 8) 4 p_memsz
    pure (noteData st p_vaddr p_filesz p_memsz p_flags)
  else pure st

def clearRw : Prog Halt Unit :=
  if P.segs.rwSpan ≠ 0 then memset (fdBase A P.segs) P.segs.rwSpan 0 else pure ()

def fdpicClear : Prog Halt Unit := do
  clearRw A P
  put (loadmapAddr A P.segs) 2 0
  put (loadmapAddr A P.segs + 2) 2 (wrap 16 P.segs.nload)

def fdpicPlace : Prog Halt Placed := do
  fdpicClear A P
  loop (placeSegment A P) P.header.phnum 0 ⟨0, 0, 0, 0⟩

def fdpicRtFrom (vaddr : ℕ) : ℕ → ℕ → Prog Halt ℕ
  | 0, _ => pure 0
  | n + 1, i => do
    let e := entryAddr A P i
    let addr ← get e 4
    let pv ← get (e + 4) 4
    let msz ← get (e + 8) 4
    if pv ≤ vaddr ∧ vaddr < wrap 32 (pv + msz) then pure (wrap 32 (addr + (vaddr - pv)))
    else fdpicRtFrom vaddr n (i + 1)

def fdpicRt (vaddr : ℕ) : Prog Halt ℕ := fdpicRtFrom A P vaddr P.segs.nload 0

end

section
variable (A : FdpicArgs) (P : Plan)

def Dynamic.start : Dynamic := ⟨0, false, 0, 0, 8, 0, 0, false⟩

def Dynamic.note (d : Dynamic) (tag val : ℕ) : Dynamic :=
  match tag with
  | 0 => { d with done := true }
  | 1 => { d with isDynamic := true }
  | 17 => { d with relV := val }
  | 18 => { d with relSz := val }
  | 19 => { d with relEnt := val }
  | 3 => { d with pltgotV := val }
  | 6 => { d with symV := val }
  | _ => d

def walkStep (dp : ℕ) (d : Dynamic) : Prog Halt Dynamic := do
  let tag ← get (A.word (dp + d.o)) 4
  let val ← get (A.word (dp + d.o) + 4) 4
  pure { d.note tag val with o := wrap 32 (d.o + 8) }

def fdpicDynamic (fuel : ℕ) : Prog Halt Dynamic :=
  if P.segs.dynOff ≠ 0 then do
    let dp ← fdpicRt A P P.segs.dynOff
    repeatWhile .spin
      (fun d => dp ≠ 0 ∧ d.done = false ∧ wrap 32 (d.o + 8) ≤ P.segs.dynSz)
      (walkStep A dp) fuel Dynamic.start
  else pure Dynamic.start

def Dynamic.maxFd (d : Dynamic) : ℕ := if d.relEnt ≠ 0 then d.relSz / d.relEnt else 0

def fdpicPrepare (fuel : ℕ) : Prog Halt Job := do
  let P ← fdpicPlan A
  let placed ← fdpicPlace A P
  let dyn ← fdpicDynamic A P fuel
  let gotBase ← fdpicRt A P dyn.pltgotV
  let rel0 ← fdpicRt A P dyn.relV
  require (P.segs.poolOff + dyn.maxFd * 8 ≤ A.region.size) (.rc .errNoMemory)
  pure ⟨P, placed, dyn, gotBase, rel0⟩

end

inductive FdpicReloc where
  | abs32 | relative | funcdesc | funcdescValue
  deriving DecidableEq, Repr

def FdpicReloc.ofType : ℕ → Option FdpicReloc
  | 2 => some .abs32
  | 23 => some .relative
  | 163 => some .funcdesc
  | 164 => some .funcdescValue
  | _ => none

section
variable (A : FdpicArgs) (X : Job)

def dynSym (r_sym : ℕ) : Prog Halt ℕ := do
  let symtab ← fdpicRt A X.plan X.dyn.symV
  pure (A.word (symtab + wrap 32 (r_sym * 16)))

def definedSym (sym : ℕ) : Prog Halt Bool :=
  if X.dyn.symV ≠ 0 then do
    let st_shndx ← get (sym + 14) 2
    pure (st_shndx != 0)
  else pure false

def localAddend (place st_info : ℕ) : Prog Halt ℕ :=
  if st_info / 16 = 0 then get place 4 else pure 0

def descriptorValue (r_sym place : ℕ) : Prog Halt (ℕ × ℕ) := do
  let sym ← dynSym A X r_sym
  let defined ← definedSym X sym
  if defined then do
    let fnv ← get (sym + 4) 4
    let info ← get (sym + 12) 1
    let addend ← localAddend place info
    let w0 ← fdpicRt A X.plan (wrap 32 (fnv + addend))
    pure (w0, X.gotBase)
  else pure (0, 0)

structure Search where
  p : ℕ
  descr : ℕ
  found : Bool

def searchStep (r_sym : ℕ) (s : Search) : Prog Halt Search := do
  let i2 ← get (A.word (X.rel0 + s.p) + 4) 4
  if i2 % 256 = 164 ∧ i2 / 256 = r_sym then do
    let v ← get (A.word (X.rel0 + s.p)) 4
    let descr ← fdpicRt A X.plan v
    pure { s with descr := descr, found := true }
  else pure { s with p := wrap 32 (s.p + X.dyn.relEnt) }

def findDescriptor (fuel r_sym : ℕ) : Prog Halt ℕ := do
  let s ← repeatWhile .spin
    (fun s => s.found = false ∧ wrap 32 (s.p + X.dyn.relEnt) ≤ X.dyn.relSz)
    (searchStep A X r_sym) fuel ⟨0, 0, false⟩
  pure s.descr

def freshDescriptor (sym place used : ℕ) : Prog Halt (ℕ × ℕ) := do
  let d := A.word (fdpool A X.plan.segs + used)
  let st_value ← get (sym + 4) 4
  let addend ← get place 4
  let fn ← fdpicRt A X.plan (wrap 32 (st_value + addend))
  put d 4 fn
  put (d + 4) 4 X.gotBase
  pure (wrap 32 d, wrap 32 (used + 8))

def funcdescAddr (fuel r_sym place used : ℕ) : Prog Halt (ℕ × ℕ) := do
  let sym ← dynSym A X r_sym
  let defined ← definedSym X sym
  if defined then do
    let descr ← findDescriptor A X fuel r_sym
    if descr = 0 ∧ wrap 32 (used + 8) ≤ wrap 32 (X.dyn.maxFd * 8) then
      freshDescriptor A X sym place used
    else pure (descr, used)
  else pure (0, used)

def FdpicReloc.apply (fuel r_sym place used : ℕ) : FdpicReloc → Prog Halt ℕ
  | .abs32 | .relative => do
    let v ← get place 4
    let w ← fdpicRt A X.plan v
    put place 4 w
    pure used
  | .funcdescValue => do
    let w ← descriptorValue A X r_sym place
    put place 4 w.1
    put (place + 4) 4 w.2
    pure used
  | .funcdesc => do
    let d ← funcdescAddr A X fuel r_sym place used
    put place 4 d.1
    pure d.2

/-- What the entry at `r` does; an unmapped place and an unknown type are skipped. -/
def applyEntry (fuel r used : ℕ) : Prog Halt ℕ := do
  let r_offset ← get r 4
  let r_info ← get (r + 4) 4
  let place ← fdpicRt A X.plan r_offset
  if place = 0 then pure used
  else match FdpicReloc.ofType (r_info % 256) with
    | none => pure used
    | some k => k.apply A X fuel (r_info / 256) place used

def relocStep (fuel : ℕ) (s : Pool) : Prog Halt Pool := do
  let used ← applyEntry A X fuel (A.word (X.rel0 + s.o)) s.used
  pure ⟨wrap 32 (s.o + X.dyn.relEnt), used⟩

def Relocating (s : Pool) : Prop :=
  A.isInterp = false ∧ X.dyn.isDynamic = false ∧ X.rel0 ≠ 0 ∧
    wrap 32 (s.o + X.dyn.relEnt) ≤ X.dyn.relSz

instance (s : Pool) : Decidable (Relocating A X s) := inferInstanceAs (Decidable (_ ∧ _))

def fdpicRelocate (fuel : ℕ) : Prog Halt Pool :=
  repeatWhile .spin (Relocating A X) (relocStep A X fuel) fuel ⟨0, 0⟩

def dynamicAddr : Prog Halt ℕ :=
  if X.plan.segs.dynOff ≠ 0 then fdpicRt A X.plan X.plan.segs.dynOff else pure 0

def fdpicResult (used : ℕ) : Prog Halt Flat := do
  let s := X.plan.segs
  let h := X.plan.header
  let dataBase ← fdpicRt A X.plan X.placed.dataV
  let entry ← fdpicRt A X.plan h.entry
  let dynAddr ← dynamicAddr A X
  pure {
    region := fdBase A s
    regionSize := A.region.size
    regionUsed := wrap 32 (textA A s + s.poolOff + used)
    entry := entry
    textBase := if A.copyText then A.region.addr else A.word (A.image.addr + s.textOff)
    textSize := s.textSz
    dataBase := dataBase
    dataSize := X.placed.dataFsz
    bssSize := wrap 32 (X.placed.dataMsz + 2 ^ 32 - X.placed.dataFsz)
    stackSize := 0x4000
    isFdpic := true
    loadmap := loadmapAddr A s
    phdr := if A.copyText then A.word (A.region.addr + wrap 32 (h.phoff + 2 ^ 32 - s.textOff))
      else A.word (A.image.addr + h.phoff)
    phnum := h.phnum
    isDynamic := X.dyn.isDynamic
    got := X.gotBase
    dynamic := dynAddr
    regionExec := A.copyText }

end

def fdpicRun (A : FdpicArgs) (fuel : ℕ) : Prog Halt (Job × Pool × Flat) := do
  let X ← fdpicPrepare A fuel
  let pool ← fdpicRelocate A X fuel
  let prog ← fdpicResult A X pool.used
  pure (X, pool, prog)

def oveLoaderLoadFdpic (A : FdpicArgs) (fuel : ℕ) : Prog Halt Flat := do
  let r ← fdpicRun A fuel
  pure r.2.2

end Overtos.Loader
