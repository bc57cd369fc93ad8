import Overtos.Lib.Traced
import Overtos.Lib.Word
import Overtos.Types

/-! The relocatable-object loader, for ELF64/x86-64 and ELF32/ARM images. -/
namespace Overtos.Loader
open Word Memory Traced CStr

structure Obj where
  addr : ℕ
  size : ℕ

def Obj.Has (o : Obj) (a : ℕ) : Prop := o.addr ≤ a ∧ a < o.addr + o.size

instance (o : Obj) (a : ℕ) : Decidable (o.Has a) := inferInstanceAs (Decidable (_ ∧ _))

structure Import where
  name : Option CString
  addr : ℕ

structure Space where
  arch : Arch
  image : Obj
  region : Obj
  imageFits : image.addr + image.size < 2 ^ arch.bits
  regionFits : region.addr + region.size < 2 ^ arch.bits
  apart : image.addr + image.size ≤ region.addr ∨ region.addr + region.size ≤ image.addr

def Space.word (A : Space) (n : ℕ) : ℕ := wrap A.arch.bits n

structure Args extends Space where
  imports : List Import
  importsNull : Bool
  importMem : ℕ → Bool

structure Field where
  off : ℕ
  width : ℕ

structure Format where
  is64 : Bool
  machine : ℕ
  relType : ℕ
  ehdrSize : ℕ
  shdrSize : ℕ
  symSize : ℕ
  relSize : ℕ
  eShoff : Field
  eShentsize : Field
  eShnum : Field
  shFlags : Field
  shOffset : Field
  shSize : Field
  shLink : Field
  shInfo : Field
  shAddralign : Field
  shEntsize : Field
  stInfo : Field
  stShndx : Field
  stValue : Field

def elf64 : Format where
  is64 := true
  machine := 62
  relType := 4
  ehdrSize := 64
  shdrSize := 64
  symSize := 24
  relSize := 24
  eShoff := ⟨40, 8⟩
  eShentsize := ⟨58, 2⟩
  eShnum := ⟨60, 2⟩
  shFlags := ⟨8, 8⟩
  shOffset := ⟨24, 8⟩
  shSize := ⟨32, 8⟩
  shLink := ⟨40, 4⟩
  shInfo := ⟨44, 4⟩
  shAddralign := ⟨48, 8⟩
  shEntsize := ⟨56, 8⟩
  stInfo := ⟨4, 1⟩
  stShndx := ⟨6, 2⟩
  stValue := ⟨8, 8⟩

def elf32 : Format where
  is64 := false
  machine := 40
  relType := 9
  ehdrSize := 52
  shdrSize := 40
  symSize := 16
  relSize := 8
  eShoff := ⟨32, 4⟩
  eShentsize := ⟨46, 2⟩
  eShnum := ⟨48, 2⟩
  shFlags := ⟨8, 4⟩
  shOffset := ⟨16, 4⟩
  shSize := ⟨20, 4⟩
  shLink := ⟨24, 4⟩
  shInfo := ⟨28, 4⟩
  shAddralign := ⟨32, 4⟩
  shEntsize := ⟨36, 4⟩
  stInfo := ⟨12, 1⟩
  stShndx := ⟨14, 2⟩
  stValue := ⟨4, 4⟩

def field (r : Record) (f : Field) : ℕ := r f.off f.width

-- these have the same place in both formats
def eType (eh : Record) : ℕ := eh 16 2
def eMachine (eh : Record) : ℕ := eh 18 2
def shType (sh : Record) : ℕ := sh 4 4
def stName (sym : Record) : ℕ := sym 0 4

def shtProgbits : ℕ := 1
def shtSymtab : ℕ := 2
def shtNobits : ℕ := 8
def shfAlloc : ℕ := 2
def shnUndef : ℕ := 0
def shnAbs : ℕ := 0xfff1
def stbGlobal : ℕ := 1
def stbWeak : ℕ := 2
def maxSections : ℕ := 32

structure Module where
  regionUsed : ℕ
  nSections : ℕ
  secAddr : ℕ → ℕ
  symtab : ℕ
  symCount : ℕ
  strtab : ℕ
  strtabSize : ℕ
  isElf64 : Bool

def ldOob (off size limit : ℕ) : Prop := size > limit ∨ off > limit - size

instance (off size limit : ℕ) : Decidable (ldOob off size limit) :=
  inferInstanceAs (Decidable (_ ∨ _))

section
variable (K : Format) (A : Args) (eh : Record)

def rdShdr (i : ℕ) : Prog Rc Record :=
  fetch (A.word (A.image.addr + field eh K.eShoff + i * field eh K.eShentsize)) K.shdrSize

/-- `(off + align - 1) & ~(align - 1)`; the section's alignment need not be a power of two. -/
def alignUp (off align : ℕ) : ℕ :=
  A.word (off + align + 2 ^ A.arch.bits - 1) &&&
    comp A.arch.bits (A.word (align + 2 ^ A.arch.bits - 1))

def fillSection (sh : Record) (dst : ℕ) : Prog Rc Unit :=
  if shType sh = shtNobits then memset dst (field sh K.shSize) 0
  else do
    require (¬ldOob (field sh K.shOffset) (field sh K.shSize) A.image.size) .errInvalidParam
    memcpy dst (A.word (A.image.addr + field sh K.shOffset)) (field sh K.shSize)

def placeSection (sh : Record) (i off : ℕ) (mod : Module) : Prog Rc (ℕ × Module) := do
  let size := field sh K.shSize
  let align := if field sh K.shAddralign ≠ 0 then A.word (field sh K.shAddralign) else 1
  let off := alignUp A off align
  require (¬ldOob off size A.region.size) .errNoMemory
  let dst := A.word (A.region.addr + off)
  fillSection K A sh dst
  pure (A.word (off + size), { mod with secAddr := Function.update mod.secAddr i dst })

def noteStrtab (link : ℕ) (mod : Module) : Prog Rc Module := do
  let st ← rdShdr K A eh link
  require (¬ldOob (field st K.shOffset) (field st K.shSize) A.image.size) .errInvalidParam
  pure { mod with
    strtab := A.word (A.image.addr + field st K.shOffset)
    strtabSize := wrap 32 (field st K.shSize) }

def noteSymtab (sh : Record) (mod : Module) : Prog Rc Module := do
  require (field sh K.shEntsize = K.symSize) .errNotSupported
  require (¬ldOob (field sh K.shOffset) (field sh K.shSize) A.image.size) .errInvalidParam
  let mod := { mod with
    symtab := A.word (A.image.addr + field sh K.shOffset)
    symCount := wrap 32 (field sh K.shSize / K.symSize) }
  if field sh K.shLink < field eh K.eShnum then noteStrtab K A eh (field sh K.shLink) mod
  else pure mod

def sectionStep (i : ℕ) (x : ℕ × Module) : Prog Rc (ℕ × Module) := do
  let sh ← rdShdr K A eh i
  if (shType sh = shtProgbits ∨ shType sh = shtNobits) ∧ field sh K.shFlags &&& shfAlloc ≠ 0 ∧
      field sh K.shSize > 0 then
    placeSection K A sh i x.1 x.2
  else if shType sh = shtSymtab then do
    let mod ← noteSymtab K A eh sh x.2
    pure (x.1, mod)
  else pure x

def prepare : Prog Rc (Record × Module) := do
  let eh ← fetch A.image.addr K.ehdrSize
  require (eType eh = 1 ∧ eMachine eh = K.machine) .errNotSupported
  require (field eh K.eShentsize = K.shdrSize ∧ field eh K.eShnum ≠ 0) .errInvalidParam
  require (field eh K.eShnum ≤ maxSections) .errNoMemory
  require (¬ldOob (field eh K.eShoff) (field eh K.eShnum * field eh K.eShentsize) A.image.size)
    .errInvalidParam
  let x ← loop (sectionStep K A eh) (field eh K.eShnum) 0
    (0, ⟨0, field eh K.eShnum, fun _ => 0, 0, 0, 0, 0, K.is64⟩)
  require (x.2.symtab ≠ 0 ∧ x.2.strtab ≠ 0) .errInvalidParam
  pure (eh, { x.2 with regionUsed := x.1 })

def relocEntry (apply : Module → ℕ → Record → Prog Rc Module) (tgt : ℕ) (sh : Record) (r : ℕ)
    (mod : Module) : Prog Rc Module := do
  let rel ← fetch (A.word (A.image.addr + field sh K.shOffset + r * K.relSize)) K.relSize
  apply mod tgt rel

def relocSection (apply : Module → ℕ → Record → Prog Rc Module) (i : ℕ) (mod : Module) :
    Prog Rc Module := do
  let sh ← rdShdr K A eh i
  if shType sh ≠ K.relType ∨ field sh K.shInfo ≥ field eh K.eShnum ∨
      mod.secAddr (field sh K.shInfo) = 0 then
    pure mod
  else do
    require (field sh K.shEntsize = K.relSize) .errNotSupported
    require (¬ldOob (field sh K.shOffset) (field sh K.shSize) A.image.size) .errInvalidParam
    loop (relocEntry K A apply (field sh K.shInfo) sh) (field sh K.shSize / K.relSize) 0 mod

def loadImage (apply : Module → ℕ → Record → Prog Rc Module) : Prog Rc Module := do
  let x ← prepare K A
  loop (relocSection K A x.1 apply) (field x.1 K.eShnum) 0 x.2

end

section
variable (K : Format) (A : Args) (mod : Module)

def symName (st_name : ℕ) : Option ℕ :=
  if st_name ≥ mod.strtabSize then none else some (A.word (mod.strtab + st_name))

def lookupImport (p : ℕ) : List Import → Prog Rc ℕ
  | [] => stop .errNotFound
  | ⟨none, _⟩ :: rest => lookupImport p rest
  | ⟨some s, addr⟩ :: rest => do
    let eq ← strEq p s.bytes
    if eq then pure addr else lookupImport p rest

def resolve (shndx value st_name : ℕ) : Prog Rc ℕ :=
  if shndx = shnUndef then
    match symName A mod st_name with
    | none => stop .errInvalidParam
    | some p => lookupImport p A.imports
  else if shndx = shnAbs then pure (A.word value)
  else if shndx < mod.nSections ∧ mod.secAddr shndx ≠ 0 then
    pure (A.word (mod.secAddr shndx + value))
  else stop .errNotSupported

def symbolOf (symidx : ℕ) : Prog Rc ℕ := do
  require (symidx < mod.symCount) .errInvalidParam
  let sym ← fetch (A.word (mod.symtab + symidx * K.symSize)) K.symSize
  resolve A mod (field sym K.stShndx) (field sym K.stValue) (stName sym)

end

section
variable (A : Args)

inductive X86Reloc where
  | none | abs64 | pc32 | plt32 | abs32 | abs32s
  deriving DecidableEq, Repr

def X86Reloc.ofType : ℕ → Option X86Reloc
  | 0 => some .none
  | 1 => some .abs64
  | 2 => some .pc32
  | 4 => some .plt32
  | 10 => some .abs32
  | 11 => some .abs32s
  | _ => Option.none

def X86Reloc.patch (loc S a : ℕ) : X86Reloc → Prog Rc Unit
  | .none => pure ()
  | .abs64 => put loc 8 (wrap 64 (S + a))
  | .pc32 | .plt32 => put loc 4 (wrap 32 (S + a + 2 ^ 64 - loc))
  | .abs32 | .abs32s => put loc 4 (wrap 32 (S + a))

def applyRela64 (mod : Module) (tgt : ℕ) (rela : Record) : Prog Rc Module := do
  let S ← symbolOf elf64 A mod (rela 8 8 / 2 ^ 32)
  let loc := A.word (mod.secAddr tgt + rela 0 8)
  match X86Reloc.ofType (rela 8 8 % 2 ^ 32) with
  | none => stop .errNotSupported
  | some k => do
    k.patch loc S (rela 16 8)
    pure mod

def load64 : Prog Rc Module := loadImage elf64 A (applyRela64 A)

end

section
variable (A : Args)

inductive ArmReloc where
  | none | abs32 | rel32 | thmCall | thmJump24 | target1 | prel31
  deriving DecidableEq, Repr

def ArmReloc.ofType : ℕ → Option ArmReloc
  | 0 => some .none
  | 2 => some .abs32
  | 3 => some .rel32
  | 10 => some .thmCall
  | 30 => some .thmJump24
  | 38 => some .target1
  | 42 => some .prel31
  | _ => Option.none

def veneerOff (mod : Module) : ℕ := A.word (mod.regionUsed + 3) &&& comp A.arch.bits 3

def armVeneer (mod : Module) (target : ℕ) : Prog Rc (ℕ × Module) :=
  if A.word (veneerOff A mod + 8) > A.region.size then pure (0, mod)
  else do
    let v := A.word (A.region.addr + veneerOff A mod)
    put v 2 0xf8df
    put (v + 2) 2 0xf000
    put (v + 4) 4 (wrap 32 target)
    pure (v, { mod with regionUsed := A.word (veneerOff A mod + 8) })

def int32 (n : ℕ) : ℤ := if wrap 32 n < 2 ^ 31 then wrap 32 n else wrap 32 n - 2 ^ 32

def displacement (target loc : ℕ) : ℤ := int32 (target + 2 ^ 64 - loc)

def thmAddend (hw1 hw2 : ℕ) : ℤ :=
  let bs := (hw1 >>> 10) &&& 1
  let j1 := (hw2 >>> 13) &&& 1
  let j2 := (hw2 >>> 11) &&& 1
  let i1 := (j1 ^^^ bs) ^^^ 1
  let i2 := (j2 ^^^ bs) ^^^ 1
  let raw := (bs <<< 24) ||| (i1 <<< 23) ||| (i2 <<< 22) |||
    ((hw1 &&& 0x3ff) <<< 12) ||| ((hw2 &&& 0x7ff) <<< 1)
  if raw &&& 0x01000000 ≠ 0 then int32 (raw ||| 0xfe000000) else int32 raw

def thmEncode (hw1 hw2 : ℕ) (want : ℤ) : ℕ × ℕ :=
  let u := (want % 2 ^ 32).toNat
  let ns := (u >>> 24) &&& 1
  let ni1 := (u >>> 23) &&& 1
  let ni2 := (u >>> 22) &&& 1
  let nj1 := (ni1 ^^^ 1) ^^^ ns
  let nj2 := (ni2 ^^^ 1) ^^^ ns
  ((hw1 &&& 0xf800) ||| (ns <<< 10) ||| ((u >>> 12) &&& 0x3ff),
    (hw2 &&& 0xd000) ||| (nj1 <<< 13) ||| (nj2 <<< 11) ||| ((u >>> 1) &&& 0x7ff))

def thmPatch (loc : ℕ) (hw : ℕ × ℕ) : Prog Rc Unit := do
  put loc 2 hw.1
  put (loc + 2) 2 hw.2

def thmWant (loc S hw1 hw2 : ℕ) : ℤ :=
  displacement (S &&& comp A.arch.bits 1) loc + thmAddend hw1 hw2

def outOfReach (want : ℤ) : Prop := want < -0x01000000 ∨ want > 0x00fffffe

instance (want : ℤ) : Decidable (outOfReach want) := inferInstanceAs (Decidable (_ ∨ _))

def thmBranch (mod : Module) (loc S : ℕ) : Prog Rc Module := do
  let hw1 ← get loc 2
  let hw2 ← get (loc + 2) 2
  if outOfReach (thmWant A loc S hw1 hw2) then do
    let v ← armVeneer A mod S
    require (v.1 ≠ 0) .errNoMemory
    thmPatch loc (thmEncode hw1 hw2 (displacement v.1 loc + thmAddend hw1 hw2))
    pure v.2
  else do
    thmPatch loc (thmEncode hw1 hw2 (thmWant A loc S hw1 hw2))
    pure mod

def ArmReloc.patch (mod : Module) (loc S a : ℕ) : ArmReloc → Prog Rc Module
  | .none => pure mod
  | .abs32 | .target1 => do
    put loc 4 (wrap 32 (S + a))
    pure mod
  | .rel32 => do
    put loc 4 (wrap 32 (S + a + 2 ^ 64 - loc))
    pure mod
  | .prel31 => do
    put loc 4 ((wrap 32 (S + a + 2 ^ 64 - loc) &&& 0x7fffffff) ||| (a &&& 0x80000000))
    pure mod
  | .thmCall | .thmJump24 => thmBranch A mod loc S

def applyRelArm (mod : Module) (tgt : ℕ) (rel : Record) : Prog Rc Module := do
  let S ← symbolOf elf32 A mod (rel 4 4 / 2 ^ 8)
  let loc := A.word (mod.secAddr tgt + rel 0 4)
  -- the addend is read for every type, the unsupported ones included
  let a ← get loc 4
  match ArmReloc.ofType (rel 4 4 % 2 ^ 8) with
  | none => stop .errNotSupported
  | some k => k.patch A mod loc S a

def load32Arm : Prog Rc Module := loadImage elf32 A (applyRelArm A)

end

variable (A : Args)

def identify : Prog Rc Bool := do
  require (A.image.addr ≠ 0 ∧ A.region.addr ≠ 0 ∧ 52 ≤ A.image.size) .errInvalidParam
  require (¬(A.imports.length ≠ 0 ∧ A.importsNull)) .errInvalidParam
  let magic ← get A.image.addr 4
  require (magic = 0x464c457f) .errInvalidParam
  let data ← get (A.image.addr + 5) 1
  require (data = 1) .errNotSupported
  let cls ← get (A.image.addr + 4) 1
  if cls = 2 then do
    require (64 ≤ A.image.size) .errInvalidParam
    pure true
  else do
    require (cls = 1) .errNotSupported
    pure false

def oveLoaderLoad : Prog Rc Module := do
  let is64 ← identify A
  if is64 then load64 A else load32Arm A

def oveLoaderImageSize : Option Module → ℕ
  | none => 0
  | some mod => mod.regionUsed

def Exported (K : Format) (mod : Module) (sym : Record) : Prop :=
  field sym K.stShndx ≠ shnUndef ∧ field sym K.stShndx < mod.nSections ∧
    mod.secAddr (field sym K.stShndx) ≠ 0 ∧
    (field sym K.stInfo / 16 = stbGlobal ∨ field sym K.stInfo / 16 = stbWeak)

instance (K : Format) (mod : Module) (sym : Record) : Decidable (Exported K mod sym) :=
  inferInstanceAs (Decidable (_ ∧ _))

def symSearch (K : Format) (mod : Module) (name : Bytes) : ℕ → ℕ → Prog Rc ℕ
  | 0, _ => pure 0
  | n + 1, i => do
    let sym ← fetch (A.word (mod.symtab + i * K.symSize)) K.symSize
    if Exported K mod sym then
      match symName A mod (stName sym) with
      | none => symSearch K mod name n (i + 1)
      | some sn => do
        let eq ← strEq sn name
        if eq then
          pure (A.word (mod.secAddr (field sym K.stShndx) + field sym K.stValue))
        else symSearch K mod name n (i + 1)
    else symSearch K mod name n (i + 1)

def oveLoaderSym (mod : Module) (name : CString) : Prog Rc ℕ :=
  if mod.symtab = 0 ∨ mod.strtab = 0 then pure 0
  else symSearch A (if mod.isElf64 then elf64 else elf32) mod name.bytes mod.symCount 0

end Overtos.Loader
