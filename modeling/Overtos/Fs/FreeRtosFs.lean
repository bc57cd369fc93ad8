import Overtos.Lib.CString
import Overtos.Lib.Word
import Overtos.Types

/-! The FreeRTOS file layer over FatFs, where FatFs is a directory of byte files. -/
namespace Overtos.Fs
open CStr

inductive FResult where
  | ok | diskErr | intErr | notReady | noFile | noPath | invalidName | denied | exist
  | invalidObject | writeProtected | invalidDrive | notEnabled | noFilesystem | mkfsAborted
  | timeout | locked | notEnoughCore | tooManyOpenFiles | invalidParameter
  deriving DecidableEq, Repr

abbrev Dir := Bytes → Option Bytes

structure Fil where
  path : Bytes
  fptr : ℕ
  deriving DecidableEq, Repr

def faRead : ℕ := 0x01
def faWrite : ℕ := 0x02
def faCreateNew : ℕ := 0x04
def faCreateAlways : ℕ := 0x08
def faOpenAlways : ℕ := 0x10

def fOpen (d : Dir) (path : Bytes) (mode : ℕ) : FResult × Fil × Dir :=
  let opened (contents : Bytes) : FResult × Fil × Dir :=
    (.ok, ⟨path, 0⟩, Function.update d path (some contents))
  if mode &&& faCreateNew ≠ 0 then
    if (d path).isSome then (.exist, ⟨path, 0⟩, d) else opened []
  else if mode &&& faCreateAlways ≠ 0 then opened []
  else match d path with
    | some contents => opened contents
    | none => if mode &&& faOpenAlways ≠ 0 then opened [] else (.noFile, ⟨path, 0⟩, d)

def fSize (d : Dir) (f : Fil) : ℕ := ((d f.path).getD []).length

def fLseek (f : Fil) (pos : ℕ) : Fil := { f with fptr := pos }

def fWrite (d : Dir) (f : Fil) (data : Bytes) : Dir × Fil × ℕ :=
  let contents := (d f.path).getD []
  let out := contents.take f.fptr ++ data ++ contents.drop (f.fptr + data.length)
  (Function.update d f.path (some out), { f with fptr := f.fptr + data.length }, data.length)

def fRead (d : Dir) (f : Fil) (count : ℕ) : Bytes × Fil :=
  let got := (((d f.path).getD []).drop f.fptr).take count
  (got, { f with fptr := f.fptr + got.length })

def fTruncate (d : Dir) (f : Fil) : Dir :=
  Function.update d f.path (some (((d f.path).getD []).take f.fptr))

def fUnlink (d : Dir) (path : Bytes) : FResult × Dir :=
  if (d path).isSome then (.ok, Function.update d path none) else (.noFile, d)

def fatfsResult : FResult → Rc
  | .ok => .ok
  | .noFile | .noPath => .errNotFound
  | .invalidName => .errNameTooLong
  | .exist => .errAlreadyExists
  | .writeProtected => .errReadOnly
  | .invalidObject => .errBadHandle
  | .timeout => .errTimeout
  | .locked => .errBusy
  | .notEnoughCore | .tooManyOpenFiles => .errNoMemory
  | .denied => .errPermission
  | .diskErr | .intErr | .notReady => .errIo
  | .invalidDrive | .invalidParameter => .errInvalidParam
  | .notEnabled | .noFilesystem | .mkfsAborted => .errNotSupported

def fsPathMax : ℕ := 256
def fsRead : ℕ := 0x01
def fsWrite : ℕ := 0x02
def fsCreate : ℕ := 0x04
def fsAppend : ℕ := 0x08
def fsTrunc : ℕ := 0x10
def fsExcl : ℕ := 0x20

structure File where
  fil : Fil
  position : ℕ
  append : Bool
  deriving DecidableEq, Repr

def buildPath (partition : Fin 5) (path : Bytes) : Except Rc Bytes :=
  let volume : Bytes := [0x30 + .ofNat partition, 0x3a]
  let native := if path.headD 0 = 0x2f then volume ++ path else volume ++ 0x2f :: path
  if fsPathMax ≤ path.length then .error .errNameTooLong
  else if fsPathMax + 4 ≤ native.length then .error .errNameTooLong
  else .ok native

def openMode (flags : ℕ) : ℕ :=
  let mode := if flags &&& fsRead ≠ 0 then faRead else 0
  let mode := if flags &&& fsWrite ≠ 0 then mode ||| faWrite else mode
  let mode := if mode = 0 then faRead else mode
  if flags &&& (fsCreate ||| fsExcl) = fsCreate ||| fsExcl then mode ||| faCreateNew
  else if flags &&& (fsCreate ||| fsTrunc) = fsCreate ||| fsTrunc then mode ||| faCreateAlways
  else if flags &&& fsCreate ≠ 0 then mode ||| faOpenAlways
  else mode

def openCommon (partition : Fin 5) (d : Dir) (path : Bytes) (flags : ℕ) :
    Except Rc (File × Dir) := do
  let native ← buildPath partition path
  if flags &&& fsTrunc ≠ 0 ∧ flags &&& fsWrite = 0 then throw .errInvalidParam
  let (result, fil, d) := fOpen d native (openMode flags)
  if result ≠ .ok then throw (fatfsResult result)
  let (fil, d) := if flags &&& fsTrunc ≠ 0 ∧ flags &&& fsCreate = 0 then
      let fil := fLseek fil 0
      (fil, fTruncate d fil)
    else (fil, d)
  let append := decide (flags &&& fsAppend ≠ 0)
  return (⟨fil, if append then fSize d fil else 0, append⟩, d)

def positionNativeCursor (f : File) : File :=
  if f.fil.fptr = f.position then f else { f with fil := fLseek f.fil f.position }

def oveFsSize (d : Dir) (f : File) : ℕ := fSize d f.fil

def oveFsRead (d : Dir) (f : File) (count : ℕ) : Bytes × File :=
  if fSize d f.fil ≤ f.position then ([], f)
  else
    let f := positionNativeCursor f
    let (got, fil) := fRead d f.fil count
    (got, { f with fil := fil, position := f.position + got.length })

def zeroFill (d : Dir) (f : Fil) (remaining : ℕ) : Dir × Fil :=
  if remaining = 0 then (d, f)
  else
    let r := fWrite d f (List.replicate (min remaining 512) 0)
    zeroFill r.1 r.2.1 (remaining - min remaining 512)
  termination_by remaining

def extendZeroFilled (d : Dir) (f : File) (length : ℕ) : Dir × File :=
  if length ≤ fSize d f.fil then (d, f)
  else
    let r := zeroFill d (fLseek f.fil (fSize d f.fil)) (length - fSize d f.fil)
    (r.1, { f with fil := r.2 })

def oveFsWrite (d : Dir) (f : File) (data : Bytes) : Dir × File × ℕ :=
  let f := if f.append then { f with position := fSize d f.fil } else f
  let (d, f) := extendZeroFilled d f f.position
  let f := positionNativeCursor f
  let (d, fil, bw) := fWrite d f.fil data
  (d, { f with fil := fil, position := f.position + bw }, bw)

def fsizeBits : ℕ := 32

def fsSeekSet : ℤ := 0
def fsSeekCur : ℤ := 1
def fsSeekEnd : ℤ := 2

def seekTo (f : File) (pos : ℕ) : Rc × File :=
  if Word.wrap fsizeBits pos ≠ pos then (.errInvalidParam, f)
  else (.ok, { f with position := Word.wrap fsizeBits pos })

def oveFsSeek (arch : Arch) (d : Dir) (f : File) (offset : BitVec arch.bits) (whence : ℤ) :
    Rc × File :=
  let base? : Option ℕ :=
    if whence = fsSeekSet then some 0
    else if whence = fsSeekCur then some f.position
    else if whence = fsSeekEnd then some (fSize d f.fil)
    else none
  match base? with
  | none => (.errInvalidParam, f)
  | some base =>
    if offset.toInt < 0 then
      let magnitude := Word.wrap 64 ((-(offset.toInt + 1)).toNat + 1)
      if base < magnitude then (.errInvalidParam, f) else seekTo f (base - magnitude)
    else
      let pos := Word.wrap 64 (base + offset.toInt.toNat)
      if pos < base then (.errInvalidParam, f) else seekTo f pos

def asLong (arch : Arch) (n : ℕ) : ℤ := (BitVec.ofNat arch.bits n).toInt

def oveFsTell (arch : Arch) (f : File) : ℤ := asLong arch f.position

def oveFsTruncate (d : Dir) (f : File) (length : ℕ) : Rc × Dir × File :=
  if Word.wrap fsizeBits length ≠ length then (.errInvalidParam, d, f)
  else
    let target := Word.wrap fsizeBits length
    let r := if fSize d f.fil < target then extendZeroFilled d f target
      else (d, { f with fil := fLseek f.fil target })
    if target < fSize r.1 r.2.fil then (.ok, fTruncate r.1 r.2.fil, r.2) else (.ok, r.1, r.2)

def oveFsUnlink (partition : Fin 5) (d : Dir) (path : Bytes) : Rc × Dir :=
  match buildPath partition path with
  | .error rc => (rc, d)
  | .ok native => let r := fUnlink d native; (fatfsResult r.1, r.2)

end Overtos.Fs
