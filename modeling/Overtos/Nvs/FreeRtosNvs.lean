import Overtos.Fs.FreeRtosFs

/-! Key-value storage on the FreeRTOS backend: one file under `/nvs` for each key. -/
namespace Overtos.Nvs
open CStr Fs Function List

def nvsPathMax : ℕ := 64

def nvsDir : Bytes := [0x2f, 0x6e, 0x76, 0x73, 0x2f]

def keyByteOk (c : UInt8) : Bool :=
  decide (0x41 ≤ c ∧ c ≤ 0x5a) || decide (0x61 ≤ c ∧ c ≤ 0x7a) || decide (0x30 ≤ c ∧ c ≤ 0x39) ||
    decide (c = 0x5f ∨ c = 0x2d ∨ c = 0x2e)

def oveNvsKeyIsValid (key : Bytes) : Bool :=
  match key with
  | [] => false
  | c :: _ => decide (c ≠ 0x2e) && key.all keyByteOk

def nvsMakePath (key : Bytes) : Except Rc Bytes :=
  if oveNvsKeyIsValid key = false then .error .errInvalidParam
  else
    let path := nvsDir ++ key
    if nvsPathMax ≤ path.length then .error .errInvalidParam else .ok path

def oveNvsRead (partition : Fin 5) (d : Dir) (key : Bytes) (bufLen : ℕ) :
    Except Rc (Bytes × Dir) := do
  let path ← nvsMakePath key
  let (f, d) ← openCommon partition d path fsRead
  let fileSize := oveFsSize d f
  let toRead := if fileSize < bufLen then fileSize else bufLen
  return ((oveFsRead d f toRead).1, d)

def oveNvsWrite (partition : Fin 5) (d : Dir) (key data : Bytes) : Rc × Dir :=
  match nvsMakePath key with
  | .error rc => (rc, d)
  | .ok path =>
    match openCommon partition d path (fsWrite ||| fsCreate) with
    | .error rc => (rc, d)
    | .ok (f, d) =>
      let r := oveFsWrite d f data
      if r.2.2 ≠ data.length then (.errNoMemory, r.1) else (.ok, r.1)

def oveNvsErase (partition : Fin 5) (d : Dir) (key : Bytes) : Rc × Dir :=
  match nvsMakePath key with
  | .error rc => (rc, d)
  | .ok path => oveFsUnlink partition d path

inductive Op where
  | write (key data : Bytes)
  | erase (key : Bytes)
  | read (key : Bytes) (bufLen : ℕ)
  deriving DecidableEq, Repr

def Op.changes (k : Bytes) : Op → Bool
  | .write key _ => key = k
  | .erase key => key = k
  | .read _ _ => false

variable (partition : Fin 5)

def step (d : Dir) : Op → Dir
  | .write key data => (oveNvsWrite partition d key data).2
  | .erase key => (oveNvsErase partition d key).2
  | .read key n => match oveNvsRead partition d key n with
    | .ok r => r.2
    | .error _ => d

def run (d : Dir) (ops : List Op) : Dir := ops.foldl (step partition) d

def nativePath (key : Bytes) : Bytes := [0x30 + .ofNat partition, 0x3a] ++ (nvsDir ++ key)

def Accepted (key : Bytes) : Prop := oveNvsKeyIsValid key = true ∧ key.length + 5 < nvsPathMax

instance (key : Bytes) : Decidable (Accepted key) := inferInstanceAs (Decidable (_ ∧ _))

variable {k key data : Bytes}

theorem nativePath_injective {l : Bytes} (h : nativePath partition k = nativePath partition l) :
    k = l := append_cancel_left (append_cancel_left h)

theorem nvsMakePath_accepted (h : Accepted key) : nvsMakePath key = .ok (nvsDir ++ key) := by
  have hl := h.2
  unfold nvsMakePath
  rw [if_neg (by simp [h.1]), if_neg]
  simp only [nvsDir, length_append, length_cons, length_nil]
  omega

theorem nvsMakePath_rejected (h : ¬Accepted key) : nvsMakePath key = .error .errInvalidParam := by
  unfold nvsMakePath
  by_cases hv : oveNvsKeyIsValid key = false
  · rw [if_pos hv]
  · rw [if_neg hv, if_pos]
    by_contra hl
    simp only [nvsDir, length_append, length_cons, length_nil] at hl
    exact h ⟨by simpa using hv, by omega⟩

theorem buildPath_nvs (h : Accepted key) : buildPath partition (nvsDir ++ key) =
      .ok (nativePath partition key) := by
  have hl := h.2
  unfold nvsPathMax at hl
  have h1 : ¬fsPathMax ≤ (nvsDir ++ key).length := by
    simp [fsPathMax, nvsDir]
    omega
  have h2 : ¬fsPathMax + 4 ≤ (nativePath partition key).length := by
    simp [fsPathMax, nativePath, nvsDir]
    omega
  have hh : (nvsDir ++ key).headD 0 = 0x2f := rfl
  simp only [buildPath, if_neg h1, if_pos hh]
  exact if_neg h2

def overwrite (old data : Bytes) : Bytes := data ++ old.drop data.length

theorem overwrite_length (old data : Bytes) :
    (overwrite old data).length = max old.length data.length := by
  simp only [overwrite, length_append, length_drop]
  omega

theorem overwrite_of_le {old : Bytes} (h : old.length ≤ data.length) :
    overwrite old data = data := by
  rw [overwrite, drop_eq_nil_of_le h, append_nil]

def opened (key : Bytes) : File := ⟨⟨nativePath partition key, 0⟩, 0, false⟩

theorem openCommon_write (d : Dir) (h : Accepted key) :
    openCommon partition d (nvsDir ++ key) (fsWrite ||| fsCreate) =
      .ok (opened partition key, update d (nativePath partition key)
        (some ((d (nativePath partition key)).getD []))) := by
  unfold openCommon
  rw [buildPath_nvs partition h]
  cases hd : d (nativePath partition key) <;>
    simp [opened, fOpen, openMode, fsWrite, fsCreate, fsTrunc, fsRead, fsExcl, fsAppend, faWrite,
      faCreateNew, faCreateAlways, faOpenAlways, hd, bind, Except.bind, pure, Except.pure]

theorem openCommon_read (d : Dir) (h : Accepted key) :
    openCommon partition d (nvsDir ++ key) fsRead =
      if (d (nativePath partition key)).isSome then .ok (opened partition key, d)
      else .error .errNotFound := by
  unfold openCommon
  rw [buildPath_nvs partition h]
  cases hd : d (nativePath partition key) with
  | none =>
    simp [fOpen, openMode, fsWrite, fsCreate, fsTrunc, fsRead, fsExcl, faRead, faCreateNew,
      faCreateAlways, faOpenAlways, hd, bind, Except.bind, throw, throwThe, MonadExceptOf.throw,
      fatfsResult]
  | some c =>
    have hu : update d (nativePath partition key) (some c) = d := by
      rw [← hd, update_eq_self]
    simp [opened, fOpen, openMode, fsWrite, fsCreate, fsTrunc, fsRead, fsExcl, fsAppend, faRead,
      faCreateNew, faCreateAlways, hd, hu, bind, Except.bind, pure, Except.pure]

theorem oveNvsWrite_accepted (d : Dir) (h : Accepted key) (data : Bytes) :
    oveNvsWrite partition d key data =
      (.ok, update d (nativePath partition key)
        (some (overwrite ((d (nativePath partition key)).getD []) data))) := by
  unfold oveNvsWrite
  rw [nvsMakePath_accepted h]
  simp only [openCommon_write partition d h]
  simp [opened, oveFsWrite, extendZeroFilled, positionNativeCursor, fWrite, overwrite]

theorem oveNvsWrite_rejected (d : Dir) (h : ¬Accepted key) (data : Bytes) :
    oveNvsWrite partition d key data = (.errInvalidParam, d) := by
  unfold oveNvsWrite
  rw [nvsMakePath_rejected h]

theorem oveNvsRead_accepted (d : Dir) {contents : Bytes} (h : Accepted key)
    (hd : d (nativePath partition key) = some contents) (n : ℕ) :
    oveNvsRead partition d key n = .ok (contents.take n, d) := by
  unfold oveNvsRead
  rw [nvsMakePath_accepted h]
  simp only [openCommon_read partition d h, hd, bind, Except.bind, pure, Except.pure,
    Option.isSome_some, ↓reduceIte]
  have hsize : oveFsSize d (opened partition key) = contents.length := by
    simp [oveFsSize, fSize, opened, hd]
  have hread (k : ℕ) : (oveFsRead d (opened partition key) k).1 = contents.take k := by
    by_cases hc : contents = []
    · simp [oveFsRead, fSize, opened, hd, hc]
    · have hpos : ¬contents.length ≤ 0 := by simpa using hc
      simp [oveFsRead, fSize, opened, hd, hc, positionNativeCursor, fRead]
  rw [hread, hsize]
  by_cases hlt : contents.length < n
  · rw [if_pos hlt, take_of_length_le le_rfl, take_of_length_le hlt.le]
  · rw [if_neg hlt]

theorem oveNvsErase_dir (d : Dir) (h : Accepted key) :
    (oveNvsErase partition d key).2 = update d (nativePath partition key) none := by
  unfold oveNvsErase
  rw [nvsMakePath_accepted h]
  simp only [oveFsUnlink, buildPath_nvs partition h, fUnlink]
  cases hd : d (nativePath partition key) with
  | none =>
    rw [← hd, update_eq_self]
    simp [hd]
  | some c => simp

theorem step_other (d : Dir) {op : Op} (hk : op.changes k = false) :
    step partition d op (nativePath partition k) = d (nativePath partition k) := by
  cases op with
  | write key data =>
    have hne : nativePath partition k ≠ nativePath partition key := fun he => by
      simp [Op.changes, nativePath_injective partition he] at hk
    by_cases ha : Accepted key
    · simp [step, oveNvsWrite_accepted partition d ha, update_of_ne hne]
    · simp [step, oveNvsWrite_rejected partition d ha]
  | erase key =>
    have hne : nativePath partition k ≠ nativePath partition key := fun he => by
      simp [Op.changes, nativePath_injective partition he] at hk
    by_cases ha : Accepted key
    · simp [step, oveNvsErase_dir partition d ha, update_of_ne hne]
    · simp [step, oveNvsErase, nvsMakePath_rejected ha]
  | read key n =>
    by_cases ha : Accepted key
    · cases hd : d (nativePath partition key) with
      | none => simp [step, oveNvsRead, nvsMakePath_accepted ha, openCommon_read partition d ha, hd,
          bind, Except.bind]
      | some c => simp [step, oveNvsRead_accepted partition d ha hd]
    · simp [step, oveNvsRead, nvsMakePath_rejected ha, bind, Except.bind]

theorem run_other (d : Dir) (ops : List Op) (hk : ∀ op ∈ ops, op.changes k = false) :
    run partition d ops (nativePath partition k) = d (nativePath partition k) := by
  induction ops generalizing d with
  | nil => rfl
  | cons op ops ih =>
    have ih := ih (step partition d op) fun o ho => hk o (by simp [ho])
    rw [step_other partition d (hk op (by simp))] at ih
    exact ih

def longest (k : Bytes) (start : ℕ) (ops : List Op) : ℕ :=
  ops.foldl (fun n op => match op with
    | .write key data => if key = k then max n data.length else n
    | .erase key => if key = k then 0 else n
    | .read _ _ => n) start

theorem run_length (d : Dir) (hk : Accepted k) (ops : List Op) :
    ((run partition d ops (nativePath partition k)).getD []).length =
      longest k ((d (nativePath partition k)).getD []).length ops := by
  induction ops generalizing d with
  | nil => rfl
  | cons op ops ih =>
    have ih := ih (step partition d op)
    rw [run, foldl_cons]
    refine ih.trans ?_
    rw [longest, longest, foldl_cons]
    congr 1
    by_cases hc : op.changes k = true
    · cases op with
      | write key data =>
        obtain rfl : key = k := by simpa [Op.changes] using hc
        simp [step, oveNvsWrite_accepted partition d hk, overwrite_length]
      | erase key =>
        obtain rfl : key = k := by simpa [Op.changes] using hc
        simp [step, oveNvsErase_dir partition d hk]
      | read key n => simp [Op.changes] at hc
    · rw [step_other partition d (by simpa using hc)]
      cases op with
      | write key data => exact (if_neg (by simpa [Op.changes] using hc)).symm
      | erase key => exact (if_neg (by simpa [Op.changes] using hc)).symm
      | read key n => rfl

theorem accepted_of_write_ok {d : Dir} (h : (oveNvsWrite partition d k data).1 = .ok) : Accepted k := by
  by_contra hk
  rw [oveNvsWrite_rejected partition d hk] at h
  cases h

theorem read_after_write (d : Dir) (before after : List Op) (hk : Accepted k) (data : Bytes)
    (hafter : ∀ op ∈ after, op.changes k = false) (n : ℕ) :
    ∃ e, oveNvsRead partition (run partition d (before ++ .write k data :: after)) k n =
      .ok ((overwrite ((run partition d before (nativePath partition k)).getD []) data).take n,
        e) := by
  have hfile : run partition d (before ++ .write k data :: after) (nativePath partition k) =
      some (overwrite ((run partition d before (nativePath partition k)).getD []) data) := by
    rw [run, foldl_append, foldl_cons]
    refine (run_other partition _ after hafter).trans ?_
    simp [step, oveNvsWrite_accepted partition _ hk, run]
  exact ⟨_, oveNvsRead_accepted partition _ hk hfile n⟩

/-- A large enough read returns exactly the data last written if and only if no longer value was
stored under the key since its last erase. -/
theorem nvs_read_back_iff (d : Dir) (before after : List Op) (k data : Bytes)
    (hok : (oveNvsWrite partition (run partition d before) k data).1 = .ok)
    (hafter : ∀ op ∈ after, op.changes k = false) :
    (∀ n, data.length ≤ n → ∃ e,
      oveNvsRead partition (run partition d (before ++ .write k data :: after)) k n =
        .ok (data, e)) ↔
      longest k ((d (nativePath partition k)).getD []).length before ≤ data.length := by
  have hk := accepted_of_write_ok partition hok
  rw [← run_length partition d hk before]
  constructor
  · intro h
    -- a buffer one byte larger than the data shows a tail, if there is one
    obtain ⟨e, he⟩ := h (data.length + 1) (by omega)
    obtain ⟨e', he'⟩ := read_after_write partition d before after hk data hafter (data.length + 1)
    rw [he, Except.ok.injEq, Prod.mk.injEq] at he'
    have hlen := congrArg length he'.1
    rw [length_take, overwrite_length] at hlen
    omega
  · intro hle n hn
    obtain ⟨e, he⟩ := read_after_write partition d before after hk data hafter n
    rw [overwrite_of_le hle, take_of_length_le hn] at he
    exact ⟨e, he⟩

theorem nvs_read_back_longer :
    ∃ e, oveNvsRead 0 (run 0 (fun _ => none) [.write [0x6b] [1, 2], .write [0x6b] [3, 4, 5]])
      [0x6b] 8 = .ok ([3, 4, 5], e) :=
  (nvs_read_back_iff 0 (fun _ => none) [.write [0x6b] [1, 2]] [] [0x6b] [3, 4, 5] (by rfl)
    (by simp)).mpr (by decide) 8 (by decide)

theorem nvs_stale_tail :
    (oveNvsWrite 0 (run 0 (fun _ => none) [.write [0x6b] [1, 2]]) [0x6b] [3]).1 = .ok ∧
      ¬∃ e, oveNvsRead 0 (run 0 (fun _ => none) [.write [0x6b] [1, 2], .write [0x6b] [3]])
        [0x6b] 2 = .ok ([3], e) := by
  refine ⟨by rfl, ?_⟩
  rintro ⟨e, he⟩
  obtain ⟨e', he'⟩ := read_after_write 0 (fun _ => none) [.write [0x6b] [1, 2]] []
    (k := [0x6b]) (by decide) [3] (by simp) 2
  have hsame := he.symm.trans he'
  rw [Except.ok.injEq, Prod.mk.injEq] at hsame
  have hlen := congrArg length hsame.1
  rw [length_take, overwrite_length, run_length 0 _ (by decide)] at hlen
  revert hlen
  decide

end Overtos.Nvs
