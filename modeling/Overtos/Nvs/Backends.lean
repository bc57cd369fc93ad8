import Overtos.Lib.Runs
import Overtos.Lib.Slots
import Overtos.Nvs.FreeRtosNvs

/-! Key-value storage on POSIX, a table in memory, and on NuttX, a file for each key. -/
namespace Overtos.Nvs
open CStr Runs Function List Option

/-- What the environment does in a call is in `ε`. A read gives the reported length and the bytes.
-/
structure Backend (ε σ : Type) where
  write : ε → σ → CString → Bytes → Rc × σ
  erase : σ → CString → Rc × σ
  read : σ → CString → ℕ → Except Rc (ℕ × Bytes)

inductive Call where
  | write (key : CString) (data : Bytes)
  | erase (key : CString)
  | read (key : CString) (room : ℕ)

abbrev Contents := Bytes → Option Bytes

section

variable {ε σ : Type} (b : Backend ε σ)

def Backend.step (s : σ × Contents) (c : Call × ε) : Option (σ × Contents) :=
  match c.1 with
  | .write key data =>
    let r := b.write c.2 s.1 key data
    some (r.2, if r.1 = .ok then update s.2 key.bytes (some data) else s.2)
  | .erase key => some ((b.erase s.1 key).2, update s.2 key.bytes none)
  | .read _ _ => some s

def Backend.Answers (s : σ) (m : Contents) (key : CString) (room : ℕ) : Prop :=
  ∀ r, b.read s key room = .ok r ↔ ∃ v, m key.bytes = some v ∧ r = (v.length, v.take room)

def Backend.ReadsBack (s : σ × Contents) (c : Call × ε) : Prop :=
  ∀ key room, c.1 = .read key room → b.Answers s.1 s.2 key room

theorem Backend.reads_back (Holds : σ → Contents → Prop) {Careful : σ × Contents → Call × ε → Prop}
    (hwrite : ∀ s m key data e, Holds s m → Careful (s, m) (.write key data, e) →
      Holds (b.write e s key data).2 (if (b.write e s key data).1 = .ok then
        update m key.bytes (some data) else m))
    (herase : ∀ s m key e, Holds s m → Careful (s, m) (.erase key, e) →
      Holds (b.erase s key).2 (update m key.bytes none))
    (hread : ∀ s m key room e, Holds s m → Careful (s, m) (.read key room, e) →
      b.Answers s m key room)
    {s : σ × Contents} (hs : Holds s.1 s.2) {calls : List (Call × ε)}
    (h : Each b.step Careful s calls) : Each b.step b.ReadsBack s calls := by
  refine Each.imp (I := fun s => Holds s.1 s.2) (fun s c t hs ht hc => ?_) hs h
  obtain ⟨c, e⟩ := c
  cases c with
  | write key data =>
    cases ht
    exact ⟨by simp [ReadsBack], hwrite s.1 s.2 key data e hs hc⟩
  | erase key =>
    cases ht
    exact ⟨by simp [ReadsBack], herase s.1 s.2 key e hs hc⟩
  | read key room =>
    cases ht
    refine ⟨fun _ _ h => ?_, hs⟩
    cases h
    exact hread s.1 s.2 key room e hs hc

end

namespace Posix

def maxEntries : ℕ := 64
def maxKeyLen : ℕ := 64
def maxValLen : ℕ := 256

structure Entry where
  key : Bytes
  value : Bytes
  deriving DecidableEq, Repr

abbrev Table := Fin maxEntries → Option Entry

def nvsFind (t : Table) (key : CString) : Option (Fin maxEntries) :=
  (finRange maxEntries).find? fun i => (t i).any fun e => ofArray e.key = key.bytes

def oveNvsRead (t : Table) (key : CString) (room : ℕ) : Except Rc (ℕ × Bytes) :=
  match (nvsFind t key).bind t with
  | none => .error .errNotFound
  | some e => .ok (e.value.length, e.value.take room)

def oveNvsWrite (t : Table) (key : CString) (data : Bytes) : Rc × Table :=
  if maxValLen < data.length then (.errInvalidParam, t)
  else
    match nvsFind t key with
    | some i => (.ok, update t i ((t i).map ({ · with value := data })))
    | none =>
      match (finRange maxEntries).find? fun i => (t i).isNone with
      | none => (.errNoMemory, t)
      | some i => (.ok, update t i (some ⟨strncpy (maxKeyLen - 1) key ++ [0], data⟩))

def oveNvsErase (t : Table) (key : CString) : Rc × Table :=
  match nvsFind t key with
  | none => (.errNotSupported, t)
  | some i => (.ok, update t i none)

def backend : Backend Unit Table := ⟨fun _ => oveNvsWrite, oveNvsErase, oveNvsRead⟩

def ShortKeys (_ : Table × Contents) (c : Call × Unit) : Prop :=
  ∀ key data, c.1 = .write key data → key.bytes.length < maxKeyLen

def view (t : Table) (i : Fin maxEntries) : Option (Bytes × Bytes) :=
  (t i).map fun e => (ofArray e.key, e.value)

theorem view_update (t : Table) (i : Fin maxEntries) (e : Option Entry) : view (update t i e) =
      update (view t) i (e.map fun e => (ofArray e.key, e.value)) := by
  funext j
  by_cases hj : j = i
  · subst hj
    simp [view]
  · simp [view, hj]

section

variable {t : Table} {m : Contents} {key : CString} {i : Fin maxEntries}

theorem nvsFind_some (h : nvsFind t key = some i) :
    ∃ e, t i = some e ∧ ofArray e.key = key.bytes := by
  simpa [Option.any_eq_true] using find?_some h

theorem nvsFind_none (h : nvsFind t key = none) (i : Fin maxEntries) (v : Bytes) :
    view t i ≠ some (key.bytes, v) := by
  intro hi
  obtain ⟨e, he, heq⟩ := map_eq_some_iff.mp hi
  have hne := find?_eq_none.mp h i (mem_finRange i)
  rw [he] at hne
  exact hne (decide_eq_true (Prod.ext_iff.mp heq).1)

theorem holds_found (h : Slots.Holds (view t) m) {e : Entry} (hi : t i = some e)
    (hkey : ofArray e.key = key.bytes) (data : Option Bytes) :
    Slots.Holds (update (view t) i (data.map (key.bytes, ·)))
      (update m key.bytes data) := by
  have hview : view t i = some (key.bytes, e.value) := by rw [view, hi, ← hkey]; rfl
  refine h.set (fun k v hk => ?_) (fun j v hj => h.unique j i _ _ _ hj hview) data
  rw [hview] at hk
  cases hk
  rfl

theorem write_holds (h : Slots.Holds (view t) m) (hshort : key.bytes.length < maxKeyLen)
    (data : Bytes) : Slots.Holds (view (oveNvsWrite t key data).2)
      (if (oveNvsWrite t key data).1 = .ok then update m key.bytes (some data)
        else m) := by
  by_cases hlen : maxValLen < data.length
  · rw [oveNvsWrite, if_pos hlen]
    exact h
  rw [oveNvsWrite, if_neg hlen]
  cases hfind : nvsFind t key with
  | some i =>
    obtain ⟨e, hi, hkey⟩ := nvsFind_some hfind
    have hset := holds_found h hi hkey (some data)
    simpa only [if_true, view_update, hi, map_some, hkey] using hset
  | none =>
    dsimp only
    cases hfree : (finRange maxEntries).find? fun i => (t i).isNone with
    | none => exact h
    | some i =>
      have hnone : (t i).isNone = true := find?_some (p := fun i => (t i).isNone) hfree
      have hi : view t i = none := by
        rw [view, isNone_iff_eq_none.mp hnone]
        rfl
      have hkey : ofArray (strncpy (maxKeyLen - 1) key ++ [0]) = key.bytes := by
        rw [ofArray_strncpy, take_of_length_le (by omega)]
      have hset := h.set (i := i) (k := key.bytes) (by simp [hi])
        (fun j v hj => absurd hj (nvsFind_none hfind j v)) (some data)
      simpa only [if_true, view_update, map_some, hkey] using hset

theorem erase_holds (h : Slots.Holds (view t) m) :
    Slots.Holds (view (oveNvsErase t key).2) (update m key.bytes none) := by
  unfold oveNvsErase
  cases hfind : nvsFind t key with
  | some i =>
    obtain ⟨e, hi, hkey⟩ := nvsFind_some hfind
    have hset := holds_found h hi hkey none
    simp only [view_update, map_none] at hset ⊢
    exact hset
  | none =>
    have hnone : m key.bytes = none := by
      rw [eq_none_iff_forall_not_mem]
      intro v hv
      obtain ⟨i, hi⟩ := (h.mem _ v).mp hv
      exact nvsFind_none hfind i v hi
    rw [← hnone, update_eq_self]
    exact h

theorem read_answers (h : Slots.Holds (view t) m) (room : ℕ) : backend.Answers t m key room := by
  intro r
  change oveNvsRead t key room = .ok r ↔ _
  unfold oveNvsRead
  cases hfind : nvsFind t key with
  | some i =>
    obtain ⟨e, hi, hkey⟩ := nvsFind_some hfind
    have hm : m key.bytes = some e.value := (h.mem _ _).mpr ⟨i, by rw [view, hi, ← hkey]; rfl⟩
    simp [hi, hm, eq_comm]
  | none =>
    simp only [bind_none, reduceCtorEq, false_iff, not_exists, not_and]
    intro v hv
    obtain ⟨i, hi⟩ := (h.mem _ v).mp hv
    exact absurd hi (nvsFind_none hfind i v)

end

end Posix

namespace Nuttx

def nvsPathMax : ℕ := 64

abbrev Files := Bytes → Option Bytes

def nvsMakePath (key : CString) : Except Rc Bytes :=
  if oveNvsKeyIsValid key.bytes = false then .error .errInvalidParam
  else
    let path := ascii "/mnt/sd/nvs" ++ ascii "/" ++ key.bytes
    if nvsPathMax ≤ path.length then .error .errInvalidParam else .ok path

def oveNvsRead (d : Files) (key : CString) (room : ℕ) : Except Rc (ℕ × Bytes) :=
  (nvsMakePath key).bind fun path =>
    match d path with
    | none => .error .errNotFound
    | some contents => .ok ((contents.take room).length, contents.take room)

def oveNvsWrite (d : Files) (key : CString) (data : Bytes) : Rc × Files :=
  match nvsMakePath key with
  | .error rc => (rc, d)
  | .ok path => (.ok, update d path (some data))

def oveNvsErase (d : Files) (key : CString) : Rc × Files :=
  match nvsMakePath key with
  | .error rc => (rc, d)
  | .ok path => if (d path).isNone then (.errNotFound, d) else (.ok, update d path none)

def backend : Backend Unit Files := ⟨fun _ => oveNvsWrite, oveNvsErase, oveNvsRead⟩

def RoomyReads (s : Files × Contents) (c : Call × Unit) : Prop :=
  ∀ key room, c.1 = .read key room → ∀ v, s.2 key.bytes = some v → v.length ≤ room

def Holds (d : Files) (m : Contents) : Prop :=
  ∀ key, m key.bytes = (nvsMakePath key).toOption.bind d

def pathOf (key : CString) : Bytes := ascii "/mnt/sd/nvs" ++ ascii "/" ++ key.bytes

theorem nvsMakePath_cases (key : CString) :
    nvsMakePath key = .error .errInvalidParam ∨ nvsMakePath key = .ok (pathOf key) := by
  rw [nvsMakePath]
  split_ifs
  · exact .inl rfl
  · simp only
    split_ifs
    · exact .inl rfl
    · exact .inr rfl

theorem Holds.set {d : Files} {m : Contents} (h : Holds d m) {key : CString}
    (hpath : nvsMakePath key = .ok (pathOf key)) (e : Option Bytes) :
    Holds (update d (pathOf key) e) (update m key.bytes e) := by
  intro key'
  by_cases hkey : key'.bytes = key.bytes
  · have hsame : nvsMakePath key' = nvsMakePath key := by rw [nvsMakePath, nvsMakePath, hkey]
    rw [hkey, update_self, hsame, hpath]
    exact (update_self (pathOf key) e d).symm
  · rw [update_of_ne hkey, h key']
    have hne : pathOf key' ≠ pathOf key := fun heq => hkey (append_cancel_left heq)
    rcases nvsMakePath_cases key' with hpath' | hpath'
    · rw [hpath']
      rfl
    · rw [hpath']
      exact (update_of_ne hne e d).symm

section

variable {d : Files} {m : Contents} (h : Holds d m) (key : CString)
include h

theorem write_holds (data : Bytes) : Holds (oveNvsWrite d key data).2
    (if (oveNvsWrite d key data).1 = .ok then update m key.bytes (some data) else m) := by
  rcases nvsMakePath_cases key with hpath | hpath
  · simp only [oveNvsWrite, hpath]
    exact h
  · simp only [oveNvsWrite, hpath, if_true]
    exact h.set hpath (some data)

theorem erase_holds : Holds (oveNvsErase d key).2 (update m key.bytes none) := by
  have hm := h key
  rcases nvsMakePath_cases key with hpath | hpath
  · rw [hpath] at hm
    simp only [oveNvsErase, hpath]
    rw [← show m key.bytes = none from hm, update_eq_self]
    exact h
  · simp only [oveNvsErase, hpath]
    split_ifs with hfile
    · rw [hpath] at hm
      rw [← hm.trans (isNone_iff_eq_none.mp hfile), update_eq_self]
      exact h
    · exact h.set hpath none

theorem read_answers {room : ℕ} (hroom : ∀ v, m key.bytes = some v → v.length ≤ room) :
    backend.Answers d m key room := by
  intro r
  have hm := h key
  change oveNvsRead d key room = .ok r ↔ _
  rcases nvsMakePath_cases key with hpath | hpath
  · rw [hpath] at hm
    rw [oveNvsRead, hpath, show m key.bytes = none from hm]
    simp [Except.bind]
  · rw [hpath] at hm
    rw [oveNvsRead, hpath, hm]
    have hfile : (Except.ok (ε := Rc) (pathOf key)).toOption.bind d = d (pathOf key) := rfl
    rw [hfile] at hm ⊢
    cases hd : d (pathOf key) with
    | none => simp [Except.bind, hd]
    | some v =>
      have hle := hroom v (hm.trans hd)
      simp [Except.bind, hd, Nat.min_eq_right hle, eq_comm]

end

end Nuttx

/-- On POSIX reads give the last value if all keys have fewer than 64 characters; on NuttX, if every
read has room for the value. -/
theorem backends_read_back (calls : List (Call × Unit)) :
    (Each Posix.backend.step Posix.ShortKeys (fun _ => none, fun _ => none) calls →
      Each Posix.backend.step Posix.backend.ReadsBack (fun _ => none, fun _ => none) calls) ∧
    (Each Nuttx.backend.step Nuttx.RoomyReads (fun _ => none, fun _ => none) calls →
      Each Nuttx.backend.step Nuttx.backend.ReadsBack (fun _ => none, fun _ => none) calls) := by
  constructor
  · intro h
    refine Posix.backend.reads_back (fun t m => Slots.Holds (Posix.view t) m) ?_ ?_ ?_
      Slots.holds_empty h
    · intro t m key data e ht hc
      exact Posix.write_holds ht (hc key data rfl) data
    · intro t m key e ht _
      exact Posix.erase_holds ht
    · intro t m key room e ht _
      exact Posix.read_answers ht room
  · intro h
    refine Nuttx.backend.reads_back Nuttx.Holds ?_ ?_ ?_ ?_ h
    · intro d m key data e hd _
      exact Nuttx.write_holds hd key data
    · intro d m key e hd _
      exact Nuttx.erase_holds hd key
    · intro d m key room e hd hc
      exact Nuttx.read_answers hd key (hc key room rfl)
    · intro key
      cases Nuttx.nvsMakePath key <;> rfl

def letters (n : ℕ) : CString :=
  ⟨replicate n 0x61, fun b hb => by rw [eq_of_mem_replicate hb]; decide⟩

theorem backends_read_back_wrong :
    Posix.backend.read (Posix.oveNvsWrite (fun _ => none) (letters 64) [1]).2 (letters 64) 1
        = .error .errNotFound ∧
      Posix.backend.read (Posix.oveNvsWrite (fun _ => none) (letters 64) [1]).2 (letters 63) 1
        = .ok (1, [1]) ∧
      Nuttx.backend.read (Nuttx.oveNvsWrite (fun _ => none) (letters 1) [1, 2, 3]).2 (letters 1) 2
        = .ok (2, [1, 2]) ∧
      (Posix.oveNvsWrite (fun _ => none) (letters 64) [1]).1 = .ok ∧
      (Nuttx.oveNvsWrite (fun _ => none) (letters 1) [1, 2, 3]).1 = .ok := by
  decide

end Overtos.Nvs
