import Overtos.Nvs.Backends

/-! Key-value storage on Zephyr: a value under the 15-bit hash of its key, the key itself under the
companion id. -/
namespace Overtos.Nvs.Zephyr
open CStr Word Runs Function

def keyStoreMax : ℕ := 64

abbrev Store := ℕ → Option Bytes

def valueId (key : CString) : ℕ :=
  let hash := key.bytes.foldl (fun hash c => wrap 16 (hash <<< 5 + hash + c.toNat)) 5381
  if hash % 2 ^ 15 = 0 then 1 else hash % 2 ^ 15

def keyId (key : CString) : ℕ := valueId key ||| 0x8000

def keyStoreForm (key : CString) : Bytes := key.bytes.take (keyStoreMax - 1) ++ [0]

def storedKey (record : Bytes) : Bytes := ofArray (record.take (keyStoreMax - 1))

def taken (st : Store) (key : CString) : Bool :=
  (st (keyId key)).any fun r => r ≠ [] && storedKey r ≠ ofArray (keyStoreForm key)

/-- `nvs_read` gives the full length of a record, and `-ENOENT` without one. -/
def oveNvsRead (st : Store) (key : CString) (room : ℕ) : Except Rc (ℕ × Bytes) :=
  match st (keyId key) with
  | none => .error .errNotFound
  | some r =>
    if r = [] then .error .errNotFound
    else if storedKey r ≠ ofArray (keyStoreForm key) then .error .errNotFound
    else
      match st (valueId key) with
      | none => .error .errNotFound
      | some v => .ok (v.length, v.take room)

/-- What the two calls of `nvs_write` in one write return; one that fails has no effect. -/
structure Writes where
  key : Rc
  value : Rc

def oveNvsWrite (w : Writes) (st : Store) (key : CString) (data : Bytes) : Rc × Store :=
  if taken st key then (.errNoMemory, st)
  else if w.key ≠ .ok then (w.key, st)
  else
    let st := update st (keyId key) (some (keyStoreForm key))
    if w.value ≠ .ok then (w.value, st)
    else (.ok, update st (valueId key) (some data))

def oveNvsErase (st : Store) (key : CString) : Rc × Store :=
  if taken st key then (.ok, st)
  else (.ok, update (update st (valueId key) none) (keyId key) none)

def backend : Backend Writes Store := ⟨oveNvsWrite, oveNvsErase, oveNvsRead⟩

theorem valueId_lt (key : CString) : valueId key < 2 ^ 15 := by
  rw [valueId]
  split_ifs
  · norm_num
  · exact Nat.mod_lt _ (by norm_num)

theorem keyId_eq (key : CString) : keyId key = 2 ^ 15 + valueId key := by
  have hor := shiftLeft_or (a := 1) (valueId_lt key)
  rw [keyId, Nat.or_comm]
  exact hor

theorem keyId_ne_valueId (key key' : CString) : keyId key ≠ valueId key' := by
  have hlt := valueId_lt key'
  rw [keyId_eq]
  omega

theorem keyId_inj {key key' : CString} (h : keyId key = keyId key') : valueId key = valueId key' := by
  rw [keyId_eq, keyId_eq] at h
  omega

theorem ofArray_keyStoreForm (key : CString) :
    ofArray (keyStoreForm key) = key.bytes.take (keyStoreMax - 1) :=
  ofArray_append_zero (fun b hb => key.noNul b (List.mem_of_mem_take hb)) []

theorem storedKey_keyStoreForm (key : CString) :
    storedKey (keyStoreForm key) = key.bytes.take (keyStoreMax - 1) := by
  have hs : ∀ b ∈ key.bytes.take (keyStoreMax - 1), b ≠ 0 :=
    fun b hb => key.noNul b (List.mem_of_mem_take hb)
  rw [storedKey, keyStoreForm, List.take_append, List.take_take, Nat.min_self]
  cases keyStoreMax - 1 - (key.bytes.take (keyStoreMax - 1)).length with
  | zero =>
    rw [ofArray, List.takeWhile_append_of_pos (by simpa using hs)]
    simp
  | succ n => exact ofArray_append_zero hs _

def Distinct (K : Set CString) : Prop :=
  ∀ k ∈ K, ∀ k' ∈ K, k.bytes.take (keyStoreMax - 1) = k'.bytes.take (keyStoreMax - 1) → k = k'

/-- A key has the value under its id if the companion record is its own. Companion records are
those of keys in use, and there is no value without one. -/
structure Holds (K : Set CString) (st : Store) (m : Contents) : Prop where
  value : ∀ k ∈ K, m k.bytes =
    if st (keyId k) = some (keyStoreForm k) then st (valueId k) else none
  record : ∀ k ∈ K, ∀ r, st (keyId k) = some r → ∃ k' ∈ K, r = keyStoreForm k'
  owned : ∀ k ∈ K, st (keyId k) = none → st (valueId k) = none

/-- Calls on keys of `K`, with values of at least one byte. -/
def Valid (K : Set CString) : Call → Prop
  | .write key data => key ∈ K ∧ data ≠ []
  | .erase key | .read key _ => key ∈ K

def Correct (s : Store × Contents) (c : Call × Writes) : Prop :=
  backend.ReadsBack s c ∧
    (∀ key room, c.1 = .read key room → ∀ e, oveNvsRead s.1 key room = .error e →
      e = .errNotFound) ∧
    ∀ key data, c.1 = .write key data → taken s.1 key = true →
      oveNvsWrite c.2 s.1 key data = (.errNoMemory, s.1)

section

variable {K : Set CString} (hK : Distinct K) {st : Store} {m : Contents} {key : CString}

include hK

theorem keyStoreForm_inj {k k' : CString} (hk : k ∈ K) (hk' : k' ∈ K)
    (h : keyStoreForm k = keyStoreForm k') : k = k' :=
  hK k hk k' hk' (List.append_cancel_right h)

theorem taken_eq_false_iff (h : Holds K st m) (hkey : key ∈ K) : taken st key = false ↔
    st (keyId key) = none ∨ st (keyId key) = some (keyStoreForm key) := by
  rw [taken, ofArray_keyStoreForm]
  cases hst : st (keyId key) with
  | none => simp
  | some r =>
    obtain ⟨k', hk', rfl⟩ := h.record key hkey r hst
    have hne : keyStoreForm k' ≠ [] := by simp [keyStoreForm]
    simp only [Option.any_some, storedKey_keyStoreForm, hne, ne_eq, not_false_eq_true, decide_true,
      Bool.true_and, decide_eq_false_iff_not, not_not, reduceCtorEq, Option.some.injEq, false_or]
    constructor
    · intro heq
      rw [hK k' hk' key hkey heq]
    · intro heq
      rw [keyStoreForm_inj hK hk' hkey heq]

theorem Holds.none_of_ne (h : Holds K st m) (hkey : key ∈ K) (hfree : taken st key = false)
    {k : CString} (hk : k ∈ K) (hid : keyId k = keyId key) (hne : k ≠ key) : m k.bytes = none := by
  rw [h.value k hk, hid, if_neg]
  rcases (taken_eq_false_iff hK h hkey).mp hfree with hst | hst
  · simp [hst]
  · rw [hst, Option.some.injEq]
    exact fun heq => hne (keyStoreForm_inj hK hkey hk heq).symm

theorem Holds.claim (h : Holds K st m) (hkey : key ∈ K) (hfree : taken st key = false) :
    Holds K (update st (keyId key) (some (keyStoreForm key))) m := by
  have hvalue (k : CString) : update st (keyId key) (some (keyStoreForm key)) (valueId k) =
      st (valueId k) := update_of_ne (keyId_ne_valueId key k).symm _ _
  refine ⟨fun k hk => ?_, fun k hk r hr => ?_, fun k hk hr => ?_⟩
  · rw [hvalue]
    by_cases hid : keyId k = keyId key
    · rw [hid, update_self]
      by_cases hne : k = key
      · subst hne
        rw [if_pos rfl, h.value k hk]
        rcases (taken_eq_false_iff hK h hk).mp hfree with hst | hst
        · rw [hst, if_neg (by simp), h.owned k hk hst]
        · rw [if_pos hst]
      · rw [h.none_of_ne hK hkey hfree hk hid hne, if_neg]
        rw [Option.some.injEq]
        exact fun heq => hne (keyStoreForm_inj hK hkey hk heq).symm
    · rw [update_of_ne hid]
      exact h.value k hk
  · by_cases hid : keyId k = keyId key
    · rw [hid, update_self] at hr
      cases hr
      exact ⟨key, hkey, rfl⟩
    · rw [update_of_ne hid] at hr
      exact h.record k hk r hr
  · by_cases hid : keyId k = keyId key
    · rw [hid, update_self] at hr
      cases hr
    · rw [update_of_ne hid] at hr
      rw [hvalue]
      exact h.owned k hk hr

theorem Holds.put (h : Holds K st m) (hrec : st (keyId key) = some (keyStoreForm key))
    (hkey : key ∈ K) (data : Bytes) :
    Holds K (update st (valueId key) (some data)) (update m key.bytes (some data)) := by
  have hrecord (k : CString) : update st (valueId key) (some data) (keyId k) = st (keyId k) :=
    update_of_ne (keyId_ne_valueId k key) _ _
  refine ⟨fun k hk => ?_, fun k hk r hr => ?_, fun k hk hr => ?_⟩
  · rw [hrecord]
    by_cases hne : k = key
    · subst hne
      rw [update_self, update_self, if_pos hrec]
    · have hbytes : k.bytes ≠ key.bytes := fun hb => hne (hK k hk key hkey (by rw [hb]))
      rw [update_of_ne hbytes, h.value k hk]
      by_cases hid : valueId k = valueId key
      · have hother : ¬ st (keyId k) = some (keyStoreForm k) := by
          rw [keyId_eq, hid, ← keyId_eq, hrec, Option.some.injEq]
          exact fun heq => hne (keyStoreForm_inj hK hkey hk heq).symm
        rw [if_neg hother, if_neg hother]
      · rw [update_of_ne hid]
  · rw [hrecord] at hr
    exact h.record k hk r hr
  · rw [hrecord] at hr
    rw [update_of_ne]
    · exact h.owned k hk hr
    · intro hid
      rw [keyId_eq, hid, ← keyId_eq, hrec] at hr
      cases hr

theorem Holds.erase (h : Holds K st m) (hkey : key ∈ K) (hfree : taken st key = false) :
    Holds K (update (update st (valueId key) none) (keyId key) none)
      (update m key.bytes none) := by
  have hother (k : CString) (hid : valueId k ≠ valueId key) :
      update (update st (valueId key) none) (keyId key) none (keyId k) = st (keyId k) ∧
        update (update st (valueId key) none) (keyId key) none (valueId k) = st (valueId k) := by
    rw [update_of_ne fun hk => hid (keyId_inj hk), update_of_ne (keyId_ne_valueId k key),
      update_of_ne (keyId_ne_valueId key k).symm, update_of_ne hid]
    exact ⟨rfl, rfl⟩
  have hsame (k : CString) (hid : valueId k = valueId key) :
      update (update st (valueId key) none) (keyId key) none (keyId k) = none ∧
        update (update st (valueId key) none) (keyId key) none (valueId k) = none := by
    rw [keyId_eq k, hid, ← keyId_eq, update_self, update_of_ne (keyId_ne_valueId key key).symm,
      update_self]
    exact ⟨rfl, rfl⟩
  refine ⟨fun k hk => ?_, fun k hk r hr => ?_, fun k hk hr => ?_⟩ <;>
    by_cases hid : valueId k = valueId key
  · rw [(hsame k hid).1, if_neg (by simp)]
    by_cases hne : k = key
    · rw [hne, update_self]
    · rw [update_of_ne fun hb => hne (hK k hk key hkey (by rw [hb]))]
      exact h.none_of_ne hK hkey hfree hk (by rw [keyId_eq, hid, ← keyId_eq]) hne
  · rw [(hother k hid).1, (hother k hid).2, update_of_ne fun hb => hid (by rw [hK k hk key hkey (by rw [hb])])]
    exact h.value k hk
  · rw [(hsame k hid).1] at hr
    cases hr
  · rw [(hother k hid).1] at hr
    exact h.record k hk r hr
  · exact (hsame k hid).2
  · rw [(hother k hid).1] at hr
    rw [(hother k hid).2]
    exact h.owned k hk hr

theorem write_holds (h : Holds K st m) (hkey : key ∈ K) (w : Writes) (data : Bytes) :
    Holds K (oveNvsWrite w st key data).2
      (if (oveNvsWrite w st key data).1 = .ok then update m key.bytes (some data) else m) := by
  unfold oveNvsWrite
  split_ifs with htaken hk hv <;> simp_all
  · exact h.claim hK hkey htaken
  · exact (h.claim hK hkey htaken).put hK (update_self ..) hkey data

theorem erase_holds (h : Holds K st m) (hkey : key ∈ K) :
    Holds K (oveNvsErase st key).2 (update m key.bytes none) := by
  unfold oveNvsErase
  split_ifs with htaken
  · have hnone : m key.bytes = none := by
      rw [h.value key hkey, if_neg]
      intro hst
      simp [(taken_eq_false_iff hK h hkey).mpr (.inr hst)] at htaken
    rwa [update_eq_self_iff.mpr hnone.symm]
  · exact h.erase hK hkey (by simpa using htaken)

theorem read_eq (h : Holds K st m) (hkey : key ∈ K) (room : ℕ) : oveNvsRead st key room =
      (m key.bytes).elim (.error .errNotFound) fun v => .ok (v.length, v.take room) := by
  rw [h.value key hkey, oveNvsRead, ofArray_keyStoreForm]
  cases hst : st (keyId key) with
  | none => rfl
  | some r =>
    obtain ⟨k', hk', rfl⟩ := h.record key hkey r hst
    have hne : keyStoreForm k' ≠ [] := by simp [keyStoreForm]
    simp only [storedKey_keyStoreForm]
    by_cases heq : k' = key
    · subst heq
      cases st (valueId k') <;> simp [hne]
    · have hform : keyStoreForm k' ≠ keyStoreForm key := fun hf =>
        heq (keyStoreForm_inj hK hk' hkey hf)
      have htake : k'.bytes.take (keyStoreMax - 1) ≠ key.bytes.take (keyStoreMax - 1) := fun ht =>
        heq (hK k' hk' key hkey ht)
      simp [hne, hform, htake]

theorem each_correct {s : Store × Contents} (hs : Holds K s.1 s.2) {calls : List (Call × Writes)}
    (h : ∀ c ∈ calls, Valid K c.1) : Each backend.step Correct s calls := by
  induction calls generalizing s with
  | nil => trivial
  | cons c calls ih =>
    intro t ht
    have hrest := fun ht => ih (s := t) ht fun c hc => h c (List.mem_cons_of_mem _ hc)
    have hc := h c List.mem_cons_self
    obtain ⟨c, w⟩ := c
    cases c with
    | write key data =>
      cases ht
      refine ⟨⟨by simp [Backend.ReadsBack], by simp, fun key data h htaken => ?_⟩,
        hrest (write_holds hK hs hc.1 w data)⟩
      simp [oveNvsWrite, htaken]
    | erase key =>
      cases ht
      exact ⟨⟨by simp [Backend.ReadsBack], by simp, by simp⟩, hrest (erase_holds hK hs hc)⟩
    | read key room =>
      cases ht
      refine ⟨⟨fun key' room' h => ?_, fun key' room' h e he => ?_, by simp⟩, hrest hs⟩
      · cases h
        intro r
        change oveNvsRead s.1 key room = .ok r ↔ _
        rw [read_eq hK hs hc]
        cases s.2 key.bytes <;> simp [eq_comm]
      · cases h
        rw [read_eq hK hs hc] at he
        cases hm : s.2 key.bytes <;> simp_all

end

/-- Reads never depend on which keys share an id: each finds the last value of its own key, and a
write that meets another key's record changes nothing. -/
theorem zephyr_reads_back {K : Set CString} (hK : Distinct K) {calls : List (Call × Writes)}
    (h : ∀ c ∈ calls, Valid K c.1) :
    Each backend.step Correct (fun _ => none, fun _ => none) calls :=
  each_correct hK ⟨by simp, by simp, by simp⟩ h

theorem zephyr_reads_back_two_keys :
    Each backend.step Correct (fun _ => none, fun _ => none)
      [(.write (letters 1) [7], ⟨.ok, .ok⟩), (.write (letters 2) [8], ⟨.ok, .errIo⟩),
        (.erase (letters 1), ⟨.ok, .ok⟩), (.read (letters 2) 4, ⟨.ok, .ok⟩)] := by
  apply zephyr_reads_back (K := {letters 1, letters 2})
  · rintro k (rfl | rfl) k' (rfl | rfl) h
    · rfl
    · exact absurd h (by decide)
    · exact absurd h (by decide)
    · rfl
  · simp [Valid]

end Overtos.Nvs.Zephyr
