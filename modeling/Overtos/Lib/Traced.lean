import Overtos.Lib.CString
import Overtos.Lib.Memory

/-! Programs over a flat memory that log every range they touch; `Safe` and `Post` are the exact
conditions for staying inside. -/
namespace Traced
open Memory CStr List

inductive Access where
  | read (a n : ℕ)
  | write (a n : ℕ)
  deriving DecidableEq, Repr

structure Outcome (ε α : Type) where
  result : Except ε α
  mem : Mem
  log : List Access

/-- A program may stop early with an `ε`; its memory effects and its log remain. -/
def Prog (ε α : Type) := Mem → Outcome ε α

variable {ε α β σ : Type}

protected def Prog.pure (a : α) : Prog ε α := fun m => ⟨.ok a, m, []⟩

protected def Prog.bind (c : Prog ε α) (f : α → Prog ε β) : Prog ε β := fun m =>
  match c m with
  | ⟨.ok a, m', log⟩ =>
    match f a m' with
    | ⟨r, m'', log'⟩ => ⟨r, m'', log ++ log'⟩
  | ⟨.error e, m', log⟩ => ⟨.error e, m', log⟩

instance : Monad (Prog ε) where
  pure := Prog.pure
  bind := Prog.bind

def stop (e : ε) : Prog ε α := fun m => ⟨.error e, m, []⟩

def require (p : Prop) [Decidable p] (e : ε) : Prog ε Unit := if p then pure () else stop e

abbrev Record := ℕ → ℕ → ℕ

def fetch (a n : ℕ) : Prog ε Record :=
  fun m => ⟨.ok fun k w => load m (a + k) w, m, [.read a n]⟩

def get (a k : ℕ) : Prog ε ℕ := fun m => ⟨.ok (load m a k), m, [.read a k]⟩

def put (a k v : ℕ) : Prog ε Unit := fun m => ⟨.ok (), store m a k v, [.write a k]⟩

def memset (a n : ℕ) (c : UInt8) : Prog ε Unit := fun m => ⟨.ok (), fill m a n c, [.write a n]⟩

def memcpy (dst src n : ℕ) : Prog ε Unit :=
  fun m => ⟨.ok (), copy m dst src n, [.read src n, .write dst n]⟩

def strEq (p : ℕ) : Bytes → Prog ε Bool
  | [] => do
    let c ← get p 1
    pure (c == 0)
  | b :: s => do
    let c ← get p 1
    if c = b.toNat then strEq (p + 1) s else pure false

def agree (m : Mem) (p : ℕ) : Bytes → ℕ
  | [] => 0
  | b :: s => if m p = b then agree m (p + 1) s + 1 else 0

def loop (f : ℕ → σ → Prog ε σ) : ℕ → ℕ → σ → Prog ε σ
  | 0, _, x => pure x
  | n + 1, i, x => do
    let x ← f i x
    loop f n (i + 1) x

def rounds (f : ℕ → σ → Prog ε σ) : ℕ → ℕ → σ → Mem → List (ℕ × σ × Mem)
  | 0, _, _, _ => []
  | n + 1, i, x, m => (i, x, m) ::
    match f i x m with
    | ⟨.ok x', m', _⟩ => rounds f n (i + 1) x' m'
    | ⟨.error _, _, _⟩ => []

/-- A loop with a condition. It stops with `e` if it has not ended after the given turns. -/
def repeatWhile (e : ε) (cond : σ → Prop) [DecidablePred cond] (body : σ → Prog ε σ) :
    ℕ → σ → Prog ε σ
  | 0, x => if cond x then stop e else pure x
  | n + 1, x =>
    if cond x then do
      let x ← body x
      repeatWhile e cond body n x
    else pure x

def turns (cond : σ → Prop) [DecidablePred cond] (body : σ → Prog ε σ) :
    ℕ → σ → Mem → List (σ × Mem)
  | 0, _, _ => []
  | n + 1, x, m =>
    if cond x then (x, m) ::
      match body x m with
      | ⟨.ok x', m', _⟩ => turns cond body n x' m'
      | ⟨.error _, _, _⟩ => []
    else []

def Safe (ok : Access → Prop) (c : Prog ε α) (m : Mem) : Prop := ∀ e ∈ (c m).log, ok e

def Post (c : Prog ε α) (m : Mem) (Q : α → Mem → Prop) : Prop :=
  ∀ a, (c m).result = .ok a → Q a (c m).mem

def Stops (c : Prog ε α) (m : Mem) (E : ε → Prop) : Prop := ∀ e, (c m).result = .error e → E e

def Ends (c : Prog ε α) (m : Mem) (Q : α → Mem → Prop) : Prop :=
  ∃ a, (c m).result = .ok a ∧ Q a (c m).mem

section
variable {ok : Access → Prop} {m : Mem} {c : Prog ε α} {f : α → Prog ε β}
  {Q R : α → Mem → Prop} {S : β → Mem → Prop}

variable {a : α} {e : ε} {E : ε → Prop} {p : Prop} {d : Prog ε α}

@[simp] theorem safe_pure : Safe ok (pure a : Prog ε α) m :=
  fun _ h => absurd h not_mem_nil

@[simp] theorem safe_stop : Safe ok (stop e : Prog ε α) m :=
  fun _ h => absurd h not_mem_nil

@[simp] theorem post_pure : Post (pure a : Prog ε α) m Q ↔ Q a m :=
  ⟨fun h => h a rfl, fun h _ hb => by cases hb; exact h⟩

@[simp] theorem post_stop : Post (stop e : Prog ε α) m Q :=
  fun _ h => by cases h

@[simp] theorem post_true : Post c m fun _ _ => True := fun _ _ => trivial

@[simp] theorem post_bind : Post (c >>= f) m S ↔ Post c m fun a m' => Post (f a) m' S := by
  change Post (Prog.bind c f) m S ↔ _
  unfold Post Prog.bind
  rcases c m with ⟨e | a, m', log⟩
  · simp
  · simp

@[simp] theorem safe_bind :
    Safe ok (c >>= f) m ↔ Safe ok c m ∧ Post c m fun a m' => Safe ok (f a) m' := by
  change Safe ok (Prog.bind c f) m ↔ _
  unfold Safe Post Prog.bind
  rcases c m with ⟨e | a, m', log⟩
  · simp
  · simp only [mem_append, Except.ok.injEq, forall_eq']
    exact ⟨fun h => ⟨fun e he => h e (.inl he), fun e he => h e (.inr he)⟩,
      fun h e he => he.elim (h.1 e) (h.2 e)⟩

@[simp] theorem stops_pure : Stops (pure a : Prog ε α) m E :=
  fun _ h => by cases h

@[simp] theorem stops_stop : Stops (stop e : Prog ε α) m E ↔ E e :=
  ⟨fun h => h e rfl, fun h _ hb => by cases hb; exact h⟩

@[simp] theorem stops_bind :
    Stops (c >>= f) m E ↔ Stops c m E ∧ Post c m fun a m' => Stops (f a) m' E := by
  change Stops (Prog.bind c f) m E ↔ _
  unfold Stops Post Prog.bind
  rcases c m with ⟨e | a, m', log⟩
  · simp
  · simp

theorem ok_of_toBool {r : Except ε α} (h : r.toBool = true) : ∃ a, r = .ok a := by
  cases r with
  | error e => cases h
  | ok a => exact ⟨a, rfl⟩

theorem Post.mono (h : Post c m Q) (hQ : ∀ a m', Q a m' → R a m') : Post c m R :=
  fun a ha => hQ a _ (h a ha)

@[simp] theorem ends_pure : Ends (pure a : Prog ε α) m Q ↔ Q a m :=
  ⟨fun ⟨_, hb, hq⟩ => Except.ok.inj hb ▸ hq, fun hq => ⟨a, rfl, hq⟩⟩

@[simp] theorem ends_stop : Ends (stop e : Prog ε α) m Q ↔ False := by
  simp [Ends, stop]

@[simp] theorem ends_bind : Ends (c >>= f) m S ↔ Ends c m fun a m' => Ends (f a) m' S := by
  change Ends (Prog.bind c f) m S ↔ _
  unfold Ends Prog.bind
  rcases c m with ⟨e | a, m', log⟩
  · simp
  · simp

theorem Ends.mono (h : Ends c m Q) (hQ : ∀ a m', Q a m' → R a m') : Ends c m R := by
  obtain ⟨a, ha, hq⟩ := h
  exact ⟨a, ha, hQ a _ hq⟩

theorem post_iff_ends : Post c m Q ↔ (Ends c m (fun _ _ => True) → Ends c m Q) := by
  constructor
  · rintro h ⟨a, ha, -⟩
    exact ⟨a, ha, h a ha⟩
  · intro h a ha
    obtain ⟨b, hb, hq⟩ := h ⟨a, ha, trivial⟩
    cases ha.symm.trans hb
    exact hq

theorem Post.congr (h : Post c m fun a m' => Q a m' ↔ R a m') : Post c m Q ↔ Post c m R :=
  ⟨fun hq a ha => (h a ha).mp (hq a ha), fun hr a ha => (h a ha).mpr (hr a ha)⟩

theorem Post.spins (h : Post c m fun _ _ => False) (hs : Stops c m fun e' => e' = e) :
    ¬Stops c m fun e' => e' ≠ e := by
  intro hne
  cases hr : (c m).result with
  | ok a => exact h a hr
  | error e' => exact hne e' hr (hs e' hr)

@[simp] theorem safe_ite [Decidable p] :
    Safe ok (if p then c else d) m ↔ (p → Safe ok c m) ∧ (¬p → Safe ok d m) := by
  by_cases h : p
  · simp [h]
  · simp [h]

@[simp] theorem stops_ite [Decidable p] :
    Stops (if p then c else d) m E ↔ (p → Stops c m E) ∧ (¬p → Stops d m E) := by
  by_cases h : p
  · simp [h]
  · simp [h]

@[simp] theorem post_ite [Decidable p] :
    Post (if p then c else d) m Q ↔ (p → Post c m Q) ∧ (¬p → Post d m Q) := by
  by_cases h : p
  · simp [h]
  · simp [h]

@[simp] theorem ends_ite [Decidable p] :
    Ends (if p then c else d) m Q ↔ (p → Ends c m Q) ∧ (¬p → Ends d m Q) := by
  by_cases h : p
  · simp [h]
  · simp [h]

@[simp] theorem ends_require [Decidable p] {Q : Unit → Mem → Prop} :
    Ends (require p e) m Q ↔ p ∧ Q () m := by
  unfold require
  by_cases h : p
  · rw [if_pos h, ends_pure, and_iff_right h]
  · rw [if_neg h, ends_stop, false_iff]
    exact fun hp => h hp.1

@[simp] theorem safe_require [Decidable p] : Safe ok (require p e) m := by
  unfold require
  simp

@[simp] theorem stops_require [Decidable p] : Stops (require p e) m E ↔ (¬p → E e) := by
  unfold require
  simp

@[simp] theorem post_require [Decidable p] {Q : Unit → Mem → Prop} :
    Post (require p e) m Q ↔ (p → Q () m) := by
  unfold require
  simp

end

section
variable {ok : Access → Prop} {m : Mem} {a k n v dst src : ℕ} {x : UInt8}

@[simp] theorem safe_fetch : Safe ok (fetch a n : Prog ε Record) m ↔ ok (.read a n) := by
  simp [Safe, fetch]

@[simp] theorem post_fetch {Q : Record → Mem → Prop} :
    Post (fetch a n : Prog ε Record) m Q ↔ Q (fun k w => load m (a + k) w) m := by
  simp [Post, fetch]

variable {E : ε → Prop} {Q : Unit → Mem → Prop}

@[simp] theorem stops_get : Stops (get a k : Prog ε ℕ) m E :=
  fun _ h => by cases h

@[simp] theorem stops_put : Stops (put a k v : Prog ε Unit) m E :=
  fun _ h => by cases h

@[simp] theorem stops_memset : Stops (memset a n x : Prog ε Unit) m E :=
  fun _ h => by cases h

@[simp] theorem stops_memcpy : Stops (memcpy dst src n : Prog ε Unit) m E :=
  fun _ h => by cases h

@[simp] theorem safe_get : Safe ok (get a k : Prog ε ℕ) m ↔ ok (.read a k) := by
  simp [Safe, get]

@[simp] theorem post_get {Q : ℕ → Mem → Prop} :
    Post (get a k : Prog ε ℕ) m Q ↔ Q (load m a k) m := by
  simp [Post, get]

@[simp] theorem safe_put : Safe ok (put a k v : Prog ε Unit) m ↔ ok (.write a k) := by
  simp [Safe, put]

@[simp] theorem post_put : Post (put a k v : Prog ε Unit) m Q ↔ Q () (store m a k v) := by
  exact ⟨fun h => h () rfl, fun h _ _ => h⟩

@[simp] theorem ends_fetch {Q : Record → Mem → Prop} :
    Ends (fetch a n : Prog ε Record) m Q ↔ Q (fun off w => load m (a + off) w) m :=
  ⟨fun ⟨_, hb, hq⟩ => Except.ok.inj hb ▸ hq, fun hq => ⟨_, rfl, hq⟩⟩

@[simp] theorem ends_get {Q : ℕ → Mem → Prop} : Ends (get a k : Prog ε ℕ) m Q ↔ Q (load m a k) m :=
  ⟨fun ⟨_, hb, hq⟩ => Except.ok.inj hb ▸ hq, fun hq => ⟨_, rfl, hq⟩⟩

@[simp] theorem ends_put : Ends (put a k v : Prog ε Unit) m Q ↔ Q () (store m a k v) :=
  ⟨fun ⟨_, _, hq⟩ => hq, fun hq => ⟨(), rfl, hq⟩⟩

@[simp] theorem safe_memset : Safe ok (memset a n x : Prog ε Unit) m ↔ ok (.write a n) := by
  simp [Safe, memset]

@[simp] theorem post_memset : Post (memset a n x : Prog ε Unit) m Q ↔ Q () (fill m a n x) := by
  exact ⟨fun h => h () rfl, fun h _ _ => h⟩

@[simp] theorem safe_memcpy :
    Safe ok (memcpy dst src n : Prog ε Unit) m ↔ ok (.read src n) ∧ ok (.write dst n) := by
  simp [Safe, memcpy]

@[simp] theorem post_memcpy :
    Post (memcpy dst src n : Prog ε Unit) m Q ↔ Q () (copy m dst src n) := by
  exact ⟨fun h => h () rfl, fun h _ _ => h⟩

end

section
variable {ok : Access → Prop} {m : Mem} {p : ℕ} {s : Bytes}

@[simp] theorem safe_strEq :
    Safe ok (strEq p s : Prog ε Bool) m ↔ ∀ i ≤ agree m p s, ok (.read (p + i) 1) := by
  induction s generalizing p with
  | nil => simp [strEq, agree]
  | cons b s ih =>
    by_cases hb : m p = b
    · simp only [strEq, agree, safe_bind, safe_get, post_get, load_one, safe_ite, safe_pure,
        hb, ih, if_true, not_true, false_imp_iff, and_true, true_imp_iff]
      constructor
      · rintro ⟨h0, h⟩ i hi
        cases i with
        | zero => exact h0
        | succ i =>
          have := h i (by omega)
          rwa [Nat.add_assoc, Nat.add_comm 1] at this
      · intro h
        refine ⟨h 0 (Nat.zero_le _), fun i hi => ?_⟩
        have := h (i + 1) (by omega)
        rwa [Nat.add_comm i 1, ← Nat.add_assoc] at this
    · simp [strEq, agree, UInt8.toNat_inj, hb]

@[simp] theorem post_strEq {Q : Bool → Mem → Prop} : Post (strEq p s : Prog ε Bool) m Q ↔
      Q (decide (agree m p s = s.length ∧ m (p + s.length) = 0)) m := by
  induction s generalizing p with
  | nil =>
    have h : ((m p).toNat == 0) = decide (m p = 0) := by
      rw [Bool.eq_iff_iff]
      simp [← UInt8.toNat_inj]
    simp [strEq, agree, h]
  | cons b s ih =>
    by_cases hb : m p = b
    · simp [strEq, agree, hb, ih, Nat.add_assoc, Nat.add_comm 1]
    · simp [strEq, agree, UInt8.toNat_inj, hb]

theorem agree_le_of_nul (hs : ∀ b ∈ s, b ≠ 0) {a : ℕ} (hp : p ≤ a) (ha : m a = 0) :
    agree m p s ≤ a - p := by
  induction s generalizing p with
  | nil => exact Nat.zero_le _
  | cons b s ih =>
    rw [agree]
    split_ifs with h
    · have hne : p ≠ a := by
        rintro rfl
        exact hs b mem_cons_self (h.symm.trans ha)
      have := ih (fun c hc => hs c (mem_cons_of_mem _ hc)) (p := p + 1) (by omega)
      omega
    · exact Nat.zero_le _

theorem le_agree_of_copy (n : ℕ) (s : Bytes) :
    n ≤ agree m p ((range n).map (fun i => m (p + i)) ++ s) := by
  induction n generalizing p with
  | zero => exact Nat.zero_le _
  | succ n ih =>
    have h := ih (p := p + 1)
    simp only [range_succ_eq_map, map_cons, map_map, Nat.add_zero, cons_append, agree, if_true]
    have he : (fun i => m (p + i)) ∘ Nat.succ = fun i => m (p + 1 + i) := by
      funext i
      simp only [Function.comp_apply, Nat.succ_eq_add_one, Nat.add_assoc, Nat.add_comm 1]
    rw [he]
    omega

end

section
variable {ok : Access → Prop} {f : ℕ → σ → Prog ε σ}

variable {I : ℕ → σ → Mem → Prop} {n i : ℕ} {x : σ} {m : Mem}

theorem post_loop (step : ∀ i x m, I i x m → Post (f i x) m (I (i + 1))) (h : I i x m) :
    Post (loop f n i x) m (I (i + n)) := by
  induction n generalizing i x m with
  | zero => simpa [loop] using h
  | succ n ih =>
    rw [loop, post_bind]
    refine (step i x m h).mono fun y m' hy => ?_
    have := ih hy
    rwa [Nat.add_right_comm, Nat.add_assoc] at this

theorem stops_loop {E : ε → Prop} (step : ∀ i x m, Stops (f i x) m E) :
    Stops (loop f n i x) m E := by
  induction n generalizing i x m with
  | zero => exact stops_pure
  | succ n ih =>
    rw [loop, stops_bind]
    exact ⟨step i x m, fun _ _ => ih⟩

theorem safe_loop :
    Safe ok (loop f n i x) m ↔ ∀ r ∈ rounds f n i x m, Safe ok (f r.1 r.2.1) r.2.2 := by
  induction n generalizing i x m with
  | zero => simp [loop, rounds]
  | succ n ih =>
    rw [loop, safe_bind, rounds, forall_mem_cons, Post]
    rcases f i x m with ⟨e | y, m', log⟩
    · simp
    · simp [ih]

theorem rounds_inv (step : ∀ i x m, I i x m → Post (f i x) m (I (i + 1))) (h : I i x m) :
    ∀ r ∈ rounds f n i x m, (r.1 < i + n ∧ i ≤ r.1) ∧ I r.1 r.2.1 r.2.2 := by
  induction n generalizing i x m with
  | zero => exact fun _ hr => absurd hr not_mem_nil
  | succ n ih =>
    have hs := step i x m h
    rw [rounds, forall_mem_cons]
    refine ⟨⟨⟨by omega, le_rfl⟩, h⟩, ?_⟩
    rw [Post] at hs
    generalize f i x m = o at hs ⊢
    rcases o with ⟨e | y, m', log⟩
    · exact fun _ hr => absurd hr not_mem_nil
    · intro r hr
      obtain ⟨hb, hI⟩ := ih (hs y rfl) r hr
      exact ⟨⟨by omega, by omega⟩, hI⟩

theorem rounds_end (h : Ends (loop f n i x) m fun _ _ => True) :
    ∀ r ∈ rounds f n i x m, Ends (f r.1 r.2.1) r.2.2 fun _ _ => True := by
  induction n generalizing i x m with
  | zero => exact fun _ hr => absurd hr not_mem_nil
  | succ n ih =>
    rw [loop, ends_bind] at h
    rw [rounds, forall_mem_cons]
    refine ⟨h.mono fun _ _ _ => trivial, ?_⟩
    unfold Ends at h
    generalize f i x m = o at h ⊢
    rcases o with ⟨e | y, m', log⟩
    · exact fun _ hr => absurd hr not_mem_nil
    · obtain ⟨z, hz, hrest⟩ := h
      cases hz
      exact ih hrest

theorem post_loop_rounds {I : σ → Prop} {T : σ → List α → σ → Prop} {g : ℕ × σ × Mem → List α}
    (hnil : ∀ x, T x [] x) (happend : ∀ {x y z as bs}, T x as y → T y bs z → T x (as ++ bs) z)
    (step : ∀ i x m, I x → Post (f i x) m fun y _ => I y ∧ T x (g (i, x, m)) y) (hx : I x) :
    Post (loop f n i x) m fun y _ => T x ((rounds f n i x m).flatMap g) y := by
  induction n generalizing i x m with
  | zero => exact post_pure.mpr (hnil x)
  | succ n ih =>
    have hs := step i x m hx
    rw [loop, rounds, post_bind]
    unfold Post at hs ⊢
    generalize f i x m = o at hs ⊢
    rcases o with ⟨e | y, m', log⟩
    · exact fun _ hy => by cases hy
    · rintro _ ⟨⟩ z hz
      obtain ⟨hy, ht⟩ := hs y rfl
      exact happend ht (ih hy z hz)

theorem length_rounds_le : (rounds f n i x m).length ≤ n := by
  induction n generalizing i x m with
  | zero => exact le_rfl
  | succ n ih =>
    rw [rounds, length_cons]
    rcases f i x m with ⟨_ | y, m', log⟩
    · exact Nat.succ_le_succ (Nat.zero_le n)
    · exact Nat.succ_le_succ ih

theorem length_rounds (hf : ∀ i x m, Stops (f i x) m fun _ => False) :
    (rounds f n i x m).length = n := by
  induction n generalizing i x m with
  | zero => rfl
  | succ n ih =>
    have hstop := hf i x m
    rw [rounds, length_cons]
    unfold Stops at hstop
    generalize f i x m = o at hstop ⊢
    rcases o with ⟨e | y, m', log⟩
    · exact (hstop e rfl).elim
    · exact congrArg (· + 1) ih

end

section
variable {ok : Access → Prop} {e : ε} {cond : σ → Prop} [DecidablePred cond]
  {body : σ → Prog ε σ}

variable {n j : ℕ} {x z : σ} {m : Mem} {I : σ → Mem → Prop} {E : ε → Prop}

theorem repeatWhile_of_not (h : ¬cond x) : repeatWhile e cond body n x = pure x := by
  cases n with
  | zero => rw [repeatWhile, if_neg h]
  | succ n => rw [repeatWhile, if_neg h]

inductive Path (cond : σ → Prop) (body : σ → Prog ε σ) :
    σ → Mem → List (σ × Mem) → σ → Mem → Prop
  | done {x : σ} {m : Mem} (h : ¬cond x) : Path cond body x m [] x m
  | turn {x y z : σ} {m n : Mem} {ts : List (σ × Mem)} (hc : cond x)
    (hr : (body x m).result = .ok y) (h : Path cond body y (body x m).mem ts z n) :
    Path cond body x m ((x, m) :: ts) z n

theorem path_of_repeatWhile (h : (repeatWhile e cond body n x m).result = .ok z) :
    Path cond body x m (turns cond body n x m) z (repeatWhile e cond body n x m).mem := by
  induction n generalizing x m with
  | zero =>
    rw [repeatWhile] at h ⊢
    by_cases hc : cond x
    · rw [if_pos hc] at h
      cases h
    · rw [if_neg hc] at h ⊢
      cases h
      exact .done hc
  | succ n ih =>
    rw [repeatWhile] at h ⊢
    rw [turns]
    by_cases hc : cond x
    · rw [if_pos hc] at h ⊢
      rw [if_pos hc]
      change (Prog.bind _ _ m).result = _ at h
      change Path _ _ _ _ _ _ (Prog.bind _ _ m).mem
      unfold Prog.bind at h ⊢
      cases hb : body x m with
      | mk r m' log =>
        rw [hb] at h
        cases r with
        | error e => cases h
        | ok y =>
          refine .turn hc (by rw [hb]) ?_
          rw [hb]
          exact ih h
    · rw [if_neg hc] at h ⊢
      rw [if_neg hc]
      cases h
      exact .done hc

omit [DecidablePred cond] in
theorem Path.keeps {V : σ → Mem → Prop} {n : Mem} {ts : List (σ × Mem)}
    (h : Path cond body x m ts z n)
    (step : ∀ t ∈ ts, cond t.1 → V t.1 t.2 → Post (body t.1) t.2 V) (hx : V x m) :
    (∀ t ∈ ts, V t.1 t.2) ∧ V z n := by
  induction h with
  | done _ => exact ⟨fun _ ht => absurd ht not_mem_nil, hx⟩
  | turn hc hr _ ih =>
    rw [forall_mem_cons] at step ⊢
    obtain ⟨hts, hz⟩ := ih step.2 (step.1 hc hx _ hr)
    exact ⟨⟨hx, hts⟩, hz⟩

omit [DecidablePred cond] in
theorem Path.after {n : Mem} {pre post : List (σ × Mem)} {t : σ × Mem}
    (h : Path cond body x m (pre ++ t :: post) z n) :
    cond t.1 ∧ ∃ y, (body t.1 t.2).result = .ok y ∧
      Path cond body y (body t.1 t.2).mem post z n := by
  induction pre generalizing x m with
  | nil =>
    cases h with
    | turn hc hr h => exact ⟨hc, _, hr, h⟩
  | cons s pre ih =>
    cases h with
    | turn _ _ h => exact ih h

theorem post_repeatWhile (step : ∀ x m, cond x → I x m → Post (body x) m I) (h : I x m) :
    Post (repeatWhile e cond body n x) m fun y m' => I y m' ∧ ¬cond y := by
  induction n generalizing x m with
  | zero =>
    rw [repeatWhile, post_ite]
    exact ⟨fun _ => post_stop, fun hc => post_pure.mpr ⟨h, hc⟩⟩
  | succ n ih =>
    rw [repeatWhile, post_ite, post_bind]
    exact ⟨fun hc => (step x m hc h).mono fun _ _ hy => ih hy,
      fun hc => post_pure.mpr ⟨h, hc⟩⟩

theorem stops_repeatWhile (he : E e) (step : ∀ x m, Stops (body x) m E) :
    Stops (repeatWhile e cond body n x) m E := by
  induction n generalizing x m with
  | zero =>
    rw [repeatWhile, stops_ite]
    exact ⟨fun _ => stops_stop.mpr he, fun _ => stops_pure⟩
  | succ n ih =>
    rw [repeatWhile, stops_ite, stops_bind]
    exact ⟨fun _ => ⟨step x m, fun _ _ => ih⟩, fun _ => stops_pure⟩

theorem stops_repeatWhile_within {I : ℕ → σ → Mem → Prop}
    (step : ∀ j x m, cond x → I j x m → Post (body x) m (I (j + 1)) ∧ Stops (body x) m E)
    (h : I j x m) (hend : ∃ k, j ≤ k ∧ k ≤ j + n ∧ ∀ y m', I k y m' → ¬cond y) :
    Stops (repeatWhile e cond body n x) m E := by
  obtain ⟨k, hjk, hk, hno⟩ := hend
  induction n generalizing j x m with
  | zero =>
    obtain rfl : j = k := by omega
    rw [repeatWhile, if_neg (hno x m h)]
    exact stops_pure
  | succ n ih =>
    rw [repeatWhile, stops_ite, stops_bind]
    refine ⟨fun hc => ?_, fun _ => stops_pure⟩
    have hne : j ≠ k := by
      rintro rfl
      exact hno x m h hc
    obtain ⟨hpost, hstops⟩ := step j x m hc h
    exact ⟨hstops, fun y hy => ih (hpost y hy) (by omega) (by omega)⟩

theorem post_repeatWhile_never {I : ℕ → σ → Mem → Prop}
    (step : ∀ j x m, cond x → I j x m → Post (body x) m (I (j + 1))) (h : I j x m)
    (hall : ∀ k, j ≤ k → k ≤ j + n → ∀ y m', I k y m' → cond y) :
    Post (repeatWhile e cond body n x) m fun _ _ => False := by
  induction n generalizing j x m with
  | zero =>
    rw [repeatWhile, if_pos (hall j le_rfl (by omega) x m h)]
    exact post_stop
  | succ n ih =>
    have hc := hall j le_rfl (by omega) x m h
    rw [repeatWhile, if_pos hc, post_bind]
    exact (step j x m hc h).mono fun y m' hy => ih hy fun k hjk hk => hall k (by omega) (by omega)

theorem post_repeatWhile_sum {f : σ → ℕ} {g : σ × Mem → ℕ}
    (step : ∀ x m, cond x → I x m → Post (body x) m fun y m' => I y m' ∧ f y = f x + g (x, m))
    (h : I x m) : Post (repeatWhile e cond body n x) m fun y _ =>
      f y = f x + ((turns cond body n x m).map g).sum := by
  induction n generalizing x m with
  | zero =>
    rw [repeatWhile, post_ite]
    exact ⟨fun _ => post_stop, fun _ => post_pure.mpr rfl⟩
  | succ n ih =>
    rw [repeatWhile, post_ite, post_bind, turns]
    refine ⟨fun hc => ?_, fun hc => ?_⟩
    · have hs := step x m hc h
      rw [if_pos hc]
      unfold Post at hs ⊢
      generalize body x m = o at hs ⊢
      rcases o with ⟨_ | y, m', log⟩
      · exact fun _ h => by cases h
      · intro y' hy' z hz
        cases hy'
        obtain ⟨hI, hf⟩ := hs y rfl
        have hsum := ih hI z hz
        dsimp only
        rw [hsum, hf, map_cons, sum_cons, Nat.add_assoc]
    · rw [if_neg hc]
      exact post_pure.mpr rfl

end

variable {e : ε}

def Extends (e : ε) (c c' : Prog ε α) : Prop := ∀ m, (c m).result ≠ .error e → c' m = c m

theorem Extends.refl (c : Prog ε α) : Extends e c c := fun _ _ => rfl

theorem Extends.bind {c c' : Prog ε α} {f f' : α → Prog ε β} (hc : Extends e c c')
    (hf : ∀ a, Extends e (f a) (f' a)) : Extends e (c >>= f) (c' >>= f') := by
  intro m hm
  change (Prog.bind c f m).result ≠ _ at hm
  change Prog.bind c' f' m = Prog.bind c f m
  unfold Prog.bind at hm ⊢
  have hcm := hc m
  rcases hr : c m with ⟨r | a, m₁, log₁⟩
  · rw [hr] at hm hcm
    rw [hcm fun h => hm (by cases h; rfl)]
  · rw [hr] at hm hcm
    rw [hcm fun h => by cases h]
    have hfm := hf a m₁
    dsimp only at hm ⊢
    rw [hfm hm]

theorem Extends.ite {p : Prop} [Decidable p] {c c' d d' : Prog ε α} (hc : Extends e c c')
    (hd : Extends e d d') : Extends e (if p then c else d) (if p then c' else d') := by
  split_ifs
  · exact hc
  · exact hd

theorem Extends.repeatWhile {cond : σ → Prop} [DecidablePred cond] {body body' : σ → Prog ε σ}
    (hb : ∀ x, Extends e (body x) (body' x)) {n n' : ℕ} (hn : n ≤ n') (x : σ) :
    Extends e (repeatWhile e cond body n x) (repeatWhile e cond body' n' x) := by
  induction n generalizing n' x with
  | zero =>
    intro m hm
    by_cases hc : cond x
    · rw [Traced.repeatWhile, if_pos hc] at hm
      exact absurd rfl hm
    · cases n' with
      | zero => rw [Traced.repeatWhile, Traced.repeatWhile]
      | succ n' => rw [Traced.repeatWhile, Traced.repeatWhile, if_neg hc, if_neg hc]
  | succ n ih =>
    obtain ⟨k, rfl⟩ : ∃ k, n' = k + 1 := ⟨n' - 1, by omega⟩
    rw [Traced.repeatWhile, Traced.repeatWhile]
    exact .ite ((hb x).bind fun y => ih (by omega) y) (.refl _)

end Traced
