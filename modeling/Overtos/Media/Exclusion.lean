import Overtos.Media.Model

/-! The exclusion invariant of the owner word, over every interleaving. -/
namespace Overtos.Media

inductive Effect : ℕ → Held → ℕ → Held → Prop where
  | keep {o h} : Effect o h o h
  | fsTake {o h} : o % 4 = 0 → Effect o h (o + 1) { h with fs := true }
  | fsDrop {o h} : h.fs = true → Effect o h (o / 2 * 2) { h with fs := false }
  | writerTake {h} : h.reader = false → Effect 0 h 2 { h with writer := true }
  | writerDrop {o h} : h.writer = true →
      Effect o h (o &&& Word.comp 32 mediaWriter) { h with writer := false }
  | readerTake {o h} : h.reader = false → h.writer = false → o / 2 % 2 = 0 → o + 4 < 2 ^ 32 →
      Effect o h (o + 4) { h with reader := true }
  | readerDrop {o h} : h.reader = true → 4 ≤ o → Effect o h (o - 4) { h with reader := false }

structure Layout (o fs writers readers : ℕ) : Prop where
  word : o = fs + 2 * writers + 4 * readers
  fs_le : fs ≤ 1
  writers_le : writers ≤ 1
  alone : writers = 0 ∨ fs = 0 ∧ readers = 0
  bound : o < 2 ^ 32

theorem Effect.layout {o o' f w r f' w' r' : ℕ} {h h' : Held} (he : Effect o h o' h')
    (hl : Layout o f w r) (hf : h.fs.toNat ≤ f) (hw : h.writer.toNat ≤ w)
    (hr : h.reader.toNat ≤ r) (hf' : f' + h.fs.toNat = f + h'.fs.toNat)
    (hw' : w' + h.writer.toNat = w + h'.writer.toNat)
    (hr' : r' + h.reader.toNat = r + h'.reader.toNat) : Layout o' f' w' r' := by
  obtain ⟨hword, hfs, hws, halone, hb⟩ := hl
  cases he with
  | keep => exact ⟨by omega, by omega, by omega, by omega, hb⟩
  | fsTake ho =>
    dsimp only at hf' hw' hr'
    have hz : h.fs.toNat = 0 := by omega
    simp only [hz, Bool.toNat_true] at hf'
    constructor <;> omega
  | fsDrop ho =>
    dsimp only at hf' hw' hr'
    simp only [ho, Bool.toNat_true, Bool.toNat_false] at hf hf'
    constructor <;> omega
  | writerTake hh =>
    dsimp only at hf' hw' hr'
    have hz : h.writer.toNat = 0 := by omega
    simp only [hz, Bool.toNat_true] at hw'
    constructor <;> omega
  | writerDrop ho =>
    dsimp only at hf' hw' hr'
    simp only [ho, Bool.toNat_true, Bool.toNat_false] at hw hw'
    have ho2 : o = 2 := by omega
    subst ho2
    have hand : 2 &&& Word.comp 32 mediaWriter = 0 := by decide
    rw [hand]
    constructor <;> omega
  | readerTake h1 h2 h3 h4 =>
    dsimp only at hf' hw' hr'
    simp only [h1, Bool.toNat_true, Bool.toNat_false] at hr'
    constructor <;> omega
  | readerDrop h1 h2 =>
    dsimp only at hf' hw' hr'
    simp only [h1, Bool.toNat_true, Bool.toNat_false] at hr hr'
    constructor <;> omega

structure Settled (a : Party) : Prop where
  active : a.lease.active ≠ 0 ↔ a.held.reader = true ∨ a.held.writer = true
  single : ¬(a.held.reader = true ∧ a.held.writer = true)
  writer : a.held.writer = true → a.lease.access = 1
  reader : a.held.reader = true → a.lease.access = 0
  took : a.lease.active ≠ 0 → a.lease.generation = a.took

def Call.isAcquire : Call → Bool
  | .fsAcquire | .rawAcquire _ _ => true
  | _ => false

def FreshEntry (a : Party) : Prop :=
  a.entry.reader = false ∧ a.entry.writer = false ∧ a.held.fs = a.entry.fs

def ReleaseOk (a : Party) (undo : Bool) : Prop :=
  if undo then FreshEntry a else a.call.isAcquire = false

def PcOk (a : Party) : Prop :=
  match a.pc with
  | .idle => a.call.isAcquire = true → a.ret ≠ .ok → a.held = a.entry
  | .fsLoad | .fsCas _ => a.held = a.entry
  | .fsFetchAnd => a.held.fs = true ∧ a.call.isAcquire = false
  | .rawPresent flags _ | .rawGeneration flags _ | .rawLoad flags _ | .rawCas flags _ _ =>
    a.held = a.entry ∧ a.lease.active = 0 ∧ flags < 2
  | .validPresent | .validGeneration => FreshEntry a ∧ a.lease.active ≠ 0
  | .releaseFetchAnd undo => a.held.writer = true ∧ ReleaseOk a undo
  | .releaseLoad undo => a.held.reader = true ∧ ReleaseOk a undo
  | .releaseCas undo state => a.held.reader = true ∧ 4 ≤ state ∧ ReleaseOk a undo
  | .observeGeneration _ _ | .observePresent _ | .removedStore => a.call.isAcquire = false
  | .readCheckPresent | .readCheckGeneration => a.call.isAcquire = false
  | .writeCheckPresent => a.held.writer = true ∧ a.call.isAcquire = false
  | .writeCheckGeneration present =>
    a.held.writer = true ∧ present ≠ 0 ∧ a.call.isAcquire = false
  | .backendWrite present generation =>
    a.held.writer = true ∧ present ≠ 0 ∧ generation = a.took ∧ a.call.isAcquire = false

structure Party.Ok (a : Party) : Prop where
  settled : Settled a
  local_ : PcOk a

theorem Settled.withPc {a : Party} (h : Settled a) (pc : Pc) : Settled { a with pc := pc } :=
  { h with }

theorem finish_ok {a : Party} {rc : Rc} (h : Settled a)
    (hr : a.call.isAcquire = true → rc ≠ .ok → a.held = a.entry) : (a.finish rc).Ok :=
  ⟨{ h with }, hr⟩

theorem rawRelease_ok {a : Party} {undo : Bool} (h : Settled a) (ha : a.lease.active ≠ 0)
    (hu : ReleaseOk a undo) : (rawRelease a undo).Ok ∧ (rawRelease a undo).held = a.held := by
  unfold rawRelease
  split_ifs with hw
  · refine ⟨⟨h.withPc _, ?_, hu⟩, rfl⟩
    rcases h.active.mp ha with hr | hw'
    · simp [h.reader hr] at hw
    · exact hw'
  · refine ⟨⟨h.withPc _, ?_, hu⟩, rfl⟩
    rcases h.active.mp ha with hr | hw'
    · exact hr
    · simp [h.writer hw', rawWrite] at hw

theorem rawReleased_ok {a : Party} {undo : Bool} (hr : a.held.reader = false)
    (hw : a.held.writer = false) (hu : ReleaseOk a undo) : (rawReleased a undo).Ok := by
  apply finish_ok
  · constructor <;> simp [Lease.empty, hr, hw]
  · intro hc _
    cases undo with
    | false => simp [ReleaseOk, hc] at hu
    | true =>
      obtain ⟨h1, h2, h3⟩ : FreshEntry a := hu
      have he : a.held = a.entry := by
        cases hh : a.held with
        | mk f r w => cases hh' : a.entry with
          | mk f' r' w' => simp_all
      exact he

theorem land_fs_writer (x : ℕ) : x &&& (mediaFs ||| mediaWriter) = x % 4 :=
  Nat.and_two_pow_sub_one_eq_mod x 2

theorem land_writer_eq_zero (x : ℕ) : x &&& mediaWriter = 0 ↔ x / 2 % 2 = 0 := by
  have h : x &&& mediaWriter = 2 * (x / 2 % 2) := by
    have hd : (x &&& mediaWriter) / 2 ^ 1 = x / 2 % 2 := by
      rw [Nat.and_div_two_pow]
      exact Nat.and_one_is_mod _
    have hm : (x &&& mediaWriter) % 2 ^ 1 = 0 := by
      rw [Nat.and_mod_two_pow]
      exact Nat.and_zero _
    omega
  omega

theorem lor_fs {x : ℕ} (h : x % 4 = 0) : x ||| mediaFs = x + 1 := by
  have hx := Nat.two_pow_add_eq_or_of_lt (i := 1) (b := 1) (by norm_num) (x / 2)
  have he : 2 ^ 1 * (x / 2) = x := by omega
  rw [he] at hx
  exact hx.symm

theorem land_comp_fs {x : ℕ} (h : x < 2 ^ 32) : x &&& Word.comp 32 mediaFs = x / 2 * 2 :=
  Word.land_comp_mask (k := 1) (by norm_num) h

theorem lt_two_of_land_comp {flags : ℕ} (h : flags < 2 ^ 32)
    (hz : flags &&& Word.comp 32 rawWrite = 0) : flags < 2 := by
  have he := Word.land_comp_mask (k := 1) (by norm_num) h
  rw [show (2 : ℕ) ^ 1 - 1 = rawWrite from rfl, hz] at he
  omega

theorem begin_ok {a b : Party} {c : Call} (h : a.Ok) (hb : begin a c = some b) :
    b.Ok ∧ b.held = a.held := by
  have hs := h.settled
  unfold begin at hb
  split_ifs at hb with hi
  have hs' : Settled { a with call := c, entry := a.held } := { hs with }
  cases c with
  | fsAcquire => cases hb; exact ⟨⟨hs'.withPc _, rfl⟩, rfl⟩
  | fsRelease =>
    simp only [Option.ite_none_right_eq_some, Option.some.injEq] at hb
    obtain ⟨hf, rfl⟩ := hb
    exact ⟨⟨hs'.withPc _, hf, rfl⟩, rfl⟩
  | rawAcquire flags generation =>
    dsimp only at hb
    split_ifs at hb with hp
    · cases hb; exact ⟨finish_ok hs' fun _ _ => rfl, rfl⟩
    · cases hb
      push Not at hp
      exact ⟨⟨hs'.withPc _, rfl, hp.1, lt_two_of_land_comp (Word.wrap_lt _ _) hp.2.1⟩, rfl⟩
  | rawRelease =>
    dsimp only at hb
    split_ifs at hb with hp
    · cases hb; exact ⟨finish_ok hs' fun hc _ => (by cases hc), rfl⟩
    · cases hb
      exact rawRelease_ok hs' hp rfl
  | observe generation present => cases hb; exact ⟨⟨hs'.withPc _, rfl⟩, rfl⟩
  | removed => cases hb; exact ⟨⟨hs'.withPc _, rfl⟩, rfl⟩
  | blockWrite =>
    dsimp only at hb
    split_ifs at hb with hp
    · cases hb; exact ⟨⟨hs'.withPc _, rfl⟩, rfl⟩
    · cases hb; exact ⟨finish_ok hs' fun hc _ => (by cases hc), rfl⟩

theorem backendReturn_ok {a b : Party} {o : Outcome} (h : a.Ok)
    (hb : backendReturn a o = some b) : b.Ok ∧ b.held = a.held := by
  unfold backendReturn at hb
  split at hb
  next present generation hpc =>
    have hl : a.call.isAcquire = false := by
      have := h.local_
      simp only [PcOk, hpc] at this
      exact this.2.2.2
    have hf (rc : Rc) : (a.finish rc).Ok := finish_ok h.settled fun hc _ => by simp [hl] at hc
    cases o with
    | written => cases hb; exact ⟨hf _, rfl⟩
    | failed => cases hb; exact ⟨hf _, rfl⟩
    | failedInfo g p => cases hb; exact ⟨⟨h.settled.withPc _, hl⟩, rfl⟩
    | failedRemoved => cases hb; exact ⟨⟨h.settled.withPc _, hl⟩, rfl⟩
  next => cases hb

theorem rawCasStep_ok {s : Shared} {a : Party} {flags generation state : ℕ} (h : Settled a)
    (hentry : a.held = a.entry) (hlease : a.lease.active = 0) (hflags : flags < 2) :
    Effect s.owners a.held (rawCasStep s a flags generation state).1.owners
      (rawCasStep s a flags generation state).2.held ∧
      (rawCasStep s a flags generation state).2.Ok := by
  have hno : ¬(a.held.reader = true ∨ a.held.writer = true) := fun hh => h.active.mpr hh hlease
  have hr : a.held.reader = false := by simpa using fun hh => hno (Or.inl hh)
  have hw : a.held.writer = false := by simpa using fun hh => hno (Or.inr hh)
  have hbusy : (a.finish .errBusy).Ok := finish_ok h fun _ _ => hentry
  have hretry : Party.Ok { a with pc := .rawCas flags generation s.owners } :=
    ⟨h.withPc _, hentry, hlease, hflags⟩
  have hfresh : a.entry.reader = false ∧ a.entry.writer = false := by rw [← hentry]; exact ⟨hr, hw⟩
  unfold rawCasStep
  dsimp only
  split_ifs with hwrite hz ho hbad ho
  · exact ⟨.keep, hbusy⟩
  · rw [not_not] at hz
    rw [ho, hz]
    have hf : Word.wrap 8 flags = 1 := by
      rw [Word.wrap_of_lt (by omega)]
      have : flags &&& rawWrite ≠ 0 := hwrite
      rw [show rawWrite = 1 from rfl, Nat.and_one_is_mod] at this
      omega
    refine ⟨?_, ⟨?_, ⟨hfresh.1, hfresh.2, by rw [← hentry]⟩, by simp⟩⟩
    · simpa [hr, mediaWriter] using Effect.writerTake hr
    · constructor <;> simp [hr, hf]
  · exact ⟨.keep, hretry⟩
  · exact ⟨.keep, hbusy⟩
  · push Not at hbad
    obtain ⟨hb1, hb2⟩ := hbad
    have hlt : state + 4 < 2 ^ 32 := by
      unfold uint32Max mediaReaderOne at hb2
      omega
    have hf : Word.wrap 8 flags = 0 := by
      rw [Word.wrap_of_lt (by omega)]
      rw [not_not, show rawWrite = 1 from rfl, Nat.and_one_is_mod] at hwrite
      omega
    rw [ho, show state + mediaReaderOne = state + 4 from rfl, Word.wrap_of_lt hlt]
    refine ⟨?_, ⟨?_, ⟨hfresh.1, hfresh.2, by rw [← hentry]⟩, by simp⟩⟩
    · simpa [hw] using Effect.readerTake hr hw ((land_writer_eq_zero _).mp hb1) hlt
    · constructor <;> simp [hw, hf]
  · exact ⟨.keep, hretry⟩

theorem atom_ok {s s' : Shared} {a b : Party} (h : a.Ok) (hlt : s.owners < 2 ^ 32)
    (hcount : a.held.reader = true → 4 ≤ s.owners) (ha : atom s a = some (s', b)) :
    Effect s.owners a.held s'.owners b.held ∧ b.Ok := by
  have hs := h.settled
  have hl := h.local_
  -- a call that is no acquire, or one that succeeds, may end with anything
  have hend (rc : Rc) (hc : a.call.isAcquire = false) : (a.finish rc).Ok :=
    finish_ok hs fun hc' _ => by simp [hc] at hc'
  have hdone : (a.finish .ok).Ok := finish_ok hs fun _ hc => absurd rfl hc
  unfold atom at ha
  cases hpc : a.pc <;> simp only [PcOk, hpc] at hl ha
  case idle => cases ha
  case fsLoad =>
    cases ha
    exact ⟨.keep, hs.withPc _, hl⟩
  case fsCas state =>
    split_ifs at ha with h1 h2 <;> cases ha
    · exact ⟨.keep, finish_ok hs fun _ _ => hl⟩
    · rw [not_not, land_fs_writer] at h1
      refine ⟨?_, finish_ok { hs with } fun _ hc => absurd rfl hc⟩
      change Effect s.owners a.held (state ||| mediaFs) { a.held with fs := true }
      rw [h2, lor_fs h1]
      exact .fsTake h1
    · exact ⟨.keep, hs.withPc _, hl⟩
  case fsFetchAnd =>
    cases ha
    refine ⟨?_, finish_ok { hs with } fun _ hc => absurd rfl hc⟩
    change Effect s.owners a.held (s.owners &&& Word.comp 32 mediaFs) { a.held with fs := false }
    rw [land_comp_fs hlt]
    exact .fsDrop hl.1
  case rawPresent | rawGeneration =>
    split_ifs at ha <;> cases ha
    · exact ⟨.keep, finish_ok hs fun _ _ => hl.1⟩
    · exact ⟨.keep, hs.withPc _, hl⟩
  case rawLoad =>
    cases ha
    exact ⟨.keep, hs.withPc _, hl⟩
  case rawCas flags generation state =>
    have hc := @rawCasStep_ok s a flags generation state hs hl.1 hl.2.1 hl.2.2
    rwa [Option.some.inj ha] at hc
  case validPresent =>
    split_ifs at ha <;> cases ha
    · obtain ⟨hk, hh⟩ := @rawRelease_ok _ true hs hl.2 hl.1
      exact ⟨hh.symm ▸ .keep, hk⟩
    · exact ⟨.keep, hs.withPc _, hl⟩
  case validGeneration =>
    split_ifs at ha <;> cases ha
    · exact ⟨.keep, hdone⟩
    · obtain ⟨hk, hh⟩ := @rawRelease_ok _ true hs hl.2 hl.1
      exact ⟨hh.symm ▸ .keep, hk⟩
  case releaseFetchAnd undo =>
    cases ha
    have hr : a.held.reader = false := by simpa using fun hh => hs.single ⟨hh, hl.1⟩
    exact ⟨.writerDrop hl.1, rawReleased_ok hr rfl hl.2⟩
  case releaseLoad undo =>
    cases ha
    exact ⟨.keep, hs.withPc _, hl.1, hcount hl.1, hl.2⟩
  case releaseCas undo state =>
    rw [if_neg (by simpa [mediaReaderOne] using hl.2.1)] at ha
    split_ifs at ha with h1 <;> cases ha
    · have hw : a.held.writer = false := by simpa using fun hh => hs.single ⟨hl.1, hh⟩
      rw [h1]
      exact ⟨.readerDrop hl.1 hl.2.1, rawReleased_ok rfl hw hl.2.2⟩
    · exact ⟨.keep, hs.withPc _, hl.1, hcount hl.1, hl.2.2⟩
  case observeGeneration =>
    cases ha
    exact ⟨.keep, hs.withPc _, hl⟩
  case observePresent | removedStore =>
    cases ha
    exact ⟨.keep, hdone⟩
  case readCheckPresent =>
    split_ifs at ha <;> cases ha
    · exact ⟨.keep, hend _ hl⟩
    · exact ⟨.keep, hs.withPc _, hl⟩
  case readCheckGeneration =>
    split_ifs at ha with h1 h2 <;> cases ha
    · exact ⟨.keep, hend _ hl⟩
    · refine ⟨.keep, hs.withPc _, ?_, hl⟩
      simp only [leaseAllows, Bool.and_eq_true, decide_eq_true_eq] at h2
      rcases hs.active.mp h2.1.1 with hr | hw
      · have := h2.2
        simp [hs.reader hr, rawWrite] at this
      · exact hw
    · exact ⟨.keep, hend _ hl⟩
  case writeCheckPresent =>
    split_ifs at ha with h1 <;> cases ha
    · exact ⟨.keep, hend _ hl.2⟩
    · exact ⟨.keep, hs.withPc _, hl.1, h1, hl.2⟩
  case writeCheckGeneration present =>
    split_ifs at ha with h1 <;> cases ha
    · have hg : s.generation = a.took :=
        h1.trans (hs.took (hs.active.mpr (Or.inr hl.1)))
      exact ⟨.keep, hs.withPc _, hl.1, hl.2.1, hg, hl.2.2⟩
    · exact ⟨.keep, hend _ hl.2.2⟩
  case backendWrite => cases ha

open scoped BigOperators
variable {n : ℕ}

def Sys.count (s : Sys n) (f : Held → Bool) : ℕ := ∑ p, (f (s.party p).held).toNat

theorem Sys.le_count (s : Sys n) (f : Held → Bool) (p : Fin n) :
    (f (s.party p).held).toNat ≤ s.count f :=
  Finset.single_le_sum (f := fun q => (f (s.party q).held).toNat)
    (fun _ _ => Nat.zero_le _) (Finset.mem_univ p)

theorem Sys.count_set (s : Sys n) (p : Fin n) (r : Shared × Party) (f : Held → Bool) :
    (s.set p r).count f + (f (s.party p).held).toNat = s.count f + (f r.2.held).toNat := by
  have hcomp : (fun q => (f ((s.set p r).party q).held).toNat) =
      Function.update (fun q => (f (s.party q).held).toNat) p (f r.2.held).toNat := by
    funext q
    by_cases hq : q = p <;> simp [Sys.set, Function.update, hq]
  unfold Sys.count
  rw [hcomp, Finset.sum_update_of_mem (Finset.mem_univ p),
    ← Finset.add_sum_erase Finset.univ _ (Finset.mem_univ p), Finset.sdiff_singleton_eq_erase]
  omega

structure Sys.Inv (s : Sys n) : Prop where
  layout : Layout s.shared.owners (s.count (·.fs)) (s.count (·.writer)) (s.count (·.reader))
  party : ∀ p, (s.party p).Ok

theorem init_inv (generation present : ℕ) : (Sys.init (n := n) generation present).Inv := by
  refine ⟨⟨?_, ?_, ?_, ?_, ?_⟩, fun p => ⟨⟨?_, ?_, ?_, ?_, ?_⟩, ?_⟩⟩ <;>
    simp [Sys.init, Sys.count, Party.init, Held.none, Lease.empty, PcOk]

theorem Sys.Inv.set {s : Sys n} {p : Fin n} {r : Shared × Party} (h : s.Inv)
    (he : Effect s.shared.owners (s.party p).held r.1.owners r.2.held) (hr : r.2.Ok) :
    (s.set p r).Inv := by
  refine ⟨he.layout h.layout (s.le_count (·.fs) p) (s.le_count (·.writer) p)
    (s.le_count (·.reader) p) (s.count_set p r (·.fs)) (s.count_set p r (·.writer))
    (s.count_set p r (·.reader)), fun q => ?_⟩
  by_cases hq : q = p
  · subst hq
    simpa [Sys.set] using hr
  · simpa [Sys.set, hq] using h.party q

theorem step_inv {s t : Sys n} {a : Action n} (h : s.Inv) (ha : step s a = some t) : t.Inv := by
  cases a with
  | call p c =>
    obtain ⟨b, hb, rfl⟩ := Option.map_eq_some_iff.mp ha
    obtain ⟨hok, hh⟩ := begin_ok (h.party p) hb
    exact h.set (hh ▸ .keep) hok
  | atom p =>
    obtain ⟨⟨s', b⟩, hb, rfl⟩ := Option.map_eq_some_iff.mp ha
    have hcount : (s.party p).held.reader = true → 4 ≤ s.shared.owners := by
      intro hr
      have hle := s.le_count (·.reader) p
      have hw := h.layout.word
      simp only [hr, Bool.toNat_true] at hle
      omega
    obtain ⟨he, hok⟩ := atom_ok (h.party p) h.layout.bound hcount hb
    exact h.set he hok
  | backend p o =>
    obtain ⟨b, hb, rfl⟩ := Option.map_eq_some_iff.mp ha
    obtain ⟨hok, hh⟩ := backendReturn_ok (h.party p) hb
    exact h.set (hh ▸ .keep) hok

theorem run_inv {s t : Sys n} (as : List (Action n)) (h : s.Inv) (hr : run s as = some t) :
    t.Inv := by
  induction as generalizing s with
  | nil => cases hr; exact h
  | cons a as ih =>
    obtain ⟨u, hu, hr⟩ := Option.bind_eq_some_iff.mp hr
    exact ih (step_inv h hu) hr

theorem Sys.count_eq_card (s : Sys n) (f : Held → Bool) :
    s.count f = (Finset.univ.filter fun p => f (s.party p).held = true).card := by
  rw [Finset.card_filter]
  refine Finset.sum_congr rfl fun p _ => ?_
  cases f (s.party p).held <;> rfl

theorem Sys.eq_false_of_count {s : Sys n} {f : Held → Bool} (h : s.count f = 0) (p : Fin n) :
    f (s.party p).held = false := by
  have := s.le_count f p
  cases hf : f (s.party p).held with
  | false => rfl
  | true => simp [hf, h] at this

theorem Sys.eq_of_count_le_one {s : Sys n} {f : Held → Bool} (h : s.count f ≤ 1) {p q : Fin n}
    (hp : f (s.party p).held = true) (hq : f (s.party q).held = true) : p = q := by
  rw [Sys.count_eq_card, Finset.card_le_one] at h
  exact h p (by simp [hp]) q (by simp [hq])

/-- In every state of every interleaving: one raw writer at most, never beside the filesystem or a
reader; the word counts the held leases; a lease object is active exactly while its party owns a
lease; a failed acquire leaves its party as it was; and the backend is entered under a current write
lease. -/
theorem media_ownership_safe (generation present : ℕ) (as : List (Action n)) (s : Sys n)
    (hrun : run (.init generation present) as = some s) :
    (∀ p q, (s.party p).held.writer = true → (s.party q).held.writer = true → p = q) ∧
    (∀ p q, (s.party p).held.writer = true →
      (s.party q).held.fs = false ∧ (s.party q).held.reader = false) ∧
    (s.shared.owners < 2 ^ 32 ∧
      s.shared.owners / mediaReaderOne =
        (Finset.univ.filter fun p => (s.party p).held.reader = true).card ∧
      s.shared.owners % mediaReaderOne = s.count (·.fs) + 2 * s.count (·.writer)) ∧
    (∀ p, (s.party p).lease.active ≠ 0 ↔
      (s.party p).held.reader = true ∨ (s.party p).held.writer = true) ∧
    (∀ p, (s.party p).pc = .idle → (s.party p).call.isAcquire = true → (s.party p).ret ≠ .ok →
      (s.party p).held = (s.party p).entry) ∧
    ∀ p seen g, (s.party p).pc = .backendWrite seen g →
      (s.party p).held.writer = true ∧ seen ≠ 0 ∧ g = (s.party p).took := by
  have h := run_inv as (init_inv generation present) hrun
  obtain ⟨hword, hfs, hws, halone, hb⟩ := h.layout
  refine ⟨fun p q => Sys.eq_of_count_le_one hws, fun p q hp => ?_, ⟨hb, ?_, ?_⟩,
    fun p => (h.party p).settled.active, fun p hi hc hr => ?_, fun p seen g hpc => ?_⟩
  · have hle := s.le_count (·.writer) p
    simp only [hp, Bool.toNat_true] at hle
    obtain ⟨h1, h2⟩ : s.count (·.fs) = 0 ∧ s.count (·.reader) = 0 := by omega
    exact ⟨Sys.eq_false_of_count h1 q, Sys.eq_false_of_count h2 q⟩
  · rw [← Sys.count_eq_card s (·.reader)]
    unfold mediaReaderOne
    omega
  · unfold mediaReaderOne
    omega
  · have hl := (h.party p).local_
    simp only [PcOk, hi] at hl
    exact hl hc hr
  · have hl := (h.party p).local_
    simp only [PcOk, hpc] at hl
    exact ⟨hl.1, hl.2.1, hl.2.2.1⟩

def writerTrace : List (Action 2) :=
  [.call 0 (.rawAcquire 1 7), .atom 0, .atom 0, .atom 0, .atom 0, .atom 0, .atom 0,
    .call 1 .fsAcquire, .atom 1, .atom 1,
    .call 0 .blockWrite, .atom 0, .atom 0, .atom 0, .atom 0]

theorem writerTrace_safe :
    ∃ s, run (.init 7 1) writerTrace = some s ∧ (s.party 0).pc = .backendWrite 1 7 ∧
      (s.party 1).ret = .errBusy ∧ (s.party 1).held = (s.party 1).entry ∧
      (s.party 0).held.writer = true ∧ (s.party 0).took = 7 := by
  have hsome : (run (.init 7 1) writerTrace).isSome = true := by decide
  obtain ⟨s, hs⟩ := Option.isSome_iff_exists.mp hsome
  have hpc : ((run (.init 7 1) writerTrace).map fun s =>
      ((s.party 0).pc, (s.party 1).pc, (s.party 1).call, (s.party 1).ret)) =
      some (.backendWrite 1 7, .idle, .fsAcquire, .errBusy) := by decide
  rw [hs] at hpc
  simp only [Option.map_some, Option.some.injEq, Prod.mk.injEq] at hpc
  obtain ⟨h0, h1, hc, hr⟩ := hpc
  obtain ⟨-, -, -, -, hfail, hback⟩ := media_ownership_safe 7 1 writerTrace s hs
  obtain ⟨hw, -, hg⟩ := hback 0 1 7 h0
  exact ⟨s, hs, h0, hr, hfail 1 h1 (by rw [hc]; rfl) (by rw [hr]; decide), hw, hg.symm⟩

end Overtos.Media
