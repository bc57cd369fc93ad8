import Overtos.Lib.Runs
import Overtos.Types

/-! The futures of `AsyncSpi` and `AsyncI2c`: which bytes the driver may touch, and when. -/
namespace Overtos.Bus
open Runs Function List

inductive Kind where
  | spi | i2c
  deriving DecidableEq, Repr

structure Slice where
  addr : ℕ
  len : ℕ
  deriving DecidableEq, Repr

def Slice.Holds (s : Slice) (b : ℕ) : Prop := s.addr ≤ b ∧ b < s.addr + s.len

structure Args where
  tx : Slice
  rx : Slice
  deriving DecidableEq, Repr

structure Request where
  tx : Option ℕ
  txLen : ℕ
  rx : Option ℕ
  rxLen : ℕ
  deriving DecidableEq, Repr

def Request.Reads (r : Request) (b : ℕ) : Prop := ∃ p ∈ r.tx, p ≤ b ∧ b < p + r.txLen
def Request.Writes (r : Request) (b : ℕ) : Prop := ∃ p ∈ r.rx, p ≤ b ∧ b < p + r.rxLen

def Slice.pointer (s : Slice) : Option ℕ := if s.len = 0 then none else some s.addr

def Kind.request : Kind → Args → Request
  | .spi, a =>
    let len := max a.tx.len a.rx.len
    ⟨a.tx.pointer, len, a.rx.pointer, len⟩
  | .i2c, a => ⟨a.tx.pointer, a.tx.len, a.rx.pointer, a.rx.len⟩

def Kind.skips : Kind → Args → Bool
  | .spi, a => max a.tx.len a.rx.len = 0
  | .i2c, _ => false

def oveSpiTransferAsync (busy : Bool) (r : Request) (hal : Rc) : Rc :=
  if r.txLen = 0 then .errInvalidParam
  else if r.tx = none ∧ r.rx = none then .errInvalidParam
  else if busy then .errBusBusy
  else hal

def oveI2cWriteReadAsync (busy : Bool) (r : Request) (hal : Rc) : Rc :=
  if r.tx = none ∧ 0 < r.txLen then .errInvalidParam
  else if r.rx = none ∧ 0 < r.rxLen then .errInvalidParam
  else if r.txLen = 0 ∧ r.rxLen = 0 then .errInvalidParam
  else if busy then .errBusBusy
  else hal

def Kind.submit : Kind → Bool → Request → Rc → Rc
  | .spi => oveSpiTransferAsync
  | .i2c => oveI2cWriteReadAsync

inductive Stage where
  | fresh | reset | waiting | done (rc : Rc) | dropped
  deriving DecidableEq, Repr

structure Transfer where
  owner : ℕ
  request : Request
  deriving DecidableEq, Repr

/-- `inFlight` is what the driver works on; `callbacks` are results whose callback has still to run;
`result` is the slot, `none` for `PENDING`. -/
structure System where
  stage : ℕ → Stage
  busy : Bool
  inFlight : List Transfer
  callbacks : List Rc
  result : Option Rc

def System.init : System := ⟨fun _ => .fresh, false, [], [], none⟩

def System.setStage (s : System) (i : ℕ) (stage : Stage) : System :=
  { s with stage := update s.stage i stage }

def System.poll (k : Kind) (a : Args) (s : System) (i : ℕ) (hal : Rc) : Option System :=
  match s.stage i with
  | .fresh =>
    if k.skips a then some (s.setStage i (.done .ok))
    else some { s.setStage i .reset with result := none }
  | .reset =>
    let rc := k.submit s.busy (k.request a) hal
    if rc = .ok then
      some { s.setStage i .waiting with
        busy := true
        inFlight := s.inFlight ++ [⟨i, k.request a⟩] }
    else some (s.setStage i (.done rc))
  | .waiting =>
    match s.result with
    | none => some s
    | some rc => some (s.setStage i (.done rc))
  | .done _ | .dropped => none

inductive Act where
  | poll (i : ℕ) (hal : Rc)
  | drop (i : ℕ)
  | complete (rc : Rc)
  | callback
  deriving DecidableEq, Repr

def step (k : Kind) (args : ℕ → Args) (s : System) : Act → Option System
  | .poll i hal => s.poll k (args i) i hal
  | .drop i =>
    if s.stage i = .fresh ∨ s.stage i = .waiting then some (s.setStage i .dropped) else none
  | .complete rc =>
    match s.inFlight with
    | [] => none
    | _ :: rest =>
      some { s with busy := false, inFlight := rest, callbacks := s.callbacks ++ [rc] }
  | .callback =>
    match s.callbacks with
    | [] => none
    | rc :: rest => some { s with callbacks := rest, result := some rc }

def Request.Within (r : Request) (a : Args) : Prop :=
  (∀ b, r.Reads b → a.tx.Holds b) ∧ ∀ b, r.Writes b → a.rx.Holds b

def Sound (args : ℕ → Args) (s : System) : Prop :=
  ∀ x ∈ s.inFlight, x.request.Within (args x.owner) ∧ s.stage x.owner = .waiting

def Kind.Fits : Kind → Args → Prop
  | .spi, a => a.tx.len = a.rx.len ∨ a.tx.len = 0 ∨ a.rx.len = 0
  | .i2c, _ => True

def System.Flies (s : System) (i : ℕ) : Prop := ∃ x ∈ s.inFlight, x.owner = i

/-- Accepted transfers fit, and a future dropped, or served from the slot, has no transfer with the
driver. -/
def Proper (k : Kind) (args : ℕ → Args) (s : System) : Act → Prop
  | .poll i hal =>
    (s.stage i = .reset → k.submit s.busy (k.request (args i)) hal = .ok → k.Fits (args i)) ∧
      (s.stage i = .waiting → s.result ≠ none → ¬s.Flies i)
  | .drop i => s.stage i = .waiting → ¬s.Flies i
  | .complete _ => True
  | .callback => True

theorem pointer_within {s : Slice} {n : ℕ} :
    (∀ b, (∃ p ∈ s.pointer, p ≤ b ∧ b < p + n) → s.Holds b) ↔ s.len = 0 ∨ n ≤ s.len := by
  unfold Slice.pointer Slice.Holds
  split_ifs with h
  · simp [h]
  · simp only [Option.mem_some_iff, exists_eq_left', h, false_or]
    constructor
    · intro hin
      by_contra hlt
      have := hin (s.addr + s.len) (by omega)
      omega
    · intro hle b hb
      omega

theorem request_within_iff (k : Kind) (a : Args) : (k.request a).Within a ↔ k.Fits a := by
  cases k with
  | spi =>
    have hwithin : (Kind.spi.request a).Within a ↔
        (a.tx.len = 0 ∨ max a.tx.len a.rx.len ≤ a.tx.len) ∧
          (a.rx.len = 0 ∨ max a.tx.len a.rx.len ≤ a.rx.len) :=
      and_congr pointer_within pointer_within
    rw [hwithin]
    simp only [Kind.Fits]
    omega
  | i2c =>
    exact iff_of_true ⟨pointer_within.mpr (.inr le_rfl), pointer_within.mpr (.inr le_rfl)⟩ trivial

section

variable {k : Kind} {args : ℕ → Args} {s t : System} {i : ℕ}

theorem Sound.not_flies (hP : Sound args s) (h : s.stage i ≠ .waiting) : ¬s.Flies i := by
  rintro ⟨x, hx, rfl⟩
  exact h (hP x hx).2

theorem sound_setStage_iff (hP : Sound args s) {stage : Stage} (hstage : stage ≠ .waiting) :
    Sound args (s.setStage i stage) ↔ ¬s.Flies i := by
  constructor
  · rintro h ⟨x, hx, rfl⟩
    have hwaiting : update s.stage x.owner stage x.owner = .waiting := (h x hx).2
    rw [update_self] at hwaiting
    exact hstage hwaiting
  · intro hflies x hx
    have hne : x.owner ≠ i := fun h => hflies ⟨x, hx, h⟩
    obtain ⟨hwithin, hwaiting⟩ := hP x hx
    exact ⟨hwithin, (update_of_ne hne ..).trans hwaiting⟩

theorem busy_of_submit {busy : Bool} {r : Request} {hal : Rc} (h : k.submit busy r hal = .ok) :
    busy = false := by
  cases busy with
  | false => rfl
  | true =>
    cases k with
    | spi =>
      simp only [Kind.submit, oveSpiTransferAsync] at h
      split_ifs at h
    | i2c =>
      simp only [Kind.submit, oveI2cWriteReadAsync] at h
      split_ifs at h

structure Single (s : System) : Prop where
  idle : s.busy = false → s.inFlight = []
  length_le : s.inFlight.length ≤ 1

theorem poll_sound {hal : Rc} (hI : Single s) (hP : Sound args s)
    (hs : s.poll k (args i) i hal = some t) :
    Single t ∧ (Sound args t ↔ Proper k args s (.poll i hal)) := by
  unfold System.poll at hs
  cases hstage : s.stage i with
  | fresh =>
    have hflies : ¬s.Flies i := hP.not_flies (by simp [hstage])
    have hproper : Proper k args s (.poll i hal) := ⟨by simp [hstage], by simp [hstage]⟩
    simp only [hstage] at hs
    split_ifs at hs
    · cases hs
      refine ⟨⟨hI.idle, hI.length_le⟩, iff_of_true ?_ hproper⟩
      exact (sound_setStage_iff hP (by simp)).mpr hflies
    · cases hs
      refine ⟨⟨hI.idle, hI.length_le⟩, iff_of_true ?_ hproper⟩
      exact (sound_setStage_iff hP (by simp)).mpr hflies
  | reset =>
    have hflies : ¬s.Flies i := hP.not_flies (by simp [hstage])
    simp only [hstage] at hs
    split_ifs at hs with hok
    · cases hs
      rw [hI.idle (busy_of_submit hok)]
      refine ⟨⟨by simp, by simp⟩, ?_⟩
      have hsound : Sound args { s.setStage i .waiting with
          busy := true, inFlight := [] ++ [⟨i, k.request (args i)⟩] } ↔
            (k.request (args i)).Within (args i) := by
        simp [Sound, System.setStage]
      rw [hsound, request_within_iff]
      simp [Proper, hstage, hok]
    · cases hs
      have hproper : Proper k args s (.poll i hal) := ⟨fun _ h => absurd h hok, by simp [hstage]⟩
      refine ⟨⟨hI.idle, hI.length_le⟩, iff_of_true ?_ hproper⟩
      exact (sound_setStage_iff hP (by simp)).mpr hflies
  | waiting =>
    simp only [hstage] at hs
    cases hresult : s.result with
    | none =>
      rw [hresult] at hs
      cases hs
      exact ⟨hI, iff_of_true hP ⟨by simp [hstage], fun _ h => absurd hresult h⟩⟩
    | some rc =>
      rw [hresult] at hs
      cases hs
      refine ⟨⟨hI.idle, hI.length_le⟩, (sound_setStage_iff hP (by simp)).trans ?_⟩
      simp [Proper, hstage, hresult]
  | done rc =>
    rw [hstage] at hs
    cases hs
  | dropped =>
    rw [hstage] at hs
    cases hs

theorem step_sound {a : Act} (hI : Single s) (hP : Sound args s) (hs : step k args s a = some t) :
    Single t ∧ (Sound args t ↔ Proper k args s a) := by
  cases a with
  | poll i hal => exact poll_sound hI hP hs
  | drop i =>
    simp only [step] at hs
    split_ifs at hs with hstage
    cases hs
    refine ⟨⟨hI.idle, hI.length_le⟩, (sound_setStage_iff hP (by simp)).trans ?_⟩
    rcases hstage with hstage | hstage
    · exact iff_of_true (hP.not_flies (by simp [hstage])) fun h => absurd h (by simp [hstage])
    · exact ⟨fun h _ => h, fun h => h hstage⟩
  | complete rc =>
    have hlength := hI.length_le
    simp only [step] at hs
    split at hs
    · cases hs
    · rename_i x rest hfly
      rw [hfly] at hlength
      obtain rfl : rest = [] := eq_nil_of_length_eq_zero (by simpa using hlength)
      cases hs
      exact ⟨⟨fun _ => rfl, by simp⟩, iff_of_true (forall_mem_nil _) trivial⟩
  | callback =>
    simp only [step] at hs
    split at hs
    · cases hs
    · cases hs
      exact ⟨⟨hI.idle, hI.length_le⟩, iff_of_true hP trivial⟩

end

/-- The driver touches only what is borrowed exactly if every step of the run is proper. -/
theorem transfers_sound_iff (k : Kind) (args : ℕ → Args) (acts : List Act) :
    Always (step k args) (Sound args) .init acts ↔
      Each (step k args) (Proper k args) .init acts := by
  apply always_iff_each (I := Single)
  · intro s a t hI hP hs
    exact step_sound hI hP hs
  · exact ⟨fun _ => rfl, Nat.zero_le _⟩
  · exact forall_mem_nil _

def unequal : Args := ⟨⟨1000, 4⟩, ⟨2000, 1⟩⟩

def equalArgs : Args := ⟨⟨1000, 4⟩, ⟨2000, 4⟩⟩

def submitted : List Act := [.poll 0 .ok, .poll 0 .ok]

def lateResult : List Act :=
  submitted ++ [.poll 1 .ok, .complete .ok, .callback, .poll 1 .ok, .poll 1 .ok]

theorem transfers_unsound :
    (∃ t, submitted.foldlM (step .spi fun _ => unequal) .init = some t ∧
      ∃ x ∈ t.inFlight, x.request.Writes 2003 ∧ ¬unequal.rx.Holds 2003) ∧
    (∀ k, ∃ t, (submitted ++ [Act.drop 0]).foldlM (step k fun _ => equalArgs) .init = some t ∧
      t.Flies 0 ∧ t.stage 0 = .dropped) ∧
    ∀ k, ∃ t, lateResult.foldlM (step k fun _ => equalArgs) .init = some t ∧
      t.Flies 1 ∧ t.stage 1 = .done .ok := by
  refine ⟨⟨_, rfl, _, mem_cons_self, ⟨2000, rfl, by decide, by decide⟩, ?_⟩, ?_, ?_⟩
  · unfold Slice.Holds
    decide
  · intro k
    cases k with
    | spi => exact ⟨_, rfl, ⟨_, mem_cons_self, rfl⟩, rfl⟩
    | i2c => exact ⟨_, rfl, ⟨_, mem_cons_self, rfl⟩, rfl⟩
  · intro k
    cases k with
    | spi => exact ⟨_, rfl, ⟨_, mem_cons_self, rfl⟩, rfl⟩
    | i2c => exact ⟨_, rfl, ⟨_, mem_cons_self, rfl⟩, rfl⟩

def Exclusive (k : Kind) (args : ℕ → Args) (s : System) : Act → Prop
  | .poll i _ =>
    (s.stage i = .fresh → s.inFlight = [] ∧ s.callbacks = [] ∧ ∀ j, s.stage j ≠ .reset) ∧
      k.Fits (args i)
  | .drop i => s.stage i = .waiting → ¬s.Flies i
  | .complete _ => True
  | .callback => True

structure Settled (s : System) : Prop where
  starting : ∀ i, s.stage i = .reset → s.inFlight = [] ∧ s.callbacks = [] ∧ s.result = none ∧
    ∀ j, s.stage j = .reset → j = i
  flying : s.inFlight ≠ [] → s.callbacks = [] ∧ s.result = none
  single : Single s

section

variable {k : Kind} {args : ℕ → Args} {s t : System} {i : ℕ} {stage : Stage}

theorem stage_reset (hstage : stage ≠ .reset) {j : ℕ} (hj : (s.setStage i stage).stage j = .reset) :
    j ≠ i ∧ s.stage j = .reset := by
  by_cases hji : j = i
  · subst hji
    exact absurd ((update_self ..).symm.trans hj) hstage
  · exact ⟨hji, (update_of_ne hji ..).symm.trans hj⟩

theorem Settled.setStage (h : Settled s) (hstage : stage ≠ .reset) :
    Settled (s.setStage i stage) := by
  refine ⟨fun j hj => ?_, h.flying, ⟨h.single.idle, h.single.length_le⟩⟩
  obtain ⟨hfly, hcallbacks, hresult, honly⟩ := h.starting j (stage_reset hstage hj).2
  exact ⟨hfly, hcallbacks, hresult, fun j' hj' => honly j' (stage_reset hstage hj').2⟩

theorem settled_poll {hal : Rc} (h : Settled s) (hc : Exclusive k args s (.poll i hal))
    (hs : s.poll k (args i) i hal = some t) : Settled t := by
  unfold System.poll at hs
  cases hstage : s.stage i with
  | fresh =>
    obtain ⟨hfly, hcallbacks, hnone⟩ := hc.1 hstage
    simp only [hstage] at hs
    split_ifs at hs
    · cases hs
      exact h.setStage (by simp)
    · cases hs
      have honly : ∀ j, (s.setStage i .reset).stage j = .reset → j = i := by
        intro j hj
        by_contra hji
        exact hnone j ((update_of_ne hji ..).symm.trans hj)
      refine ⟨fun j hj => ⟨hfly, hcallbacks, rfl, fun j' hj' => ?_⟩, fun hne => absurd hfly hne,
        ⟨h.single.idle, h.single.length_le⟩⟩
      rw [honly j hj, honly j' hj']
  | reset =>
    obtain ⟨hfly, hcallbacks, hresult, honly⟩ := h.starting i hstage
    simp only [hstage] at hs
    split_ifs at hs
    · cases hs
      refine ⟨fun j hj => ?_, fun _ => ⟨hcallbacks, hresult⟩, ⟨by simp, by simp [hfly]⟩⟩
      obtain ⟨hne, hreset⟩ := stage_reset (by simp) hj
      exact absurd (honly j hreset) hne
    · cases hs
      exact h.setStage (by simp)
  | waiting =>
    simp only [hstage] at hs
    split at hs
    · cases hs
      exact h
    · cases hs
      exact h.setStage (by simp)
  | done rc =>
    rw [hstage] at hs
    cases hs
  | dropped =>
    rw [hstage] at hs
    cases hs

theorem settled_step {a : Act} (h : Settled s) (hc : Exclusive k args s a)
    (hs : step k args s a = some t) : Settled t := by
  cases a with
  | poll i hal => exact settled_poll h hc hs
  | drop i =>
    simp only [step] at hs
    split_ifs at hs
    cases hs
    exact h.setStage (by simp)
  | complete rc =>
    simp only [step] at hs
    split at hs
    · cases hs
    · rename_i x rest hfly
      have hlength := h.single.length_le
      rw [hfly] at hlength
      obtain rfl : rest = [] := eq_nil_of_length_eq_zero (by simpa using hlength)
      cases hs
      refine ⟨fun j hj => ?_, fun hne => absurd rfl hne, ⟨fun _ => rfl, by simp⟩⟩
      exact absurd ((h.starting j hj).1.symm.trans hfly) (by simp)
  | callback =>
    simp only [step] at hs
    split at hs
    · cases hs
    · rename_i rc rest hcallbacks
      cases hs
      have hnone : rc :: rest ≠ [] := by simp
      refine ⟨fun j hj => ?_, fun hne => ?_, ⟨h.single.idle, h.single.length_le⟩⟩
      · exact absurd (hcallbacks.symm.trans (h.starting j hj).2.1) hnone
      · exact absurd (hcallbacks.symm.trans (h.flying hne).1) hnone

theorem proper_of_exclusive {a : Act} (h : Settled s) (hc : Exclusive k args s a) :
    Proper k args s a := by
  cases a with
  | poll i hal =>
    refine ⟨fun _ _ => hc.2, fun _ hresult => ?_⟩
    rintro ⟨x, hx, -⟩
    exact hresult (h.flying (ne_nil_of_mem hx)).2
  | drop i => exact hc
  | complete rc => trivial
  | callback => trivial

end

theorem sound_of_exclusive {k : Kind} {args : ℕ → Args} {acts : List Act}
    (h : Each (step k args) (Exclusive k args) .init acts) :
    Always (step k args) (Sound args) .init acts := by
  have hsettled : Settled .init :=
    ⟨fun i hi => absurd hi (by simp [System.init]), fun hne => absurd rfl hne,
      ⟨fun _ => rfl, Nat.zero_le _⟩⟩
  have hproper : Each (step k args) (Proper k args) .init acts := by
    refine Each.imp (I := Settled) ?_ hsettled h
    intro s a t hs ht hc
    exact ⟨proper_of_exclusive hs hc, settled_step hs hc ht⟩
  exact (always_and_of_each (fun s a t hI hP hs => step_sound hI hP hs) hsettled.single
    (forall_mem_nil _) hproper).mono fun s hs => hs.2

theorem sound_of_exclusive_run : Always (step .i2c fun _ => equalArgs) (Sound fun _ => equalArgs)
    .init (submitted ++ [.complete .ok, .callback, .poll 0 .ok]) := by
  have hok : Kind.i2c.submit false (Kind.i2c.request equalArgs) .ok = .ok := rfl
  apply sound_of_exclusive
  simp [submitted, Each, step, System.poll, System.init, System.setStage, Exclusive, Kind.Fits,
    Kind.skips, hok]

end Overtos.Bus
