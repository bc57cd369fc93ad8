import Overtos.Pm.Model

/-! The reference counts of the power domains and the power they stand for. -/
namespace Overtos.Pm
open Runs Function

structure Tally where
  requested : Domain → ℕ
  released : Domain → ℕ

def Tally.note (n : Tally) (s : System) : Call → Tally
  | .domainRequest domain hal =>
    match Domain.ofNat? domain with
    | none => n
    | some d =>
      if (ovePmDomainRequest s.pm s.hw domain hal).1 = .ok then
        { n with requested := update n.requested d (n.requested d + 1) }
      else n
  | .domainRelease domain hal =>
    match Domain.ofNat? domain with
    | none => n
    | some d =>
      if (ovePmDomainRelease s.pm s.hw domain hal).1 = .ok then
        { n with released := update n.released d (n.released d + 1) }
      else n
  | _ => n

def tallyStep (s : System × Tally) (c : Call × Moments) : Option (System × Tally) :=
  (step s.1 c).map fun t => (t, s.2.note s.1 c.1)

def tallyStart (cfg : Cfg) (now : ℕ) : System × Tally := (.start cfg now, ⟨fun _ => 0, fun _ => 0⟩)

def CountsPower (s : System × Tally) : Prop :=
  ∀ d, s.1.pm.domainRefcount d = s.2.requested d - s.2.released d ∧ 0 ≤ s.1.pm.domainRefcount d ∧
    (s.1.hw d = true ↔ 0 < s.1.pm.domainRefcount d)

def FailsCleanly (s : System × Tally) (c : Call × Moments) : Prop :=
  match c.1 with
  | .domainRequest domain hal =>
    let r := ovePmDomainRequest s.1.pm s.1.hw domain hal
    r.1 ≠ .ok → r.2.1.domainRefcount = s.1.pm.domainRefcount ∧ r.2.2 = s.1.hw
  | .domainRelease domain hal =>
    let r := ovePmDomainRelease s.1.pm s.1.hw domain hal
    r.1 ≠ .ok → r.2.1.domainRefcount = s.1.pm.domainRefcount ∧ r.2.2 = s.1.hw
  | _ => True

/-- No last release finds the HAL unable to switch off, and no request finds the count at the
largest `int`. -/
def Careful (s : System × Tally) (c : Call × Moments) : Prop :=
  match c.1 with
  | .domainRequest domain _ => ∀ d ∈ Domain.ofNat? domain, s.1.pm.domainRefcount d ≠ 2 ^ 31 - 1
  | .domainRelease domain hal =>
    ∀ d ∈ Domain.ofNat? domain, s.1.pm.domainRefcount d = 1 → hal = .ok
  | _ => True

section

variable {pm : Ctx} {hw : Hardware} {domain : ℕ} {d : Domain} {hal : Rc}

theorem ovePmDomainRequest_cases (hi : pm.initialized = true)
    (hd : Domain.ofNat? domain = some d) :
    (pm.domainRefcount d = 0 ∧ hal ≠ .ok ∧ ovePmDomainRequest pm hw domain hal = (hal, pm, hw)) ∨
    (∃ hw', ovePmDomainRequest pm hw domain hal =
        (.ok, pm.setRefcount d (int32 (pm.domainRefcount d + 1)), hw') ∧
      hw' = if pm.domainRefcount d = 0 then update hw d true else hw) := by
  unfold ovePmDomainRequest
  rw [hd]
  simp only [hi, Bool.true_eq_false, if_false]
  by_cases hzero : pm.domainRefcount d = 0
  · by_cases hal : hal = .ok
    · refine .inr ⟨_, ?_, rfl⟩
      simp [hzero, hal, halSwitch]
    · refine .inl ⟨hzero, hal, ?_⟩
      simp [hzero, hal, halSwitch]
  · exact .inr ⟨_, by simp [hzero], rfl⟩

theorem ovePmDomainRelease_cases (hi : pm.initialized = true)
    (hd : Domain.ofNat? domain = some d) :
    (pm.domainRefcount d ≤ 0 ∧
      ovePmDomainRelease pm hw domain hal = (.errInvalidParam, pm, hw)) ∨
    (pm.domainRefcount d = 1 ∧ ovePmDomainRelease pm hw domain hal =
      (hal, pm.setRefcount d 0, halSwitch hw d false hal)) ∨
    (1 < pm.domainRefcount d ∧ ovePmDomainRelease pm hw domain hal =
      (.ok, pm.setRefcount d (pm.domainRefcount d - 1), hw)) := by
  unfold ovePmDomainRelease
  rw [hd]
  simp only [hi, Bool.true_eq_false, if_false, Ctx.setRefcount, update_self]
  by_cases hle : pm.domainRefcount d ≤ 0
  · exact .inl ⟨hle, if_pos hle⟩
  · rw [if_neg hle]
    by_cases hone : pm.domainRefcount d = 1
    · refine .inr (.inl ⟨hone, ?_⟩)
      simp [hone]
    · exact .inr (.inr ⟨by omega, if_neg (by omega)⟩)

theorem Effect.domains {pm' : Ctx} {t : Moments} {c : Call} (h : Effect pm t c pm')
    (hi : pm.initialized = true) :
    pm'.domainRefcount = pm.domainRefcount ∧ pm'.initialized = pm.initialized := by
  cases h with
  | resets =>
    rw [ovePmResetStats, if_neg (by simp [hi])]
    exact ⟨rfl, rfl⟩
  | _ => exact ⟨rfl, rfl⟩

theorem int32_succ {n : ℤ} (h : 0 ≤ n) (hlt : n < 2 ^ 31) :
    int32 (n + 1) = if n = 2 ^ 31 - 1 then -2 ^ 31 else n + 1 := by
  split_ifs with hmax
  · rw [hmax]
    rfl
  · exact Int.bmod_eq_of_le (by omega) (by omega)

end

def Sound (s : System × Tally) : Prop :=
  s.1.pm.initialized = true ∧ ∀ d, s.1.pm.domainRefcount d < 2 ^ 31

section

variable {s u : System × Tally} {c : Call × Moments}

theorem Sound.change (hI : Sound s) (d : Domain) {n : ℤ} (hn : n < 2 ^ 31) (hw : Hardware)
    (clock : ℕ) (tally : Tally) : Sound (⟨s.1.pm.setRefcount d n, hw, clock⟩, tally) := by
  refine ⟨hI.1, fun e => ?_⟩
  simp only [Ctx.setRefcount, update_apply]
  split_ifs
  · exact hn
  · exact hI.2 e

theorem CountsPower.change (hp : CountsPower s) {d : Domain} {n : ℤ} {hw : Hardware} (clock : ℕ)
    {tally : Tally} (hcount : n = tally.requested d - tally.released d) (hpos : 0 ≤ n)
    (hpower : hw d = true ↔ 0 < n)
    (hother : ∀ e, e ≠ d → tally.requested e = s.2.requested e ∧
      tally.released e = s.2.released e ∧ hw e = s.1.hw e) :
    CountsPower (⟨s.1.pm.setRefcount d n, hw, clock⟩, tally) := by
  intro e
  simp only [Ctx.setRefcount, update_apply]
  by_cases he : e = d
  · subst he
    simp only [if_true]
    exact ⟨hcount, hpos, hpower⟩
  · obtain ⟨hrequested, hreleased, hhw⟩ := hother e he
    simp only [if_neg he, hrequested, hreleased, hhw]
    exact hp e

variable {domain clock : ℕ}

theorem request_step {hal : Rc} (hI : Sound s) (hp : CountsPower s)
    (hu : u = (⟨(ovePmDomainRequest s.1.pm s.1.hw domain hal).2.1,
      (ovePmDomainRequest s.1.pm s.1.hw domain hal).2.2, clock⟩,
      s.2.note s.1 (.domainRequest domain hal))) :
    Sound u ∧
      (CountsPower u ↔ ∀ d ∈ Domain.ofNat? domain, s.1.pm.domainRefcount d ≠ 2 ^ 31 - 1) := by
  subst hu
  cases hd : Domain.ofNat? domain with
  | none =>
    simp only [ovePmDomainRequest, Tally.note, hd]
    exact ⟨hI, iff_of_true hp (by simp)⟩
  | some d =>
    have hlt := hI.2 d
    obtain ⟨hcount, hpos, hpower⟩ := hp d
    simp only [Option.mem_def, Option.some.injEq, forall_eq']
    obtain ⟨hzero, hfail, heq⟩ | ⟨hw', heq, hhw⟩ :=
      @ovePmDomainRequest_cases s.1.pm s.1.hw domain d hal hI.1 hd
    · -- the HAL did not switch the domain on
      simp only [Tally.note, hd, heq, if_neg hfail]
      refine ⟨hI, iff_of_true hp ?_⟩
      rw [hzero]
      decide
    · have hnext := int32_succ hpos hlt
      simp only [Tally.note, hd, heq, if_true]
      constructor
      · refine hI.change d ?_ ..
        rw [hnext]
        split_ifs <;> omega
      · constructor
        · intro h hmax
          have hneg := (h d).2.1
          simp only [Ctx.setRefcount, update_self] at hneg
          rw [hnext, if_pos hmax] at hneg
          omega
        · intro hmax
          rw [if_neg hmax] at hnext
          rw [hnext]
          refine hp.change clock ?_ (by omega) ?_ fun e he => ?_
          · simp only [update_self]
            push_cast
            omega
          · rw [hhw]
            split_ifs with hzero
            · simp [hzero]
            · exact iff_of_true (hpower.mpr (by omega)) (by omega)
          · refine ⟨update_of_ne he .., rfl, ?_⟩
            rw [hhw]
            split_ifs
            · exact update_of_ne he _ _
            · rfl

theorem release_step {hal : Rc} (hI : Sound s) (hp : CountsPower s)
    (hu : u = (⟨(ovePmDomainRelease s.1.pm s.1.hw domain hal).2.1,
      (ovePmDomainRelease s.1.pm s.1.hw domain hal).2.2, clock⟩,
      s.2.note s.1 (.domainRelease domain hal))) :
    Sound u ∧
      (CountsPower u ↔ ∀ d ∈ Domain.ofNat? domain, s.1.pm.domainRefcount d = 1 → hal = .ok) := by
  subst hu
  cases hd : Domain.ofNat? domain with
  | none =>
    simp only [ovePmDomainRelease, Tally.note, hd]
    exact ⟨hI, iff_of_true hp (by simp)⟩
  | some d =>
    have hlt := hI.2 d
    obtain ⟨hcount, hpos, hpower⟩ := hp d
    simp only [Option.mem_def, Option.some.injEq, forall_eq']
    obtain ⟨hle, heq⟩ | ⟨hone, heq⟩ | ⟨hmore, heq⟩ :=
      @ovePmDomainRelease_cases s.1.pm s.1.hw domain d hal hI.1 hd
    · -- nothing was requested
      simp only [Tally.note, hd, heq, if_neg (show ¬Rc.errInvalidParam = .ok by decide)]
      exact ⟨hI, iff_of_true hp fun h => by omega⟩
    · simp only [Tally.note, hd, heq]
      refine ⟨hI.change d (by norm_num) .., ?_⟩
      constructor
      · -- a last release that fails lets the count drop without switching off
        intro h _
        by_contra hfail
        have hoff := (h d).2.2
        simp only [Ctx.setRefcount, update_self, halSwitch, if_neg hfail, lt_irrefl,
          iff_false] at hoff
        exact hoff (hpower.mpr (by omega))
      · intro hok
        obtain rfl := hok hone
        refine hp.change clock ?_ le_rfl ?_ fun e he => ⟨rfl, ?_, ?_⟩
        · simp only [if_true, update_self]
          push_cast
          omega
        · simp [halSwitch]
        · exact update_of_ne he ..
        · exact update_of_ne he ..
    · simp only [Tally.note, hd, heq, if_true]
      refine ⟨hI.change d (by omega) .., iff_of_true ?_ fun h => by omega⟩
      refine hp.change clock ?_ (by omega) ?_ fun e he => ⟨rfl, ?_, rfl⟩
      · simp only [update_self]
        push_cast
        omega
      · exact iff_of_true (hpower.mpr (by omega)) (by omega)
      · exact update_of_ne he ..

theorem tallyStep_counts (hI : Sound s) (hp : CountsPower s) (hs : tallyStep s c = some u) :
    Sound u ∧ (CountsPower u ↔ Careful s c) := by
  obtain ⟨t, ht, rfl⟩ := Option.map_eq_some_iff.mp hs
  obtain ⟨call, moments⟩ := c
  unfold step at ht
  split_ifs at ht
  dsimp only at ht
  split at ht
  · cases ht
    exact request_step hI hp rfl
  · cases ht
    exact release_step hI hp rfl
  · rename_i hrequest hrelease
    cases ht
    obtain ⟨hcount, hinit⟩ := (callPm_effect hI.1 moments call).domains hI.1
    have htally : s.2.note s.1 call = s.2 := by
      cases call with
      | domainRequest domain hal => exact absurd rfl (hrequest domain hal)
      | domainRelease domain hal => exact absurd rfl (hrelease domain hal)
      | _ => rfl
    have hcareful : Careful s (call, moments) := by
      cases call with
      | domainRequest domain hal => exact absurd rfl (hrequest domain hal)
      | domainRelease domain hal => exact absurd rfl (hrelease domain hal)
      | _ => trivial
    refine ⟨⟨hinit.trans hI.1, ?_⟩, iff_of_true ?_ hcareful⟩
    · rw [hcount]
      exact hI.2
    · intro d
      simp only [hcount, htally]
      exact hp d

theorem failsCleanly_of_careful (hI : Sound s) (h : Careful s c) : FailsCleanly s c := by
  obtain ⟨call, moments⟩ := c
  cases call with
  | domainRequest domain hal =>
    intro hrc
    cases hd : Domain.ofNat? domain with
    | none =>
      simp only [ovePmDomainRequest, hd]
      exact ⟨trivial, trivial⟩
    | some d =>
      obtain ⟨-, -, heq⟩ | ⟨hw', heq, -⟩ :=
        @ovePmDomainRequest_cases s.1.pm s.1.hw domain d hal hI.1 hd
      · rw [heq]
        exact ⟨rfl, rfl⟩
      · rw [heq] at hrc
        exact absurd rfl hrc
  | domainRelease domain hal =>
    intro hrc
    cases hd : Domain.ofNat? domain with
    | none =>
      simp only [ovePmDomainRelease, hd]
      exact ⟨trivial, trivial⟩
    | some d =>
      obtain ⟨-, heq⟩ | ⟨hone, heq⟩ | ⟨-, heq⟩ :=
        @ovePmDomainRelease_cases s.1.pm s.1.hw domain d hal hI.1 hd
      · rw [heq]
        exact ⟨rfl, rfl⟩
      · rw [heq] at hrc
        exact absurd (h d hd hone) hrc
      · rw [heq] at hrc
        exact absurd rfl hrc
  | _ => trivial

end

theorem start_sound (cfg : Cfg) (now : ℕ) : Sound (tallyStart cfg now) := by
  refine ⟨rfl, fun d => ?_⟩
  change (0 : ℤ) < 2 ^ 31
  norm_num

theorem start_counts (cfg : Cfg) (now : ℕ) : CountsPower (tallyStart cfg now) := by
  intro d
  change (0 : ℤ) = 0 - 0 ∧ (0 : ℤ) ≤ 0 ∧ (false = true ↔ (0 : ℤ) < 0)
  decide

/-- The counts are right and failing calls change nothing exactly if the run is careful. -/
theorem domains_counted_iff (cfg : Cfg) (now : ℕ) (calls : List (Call × Moments)) :
    (Always tallyStep CountsPower (tallyStart cfg now) calls ∧
        Each tallyStep FailsCleanly (tallyStart cfg now) calls) ↔
      Each tallyStep Careful (tallyStart cfg now) calls := by
  have hstep : ∀ s c u, Sound s → CountsPower s → tallyStep s c = some u →
      Sound u ∧ (CountsPower u ↔ Careful s c) := fun _ _ _ => tallyStep_counts
  have hsound := start_sound cfg now
  have hcounts := start_counts cfg now
  have hiff := always_iff_each hstep hsound hcounts calls
  constructor
  · rintro ⟨hpower, -⟩
    exact hiff.mp hpower
  · intro hcareful
    refine ⟨hiff.mpr hcareful, ?_⟩
    have himp : ∀ s c u, Sound s ∧ CountsPower s → tallyStep s c = some u → Careful s c →
        FailsCleanly s c ∧ Sound u ∧ CountsPower u := by
      intro s c u hs hu hc
      obtain ⟨hnext, hkept⟩ := tallyStep_counts hs.1 hs.2 hu
      exact ⟨failsCleanly_of_careful hs.1 hc, hnext, hkept.mpr hc⟩
    exact hcareful.imp himp ⟨hsound, hcounts⟩

def failedRelease : List (Call × Moments) :=
  [(.domainRequest 0 .ok, ⟨0, 0, 0, 0, 0⟩), (.domainRelease 0 .errIo, ⟨0, 0, 0, 0, 0⟩)]

theorem failed_release_drops_count :
    ¬(Always tallyStep CountsPower (tallyStart ⟨0, 0, 0⟩ 0) failedRelease ∧
      Each tallyStep FailsCleanly (tallyStart ⟨0, 0, 0⟩ 0) failedRelease) := by
  rintro ⟨h, -⟩
  have hend := h.last rfl .radio
  exact absurd hend.1 (by decide)

end Overtos.Pm
