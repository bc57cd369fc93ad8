import Overtos.Lib.Spans
import Overtos.Loader.Branches

/-! Where a load puts things: the sections, and behind them the veneers, lie in the region without
overlap. -/
namespace Overtos.Loader
open Word Memory Traced Thumb Spans Function List

section
variable (K : Format) (A : Args) (m : Mem)

def ehdr : Record := fun k w => load m (A.image.addr + k) w

def shdr (i : ℕ) : Record := fun k w => load m (A.word (A.image.addr + field (ehdr A m) K.eShoff +
  i * field (ehdr A m) K.eShentsize) + k) w

def IsLoaded (sh : Record) : Prop :=
  (shType sh = shtProgbits ∨ shType sh = shtNobits) ∧ field sh K.shFlags &&& shfAlloc ≠ 0 ∧
    field sh K.shSize > 0

instance (sh : Record) : Decidable (IsLoaded K sh) := inferInstanceAs (Decidable (_ ∧ _))

def sectionSpan (secAddr : ℕ → ℕ) (i : ℕ) : List Span :=
  if IsLoaded K (shdr K A m i) then
    [⟨secAddr i - A.region.addr, field (shdr K A m i) K.shSize,
      max 1 (field (shdr K A m i) K.shAddralign)⟩]
  else []

def sectionSpans (secAddr : ℕ → ℕ) (n : ℕ) : List Span :=
  (range n).flatMap (sectionSpan K A m secAddr)

def Entry.MakesVeneer (x : Entry) : Prop :=
  x.mod.isElf64 = false ∧ IsBranch x.rel ∧
    (symbolOf elf32 A x.mod (x.rel 4 4 / 2 ^ 8) x.mem).result.toOption.any (fun S =>
      ¬Reach (branchDisplacement S (place A x.mod x.tgt x.rel)
        (immAt x.mem (place A x.mod x.tgt x.rel)))) = true

instance (x : Entry) : Decidable (x.MakesVeneer A) := inferInstanceAs (Decidable (_ ∧ _))

def Entry.veneers (x : Entry) : List Span :=
  if x.MakesVeneer A then [⟨veneerOff A x.mod, 8, 4⟩] else []

def spans (mod : Module) : List Span :=
  sectionSpans (formatOf mod) A m mod.secAddr (field (ehdr A m) (formatOf mod).eShnum) ++
    (reached A m).flatMap (Entry.veneers A)

/-- The loaded sections ask for power-of-two alignments that the region's size can be rounded up
to. -/
def AlignmentsFit : Prop :=
  ∀ i < field (ehdr A m) K.eShnum, IsLoaded K (shdr K A m i) →
    (field (shdr K A m i) K.shAddralign = 0 ∨ ∃ k, field (shdr K A m i) K.shAddralign = 2 ^ k) ∧
    A.region.size + field (shdr K A m i) K.shAddralign < 2 ^ A.arch.bits

end

section
variable {K : Format} {A : Args} {mod : Module} {m m' : Mem} {secAddr : ℕ → ℕ} {n i : ℕ}

theorem sectionSpans_succ : sectionSpans K A m secAddr (n + 1) =
    sectionSpans K A m secAddr n ++ sectionSpan K A m secAddr n := by
  simp [sectionSpans, range_succ]

theorem sectionSpans_update {v : ℕ} (h : n ≤ i) :
    sectionSpans K A m (update secAddr i v) n = sectionSpans K A m secAddr n := by
  unfold sectionSpans
  refine flatMap_congr fun j hj => ?_
  have hj := mem_range.mp hj
  rw [sectionSpan, update_of_ne (by omega), sectionSpan]

variable {off align : ℕ} {sh eh : Record}

theorem alignUp_eq (hk : ∃ k, align = 2 ^ k) (h : off + align ≤ 2 ^ A.arch.bits) :
    alignUp A off align = roundUp align off := by
  obtain ⟨k, rfl⟩ := hk
  have hpos := Nat.two_pow_pos k
  have hkb : k ≤ A.arch.bits := (Nat.pow_le_pow_iff_right (by decide : 1 < 2)).mp (by omega)
  have h1 : off + 2 ^ k + 2 ^ A.arch.bits - 1 = off + 2 ^ k - 1 + 2 ^ A.arch.bits := by omega
  have h2 : 2 ^ k + 2 ^ A.arch.bits - 1 = 2 ^ k - 1 + 2 ^ A.arch.bits := by omega
  have hw1 : A.word (off + 2 ^ k - 1 + 2 ^ A.arch.bits) = off + 2 ^ k - 1 := by
    rw [Space.word, wrap, Nat.add_mod_right, Nat.mod_eq_of_lt (by omega)]
  have hw2 : A.word (2 ^ k - 1 + 2 ^ A.arch.bits) = 2 ^ k - 1 := by
    rw [Space.word, wrap, Nat.add_mod_right, Nat.mod_eq_of_lt (by omega)]
  rw [alignUp, h1, h2, hw1, hw2, land_comp_mask hkb (by omega), roundUp]

theorem shdr_field (H : HeadersIn K A (ehdr A m)) (hsame : SameOutside A.toSpace m m')
    (hi : i < field (ehdr A m) K.eShnum) {f : Field} (hf : f.off + f.width ≤ K.shdrSize) :
    field (fun k w => load m' (A.word (A.image.addr + field (ehdr A m) K.eShoff +
      i * field (ehdr A m) K.eShentsize) + k) w) f = field (shdr K A m i) f := by
  refine hsame.load fun x h1 h2 hx => ?_
  have hin := shdr_inside H hi (x - A.word (A.image.addr + field (ehdr A m) K.eShoff +
    i * field (ehdr A m) K.eShentsize)) (by omega)
  rw [Nat.add_sub_cancel' (by omega)] at hin
  have happ := A.apart
  unfold Obj.Has at *
  omega

theorem fillSection_same (hsame : SameOutside A.toSpace m m')
    (h : off + field sh K.shSize ≤ A.region.size) :
    Post (fillSection K A sh (A.region.addr + off)) m' fun _ m'' =>
      SameOutside A.toSpace m m'' := by
  simp only [fillSection, post_ite, post_memset, post_bind, post_require, post_memcpy]
  exact ⟨fun _ => hsame.fill (writesIn_place h), fun _ _ => hsame.copy (writesIn_place h)⟩

theorem placeSection_placed (hsame : SameOutside A.toSpace m m') (hoff : off ≤ A.region.size)
    (halign : align = max 1 (field sh K.shAddralign))
    (hk : field sh K.shAddralign = 0 ∨ ∃ k, field sh K.shAddralign = 2 ^ k)
    (hfit : A.region.size + field sh K.shAddralign < 2 ^ A.arch.bits) :
    Post (placeSection K A sh i off mod) m' fun x m'' => SameOutside A.toSpace m m'' ∧
      ∃ o, off ≤ o ∧ align ∣ o ∧ o + field sh K.shSize ≤ A.region.size ∧
        x = (o + field sh K.shSize,
          { mod with secAddr := update mod.secAddr i (A.region.addr + o) }) := by
  have hfits := A.regionFits
  have hpow : ∃ k, align = 2 ^ k := by
    rcases hk with hk | ⟨k, hk⟩
    · exact ⟨0, by rw [halign, hk]; rfl⟩
    · exact ⟨k, by rw [halign, hk, max_eq_right Nat.one_le_two_pow]⟩
  have hlt : A.region.size + align ≤ 2 ^ A.arch.bits := by omega
  have hsel : (if field sh K.shAddralign ≠ 0 then A.word (field sh K.shAddralign) else 1) =
      align := by
    by_cases h0 : field sh K.shAddralign = 0
    · rw [if_neg (not_not.mpr h0), halign, h0]
      rfl
    · rw [if_pos h0, halign, max_eq_right (Nat.pos_of_ne_zero h0)]
      exact Space.word_of_lt ((Nat.le_add_left _ _).trans_lt hfit)
  have hup : alignUp A off align = roundUp align off := alignUp_eq hpow (by omega)
  have hpos : 0 < align := by omega
  simp only [placeSection, post_bind, post_require, post_pure, not_ldOob, hsel, hup]
  intro hin
  rw [Space.word_of_lt (by omega), Space.word_of_lt (by omega)]
  refine (fillSection_same hsame hin).mono fun _ _ hs => ⟨hs, roundUp align off, ?_⟩
  exact ⟨le_roundUp hpos off, dvd_roundUp align off, hin, rfl⟩

theorem noteStrtab_keeps {link : ℕ} :
    Post (noteStrtab K A eh link mod) m fun mod' m' => mod'.secAddr = mod.secAddr ∧ m' = m := by
  simp [noteStrtab, rdShdr]

theorem noteSymtab_keeps :
    Post (noteSymtab K A eh sh mod) m fun mod' m' => mod'.secAddr = mod.secAddr ∧ m' = m := by
  simp only [noteSymtab, post_bind, post_require, post_ite, post_pure]
  exact fun _ _ => ⟨fun _ => noteStrtab_keeps, fun _ => by simp⟩

structure PlacedUpTo (K : Format) (A : Args) (m : Mem) (n : ℕ) (x : ℕ × Module) (m' : Mem) :
    Prop where
  same : SameOutside A.toSpace m m'
  laid : Laid A.region.size (sectionSpans K A m x.2.secAddr n)
  stop : stopOf (sectionSpans K A m x.2.secAddr n) = x.1
  above : ∀ j < n, IsLoaded K (shdr K A m j) → A.region.addr ≤ x.2.secAddr j

theorem sectionStep_placed (hK : K = elf64 ∨ K = elf32) (H : HeadersIn K A (ehdr A m))
    (ha : AlignmentsFit K A m) (hi : i < field (ehdr A m) K.eShnum) {x : ℕ × Module}
    (h : PlacedUpTo K A m i x m') :
    Post (sectionStep K A (ehdr A m) i x) m' (PlacedUpTo K A m (i + 1)) := by
  have hsh := fun f hf => shdr_field H h.same hi (f := f) hf
  rw [sectionStep, post_bind, rdShdr, post_fetch]
  generalize (fun k w => load m' (A.word (A.image.addr + field (ehdr A m) K.eShoff +
    i * field (ehdr A m) K.eShentsize) + k) w : Record) = sh at hsh ⊢
  have hty : shType sh = shType (shdr K A m i) :=
    hsh ⟨4, 4⟩ (by rcases hK with rfl | rfl <;> decide)
  have hfl := hsh K.shFlags (by rcases hK with rfl | rfl <;> decide)
  have hsz := hsh K.shSize (by rcases hK with rfl | rfl <;> decide)
  have hal := hsh K.shAddralign (by rcases hK with rfl | rfl <;> decide)
  have hload : IsLoaded K sh ↔ IsLoaded K (shdr K A m i) := by
    unfold IsLoaded
    rw [hty, hfl, hsz]
  change Post (if IsLoaded K sh then _ else _) _ _
  rw [post_ite]
  constructor
  · intro hl
    obtain ⟨hk, hfit⟩ := ha i hi (hload.mp hl)
    have hoff : x.1 ≤ A.region.size := h.stop ▸ h.laid.stopOf_le
    refine (placeSection_placed h.same hoff rfl (hal ▸ hk) (hal ▸ hfit)).mono ?_
    rintro _ m'' ⟨hs, o, ho, hd, hin, rfl⟩
    have hspans : sectionSpans K A m (update x.2.secAddr i (A.region.addr + o)) (i + 1) =
        sectionSpans K A m x.2.secAddr i ++
          [⟨o, field sh K.shSize, max 1 (field sh K.shAddralign)⟩] := by
      rw [sectionSpans_succ, sectionSpans_update le_rfl, sectionSpan, if_pos (hload.mp hl),
        update_self, Nat.add_sub_cancel_left, hsz, hal]
    refine ⟨hs, ?_, ?_, ?_⟩
    · rw [hspans]
      exact h.laid.concat (h.stop ▸ ho) hin hd
    · rw [hspans, stopOf_concat]
      rfl
    · intro j hj hlj
      dsimp only
      rcases Nat.lt_succ_iff_lt_or_eq.mp hj with hj | rfl
      · rw [update_of_ne (by omega)]
        exact h.above j hj hlj
      · rw [update_self]
        exact Nat.le_add_right _ _
  · intro hl
    have hnone : sectionSpans K A m x.2.secAddr (i + 1) = sectionSpans K A m x.2.secAddr i := by
      rw [sectionSpans_succ, sectionSpan, if_neg (hl ∘ hload.mpr), append_nil]
    have habove : ∀ j < i + 1, IsLoaded K (shdr K A m j) → A.region.addr ≤ x.2.secAddr j := by
      intro j hj hlj
      rcases Nat.lt_succ_iff_lt_or_eq.mp hj with hj | rfl
      · exact h.above j hj hlj
      · exact absurd (hload.mpr hlj) hl
    simp only [post_ite, post_bind, post_pure]
    refine ⟨fun _ => noteSymtab_keeps.mono ?_, fun _ => ?_⟩
    · rintro mod' _ ⟨hsec, rfl⟩
      refine ⟨h.same, ?_, ?_, hsec ▸ habove⟩
      · rw [hsec, hnone]
        exact h.laid
      · rw [hsec, hnone]
        exact h.stop
    · refine ⟨h.same, ?_, ?_, habove⟩
      · rw [hnone]
        exact h.laid
      · rw [hnone]
        exact h.stop

theorem prepare_placed (hK : K = elf64 ∨ K = elf32) (ha : AlignmentsFit K A m) :
    Post (prepare K A) m fun x m' =>
      PlacedUpTo K A m (field (ehdr A m) K.eShnum) (x.2.regionUsed, x.2) m' := by
  simp only [prepare, post_bind, post_fetch, post_require, post_pure, not_ldOob]
  intro _ hent _ hin
  rw [hent.1] at hin
  have hloop := post_loop (f := sectionStep K A (ehdr A m))
    (I := fun i x m' => i ≤ field (ehdr A m) K.eShnum → PlacedUpTo K A m i x m')
    (fun i x m' h y hy hle => sectionStep_placed hK ⟨hent.1, hin⟩ ha hle (h (by omega)) y hy)
    (n := field (ehdr A m) K.eShnum) (i := 0) (m := m)
    (x := (0, ⟨0, field (ehdr A m) K.eShnum, fun _ => 0, 0, 0, 0, 0, K.is64⟩))
    fun _ => ⟨fun _ _ => rfl, laid_nil, rfl, fun j hj => absurd hj (Nat.not_lt_zero j)⟩
  rw [Nat.zero_add] at hloop
  refine hloop.mono fun x _ h _ => ?_
  obtain ⟨hsame, hlaid, hstop, habove⟩ := h le_rfl
  exact ⟨hsame, hlaid, hstop, habove⟩

end

def Grows (A : Args) (mod : Module) (l : List Span) (mod' : Module) : Prop :=
  mod'.secAddr = mod.secAddr ∧ ∀ pre, Laid A.region.size pre → stopOf pre = mod.regionUsed →
    Laid A.region.size (pre ++ l) ∧ stopOf (pre ++ l) = mod'.regionUsed

section
variable {A : Args} {mod mod' mod'' : Module} {eh : Record} {tgt : ℕ} {rel : Record} {m : Mem}
  {l l' : List Span}

theorem Grows.nil (mod : Module) : Grows A mod [] mod := by
  refine ⟨rfl, fun pre hl hs => ?_⟩
  rw [append_nil]
  exact ⟨hl, hs⟩

theorem Grows.append (h : Grows A mod l mod') (h' : Grows A mod' l' mod'') :
    Grows A mod (l ++ l') mod'' := by
  refine ⟨h'.1.trans h.1, fun pre hl hs => ?_⟩
  obtain ⟨hl', hs'⟩ := h.2 pre hl hs
  rw [← append_assoc]
  exact h'.2 _ hl' hs'

theorem veneerOff_eq (hsize : 52 ≤ A.image.size) (hu : mod.regionUsed ≤ A.region.size) :
    veneerOff A mod = roundUp 4 mod.regionUsed := by
  have hw := region_below hsize
  have hbits : 2 ≤ A.arch.bits := by rcases A.arch.bits_cases with h | h <;> omega
  have hlt : mod.regionUsed + 3 < 2 ^ A.arch.bits := by omega
  have hmask := land_comp_mask hbits hlt
  rw [veneerOff, Space.word_of_lt hlt]
  exact hmask

theorem Grows.veneer (hsize : 52 ≤ A.image.size) (hu : mod.regionUsed ≤ A.region.size)
    (hroom : veneerOff A mod + 8 ≤ A.region.size) :
    Grows A mod [⟨veneerOff A mod, 8, 4⟩] { mod with regionUsed := veneerOff A mod + 8 } := by
  refine ⟨rfl, fun pre hl hs => ⟨hl.concat ?_ hroom ?_, stopOf_concat _ _⟩⟩
  · rw [hs, veneerOff_eq hsize hu]
    exact le_roundUp (by decide) _
  · rw [veneerOff_eq hsize hu]
    exact dvd_roundUp 4 _

theorem applyRela64_grows (hcls : mod.isElf64 = true) :
    Post (applyRela64 A mod tgt rel) m fun mod' _ =>
      Grows A mod (Entry.veneers A ⟨mod, tgt, rel, m⟩) mod' := by
  have hnone : Entry.veneers A ⟨mod, tgt, rel, m⟩ = [] :=
    if_neg fun h => by simp [Entry.MakesVeneer, hcls] at h
  rw [hnone, applyRela64, post_bind]
  intro S _
  dsimp only
  cases X86Reloc.ofType (rel 8 8 % 2 ^ 32) with
  | none => simp
  | some k =>
    rw [post_bind]
    exact fun _ _ => post_pure.mpr (Grows.nil mod)

theorem makesVeneer_iff {S : ℕ} (hcls : mod.isElf64 = false) (hb : IsBranch rel)
    (hS : (symbolOf elf32 A mod (rel 4 4 / 2 ^ 8) m).result = .ok S) :
    Entry.MakesVeneer A ⟨mod, tgt, rel, m⟩ ↔
      ¬Reach (branchDisplacement S (place A mod tgt rel) (immAt m (place A mod tgt rel))) := by
  unfold Entry.MakesVeneer
  rw [hS]
  simp [hcls, hb, Except.toOption]

theorem thmBranch_grows (hsize : 52 ≤ A.image.size) (hreg : A.region.addr ≠ 0)
    (P : Prepared elf32 A eh mod) (hb : IsBranch rel) {S : ℕ}
    (hS : (symbolOf elf32 A mod (rel 4 4 / 2 ^ 8) m).result = .ok S) :
    Post (thmBranch A mod (place A mod tgt rel) S) m fun mod' _ =>
      Grows A mod (Entry.veneers A ⟨mod, tgt, rel, m⟩) mod' := by
  have hmakes : Entry.MakesVeneer A ⟨mod, tgt, rel, m⟩ ↔
      ¬Reach (branchDisplacement S (place A mod tgt rel) (immAt m (place A mod tgt rel))) :=
    makesVeneer_iff P.tables.format hb hS
  rw [post_iff_ends, Entry.veneers]
  intro hends
  by_cases hr : Reach (branchDisplacement S (place A mod tgt rel) (immAt m (place A mod tgt rel)))
  · rw [thmBranch_ends hr place_lt, if_neg fun h => hmakes.mp h hr]
    exact Grows.nil mod
  · rw [thmBranch_far hsize hreg P.used place_lt hr] at hends ⊢
    rw [if_pos (hmakes.mpr hr)]
    exact ⟨hends.1, Grows.veneer hsize P.used hends.1⟩

theorem applyRelArm_grows (hsize : 52 ≤ A.image.size) (hreg : A.region.addr ≠ 0)
    (P : Prepared elf32 A eh mod) : Post (applyRelArm A mod tgt rel) m fun mod' _ =>
      Grows A mod (Entry.veneers A ⟨mod, tgt, rel, m⟩) mod' := by
  rw [applyRelArm, post_bind]
  intro S hS
  rw [symbolOf_mem S hS, post_bind, post_get]
  cases hk : ArmReloc.ofType (rel 4 4 % 2 ^ 8) with
  | none => simp
  | some k =>
    have hnone (h1 : k ≠ .thmCall) (h2 : k ≠ .thmJump24) :
        Entry.veneers A ⟨mod, tgt, rel, m⟩ = [] := by
      refine if_neg fun h => ?_
      rcases h.2.1 with hc | hj
      · exact h1 (Option.some.inj (hk.symm.trans hc))
      · exact h2 (Option.some.inj (hk.symm.trans hj))
    cases k with
    | thmCall => exact thmBranch_grows hsize hreg P (Or.inl hk) hS
    | thmJump24 => exact thmBranch_grows hsize hreg P (Or.inr hk) hS
    | none | abs32 | rel32 | target1 | prel31 =>
      rw [hnone (by decide) (by decide)]
      simpa [ArmReloc.patch] using Grows.nil mod

end

section
variable {K : Format} {A : Args} {apply : Module → ℕ → Record → Prog Rc Module} {eh : Record}
  {mod : Module} {m : Mem}
  (hpost : ∀ eh mod tgt rel m, Prepared K A eh mod →
    Post (apply mod tgt rel) m fun mod' _ => Prepared K A eh mod')
  (hgrows : ∀ eh mod tgt rel m, Prepared K A eh mod →
    Post (apply mod tgt rel) m fun mod' _ =>
      Grows A mod (Entry.veneers A ⟨mod, tgt, rel, m⟩) mod')

include hpost hgrows

theorem relocSection_grows (P : Prepared K A eh mod) {i : ℕ} :
    Post (relocSection K A eh apply i mod) m fun mod' _ =>
      Grows A mod ((sectionEntries K A apply eh i mod m).flatMap (Entry.veneers A)) mod' := by
  rw [relocSection, post_bind, rdShdr, post_fetch, sectionEntries]
  split_ifs with hskip hchecks
  · exact post_pure.mpr (Grows.nil mod)
  · simp only [post_bind, post_require]
    intro _ _
    rw [flatMap_map]
    refine post_loop_rounds (I := Prepared K A eh) Grows.nil Grows.append (fun r mod' m' P' => ?_) P
    rw [relocEntry, post_bind, post_fetch]
    exact fun y hy => ⟨hpost _ _ _ _ _ P' y hy, hgrows _ _ _ _ _ P' y hy⟩
  · simp only [post_bind, post_require]
    exact fun hent hin => absurd ⟨hent, hin⟩ hchecks

theorem loadImage_placed (hK : K = elf64 ∨ K = elf32) (ha : AlignmentsFit K A m) :
    Post (loadImage K A apply) m fun mod _ =>
      (∀ i < field (ehdr A m) K.eShnum, IsLoaded K (shdr K A m i) →
        A.region.addr ≤ mod.secAddr i) ∧
      Laid A.region.size (sectionSpans K A m mod.secAddr (field (ehdr A m) K.eShnum) ++
        (entries K A apply m).flatMap (Entry.veneers A)) ∧
      stopOf (sectionSpans K A m mod.secAddr (field (ehdr A m) K.eShnum) ++
        (entries K A apply m).flatMap (Entry.veneers A)) = mod.regionUsed := by
  have hp := prepare_post (K := K) (A := A) (m := m)
  have hq := prepare_placed hK ha
  rw [loadImage, post_bind]
  unfold entries
  unfold Post at hp hq ⊢
  generalize prepare K A m = o at hp hq ⊢
  rcases o with ⟨e | x, m', log⟩
  · exact fun _ hx => by cases hx
  · rintro _ ⟨⟩ mod hmod
    obtain ⟨-, hlaid, hstop, habove⟩ := hq x rfl
    have hloop := post_loop_rounds (f := relocSection K A x.1 apply) (n := field x.1 K.eShnum)
      (i := 0) (m := m') (I := Prepared K A x.1) (T := Grows A)
      (g := fun r => (sectionEntries K A apply x.1 r.1 r.2.1 r.2.2).flatMap (Entry.veneers A))
      Grows.nil Grows.append (fun i mod' m'' P' y hy => ⟨relocSection_post hpost P' y hy,
        relocSection_grows hpost hgrows P' y hy⟩) (hp x rfl)
    obtain ⟨hsec, hgrow⟩ := hloop mod hmod
    dsimp only
    rw [flatMap_assoc, hsec]
    exact ⟨habove, hgrow _ hlaid hstop⟩

end

theorem identify_mem {A : Args} {m : Mem} : Post (identify A) m fun _ m' => m' = m := by
  simp [identify]

/-- The loaded sections and all veneers lie inside the region without overlap, each aligned. -/
theorem load_placed (A : Args) (m : Mem) (mod : Module)
    (hok : (oveLoaderLoad A m).result = .ok mod) (ha : AlignmentsFit (formatOf mod) A m) :
    (∀ i < field (ehdr A m) (formatOf mod).eShnum, IsLoaded (formatOf mod)
      (shdr (formatOf mod) A m i) → A.region.addr ≤ mod.secAddr i) ∧
    Laid A.region.size (spans A m mod) ∧
      oveLoaderImageSize (some mod) = stopOf (spans A m mod) := by
  have hp := identify_post (A := A) (m := m)
  have hm := identify_mem (A := A) (m := m)
  have hend : Ends (oveLoaderLoad A) m fun mod' _ => mod' = mod := ⟨mod, hok, rfl⟩
  rw [oveLoaderLoad, ends_bind] at hend
  unfold spans reached
  unfold Ends at hend
  unfold Post at hp hm
  generalize identify A m = o at hp hm hend ⊢
  rcases o with ⟨e | _ | _, m', log⟩
  · obtain ⟨_, hb, -⟩ := hend
    cases hb
  · obtain ⟨hreg, hsize, -⟩ := hp false rfl
    obtain rfl := hm false rfl
    obtain ⟨_, hb, mod', hrun, rfl⟩ := hend
    cases hb
    obtain ⟨_, P⟩ := loadImage_post (fun _ _ _ _ _ P => applyRelArm_post P) _ hrun
    have hfmt : formatOf mod' = elf32 := if_neg (by rw [P.tables.format]; decide)
    rw [hfmt] at ha ⊢
    obtain ⟨habove, hlaid, hstop⟩ := loadImage_placed (fun _ _ _ _ _ P => applyRelArm_post P)
      (fun _ _ _ _ _ P => applyRelArm_grows hsize hreg P) (Or.inr rfl) ha _ hrun
    exact ⟨habove, hlaid, hstop.symm⟩
  · obtain rfl := hm true rfl
    obtain ⟨_, hb, mod', hrun, rfl⟩ := hend
    cases hb
    obtain ⟨_, P⟩ := loadImage_post (fun _ _ _ _ _ P => applyRela64_post P) _ hrun
    have hfmt : formatOf mod' = elf64 := if_pos P.tables.format
    rw [hfmt] at ha ⊢
    obtain ⟨habove, hlaid, hstop⟩ := loadImage_placed (fun _ _ _ _ _ P => applyRela64_post P)
      (fun _ _ _ _ _ P => applyRela64_grows P.tables.format) (Or.inl rfl) ha _ hrun
    exact ⟨habove, hlaid, hstop.symm⟩

theorem load_placed_far : ∃ mod, (oveLoaderLoad farArgs (farImage (0xf7ff, 0xfffe))).result =
    .ok mod ∧ Laid 16 (spans farArgs (farImage (0xf7ff, 0xfffe)) mod) ∧
      stopOf (spans farArgs (farImage (0xf7ff, 0xfffe)) mod) = 12 := by
  obtain ⟨mod, hok⟩ := ok_of_toBool (show
    (oveLoaderLoad farArgs (farImage (0xf7ff, 0xfffe))).result.toBool = true by decide +kernel)
  have hres : (oveLoaderLoad farArgs (farImage (0xf7ff, 0xfffe))).result.toOption.all (fun mod =>
      mod.isElf64 = false ∧ mod.regionUsed = 12) = true := by
    decide +kernel
  rw [hok] at hres
  obtain ⟨hcls, hused⟩ := of_decide_eq_true hres
  have hfmt : formatOf mod = elf32 := if_neg (by simp [hcls])
  have halign : ∀ i < field (ehdr farArgs (farImage (0xf7ff, 0xfffe))) elf32.eShnum,
      field (shdr elf32 farArgs (farImage (0xf7ff, 0xfffe)) i) elf32.shAddralign = 0 := by
    decide +kernel
  obtain ⟨-, hlaid, hsize⟩ := load_placed farArgs (farImage (0xf7ff, 0xfffe)) mod hok (by
    rw [hfmt]
    intro i hi _
    rw [halign i hi]
    exact ⟨Or.inl rfl, by decide⟩)
  exact ⟨mod, hok, hlaid, hsize.symm.trans hused⟩

end Overtos.Loader
