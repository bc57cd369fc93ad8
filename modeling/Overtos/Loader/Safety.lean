import Overtos.Loader.Bounds

/-! When a load and the later symbol lookups stay inside their memory. -/
namespace Overtos.Loader
open Word Memory Traced CStr List

variable {K : Format} {A : Args} {eh : Record} {mod : Module} {m : Mem}

section

def NamesFit (A : Args) (m : Mem) (p : ℕ) : List Import → Prop
  | [] => True
  | ⟨none, _⟩ :: rest => NamesFit A m p rest
  | ⟨some s, _⟩ :: rest => (∀ i ≤ agree m p s.bytes, Readable A (p + i)) ∧
    (¬(agree m p s.bytes = s.bytes.length ∧ m (p + s.bytes.length) = 0) → NamesFit A m p rest)

def symbolAt (K : Format) (A : Args) (mod : Module) (m : Mem) (i : ℕ) : Record :=
  fun k w => load m (A.word (mod.symtab + i * K.symSize) + k) w

def SymbolFits (K : Format) (A : Args) (mod : Module) (m : Mem) (i : ℕ) : Prop :=
  i < mod.symCount → field (symbolAt K A mod m i) K.stShndx = shnUndef →
    ∀ p, symName A mod (stName (symbolAt K A mod m i)) = some p → NamesFit A m p A.imports

theorem permitted_byte {a : ℕ} : Permitted A (.read a 1) ↔ Readable A a := by
  simp [Permitted]

variable {p shndx value i : ℕ} {l : List Import}

theorem lookupImport_safe : Safe (Permitted A) (lookupImport p l) m ↔ NamesFit A m p l := by
  induction l with
  | nil => simp [lookupImport, NamesFit]
  | cons imp rest ih =>
    rcases imp with ⟨_ | s, addr⟩
    · exact ih
    · simp only [lookupImport, NamesFit, safe_bind, safe_strEq, post_strEq, safe_ite, safe_pure,
        permitted_byte, ih, decide_eq_true_eq, imp_true_iff, true_and]

theorem lookupImport_mem : Post (lookupImport p l) m fun _ m' => m' = m := by
  induction l with
  | nil => simp [lookupImport]
  | cons imp rest ih =>
    rcases imp with ⟨_ | s, addr⟩
    · exact ih
    · simp only [lookupImport, post_bind, post_strEq, post_ite, post_pure, imp_true_iff, true_and]
      exact fun _ => ih

theorem resolve_mem {st_name : ℕ} :
    Post (resolve A mod shndx value st_name) m fun _ m' => m' = m := by
  simp only [resolve, post_ite, post_pure, post_stop, imp_true_iff, and_true]
  intro _
  cases symName A mod st_name with
  | none => exact post_stop
  | some p => exact lookupImport_mem

theorem symbolOf_mem : Post (symbolOf K A mod i) m fun _ m' => m' = m := by
  simp only [symbolOf, post_bind, post_require, post_fetch]
  exact fun _ => resolve_mem

theorem symbol_inside (ht : TablesIn K A mod) (hn : mod.symtab ≠ 0) (hi : i < mod.symCount) :
    ImageOnly A (.read (A.word (mod.symtab + i * K.symSize)) K.symSize) := by
  obtain ⟨k, hk, hin⟩ := ht.symbols.resolve_left hn
  have hs : (i + 1) * K.symSize ≤ mod.symCount * K.symSize := Nat.mul_le_mul_right _ hi
  rw [Nat.succ_mul] at hs
  rw [hk, Nat.add_assoc]
  exact imageOnly_slice (by omega)

theorem resolve_safe {st : ℕ} :
    Safe (Permitted A) (resolve A mod shndx value st) m ↔ (shndx = shnUndef →
      ∀ p, symName A mod st = some p → NamesFit A m p A.imports) := by
  simp only [resolve, safe_ite, safe_pure, safe_stop, imp_true_iff, and_true]
  refine forall_congr' fun _ => ?_
  cases symName A mod st with
  | none => simp
  | some p => simp [lookupImport_safe]

theorem symbolOf_safe (P : Prepared K A eh mod) :
    Safe (Permitted A) (symbolOf K A mod i) m ↔ SymbolFits K A mod m i := by
  simp only [symbolOf, safe_bind, safe_require, post_require, safe_fetch, post_fetch, true_and,
    resolve_safe]
  exact forall_congr' fun hi => and_iff_right (symbol_inside P.tables P.symtab hi).permitted

theorem safe_symbolOf_bind (P : Prepared K A eh mod) {f : ℕ → Prog Rc Module} :
    Safe (Permitted A) (symbolOf K A mod i >>= f) m ↔ SymbolFits K A mod m i ∧
      ∀ S, (symbolOf K A mod i m).result = .ok S → Safe (Permitted A) (f S) m := by
  rw [safe_bind, symbolOf_safe P]
  exact and_congr_right' (forall₂_congr fun S hS => by rw [symbolOf_mem S hS])

end

structure Entry where
  mod : Module
  tgt : ℕ
  rel : Record
  mem : Mem

section

def X86Reloc.width : X86Reloc → ℕ
  | .none => 0
  | .abs64 => 8
  | _ => 4

def Entry.RelaFits (A : Args) (x : Entry) : Prop :=
  SymbolFits elf64 A x.mod x.mem (x.rel 8 8 / 2 ^ 32) ∧
  ∀ S, (symbolOf elf64 A x.mod (x.rel 8 8 / 2 ^ 32) x.mem).result = .ok S →
    ∀ k, X86Reloc.ofType (x.rel 8 8 % 2 ^ 32) = some k → ∀ i < k.width,
      A.region.Has (A.word (x.mod.secAddr x.tgt + x.rel 0 8) + i)

theorem X86Reloc.patch_safe {loc S a : ℕ} {k : X86Reloc} :
    Safe (Permitted A) (k.patch loc S a) m ↔ ∀ i < k.width, A.region.Has (loc + i) := by
  cases k with
  | none => simp [patch, width]
  | abs64 | pc32 | plt32 | abs32 | abs32s => exact safe_put

variable {rel : Record}

theorem applyRela64_safe (P : Prepared elf64 A eh mod) {tgt : ℕ} :
    Safe (Permitted A) (applyRela64 A mod tgt rel) m ↔ Entry.RelaFits A ⟨mod, tgt, rel, m⟩ := by
  rw [applyRela64, safe_symbolOf_bind P]
  refine and_congr_right' (forall₂_congr fun S _ => ?_)
  cases X86Reloc.ofType (rel 8 8 % 2 ^ 32) with
  | none => simp
  | some k =>
    simp only [safe_bind, X86Reloc.patch_safe, safe_pure, Option.some.injEq, forall_eq']
    exact and_iff_left fun _ _ => trivial

theorem applyRela64_post (P : Prepared elf64 A eh mod) {tgt : ℕ} :
    Post (applyRela64 A mod tgt rel) m fun mod' _ => Prepared elf64 A eh mod' := by
  rw [applyRela64, post_bind]
  intro S _
  dsimp only
  cases X86Reloc.ofType (rel 8 8 % 2 ^ 32) with
  | none => simp
  | some k =>
    rw [post_bind]
    exact fun _ _ => post_pure.mpr P

end

section

def ArmReloc.Stores (A : Args) (mod : Module) (m : Mem) (loc S : ℕ) : ArmReloc → Prop
  | .none => False
  | .thmCall | .thmJump24 => outOfReach (thmWant A loc S (load m loc 2) (load m (loc + 2) 2)) →
    A.word (veneerOff A mod + 8) ≤ A.region.size
  | _ => True

def Entry.RelArmFits (A : Args) (x : Entry) : Prop :=
  SymbolFits elf32 A x.mod x.mem (x.rel 4 4 / 2 ^ 8) ∧
  ∀ S, (symbolOf elf32 A x.mod (x.rel 4 4 / 2 ^ 8) x.mem).result = .ok S →
    (∀ i < 4, Readable A (A.word (x.mod.secAddr x.tgt + x.rel 0 4) + i)) ∧
    ∀ k, ArmReloc.ofType (x.rel 4 4 % 2 ^ 8) = some k →
      k.Stores A x.mod x.mem (A.word (x.mod.secAddr x.tgt + x.rel 0 4)) S → ∀ i < 4,
        A.region.Has (A.word (x.mod.secAddr x.tgt + x.rel 0 4) + i)

theorem region_below (hsize : 52 ≤ A.image.size) : A.region.size + 52 < 2 ^ A.arch.bits := by
  have := A.imageFits
  have := A.regionFits
  have := A.apart
  omega

theorem veneerOff_le (hsize : 52 ≤ A.image.size) (hu : mod.regionUsed ≤ A.region.size) :
    veneerOff A mod ≤ A.region.size + 3 := by
  have hw := region_below hsize
  have hbits : 2 ≤ A.arch.bits := by rcases A.arch.bits_cases with h | h <;> omega
  have hlt : mod.regionUsed + 3 < 2 ^ A.arch.bits := by omega
  have hmask := land_comp_mask hbits hlt
  rw [veneerOff, Space.word_of_lt hlt]
  change mod.regionUsed + 3 &&& comp A.arch.bits (2 ^ 2 - 1) ≤ _
  rw [hmask]
  have := Nat.div_mul_le_self (mod.regionUsed + 3) (2 ^ 2)
  omega

theorem word_veneer (hsize : 52 ≤ A.image.size) (hu : mod.regionUsed ≤ A.region.size) :
    A.word (veneerOff A mod + 8) = veneerOff A mod + 8 := by
  have := region_below hsize
  have := veneerOff_le hsize hu
  exact Space.word_of_lt (by omega)

variable {S loc tgt : ℕ} {rel : Record}

theorem armVeneer_safe (hsize : 52 ≤ A.image.size) (hu : mod.regionUsed ≤ A.region.size) :
    Safe (Permitted A) (armVeneer A mod S) m := by
  have hfit := A.regionFits
  simp only [armVeneer, safe_ite, safe_pure, safe_bind, safe_put, post_put, word_veneer hsize hu,
    imp_true_iff, true_and, and_true]
  intro hroom
  rw [Space.word_of_lt (by omega)]
  refine ⟨permitted_write ?_ ?_, permitted_write ?_ ?_, permitted_write ?_ ?_⟩ <;> omega

theorem armVeneer_post {Q : ℕ × Module → Mem → Prop} : Post (armVeneer A mod S) m Q ↔
      if A.word (veneerOff A mod + 8) ≤ A.region.size then
        Q (A.word (A.region.addr + veneerOff A mod),
            { mod with regionUsed := A.word (veneerOff A mod + 8) })
          (store (store (store m (A.word (A.region.addr + veneerOff A mod)) 2 0xf8df)
            (A.word (A.region.addr + veneerOff A mod) + 2) 2 0xf000)
            (A.word (A.region.addr + veneerOff A mod) + 4) 4 (wrap 32 S))
      else Q (0, mod) m := by
  simp only [armVeneer]
  by_cases h : A.word (veneerOff A mod + 8) ≤ A.region.size
  · rw [if_neg (by omega), if_pos h]
    simp only [post_bind, post_put, post_pure]
  · rw [if_pos (by omega), if_neg h, post_pure]

theorem thmPatch_safe {hw : ℕ × ℕ} :
    Safe (Permitted A) (thmPatch loc hw) m ↔ ∀ i < 4, A.region.Has (loc + i) := by
  simp only [thmPatch, safe_bind, safe_put, post_put, Permitted]
  constructor
  · rintro ⟨hlo, hhi⟩ i hi
    rcases Nat.lt_or_ge i 2 with h | h
    · exact hlo i h
    · have := hhi (i - 2) (by omega)
      rwa [Nat.add_assoc, Nat.add_sub_cancel' h] at this
  · intro h
    refine ⟨fun i hi => h i (by omega), fun i hi => ?_⟩
    rw [Nat.add_assoc]
    exact h (2 + i) (by omega)

theorem thmBranch_safe (hsize : 52 ≤ A.image.size) (hreg : A.region.addr ≠ 0)
    (hu : mod.regionUsed ≤ A.region.size) (hr : ∀ i < 4, Readable A (loc + i)) :
    Safe (Permitted A) (thmBranch A mod loc S) m ↔
      ((outOfReach (thmWant A loc S (load m loc 2) (load m (loc + 2) 2)) →
        A.word (veneerOff A mod + 8) ≤ A.region.size) → ∀ i < 4, A.region.Has (loc + i)) := by
  have hlo : Permitted A (.read loc 2) := fun i hi => hr i (by omega)
  have hhi : Permitted A (.read (loc + 2) 2) := fun i hi => by
    rw [Nat.add_assoc]
    exact hr (2 + i) (by omega)
  simp only [thmBranch, safe_bind, safe_get, post_get, safe_ite, safe_require, post_require,
    armVeneer_safe hsize hu, thmPatch_safe, armVeneer_post, safe_pure, hlo, hhi, true_and]
  by_cases hout : outOfReach (thmWant A loc S (load m loc 2) (load m (loc + 2) 2))
  · by_cases hroom : A.word (veneerOff A mod + 8) ≤ A.region.size
    · have hv : A.word (A.region.addr + veneerOff A mod) ≠ 0 := by
        have := A.regionFits
        rw [word_veneer hsize hu] at hroom
        rw [Space.word_of_lt (by omega)]
        omega
      simp [hout, hroom, hv, Post]
    · simp [hout, hroom]
  · simp [hout, Post]

theorem ArmReloc.patch_safe (hsize : 52 ≤ A.image.size) (hreg : A.region.addr ≠ 0)
    (hu : mod.regionUsed ≤ A.region.size) {a : ℕ} (hr : ∀ i < 4, Readable A (loc + i))
    {k : ArmReloc} : Safe (Permitted A) (k.patch A mod loc S a) m ↔
      (k.Stores A mod m loc S → ∀ i < 4, A.region.Has (loc + i)) := by
  cases k with
  | none => simp [patch, Stores]
  | thmCall | thmJump24 => exact thmBranch_safe hsize hreg hu hr
  | abs32 | rel32 | target1 | prel31 => simp [patch, Stores, Permitted]

theorem applyRelArm_safe (hsize : 52 ≤ A.image.size) (hreg : A.region.addr ≠ 0)
    (P : Prepared elf32 A eh mod) :
    Safe (Permitted A) (applyRelArm A mod tgt rel) m ↔
      Entry.RelArmFits A ⟨mod, tgt, rel, m⟩ := by
  rw [applyRelArm, safe_symbolOf_bind P]
  refine and_congr_right' (forall₂_congr fun S _ => ?_)
  rw [safe_bind, safe_get, post_get]
  refine and_congr_right fun hr => ?_
  cases ArmReloc.ofType (rel 4 4 % 2 ^ 8) with
  | none => simp
  | some k => simp [ArmReloc.patch_safe hsize hreg P.used hr]

theorem Prepared.grow {K : Format} (P : Prepared K A eh mod) {n : ℕ} (hn : n ≤ A.region.size) :
    Prepared K A eh { mod with regionUsed := n } :=
  ⟨P.headers, ⟨P.tables.format, P.tables.symbols, P.tables.strings⟩, P.symtab, P.strtab, hn⟩

theorem thmBranch_post (P : Prepared elf32 A eh mod) :
    Post (thmBranch A mod loc S) m fun mod' _ => Prepared elf32 A eh mod' := by
  simp only [thmBranch, thmPatch, post_bind, post_get, post_ite, post_require, post_put,
    post_pure, armVeneer_post]
  refine ⟨fun _ => ?_, fun _ => P⟩
  split_ifs with hroom
  · exact fun _ => P.grow hroom
  · exact fun _ => P

theorem applyRelArm_post (P : Prepared elf32 A eh mod) :
    Post (applyRelArm A mod tgt rel) m fun mod' _ => Prepared elf32 A eh mod' := by
  rw [applyRelArm, post_bind]
  intro S _
  rw [post_bind, post_get]
  cases ArmReloc.ofType (rel 4 4 % 2 ^ 8) with
  | none => simp
  | some k =>
    cases k with
    | thmCall | thmJump24 => exact thmBranch_post P
    | none | abs32 | rel32 | target1 | prel31 => simpa [ArmReloc.patch] using P

end

section
variable (K : Format) (A : Args) (apply : Module → ℕ → Record → Prog Rc Module)

def sectionEntries (eh : Record) (i : ℕ) (mod : Module) (m : Mem) : List Entry :=
  let sh : Record := fun k w => load m
    (A.word (A.image.addr + field eh K.eShoff + i * field eh K.eShentsize) + k) w
  if shType sh ≠ K.relType ∨ field sh K.shInfo ≥ field eh K.eShnum ∨
      mod.secAddr (field sh K.shInfo) = 0 then []
  else if field sh K.shEntsize = K.relSize ∧
      ¬ldOob (field sh K.shOffset) (field sh K.shSize) A.image.size then
    (rounds (relocEntry K A apply (field sh K.shInfo) sh) (field sh K.shSize / K.relSize) 0 mod
      m).map fun r => ⟨r.2.1, field sh K.shInfo, fun k w => load r.2.2
        (A.word (A.image.addr + field sh K.shOffset + r.1 * K.relSize) + k) w, r.2.2⟩
  else []

def entries (m : Mem) : List Entry :=
  match prepare K A m with
  | ⟨.ok x, m', _⟩ => (rounds (relocSection K A x.1 apply) (field x.1 K.eShnum) 0 x.2 m').flatMap
      fun r => sectionEntries K A apply x.1 r.1 r.2.1 r.2.2
  | ⟨.error _, _, _⟩ => []

variable {K A apply} {eh : Record} {mod : Module} {m : Mem} {fits : Entry → Prop}
  (hsafe : ∀ eh mod tgt rel m, Prepared K A eh mod →
    (Safe (Permitted A) (apply mod tgt rel) m ↔ fits ⟨mod, tgt, rel, m⟩))
  (hpost : ∀ eh mod tgt rel m, Prepared K A eh mod →
    Post (apply mod tgt rel) m fun mod' _ => Prepared K A eh mod')

include hpost in
theorem relocEntry_post (P : Prepared K A eh mod) {tgt r : ℕ} {sh : Record} :
    Post (relocEntry K A apply tgt sh r mod) m fun mod' _ => Prepared K A eh mod' := by
  rw [relocEntry, post_bind, post_fetch]
  exact hpost _ _ _ _ _ P

include hpost in
theorem relocSection_post (P : Prepared K A eh mod) {i : ℕ} :
    Post (relocSection K A eh apply i mod) m fun mod' _ => Prepared K A eh mod' := by
  simp only [relocSection, post_bind, post_ite, post_pure, post_require]
  refine fun sh _ => ⟨fun _ => P, fun _ _ _ => ?_⟩
  exact post_loop (I := fun _ mod' _ => Prepared K A eh mod')
    (fun _ _ _ P' => relocEntry_post hpost P') P

include hsafe hpost in
theorem relocSection_safe (P : Prepared K A eh mod) {i : ℕ} (hi : i < field eh K.eShnum) :
    Safe (Permitted A) (relocSection K A eh apply i mod) m ↔
      ∀ x ∈ sectionEntries K A apply eh i mod m, fits x := by
  rw [relocSection, safe_bind, and_iff_right (rdShdr_safe P.headers hi), rdShdr, post_fetch,
    sectionEntries]
  split_ifs with hskip hchecks
  · simp
  · obtain ⟨hent, hin⟩ := hchecks
    simp only [safe_bind, safe_require, post_require, true_and, hent, hin, not_false_eq_true,
      true_imp_iff, safe_loop, forall_mem_map]
    rw [not_ldOob] at hin
    refine forall₂_congr fun r hr => ?_
    obtain ⟨⟨hlt, -⟩, P'⟩ := rounds_inv (I := fun _ mod' _ => Prepared K A eh mod')
      (fun _ _ _ P' => relocEntry_post hpost P') P r hr
    rw [Nat.zero_add] at hlt
    have hd := (Nat.mul_le_mul_right K.relSize (Nat.succ_le_of_lt hlt)).trans
      (Nat.div_mul_le_self _ _)
    rw [Nat.succ_mul] at hd
    rw [relocEntry, safe_bind, safe_fetch, post_fetch, hsafe _ _ _ _ _ P', Nat.add_assoc]
    exact and_iff_right (imageOnly_slice (by omega)).permitted
  · simp only [safe_bind, safe_require, post_require, true_and, not_mem_nil, false_imp_iff,
      imp_true_iff, iff_true]
    exact fun hent hin => absurd ⟨hent, hin⟩ hchecks

include hsafe hpost in
theorem loadImage_safe (hsize : K.ehdrSize ≤ A.image.size) :
    Safe (Permitted A) (loadImage K A apply) m ↔ ∀ x ∈ entries K A apply m, fits x := by
  have hp := prepare_post (K := K) (A := A) (m := m)
  rw [loadImage, safe_bind, and_iff_right (prepare_safe hsize), entries]
  unfold Post at hp ⊢
  generalize prepare K A m = o at hp ⊢
  rcases o with ⟨e | x, m', log⟩
  · simp
  · have P := hp x rfl
    simp only [Except.ok.injEq, forall_eq', safe_loop, forall_mem_flatMap]
    refine forall₂_congr fun r hr => ?_
    obtain ⟨⟨hlt, -⟩, P'⟩ := rounds_inv (I := fun _ mod' _ => Prepared K A x.1 mod')
      (fun _ _ _ P' => relocSection_post hpost P') P r hr
    exact relocSection_safe hsafe hpost P' (by omega)

include hpost in
theorem loadImage_post : Post (loadImage K A apply) m fun mod' _ => ∃ eh, Prepared K A eh mod' := by
  rw [loadImage, post_bind]
  refine prepare_post.mono fun x _ P => ?_
  exact (post_loop (I := fun _ mod' _ => Prepared K A x.1 mod')
    (fun _ _ _ P' => relocSection_post hpost P') P).mono fun _ _ P' => ⟨x.1, P'⟩

end

section

def EndsInImage (A : Args) (m : Mem) (p : ℕ) : Prop :=
  ∃ a, p ≤ a ∧ a < A.image.addr + A.image.size ∧ m a = 0

def ExportsEnd (K : Format) (A : Args) (mod : Module) (m : Mem) : Prop :=
  ∀ i < mod.symCount, Exported K mod (symbolAt K A mod m i) →
    ∀ p, symName A mod (stName (symbolAt K A mod m i)) = some p → EndsInImage A m p

variable {p n i : ℕ} {name : Bytes}

theorem symName_inside (ht : TablesIn K A mod) (hn : mod.strtab ≠ 0) {st : ℕ}
    (h : symName A mod st = some p) : A.image.Has p := by
  obtain ⟨k, hk, hin⟩ := ht.strings.resolve_left hn
  have := A.imageFits
  unfold symName at h
  split_ifs at h with hst
  · cases h
    rw [hk, Space.word_of_lt (by omega)]
    exact ⟨by omega, by omega⟩

theorem imageOnly_compare (hp : A.image.Has p) :
    (∀ i ≤ n, ImageOnly A (.read (p + i) 1)) ↔ p + n < A.image.addr + A.image.size := by
  have hlo := hp.1
  constructor
  · intro h
    exact (h n le_rfl 0 one_pos).2
  · intro h i hi j hj
    exact ⟨by omega, by omega⟩

theorem strEq_inside (hp : A.image.Has p) (he : EndsInImage A m p) (name : CString) :
    Safe (ImageOnly A) (strEq p name.bytes : Prog Rc Bool) m := by
  obtain ⟨a, hpa, ha, hz⟩ := he
  have := agree_le_of_nul name.noNul hpa hz
  rw [safe_strEq, imageOnly_compare hp]
  omega

theorem symSearch_succ {ok : Access → Prop} : Safe ok (symSearch A K mod name (n + 1) i) m ↔
      ok (.read (A.word (mod.symtab + i * K.symSize)) K.symSize) ∧
      (∀ p, Exported K mod (symbolAt K A mod m i) →
        symName A mod (stName (symbolAt K A mod m i)) = some p →
        (∀ k ≤ agree m p name, ok (.read (p + k) 1)) ∧
        (¬(agree m p name = name.length ∧ m (p + name.length) = 0) →
          Safe ok (symSearch A K mod name n (i + 1)) m)) ∧
      ((Exported K mod (symbolAt K A mod m i) →
        symName A mod (stName (symbolAt K A mod m i)) = none) →
          Safe ok (symSearch A K mod name n (i + 1)) m) := by
  rw [symSearch, safe_bind, safe_fetch, post_fetch, safe_ite]
  refine and_congr_right fun _ => ?_
  change (Exported K mod (symbolAt K A mod m i) → _) ∧
    (¬Exported K mod (symbolAt K A mod m i) → _) ↔ _
  by_cases hex : Exported K mod (symbolAt K A mod m i)
  · simp only [hex, true_imp_iff, not_true, false_imp_iff, and_true]
    split
    next hp =>
      have hn : symName A mod (stName (symbolAt K A mod m i)) = none := hp
      simp [hn]
    next p hp =>
      have hn : symName A mod (stName (symbolAt K A mod m i)) = some p := hp
      simp [hn]
  · simp [hex]

theorem symSearch_safe (ht : TablesIn K A mod) (hsym : mod.symtab ≠ 0) (hstr : mod.strtab ≠ 0)
    (hend : ExportsEnd K A mod m) (name : CString) (hn : i + n ≤ mod.symCount) :
    Safe (ImageOnly A) (symSearch A K mod name.bytes n i) m := by
  induction n generalizing i with
  | zero => exact safe_pure
  | succ n ih =>
    have hrest := ih (i := i + 1) (by omega)
    have hi : i < mod.symCount := by omega
    refine symSearch_succ.mpr ⟨symbol_inside ht hsym hi, fun p hex hp => ?_, fun _ => hrest⟩
    have hin := symName_inside ht hstr hp
    exact ⟨safe_strEq.mp (strEq_inside hin (hend i hi hex p hp) name), fun _ => hrest⟩

theorem symSearch_long (ht : TablesIn K A mod) (hstr : mod.strtab ≠ 0)
    (hlong : A.image.size < name.length) (h : Safe (ImageOnly A) (symSearch A K mod name n i) m)
    {j : ℕ} (hij : i ≤ j) (hj : j < i + n) (hex : Exported K mod (symbolAt K A mod m j))
    (hp : symName A mod (stName (symbolAt K A mod m j)) = some p) :
    p + agree m p name < A.image.addr + A.image.size := by
  induction n generalizing i with
  | zero => omega
  | succ n ih =>
    obtain ⟨-, hcmp, hskip⟩ := symSearch_succ.mp h
    have hfirst : ∀ q, Exported K mod (symbolAt K A mod m i) →
        symName A mod (stName (symbolAt K A mod m i)) = some q →
        q + agree m q name < A.image.addr + A.image.size ∧
          Safe (ImageOnly A) (symSearch A K mod name n (i + 1)) m := by
      intro q hexi hq
      have hin := symName_inside ht hstr hq
      obtain ⟨hread, hgo⟩ := hcmp q hexi hq
      have hlt := (imageOnly_compare hin).mp hread
      have hlo := hin.1
      exact ⟨hlt, hgo fun hm => by omega⟩
    rcases Nat.eq_or_lt_of_le hij with rfl | hlt
    · exact (hfirst p hex hp).1
    · refine ih ?_ hlt (by omega)
      cases hq : symName A mod (stName (symbolAt K A mod m i)) with
      | none => exact hskip fun _ => hq
      | some q =>
        by_cases hexi : Exported K mod (symbolAt K A mod m i)
        · exact (hfirst q hexi hq).2
        · exact hskip fun hc => absurd hc hexi

def longName (A : Args) (m : Mem) (p : ℕ) : Bytes :=
  (range (A.image.addr + A.image.size - p)).map (fun i => m (p + i)) ++
    replicate (A.image.size + 1) 1

theorem longName_noNul (h : ¬EndsInImage A m p) : ∀ b ∈ longName A m p, b ≠ 0 := by
  intro b hb
  rw [longName, mem_append, mem_map] at hb
  rcases hb with ⟨i, hi, rfl⟩ | hb
  · rw [mem_range] at hi
    exact fun hz => h ⟨p + i, by omega, by omega, hz⟩
  · rw [eq_of_mem_replicate hb]
    decide

theorem symSearch_safe_iff (ht : TablesIn K A mod) (hsym : mod.symtab ≠ 0)
    (hstr : mod.strtab ≠ 0) :
    (∀ name : CString, Safe (ImageOnly A) (symSearch A K mod name.bytes mod.symCount 0) m) ↔
      ExportsEnd K A mod m := by
  refine ⟨fun h i hi hex p hp => ?_,
    fun h name => symSearch_safe ht hsym hstr h name (by omega)⟩
  by_contra hend
  have hs := h ⟨longName A m p, longName_noNul hend⟩
  have hin := symName_inside ht hstr hp
  have hlt := symSearch_long ht hstr (by simp [longName]; omega) hs (Nat.zero_le i) (by omega)
    hex hp
  have hle : A.image.addr + A.image.size - p ≤ agree m p (longName A m p) := le_agree_of_copy _ _
  have := hin.2
  dsimp only at hlt
  omega

end

def reached (A : Args) (m : Mem) : List Entry :=
  match identify A m with
  | ⟨.ok true, m', _⟩ => entries elf64 A (applyRela64 A) m'
  | ⟨.ok false, m', _⟩ => entries elf32 A (applyRelArm A) m'
  | ⟨.error _, _, _⟩ => []

def Entry.Fits (A : Args) (x : Entry) : Prop :=
  if x.mod.isElf64 then x.RelaFits A else x.RelArmFits A

def LoadSafe (A : Args) (m : Mem) : Prop :=
  Safe (Permitted A) (oveLoaderLoad A) m ∧
  Post (oveLoaderLoad A) m fun mod m' =>
    ∀ name, Safe (ImageOnly A) (oveLoaderSym A mod name) m'

theorem identify_safe : Safe (Permitted A) (identify A) m := by
  simp only [identify, safe_bind, safe_require, post_require, safe_get, post_get, safe_ite,
    safe_pure, true_and, imp_true_iff, and_true]
  refine fun hsize _ => ⟨(imageOnly_read ?_ ?_).permitted, fun _ =>
    ⟨(imageOnly_read ?_ ?_).permitted, fun _ => (imageOnly_read ?_ ?_).permitted⟩⟩ <;> omega

theorem identify_post : Post (identify A) m fun is64 _ => A.region.addr ≠ 0 ∧
    52 ≤ A.image.size ∧ (is64 = true → 64 ≤ A.image.size) := by
  simp only [identify, post_bind, post_require, post_get, post_ite, post_pure]
  exact fun h _ _ _ => ⟨fun _ h64 => ⟨h.2.1, h.2.2, fun _ => h64⟩,
    fun _ _ => ⟨h.2.1, h.2.2, fun h => by cases h⟩⟩

theorem load64_safe (hsize : 64 ≤ A.image.size) : Safe (Permitted A) (load64 A) m ↔
    ∀ x ∈ entries elf64 A (applyRela64 A) m, x.Fits A := by
  refine loadImage_safe (fun _ mod _ _ _ P => ?_) (fun _ _ _ _ _ P => applyRela64_post P) hsize
  have hcls : mod.isElf64 = true := P.tables.format
  rw [applyRela64_safe P, Entry.Fits, if_pos hcls]

theorem load32Arm_safe (hsize : 52 ≤ A.image.size) (hreg : A.region.addr ≠ 0) :
    Safe (Permitted A) (load32Arm A) m ↔
      ∀ x ∈ entries elf32 A (applyRelArm A) m, x.Fits A := by
  refine loadImage_safe (fun _ mod _ _ _ P => ?_) (fun _ _ _ _ _ P => applyRelArm_post P) hsize
  have hcls : mod.isElf64 = false := P.tables.format
  rw [applyRelArm_safe hsize hreg P, Entry.Fits, if_neg (by simp [hcls])]

theorem oveLoaderLoad_safe :
    Safe (Permitted A) (oveLoaderLoad A) m ↔ ∀ x ∈ reached A m, x.Fits A := by
  have hp := identify_post (A := A) (m := m)
  rw [oveLoaderLoad, safe_bind, and_iff_right identify_safe, reached]
  unfold Post at hp ⊢
  generalize identify A m = o at hp ⊢
  rcases o with ⟨e | _ | _, m', log⟩
  · simp
  · obtain ⟨hreg, hsize, -⟩ := hp false rfl
    simp [load32Arm_safe hsize hreg]
  · obtain ⟨-, -, hsize⟩ := hp true rfl
    simp [load64_safe (hsize rfl)]

def formatOf (mod : Module) : Format := if mod.isElf64 then elf64 else elf32

theorem oveLoaderLoad_post : Post (oveLoaderLoad A) m fun mod _ =>
    TablesIn (formatOf mod) A mod ∧ mod.symtab ≠ 0 ∧ mod.strtab ≠ 0 := by
  have hformat : ∀ {K : Format} {eh : Record} {mod : Module}, (K = elf64 ∨ K = elf32) →
      Prepared K A eh mod → TablesIn (formatOf mod) A mod ∧ mod.symtab ≠ 0 ∧ mod.strtab ≠ 0 := by
    intro K eh mod hK P
    have hf : formatOf mod = K := by
      rw [formatOf, P.tables.format]
      rcases hK with rfl | rfl <;> rfl
    exact ⟨hf ▸ P.tables, P.symtab, P.strtab⟩
  rw [oveLoaderLoad, post_bind]
  intro is64 _
  rw [post_ite]
  constructor
  · exact fun _ => (loadImage_post fun _ _ _ _ _ P => applyRela64_post P).mono
      fun _ _ ⟨_, P⟩ => hformat (.inl rfl) P
  · exact fun _ => (loadImage_post fun _ _ _ _ _ P => applyRelArm_post P).mono
      fun _ _ ⟨_, P⟩ => hformat (.inr rfl) P

theorem oveLoaderSym_safe {mod : Module} (ht : TablesIn (formatOf mod) A mod)
    (hsym : mod.symtab ≠ 0) (hstr : mod.strtab ≠ 0) :
    (∀ name, Safe (ImageOnly A) (oveLoaderSym A mod name) m) ↔
      ExportsEnd (formatOf mod) A mod m := by
  rw [← symSearch_safe_iff ht hsym hstr]
  refine forall_congr' fun name => ?_
  rw [oveLoaderSym, if_neg (by tauto)]
  rfl

/-- A load and its lookups stay inside their memory exactly if every relocation reached has a
readable name and a place in the region, and every exported name ends. -/
theorem loadSafe_iff (A : Args) (m : Mem) : LoadSafe A m ↔
    (∀ x ∈ reached A m, x.Fits A) ∧
    Post (oveLoaderLoad A) m fun mod m' => ExportsEnd (formatOf mod) A mod m' := by
  refine and_congr oveLoaderLoad_safe (Post.congr ?_)
  exact oveLoaderLoad_post.mono fun mod m' h => oveLoaderSym_safe h.1 h.2.1 h.2.2

def strayImage : Mem := layOut 0x1000
  [(0, 4, 0x464c457f), (4, 1, 1), (5, 1, 1), (16, 2, 1), (18, 2, 40), (32, 4, 52), (46, 2, 40),
    (48, 2, 3),
    (56, 4, 8), (60, 4, 2), (72, 4, 4),
    (96, 4, 2), (108, 4, 172), (112, 4, 16), (116, 4, 1), (128, 4, 16),
    (136, 4, 9), (148, 4, 188), (152, 4, 8), (168, 4, 8),
    (186, 2, 0xfff1),
    (188, 4, 8), (192, 4, 2)]

def strayArgs : Args where
  arch := .arm32
  image := ⟨0x1000, 196⟩
  region := ⟨0x2000, 4⟩
  imports := []
  importsNull := false
  importMem := fun _ => false
  imageFits := by decide
  regionFits := by decide
  apart := by decide

theorem load_writes_outside_region : (oveLoaderLoad strayArgs strayImage).result.toBool = true ∧
    Access.write 0x2008 4 ∈ (oveLoaderLoad strayArgs strayImage).log ∧
    ¬LoadSafe strayArgs strayImage := by
  have hlog : Access.write 0x2008 4 ∈ (oveLoaderLoad strayArgs strayImage).log := by
    decide +kernel
  refine ⟨by decide +kernel, hlog, fun h => ?_⟩
  have := h.1 _ hlog 0 (by decide)
  revert this
  decide

end Overtos.Loader
