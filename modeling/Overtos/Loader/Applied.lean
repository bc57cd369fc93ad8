import Overtos.Loader.Safety

/-! The relocation entries of a load that succeeds: each of them was applied. -/
namespace Overtos.Loader
open Word Memory Traced

def Entry.apply (A : Args) (x : Entry) : Prog Rc Module :=
  if x.mod.isElf64 then applyRela64 A x.mod x.tgt x.rel else applyRelArm A x.mod x.tgt x.rel

structure Entry.Applied (A : Args) (x : Entry) : Prop where
  image : 52 ≤ A.image.size
  region : A.region.addr ≠ 0
  used : x.mod.regionUsed ≤ A.region.size
  ends : Ends (x.apply A) x.mem fun _ _ => True

section
variable {K : Format} {A : Args} {apply : Module → ℕ → Record → Prog Rc Module} {eh : Record}
  {mod : Module} {m : Mem} {good : Entry → Prop}
  (hpost : ∀ eh mod tgt rel m, Prepared K A eh mod →
    Post (apply mod tgt rel) m fun mod' _ => Prepared K A eh mod')
  (hgood : ∀ eh mod tgt rel m, Prepared K A eh mod →
    Ends (apply mod tgt rel) m (fun _ _ => True) → good ⟨mod, tgt, rel, m⟩)

include hpost hgood

theorem relocSection_entries (P : Prepared K A eh mod) {i : ℕ}
    (h : Ends (relocSection K A eh apply i mod) m fun _ _ => True) :
    ∀ x ∈ sectionEntries K A apply eh i mod m, good x := by
  rw [relocSection, ends_bind, rdShdr, ends_fetch, ends_ite] at h
  rw [sectionEntries]
  split_ifs with hskip hchecks
  · exact fun _ hx => absurd hx List.not_mem_nil
  · have hloop := h.2 hskip
    simp only [ends_bind, ends_require] at hloop
    rw [List.forall_mem_map]
    intro r hr
    have hround := rounds_end hloop.2.2 r hr
    obtain ⟨-, P'⟩ := rounds_inv (I := fun _ mod' _ => Prepared K A eh mod')
      (fun _ _ _ P' => relocEntry_post hpost P') P r hr
    rw [relocEntry, ends_bind, ends_fetch] at hround
    exact hgood eh _ _ _ _ P' hround
  · exact fun _ hx => absurd hx List.not_mem_nil

theorem loadImage_entries (h : Ends (loadImage K A apply) m fun _ _ => True) :
    ∀ x ∈ entries K A apply m, good x := by
  have hp := prepare_post (K := K) (A := A) (m := m)
  rw [loadImage, ends_bind] at h
  unfold Ends at h
  unfold Post at hp
  unfold entries
  generalize prepare K A m = o at hp h ⊢
  rcases o with ⟨e | x, m', log⟩
  · exact fun _ hx => absurd hx List.not_mem_nil
  · obtain ⟨y, hy, hloop⟩ := h
    cases hy
    have P := hp x rfl
    dsimp only
    rw [List.forall_mem_flatMap]
    intro r hr
    obtain ⟨-, P'⟩ := rounds_inv (I := fun _ mod' _ => Prepared K A x.1 mod')
      (fun _ _ _ P' => relocSection_post hpost P') P r hr
    exact relocSection_entries hpost hgood P' (rounds_end hloop r hr)

end

theorem reached_applied {A : Args} {m : Mem} {mod : Module}
    (hok : (oveLoaderLoad A m).result = .ok mod) : ∀ x ∈ reached A m, x.Applied A := by
  have h : Ends (oveLoaderLoad A) m fun _ _ => True := ⟨mod, hok, trivial⟩
  have hp := identify_post (A := A) (m := m)
  rw [oveLoaderLoad, ends_bind] at h
  unfold Ends at h
  unfold Post at hp
  unfold reached
  generalize identify A m = o at hp h ⊢
  rcases o with ⟨e | _ | _, m', log⟩
  · exact fun _ hx => absurd hx List.not_mem_nil
  · obtain ⟨hreg, hsize, -⟩ := hp false rfl
    obtain ⟨_, hb, hload⟩ := h
    cases hb
    refine loadImage_entries (fun _ _ _ _ _ P => applyRelArm_post P) ?_ hload
    intro eh mod tgt rel m P hends
    have hcls : mod.isElf64 = false := P.tables.format
    exact ⟨hsize, hreg, P.used, by simpa [Entry.apply, hcls] using hends⟩
  · obtain ⟨hreg, hsize, -⟩ := hp true rfl
    obtain ⟨_, hb, hload⟩ := h
    cases hb
    refine loadImage_entries (fun _ _ _ _ _ P => applyRela64_post P) ?_ hload
    intro eh mod tgt rel m P hends
    have hcls : mod.isElf64 = true := P.tables.format
    exact ⟨hsize, hreg, P.used, by simpa [Entry.apply, hcls] using hends⟩

end Overtos.Loader
