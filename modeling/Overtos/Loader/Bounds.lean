import Overtos.Loader.Module

/-! What a load touches: the section pass stays inside the image and the region. -/
namespace Overtos.Loader
open Word Memory Traced CStr

variable {K : Format} {A : Args} {eh : Record} {mod : Module} {m : Mem}

def Readable (A : Args) (a : ℕ) : Prop := A.image.Has a ∨ A.region.Has a ∨ A.importMem a = true

def Permitted (A : Args) : Access → Prop
  | .read a n => ∀ i < n, Readable A (a + i)
  | .write a n => ∀ i < n, A.region.Has (a + i)

def ImageOnly (A : Args) : Access → Prop
  | .read a n => ∀ i < n, A.image.Has (a + i)
  | .write _ n => n = 0

variable {n a off i link : ℕ} {sh : Record} {x : ℕ × Module}

theorem Space.word_of_lt {A : Space} (h : n < 2 ^ A.arch.bits) : A.word n = n := wrap_of_lt h

theorem imageOnly_read (h : A.image.addr ≤ a) (h' : a + n ≤ A.image.addr + A.image.size) :
    ImageOnly A (.read a n) :=
  fun i hi => ⟨by omega, by omega⟩

theorem ImageOnly.permitted (h : ImageOnly A (.read a n)) : Permitted A (.read a n) :=
  fun i hi => .inl (h i hi)

theorem permitted_write (h : A.region.addr ≤ a) (h' : a + n ≤ A.region.addr + A.region.size) :
    Permitted A (.write a n) :=
  fun i hi => ⟨by omega, by omega⟩

theorem not_ldOob {size limit : ℕ} : ¬ldOob off size limit ↔ off + size ≤ limit := by
  unfold ldOob
  omega

theorem imageOnly_slice {k : ℕ} (h : k + n ≤ A.image.size) :
    ImageOnly A (.read (A.word (A.image.addr + k)) n) := by
  have := A.imageFits
  rw [Space.word_of_lt (by omega)]
  exact imageOnly_read (by omega) (by omega)

theorem permitted_place (h : off + n ≤ A.region.size) :
    Permitted A (.write (A.word (A.region.addr + off)) n) := by
  have := A.regionFits
  rw [Space.word_of_lt (by omega)]
  exact permitted_write (by omega) (by omega)

structure HeadersIn (K : Format) (A : Args) (eh : Record) : Prop where
  entsize : field eh K.eShentsize = K.shdrSize
  inside : field eh K.eShoff + field eh K.eShnum * K.shdrSize ≤ A.image.size

structure TablesIn (K : Format) (A : Args) (mod : Module) : Prop where
  format : mod.isElf64 = K.is64
  symbols : mod.symtab = 0 ∨ ∃ k, mod.symtab = A.image.addr + k ∧
    k + mod.symCount * K.symSize ≤ A.image.size
  strings : mod.strtab = 0 ∨ ∃ k, mod.strtab = A.image.addr + k ∧
    k + mod.strtabSize ≤ A.image.size

theorem shdr_inside (H : HeadersIn K A eh) (hi : i < field eh K.eShnum) : ImageOnly A (.read
      (A.word (A.image.addr + field eh K.eShoff + i * field eh K.eShentsize)) K.shdrSize) := by
  have hs : (i + 1) * K.shdrSize ≤ field eh K.eShnum * K.shdrSize := Nat.mul_le_mul_right _ hi
  rw [Nat.succ_mul] at hs
  rw [H.entsize, Nat.add_assoc]
  exact imageOnly_slice (by have := H.inside; omega)

theorem rdShdr_safe (H : HeadersIn K A eh) (hi : i < field eh K.eShnum) :
    Safe (Permitted A) (rdShdr K A eh i) m := by
  rw [rdShdr, safe_fetch]
  exact (shdr_inside H hi).permitted

theorem fillSection_safe (h : off + field sh K.shSize ≤ A.region.size) :
    Safe (Permitted A) (fillSection K A sh (A.word (A.region.addr + off))) m := by
  simp only [fillSection, safe_ite, safe_memset, safe_bind, safe_require, post_require,
    safe_memcpy, not_ldOob, true_and]
  exact ⟨fun _ => permitted_place h, fun _ hi =>
    ⟨(imageOnly_slice hi).permitted, permitted_place h⟩⟩

theorem placeSection_safe : Safe (Permitted A) (placeSection K A sh i off mod) m := by
  simp only [placeSection, safe_bind, safe_require, post_require, safe_pure, not_ldOob, true_and]
  exact fun h => ⟨fillSection_safe h, fun _ _ => trivial⟩

theorem placeSection_post (ht : TablesIn K A mod) : Post (placeSection K A sh i off mod) m
      fun x _ => x.1 ≤ A.region.size ∧ TablesIn K A x.2 := by
  simp only [placeSection, post_bind, post_require, post_pure, not_ldOob]
  exact fun h _ _ => ⟨(wrap_le _ _).trans h, ht.format, ht.symbols, ht.strings⟩

theorem noteStrtab_safe (H : HeadersIn K A eh) (hl : link < field eh K.eShnum) :
    Safe (Permitted A) (noteStrtab K A eh link mod) m := by
  simp only [noteStrtab, safe_bind, safe_require, safe_pure, true_and]
  exact ⟨rdShdr_safe H hl, fun _ _ => fun _ _ => trivial⟩

theorem noteStrtab_post (ht : TablesIn K A mod) :
    Post (noteStrtab K A eh link mod) m fun x _ => TablesIn K A x := by
  have := A.imageFits
  simp only [noteStrtab, rdShdr, post_bind, post_fetch, post_require, post_pure, not_ldOob]
  intro h
  refine ⟨ht.format, ht.symbols, .inr ⟨_, Space.word_of_lt (by omega), ?_⟩⟩
  exact (Nat.add_le_add_left (wrap_le _ _) _).trans h

theorem noteSymtab_safe (H : HeadersIn K A eh) :
    Safe (Permitted A) (noteSymtab K A eh sh mod) m := by
  simp only [noteSymtab, safe_bind, safe_require, post_require, safe_ite, safe_pure, true_and]
  exact fun _ _ => ⟨fun hl => noteStrtab_safe H hl, fun _ => trivial⟩

theorem noteSymtab_post (ht : TablesIn K A mod) :
    Post (noteSymtab K A eh sh mod) m fun x _ => TablesIn K A x := by
  have hw := A.imageFits
  simp only [noteSymtab, post_bind, post_require, post_ite, post_pure, not_ldOob]
  intro _ h
  have hs : wrap 32 (field sh K.shSize / K.symSize) * K.symSize ≤ field sh K.shSize :=
    (Nat.mul_le_mul_right _ (wrap_le _ _)).trans (Nat.div_mul_le_self _ _)
  have ht' : TablesIn K A { mod with
      symtab := A.word (A.image.addr + field sh K.shOffset)
      symCount := wrap 32 (field sh K.shSize / K.symSize) } :=
    ⟨ht.format, .inr ⟨_, Space.word_of_lt (by omega), by dsimp only; omega⟩, ht.strings⟩
  exact ⟨fun _ => noteStrtab_post ht', fun _ => ht'⟩

theorem sectionStep_safe (H : HeadersIn K A eh) (hi : i < field eh K.eShnum) :
    Safe (Permitted A) (sectionStep K A eh i x) m := by
  simp only [sectionStep, safe_bind, safe_ite, safe_pure]
  refine ⟨rdShdr_safe H hi, fun sh _ => ⟨fun _ => placeSection_safe, fun _ => ⟨fun _ => ?_, ?_⟩⟩⟩
  · exact ⟨noteSymtab_safe H, fun _ _ => trivial⟩
  · exact fun _ => trivial

theorem sectionStep_post (h : x.1 ≤ A.region.size ∧ TablesIn K A x.2) :
    Post (sectionStep K A eh i x) m fun y _ => y.1 ≤ A.region.size ∧ TablesIn K A y.2 := by
  simp only [sectionStep, post_bind, post_ite, post_pure]
  refine fun sh _ => ⟨fun _ => placeSection_post h.2, fun _ => ⟨fun _ => ?_, fun _ => h⟩⟩
  exact (noteSymtab_post h.2).mono fun _ _ ht => ⟨h.1, ht⟩

structure Prepared (K : Format) (A : Args) (eh : Record) (mod : Module) : Prop where
  headers : HeadersIn K A eh
  tables : TablesIn K A mod
  symtab : mod.symtab ≠ 0
  strtab : mod.strtab ≠ 0
  used : mod.regionUsed ≤ A.region.size

theorem prepare_safe (hsize : K.ehdrSize ≤ A.image.size) : Safe (Permitted A) (prepare K A) m := by
  simp only [prepare, safe_bind, safe_fetch, post_fetch, safe_require, post_require, safe_pure,
    not_ldOob, true_and]
  refine ⟨(imageOnly_read le_rfl (by omega)).permitted, fun _ hent _ hin =>
    ⟨?_, fun _ _ _ => trivial⟩⟩
  rw [hent.1] at hin
  rw [safe_loop]
  intro r hr
  obtain ⟨⟨hlt, -⟩, -⟩ := rounds_inv (I := fun _ _ _ => True)
      (fun _ _ _ _ _ _ => trivial) trivial r hr
  exact sectionStep_safe ⟨hent.1, hin⟩ (by omega)

theorem prepare_post : Post (prepare K A) m fun x _ => Prepared K A x.1 x.2 := by
  simp only [prepare, post_bind, post_fetch, post_require, post_pure, not_ldOob]
  intro _ hent _ hin
  rw [hent.1] at hin
  refine (post_loop (I := fun _ x _ => x.1 ≤ A.region.size ∧ TablesIn K A x.2)
    (fun _ _ _ h => sectionStep_post h) ⟨Nat.zero_le _, rfl, .inl rfl, .inl rfl⟩).mono ?_
  exact fun x _ hx hnull =>
    ⟨⟨hent.1, hin⟩, ⟨hx.2.format, hx.2.symbols, hx.2.strings⟩, hnull.1, hnull.2, hx.1⟩

variable {A : Space} {m m' : Mem}

def WritesIn (A : Space) : Access → Prop
  | .read _ _ => True
  | .write a n => ∀ i < n, A.region.Has (a + i)

variable {a n k : ℕ}

def SameOutside (A : Space) (m m' : Mem) : Prop := ∀ x, ¬A.region.Has x → m' x = m x

theorem SameOutside.load (h : SameOutside A m m') (ha : ∀ x, a ≤ x → x < a + k → ¬A.region.Has x) :
    load m' a k = load m a k :=
  load_congr fun x h1 h2 => h x (ha x h1 h2)

theorem WritesIn.has {x : ℕ} (h : WritesIn A (.write a n)) (h1 : a ≤ x) (h2 : x < a + n) :
    A.region.Has x := by
  have := h (x - a) (by omega)
  rwa [Nat.add_sub_cancel' h1] at this

theorem SameOutside.store {v : ℕ} (h : SameOutside A m m') (hw : WritesIn A (.write a k)) :
    SameOutside A m (store m' a k v) := by
  intro x hx
  rw [store_of_notMem, h x hx]
  by_contra hc
  exact hx (hw.has (by omega) (by omega))

theorem SameOutside.fill {c : UInt8} (h : SameOutside A m m') (hw : WritesIn A (.write a n)) :
    SameOutside A m (fill m' a n c) := by
  intro x hx
  rw [fill_of_notMem, h x hx]
  by_contra hc
  exact hx (hw.has (by omega) (by omega))

theorem SameOutside.copy {src : ℕ} (h : SameOutside A m m') (hw : WritesIn A (.write a n)) :
    SameOutside A m (copy m' a src n) := by
  intro x hx
  rw [Memory.copy, if_neg fun hc => hx (hw.has hc.1 hc.2)]
  exact h x hx

theorem writesIn_place {off : ℕ} (h : off + n ≤ A.region.size) :
    WritesIn A (.write (A.region.addr + off) n) :=
  fun i hi => ⟨by omega, by omega⟩

end Overtos.Loader
