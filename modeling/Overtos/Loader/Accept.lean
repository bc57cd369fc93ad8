import Overtos.Loader.Descriptors

/-! What an FDPIC load accepts and where it writes. -/
namespace Overtos.Loader
open Word Memory Traced

section
variable (A : FdpicArgs) (m : Mem)

structure GoodHeaders : Prop where
  entsize : 32 ≤ (headerOf A m).phentsize
  inside : (headerOf A m).phoff + (headerOf A m).phnum * (headerOf A m).phentsize ≤ A.image.size
  loads : ∀ i < (headerOf A m).phnum, (phdr A (headerOf A m) m i).IsLoad →
    (phdr A (headerOf A m) m i).filesz ≤ (phdr A (headerOf A m) m i).memsz ∧
    (phdr A (headerOf A m) m i).off + (phdr A (headerOf A m) m i).filesz ≤ A.image.size ∧
    (phdr A (headerOf A m) m i).vaddr + (phdr A (headerOf A m) m i).memsz ≤ 2 ^ 32

def BssRight (prog : Flat) : Prop :=
  ∀ i < (headerOf A m).phnum, (phdr A (headerOf A m) m i).IsData →
    (∀ j < (headerOf A m).phnum, i < j → ¬(phdr A (headerOf A m) m j).IsData) →
    (phdr A (headerOf A m) m i).filesz + prog.bssSize = (phdr A (headerOf A m) m i).memsz

def Settled (o : Outcome Halt Flat) : Prop :=
  match o.result with
  | .ok prog => GoodHeaders A m ∧ (∀ e ∈ o.log, WritesIn A.toSpace e) ∧ BssRight A m prog
  | .error (.rc _) => True
  | .error .spin => False

def FdpicReloc.Fits (X : Job) (fuel : ℕ) (m : Mem) (r_sym place used : ℕ) : FdpicReloc → Prop
  | .abs32 | .relative => ∀ i < 4, A.region.Has (place + i)
  | .funcdescValue => ∀ i < 8, A.region.Has (place + i)
  | .funcdesc =>
    (wantsFresh A X fuel m r_sym used →
      ∀ i < 8, A.region.Has (A.word (fdpool A X.plan.segs + used) + i)) ∧
    ∀ d, (funcdescAddr A X fuel r_sym place used m).result = .ok d →
      ∀ i < 4, A.region.Has (place + i)

end

section
variable {A : FdpicArgs} {m : Mem} {P : Plan}

end

section
variable {A : FdpicArgs} {m m' : Mem} {P : Plan}

variable {st : Placed} {v fsz fl i n off : ℕ} {h : Header}

end

section
variable {A : FdpicArgs} {X : Job} {fuel : ℕ} {m : Mem}

variable {r_sym place used : ℕ} {E : Halt → Prop}

@[simp] theorem fdpicRt_stops {P : Plan} {vaddr : ℕ} : Stops (fdpicRt A P vaddr) m E := by
  have hfrom : ∀ n i, Stops (fdpicRtFrom A P vaddr n i) m E := by
    intro n
    induction n with
    | zero => exact fun _ => stops_pure
    | succ n ih => exact fun i => by simp [fdpicRtFrom, ih]
  exact hfrom _ _

theorem fdpicRelocate_stops : Stops (fdpicRelocate A X fuel) m fun e => e = .spin := by
  have hfind : ∀ r_sym m, Stops (findDescriptor A X fuel r_sym) m fun e => e = .spin := by
    intro r_sym m
    rw [findDescriptor, stops_bind]
    refine ⟨stops_repeatWhile (E := fun e => e = Halt.spin) rfl fun _ _ => ?_,
      fun _ _ => stops_pure⟩
    simp [searchStep]
  unfold fdpicRelocate
  refine stops_repeatWhile (E := fun e => e = Halt.spin) rfl fun s m => ?_
  simp only [relocStep, applyEntry, stops_bind, stops_get, post_get, fdpicRt_stops, fdpicRt_post,
    stops_ite, stops_pure, imp_true_iff, true_and]
  refine ⟨fun _ => ?_, fun _ _ => trivial⟩
  cases FdpicReloc.ofType (load m (A.word (X.rel0 + s.o) + 4) 4 % 256) with
  | none => exact stops_pure
  | some k =>
    cases k with
    | abs32 | relative => simp [FdpicReloc.apply]
    | funcdescValue =>
      simp [FdpicReloc.apply, descriptorValue, dynSym, definedSym, localAddend]
    | funcdesc =>
      simp [FdpicReloc.apply, funcdescAddr, dynSym, definedSym, freshDescriptor, hfind]

theorem fdpicResult_stops : Stops (fdpicResult A X used) m E := by
  simp [fdpicResult, dynamicAddr]

end

section
variable {A : FdpicArgs} {fuel fuel' : ℕ} (h : fuel ≤ fuel')
include h

theorem fdpicPrepare_extends : Extends .spin (fdpicPrepare A fuel) (fdpicPrepare A fuel') :=
  .bind (.refl _) fun _ => .bind (.refl _) fun _ =>
    .bind (.ite (.bind (.refl _) fun _ => .repeatWhile (fun _ => .refl _) h _) (.refl _))
      fun _ => .refl _

end

section
variable {A : FdpicArgs} {m : Mem} {fuel : ℕ}

end

end Overtos.Loader
