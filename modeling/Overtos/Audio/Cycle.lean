import Overtos.Audio.Build
import Overtos.Lib.Dataflow
import Overtos.Lib.Sectors

/-! One processing cycle is the recursive evaluation of the graph. -/
namespace Overtos.Audio
open Word Circular List

def produce (g : Graph) (behave : Behave) (i : ℕ) (old : Rc × List UInt8)
    (upstream : Option (Rc × List UInt8)) : Rc × List UInt8 :=
  let r := behave i (upstream.map Prod.snd) old.2
  let size := fullSize g (g.buffers i)
  (r.1, if r.1 = .ok then get r.2 0 size else replicate size 0)

def evaluate (g : Graph) (behave : Behave) (m : Mem) : ℕ → Option (Rc × List UInt8) :=
  Dataflow.eval (findUpstream g) (produce g behave) (fun i => (.ok, contents g m i)) g.nodeCount

def failures (g : Graph) (behave : Behave) (m : Mem) : ℕ :=
  (range g.nodeCount).countP fun i => (evaluate g behave m i).any fun x => x.1 ≠ .ok

structure CycleCorrect (g : Graph) (behave : Behave) (m : Mem) : Prop where
  status : (oveAudioGraphProcess g m behave).1 = .ok
  once : ((oveAudioGraphProcess g m behave).2.2.2.map Call.node).Perm (range g.nodeCount)
  fed : ∀ c ∈ (oveAudioGraphProcess g m behave).2.2.2, ∀ e ∈ g.edges, e.2 = c.node →
    ∃ x, evaluate g behave m e.1 = some x ∧ c.input = some (e.1, x.2)
  unfed : ∀ c ∈ (oveAudioGraphProcess g m behave).2.2.2,
    (g.nodes c.node).type = .source ∨ (∀ e ∈ g.edges, e.2 ≠ c.node) → c.input = none
  outputs : ∀ i < g.nodeCount, ∃ x, evaluate g behave m i = some x ∧
    contents g (oveAudioGraphProcess g m behave).2.2.1 i = x.2
  errors : (oveAudioGraphProcess g m behave).2.1.nodeErrors = g.nodeErrors + failures g behave m

def SizesExact (g : Graph) : Prop :=
  ∀ i < g.nodeCount, (g.nodes i).type ≠ .sink →
    g.framesPerPeriod * (g.nodes i).outFmt.channels * oveAudioSampleSize (g.nodes i).outFmt.sampleFmt
      < 2 ^ 64

def reserved (g : Graph) (i : ℕ) : ℕ :=
  if (g.nodes i).type = .sink then 0 else bufByteSize (g.nodes i).outFmt g.framesPerPeriod

section

variable {arch : Arch} {g : Graph} {n total i j : ℕ} {xs : List UInt8}

theorem totalSize_lt (h : totalSize arch g n = some total) : total < 2 ^ arch.bits := by
  induction n generalizing total with
  | zero =>
    cases h
    exact Nat.two_pow_pos _
  | succ n ih =>
    simp only [totalSize, Option.bind_eq_some_iff] at h
    obtain ⟨before, hbefore, hstep⟩ := h
    split_ifs at hstep
    · cases hstep
      exact ih hbefore
    · cases hstep
      exact wrap_lt _ _

theorem totalSize_succ (h : totalSize arch g (n + 1) = some total) :
    ∃ before, totalSize arch g n = some before ∧ total = before + reserved g n := by
  simp only [totalSize, Option.bind_eq_some_iff] at h
  obtain ⟨before, hbefore, hstep⟩ := h
  have hlt := totalSize_lt hbefore
  refine ⟨before, hbefore, ?_⟩
  unfold reserved
  split_ifs at hstep ⊢ with hsink hfull
  · exact (Option.some.inj hstep).symm
  · rw [wrap_of_lt (by omega)] at hstep
    exact (Option.some.inj hstep).symm

theorem totalSize_mono (h : totalSize arch g n = some total) (hi : i < n) :
    (totalSize arch g i).getD 0 + reserved g i ≤ total := by
  induction n generalizing total with
  | zero => omega
  | succ n ih =>
    obtain ⟨before, hbefore, rfl⟩ := totalSize_succ h
    rcases Nat.lt_succ_iff_lt_or_eq.mp hi with hlt | rfl
    · have := ih hbefore hlt
      omega
    · rw [hbefore, Option.getD_some]

theorem totalSize_isSome (h : totalSize arch g n = some total) (hi : i ≤ n) :
    ∃ before, totalSize arch g i = some before := by
  induction n generalizing total with
  | zero =>
    obtain rfl : i = 0 := by omega
    exact ⟨total, h⟩
  | succ n ih =>
    rcases Nat.le_succ_iff.mp hi with hle | rfl
    · obtain ⟨before, hbefore, -⟩ := totalSize_succ h
      exact ih hbefore hle
    · exact ⟨total, h⟩

theorem SizesExact.reserved_eq (h : SizesExact g) (hi : i < g.nodeCount)
    (hsink : (g.nodes i).type ≠ .sink) : bufByteSize (g.nodes i).outFmt g.framesPerPeriod =
      g.framesPerPeriod * (g.nodes i).outFmt.channels *
        oveAudioSampleSize (g.nodes i).outFmt.sampleFmt := by
  have hlt := h i hi hsink
  rw [bufByteSize, wrap, wrap, Nat.mod_mul_mod, Nat.mod_eq_of_lt hlt]

variable (hb : Built arch g)

include hb

theorem Built.data_of_sink (hi : i < g.nodeCount) (hsink : (g.nodes i).type = .sink) :
    (g.buffers i).data = 0 ∧ fullSize g (g.buffers i) = 0 := by
  rw [hb.buffers i hi, bufferOf, if_pos hsink]
  exact ⟨rfl, rfl⟩

theorem Built.data_of_not_sink (hi : i < g.nodeCount) (hsink : (g.nodes i).type ≠ .sink) :
    (g.buffers i).data = g.bufStorage + (totalSize arch g i).getD 0 ∧
      fullSize g (g.buffers i) = g.framesPerPeriod * (g.nodes i).outFmt.channels *
        oveAudioSampleSize (g.nodes i).outFmt.sampleFmt := by
  rw [hb.buffers i hi, bufferOf, if_neg hsink]
  exact ⟨rfl, rfl⟩

theorem Built.apart (hexact : SizesExact g) (hi : i < g.nodeCount) (hj : j < g.nodeCount)
    (hij : i < j) : (g.buffers i).data + fullSize g (g.buffers i) ≤ (g.buffers j).data ∨
      (g.buffers j).data + fullSize g (g.buffers j) ≤ (g.buffers i).data := by
  by_cases hsi : (g.nodes i).type = .sink
  · obtain ⟨h₁, h₂⟩ := hb.data_of_sink hi hsi
    exact .inl (by omega)
  by_cases hsj : (g.nodes j).type = .sink
  · obtain ⟨h₁, h₂⟩ := hb.data_of_sink hj hsj
    exact .inr (by omega)
  obtain ⟨hdi, hfi⟩ := hb.data_of_not_sink hi hsi
  obtain ⟨hdj, -⟩ := hb.data_of_not_sink hj hsj
  obtain ⟨total, htotal, -⟩ := hb.storage
  obtain ⟨before, hbefore⟩ := totalSize_isSome htotal hj.le
  have hle := totalSize_mono hbefore hij
  rw [reserved, if_neg hsi, hexact.reserved_eq hi hsi, ← hfi] at hle
  rw [hdi, hdj, hbefore, Option.getD_some]
  exact .inl (by omega)

theorem Built.contents_put (hexact : SizesExact g) (hi : i < g.nodeCount) (hj : j < g.nodeCount)
    (hne : j ≠ i) (hlen : xs.length = fullSize g (g.buffers i)) (m : Mem) :
    contents g (put m (g.buffers i).data xs) j = contents g m j := by
  apply get_put_of_disjoint
  rw [hlen]
  rcases Nat.lt_or_gt_of_ne hne with hlt | hgt
  · exact hb.apart hexact hj hi hlt
  · exact (hb.apart hexact hi hj hgt).symm

omit hb in
theorem contents_put_self (hlen : xs.length = fullSize g (g.buffers i)) (m : Mem) :
    contents g (put m (g.buffers i).data xs) i = xs := by
  rw [contents, ← hlen, get_put_self]

end

section

variable {arch : Arch} {g : Graph}

theorem findUpstream_mem {i u : ℕ} (h : findUpstream g i = some u) : (u, i) ∈ g.edges := by
  obtain ⟨e, he, rfl⟩ := Option.map_eq_some_iff.mp h
  have hto : e.2 = i := by simpa using find?_some he
  rw [← hto]
  exact mem_of_find?_eq_some he

theorem Wired.findUpstream_eq (h : Wired g) {e : ℕ × ℕ} (he : e ∈ g.edges) :
    findUpstream g e.2 = some e.1 := by
  cases hu : findUpstream g e.2 with
  | none =>
    have hnone := find?_eq_none.mp (Option.map_eq_none_iff.mp hu) e he
    simp at hnone
  | some u =>
    have hpair := inj_on_of_nodup_map h.single (findUpstream_mem hu) he rfl
    rw [← hpair]

theorem Wired.inputOf_eq (h : Wired g) (i : ℕ) : inputOf g i = findUpstream g i := by
  unfold inputOf
  split_ifs with hsource
  · rfl
  · cases hu : findUpstream g i with
    | none => rfl
    | some u => exact absurd (not_not.mp hsource) (h.edge _ (findUpstream_mem hu)).2.2.2

variable (hw : Wired g) (hb : Built arch g) (hexact : SizesExact g) {k : ℕ} (hk : k < g.nodeCount)

def answer (g : Graph) (behave : Behave) (m : Mem) (k : ℕ) : Rc × (ℕ → UInt8) :=
  behave k ((findUpstream g k).map (contents g m)) (contents g m k)

def handedOn (g : Graph) (behave : Behave) (m : Mem) (k : ℕ) : List UInt8 :=
  if (answer g behave m k).1 = .ok then get (answer g behave m k).2 0 (fullSize g (g.buffers k))
  else replicate (fullSize g (g.buffers k)) 0

include hb hk

theorem Built.old_eq (m : Mem) :
    (if (g.nodes k).type ≠ .sink then contents g m k else []) = contents g m k := by
  split_ifs with hsink
  · rfl
  · rw [contents, (hb.data_of_sink hk (not_not.mp hsink)).2]
    rfl

theorem Built.stored_eq (m : Mem) (f : ℕ → UInt8) :
    (if (g.nodes k).type ≠ .sink then put m (g.buffers k).data (get f 0 (fullSize g (g.buffers k)))
      else m) = put m (g.buffers k).data (get f 0 (fullSize g (g.buffers k))) := by
  split_ifs with hsink
  · rfl
  · rw [(hb.data_of_sink hk (not_not.mp hsink)).2]
    exact Sectors.put_nil.symm

include hw

theorem processNode_eq (behave : Behave) (s : Cycle) : processNode g behave s k =
      let m := put s.mem (g.buffers k).data
        (get (answer g behave s.mem k).2 0 (fullSize g (g.buffers k)))
      let calls := s.calls ++ [⟨k, (findUpstream g k).map fun u => (u, contents g s.mem u)⟩]
      if (answer g behave s.mem k).1 = .ok then ⟨m, s.nodeErrors, calls⟩
      else ⟨silence g m k, wrap 32 (s.nodeErrors + 1), calls⟩ := by
  simp only [processNode, hw.inputOf_eq, hb.old_eq hk, hb.stored_eq hk, Option.map_map]
  rfl

theorem processNode_calls (behave : Behave) (s : Cycle) : (processNode g behave s k).calls =
      s.calls ++ [⟨k, (findUpstream g k).map fun u => (u, contents g s.mem u)⟩] := by
  simp only [processNode_eq hw hb hk]
  split_ifs <;> rfl

theorem processNode_nodeErrors (behave : Behave) (s : Cycle) :
    (processNode g behave s k).nodeErrors =
      if (answer g behave s.mem k).1 = .ok then s.nodeErrors else wrap 32 (s.nodeErrors + 1) := by
  simp only [processNode_eq hw hb hk]
  split_ifs <;> rfl

omit hw

include hexact

theorem Built.fullSize_of_null (hnull : (g.buffers k).data = 0) : fullSize g (g.buffers k) = 0 := by
  by_cases hsink : (g.nodes k).type = .sink
  · exact (hb.data_of_sink hk hsink).2
  · obtain ⟨hdata, hfull⟩ := hb.data_of_not_sink hk hsink
    obtain ⟨total, htotal, hstorage⟩ := hb.storage
    have hle := totalSize_mono htotal hk
    rw [reserved, if_neg hsink, hexact.reserved_eq hk hsink, ← hfull] at hle
    by_contra hne
    exact hstorage (by omega) (by omega)

theorem Built.silence_eq (m : Mem) : silence g m k =
    put m (g.buffers k).data (replicate (fullSize g (g.buffers k)) 0) := by
  by_cases hsink : (g.nodes k).type = .sink
  · rw [(hb.data_of_sink hk hsink).2]
    simp [silence, hsink, Sectors.put_nil]
  by_cases hnull : (g.buffers k).data = 0
  · rw [hb.fullSize_of_null hexact hk hnull]
    simp [silence, hnull, Sectors.put_nil]
  · have hsize : ((g.buffers k).fmt.elim 0 fun i =>
        bufByteSize (g.nodes i).outFmt (g.buffers k).frames) = fullSize g (g.buffers k) := by
      rw [(hb.data_of_not_sink hk hsink).2, hb.buffers k hk, bufferOf, if_neg hsink]
      exact hexact.reserved_eq hk hsink
    rw [← hsize]
    simp [silence, hsink, hnull]

include hw

theorem processNode_contents (behave : Behave) (s : Cycle) {j : ℕ} (hj : j < g.nodeCount) :
    contents g (processNode g behave s k).mem j =
      if j = k then handedOn g behave s.mem k else contents g s.mem j := by
  have hlen := Sectors.length_get (answer g behave s.mem k).2 0 (fullSize g (g.buffers k))
  have hzeros : (replicate (fullSize g (g.buffers k)) (0 : UInt8)).length =
    fullSize g (g.buffers k) := length_replicate
  simp only [processNode_eq hw hb hk, hb.silence_eq hexact hk, handedOn]
  by_cases hrc : (answer g behave s.mem k).1 = .ok
  · simp only [if_pos hrc]
    split_ifs with hjk
    · rw [hjk, contents_put_self hlen]
    · rw [hb.contents_put hexact hk hj hjk hlen]
  · simp only [if_neg hrc]
    split_ifs with hjk
    · rw [hjk, contents_put_self hzeros]
    · rw [hb.contents_put hexact hk hj hjk hzeros, hb.contents_put hexact hk hj hjk hlen]

end

section

variable {arch : Arch} {g : Graph} (behave : Behave) (m : Mem)

def values (g : Graph) (behave : Behave) (m : Mem) (done : List ℕ) : ℕ → Rc × List UInt8 :=
  Dataflow.sweep (findUpstream g) (produce g behave) done fun i => (.ok, contents g m i)

structure Agrees (g : Graph) (behave : Behave) (m : Mem) (done : List ℕ) (s : Cycle) : Prop where
  bytes : ∀ i < g.nodeCount, contents g s.mem i = (values g behave m done i).2
  calls : s.calls = done.map fun i =>
    ⟨i, (findUpstream g i).map fun u => (u, (values g behave m done u).2)⟩
  errors : s.nodeErrors = wrap 32 (g.nodeErrors +
    done.countP fun i => (values g behave m done i).1 ≠ .ok)

variable {behave m} {done : List ℕ} {k : ℕ} {s : Cycle}

theorem Agrees.next (h : Agrees g behave m done s) (hw : Wired g) (hb : Built arch g)
    (hexact : SizesExact g) (hk : k < g.nodeCount) (hnew : k ∉ done)
    (hsorted : Dataflow.Sorted (findUpstream g) (done ++ [k])) :
    Agrees g behave m (done ++ [k]) (processNode g behave s k) := by
  have hold {i : ℕ} (hi : i ∈ done) :
      values g behave m (done ++ [k]) i = values g behave m done i :=
    Dataflow.sweep_snoc_of_mem hnew hi
  have hother {i : ℕ} (hi : i ≠ k) :
      values g behave m (done ++ [k]) i = values g behave m done i := by
    rw [values, Dataflow.sweep_snoc, Dataflow.visit, Function.update_of_ne hi, values]
  have hup {i u : ℕ} (hi : i ∈ done ++ [k]) (hu : findUpstream g i = some u) : u ∈ done := by
    rcases mem_append.mp hi with hmem | hlast
    · obtain ⟨pre, post, rfl⟩ := append_of_mem hmem
      exact mem_append_left _ (hsorted.init pre i post rfl u hu)
    · obtain rfl := mem_singleton.mp hlast
      exact hsorted.last hu
  have hself : values g behave m (done ++ [k]) k =
      ((answer g behave s.mem k).1, handedOn g behave s.mem k) := by
    have hown : contents g m k = contents g s.mem k := by
      rw [h.bytes k hk, values, Dataflow.sweep_of_notMem hnew]
    have hin : ((findUpstream g k).map (values g behave m done)).map Prod.snd =
        (findUpstream g k).map (contents g s.mem) := by
      cases hu : findUpstream g k with
      | none => rfl
      | some u => simp [h.bytes u (hw.edge _ (findUpstream_mem hu)).1]
    have hvalue : values g behave m (done ++ [k]) k = produce g behave k (.ok, contents g m k)
        ((findUpstream g k).map (values g behave m done)) := Dataflow.sweep_snoc_self hnew
    rw [hvalue, produce, hown, handedOn, answer, ← hin]
  have hcount : done.countP (fun i => (values g behave m (done ++ [k]) i).1 ≠ .ok) =
      done.countP fun i => (values g behave m done i).1 ≠ .ok :=
    countP_congr fun i hi => by rw [hold hi]
  refine ⟨?_, ?_, ?_⟩
  · intro i hi
    rw [processNode_contents hw hb hexact hk behave s hi]
    split_ifs with hik
    · rw [hik, hself]
    · rw [hother hik, h.bytes i hi]
  · rw [processNode_calls hw hb hk, h.calls, map_append, map_singleton]
    congr 1
    · apply map_congr_left
      intro i hi
      cases hu : findUpstream g i with
      | none => rfl
      | some u => simp [hold (hup (mem_append_left _ hi) hu)]
    · cases hu : findUpstream g k with
      | none => rfl
      | some u =>
        have hmem := hup (mem_append_right _ (mem_singleton_self k)) hu
        simp [hold hmem, h.bytes u (hw.edge _ (findUpstream_mem hu)).1]
  · rw [processNode_nodeErrors hw hb hk, countP_append, hcount, countP_singleton, hself, h.errors]
    split_ifs with hrc hne hne
    · simp [hrc] at hne
    · rfl
    · rw [wrap_wrap_add, Nat.add_assoc]
    · simp [hrc] at hne

theorem agrees_foldl (herrors : g.nodeErrors < 2 ^ 32) (hw : Wired g) (hb : Built arch g)
    (hexact : SizesExact g) (hnodup : done.Nodup) (hbound : ∀ i ∈ done, i < g.nodeCount)
    (hsorted : Dataflow.Sorted (findUpstream g) done) :
    Agrees g behave m done (done.foldl (processNode g behave) ⟨m, g.nodeErrors, []⟩) := by
  induction done using reverseRecOn with
  | nil => exact ⟨fun _ _ => rfl, rfl, (wrap_of_lt herrors).symm⟩
  | append_singleton done k ih =>
    obtain ⟨hinit, -, hdisj⟩ := nodup_append.mp hnodup
    have hk : k ∉ done := fun hmem => hdisj k hmem k (mem_singleton_self k) rfl
    have hdone := ih hinit (fun i hi => hbound i (mem_append_left _ hi)) hsorted.init
    rw [foldl_append]
    exact hdone.next hw hb hexact (hbound k (by simp)) hk hsorted

end

section

variable {arch : Arch} {g : Graph}

theorem Built.sorted (hb : Built arch g) : Dataflow.Sorted (findUpstream g) g.execOrder := by
  intro pre i post heq u hu
  exact hb.ordered pre i post heq (u, i) (findUpstream_mem hu) rfl

variable {i total : ℕ} {m : Mem}

theorem Built.evaluate_eq (hb : Built arch g) (behave : Behave) (m : Mem) (hi : i < g.nodeCount) :
    evaluate g behave m i = some (values g behave m g.execOrder i) := by
  have hmem : i ∈ g.execOrder := hb.perm.mem_iff.mpr (mem_range.mpr hi)
  rw [evaluate, ← hb.length]
  exact Dataflow.eval_eq_sweep hb.nodup hb.sorted hmem

theorem Built.failures_eq (hb : Built arch g) (behave : Behave) (m : Mem) : failures g behave m =
    g.execOrder.countP fun i => (values g behave m g.execOrder i).1 ≠ .ok := by
  rw [hb.perm.countP_eq, failures]
  apply countP_congr
  intro i hi
  rw [hb.evaluate_eq behave m (mem_range.mp hi), Option.any_some]

theorem cycle_correct (h : GraphInv arch g) (hstate : g.state ≠ .idle) (hexact : SizesExact g)
    (hcount : g.nodeErrors + g.nodeCount < 2 ^ 32) (behave : Behave) (m : Mem) :
    CycleCorrect g behave m := by
  have hb := h.built hstate
  have hrun : Agrees g behave m g.execOrder
      (g.execOrder.foldl (processNode g behave) ⟨m, g.nodeErrors, []⟩) :=
    agrees_foldl h.errors h.wired hb hexact hb.nodup hb.bound hb.sorted
  have hcalls {c : Call} (hc : c ∈ (oveAudioGraphProcess g m behave).2.2.2) :
      c.input = (findUpstream g c.node).map fun u => (u, (values g behave m g.execOrder u).2) := by
    simp only [oveAudioGraphProcess, if_neg hstate, hrun.calls, mem_map] at hc
    obtain ⟨i, -, rfl⟩ := hc
    rfl
  refine ⟨?_, ?_, ?_, ?_, ?_, ?_⟩
  · simp [oveAudioGraphProcess, hstate]
  · simp only [oveAudioGraphProcess, if_neg hstate, hrun.calls, map_map]
    simpa [Function.comp_def] using hb.perm
  · intro c hc e he hnode
    refine ⟨_, hb.evaluate_eq behave m (h.wired.edge e he).1, ?_⟩
    rw [hcalls hc, ← hnode, h.wired.findUpstream_eq he]
    rfl
  · intro c hc hno
    rw [hcalls hc]
    cases hu : findUpstream g c.node with
    | none => rfl
    | some u =>
      have he := findUpstream_mem hu
      rcases hno with hsource | hnone
      · exact absurd hsource (h.wired.edge _ he).2.2.2
      · exact absurd rfl (hnone _ he)
  · intro i hi
    refine ⟨_, hb.evaluate_eq behave m hi, ?_⟩
    simp only [oveAudioGraphProcess, if_neg hstate]
    exact hrun.bytes i hi
  · have hle := countP_le_length (p := fun i =>
      decide ((values g behave m g.execOrder i).1 ≠ .ok)) (l := g.execOrder)
    simp only [oveAudioGraphProcess, if_neg hstate, hrun.errors, hb.failures_eq]
    apply wrap_of_lt
    have := hb.length
    omega

def failing : Behave := fun _ _ _ => (.errInvalidParam, fun _ => 1)

theorem evaluate_failing {x : Rc × List UInt8} (h : evaluate g failing m i = some x) :
    x = (.errInvalidParam, replicate (fullSize g (g.buffers i)) 0) := by
  obtain ⟨old, up, rfl⟩ := Dataflow.exists_of_eval h
  rfl

theorem failures_failing (h : CycleCorrect g failing m) : failures g failing m = g.nodeCount := by
  rw [failures, countP_eq_length.mpr, length_range]
  intro i hi
  obtain ⟨x, hx, -⟩ := h.outputs i (mem_range.mp hi)
  rw [hx, evaluate_failing hx]
  rfl

theorem CycleCorrect.counter (h : CycleCorrect g failing m) (hinv : GraphInv arch g)
    (hstate : g.state ≠ .idle) : g.nodeErrors + g.nodeCount < 2 ^ 32 := by
  rw [← failures_failing h, ← h.errors]
  simp only [oveAudioGraphProcess, if_neg hstate]
  exact foldl_errors failing g.execOrder hinv.errors

theorem put_ones {a : ℕ} (ha : m a = 1) (pos n : ℕ) : put m pos (get (fun _ => 1) 0 n) a = 1 := by
  simp only [put, getElem?_get]
  split_ifs
  · rfl
  · exact ha
  · exact ha

theorem Built.silence_behind (hb : Built arch g) {k : ℕ}
    (htotal : totalSize arch g g.nodeCount = some total) (hk : k < g.nodeCount) (m : Mem) :
    silence g m k (g.bufStorage + total) = m (g.bufStorage + total) := by
  unfold silence
  split_ifs with hout
  · have hle := totalSize_mono htotal hk
    rw [reserved, if_neg hout.1] at hle
    apply put_of_ge
    rw [length_replicate, hb.buffers k hk, bufferOf, if_neg hout.1]
    show g.bufStorage + (totalSize arch g k).getD 0 +
      bufByteSize (g.nodes k).outFmt g.framesPerPeriod ≤ g.bufStorage + total
    omega
  · rfl

theorem Built.behind_storage (hb : Built arch g)
    (htotal : totalSize arch g g.nodeCount = some total) {order : List ℕ}
    (hbound : ∀ i ∈ order, i < g.nodeCount) {s : Cycle} (hs : s.mem (g.bufStorage + total) = 1) :
    (order.foldl (processNode g failing) s).mem (g.bufStorage + total) = 1 := by
  induction order generalizing s with
  | nil => exact hs
  | cons k order ih =>
    have hk := hbound k mem_cons_self
    apply ih fun i hi => hbound i (mem_cons_of_mem _ hi)
    simp only [processNode, failing, reduceCtorEq, if_false, hb.silence_behind htotal hk]
    split_ifs
    · exact put_ones hs _ _
    · exact hs

theorem CycleCorrect.sizesExact (h : CycleCorrect g failing fun _ => 1) (hinv : GraphInv arch g)
    (hstate : g.state ≠ .idle) : SizesExact g := by
  have hb := hinv.built hstate
  intro i hi hsink
  by_contra hlarge
  obtain ⟨total, htotal, -⟩ := hb.storage
  obtain ⟨hdata, hfull⟩ := hb.data_of_not_sink hi hsink
  have hlt := totalSize_lt htotal
  have hbits : 2 ^ arch.bits ≤ 2 ^ 64 := Nat.pow_le_pow_right (by decide) (by
    rcases arch.bits_cases with h | h <;> omega)
  have hle := totalSize_mono htotal hi
  have hlast := hb.behind_storage htotal hb.bound (s := ⟨fun _ => 1, g.nodeErrors, []⟩) rfl
  obtain ⟨x, hx, hbytes⟩ := h.outputs i hi
  -- the byte behind the storage belongs to the node's buffer
  have hbyte := congrArg (fun xs : List UInt8 => xs[total - (totalSize arch g i).getD 0]?) hbytes
  simp only [evaluate_failing hx, contents, getElem?_get, oveAudioGraphProcess, if_neg hstate,
    getElem?_replicate, hdata, hfull] at hbyte
  rw [if_pos (by omega), if_pos (by omega), Nat.add_assoc, Nat.add_sub_cancel' (by omega), hlast]
    at hbyte
  exact absurd hbyte (by decide)

end

/-- A cycle is the recursive evaluation of the graph exactly if every buffer's size is a 64-bit
number and the error counter has room. -/
theorem audio_cycle_iff {arch : Arch} {framesPerPeriod : ℕ} {m m' : Mem} {ops : List GraphOp}
    {g : Graph} (h : graphAfter arch framesPerPeriod m ops = .ok (g, m')) (hstate : g.state ≠ .idle) :
    (∀ (behave : Behave) (m : Mem), CycleCorrect g behave m) ↔
      SizesExact g ∧ g.nodeErrors + g.nodeCount < 2 ^ 32 := by
  have hinv := graphAfter_inv h
  constructor
  · intro hall
    exact ⟨(hall failing fun _ => 1).sizesExact hinv hstate,
      (hall failing fun _ => 1).counter hinv hstate⟩
  · rintro ⟨hexact, hcount⟩ behave m
    exact cycle_correct hinv hstate hexact hcount behave m

def fanOut (framesPerPeriod channels : ℕ) : Graph × Mem :=
  [.addNode .sink, .addNode .source, .addNode .processor, .addNode .sink, .connect 1 2, .connect 2 0,
    .connect 1 3, .build (fun _ _ _ => (.ok, ⟨48000, channels, .s32⟩)) 4096].foldl
    (graphStep .arm32) (.zero framesPerPeriod, fun _ => 0)

theorem fanOut_cycle_correct : (fanOut 64 2).1.state ≠ .idle ∧
    ∀ (behave : Behave) (m : Mem), CycleCorrect (fanOut 64 2).1 behave m := by
  have hstate : (fanOut 64 2).1.state ≠ .idle := by decide +kernel
  have hexact : SizesExact (fanOut 64 2).1 ∧
      (fanOut 64 2).1.nodeErrors + (fanOut 64 2).1.nodeCount < 2 ^ 32 := by
    unfold SizesExact
    decide +kernel
  exact ⟨hstate, (@audio_cycle_iff .arm32 64 _ _ _ _ rfl hstate).mpr hexact⟩

theorem fanOut_not_silenced : (fanOut (2 ^ 31) (2 ^ 31)).1.state = .ready ∧
    totalSize .arm32 (fanOut (2 ^ 31) (2 ^ 31)).1 4 = some 0 ∧
    ¬CycleCorrect (fanOut (2 ^ 31) (2 ^ 31)).1 failing fun _ => 1 := by
  have hstate : (fanOut (2 ^ 31) (2 ^ 31)).1.state = .ready := by decide +kernel
  have hinv : GraphInv .arm32 (fanOut (2 ^ 31) (2 ^ 31)).1 :=
    foldl_graphStep_inv (zero_inv (2 ^ 31)) _
  refine ⟨hstate, by decide +kernel, fun h => ?_⟩
  have hexact := h.sizesExact hinv (by rw [hstate]; decide) 1 (by decide +kernel)
      (by decide +kernel)
  exact absurd hexact (by decide +kernel)

end Overtos.Audio
