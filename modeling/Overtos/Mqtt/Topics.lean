import Overtos.Mqtt.Client

/-! Topic filters by levels, and the scan of `ove_mqtt_topic.c` over memory. -/
namespace Overtos.Mqtt
open List Option

open CStr (Bytes)

def levels (s : Bytes) : List Bytes := s.splitOn slash

def Literal (level : Bytes) : Prop := plus ∉ level ∧ hash ∉ level

instance (level : Bytes) : Decidable (Literal level) := inferInstanceAs (Decidable (_ ∧ _))

def LevelsOk : List Bytes → Prop
  | [] => True
  | f :: fs => (f = [plus] ∨ Literal f ∨ f = [hash] ∧ fs = []) ∧ LevelsOk fs

def WellFormed (filter : Bytes) : Prop := LevelsOk (levels filter)

def LevelsMatch : List Bytes → List Bytes → Prop
  | [], ts => ts = []
  | f :: fs, [] => f = [hash] ∧ fs = []
  | f :: fs, t :: ts =>
    f = [hash] ∧ fs = [] ∨ (f = t ∨ f = [plus] ∧ ¬(t = [] ∧ ts = [])) ∧ LevelsMatch fs ts

def decidableLevelsOk : (fs : List Bytes) → Decidable (LevelsOk fs)
  | [] => .isTrue trivial
  | _ :: fs => @instDecidableAnd _ _ inferInstance (decidableLevelsOk fs)

instance (filter : Bytes) : Decidable (WellFormed filter) := decidableLevelsOk _

def decidableLevelsMatch : (fs ts : List Bytes) → Decidable (LevelsMatch fs ts)
  | [], ts => inferInstanceAs (Decidable (ts = []))
  | f :: fs, [] => inferInstanceAs (Decidable (f = [hash] ∧ fs = []))
  | _ :: fs, _ :: ts =>
    @instDecidableOr _ _ inferInstance
      (@instDecidableAnd _ _ inferInstance (decidableLevelsMatch fs ts))

instance (fs ts : List Bytes) : Decidable (LevelsMatch fs ts) := decidableLevelsMatch fs ts

section
variable {s : Bytes} {c : UInt8} {l : Bytes} {ls : List Bytes}

theorem levels_nil : levels [] = [[]] := rfl

theorem levels_slash (s : Bytes) : levels (slash :: s) = [] :: levels s := by
  rw [levels, splitOn_cons_eq_if_modifyHead, if_pos (beq_self_eq_true _), levels]

theorem levels_cons (hc : c ≠ slash) (hs : levels s = l :: ls) :
    levels (c :: s) = (c :: l) :: ls := by
  rw [levels, splitOn_cons_eq_if_modifyHead, if_neg (by simpa using hc), ← levels, hs]
  rfl

theorem exists_levels (s : Bytes) : ∃ l ls, levels s = l :: ls :=
  exists_cons_of_ne_nil (splitOn_ne_nil slash s)

theorem levels_eq_nil_iff : levels s = [[]] ↔ s = [] := by
  refine ⟨fun h => ?_, fun h => by rw [h]; rfl⟩
  cases s with
  | nil => rfl
  | cons c s =>
    obtain ⟨l, ls, hs⟩ := exists_levels s
    by_cases hc : c = slash
    · rw [hc, levels_slash, hs] at h
      simp at h
    · rw [levels_cons hc hs] at h
      simp at h

theorem levels_eq_hash_iff : levels s = [[hash]] ↔ s = [hash] := by
  refine ⟨fun h => ?_, fun h => by rw [h]; rfl⟩
  cases s with
  | nil => simp [levels_nil] at h
  | cons c s =>
    obtain ⟨l, ls, hs⟩ := exists_levels s
    by_cases hc : c = slash
    · rw [hc, levels_slash] at h
      simp at h
    · rw [levels_cons hc hs] at h
      simp only [cons.injEq] at h
      obtain ⟨⟨rfl, rfl⟩, rfl⟩ := h
      rw [levels_eq_nil_iff.mp hs]

theorem levels_dropWhile (s : Bytes) :
    ∃ l ls, levels s = l :: ls ∧ levels (s.dropWhile (· ≠ slash)) = [] :: ls := by
  induction s with
  | nil => exact ⟨[], [], rfl, rfl⟩
  | cons c s ih =>
    by_cases hc : c = slash
    · subst hc
      exact ⟨[], levels s, levels_slash s, by simp [levels_slash]⟩
    · obtain ⟨l, ls, hs, hd⟩ := ih
      exact ⟨c :: l, ls, levels_cons hc hs, by simpa [hc] using hd⟩

end

def MatchFrom (boundary : Bool) (fs ts : List Bytes) : Prop :=
  if boundary then LevelsMatch fs ts else fs.head? = ts.head? ∧ LevelsMatch fs.tail ts.tail

def OkFrom (boundary : Bool) (fs : List Bytes) : Prop :=
  if boundary then LevelsOk fs else (∀ f ∈ fs.head?, Literal f) ∧ LevelsOk fs.tail

def Scan.verdict : Scan → Bool
  | .decided r => r
  | .ended fs ts boundary =>
    if fs = [] ∧ ts = [] then true
    else if [slash, hash] <+: fs then ts = []
    else isMultilevelWildcard boundary fs

section
variable {boundary : Bool} {f t : Bytes} {fs ts : List Bytes}

theorem matchFrom_cons (hp : f ≠ [plus]) (hh : boundary = true → ¬(f = [hash] ∧ fs = [])) :
    MatchFrom boundary (f :: fs) (t :: ts) ↔ f = t ∧ LevelsMatch fs ts := by
  cases boundary with
  | false => simp [MatchFrom]
  | true => simp [MatchFrom, LevelsMatch, hp, hh rfl]

theorem OkFrom.literal (h : OkFrom boundary (f :: fs)) (hp : f ≠ [plus])
    (hh : boundary = true → ¬(f = [hash] ∧ fs = [])) : Literal f ∧ LevelsOk fs := by
  cases boundary with
  | false => simpa [OkFrom] using h
  | true =>
    simp only [OkFrom, if_true, LevelsOk, hp, hh rfl, false_or, or_false] at h
    exact h

end

theorem plus_ne_slash : plus ≠ slash := by decide

theorem hash_ne_slash : hash ≠ slash := by decide

theorem hash_rest {s : Bytes} (h : LevelsOk (levels (hash :: s))) : s = [] := by
  obtain ⟨l, ls, hs⟩ := exists_levels s
  rw [levels_cons hash_ne_slash hs] at h
  rcases h.1 with h | h | h
  · exact absurd (cons.inj h).1 (by decide)
  · exact absurd mem_cons_self h.2
  · have hl : l = [] := (cons.inj h.1).2
    rw [hl, h.2] at hs
    exact levels_eq_nil_iff.mp hs

section
variable {boundary : Bool} {f t : UInt8} {fs ts : Bytes}

theorem verdict_topic_ended (h : OkFrom boundary (levels (f :: fs))) :
    (Scan.ended (f :: fs) [] boundary).verdict = true ↔
      MatchFrom boundary (levels (f :: fs)) (levels []) := by
  rw [levels_nil]
  by_cases hf : f = slash
  · subst hf
    rw [levels_slash] at h ⊢
    rw [matchFrom_cons (by simp) (by simp)]
    have hok := (h.literal (by simp) (by simp)).2
    have hprefix : [slash, hash] <+: slash :: fs ↔ levels fs = [[hash]] := by
      rw [cons_prefix_cons, levels_eq_hash_iff]
      refine ⟨fun h => ?_, fun h => ⟨rfl, h ▸ prefix_refl _⟩⟩
      obtain ⟨rest, rfl⟩ := h.2
      rw [cons_append, nil_append] at hok ⊢
      rw [hash_rest hok]
    have hlevels : LevelsMatch (levels fs) [] ↔ levels fs = [[hash]] := by
      obtain ⟨l, ls, hs⟩ := exists_levels fs
      rw [hs, LevelsMatch, cons.injEq]
    rw [hlevels, ← hprefix]
    simp [Scan.verdict, isMultilevelWildcard, slash, hash]
  · obtain ⟨l, ls, hs⟩ := exists_levels fs
    have hwhole : f :: fs = [hash] ↔ f :: l = [hash] ∧ ls = [] := by
      rw [← levels_eq_hash_iff, levels_cons hf hs, cons.injEq]
    have hprefix : ¬[slash, hash] <+: f :: fs := fun h => hf (cons_prefix_cons.mp h).1.symm
    rw [levels_cons hf hs]
    cases boundary with
    | false => simp [Scan.verdict, hprefix, isMultilevelWildcard, MatchFrom]
    | true =>
      simp only [Scan.verdict, hprefix, isMultilevelWildcard, MatchFrom, LevelsMatch]
      simpa using hwhole

theorem plus_step (h : OkFrom boundary (levels (plus :: fs))) : OkFrom false (levels fs) ∧
      (MatchFrom false (levels fs) (levels ((t :: ts).dropWhile (· ≠ slash))) ↔
        MatchFrom boundary (levels (plus :: fs)) (levels (t :: ts))) := by
  obtain ⟨l, ls, hs⟩ := exists_levels fs
  obtain ⟨m, ms, htopic, hrest⟩ := levels_dropWhile (t :: ts)
  have hne : ¬(m = [] ∧ ms = []) := by
    rintro ⟨rfl, rfl⟩
    exact cons_ne_nil _ _ (levels_eq_nil_iff.mp htopic)
  rw [levels_cons plus_ne_slash hs] at h ⊢
  rw [hs, hrest, htopic]
  cases boundary with
  | false => exact absurd mem_cons_self (h.1 _ rfl).1
  | true =>
    rcases h with ⟨hl | hl | hl, hls⟩
    · obtain rfl : l = [] := (cons.inj hl).2
      refine ⟨⟨fun f hf => ?_, hls⟩, ?_⟩
      · cases hf
        exact ⟨not_mem_nil, not_mem_nil⟩
      · have hhash : [plus] ≠ [hash] := by decide
        simp [MatchFrom, LevelsMatch, hne, hhash]
    · exact absurd mem_cons_self hl.1
    · exact absurd (cons.inj hl.1).1 (by decide)

theorem not_wildcard {l : Bytes} {ls : List Bytes} (hc : f ≠ slash) (hs : levels fs = l :: ls)
    (hw : isMultilevelWildcard boundary (f :: fs) = false) :
    boundary = true → ¬(f :: l = [hash] ∧ ls = []) := by
  rintro rfl ⟨hl, rfl⟩
  have hfilter : f :: fs = [hash] := by rw [← levels_eq_hash_iff, levels_cons hc hs, hl]
  simp [isMultilevelWildcard, hfilter] at hw

theorem mismatch_step (hw : isMultilevelWildcard boundary (f :: fs) = false) (hp : f ≠ plus)
    (hne : f ≠ t) : ¬MatchFrom boundary (levels (f :: fs)) (levels (t :: ts)) := by
  obtain ⟨l, ls, hs⟩ := exists_levels fs
  obtain ⟨m, ms, ht⟩ := exists_levels ts
  by_cases hf : f = slash
  · subst hf
    rw [levels_slash, levels_cons hne.symm ht, matchFrom_cons (by simp) (by simp)]
    simp
  · have hplus : f :: l ≠ [plus] := fun h => hp (cons.inj h).1
    rw [levels_cons hf hs]
    by_cases htopic : t = slash
    · subst htopic
      rw [levels_slash, matchFrom_cons hplus (not_wildcard hf hs hw)]
      simp
    · rw [levels_cons htopic ht, matchFrom_cons hplus (not_wildcard hf hs hw)]
      simp [hne]

theorem agree_step (h : OkFrom boundary (levels (f :: fs)))
    (hw : isMultilevelWildcard boundary (f :: fs) = false) (hp : f ≠ plus) :
    OkFrom (f = slash) (levels fs) ∧
      (MatchFrom (f = slash) (levels fs) (levels ts) ↔
        MatchFrom boundary (levels (f :: fs)) (levels (f :: ts))) := by
  obtain ⟨l, ls, hs⟩ := exists_levels fs
  obtain ⟨m, ms, ht⟩ := exists_levels ts
  by_cases hf : f = slash
  · subst hf
    rw [levels_slash] at h
    rw [levels_slash, levels_slash, matchFrom_cons (by simp) (by simp)]
    exact ⟨by simpa [OkFrom] using (h.literal (by simp) (by simp)).2, by simp [MatchFrom]⟩
  · have hplus : f :: l ≠ [plus] := fun h => hp (cons.inj h).1
    have hhash := not_wildcard hf hs hw
    rw [levels_cons hf hs] at h
    obtain ⟨hlit, hls⟩ := h.literal hplus hhash
    rw [levels_cons hf hs, levels_cons hf ht, matchFrom_cons hplus hhash, hs, ht]
    refine ⟨?_, by simp [MatchFrom, hf]⟩
    simp only [OkFrom, hf, decide_false, Bool.false_eq_true, if_false]
    refine ⟨fun l' hl' => ?_, hls⟩
    cases hl'
    exact ⟨fun hm => hlit.1 (mem_cons_of_mem _ hm),
      fun hm => hlit.2 (mem_cons_of_mem _ hm)⟩

theorem verdict_scanTopic (boundary : Bool) (filter topic : Bytes)
    (h : OkFrom boundary (levels filter)) :
    (scanTopic boundary filter topic).verdict = true ↔
      MatchFrom boundary (levels filter) (levels topic) := by
  induction filter generalizing boundary topic with
  | nil =>
    obtain ⟨l, ls, hs⟩ := exists_levels topic
    have hnil : topic = [] ↔ [] = l ∧ [] = ls := by
      rw [← levels_eq_nil_iff, hs]
      simp [eq_comm]
    rw [levels_nil, hs, matchFrom_cons (by simp) (by simp), LevelsMatch, eq_comm (a := ls), ← hnil]
    cases topic <;> simp [scanTopic, Scan.verdict, isMultilevelWildcard]
  | cons f fs ih =>
    cases topic with
    | nil =>
      rw [scanTopic]
      exact verdict_topic_ended h
    | cons t ts =>
      rw [scanTopic]
      by_cases hw : isMultilevelWildcard boundary (f :: fs) = true
      · obtain ⟨rfl, hfilter⟩ : boundary = true ∧ f :: fs = [hash] := by
          simpa [isMultilevelWildcard] using hw
        obtain ⟨m, ms, htopic⟩ := exists_levels (t :: ts)
        rw [if_pos hw, hfilter, levels_eq_hash_iff.mpr rfl, htopic]
        simp [Scan.verdict, MatchFrom, LevelsMatch]
      · rw [if_neg hw]
        rw [Bool.not_eq_true] at hw
        by_cases hplus : f = plus
        · subst hplus
          obtain ⟨hok, hstep⟩ := @plus_step boundary t fs ts h
          rw [if_pos rfl, ih _ _ hok, hstep]
        · rw [if_neg hplus]
          by_cases hft : f = t
          · subst hft
            obtain ⟨hok, hstep⟩ := @agree_step boundary f fs ts h hw hplus
            rw [if_neg (not_not.mpr rfl), ih _ _ hok, hstep]
          · rw [if_pos hft]
            exact iff_of_false (by simp [Scan.verdict]) (mismatch_step hw hplus hft)

end

def readMultilevelWildcard (filter : Bytes) (fi : ℕ) : Option Bool := do
  if (← filter[fi]?) ≠ hash then return false
  if fi + 1 ≠ filter.length then return false
  if fi = 0 then return true
  return (← filter[fi - 1]?) = slash

def skipLevel (topic : Bytes) (ti : ℕ) : Option ℕ :=
  if ti < topic.length then do
    if (← topic[ti]?) ≠ slash then skipLevel topic (ti + 1) else return ti
  else some ti
termination_by topic.length - ti

def readScan (filter topic : Bytes) (fi ti : ℕ) : Option (Bool ⊕ ℕ × ℕ) :=
  if fi < filter.length ∧ ti < topic.length then do
    if ← readMultilevelWildcard filter fi then return .inl true
    if (← filter[fi]?) = plus then
      let ti ← skipLevel topic ti
      readScan filter topic (fi + 1) ti
    else if (← filter[fi]?) ≠ (← topic[ti]?) then return .inl false
    else readScan filter topic (fi + 1) (ti + 1)
  else some (.inr (fi, ti))
termination_by filter.length - fi

def readSlashHash (filter : Bytes) (fi : ℕ) : Option Bool := do
  if fi + 1 < filter.length then
    if (← filter[fi]?) = slash then return (← filter[fi + 1]?) = hash else return false
  else return false

def readVerdict (filter topic : Bytes) (fi ti : ℕ) : Option Bool :=
  if fi = filter.length ∧ ti = topic.length then some true
  else do
    if ← readSlashHash filter fi then return ti = topic.length
    else if fi < filter.length then readMultilevelWildcard filter fi
    else return false

def readTopicMatches (filter topic : Bytes) : Option Bool := do
  match ← readScan filter topic 0 0 with
  | .inl r => return r
  | .inr (fi, ti) => readVerdict filter topic fi ti

section
variable {filter topic : Bytes} {fi ti : ℕ}

def boundaryAt (filter : Bytes) (fi : ℕ) : Bool := fi = 0 ∨ filter[fi - 1]? = some slash

theorem readMultilevelWildcard_eq (h : fi < filter.length) : readMultilevelWildcard filter fi =
      some (isMultilevelWildcard (boundaryAt filter fi) (filter.drop fi)) := by
  have hrest : (filter.drop fi == [hash]) =
      decide (filter[fi] = hash ∧ fi + 1 = filter.length) := by
    rw [Bool.eq_iff_iff, beq_iff_eq, decide_eq_true_iff, drop_eq_getElem_cons h,
      cons.injEq, drop_eq_nil_iff]
    exact and_congr_right fun _ => ⟨fun hl => by omega, fun hl => hl.ge⟩
  rw [readMultilevelWildcard, getElem?_eq_getElem h, isMultilevelWildcard, hrest]
  generalize filter[fi] = c
  by_cases hh : c = hash
  · by_cases hl : fi + 1 = filter.length
    · by_cases hz : fi = 0
      · simp [hh, ← hl, hz, boundaryAt]
      · have hprev : fi - 1 < filter.length := by omega
        simp [hh, hl, hz, boundaryAt, getElem?_eq_getElem hprev]
    · simp [hh, hl]
  · simp [hh]

theorem skipLevel_spec (topic : Bytes) (ti : ℕ) (h : ti ≤ topic.length) :
    ∃ ti', skipLevel topic ti = some ti' ∧ ti' ≤ topic.length ∧
      topic.drop ti' = (topic.drop ti).dropWhile (· ≠ slash) := by
  fun_induction skipLevel topic ti with
  | case1 ti hlt ih =>
    rw [getElem?_eq_getElem hlt, drop_eq_getElem_cons hlt, dropWhile_cons]
    simp only [bind_eq_bind, bind_some]
    by_cases hc : topic[ti] = slash
    · exact ⟨ti, by simp [hc], h, by simp [hc, drop_eq_getElem_cons hlt]⟩
    · obtain ⟨ti', hskip, hle, hdrop⟩ := ih hlt
      exact ⟨ti', by simp [hc, hskip], hle, by simp [hc, hdrop]⟩
  | case2 ti hge =>
    exact ⟨ti, rfl, h, by rw [drop_of_length_le (by omega)]; rfl⟩

def toScan (filter topic : Bytes) : Bool ⊕ ℕ × ℕ → Scan
  | .inl r => .decided r
  | .inr (fi, ti) => .ended (filter.drop fi) (topic.drop ti) (boundaryAt filter fi)

theorem boundaryAt_succ (h : fi < filter.length) :
    boundaryAt filter (fi + 1) = decide (filter[fi] = slash) := by
  simp [boundaryAt, getElem?_eq_getElem h]

def Sees (filter topic : Bytes) (o : Option (Bool ⊕ ℕ × ℕ)) (s : Scan) : Prop :=
  ∃ r, o = some r ∧ toScan filter topic r = s ∧
    ∀ fi ti, r = .inr (fi, ti) → fi ≤ filter.length ∧ ti ≤ topic.length

theorem Sees.decided (r : Bool) : Sees filter topic (some (.inl r)) (.decided r) :=
  ⟨_, rfl, rfl, fun _ _ h => absurd h Sum.inl_ne_inr⟩

theorem Sees.ended (hf : fi ≤ filter.length) (ht : ti ≤ topic.length) :
    Sees filter topic (some (.inr (fi, ti)))
      (.ended (filter.drop fi) (topic.drop ti) (boundaryAt filter fi)) := by
  refine ⟨_, rfl, rfl, fun fi' ti' h => ?_⟩
  cases h
  exact ⟨hf, ht⟩

theorem readScan_sees (filter topic : Bytes) (fi ti : ℕ) (hf : fi ≤ filter.length)
    (ht : ti ≤ topic.length) :
    Sees filter topic (readScan filter topic fi ti)
      (scanTopic (boundaryAt filter fi) (filter.drop fi) (topic.drop ti)) := by
  fun_induction readScan filter topic fi ti with
  | case1 fi ti hlt ihPlus ihNext =>
    obtain ⟨hfi, hti⟩ := hlt
    have hnext := boundaryAt_succ hfi
    rw [readMultilevelWildcard_eq hfi]
    simp only [bind_eq_bind, bind_some, getElem?_eq_getElem hfi, getElem?_eq_getElem hti]
    rw [drop_eq_getElem_cons hfi, drop_eq_getElem_cons hti, scanTopic]
    split_ifs with hw hplus hne
    · exact .decided true
    · obtain ⟨ti', hskip, hle, hdrop⟩ := skipLevel_spec topic ti ht
      have ih := ihPlus ti' hfi hle
      rw [hnext, hplus, hdrop, drop_eq_getElem_cons hti] at ih
      rw [hskip]
      exact ih
    · exact .decided false
    · have ih := ihNext hfi hti
      rw [hnext] at ih
      exact ih
  | case2 fi ti hge =>
    have hended : scanTopic (boundaryAt filter fi) (filter.drop fi) (topic.drop ti) =
        .ended (filter.drop fi) (topic.drop ti) (boundaryAt filter fi) := by
      by_cases hfi : fi < filter.length
      · have hti : topic.drop ti = [] := drop_of_length_le (by omega)
        rw [hti, drop_eq_getElem_cons hfi, scanTopic]
      · rw [drop_of_length_le (Nat.le_of_not_lt hfi), scanTopic]
    rw [hended]
    exact .ended hf ht

theorem drop_eq_nil_iff_end {s : Bytes} {i : ℕ} (h : i ≤ s.length) :
    s.drop i = [] ↔ i = s.length := by
  rw [drop_eq_nil_iff]
  omega

theorem readSlashHash_eq (filter : Bytes) (fi : ℕ) :
    readSlashHash filter fi = some (decide ([slash, hash] <+: filter.drop fi)) := by
  rw [readSlashHash]
  by_cases h : fi + 1 < filter.length
  · rw [if_pos h, getElem?_eq_getElem h, getElem?_eq_getElem (by omega),
      drop_eq_getElem_cons (by omega), drop_eq_getElem_cons h]
    simp only [cons_prefix_cons, nil_prefix, and_true, bind_eq_bind,
      bind_some, eq_comm (a := slash), eq_comm (a := hash)]
    split_ifs with hs <;> simp [hs]
  · have hshort : ¬[slash, hash] <+: filter.drop fi := fun hp => by
      have := hp.length_le
      rw [length_drop, length_cons, length_singleton] at this
      omega
    rw [if_neg h, decide_eq_false hshort]
    rfl

theorem readVerdict_eq (hf : fi ≤ filter.length) (ht : ti ≤ topic.length) :
    readVerdict filter topic fi ti =
      some (Scan.ended (filter.drop fi) (topic.drop ti) (boundaryAt filter fi)).verdict := by
  rw [readVerdict, readSlashHash_eq, Scan.verdict]
  simp only [bind_eq_bind, bind_some, decide_eq_true_eq, drop_eq_nil_iff_end hf,
    drop_eq_nil_iff_end ht]
  split_ifs with hboth hsh hlt
  · rfl
  · rfl
  · exact readMultilevelWildcard_eq hlt
  · have hnil : filter.drop fi = [] := (drop_eq_nil_iff_end hf).mpr (by omega)
    rw [hnil, isMultilevelWildcard]
    simp

theorem readTopicMatches_eq (filter topic : Bytes) :
    readTopicMatches filter topic = some (oveMqttTopicMatches filter topic) := by
  obtain ⟨r, hr, hscan, hwithin⟩ := readScan_sees filter topic 0 0 (Nat.zero_le _) (Nat.zero_le _)
  have hlist : oveMqttTopicMatches filter topic = (toScan filter topic r).verdict := by
    rw [hscan]
    rfl
  rw [readTopicMatches, hr, hlist]
  rcases r with r | ⟨fi, ti⟩
  · rfl
  · obtain ⟨hf, ht⟩ := hwithin fi ti rfl
    exact readVerdict_eq hf ht

end

/-- On well-formed filters the matcher decides the level-wise relation; on all it reads inside both
strings. -/
theorem topic_matches_levels (filter topic : Bytes) :
    (WellFormed filter →
      (oveMqttTopicMatches filter topic = true ↔ LevelsMatch (levels filter) (levels topic))) ∧
    readTopicMatches filter topic = some (oveMqttTopicMatches filter topic) := by
  refine ⟨fun h => ?_, readTopicMatches_eq filter topic⟩
  exact verdict_scanTopic true filter topic h

theorem parent_and_trailing_slash :
    (WellFormed [0x61, slash, hash] ∧ oveMqttTopicMatches [0x61, slash, hash] [0x61] = true) ∧
    (WellFormed [0x61, slash, plus] ∧
      ¬oveMqttTopicMatches [0x61, slash, plus] [0x61, slash] = true) := by
  have hhash : WellFormed [0x61, slash, hash] := by decide
  have hplus : WellFormed [0x61, slash, plus] := by decide
  refine ⟨⟨hhash, ?_⟩, hplus, ?_⟩
  · rw [(topic_matches_levels _ _).1 hhash]
    decide
  · rw [(topic_matches_levels _ _).1 hplus]
    decide

end Overtos.Mqtt
