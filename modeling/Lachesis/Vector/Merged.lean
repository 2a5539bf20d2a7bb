import Lachesis.Vector.Invariant

/-!
# Merged clocks

The clocks of an event with the branches of every validator merged into one record. They depend on
what the event sees and on nothing else: not on the branches that were known when it was added, nor
on those that came later. The median time, which is computed from them, is a function of the graph.
-/

namespace Lachesis

open Lachesis.Core Index

/-! ### One validator -/

variable {t : Timestamp} {u : StakerID} {s : BranchSeq}

section

variable {V : Validators} {G : EventDag} {S : Set EventID} {br : EventID → ℕ}
variable {bi : BranchesInfo} {time : EventID → Timestamp} {x : EventID} {v : BeforeVecs}

/-- What `x` sees of the validator `u`: the mark of a fork, or the record of its events. -/
def Observed (G : EventDag) (time : EventID → Timestamp) (x : EventID)
    (u : StakerID) (s : BranchSeq) (t : Timestamp) : Prop :=
  (G.SeesFork x u ∧ s = forkDetectedSeq ∧ t = 0) ∨
    (¬ G.SeesFork x u ∧ Summary G time {y | G.Sees x y ∧ G.creator y = u} s t)

/-- The record depends on the graph only. -/
lemma Observed.unique {s' : BranchSeq} {t' : Timestamp} (h : Observed G time x u s t)
    (h' : Observed G time x u s' t') : s = s' := by
  rcases h with ⟨hf, rfl, -⟩ | ⟨hf, hs⟩ <;> rcases h' with ⟨hf', rfl, -⟩ | ⟨hf', hs'⟩
  · rfl
  · exact absurd hf hf'
  · exact absurd hf' hf
  · rcases hs with ⟨hA, rfl⟩ | ⟨top, htop, low, hlow, rfl, -, hb⟩ <;>
      rcases hs' with ⟨hA', rfl⟩ | ⟨top', htop', low', hlow', rfl, -, hb'⟩
    · rfl
    · exact absurd htop' (hA ▸ Set.notMem_empty _)
    · exact absurd htop (hA' ▸ Set.notMem_empty _)
    · rw [le_antisymm (hb' top htop).2 (hb top' htop').2, le_antisymm (hb low' hlow').1 (hb' low hlow).1]

lemma Observed.exact (hS : G.Valid S) (hx : x ∈ S) (h : Observed G time x u s t) :
    (s.isForkDetected = true ↔ G.SeesFork x u) ∧
      (¬ G.SeesFork x u → (∀ y, G.Sees x y → G.creator y ≠ u) → s = ⟨0, 0⟩) ∧
      (¬ G.SeesFork x u → (∃ y, G.Sees x y ∧ G.creator y = u) →
        IsGreatest (Set.image G.seq {y | G.Sees x y ∧ G.creator y = u}) s.seq ∧
        IsLeast (Set.image G.seq {y | G.Sees x y ∧ G.creator y = u}) s.minSeq) := by
  rcases h with ⟨hf, rfl, -⟩ | ⟨hf, hs⟩
  · exact ⟨iff_of_true isForkDetected_forkDetectedSeq hf, absurd hf, absurd hf⟩
  · have hdet := hs.not_isForkDetected fun y hy => hS.seq_pos y (hS.sees_mem hx hy.1)
    refine ⟨iff_of_false (by simp [hdet]) hf, fun _ hno => ?_, fun _ hex => ?_⟩
    · rcases hs with ⟨-, rfl⟩ | ⟨top, htop, -⟩
      · rfl
      · exact absurd htop.2 (hno top htop.1)
    · rcases hs with ⟨hA, -⟩ | ⟨top, htop, low, hlow, rfl, -, hb⟩
      · obtain ⟨y, hy⟩ := hex
        exact absurd hy (Set.eq_empty_iff_forall_notMem.mp hA y)
      · refine ⟨⟨⟨top, htop, rfl⟩, ?_⟩, ⟨low, hlow, rfl⟩, ?_⟩
        · rintro _ ⟨y, hy, rfl⟩
          exact (hb y hy).2
        · rintro _ ⟨y, hy, rfl⟩
          exact (hb y hy).1

lemma fits_mergeBranches (seqs : HighestBeforeSeq) (times : HighestBeforeTime) (l : List ℕ)
    (hs : s.Fits) (t : Timestamp) : (mergeBranches seqs times l s t).1.Fits := by
  induction l generalizing s t with
  | nil => exact hs
  | cons k l ih =>
    have hk := seqs.fits_get k
    unfold mergeBranches
    simp only
    split
    · exact hk
    · refine ih ⟨?_, ?_⟩ _
      · simp only
        split_ifs
        · exact hk.1
        · exact hs.1
      · simp only
        split_ifs
        · exact hk.2
        · exact hs.2

/-- Summaries are joined as `getHighestBeforeMerged` does. -/
lemma Summary.merge {A B : Set EventID} {s' : BranchSeq} {t' : Timestamp} (h : Summary G time A s t)
    (h' : Summary G time B s' t') (hpos : ∀ y ∈ A ∪ B, 0 < G.seq y) :
    Summary G time (A ∪ B)
      ⟨if s.seq < s'.seq then s'.seq else s.seq,
        if s'.minSeq ≠ 0 ∧ (s.minSeq = 0 ∨ s'.minSeq < s.minSeq) then s'.minSeq else s.minSeq⟩
      (if s.seq < s'.seq then t' else t) := by
  rcases B.eq_empty_or_nonempty with rfl | hB
  · rcases h' with ⟨-, rfl⟩ | ⟨top, htop, -⟩
    · simpa using h
    · exact absurd htop (Set.notMem_empty _)
  · convert h.union h' hpos hB using 2
    have hpos' : s'.minSeq ≠ 0 := by
      rcases h' with ⟨rfl, -⟩ | ⟨top, htop, low, hlow, rfl, -⟩
      · exact absurd hB Set.not_nonempty_empty
      · exact (hpos low (Or.inr hlow)).ne'
    have hzero : s.minSeq = 0 ↔ s.seq = 0 := by
      rcases h with ⟨-, rfl⟩ | ⟨top, htop, low, hlow, rfl, -⟩
      · rfl
      · have h₁ := hpos top (Or.inl htop)
        have h₂ := hpos low (Or.inl hlow)
        exact iff_of_false h₂.ne' h₁.ne'
    simp only [hpos', ne_eq, not_false_eq_true, true_and, hzero]

lemma Summary.mergeBranches {seqs : HighestBeforeSeq} {times : HighestBeforeTime} {l : List ℕ}
    {P : Set EventID} (hpos : ∀ y ∈ P, 0 < G.seq y)
    (hl : ∀ k ∈ l, Summary G time {y | y ∈ P ∧ br y = k} (seqs.get k) (times.get k))
    {A : Set EventID} (hA : A ⊆ P) (h : Summary G time A s t) :
    Summary G time (A ∪ {y | y ∈ P ∧ br y ∈ l}) (mergeBranches seqs times l s t).1
      (mergeBranches seqs times l s t).2 := by
  induction l generalizing A s t with
  | nil => simpa [Index.mergeBranches] using h
  | cons k l ih =>
    have hk := hl k (by simp)
    have hnot := hk.not_isForkDetected fun y hy => hpos y hy.1
    have hsub : A ∪ {y | y ∈ P ∧ br y = k} ⊆ P := Set.union_subset hA fun y hy => hy.1
    have := ih (fun k' hk' => hl k' (by simp [hk'])) hsub
      (h.merge hk fun y hy => hpos y (hsub hy))
    rw [Index.mergeBranches]
    simp only [hnot, Bool.false_eq_true, if_false]
    convert this using 1
    ext y
    simp only [Set.mem_union, Set.mem_ofPred_eq, List.mem_cons]
    tauto

lemma BranchInv.branchesOf_eq_cons (h : BranchInv V G S br bi) {i : ℕ} (hi : i < V.len) :
    ∃ rest, bi.branchesOf i = i :: rest := by
  have hsplit : List.range bi.count
      = List.range i ++ i :: (List.range (bi.count - i - 1)).map (i + 1 + ·) := by
    have := h.len_le
    rw [show bi.count = i + (bi.count - i - 1 + 1) by omega, List.range_add,
      List.range_succ_eq_map]
    simp [Function.comp_def, Nat.add_assoc, Nat.add_comm 1]
  have hbelow : (List.range i).filter (fun b => bi.creatorOf b = i) = [] := by
    refine List.filter_eq_nil_iff.mpr fun b hb => ?_
    have hb := List.mem_range.mp hb
    rw [h.creatorOf_first b (by omega)]
    simp [hb.ne]
  rw [BranchesInfo.branchesOf, hsplit, List.filter_append, hbelow, List.nil_append,
    List.filter_cons_of_pos (by simp [h.creatorOf_first i hi])]
  exact ⟨_, rfl⟩

lemma BranchInv.mem_branchesOf_br (h : BranchInv V G S br bi) (hu : u ∈ V.members) {y : EventID}
    (hy : y ∈ S) : br y ∈ bi.branchesOf (V.getIdx u) ↔ G.creator y = u := by
  rw [BranchesInfo.mem_branchesOf, h.creatorOf_br hy, Validators.getIdx_inj (h.creator_mem hy) hu]
  exact and_iff_right (h.br_lt y hy)

/-- The branches of a creator are merged to what was observed of it. -/
lemma Before.mergeBranches (h : Before V G time br bi x v) (hbi : BranchInv V G S br bi)
    (hS : G.Valid S) (hx : x ∈ S) (hu : u ∈ V.members) :
    Observed G time x u
      (Index.mergeBranches v.seq v.time (bi.branchesOf (V.getIdx u)) ⟨0, 0⟩ 0).1
      (Index.mergeBranches v.seq v.time (bi.branchesOf (V.getIdx u)) ⟨0, 0⟩ 0).2 := by
  have hlt := Validators.getIdx_lt hu
  have howner : ∀ k ∈ bi.branchesOf (V.getIdx u), bi.owner V k = u := by
    intro k hk
    obtain ⟨hk, hc⟩ := BranchesInfo.mem_branchesOf.mp hk
    rw [← Validators.getIdx_inj (hbi.owner_mem hk) hu, hbi.getIdx_owner hk, hc]
  by_cases hf : G.SeesFork x u
  · -- the first branch is known to the clocks and marked
    obtain ⟨rest, hrest⟩ := hbi.branchesOf_eq_cons hlt
    have hmark := h.fork (V.getIdx u) (hlt.trans_le h.le_size)
      (by rwa [howner (V.getIdx u) (by simp [hrest])])
    refine Or.inl ⟨hf, ?_⟩
    rw [hrest, Index.mergeBranches]
    simp [hmark, isForkDetected_forkDetectedSeq]
  · refine Or.inr ⟨hf, ?_⟩
    have hsummary : ∀ k ∈ bi.branchesOf (V.getIdx u),
        Summary G time {y | y ∈ {y | G.Sees x y} ∧ br y = k} (v.seq.get k) (v.time.get k) :=
      fun k hk => h.summary k fun _ => howner k hk ▸ hf
    have := Summary.mergeBranches (P := {y | G.Sees x y})
      (fun y hy => hS.seq_pos y (hS.sees_mem hx hy)) hsummary (Set.empty_subset _)
      (Or.inl ⟨rfl, rfl⟩ : Summary G time ∅ ⟨0, 0⟩ 0)
    convert this using 1
    ext y
    simp only [Set.empty_union, Set.mem_ofPred_eq]
    exact and_congr_right fun hy => (hbi.mem_branchesOf_br hu (hS.sees_mem hx hy)).symm

lemma Before.observed_of_count (h : Before V G time br bi x v) (hbi : BranchInv V G S br bi)
    (hS : G.Valid S) (hx : x ∈ S) (hcount : bi.count = V.len) (hu : u ∈ V.members) :
    Observed G time x u (v.seq.get (V.getIdx u)) (v.time.get (V.getIdx u)) := by
  have hnot : ∀ w, ¬ G.SeesFork x w := by
    rintro w ⟨y, z, hy, hz, -, hf⟩
    exact hbi.not_fork_of_count hcount (hS.sees_mem hx hy) (hS.sees_mem hx hz) hf
  refine Or.inr ⟨hnot u, ?_⟩
  convert h.summary (V.getIdx u) fun _ => hnot _ using 1
  ext y
  simp only [Set.mem_ofPred_eq]
  refine and_congr_right fun hy => ?_
  have hyS := hS.sees_mem hx hy
  rw [hbi.br_of_count hcount hyS, Validators.getIdx_inj (hbi.creator_mem hyS) hu]

end

/-! ### All validators -/

section

variable (seqs : HighestBeforeSeq) (times : HighestBeforeTime)

lemma get_mergeCreator (merged : HighestBeforeSeq × HighestBeforeTime) (l : List ℕ) (n i : ℕ) :
    ((mergeCreator seqs times merged (l, n)).1.get i, (mergeCreator seqs times merged (l, n)).2.get i)
      = if i = n then mergeBranches seqs times l ⟨0, 0⟩ 0 else (merged.1.get i, merged.2.get i) := by
  have hfits := fits_mergeBranches seqs times l (s := ⟨0, 0⟩) (by constructor <;> decide) 0
  simp only [mergeCreator, HighestBeforeSeq.get_set _ _ _ hfits, HighestBeforeTime.get_set]
  split_ifs <;> rfl

lemma get_foldl_mergeCreator (l : List (List ℕ)) (n : ℕ)
    (merged : HighestBeforeSeq × HighestBeforeTime) (i : ℕ) :
    (((l.zipIdx n).foldl (mergeCreator seqs times) merged).1.get i,
        ((l.zipIdx n).foldl (mergeCreator seqs times) merged).2.get i)
      = if i < n then (merged.1.get i, merged.2.get i) else
        match l[i - n]? with
        | some branches => mergeBranches seqs times branches ⟨0, 0⟩ 0
        | none => (merged.1.get i, merged.2.get i) := by
  induction l generalizing n merged with
  | nil => simp
  | cons branches l ih =>
    rw [List.zipIdx_cons, List.foldl_cons, ih, get_mergeCreator]
    rcases lt_trichotomy i n with hlt | rfl | hgt
    · rw [if_pos (by omega), if_neg (by omega), if_pos hlt]
    · simp
    · obtain ⟨d, rfl⟩ := Nat.exists_eq_add_of_lt hgt
      rw [if_neg (by omega), if_neg (by omega), if_neg (by omega),
        show n + d + 1 - (n + 1) = d by omega, show n + d + 1 - n = d + 1 by omega,
        List.getElem?_cons_succ]

end

section

variable {C : VecCaches} {maxParents : ℕ} {V : Validators} {getEvent : GetEvent}
variable {S S₀ : Set EventID} {vi : Index C} {id : EventID}

lemma Index.highestBeforeMergedWithTime_returns (h : vi.Inv maxParents V getEvent S S₀)
    (hid : id ∈ S) : Returns (highestBeforeMergedWithTime id) vi fun r vi' => vi.Same vi' ∧
      ∃ seqs times, r = (some seqs, some times) ∧ ∀ u ∈ V.members,
        Observed (eventDag getEvent) (claimedTime getEvent) id u (seqs.get (V.getIdx u))
          (times.get (V.getIdx u)) := by
  obtain ⟨seqs, hseqs⟩ := Option.isSome_iff_exists.mp ((h.current.seqs_isSome id).mpr hid)
  obtain ⟨times, htimes⟩ := Option.isSome_iff_exists.mp (h.current.times_isSome id hid)
  have hvecs : vi.current.vecs id = ⟨seqs, times⟩ := by
    rw [Snapshot.vecs, hseqs, htimes]
    rfl
  have hbefore := h.current.before id hid
  rw [hvecs] at hbefore
  have hbi := h.current.branches
  refine vi.initBranchesInfo_returns.bind ?_
  rintro _ vi₁ ⟨hload, h₁⟩
  refine (vi₁.branches_returns hload).bind ?_
  rintro _ vi₁ ⟨rfl, rfl⟩
  refine (vi₁.getHighestBeforeSeq_returns id).bind ?_
  rintro _ vi₂ ⟨rfl, h₂⟩
  refine (vi₂.getHighestBeforeTime_returns id).bind ?_
  rintro _ vi₃ ⟨rfl, h₃⟩
  refine Returns.get_bind ?_
  have hsame := (h₁.trans h₂).trans h₃
  rw [(h₁.trans h₂).current, h₁.current, hseqs, htimes, hsame.validators, h.validators]
  dsimp only
  split_ifs with hfork
  · refine Returns.pure ⟨hsame, _, _, rfl, fun u hu => ?_⟩
    have hget := get_foldl_mergeCreator seqs times vi.current.bi.byCreators 0
      (.new V.len, .new V.len) (V.getIdx u)
    rw [if_neg (by omega), Nat.sub_zero, hbi.byCreators _ (Validators.getIdx_lt hu)] at hget
    have hmerged := hbefore.mergeBranches hbi h.checked.valid hid hu
    simp only [Prod.ext_iff] at hget
    rw [← hget.1, ← hget.2] at hmerged
    exact hmerged
  · refine Returns.pure ⟨hsame, _, _, rfl, fun u hu => ?_⟩
    refine hbefore.observed_of_count hbi h.checked.valid hid ?_ hu
    have hle := hbi.len_le
    simp only [BranchesInfo.atLeastOneFork, decide_eq_true_eq] at hfork
    unfold BranchesInfo.count at hle ⊢
    omega

/-- `Index.GetHighestBeforeMerged` -/
lemma Index.getHighestBeforeMerged_returns (h : vi.Inv maxParents V getEvent S S₀)
    (hid : id ∈ S) : Returns (getHighestBeforeMerged id) vi fun r vi' => vi.Same vi' ∧
      ∃ seqs, r = some seqs ∧ ∀ u ∈ V.members, ∃ t,
        Observed (eventDag getEvent) (claimedTime getEvent) id u (seqs.get (V.getIdx u)) t := by
  refine Returns.map ((highestBeforeMergedWithTime_returns h hid).mono ?_)
  rintro _ vi' ⟨hsame, seqs, times, rfl, hobs⟩
  exact ⟨hsame, seqs, rfl, fun u hu => ⟨_, hobs u hu⟩⟩

end

/-! ### The median time -/

open Classical in
/-- The stake and the time with which the validator `u` counts in the median time of `x`. -/
noncomputable def medianEntry (V : Validators) (G : EventDag)
    (time : EventID → Timestamp) (genesisTime : Timestamp) (x : EventID) (u : StakerID) :
    MedianTimeIndex :=
  if G.SeesFork x u then ⟨0, 0⟩
  else if h : ∃ y, (G.Sees x y ∧ G.creator y = u) ∧
      ∀ z, G.Sees x z ∧ G.creator z = u → G.seq z ≤ G.seq y then ⟨V.get u, time h.choose⟩
  else ⟨V.get u, genesisTime⟩

/-- The median time of `x` as a function of the graph. -/
noncomputable def graphMedianTime (V : Validators) (G : EventDag)
    (time : EventID → Timestamp) (genesisTime : Timestamp) (x : EventID) :
    Except Fault Timestamp :=
  weightedMedian (V.ids.map (medianEntry V G time genesisTime x))

section

variable {V : Validators} {G : EventDag} {time : EventID → Timestamp}

lemma Observed.medianTimeIndex {S : Set EventID} (hS : G.Valid S) {x : EventID} (hx : x ∈ S)
    (h : Observed G time x u s t) (genesisTime : Timestamp) :
    Index.medianTimeIndex genesisTime (V.get u) s t = medianEntry V G time genesisTime x u := by
  unfold medianEntry
  rcases h with ⟨hf, rfl, rfl⟩ | ⟨hf, hsum⟩
  · rw [if_pos hf]
    rfl
  · rw [if_neg hf, Index.medianTimeIndex,
      hsum.not_isForkDetected fun y hy => hS.seq_pos y (hS.sees_mem hx hy.1)]
    rcases hsum with ⟨hempty, rfl⟩ | ⟨top, htop, low, -, rfl, rfl, hb⟩
    · rw [dif_neg]
      · rfl
      · rintro ⟨y, hy, -⟩
        exact Set.eq_empty_iff_forall_notMem.mp hempty y hy
    · have hex : ∃ y, (G.Sees x y ∧ G.creator y = u) ∧
          ∀ z, G.Sees x z ∧ G.creator z = u → G.seq z ≤ G.seq y :=
        ⟨top, htop, fun z hz => (hb z hz).2⟩
      have hpos := hS.seq_pos top (hS.sees_mem hx htop.1)
      -- the greatest event is unique, as `x` sees no fork
      have htop_eq : hex.choose = top := by
        by_contra hne
        obtain ⟨hmem, hmax⟩ := hex.choose_spec
        exact hf ⟨hex.choose, top, hmem.1, htop.1, hmem.2, hne, hmem.2.trans htop.2.symm,
          le_antisymm (hb _ hmem).2 (hmax top htop)⟩
      rw [dif_pos hex, htop_eq]
      simp [hpos.ne']

end

/-- The median loop stops once it has half the stake and never goes beyond the whole. -/
lemma medianLoop_spec (half : Stake) (l : List MedianTimeIndex) (curr : Stake)
    (hl : curr.toNat + (l.map (·.stake.toNat)).sum < 2 ^ 64) :
    (medianLoop half l curr).1.toNat ≤ curr.toNat + (l.map (·.stake.toNat)).sum ∧
      (half ≤ (medianLoop half l curr).1 ∨
        (medianLoop half l curr).1.toNat = curr.toNat + (l.map (·.stake.toNat)).sum) := by
  induction l generalizing curr with
  | nil => exact ⟨by simp [medianLoop], Or.inr (by simp [medianLoop])⟩
  | cons m l ih =>
    simp only [List.map_cons, List.sum_cons] at hl ⊢
    have hadd : (curr + m.stake).toNat = curr.toNat + m.stake.toNat := by
      rw [UInt64.toNat_add]
      omega
    unfold medianLoop
    dsimp only
    split_ifs with hhalf
    · refine ⟨?_, Or.inl hhalf⟩
      dsimp only
      omega
    · have := ih (curr + m.stake) (by omega)
      rw [hadd, Nat.add_assoc] at this
      exact this

lemma toNat_foldl_add (l : List Stake) (acc : Stake)
    (hl : acc.toNat + (l.map UInt64.toNat).sum < 2 ^ 64) :
    (l.foldl (· + ·) acc).toNat = acc.toNat + (l.map UInt64.toNat).sum := by
  induction l generalizing acc with
  | nil => simp
  | cons s l ih =>
    simp only [List.map_cons, List.sum_cons, List.foldl_cons] at hl ⊢
    have hadd : (acc + s).toNat = acc.toNat + s.toNat := by
      rw [UInt64.toNat_add]
      omega
    rw [ih _ (by omega), hadd, Nat.add_assoc]

lemma toNat_honestTotalStake {l : List MedianTimeIndex}
    (hl : (l.map (·.stake.toNat)).sum < 2 ^ 64) :
    ((l.map (·.stake)).foldl (· + ·) (0 : Stake)).toNat = (l.map (·.stake.toNat)).sum := by
  have hsum : ((l.map fun m => m.stake).map UInt64.toNat) = l.map (·.stake.toNat) := by
    rw [List.map_map]
    rfl
  rw [toNat_foldl_add _ _ (by simpa [hsum] using hl), hsum, UInt64.toNat_zero, Nat.zero_add]

/-- The median exists when the stakes can be summed. -/
lemma weightedMedian_ok {l : List MedianTimeIndex} (hl : (l.map (·.stake.toNat)).sum < 2 ^ 64) :
    ∃ t, weightedMedian l = .ok t := by
  have htotal := toNat_honestTotalStake hl
  have hperm := (List.perm_insertionSort (fun a b : MedianTimeIndex => a.claimedTime ≤ b.claimedTime)
    l).map fun m => m.stake.toNat
  have hspec := medianLoop_spec ((l.map fun m => m.stake).foldl (· + ·) (0 : Stake) / 2)
    (l.insertionSort fun a b => a.claimedTime ≤ b.claimedTime) 0 (by simpa [hperm.sum_eq] using hl)
  rw [hperm.sum_eq, ← htotal, UInt64.toNat_zero, Nat.zero_add] at hspec
  obtain ⟨hle, hge⟩ := hspec
  refine ⟨_, if_neg ?_⟩
  rw [not_or, UInt64.not_lt, UInt64.not_lt, UInt64.le_iff_toNat_le, UInt64.le_iff_toNat_le]
  refine ⟨?_, hle⟩
  rcases hge with hge | heq
  · rwa [UInt64.le_iff_toNat_le] at hge
  · rw [heq, UInt64.toNat_div]
    exact Nat.div_le_self _ _

section

variable (V : Validators) (G : EventDag) (time : EventID → Timestamp)
variable (genesisTime : Timestamp) (x : EventID)

lemma stake_medianEntry_le (u : StakerID) :
    (medianEntry V G time genesisTime x u).stake.toNat ≤ V.stakeOf u := by
  unfold medianEntry
  split_ifs
  · exact Nat.zero_le _
  · exact le_rfl
  · exact le_rfl

lemma sum_medianEntry_le :
    ((V.ids.map (medianEntry V G time genesisTime x)).map (·.stake.toNat)).sum ≤ V.total :=
  calc ((V.ids.map (medianEntry V G time genesisTime x)).map (·.stake.toNat)).sum
      ≤ (V.ids.map V.stakeOf).sum := by
        rw [List.map_map]
        exact List.sum_le_sum fun u _ => stake_medianEntry_le V G time genesisTime x u
    _ = V.total := (List.sum_toFinset _ V.nodup).symm

lemma graphMedianTime_ok (hV : V.total < 2 ^ 64) :
    ∃ t, graphMedianTime V G time genesisTime x = .ok t :=
  weightedMedian_ok (lt_of_le_of_lt (sum_medianEntry_le V G time genesisTime x) hV)

end

section

variable {C : VecCaches} {maxParents : ℕ} {V : Validators} {getEvent : GetEvent}
variable {S S₀ : Set EventID} {vi : Index C} {id : EventID}

/-- `Index.MedianTime` is a function of the graph. -/
lemma Index.medianTime_run (h : vi.Inv maxParents V getEvent S S₀) (hid : id ∈ S)
    (genesisTime : Timestamp) : ∃ vi', vi.Same vi' ∧ (medianTime id genesisTime).run vi =
      (graphMedianTime V (eventDag getEvent) (claimedTime getEvent) genesisTime id).map (·, vi') := by
  obtain ⟨_, vi', hrun, hsame, seqs, times, rfl, hobs⟩ := highestBeforeMergedWithTime_returns h hid
  have hlist : (V.stakes.zipIdx.map fun p =>
        Index.medianTimeIndex genesisTime p.1 (seqs.get p.2) (times.get p.2))
      = V.ids.map (medianEntry V (eventDag getEvent) (claimedTime getEvent) genesisTime id) := by
    refine List.ext_getElem? fun i => ?_
    rw [← V.map_get_ids, List.getElem?_map, List.getElem?_zipIdx, List.getElem?_map,
      List.getElem?_map]
    cases hu : V.ids[i]? with
    | none => rfl
    | some u =>
      obtain ⟨hmem, rfl⟩ := Validators.getIdx_of_ids hu
      simpa using (hobs u hmem).medianTimeIndex h.checked.valid hid genesisTime
  refine ⟨vi', hsame, ?_⟩
  have hV : vi'.validators = V := hsame.validators.trans h.validators
  rw [graphMedianTime, ← hlist, ← hV]
  rw [medianTime, StateT.run_bind, hrun]
  rfl

/-! ### Known cheaters -/

lemma noCheatersLoop_ok {highest : HighestBeforeSeq} {cheats : EventID → Prop}
    [DecidablePred cheats] {ids : List EventID}
    (hids : ∀ p ∈ ids, ∃ e, getEvent p = some e ∧
      ((highest.get (V.getIdx e.creator)).isForkDetected = true ↔ cheats p)) :
    noCheatersLoop V getEvent highest ids = .ok (ids.filter (¬ cheats ·)) := by
  induction ids with
  | nil => rfl
  | cons p ids ih =>
    obtain ⟨e, he, hp⟩ := hids p (by simp)
    rw [noCheatersLoop, he, ih fun q hq => hids q (by simp [hq])]
    by_cases hc : cheats p
    · simp [hc, hp.mpr hc, Except.map]
    · simp [hc, mt hp.mp hc, Except.map]

open Classical in
/-- `Index.NoCheaters` keeps the events of creators whose forks the self-parent does not see. -/
lemma Index.noCheaters_returns (h : vi.Inv maxParents V getEvent S S₀) {selfParent : Option EventID}
    (hself : ∀ p, selfParent = some p → p ∈ S) {options : List EventID}
    (hoptions : ∀ p ∈ options, p ∈ S₀) :
    Returns (noCheaters selfParent options) vi fun r vi' => vi.Same vi' ∧
      r = options.filter fun p => ¬ ∃ q, selfParent = some q ∧
        (eventDag getEvent).SeesFork q ((eventDag getEvent).creator p) := by
  cases selfParent with
  | none => exact Returns.pure ⟨Same.refl vi, by simp⟩
  | some q =>
    have hq := hself q rfl
    refine vi.initBranchesInfo_returns.bind ?_
    rintro _ vi₁ ⟨-, h₁⟩
    refine (vi₁.getHighestBeforeSeq_returns q).bind ?_
    rintro _ vi₂ ⟨rfl, h₂⟩
    refine Returns.get_bind ?_
    have hinv := h.same (h₁.trans h₂)
    rw [hinv.validators, h₁.current]
    refine Returns.lift (noCheatersLoop_ok fun p hp => ?_) ⟨h₁.trans h₂, rfl⟩
    obtain ⟨e, he, -⟩ := h.flushed_checked.exists_event (hoptions p hp)
    refine ⟨e, by rw [hinv.source p (hoptions p hp), he], ?_⟩
    have hbefore := h.current.before q hq
    have hbi := h.current.branches
    have hu : e.creator ∈ V.members := creator_eventDag he ▸ hbi.creator_mem (h.subset (hoptions p hp))
    have hlt := Validators.getIdx_lt hu
    have howner : vi.current.bi.owner V (V.getIdx e.creator) = e.creator := by
      rw [BranchesInfo.owner, hbi.creatorOf_first _ hlt, List.getD_eq_getElem?_getD,
        Validators.ids_getIdx hu]
      rfl
    have hseqs : (vi.current.seqs q).getD (.new 0) = (vi.current.vecs q).seq := rfl
    rw [hseqs, hbefore.isForkDetected_iff h.checked.valid hq (hlt.trans_le hbefore.le_size),
      howner, creator_eventDag he]
    simp

end

end Lachesis
