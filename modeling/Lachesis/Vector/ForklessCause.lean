import Lachesis.Vector.Invariant

/-!
# Forkless cause

The comparison of two clocks that `forklessCause` makes is the definition of forkless cause on the
graph, and what is cached never becomes wrong. A fork both of whose sides forkless cause some event
takes forking validators that hold a quorum intersection.
-/

namespace Lachesis

open Lachesis.Core Index

/-! ### Counting observers -/

lemma observing_iff {a : HighestBeforeSeq} {b : LowestAfterSeq} {k : ℕ} :
    observing a b k = true ↔
      b.get k ≤ (a.get k).seq ∧ b.get k ≠ 0 ∧ (a.get k).isForkDetected = false := by
  simp [Index.observing, and_assoc]

section

variable {V : Validators} {G : EventDag} {S : Set EventID} {br : EventID → ℕ}
variable {bi : BranchesInfo} {time : EventID → Timestamp} {x y : EventID} {v : BeforeVecs}
variable {after : LowestAfterSeq}

/-- The loop counts the owners of the branches on which the event is observed. -/
lemma countObserving_ok (a : HighestBeforeSeq) (b : LowestAfterSeq) {owner : ℕ → StakerID}
    {l : List (ℕ × ℕ)} (hl : ∀ p ∈ l, owner p.2 ∈ V.members ∧ p.1 = V.getIdx (owner p.2))
    {T : Finset StakerID} {c : StakeCounter} (hc : c.Counted V T) :
    ∃ c', countObserving a b l c = .ok c' ∧
      c'.Counted V (T ∪ ((l.filter (observing a b ·.2)).map (owner ·.2)).toFinset) := by
  induction l generalizing T c with
  | nil => exact ⟨c, rfl, by simpa using hc⟩
  | cons p l ih =>
    obtain ⟨i, k⟩ := p
    obtain ⟨hmem, rfl⟩ : owner k ∈ V.members ∧ i = V.getIdx (owner k) := hl (i, k) (by simp)
    have hl' : ∀ p ∈ l, owner p.2 ∈ V.members ∧ p.1 = V.getIdx (owner p.2) :=
      fun p hp => hl p (by simp [hp])
    by_cases hk : observing a b k
    · obtain ⟨c₁, hcount, hc₁⟩ := hc.countByIdx hmem
      obtain ⟨c', hrun, hc'⟩ := ih hl' hc₁
      refine ⟨c', ?_, ?_⟩
      · rw [countObserving, if_pos hk, hcount]
        exact hrun
      · simpa [hk, Finset.insert_union, Finset.union_insert] using hc'
    · obtain ⟨c', hrun, hc'⟩ := ih hl' hc
      refine ⟨c', ?_, by simpa [hk] using hc'⟩
      rw [countObserving, if_neg hk]
      exact hrun

variable (h : Before V G time br bi x v) (hbi : BranchInv V G S br bi) (hS : G.Valid S) (hx : x ∈ S)
include h hbi hS hx

/-- A branch on which the clocks show `y` to be observed belongs to a validator that relays `y`. -/
lemma Before.relays_of_observing (ha : After G S br y after) {k : ℕ}
    (hk : observing v.seq after k) : G.Relays x y (bi.owner V k) := by
  obtain ⟨hle, hne, hdet⟩ := observing_iff.mp hk
  have hnot : k < v.seq.size → ¬ G.SeesFork x (bi.owner V k) := by
    intro hlt hf
    rw [h.fork k hlt hf, isForkDetected_forkDetectedSeq] at hdet
    cases hdet
  obtain ⟨top, ⟨htop, htopk⟩, hseq, -⟩ := (h.summary k hnot).exists_top (by omega)
  rcases ha k with ⟨h₀, -⟩ | ⟨z, hz, hzk, hzy, heq, -⟩
  · exact absurd h₀ hne
  have htopS := hS.sees_mem hx htop
  have hcreator : G.creator top = bi.owner V k := by rw [← hbi.owner_br top htopS, htopk]
  have hztop : G.Sees top z :=
    hbi.sees_of_seq_le hS hz htopS (hzk.trans htopk.symm) (by omega)
  refine ⟨fun hf => ?_, top, htop, hcreator, hztop.trans hzy⟩
  -- a fork of the owner is marked on all branches known to `x`, and `top` is on a known one
  by_cases hlt : k < v.seq.size
  · exact hnot hlt hf
  · rw [HighestBeforeSeq.get_of_size_le (by omega)] at hle
    exact hne (by simpa using hle)

/-- Whoever relays an event does so on one of their branches. -/
lemma Before.observing_of_relays (ha : After G S br y after) {u : StakerID} (hu : G.Relays x y u) :
    ∃ k < bi.count, bi.owner V k = u ∧ observing v.seq after k := by
  obtain ⟨hnot, z, hxz, rfl, hzy⟩ := hu
  have hz := hS.sees_mem hx hxz
  have howner := hbi.owner_br z hz
  have hsum := h.summary (br z) fun _ => howner ▸ hnot
  refine ⟨br z, hbi.br_lt z hz, howner, ?_⟩
  rcases ha (br z) with ⟨-, hno⟩ | ⟨w, hw, hwk, hwy, heq, hmin⟩
  · exact absurd hzy (hno z hz rfl)
  refine observing_iff.mpr ⟨?_, ?_, ?_⟩
  · rw [heq]
    exact (hmin z hz rfl hzy).trans (hsum.le_seq ⟨hxz, rfl⟩).2
  · rw [heq]
    exact (hS.seq_pos w hw).ne'
  · exact hsum.not_isForkDetected fun w hw => hS.seq_pos w (hS.sees_mem hx hw.1)

/-- The validators that relay the event are counted. -/
lemma Before.countObserving (ha : After G S br y after) :
    ∃ c, countObserving v.seq after bi.creatorIdxs.zipIdx V.newCounter = .ok c ∧
      c.Counted V (G.relayers V.members x y) := by
  have hmem : ∀ i k, (i, k) ∈ bi.creatorIdxs.zipIdx ↔ k < bi.count ∧ i = bi.creatorOf k := by
    intro i k
    rw [List.mem_zipIdx_iff_getElem?]
    constructor
    · intro hk
      have hlt : k < bi.count := (List.getElem?_eq_some_iff.mp hk).1
      rw [BranchesInfo.creatorIdxs_getElem? hlt] at hk
      exact ⟨hlt, (Option.some.inj hk).symm⟩
    · rintro ⟨hlt, rfl⟩
      exact BranchesInfo.creatorIdxs_getElem? hlt
  have howner : ∀ p ∈ bi.creatorIdxs.zipIdx,
      bi.owner V p.2 ∈ V.members ∧ p.1 = V.getIdx (bi.owner V p.2) := by
    intro p hp
    obtain ⟨hlt, hi⟩ := (hmem p.1 p.2).mp hp
    exact ⟨hbi.owner_mem hlt, hi.trans (hbi.getIdx_owner hlt).symm⟩
  obtain ⟨c, hrun, hc⟩ := countObserving_ok v.seq after howner (StakeCounter.counted_newCounter V)
  refine ⟨c, hrun, ?_⟩
  convert hc using 1
  ext u
  simp only [ForkDag.relayers, Finset.mem_filter, Finset.empty_union, List.mem_toFinset,
    List.mem_map, List.mem_filter, Prod.exists, hmem]
  constructor
  · rintro ⟨-, hu⟩
    obtain ⟨k, hk, rfl, hobs⟩ := h.observing_of_relays hbi hS hx ha hu
    exact ⟨bi.creatorOf k, k, ⟨⟨hk, rfl⟩, hobs⟩, rfl⟩
  · rintro ⟨i, k, ⟨⟨hk, -⟩, hobs⟩, rfl⟩
    exact ⟨hbi.owner_mem hk, h.relays_of_observing hbi hS hx ha hobs⟩

/-- What the clocks say about a fork of the creator of `y`. On a branch they do not know, they say
nothing and `x` does not see `y`. -/
lemma Before.isForkDetected_br (hy : y ∈ S) :
    ((v.seq.get (br y)).isForkDetected = true → G.SeesFork x (G.creator y)) ∧
    ((v.seq.get (br y)).isForkDetected = false → ¬ G.SeesFork x (G.creator y) ∨ ¬ G.Sees x y) := by
  have howner := hbi.owner_br y hy
  by_cases hlt : br y < v.seq.size
  · rw [← howner, ← h.isForkDetected_iff hS hx hlt]
    exact ⟨fun hdet => hdet, fun hdet => Or.inl (by simp [hdet])⟩
  · have hget : v.seq.get (br y) = ⟨0, 0⟩ := HighestBeforeSeq.get_of_size_le (by omega)
    have hempty := ((h.summary (br y) fun h => absurd h hlt).seq_eq_zero_iff
      fun z hz => hS.seq_pos z (hS.sees_mem hx hz.1)).mp (by rw [hget])
    refine ⟨fun hdet => ?_, fun _ => Or.inr fun hxy => ?_⟩
    · rw [hget] at hdet
      cases hdet
    · exact Set.eq_empty_iff_forall_notMem.mp hempty y ⟨hxy, rfl⟩

end

lemma forklessCaused_iff {V : Validators} (hV : V.total < 2 ^ 64) {G : EventDag} {a b : EventID} :
    ForklessCaused V G a b ↔ G.ForklessCause V.members V.stakeOf V.quorum.toNat a b :=
  and_congr_right' (Validators.quorum_le_sum_iff hV (ForkDag.relayers_subset ..))

/-- A quorum relays what is seen only. -/
lemma sees_of_quorum_le {V : Validators} {G : EventDag} {x y : EventID}
    (h : V.quorum ≤ ∑ v ∈ G.relayers V.members x y, V.get v) : G.Sees x y := by
  classical
  by_contra hnot
  have hempty : G.relayers V.members x y = ∅ := by
    refine Finset.filter_eq_empty_iff.mpr ?_
    rintro v - ⟨-, z, hxz, -, hzy⟩
    exact hnot (hxz.trans hzy)
  rw [hempty, Finset.sum_empty, UInt64.le_iff_toNat_le] at h
  exact absurd V.quorum_pos (by simpa using h)

namespace Index

variable {C : VecCaches} {maxParents : ℕ} {V : Validators} {getEvent : GetEvent}
variable {S S₀ : Set EventID} {vi : Index C} {a b : EventID}

variable (h : vi.Inv maxParents V getEvent S S₀) (ha : a ∈ S) (hb : b ∈ S)
include h ha hb

lemma observesCheater_returns {bi : BranchesInfo} (hbi : bi = vi.current.bi) :
    Returns (observesCheater bi (vi.current.vecs a).seq b) vi fun r vi' => vi' = vi ∧
      (r = true → (eventDag getEvent).SeesFork a ((eventDag getEvent).creator b)) ∧
      (r = false → ¬ (eventDag getEvent).SeesFork a ((eventDag getEvent).creator b) ∨
        ¬ (eventDag getEvent).Sees a b) := by
  refine Returns.get_bind ?_
  have hS := h.checked.valid
  split_ifs with hfork
  · refine (vi.getEventBranchID_returns b ((h.current.branch_isSome b).mpr hb)).bind ?_
    rintro _ vi ⟨rfl, rfl⟩
    exact Returns.pure ⟨rfl, (h.current.before a ha).isForkDetected_br h.current.branches hS ha hb⟩
  · -- without a second branch there is no fork at all
    have hcount : vi.current.bi.count = vi.validators.len := by
      have := h.current.branches.len_le
      simp only [BranchesInfo.atLeastOneFork, decide_eq_true_eq, hbi] at hfork
      rw [← h.validators] at this
      unfold BranchesInfo.count at this ⊢
      omega
    refine Returns.pure ⟨rfl, by simp, fun _ => Or.inl ?_⟩
    rintro ⟨x, y, hx, hy, -, hf⟩
    exact h.current.branches.not_fork_of_count (h.validators ▸ hcount) (hS.sees_mem ha hx)
      (hS.sees_mem ha hy) hf

/-- `Index.forklessCause` decides forkless cause. -/
lemma forklessCauseUncached_returns :
    Returns (forklessCauseUncached a b) vi fun r vi' => vi.Same vi' ∧
      (r = true ↔ ForklessCaused V (eventDag getEvent) a b) := by
  refine vi.initBranchesInfo_returns.bind ?_
  rintro _ vi₁ ⟨hbi, h₁⟩
  refine (vi₁.branches_returns hbi).bind ?_
  rintro _ vi₁ ⟨rfl, rfl⟩
  refine (vi₁.getHighestBeforeSeq_returns a).bind ?_
  rintro _ vi₂ ⟨rfl, h₂⟩
  have hsame := h₁.trans h₂
  have hinv := h.same hsame
  obtain ⟨seq, hseq⟩ := Option.isSome_iff_exists.mp ((h.current.seqs_isSome a).mpr ha)
  obtain ⟨after, hafter, hdesc⟩ := h.current.after b hb
  have hvecs : seq = (vi₂.current.vecs a).seq := by
    rw [hsame.current, Snapshot.vecs, hseq]
    rfl
  rw [h₁.current, hseq, hvecs]
  refine (observesCheater_returns hinv ha hb (by rw [hsame.current])).bind ?_
  rintro (_ | _) vi₂ ⟨rfl, hyes, hno⟩
  · refine (vi₂.getLowestAfterSeq_returns b).bind ?_
    rintro _ vi₃ ⟨rfl, h₃⟩
    rw [hsame.current, hafter]
    refine Returns.get_bind ?_
    obtain ⟨c, hc, hcounted⟩ :=
      (h.current.before a ha).countObserving h.current.branches h.checked.valid ha hdesc
    have hV : vi₃.validators = V := (hinv.same h₃).validators
    rw [← hV] at hc
    refine Returns.lift_bind hc ?_
    refine Returns.pure ⟨hsame.trans h₃, ?_⟩
    rw [hcounted.hasQuorum_iff]
    refine ⟨fun hq => ⟨?_, hq⟩, fun hcaused => hcaused.2⟩
    exact (hno rfl).resolve_right (not_not_intro (sees_of_quorum_le hq))
  · refine Returns.pure ⟨hsame, ?_⟩
    simp [ForklessCaused, hyes rfl]

/-- `Index.ForklessCause` decides forkless cause, from the cache or not. -/
theorem Inv.forklessCause :
    Returns (forklessCause a b) vi fun r vi' => vi'.Inv maxParents V getEvent S S₀ ∧
      vi'.getEvent = vi.getEvent ∧ (r = true ↔ ForklessCaused V (eventDag getEvent) a b) := by
  have hfound := h.cached.find (a, b)
  have hinv : Inv maxParents V getEvent S S₀
      { vi with forklessCauseCache := (C.forklessCause.find vi.forklessCauseCache (a, b)).2 } :=
    { h with cached := hfound }
  simp only [Returns, StateT.run, Index.forklessCause]
  cases hfind : (C.forklessCause.find vi.forklessCauseCache (a, b)).1 with
  | some r => exact ⟨_, _, rfl, hinv, rfl, h.cached.of_find_eq hfind⟩
  | none =>
    obtain ⟨r, vi', hrun, hsame, hr⟩ := forklessCauseUncached_returns hinv ha hb
    simp only [StateT.run] at hrun
    rw [hrun]
    have hinv' := hinv.same hsame
    exact ⟨_, _, rfl, { hinv' with cached := hinv'.cached.add hr }, hsame.getEvent, hr⟩

end Index

end Lachesis
