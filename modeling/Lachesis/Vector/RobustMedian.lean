import Lachesis.Vector.Calls

/-!
# The median time is robust

Validators that fork or claim arbitrary times cannot move the median time of an event beyond what
the honest ones claim, as long as they leave a quorum to them.
-/

namespace Lachesis

open Lachesis.Core Index

/-! ### The loop -/

/-- The loop stops at the entry where half of the stake is reached. -/
lemma medianLoop_reaches (half : Stake) {l : List MedianTimeIndex} {curr : Stake}
    (hsum : curr.toNat + (l.map (·.stake.toNat)).sum < 2 ^ 64)
    (hreach : half.toNat ≤ curr.toNat + (l.map (·.stake.toNat)).sum) (hne : l ≠ []) :
    ∃ l₁ m l₂, l = l₁ ++ m :: l₂ ∧ (medianLoop half l curr).2 = m.claimedTime ∧
      (l₁ = [] ∨ curr.toNat + (l₁.map (·.stake.toNat)).sum < half.toNat) ∧
      half.toNat ≤ curr.toNat + (l₁.map (·.stake.toNat)).sum + m.stake.toNat := by
  induction l generalizing curr with
  | nil => exact absurd rfl hne
  | cons m l ih =>
    simp only [List.map_cons, List.sum_cons] at hsum hreach
    have hadd : (curr + m.stake).toNat = curr.toNat + m.stake.toNat := by
      rw [UInt64.toNat_add]
      omega
    unfold medianLoop
    dsimp only
    split_ifs with hhalf
    · rw [UInt64.le_iff_toNat_le, hadd] at hhalf
      exact ⟨[], m, l, rfl, rfl, Or.inl rfl, by simpa using hhalf⟩
    · rw [UInt64.le_iff_toNat_le, hadd] at hhalf
      have hl : l ≠ [] := by
        rintro rfl
        simp only [List.map_nil, List.sum_nil] at hreach
        omega
      obtain ⟨l₁, m', l₂, rfl, hm, hlt, hge⟩ := @ih (curr + m.stake) (by omega) (by omega) hl
      refine ⟨m :: l₁, m', l₂, rfl, hm, Or.inr ?_, ?_⟩
      · rcases hlt with rfl | hlt
        · simp only [List.map_cons, List.map_nil, List.sum_cons, List.sum_nil]
          omega
        · simp only [List.map_cons, List.sum_cons]
          omega
      · simp only [List.map_cons, List.sum_cons]
        omega

/-- The weighted median is the time at which the stakes, sorted by time, reach half. -/
lemma weightedMedian_reaches {l : List MedianTimeIndex}
    (hsum : (l.map (·.stake.toNat)).sum < 2 ^ 64) (hne : l ≠ []) :
    ∃ m : MedianTimeIndex, weightedMedian l = .ok m.claimedTime ∧
      ReachesAt (·.stake.toNat) ((l.map (·.stake.toNat)).sum / 2)
        (l.insertionSort fun a b => a.claimedTime ≤ b.claimedTime) m := by
  obtain ⟨t, ht⟩ := weightedMedian_ok hsum
  have hhalf : ((l.map (·.stake)).foldl (· + ·) (0 : Stake) / 2).toNat =
      (l.map (·.stake.toNat)).sum / 2 := by
    rw [UInt64.toNat_div, toNat_honestTotalStake hsum]
    rfl
  have hperm := List.perm_insertionSort (fun a b : MedianTimeIndex => a.claimedTime ≤ b.claimedTime) l
  have hsorted := (hperm.map fun m => m.stake.toNat).sum_eq
  obtain ⟨l₁, m, l₂, hl, hm, hlt, hge⟩ := @medianLoop_reaches
    ((l.map (·.stake)).foldl (· + ·) (0 : Stake) / 2)
    (l.insertionSort fun a b => a.claimedTime ≤ b.claimedTime) 0 (by simpa [hsorted] using hsum)
    (by rw [hhalf, hsorted, UInt64.toNat_zero]; omega)
    (fun h => hne (List.length_eq_zero_iff.mp (by rw [← hperm.length_eq, h]; rfl)))
  rw [hhalf, UInt64.toNat_zero, Nat.zero_add] at hlt hge
  refine ⟨m, ?_, l₁, l₂, hl, hlt, hge⟩
  unfold weightedMedian at ht ⊢
  dsimp only at ht ⊢
  split_ifs at ht ⊢
  rw [hm]

/-! ### What the honest validators claim -/

/-- The time with which the validator `u` counts for `x`: the claimed time of its highest event among
those that `x` sees, or the genesis time. -/
def LastTime (G : EventDag) (time : EventID → Timestamp) (genesisTime : Timestamp)
    (x : EventID) (u : StakerID) (t : Timestamp) : Prop :=
  (∃ y, G.Sees x y ∧ G.creator y = u ∧ (∀ z, G.Sees x z → G.creator z = u → G.seq z ≤ G.seq y) ∧
    t = time y) ∨ ((∀ y, G.Sees x y → G.creator y ≠ u) ∧ t = genesisTime)

section

variable {V : Validators} {G : EventDag} {time : EventID → Timestamp}
variable {S : Finset EventID} {x : EventID} {u : StakerID}

lemma lastTime_medianEntry (V : Validators) (time : EventID → Timestamp) (hS : G.Valid S)
    (hx : x ∈ S) (hu : ¬ G.SeesFork x u) (genesisTime : Timestamp) :
    (medianEntry V G time genesisTime x u).stake = V.get u ∧
      LastTime G time genesisTime x u (medianEntry V G time genesisTime x u).claimedTime := by
  classical
  unfold medianEntry
  rw [if_neg hu]
  split_ifs with hex
  · obtain ⟨⟨hsees, hc⟩, hmax⟩ := hex.choose_spec
    exact ⟨rfl, Or.inl ⟨_, hsees, hc, fun z hz hzc => hmax z ⟨hz, hzc⟩, rfl⟩⟩
  · refine ⟨rfl, Or.inr ⟨fun y hy hc => hex ?_, rfl⟩⟩
    obtain ⟨top, htop, hmax⟩ := (S.filter fun y => G.Sees x y ∧ G.creator y = u).exists_max_image
      G.seq ⟨y, Finset.mem_filter.mpr ⟨hS.sees_mem hx hy, hy, hc⟩⟩
    exact ⟨top, (Finset.mem_filter.mp htop).2, fun z hz =>
      hmax z (Finset.mem_filter.mpr ⟨hS.sees_mem hx hz.1, hz⟩)⟩

lemma Validators.stakeOf_pos (hu : u ∈ V.members) : 0 < V.stakeOf u := by
  obtain ⟨w, hw, rfl⟩ := List.mem_map.mp (Validators.mem_members.mp hu)
  rw [Validators.stakeOf, Validators.get_id hw]
  exact Nat.pos_of_ne_zero fun h => V.stake_ne_zero w hw (UInt64.toNat_inj.mp h)

lemma sum_filter_entries (V : Validators) (entry : StakerID → MedianTimeIndex)
    (p : MedianTimeIndex → Prop) [DecidablePred p] :
    (((V.ids.map entry).filter p).map (·.stake.toNat)).sum =
      ∑ u ∈ V.members.filter fun u => p (entry u), (entry u).stake.toNat := by
  have hset : (V.members.filter fun u => p (entry u)) =
      (V.ids.filter fun u => p (entry u)).toFinset := by
    ext u
    simp [Validators.mem_members]
  rw [hset, List.sum_toFinset _ (V.nodup.filter _), List.filter_map, List.map_map]
  rfl

lemma graphMedianTime_robust (time : EventID → Timestamp) (hV : V.total < 2 ^ 63)
    (hS : G.Valid S) (hx : x ∈ S) {dishonest : Finset StakerID}
    (hforks : ∀ u ∈ V.members, G.SeesFork x u → u ∈ dishonest)
    (hstake : weight V.stakeOf dishonest + V.quorum.toNat ≤ V.total) (genesisTime : Timestamp) :
    ∃ t, graphMedianTime V G time genesisTime x = .ok t ∧
      (∃ u ∈ V.members \ dishonest, ∃ s, LastTime G time genesisTime x u s ∧ s ≤ t) ∧
      ∃ u ∈ V.members \ dishonest, ∃ s, LastTime G time genesisTime x u s ∧ t ≤ s := by
  classical
  set entry := medianEntry V G time genesisTime x with hentry
  have hhonest : ∀ u ∈ V.members \ dishonest, (entry u).stake.toNat = V.stakeOf u ∧
      LastTime G time genesisTime x u (entry u).claimedTime := by
    intro u hu
    obtain ⟨hu, hnot⟩ := Finset.mem_sdiff.mp hu
    obtain ⟨h₁, h₂⟩ := lastTime_medianEntry V time hS hx (mt (hforks u hu) hnot) genesisTime
    exact ⟨congrArg UInt64.toNat h₁, h₂⟩
  -- the entries of honest validators, by their values
  let chosen : MedianTimeIndex → Prop := fun m => ∃ u ∈ V.members \ dishonest, entry u = m
  have hothers : (((V.ids.map entry).filter (¬ chosen ·)).map (·.stake.toNat)).sum ≤
      weight V.stakeOf dishonest := by
    rw [sum_filter_entries]
    refine (Finset.sum_le_sum fun u _ => stake_medianEntry_le V G time genesisTime x u).trans
      (weight_mono _ fun u hu => ?_)
    obtain ⟨hu, hnot⟩ := Finset.mem_filter.mp hu
    by_contra hd
    exact hnot ⟨u, Finset.mem_sdiff.mpr ⟨hu, hd⟩, rfl⟩
  have hchosen : weight V.stakeOf (V.members \ dishonest) ≤
      (((V.ids.map entry).filter chosen).map (·.stake.toNat)).sum := by
    rw [sum_filter_entries, weight, ← Finset.sum_congr rfl fun u hu => (hhonest u hu).1]
    refine Finset.sum_le_sum_of_subset fun u hu => ?_
    exact Finset.mem_filter.mpr ⟨(Finset.mem_sdiff.mp hu).1, u, hu, rfl⟩
  have hwhole : V.total ≤ weight V.stakeOf (V.members \ dishonest) + weight V.stakeOf dishonest := by
    rw [← weight_union_of_disjoint _ Finset.sdiff_disjoint, Finset.sdiff_union_self_eq_union]
    exact weight_mono _ Finset.subset_union_left
  have hsplit := List.sum_map_filter_add_sum_map_filter_not chosen (fun m => m.stake.toNat)
    (V.ids.map entry)
  have hquorum := Validators.toNat_quorum hV
  have hperm := List.perm_insertionSort (fun a b : MedianTimeIndex => a.claimedTime ≤ b.claimedTime)
    (V.ids.map entry)
  have hsorted : ((V.ids.map entry).insertionSort fun a b => a.claimedTime ≤ b.claimedTime).Pairwise
      fun a b => a.claimedTime.toNat ≤ b.claimedTime.toNat := by
    refine (List.pairwise_insertionSort (fun a b : MedianTimeIndex => a.claimedTime ≤ b.claimedTime)
      _).imp fun h => UInt64.le_iff_toNat_le.mp h
  obtain ⟨v, hv⟩ : (V.members \ dishonest).Nonempty := by
    rw [Finset.nonempty_iff_ne_empty]
    intro hempty
    rw [hempty, weight_empty] at hwhole
    omega
  have hmem : entry v ∈ V.ids.map entry :=
    List.mem_map_of_mem (Validators.mem_members.mp (Finset.mem_sdiff.mp hv).1)
  obtain ⟨m, hm, hreach⟩ := @weightedMedian_reaches (V.ids.map entry)
    (lt_of_le_of_lt (sum_medianEntry_le V G time genesisTime x) (by omega))
    (List.ne_nil_of_mem hmem)
  refine ⟨m.claimedTime, hm, ?_, ?_⟩
  · obtain ⟨b, -, ⟨u, hu, rfl⟩, hle⟩ := exists_value_le hsorted hreach chosen (by
      rcases Nat.lt_or_ge 1 V.total with htotal | htotal
      · left
        rw [((hperm.filter (¬ chosen ·)).map _).sum_eq]
        omega
      · -- a single validator, which is honest
        refine Or.inr fun b hb => ?_
        obtain ⟨u, hu, rfl⟩ := List.mem_map.mp (hperm.mem_iff.mp hb)
        have hu := Validators.mem_members.mpr hu
        refine ⟨u, Finset.mem_sdiff.mpr ⟨hu, fun hd => ?_⟩, rfl⟩
        have hpos := Validators.stakeOf_pos hu
        have hle : V.stakeOf u ≤ weight V.stakeOf dishonest :=
          Finset.single_le_sum (fun _ _ => Nat.zero_le _) hd
        omega)
    exact ⟨u, hu, _, (hhonest u hu).2, UInt64.le_iff_toNat_le.mpr hle⟩
  · obtain ⟨b, -, ⟨u, hu, rfl⟩, hle⟩ := exists_le_value hsorted hreach chosen (by
      rw [((hperm.filter chosen).map _).sum_eq]
      omega) ⟨entry v, hperm.mem_iff.mpr hmem, v, hv, rfl⟩
    exact ⟨u, hu, _, (hhonest u hu).2, UInt64.le_iff_toNat_le.mpr hle⟩

end

/-! ### After any calls -/

section

variable {C : VecCaches} {maxParents : ℕ} {V : Validators} {getEvent : GetEvent}
variable {calls : List IndexCall}

/-- After any calls, if the validators that fork are among dishonest ones who leave a quorum to the
others, `MedianTime` of every event returns, and its time lies between times that honest validators
claim. -/
theorem Index.medianTime_between_honest (hV : V.total < 2 ^ 63)
    (hcalls : Legal maxParents V getEvent (∅, ∅) calls) {dishonest : Finset StakerID}
    (hforks : ∀ u ∈ V.members, (eventDag getEvent).Forks (stored calls).1 u → u ∈ dishonest)
    (hstake : weight V.stakeOf dishonest ≤ V.totalStake.toNat - V.quorum.toNat) :
    Returns (run calls) (Index.new V .empty getEvent : Index C) fun _ vi =>
      ∀ id ∈ (stored calls).1, ∀ genesisTime, Returns (medianTime id genesisTime) vi fun t _ =>
        (∃ u ∈ V.members \ dishonest, ∃ s, LastTime (eventDag getEvent) (claimedTime getEvent)
          genesisTime id u s ∧ s ≤ t) ∧
        ∃ u ∈ V.members \ dishonest, ∃ s, LastTime (eventDag getEvent) (claimedTime getEvent)
          genesisTime id u s ∧ t ≤ s := by
  refine (inv_run hcalls).mono fun _ vi h id hid genesisTime => ?_
  have hvalid := h.checked.valid
  rw [Validators.toNat_totalStake (by omega), Validators.toNat_quorum hV] at hstake
  have hpos : 0 < V.total := by
    have hc := h.current.branches.creator_mem hid
    exact lt_of_lt_of_le (Validators.stakeOf_pos hc)
      (Finset.single_le_sum (fun _ _ => Nat.zero_le _) hc)
  have hsees : ∀ u ∈ V.members, (eventDag getEvent).SeesFork id u → u ∈ dishonest := by
    rintro u hu ⟨x, y, hx, hy, hc, hf⟩
    exact hforks u hu ⟨x, hvalid.sees_mem hid hx, y, hvalid.sees_mem hid hy, hc, hf⟩
  obtain ⟨t, ht, hlow, hhigh⟩ := graphMedianTime_robust (claimedTime getEvent) hV hvalid hid hsees
    (by rw [Validators.toNat_quorum hV]; omega) genesisTime
  obtain ⟨vi', -, hrun⟩ := medianTime_run h hid genesisTime
  rw [ht] at hrun
  exact ⟨t, vi', hrun, hlow, hhigh⟩

/-- Four validators of one stake, of which the third forks. -/
def Index.Forked.four : Validators :=
  ⟨[⟨1, (1 : UInt64)⟩, ⟨2, 1⟩, ⟨3, 1⟩, ⟨4, 1⟩], by decide, by decide, by decide⟩

theorem Index.medianTime_between_honest_four :
    Forked.aboveLeft.hash ∈ (stored Forked.calls).1 ∧
    Returns (run Forked.calls) (Index.new Forked.four .empty Forked.events : Index smallCaches)
      fun _ vi => Returns (medianTime Forked.aboveLeft.hash 1) vi fun t _ =>
        ∃ u ∈ Forked.four.members \ {3}, ∃ s, LastTime (eventDag Forked.events)
          (claimedTime Forked.events) 1 Forked.aboveLeft.hash u s ∧ s ≤ t := by
  have hmem : Forked.aboveLeft.hash ∈ (stored Forked.calls).1 := by decide +kernel
  refine ⟨hmem, (@medianTime_between_honest smallCaches 3 Forked.four Forked.events Forked.calls
    (by decide +kernel) (by decide +kernel) {3} (by decide +kernel) (by decide +kernel)).mono
      fun _ vi h => (h _ hmem 1).mono fun t _ ht => ht.1⟩

end

end Lachesis
