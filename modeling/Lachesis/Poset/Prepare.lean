import Lachesis.Poset.Progress

/-!
# Preparing an event

`Prepare` adds the event to the index under the hash it has before its consensus fields are filled,
and drops it from the index again. When the event is processed it has another hash, and
`calcFrameIdx` takes another path. The two identifiers are twins in the graph of events: they see
the same forks and are caused by the same roots, so that what was prepared is accepted.

The configuration `cfg` knows all events under their identifiers, the events that were only prepared
among them; the node reads the events that were stored, from `src`.
-/

namespace Lachesis

open Lachesis.Core

/-! ### Twins in the graph of events -/

section Twins

variable {G : EventDag} {S : Set EventID} {x y : EventID} {V : Validators}

lemma forklessCaused_twins (h : G.Twins S x y) {b : EventID} (hb : b ∈ S) :
    ForklessCaused V G y b ↔ ForklessCaused V G x b := by
  rw [ForklessCaused, ForklessCaused, h.seesFork_iff, h.relayers_eq V.members hb]

/-- The last event of a validator that does not fork, as one twin and as the other one sees it. -/
lemma time_last_twins (h : G.Twins S x y) {time : EventID → Timestamp} (htime : time y = time x)
    {u : StakerID} (hfork : ¬ G.SeesFork x u) {a b : EventID}
    (ha : (G.Sees x a ∧ G.creator a = u) ∧ ∀ z, G.Sees x z ∧ G.creator z = u → G.seq z ≤ G.seq a)
    (hb : (G.Sees y b ∧ G.creator b = u) ∧ ∀ z, G.Sees y z ∧ G.creator z = u → G.seq z ≤ G.seq b) :
    time b = time a := by
  obtain ⟨⟨hxa, hau⟩, hmaxa⟩ := ha
  obtain ⟨⟨hyb, hbu⟩, hmaxb⟩ := hb
  -- two events of the validator with one number would be a fork
  have hunique : ∀ z, G.Sees x z → G.creator z = u → G.seq z = G.seq a → z = a := by
    intro z hz hzu hseq
    by_contra hne
    exact hfork ⟨z, a, hz, hxa, hzu, hne, hzu.trans hau.symm, hseq⟩
  rcases h.symm.sees hyb with rfl | ⟨hbS, hxb⟩
  · have hle := hmaxa x ⟨.refl x, h.creator.symm.trans hbu⟩
    have hge : G.seq a ≤ G.seq b := by
      rcases h.sees hxa with rfl | ⟨-, hba⟩
      · exact h.seq.ge
      · exact hmaxb a ⟨hba, hau⟩
    rw [htime, hunique x (.refl x) (h.creator.symm.trans hbu)
      (le_antisymm hle (h.seq ▸ hge))]
  · have hle := hmaxa b ⟨hxb, hbu⟩
    have hge : G.seq a ≤ G.seq b := by
      rcases h.sees hxa with rfl | ⟨-, hya⟩
      · exact h.seq ▸ hmaxb y ⟨.refl y, h.creator.trans hau⟩
      · exact hmaxb a ⟨hya, hau⟩
    rw [hunique b hxb hbu (le_antisymm hle hge)]

lemma exists_last_twins (h : G.Twins S x y) {u : StakerID}
    (hx : ∃ a, (G.Sees x a ∧ G.creator a = u) ∧
      ∀ z, G.Sees x z ∧ G.creator z = u → G.seq z ≤ G.seq a) :
    ∃ b, (G.Sees y b ∧ G.creator b = u) ∧
      ∀ z, G.Sees y z ∧ G.creator z = u → G.seq z ≤ G.seq b := by
  obtain ⟨a, ⟨hxa, hau⟩, hmax⟩ := hx
  have hle : ∀ z, G.Sees y z ∧ G.creator z = u → G.seq z ≤ G.seq a := by
    rintro z ⟨hyz, hzu⟩
    rcases h.symm.sees hyz with rfl | ⟨-, hxz⟩
    · exact h.seq ▸ hmax x ⟨.refl x, h.creator.symm.trans hzu⟩
    · exact hmax z ⟨hxz, hzu⟩
  rcases h.sees hxa with rfl | ⟨-, hya⟩
  · exact ⟨y, ⟨.refl y, h.creator.trans hau⟩, h.seq ▸ hle⟩
  · exact ⟨a, ⟨hya, hau⟩, hle⟩

lemma medianEntry_twins (h : G.Twins S x y) {time : EventID → Timestamp} (htime : time y = time x)
    (genesisTime : Timestamp) (u : StakerID) :
    medianEntry V G time genesisTime y u = medianEntry V G time genesisTime x u := by
  by_cases hfork : G.SeesFork x u
  · rw [medianEntry, medianEntry, if_pos hfork, if_pos (h.seesFork_iff.mpr hfork)]
  rw [medianEntry, medianEntry, if_neg hfork, if_neg (mt h.seesFork_iff.mp hfork)]
  by_cases hx : ∃ a, (G.Sees x a ∧ G.creator a = u) ∧
      ∀ z, G.Sees x z ∧ G.creator z = u → G.seq z ≤ G.seq a
  · have hy := exists_last_twins h hx
    rw [dif_pos hx, dif_pos hy,
      time_last_twins h htime hfork hx.choose_spec hy.choose_spec]
  · rw [dif_neg hx, dif_neg (mt (exists_last_twins h.symm) hx)]

lemma graphMedianTime_twins (h : G.Twins S x y) {time : EventID → Timestamp}
    (htime : time y = time x) (genesisTime : Timestamp) :
    graphMedianTime V G time genesisTime y = graphMedianTime V G time genesisTime x := by
  rw [graphMedianTime, graphMedianTime,
    List.map_congr_left fun u _ => medianEntry_twins h htime genesisTime u]

end Twins

/-- `Event.RecacheHash`, when the rest of the new digest is `digest`. -/
def Event.recacheHash (e : Event) (digest : BitVec 192) : Event := { e with digest }

namespace Poset

variable {C : PosetCaches} {cfg : Config} {es : EpochState} {D : Set EventID}
variable {A : Finset EventID} {S : Set EventID} {p p' : Poset C} {src : EventSource} {e : Event}

/-! ### The prepared frame -/

/-- The frame and the flag that `calcFrameIdx` gives an event, when it finds `roots` stored. -/
noncomputable def preparedFrame (cfg : Config) (es : EpochState) (roots : RootsTable C.frameRoots)
    (e : Event) : ℕ × Bool :=
  let f := frameBefore (cfg.events es) e
  let isRoot := quorumOn cfg es e.hash (roots.getFrameRoots f).1
  if e.selfParent.isNone then (1, true) else (f + if isRoot then 1 else 0, isRoot)

/-- The stored roots after that: they were read unless the event has no self-parent. -/
def rootsAsked (cfg : Config) (es : EpochState) (roots : RootsTable C.frameRoots) (e : Event) :
    RootsTable C.frameRoots :=
  if e.selfParent.isNone then roots
  else (roots.getFrameRoots (frameBefore (cfg.events es) e)).2

lemma selfParent_eq_none_of_isEmpty (h : e.parents.isEmpty = true) : e.selfParent.isNone = true := by
  rw [Event.selfParent, List.isEmpty_iff.mp h]
  split_ifs <;> rfl

lemma frameBefore_eq_zero {getEvent : GetEvent} (h : e.selfParent.isNone = true) :
    frameBefore getEvent e = 0 := by
  rw [frameBefore, Option.isNone_iff_eq_none.mp h]
  rfl

section

variable (h : p.Keeps cfg es D A S) (hsrc : p.vecClock.getEvent = src es.epochN)
  (hp : ∀ q ∈ e.parents, q ∈ A) (hmem : e.hash ∈ S)
include h hsrc hp hmem

/-- A prepared event is a root when a quorum of roots causes it. -/
lemma Keeps.calcFrameIdx_prepares :
    Returns (calcFrameIdx (cfg.over src) e false) p fun r p' =>
      p'.Keeps cfg es D A S ∧ p.Same p' ∧ r = preparedFrame cfg es p.roots e ∧
        p'.roots = rootsAsked cfg es p.roots e := by
  unfold calcFrameIdx preparedFrame rootsAsked
  by_cases hparents : e.parents.isEmpty = true
  · have hself := selfParent_eq_none_of_isEmpty hparents
    simp only [if_pos hparents, if_pos hself]
    exact Returns.pure ⟨h, Same.refl p, rfl, rfl⟩
  rw [if_neg hparents]
  refine Returns.get_bind ?_
  rw [h.epochState]
  refine Returns.lift_bind (h.selfParentFrame_ok hsrc hp) ?_
  by_cases hself : e.selfParent.isNone = true
  · simp only [if_neg Bool.false_ne_true, if_pos hself]
    exact Returns.pure ⟨h, Same.refl p, rfl, rfl⟩
  simp only [if_neg Bool.false_ne_true, if_neg hself]
  refine (h.forklessCausedByQuorumOn_run hmem _).2.bind ?_
  rintro isRoot p₁ ⟨h₁, hsame₁, hroots, rfl⟩
  split_ifs
  · exact Returns.pure ⟨h₁, hsame₁, by simp [*], hroots⟩
  · exact Returns.pure ⟨h₁, hsame₁, by simp [*], hroots⟩

/-- The check finds the prepared frame again. -/
lemma Keeps.calcFrameIdx_checks (hframe : (e.frame, e.isRoot) = preparedFrame cfg es p.roots e) :
    Returns (calcFrameIdx (cfg.over src) e true) p fun r p' =>
      p'.Keeps cfg es D A S ∧ p.Same p' ∧ r = (e.frame, e.isRoot) := by
  unfold calcFrameIdx
  by_cases hparents : e.parents.isEmpty = true
  · rw [preparedFrame, if_pos (selfParent_eq_none_of_isEmpty hparents)] at hframe
    rw [if_pos hparents, hframe]
    exact Returns.pure ⟨h, Same.refl p, rfl⟩
  rw [if_neg hparents]
  refine Returns.get_bind ?_
  rw [h.epochState]
  refine Returns.lift_bind (h.selfParentFrame_ok hsrc hp) ?_
  rw [if_pos rfl]
  unfold preparedFrame at hframe
  by_cases hself : e.selfParent.isNone = true
  · rw [if_pos hself, Prod.mk.injEq] at hframe
    simp only [hframe.1, hframe.2, checkRoot, frameBefore_eq_zero hself]
    exact Returns.pure ⟨h, Same.refl p, rfl⟩
  rw [if_neg hself, Prod.mk.injEq] at hframe
  obtain ⟨hf, hroot⟩ := hframe
  cases hb : e.isRoot with
  | false =>
    rw [← hroot, hb] at hf
    exact Returns.pure ⟨h, Same.refl p, by simp [hf]⟩
  | true =>
    rw [← hroot, hb, if_pos rfl] at hf
    suffices hcheck : Returns (checkRoot e (frameBefore (cfg.events es) e)) p fun r p' =>
        p'.Keeps cfg es D A S ∧ p.Same p' ∧ r = true by
      refine hcheck.bind ?_
      rintro _ p₁ ⟨h₁, hsame₁, rfl⟩
      exact Returns.pure ⟨h₁, hsame₁, by rw [hf]⟩
    unfold checkRoot
    rw [if_neg (not_not.mpr hf)]
    split_ifs
    · exact Returns.pure ⟨h, Same.refl p, rfl⟩
    · have hprev : e.frame - 1 = frameBefore (cfg.events es) e := by omega
      rw [hprev]
      refine (h.forklessCausedByQuorumOn_run hmem _).2.mono ?_
      rintro _ p₁ ⟨h₁, hsame₁, -, rfl⟩
      exact ⟨h₁, hsame₁, hroot.symm.trans hb⟩

end

/-! ### The prepared event -/

/-- What the caller of `Prepare` promises of an event of the epoch: its parents are accepted, it is
new, and it passes the other checks but for the consensus fields. -/
structure Drafted (cfg : Config) (es : EpochState) (A : Finset EventID) (e : Event) : Prop where
  checked : ∃ frame isRoot medianTime prevEpochHash, Checked cfg.maxParents (cfg.events es)
    { e with frame, isRoot, medianTime, prevEpochHash }
  parents_mem : ∀ q ∈ e.parents, q ∈ A
  new : e.hash ∉ A

/-- `e'` is `e` with the consensus fields that the node `p` fills, and `p'` the node after that. -/
structure Prepares (cfg : Config) (es : EpochState) (e : Event) (p : Poset C) (e' : Event)
    (p' : Poset C) : Prop where
  filled : e' = { e with
    frame := (preparedFrame cfg es p.roots e).1
    isRoot := (preparedFrame cfg es p.roots e).2
    medianTime := e'.medianTime
    prevEpochHash := if e.seq ≤ 1 then cfg.genesisHash es.prevEpoch else 0 }
  medianTime : .ok e'.medianTime = graphMedianTime es.validators (cfg.dag es)
    (claimedTime (cfg.events es)) es.prevEpoch.time e.hash
  roots : p'.roots = rootsAsked cfg es p.roots e

/-- `Prepare` changes nothing but what is cached. -/
theorem Rests.prepare_yields (h : p.Rests src cfg es D A)
    (he : Epochcheck.validate es.validators es.epochN e = none → Drafted cfg es A e) :
    Yields (es.validators.total < 2 ^ 64) (prepare (cfg.over src) e) p fun r p' =>
      p'.Rests src cfg es D A ∧ p.Same p' ∧ ∀ e', r = some e' →
        Epochcheck.validate es.validators es.epochN e = none ∧ Prepares cfg es e p e' p' := by
  refine Yields.get_bind ?_
  dsimp only
  rw [h.epochState]
  cases hepoch : Epochcheck.validate es.validators es.epochN e with
  | some err => exact Yields.pure ⟨h, Same.refl p, by simp⟩
  | none =>
    have hdraft := he hepoch
    obtain ⟨frame, isRoot, medianTime, prevEpochHash, hchecked⟩ := hdraft.checked
    have hcreator := (Epochcheck.validate_eq_none.mp hepoch).2
    -- the index reads no consensus fields
    have hadd : Returns (Poset.index (Index.add e)) p fun _ p' =>
        p'.Keeps cfg es D A (insert e.hash A) ∧ p.Indexes p' :=
      h.toKeeps.add_returns (e := { e with frame, isRoot, medianTime, prevEpochHash }) hchecked
        hcreator hdraft.parents_mem
    refine hadd.yields.bind ?_
    rintro _ p₁ ⟨h₁, hi₁⟩
    refine (h₁.calcFrameIdx_prepares (hi₁.source.trans h.source) hdraft.parents_mem
      (Set.mem_insert _ _)).yields.bind ?_
    rintro _ p₂ ⟨h₂, hsame₂, rfl, hroots₂⟩
    refine ((h₂.medianTime_yields (Set.mem_insert _ _) es.prevEpoch.time).weaken
      (graphMedianTime_ok _ _ _ _ _)).bind ?_
    rintro medianTime p₃ ⟨h₃, hi₃, hmedian⟩
    refine h₃.dropNotFlushed_returns.yields.bind ?_
    rintro _ p₄ ⟨h₄, hi₄⟩
    have hsame := ((hi₁.same.trans hsame₂).trans hi₃.same).trans hi₄.same
    refine Yields.pure ⟨hsame.rests h h₄, hsame, ?_⟩
    rintro e' he'
    cases he'
    rw [hi₁.roots] at hroots₂ ⊢
    exact ⟨rfl, rfl, hmedian, hi₄.roots.trans (hi₃.roots.trans hroots₂)⟩

/-! ### Processing a prepared event -/

lemma tallyCaused_congr {caused caused' : EventID → Bool} {l : List RootAndSlot}
    (h : ∀ r ∈ l, caused r.id = caused' r.id) (c : StakeCounter) :
    tallyCaused caused l c = tallyCaused caused' l c := by
  induction l generalizing c with
  | nil => rfl
  | cons r l ih =>
    simp only [tallyCaused, h r (by simp), ih fun x hx => h x (by simp [hx])]

section Prepared

variable {e' : Event} {d : BitVec 192} (hdraft : Drafted cfg es A e)
variable (hprepares : Prepares cfg es e p e' p') (hready : Ready src cfg es A (e'.recacheHash d))
include hdraft hprepares hready

lemma Prepares.twins (hknown : Known cfg es D A) :
    (cfg.dag es).Twins A e.hash (e'.recacheHash d).hash := by
  obtain ⟨frame, isRoot, medianTime, prevEpochHash, hchecked⟩ := hdraft.checked
  have hold := hchecked.stored
  have hnew := hready.checked.stored
  rw [hprepares.filled] at hnew
  refine ⟨fun u hu v hv => hknown.parents_mem u hu v hv, ?_, ?_, ?_, ?_, hdraft.new, hready.new⟩
  · rw [show e.hash = Event.hash { e with frame, isRoot, medianTime, prevEpochHash } from rfl,
      parents_eventDag hold]
    exact hdraft.parents_mem
  all_goals rw [hprepares.filled]
  · exact (parents_eventDag hnew).trans (parents_eventDag hold).symm
  · exact (creator_eventDag hnew).trans (creator_eventDag hold).symm
  · exact (seq_eventDag hnew).trans (seq_eventDag hold).symm

lemma Prepares.claimedTime_eq : claimedTime (cfg.events es) (e'.recacheHash d).hash
    = claimedTime (cfg.events es) e.hash := by
  obtain ⟨frame, isRoot, medianTime, prevEpochHash, hchecked⟩ := hdraft.checked
  have hold : cfg.events es e.hash = _ := hchecked.stored
  rw [claimedTime, claimedTime, hready.checked.stored, hold]
  change e'.claimedTime = e.claimedTime
  rw [hprepares.filled]

/-- The frame that was prepared is the one that `calcFrameIdx` would give the event now. -/
lemma Prepares.frame_eq (hC : C.frameRoots.Steady) (h : p.Keeps cfg es D A A) :
    (e'.frame, e'.isRoot) = preparedFrame cfg es p'.roots (e'.recacheHash d) := by
  have htwins := hprepares.twins hdraft hready h.known
  have hself : (e'.recacheHash d).selfParent = e.selfParent := by
    rw [hprepares.filled]
    rfl
  have hbefore : frameBefore (cfg.events es) (e'.recacheHash d) =
      frameBefore (cfg.events es) e := by
    rw [frameBefore, hself, frameBefore]
  have hframe : (e'.frame, e'.isRoot) = preparedFrame cfg es p.roots e := by
    rw [hprepares.filled]
  rw [hframe]
  simp only [preparedFrame, hself, hbefore, hprepares.roots, rootsAsked]
  by_cases hnone : e.selfParent.isNone = true
  · rw [if_pos hnone, if_pos hnone]
  · simp only [if_neg hnone, RootsTable.getFrameRoots_again hC]
    have hquorum : ∀ l : List RootAndSlot, (∀ r ∈ l, r.id ∈ A) →
        quorumOn cfg es (e'.recacheHash d).hash l = quorumOn cfg es e.hash l := by
      intro l hl
      have hcaused : ∀ r ∈ l, causedIn cfg es (e'.recacheHash d).hash r.id =
          causedIn cfg es e.hash r.id := fun r hr => by
        rw [Bool.eq_iff_iff, causedIn_eq_true, causedIn_eq_true,
          forklessCaused_twins htwins (hl r hr)]
      rw [quorumOn, tallyCaused_congr hcaused, quorumOn]
    rw [hquorum _ fun r hr => (h.of_mem_getFrameRoots hr).1]

lemma Prepares.checkAdded_returns (hC : C.frameRoots.Steady) (h : p.Keeps cfg es D A A)
    {p₁ : Poset C} (h₁ : p₁.Keeps cfg es D A (insert (e'.recacheHash d).hash A))
    (hsrc : p₁.vecClock.getEvent = src es.epochN) (hroots : p₁.roots = p'.roots) :
    Returns (checkAdded (cfg.over src) (e'.recacheHash d)) p₁ fun r _ => r = none := by
  have hframe := hprepares.frame_eq hdraft hready hC h
  rw [← hroots] at hframe
  refine (h₁.calcFrameIdx_checks hsrc hready.parents_mem (Set.mem_insert _ _) hframe).bind ?_
  rintro _ p₂ ⟨h₂, hsame₂, rfl⟩
  rw [if_neg (not_not.mpr rfl), if_neg (not_not.mpr rfl)]
  refine Returns.get_bind ?_
  rw [h₂.epochState]
  have hmedian := graphMedianTime_twins (V := es.validators)
    (hprepares.twins hdraft hready h.known) (hprepares.claimedTime_eq hdraft hready)
    es.prevEpoch.time
  rw [← hprepares.medianTime] at hmedian
  refine ((h₂.medianTime_yields (Set.mem_insert _ _) es.prevEpoch.time).toReturns
    ⟨_, hmedian⟩).bind ?_
  rintro t p₃ ⟨-, -, ht⟩
  rw [hmedian] at ht
  cases ht
  have hsame : (e'.recacheHash d).medianTime = e'.medianTime := rfl
  rw [if_neg (not_not.mpr hsame)]
  exact Returns.pure rfl

lemma Prepares.checkAndSaveEvent_returns (hC : C.frameRoots.Steady) (h : p.Keeps cfg es D A A)
    (hp' : p'.Rests src cfg es D A) (hcreator : e.creator ∈ es.validators.members)
    (hlinks : ¬ LinksCheater (cfg.events es) e) :
    Returns (checkAndSaveEvent (cfg.over src) (e'.recacheHash d)) p' fun r _ => r = none := by
  refine Returns.get_bind ?_
  have hseq : (e'.recacheHash d).seq = e.seq := by
    rw [hprepares.filled]
    rfl
  have hhash : (e'.recacheHash d).prevEpochHash =
      if e.seq ≤ 1 then cfg.genesisHash es.prevEpoch else 0 := by
    rw [hprepares.filled]
    rfl
  dsimp only
  rw [hp'.epochState, Config.genesisHash_over, hseq, hhash]
  rw [if_neg fun hwrong => hwrong.2 (if_pos hwrong.1),
    if_neg fun hwrong => hwrong.2 (if_neg (by omega))]
  refine (hp'.toKeeps.noCheaters_returns hready.parents_mem).bind ?_
  rintro noCheaters p₁ ⟨h₁, hi₁, hlength⟩
  have hlinks' : ¬ LinksCheater (cfg.events es) (e'.recacheHash d) := by
    rw [hprepares.filled]
    exact hlinks
  rw [if_neg (mt hlength.mp hlinks')]
  have hcreator' : (e'.recacheHash d).creator ∈ es.validators.members := by
    rw [hprepares.filled]
    exact hcreator
  refine (h₁.add_returns hready.checked hcreator' hready.parents_mem).bind ?_
  rintro _ p₂ ⟨h₂, hi₂⟩
  refine (hprepares.checkAdded_returns hdraft hready hC h h₂
    (hi₂.source.trans (hi₁.source.trans hp'.source)) (hi₂.roots.trans hi₁.roots)).bind ?_
  rintro _ p₃ rfl
  -- what remains only writes
  refine Returns.bind (Q := fun _ _ => True) ?_ fun _ p₄ _ => ⟨_, _, rfl, rfl⟩
  unfold saveEvent addRoot
  split_ifs
  · exact ⟨_, _, rfl, trivial⟩
  · exact ⟨_, _, rfl, trivial⟩

end Prepared

end Poset

end Lachesis
