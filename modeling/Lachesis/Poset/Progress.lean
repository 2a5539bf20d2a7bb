import Lachesis.Poset.Voting

/-!
# The progress of a node

A decided frame leaves the node in its epoch, with an election over the next frame, or at the
beginning of the next epoch, with nothing accepted yet. Between two calls no frame can be decided
with the known roots. All this holds of whatever a node returns; that it does return takes forking
validators that hold less than a quorum intersection, which `T` stands for.
-/

namespace Lachesis

open Lachesis.Core

/-! ### The chain -/

namespace Chain

variable {cfg : Config} {c c' : Chain} {f : ℕ} {a : EventID} {sealed : Bool}

/-- What deciding the frame `f` does to the checkpoint and the epoch. -/
structure Moves (f : ℕ) (c : Chain) (sealed : Bool) (c' : Chain) : Prop where
  checkpoint : c'.main.checkpoint = some c'.checkpoint
  going : sealed = false → c'.epochState = c.epochState ∧ c'.main.epoch = c.main.epoch ∧
    c'.checkpoint.lastDecidedFrame = f
  ended : sealed = true → c'.epochState.epochN = c.epochState.epochN + 1 ∧
    c'.main.epoch = some c'.epochState ∧ c'.checkpoint.lastDecidedFrame = 0

lemma confirmBlock_keeps {fuel : ℕ} {highest : ℕ → BranchSeq} {r : Block × List StakerID × Chain}
    (h : c.confirmBlock cfg fuel highest f a = .ok r) :
    r.2.2.checkpoint = c.checkpoint ∧ r.2.2.epochState = c.epochState ∧
      r.2.2.main.epoch = c.main.epoch := by
  simp only [confirmBlock, bind, bind_eq_ok_iff] at h
  obtain ⟨⟨marks, confirming⟩, -, time, -, h⟩ := h
  split at h
  · cases h
  · cases h
    exact ⟨rfl, rfl, rfl⟩

lemma onFrameDecided_moves {fuel : ℕ} {highest : ℕ → BranchSeq}
    (h : c.onFrameDecided cfg fuel highest f a = .ok (sealed, c')) : Moves f c sealed c' := by
  unfold onFrameDecided at h
  split at h
  · cases h
  rename_i block cheaters c₁ hconfirm
  obtain ⟨hcheckpoint, hes, hepoch⟩ := confirmBlock_keeps hconfirm
  simp only at hcheckpoint hes hepoch
  have hends := finishFrame_finishes h
  exact ⟨hends.checkpoint, by simpa only [hes, hepoch, hcheckpoint] using hends.going,
    by simpa only [hes] using hends.ended⟩

/-- Deciding a frame reads the events that the atropos sees and no others. -/
lemma onFrameDecided_over {es : EpochState} {D : Set EventID} {A : Finset EventID}
    {src : EventSource} (hA : Known cfg es D A) (hes : c.epochState = es) (ha : a ∈ A)
    (hsrc : ∀ x ∈ A, src es.epochN x = cfg.events es x) (fuel : ℕ) (highest : ℕ → BranchSeq)
    (f : ℕ) : c.onFrameDecided (cfg.over src) fuel highest f a
      = c.onFrameDecided cfg fuel highest f a := by
  have hconfirm : ∀ (s : Marks × Confirming), confirmEvents (src es.epochN) fuel f a
      (onConfirmed cfg es.validators highest) s = confirmEvents (cfg.events es) fuel f a
      (onConfirmed cfg es.validators highest) s := by
    refine fun s => walk_congr (D := ↑A) (fun s x hx => ?_) (fun s x hx s' push hvisit y hy => ?_)
      fuel (by simpa using ha) s
    · simp only [dfsStep, hsrc x hx]
    · obtain ⟨e, he, -⟩ := exists_of_mem_validEvents (hA.valid x hx)
      simp only [dfsStep, he] at hvisit
      split at hvisit
      · cases hvisit
      · cases hvisit
        cases hy
      · cases hvisit
        exact hA.parents_mem x hx y (by rwa [parents_eventDag he])
  have hblock : ∀ c' : Chain, c'.epochState = es → c'.confirmBlock (cfg.over src) fuel highest f a
      = c'.confirmBlock cfg fuel highest f a := by
    rintro c' rfl
    have hover : (cfg.over src).input = src := rfl
    have hreport : onConfirmed (cfg.over src) c'.epochState.validators highest =
      onConfirmed cfg c'.epochState.validators highest := rfl
    simp only [confirmBlock, hover, hreport, hconfirm, hsrc a ha]
  have hdecided := hblock { c with checkpoint := { c.checkpoint with lastDecidedFrame := f } } hes
  simp only [onFrameDecided, hdecided]
  rfl

end Chain

/-- `GetHighestBeforeMerged` of any identifier changes nothing but what is cached. -/
lemma Index.getHighestBeforeMerged_same {C : VecCaches} (vi : Index C) (id : EventID) :
    Returns (getHighestBeforeMerged id) vi fun _ vi' => vi.Same vi' := by
  refine Returns.map (vi.initBranchesInfo_returns.bind ?_)
  rintro _ vi₁ ⟨hbi, h₁⟩
  refine (vi₁.branches_returns hbi).bind ?_
  rintro _ vi₁ ⟨-, rfl⟩
  refine (vi₁.getHighestBeforeSeq_returns id).bind ?_
  rintro _ vi₂ ⟨-, h₂⟩
  refine (vi₂.getHighestBeforeTime_returns id).bind ?_
  rintro _ vi₃ ⟨-, h₃⟩
  refine Returns.get_bind ?_
  dsimp only
  split_ifs
  · exact Returns.pure ((h₁.trans h₂).trans h₃)
  · exact Returns.pure ((h₁.trans h₂).trans h₃)

namespace Poset

variable {C : PosetCaches} {cfg : Config} {es : EpochState} {D : Set EventID}
variable {A : Finset EventID} {S : Set EventID} {p p' : Poset C} {c₀ : Chain} {as : List EventID}
variable {src : EventSource}

/-! ### Between two calls -/

/-- A node of the epoch `es` that has accepted the events of `A`, with its epoch and checkpoint
stored and no database of another epoch. It reads events from `src`. -/
structure Rests (src : EventSource) (cfg : Config) (es : EpochState) (D : Set EventID)
    (A : Finset EventID) (p : Poset C) : Prop extends p.Keeps cfg es D A A where
  source : p.vecClock.getEvent = src es.epochN
  epochDbs : p.epochDbs = ∅
  checkpoint : p.chain.main.checkpoint = some p.chain.checkpoint
  epoch : p.chain.main.epoch = some es

/-- What an epoch that began with the chain `c₀` rests on. -/
structure Fair (cfg : Config) (es : EpochState) (D : Set EventID) (c₀ : Chain) : Prop where
  safe : Safe cfg es D
  start : c₀.Inv cfg es []

/-- The election of the node is over the frame after those decided with `as`, and it has been given
the roots that can count. -/
structure Elects (cfg : Config) (es : EpochState) (D : Set EventID) (A : Finset EventID)
    (c₀ : Chain) (as : List EventID) (p : Poset C) : Prop where
  decided : Decided cfg es D (rootsOf (cfg.events es) A) c₀ as false p.chain
  opened : ∃ P ⊆ rootsOf (cfg.events es) A,
    p.election.Open (rootGraph cfg es D) es.validators (as.length + 1) P ∧
    ∀ x ∈ rootsOf (cfg.events es) A, as.length < frameOf (cfg.events es) x → x ∈ P

/-- The epoch `es` is over, and the node has begun the next one. -/
structure Seals (src : EventSource) (cfg : Config) (es : EpochState) (p : Poset C) : Prop where
  epochN : p.epochState.epochN = es.epochN + 1
  rests : ∀ D, p.Rests src cfg p.epochState D ∅
  election : p.election = .new p.epochState.validators 1

variable {T : Prop}

/-! ### A decided frame -/

lemma Keeps.walkBound_le (h : p.Keeps cfg es D A A) :
    1 + ∑ x ∈ A, ((cfg.dag es).parents x).length ≤ p.walkBound := by
  classical
  have hsub : A ⊆ p.vecClock.storedEvents.toFinset := fun x hx =>
    List.mem_toFinset.mpr (Flushable.mem_keys ((h.index.current.branch_isSome x).mpr hx))
  have hlength : ∀ x ∈ A, ((cfg.dag es).parents x).length = p.vecClock.parentsLength x := by
    intro x hx
    rw [← Index.length_parents_eventDag]
    simp only [eventDag, h.index.source x hx]
  rw [Finset.sum_congr rfl hlength]
  refine Nat.add_le_add_left ((Finset.sum_le_sum_of_subset hsub).trans ?_) 1
  rw [Finset.sum_list_map_count]
  exact Finset.sum_le_sum fun x hx =>
    Nat.le_mul_of_pos_left _ (List.count_pos_iff.mpr (List.mem_toFinset.mp hx))

lemma Keeps.elected_mem (h : p.Keeps cfg es D A S) (hsafe : Safe cfg es D) {f : ℕ} (hf : 0 < f)
    {a : EventID}
    (ha : (rootGraph cfg es D).Elected es.validators f (rootsOf (cfg.events es) A) a) :
    a ∈ rootsOf (cfg.events es) A ∧ frameOf (cfg.events es) a = f := by
  refine ⟨ha.mem (hsafe.electable hf) fun r hr b hb hobs _ => h.known.mem_rootsOf hr.1 hb hobs, ?_⟩
  obtain ⟨l, s, l', -, -, -, -, hslot, -⟩ := ha
  exact congrArg Slot.frame hslot

/-- The database of an epoch in which the events of `A` were accepted. -/
structure Holds (cfg : Config) (es : EpochState) (D : Set EventID) (A : Finset EventID)
    (db : EpochDb) : Prop where
  known : Known cfg es D A
  records : ∀ r, r ∈ db.roots ↔
    ∃ x ∈ rootsOf (cfg.events es) A, r = (rootGraph cfg es D).rootAndSlot x
  vectorIndex : (db.vectorIndex.content es.validators).Describes es.validators
    (cfg.dag es) (claimedTime (cfg.events es)) A

lemma holds_empty : Holds cfg es D ∅ .empty where
  known := Known.empty
  records := by simp [EpochDb.empty, rootsOf]
  vectorIndex := by
    rw [Finset.coe_empty]
    exact Index.Inv.describes_empty

lemma Holds.keeps {db : EpochDb} (h : Holds cfg es D A db) (src : EventSource)
    (hes : p.epochState = es)
    (hroots : p.roots = .wrap db.roots)
    (hindex : p.vecClock = .new es.validators db.vectorIndex (src es.epochN))
    (hsrc : ∀ x ∈ A, src es.epochN x = cfg.events es x) : p.Keeps cfg es D A A where
  epochState := hes
  known := h.known
  index := hindex ▸ Index.Inv.new hsrc h.known.checkedSet h.vectorIndex
  records := by
    rw [hroots]
    exact h.records
  coherent := hroots ▸ RootsTable.coherent_wrap _

lemma recreateEpochDb_returns (hdbs : p.epochDbs = ∅)
    (hcheckpoint : p.chain.main.checkpoint = some p.chain.checkpoint)
    (hepoch : p.chain.main.epoch = some p.epochState) :
    Returns (recreateEpochDb (cfg.over src)) p fun _ p' => p'.chain = p.chain ∧
      (∀ D, p'.Rests src cfg p'.epochState D ∅) ∧
      p'.election = .new p'.epochState.validators 1 := by
  have hdb : (p.epochDbs[p.epochState.epochN]?).getD .empty = EpochDb.empty := by simp [hdbs]
  refine Returns.modify ⟨rfl, fun D => ⟨holds_empty.keeps src rfl ?_ ?_ (by simp), rfl, ?_,
    hcheckpoint, hepoch⟩, rfl⟩
  · simp only [hdb]
  · simp only [hdb]
    rfl
  · simp [hdbs]

lemma Rests.onFrameDecided_yields (h : p.Rests src cfg es D A) (c₀ : Chain) (as : List EventID)
    (d : Res) (hT : T → Fair cfg es D c₀ ∧
      Decided cfg es D (rootsOf (cfg.events es) A) c₀ as false p.chain ∧
      d.frame = as.length + 1 ∧ (rootGraph cfg es D).Elected es.validators (as.length + 1)
        (rootsOf (cfg.events es) A) d.atropos) :
    Yields T (onFrameDecided (cfg.over src) d) p fun sealed p' =>
      (sealed = false → p'.Rests src cfg es D A ∧ p'.election = .new es.validators (d.frame + 1) ∧
        p'.roots.records = p.roots.records ∧ p'.chain.checkpoint.lastDecidedFrame = d.frame) ∧
      (sealed = true → p'.Seals src cfg es) ∧
      (T → Decided cfg es D (rootsOf (cfg.events es) A) c₀ (as ++ [d.atropos]) sealed
        p'.chain) := by
  refine Yields.modify_bind ?_
  have h₀ := h.toKeeps.election (.new p.epochState.validators (d.frame + 1))
  -- the clock of the atropos is read, and what it says if the election was fair
  have hread : Returns (Poset.index (Index.getHighestBeforeMerged d.atropos))
      { p with election := .new p.epochState.validators (d.frame + 1) } fun highest p₁ =>
        (p₁.Keeps cfg es D A A ∧
          Same { p with election := .new p.epochState.validators (d.frame + 1) } p₁) ∧
        (T → HighestOf cfg es d.atropos (highest.getD (.new 0)).get) := by
    have hsame := h₀.index_returns (Q := fun _ => True)
      ((p.vecClock.getHighestBeforeMerged_same d.atropos).mono
        fun _ vi hvi => ⟨h₀.index.same hvi, hvi.getEvent, trivial⟩)
    refine (hsame.mono fun _ _ hr => ⟨hr.1, hr.2.1.same⟩).and_of fun hyes => ?_
    obtain ⟨hfair, -, -, helected⟩ := hT hyes
    have hmem := (h.toKeeps.elected_mem hfair.safe (Nat.succ_pos _) helected).1
    refine Returns.zoom ((Index.getHighestBeforeMerged_returns h₀.index hmem.1).mono ?_)
    rintro _ _ ⟨-, seqs, rfl, hobs⟩
    exact hobs
  refine hread.yields.bind ?_
  rintro highest p₁ ⟨⟨h₁, hsame₁⟩, hhighest⟩
  refine Yields.get_bind ?_
  have hchain : p₁.chain = p.chain := hsame₁.chain
  have hok : T → ∃ sealed c', p₁.chain.onFrameDecided (cfg.over src) p₁.walkBound
      (highest.getD (.new 0)).get d.frame d.atropos = .ok (sealed, c') ∧
      p.chain.Decides cfg es (as.length + 1) d.atropos sealed c' := by
    intro hyes
    obtain ⟨hfair, hdecided, hframe, helected⟩ := hT hyes
    have hmem := (h.toKeeps.elected_mem hfair.safe (Nat.succ_pos _) helected).1
    have hinv := (hdecided.inv hfair.start).1 rfl
    obtain ⟨time, htime⟩ := hinv.exists_frameConsensusTime
    obtain ⟨sealed, c', hrun, hdecision⟩ := Chain.onFrameDecided_ok h.known h.epochState hmem.1
      (Nat.succ_ne_zero as.length) (fun x hx hmark q hq => hinv.closed h.known hx hmark hq)
      (hhighest hyes) h₁.walkBound_le htime
    rw [hchain, hframe, Chain.onFrameDecided_over h.known h.epochState hmem.1
      fun x hx => h.toKeeps.source_eq h.source hx]
    exact ⟨sealed, c', hrun, h.epochState, hdecision, _, _, hhighest hyes, hrun⟩
  refine Yields.bind (Yields.lift (Q := fun r s => s = p₁ ∧
    p₁.chain.onFrameDecided (cfg.over src) p₁.walkBound (highest.getD (.new 0)).get d.frame
      d.atropos = .ok r) (fun hyes => ?_) fun r hr => ⟨rfl, hr⟩) ?_
  · obtain ⟨sealed, c', hrun, -⟩ := hok hyes
    exact ⟨_, hrun⟩
  rintro ⟨sealed, c'⟩ p₁ ⟨rfl, hrun⟩
  have hmoves := Chain.onFrameDecided_moves hrun
  have hdecided : T → Decided cfg es D (rootsOf (cfg.events es) A) c₀ (as ++ [d.atropos])
      sealed c' := by
    intro hyes
    obtain ⟨_, _, hrun', hdecides⟩ := hok hyes
    rw [hrun] at hrun'
    cases hrun'
    obtain ⟨-, hdecided, -, helected⟩ := hT hyes
    exact .next hdecided helected hdecides
  refine Yields.modify_bind ?_
  have hdbs : p₁.epochDbs = ∅ := hsame₁.epochDbs.trans h.epochDbs
  cases sealed with
  | false =>
    obtain ⟨hes, hepoch, hlast⟩ := hmoves.going rfl
    rw [hchain] at hes hepoch
    have hnew : p₁.election = .new es.validators (d.frame + 1) := by
      rw [hsame₁.election, h.epochState]
    exact Yields.pure ⟨fun _ => ⟨⟨⟨hes.trans h.epochState, h₁.known, h₁.index, h₁.records,
      h₁.coherent⟩, hsame₁.source.trans h.source, hdbs, hmoves.checkpoint, hepoch.trans h.epoch⟩,
      hnew, hsame₁.records, hlast⟩, by simp, hdecided⟩
  | true =>
    obtain ⟨hepochN, hepoch, -⟩ := hmoves.ended rfl
    refine (recreateEpochDb_returns (p := { p₁ with chain := c' }) hdbs hmoves.checkpoint
      hepoch).yields.bind ?_
    rintro _ p₂ ⟨hchain₂, hrests, helection⟩
    refine Yields.pure ⟨by simp, fun _ => ⟨?_, hrests, helection⟩, ?_⟩
    · rw [epochState, hchain₂, hepochN, hchain]
      exact congrArg (·.epochN + 1) h.epochState
    · rw [hchain₂]
      exact hdecided

/-! ### Until no frame can be decided -/

/-- Where the last loop of `handleElection` ends. -/
inductive Goes (T : Prop) (src : EventSource) (cfg : Config) (es : EpochState) (D : Set EventID)
    (A : Finset EventID) (c₀ : Chain) (p : Poset C) : Prop
  | on (rests : p.Rests src cfg es D A) (elects : T → ∃ as, p.Elects cfg es D A c₀ as)
  | ended (seals : p.Seals src cfg es)
      (decided : T → ∃ as, Decided cfg es D (rootsOf (cfg.events es) A) c₀ as true p.chain)

lemma Fair.open_new (hfair : Fair cfg es D c₀) (f : ℕ) :
    Election.Open (rootGraph cfg es D) es.validators (f + 1) ∅ (.new es.validators (f + 1)) := by
  refine ⟨hfair.safe.electable (Nat.succ_pos f), Election.given_new .., ?_⟩
  rintro a ⟨_, _, _, -, -, ⟨r, hr, -⟩, -⟩
  exact hr

/-- The known roots are voted on until they decide no more frames. -/
lemma Rests.electKnownRoots_yields (h : p.Rests src cfg es D A) (c₀ : Chain) (as : List EventID)
    (hT : T → Fair cfg es D c₀ ∧
      Decided cfg es D (rootsOf (cfg.events es) A) c₀ as false p.chain ∧
      p.election = .new es.validators (as.length + 1))
    {fuel : ℕ} (hfuel : T → rootsFrom p.roots.records (as.length + 1) < fuel) :
    Yields T (electKnownRoots (cfg.over src) fuel) p fun _ => Goes T src cfg es D A c₀ := by
  induction fuel generalizing p as with
  | zero =>
    refine ⟨fun _ _ hrun => ?_, fun hyes => absurd (hfuel hyes) (Nat.not_lt_zero _)⟩
    cases hrun
  | succ fuel ih =>
    have hlast : T → p.chain.checkpoint.lastDecidedFrame = as.length := fun hyes =>
      (((hT hyes).2.1.inv (hT hyes).1.start).1 rfl).lastDecidedFrame
    refine (h.toKeeps.processKnownRoots_yields (P := ∅) fun hyes => ?_).bind ?_
    · rw [hlast hyes, (hT hyes).2.2]
      exact (hT hyes).1.open_new as.length
    rintro res p₁ ⟨h₁, hvotes, done, hdone, hall, -, hturnout⟩
    have hrests : p₁.Rests src cfg es D A := ⟨h₁, hvotes.source.trans h.source,
      hvotes.epochDbs.trans h.epochDbs, hvotes.chain ▸ h.checkpoint, hvotes.chain ▸ h.epoch⟩
    rw [Set.empty_union] at hturnout
    cases res with
    | none =>
      refine Yields.pure (.on hrests fun hyes => ⟨as, hvotes.chain ▸ (hT hyes).2.1,
        {x | x ∈ done}, ?_, ?_, ?_⟩)
      · exact fun x hx => (hdone x hx).1
      · rw [← hlast hyes]
        exact (hturnout hyes).opened rfl
      · rw [← hlast hyes]
        exact hall rfl
    | some d =>
      have helected : T → d.frame = as.length + 1 ∧ (rootGraph cfg es D).Elected es.validators
          (as.length + 1) (rootsOf (cfg.events es) A) d.atropos := by
        intro hyes
        rw [← hlast hyes]
        obtain ⟨hframe, helected⟩ := (hturnout hyes).elected d rfl
        exact ⟨hframe, helected.mono fun x hx => (hdone x hx).1⟩
      refine (hrests.onFrameDecided_yields c₀ as d fun hyes => ⟨(hT hyes).1,
        hvotes.chain ▸ (hT hyes).2.1, helected hyes⟩).bind ?_
      rintro (_ | _) p₂ ⟨hgoing, hended, hdecided⟩
      · obtain ⟨hrests₂, helection, hrecords, -⟩ := hgoing rfl
        refine ih hrests₂ (as ++ [d.atropos]) (fun hyes => ⟨(hT hyes).1, hdecided hyes, ?_⟩)
          fun hyes => ?_
        · rw [helection, (helected hyes).1, List.length_append, List.length_singleton]
        · -- the atropos is a root of the decided frame
          have hmem := h₁.elected_mem (hT hyes).1.safe (Nat.succ_pos _) (helected hyes).2
          have hlt := rootsFrom_lt ((h₁.records _).mpr ⟨_, hmem.1, rfl⟩) hmem.2
          rw [hvotes.records] at hlt
          rw [hrecords, hvotes.records, List.length_append, List.length_singleton]
          exact Nat.lt_of_lt_of_le hlt (Nat.le_of_lt_succ (hfuel hyes))
      · exact Yields.pure (.ended (hended rfl) fun hyes => ⟨_, hdecided hyes⟩)

lemma Rests.reelect_yields (h : p.Rests src cfg es D A) (c₀ : Chain) (as : List EventID)
    (hT : T → Fair cfg es D c₀ ∧
      Decided cfg es D (rootsOf (cfg.events es) A) c₀ as false p.chain ∧
      p.election = .new es.validators (as.length + 1)) :
    Yields T (reelect (cfg.over src)) p fun _ => Goes T src cfg es D A c₀ := by
  refine Yields.get_bind ?_
  exact h.electKnownRoots_yields c₀ as hT fun _ => Nat.lt_succ_of_le (rootsFrom_le _ _)

/-! ### A new event -/

variable {e : Event}

/-- A new event decides all frames that it can. -/
lemma Rests.handleElection_yields (h : p.Rests src cfg es D (insert e.hash A))
    (he : cfg.events es e.hash = some e)
    (hT : T → Fair cfg es D c₀ ∧ ∃ as, p.Elects cfg es D A c₀ as) :
    Yields T (handleElection (cfg.over src) e) p
      fun _ => Goes T src cfg es D (insert e.hash A) c₀ := by
  have hroots : rootsOf (cfg.events es) A ⊆ rootsOf (cfg.events es) (insert e.hash A) :=
    fun x hx => (mem_rootsOf_insert he).mpr (Or.inr hx)
  unfold handleElection
  by_cases hroot : e.isRoot = true
  swap
  · rw [if_pos (by simpa using hroot)]
    have hsame : rootsOf (cfg.events es) (insert e.hash A) =
        rootsOf (cfg.events es) A := by
      ext x
      simp [mem_rootsOf_insert he, hroot]
    refine Yields.pure (.on h fun hyes => ?_)
    obtain ⟨as, hdecided, hopened⟩ := (hT hyes).2
    exact ⟨as, hsame ▸ hdecided, hsame ▸ hopened⟩
  rw [if_neg (by simpa using hroot), ← rootAndSlot_rootGraph (D := D) he]
  have hmem : e.hash ∈ rootsOf (cfg.events es) (insert e.hash A) :=
    (mem_rootsOf_insert he).mpr (Or.inl ⟨rfl, hroot⟩)
  -- what the new root observes was given to the election before
  have hbelow : ∀ {as : List EventID} {P : Set EventID}, (∀ x ∈ rootsOf (cfg.events es) A,
      as.length < frameOf (cfg.events es) x → x ∈ P) →
      ∀ b ∈ (rootGraph cfg es D).roots, (rootGraph cfg es D).observe e.hash b = true →
        ((rootGraph cfg es D).slot b).frame + 1 = ((rootGraph cfg es D).slot e.hash).frame →
        as.length + 1 ≤ ((rootGraph cfg es D).slot b).frame → b ∈ P := by
    intro as P hP b hb hobs hframe hle
    have hbroot := h.known.mem_rootsOf (Finset.mem_insert_self _ _) hb hobs
    rcases (mem_rootsOf_insert he).mp hbroot with ⟨rfl, -⟩ | hbA
    · omega
    · exact hP b hbA hle
  refine (h.toKeeps.processRoot_yields hmem.1 fun hyes observed hO => ?_).bind ?_
  · obtain ⟨as, -, P, -, hopen, hP⟩ := (hT hyes).2
    exact hopen.exists_processRoot (h.known.rootsOf_subset hmem) (hbelow hP) hO
  rintro res p₁ ⟨h₁, hvotes, hpolls⟩
  have hrests : p₁.Rests src cfg es D (insert e.hash A) := ⟨h₁, hvotes.source.trans h.source,
    hvotes.epochDbs.trans h.epochDbs, hvotes.chain ▸ h.checkpoint, hvotes.chain ▸ h.epoch⟩
  cases res with
  | none =>
    refine Yields.pure (.on hrests fun hyes => ?_)
    obtain ⟨as, hdecided, P, hsub, hopen, hP⟩ := (hT hyes).2
    refine ⟨as, hvotes.chain ▸ hdecided.mono hroots, insert e.hash P,
      Set.insert_subset hmem (hsub.trans hroots),
      (hopen.polls (h.known.rootsOf_subset hmem) (hbelow hP) hpolls).opened rfl, ?_⟩
    intro x hx hlt
    rcases (mem_rootsOf_insert he).mp hx with ⟨rfl, -⟩ | hxA
    · exact Set.mem_insert _ _
    · exact Set.mem_insert_of_mem _ (hP x hxA hlt)
  | some d =>
    -- the decisions before this one
    have hbefore : T → ∃ as, Fair cfg es D c₀ ∧
        Decided cfg es D (rootsOf (cfg.events es) (insert e.hash A)) c₀ as false p₁.chain ∧
        d.frame = as.length + 1 ∧ (rootGraph cfg es D).Elected es.validators (as.length + 1)
          (rootsOf (cfg.events es) (insert e.hash A)) d.atropos := by
      intro hyes
      obtain ⟨hfair, as, hdecided, P, hsub, hopen, hP⟩ := hT hyes
      obtain ⟨hframe, helected⟩ := (hopen.polls (h.known.rootsOf_subset hmem) (hbelow hP)
        hpolls).elected d rfl
      exact ⟨as, hfair, hvotes.chain ▸ hdecided.mono hroots, hframe,
        helected.mono (Set.insert_subset hmem (hsub.trans hroots))⟩
    by_cases hyes : T
    · obtain ⟨as, hdecide⟩ := hbefore hyes
      refine (hrests.onFrameDecided_yields c₀ as d fun _ => hdecide).bind ?_
      rintro (_ | _) p₂ ⟨hgoing, hended, hdecided⟩
      · obtain ⟨hrests₂, helection, -, -⟩ := hgoing rfl
        refine hrests₂.reelect_yields c₀ (as ++ [d.atropos])
          fun _ => ⟨hdecide.1, hdecided hyes, ?_⟩
        rw [helection, hdecide.2.2.1, List.length_append, List.length_singleton]
      · exact Yields.pure (.ended (hended rfl) fun _ => ⟨_, hdecided hyes⟩)
    · refine (hrests.onFrameDecided_yields c₀ [] d fun h => absurd h hyes).bind ?_
      rintro (_ | _) p₂ ⟨hgoing, hended, -⟩
      · exact (hgoing rfl).1.reelect_yields c₀ [] fun h => absurd h hyes
      · exact Yields.pure (.ended (hended rfl) fun h => absurd h hyes)

/-- What the caller of `ProcessEvent` promises of an event of the epoch: it has passed the other
checks, its parents are accepted and it is new. -/
structure Ready (src : EventSource) (cfg : Config) (es : EpochState) (A : Finset EventID)
    (e : Event) : Prop where
  stored : src es.epochN e.hash = some e
  checked : Checked cfg.maxParents (cfg.events es) e
  parents_mem : ∀ q ∈ e.parents, q ∈ A
  new : e.hash ∉ A

lemma Same.rests (hsame : p.Same p') (h : p.Rests src cfg es D A) (h' : p'.Keeps cfg es D A A) :
    p'.Rests src cfg es D A :=
  ⟨h', hsame.source.trans h.source, hsame.epochDbs.trans h.epochDbs,
    hsame.chain ▸ h.checkpoint, hsame.chain ▸ h.epoch⟩

lemma Same.elects (hsame : p.Same p') (h : p.Elects cfg es D A c₀ as) :
    p'.Elects cfg es D A c₀ as :=
  ⟨hsame.chain ▸ h.decided, hsame.election ▸ h.opened⟩

/-- `ProcessEvent`: a rejected event changes nothing but what is cached, and an accepted one is
added to what the node keeps. -/
theorem Rests.processEvent_yields (h : p.Rests src cfg es D A) (c₀ : Chain)
    (he : Epochcheck.validate es.validators es.epochN e = none →
      Ready src cfg es A e ∧ e.hash ∈ D)
    (hT : T → Fair cfg es D c₀ ∧ ∃ as, p.Elects cfg es D A c₀ as) :
    Yields T (processEvent (cfg.over src) e) p fun r p' =>
      (r = none → verdict cfg es e = none ∧ Goes T src cfg es D (insert e.hash A) c₀ p') ∧
      (r ≠ none → p'.Keeps cfg es D A A ∧ p.Same p') ∧
      (es.validators.total < 2 ^ 64 → r = verdict cfg es e) := by
  refine Yields.get_bind ?_
  dsimp only
  rw [h.epochState]
  cases hepoch : Epochcheck.validate es.validators es.epochN e with
  | some err =>
    exact Yields.pure ⟨by simp, fun _ => ⟨h.toKeeps, Same.refl p⟩, fun _ => by
      simp only [verdict, hepoch]⟩
  | none =>
    obtain ⟨hready, hD⟩ := he hepoch
    have hsafe : T → es.validators.total < 2 ^ 64 := fun hyes =>
      (hT hyes).1.safe.total_lt.trans (by decide)
    refine ((h.toKeeps.checkAndSaveEvent_yields hready.parents_mem h.source hready.stored
      hready.checked hready.new hD hepoch).weaken hsafe).bind ?_
    rintro (_ | err) p₁ ⟨haccept, hreject, hexact⟩
    · obtain ⟨hverdict, haccepts⟩ := haccept rfl
      have hrests : p₁.Rests src cfg es D (insert e.hash A) := ⟨haccepts.keeps,
        haccepts.source.trans h.source, haccepts.epochDbs.trans h.epochDbs,
        haccepts.chain ▸ h.checkpoint, haccepts.chain ▸ h.epoch⟩
      have helects : T → Fair cfg es D c₀ ∧ ∃ as, p₁.Elects cfg es D A c₀ as := by
        intro hyes
        obtain ⟨hfair, as, helects⟩ := hT hyes
        exact ⟨hfair, as, haccepts.chain ▸ helects.decided, haccepts.election ▸ helects.opened⟩
      refine (hrests.handleElection_yields hready.checked.stored helects).bind ?_
      rintro _ p₂ hgoes
      exact Yields.pure ⟨fun _ => ⟨hverdict, hgoes⟩, by simp, hexact⟩
    · exact Yields.pure ⟨by simp, fun _ => hreject (by simp), hexact⟩

/-! ### Starting a node -/

section

variable {disk : Disk} {checkpoint : Checkpoint}
  (hcheckpoint : disk.main.checkpoint = some checkpoint) (hepoch : disk.main.epoch = some es)
include hcheckpoint hepoch

lemma rests_load (calls : List Call)
    (hdb : Holds cfg es D A (disk.epochDbs[es.epochN]?.getD .empty))
    (hsrc : ∀ x ∈ A, src es.epochN x = cfg.events es x)
    (hdbs : (disk.epochDbs.erase (es.epochN - 1)).erase es.epochN = ∅) :
    (load (cfg.over src) disk calls checkpoint es : Poset C).Rests src cfg es D A :=
  ⟨hdb.keeps src rfl rfl rfl hsrc, rfl, hdbs, hcheckpoint, hepoch⟩

lemma bootstrap_eq (calls : List Call) :
    (bootstrap cfg disk calls : Except Fault (Poset C)) =
      ((reelect cfg).run (load cfg disk calls checkpoint es)).map (·.2) := by
  simp only [bootstrap, hcheckpoint, hepoch]

/-- A started node holds the election again. -/
lemma bootstrap_goes {calls : List Call}
    (h : Yields T (reelect (cfg.over src)) (load (cfg.over src) disk calls checkpoint es : Poset C)
      fun _ => Goes T src cfg es D A c₀) :
    (∀ p : Poset C, bootstrap (cfg.over src) disk calls = .ok p → p.Goes T src cfg es D A c₀) ∧
      (T → ∃ p : Poset C, bootstrap (cfg.over src) disk calls = .ok p) := by
  rw [bootstrap_eq hcheckpoint hepoch calls]
  refine ⟨fun p hrun => ?_, fun hyes => ?_⟩
  · cases hm : (reelect (cfg.over src)).run
        (load (cfg.over src) disk calls checkpoint es : Poset C) with
    | error => simp [hm, Except.map] at hrun
    | ok r =>
      rw [hm] at hrun
      cases hrun
      exact h.returned r.1 r.2 hm
  · obtain ⟨r, hr⟩ := h.returns hyes
    exact ⟨r.2, by rw [hr]; rfl⟩

end

lemma Rests.holds_disk (h : p.Rests src cfg es D A) :
    Holds cfg es D A (p.disk.epochDbs[es.epochN]?.getD .empty) ∧
      (p.disk.epochDbs.erase (es.epochN - 1)).erase es.epochN = ∅ := by
  have hes : p.epochState.epochN = es.epochN := by rw [h.epochState]
  refine ⟨?_, ?_⟩
  · have hget : p.disk.epochDbs[es.epochN]?.getD .empty =
        ⟨p.roots.records, p.vecClock.persisted⟩ := by
      simp [disk, hes]
    rw [hget]
    exact ⟨h.known, h.records, h.index.validators ▸ h.index.flushed⟩
  · ext n db
    simp only [disk, h.epochDbs, hes, Std.ExtTreeMap.getElem?_erase, Std.ExtTreeMap.getElem?_insert,
      Std.LawfulEqCmp.compare_eq_iff_eq]
    split_ifs <;> simp

lemma Rests.load (h : p.Rests src cfg es D A) (calls : List Call) :
    (Poset.load (cfg.over src) p.disk calls p.chain.checkpoint es : Poset C).Rests src cfg es D A :=
  rests_load h.checkpoint h.epoch calls h.holds_disk.1 (fun _ hx => h.toKeeps.source_eq h.source hx)
    h.holds_disk.2

lemma Rests.bootstrap_goes (h : p.Rests src cfg es D A) (calls : List Call) :
    ∀ p' : Poset C, bootstrap (cfg.over src) p.disk calls = .ok p' →
      p'.Goes False src cfg es D A p.chain :=
  (Poset.bootstrap_goes h.checkpoint h.epoch
    ((h.load calls).reelect_yields p.chain [] False.elim)).1

def genesisEpoch (V : Validators) (time : Timestamp) (genesisAtropos : EventID) (appHash : Hash) :
    EpochState :=
  ⟨1, ⟨0, time, genesisAtropos, appHash⟩, V⟩

lemma rests_genesis (V : Validators) (time : Timestamp) (genesisAtropos : EventID) (appHash : Hash)
    (calls : List Call) :
    (Poset.load (cfg.over src) (Disk.genesis V time genesisAtropos appHash) calls
      ⟨0, 0, genesisAtropos, appHash⟩ (genesisEpoch V time genesisAtropos appHash) :
      Poset C).Rests src cfg (genesisEpoch V time genesisAtropos appHash) D ∅ := by
  refine rests_load rfl rfl calls ?_ (by simp) ?_
  · simpa [Disk.genesis] using holds_empty
  · ext n db
    simp [Disk.genesis]

end Poset

end Lachesis
