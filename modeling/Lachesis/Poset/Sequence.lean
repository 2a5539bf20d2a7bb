import Lachesis.Poset.Restart

/-!
# The sequence of decided frames

Whatever events a node is given, and whenever it is started again, it decides the frames of an epoch
one after the other: its election is over the frame after the last decided one. The chain of the
node is therefore the outcome of a run of `onFrameDecided` from the genesis.
-/

namespace Lachesis

open Lachesis.Core

/-- The chain `c` is reached from `c₀` by deciding one frame after the other, over any number of
epochs. -/
inductive Chain.Run (cfg : Config) (c₀ : Chain) : Chain → Prop
  | start : Chain.Run cfg c₀ c₀
  | next {c c' : Chain} {fuel : ℕ} {highest : ℕ → BranchSeq} {atropos : EventID} {sealed : Bool}
      (before : Chain.Run cfg c₀ c)
      (decided : c.onFrameDecided cfg fuel highest (c.checkpoint.lastDecidedFrame + 1) atropos =
        .ok (sealed, c')) :
      Chain.Run cfg c₀ c'

lemma Chain.Run.trans {cfg : Config} {c₀ c₁ c₂ : Chain} (h : Chain.Run cfg c₀ c₁)
    (h' : Chain.Run cfg c₁ c₂) : Chain.Run cfg c₀ c₂ := by
  induction h' with
  | start => exact h
  | next _ decided ih => exact .next ih decided

/-! ### The election -/

variable {r : Option Res}

namespace Election

variable {el el' : Election} {newRoot : RootAndSlot} {observed : List RootAndSlot}

lemma chooseAmong_frame {l : List StakerID} {res : Res} (h : el.chooseAmong l = .ok (some res)) :
    res.frame = el.frameToDecide := by
  induction l with
  | nil => cases h
  | cons v l ih =>
    unfold chooseAmong at h
    split at h
    · cases h
    · split at h
      · cases h
        rfl
      · exact ih h

lemma voteOn_frameToDecide {subject : StakerID} (h : voteOn newRoot observed el subject = .ok el') :
    el'.frameToDecide = el.frameToDecide := by
  unfold voteOn at h
  split at h
  · cases h
    rfl
  · obtain ⟨vote, -, rfl⟩ := map_eq_ok_iff.mp h
    rfl

lemma foldlM_voteOn_frameToDecide {l : List StakerID}
    (h : l.foldlM (voteOn newRoot observed) el = .ok el') :
    el'.frameToDecide = el.frameToDecide := by
  have hview : el'.frameToDecide = l.foldl (fun f _ => f) el.frameToDecide :=
    view_foldlM (fun _ _ _ => voteOn_frameToDecide) h
  rwa [List.foldl_fixed] at hview

/-- An election decides only the frame it was made for. -/
lemma processRoot_frame (h : el.processRoot newRoot observed = .ok (r, el')) :
    el'.frameToDecide = el.frameToDecide ∧ ∀ res ∈ r, res.frame = el.frameToDecide := by
  unfold processRoot at h
  obtain ⟨chosen, hchosen, h⟩ := bind_eq_ok_iff.mp h
  cases chosen with
  | some res =>
    cases h
    refine ⟨rfl, ?_⟩
    rintro _ ⟨⟩
    exact chooseAmong_frame hchosen
  | none =>
    simp only at h
    split at h
    · cases h
      exact ⟨rfl, by simp⟩
    · obtain ⟨notDecided, -, h⟩ := bind_eq_ok_iff.mp h
      obtain ⟨el₁, hfold, h⟩ := bind_eq_ok_iff.mp h
      obtain ⟨chosen, hchosen, h⟩ := bind_eq_ok_iff.mp h
      cases h
      have hframe := foldlM_voteOn_frameToDecide hfold
      refine ⟨hframe, ?_⟩
      rintro res ⟨⟩
      rw [chooseAmong_frame hchosen, hframe]

end Election

namespace Poset

variable {C : PosetCaches} {cfg : Config} {src : EventSource} {p p' : Poset C}

/-! ### Calls that decide nothing -/

/-- The call decides no frame: the chain and the frame of the election are left. -/
structure Quiet (p p' : Poset C) : Prop where
  chain : p'.chain = p.chain
  frameToDecide : p'.election.frameToDecide = p.election.frameToDecide

instance : Std.Refl (Quiet (C := C)) := ⟨fun _ => ⟨rfl, rfl⟩⟩

instance : IsTrans (Poset C) Quiet :=
  ⟨fun _ _ _ h h' => ⟨h'.chain.trans h.chain, h'.frameToDecide.trans h.frameToDecide⟩⟩

lemma index_quiet {α : Type} (m : IndexM C.vec α) : Steps Quiet (index m) :=
  .zoom fun _ _ => ⟨rfl, rfl⟩

lemma getFrameRoots_quiet (f : ℕ) : Steps Quiet (getFrameRoots (C := C) f) := by
  intro p l p' hrun
  cases hrun
  exact ⟨rfl, rfl⟩

lemma countCaused_quiet (id : EventID) (l : List RootAndSlot) (observedCounter : StakeCounter) :
    Steps Quiet (countCaused (C := C) id l observedCounter) := by
  induction l generalizing observedCounter with
  | nil => exact .pure _
  | cons it rest ih =>
    refine .bind (index_quiet _) fun caused => .bind (.lift _) fun observedCounter => ?_
    split
    · exact .pure _
    · exact ih observedCounter

lemma forklessCausedByQuorumOn_quiet (e : Event) (f : ℕ) :
    Steps Quiet (forklessCausedByQuorumOn (C := C) e f) :=
  .bind .get fun _ => .bind (getFrameRoots_quiet f) fun _ =>
    .bind (countCaused_quiet _ _ _) fun _ => .pure _

lemma checkRoot_quiet (e : Event) (frame : ℕ) : Steps Quiet (checkRoot (C := C) e frame) := by
  unfold checkRoot
  split_ifs
  · exact .pure _
  · exact .pure _
  · exact forklessCausedByQuorumOn_quiet _ _

lemma calcFrameIdx_quiet (cfg : Config) (e : Event) (checkOnly : Bool) :
    Steps Quiet (calcFrameIdx (C := C) cfg e checkOnly) := by
  unfold calcFrameIdx
  split_ifs with hparents hcheck hroot hself
  · exact .pure _
  · exact .bind .get fun _ => .bind (.lift _) fun _ => .pure _
  · exact .bind .get fun _ => .bind (.lift _) fun _ => .bind (checkRoot_quiet _ _) fun _ => .pure _
  · exact .bind .get fun _ => .bind (.lift _) fun _ => .pure _
  · refine .bind .get fun _ => .bind (.lift _) fun _ =>
      .bind (forklessCausedByQuorumOn_quiet _ _) fun caused => ?_
    split
    · exact .pure _
    · exact .pure _

lemma checkAdded_quiet (cfg : Config) (e : Event) : Steps Quiet (checkAdded (C := C) cfg e) := by
  refine .bind (calcFrameIdx_quiet _ _ _) fun calculated => ?_
  split_ifs
  · exact .pure _
  · exact .pure _
  · refine .bind .get fun _ => .bind (index_quiet _) fun medianTime => ?_
    split
    · exact .pure _
    · exact .pure _

lemma saveEvent_quiet (e : Event) : Steps Quiet (saveEvent (C := C) e) := by
  refine .bind (index_quiet _) fun _ => ?_
  split
  · exact .modify fun _ => ⟨rfl, rfl⟩
  · exact .pure _

lemma addAndCheck_quiet (cfg : Config) (e : Event) : Steps Quiet (addAndCheck (C := C) cfg e) := by
  refine .bind (index_quiet _) fun _ => .bind (checkAdded_quiet cfg e) fun err => ?_
  split
  · exact .bind (saveEvent_quiet e) fun _ => .bind (index_quiet _) fun _ => .pure _
  · exact .bind (index_quiet _) fun _ => .pure _

lemma checkAndSaveEvent_quiet (cfg : Config) (e : Event) :
    Steps Quiet (checkAndSaveEvent (C := C) cfg e) := by
  refine .bind .get fun _ => ?_
  dsimp only
  split_ifs
  · exact .pure _
  · exact .pure _
  · refine .bind (index_quiet _) fun noCheaters => ?_
    split
    · exact .pure _
    · exact addAndCheck_quiet cfg e

lemma prepare_quiet (cfg : Config) (e : Event) : Steps Quiet (prepare (C := C) cfg e) := by
  refine .bind .get fun _ => ?_
  dsimp only
  split
  · exact .pure _
  · exact .bind (index_quiet _) fun _ => .bind (calcFrameIdx_quiet _ _ _) fun _ =>
      .bind (index_quiet _) fun _ => .bind (index_quiet _) fun _ => .pure _

lemma observing_quiet (root : EventID) (l : List RootAndSlot) :
    Steps Quiet (observing (C := C) root l) := by
  induction l with
  | nil => exact .pure _
  | cons it rest ih => exact .bind (index_quiet _) fun _ => .bind ih fun _ => .pure _

lemma observedRoots_quiet (root : RootAndSlot) : Steps Quiet (observedRoots (C := C) root) :=
  .bind (getFrameRoots_quiet _) fun _ => observing_quiet _ _

/-! ### Voting -/

/-- What voting does, and that its result is about the frame of the election. -/
structure VotesOn (p : Poset C) (r : Option Res) (p' : Poset C) : Prop where
  quiet : p.Quiet p'
  frame : ∀ res ∈ r, res.frame = p.election.frameToDecide

lemma VotesOn.of_quiet {p'' : Poset C} (h : p.Quiet p') (h' : p'.VotesOn r p'') : p.VotesOn r p'' :=
  ⟨IsTrans.trans _ _ _ h h'.quiet, fun res hres => (h'.frame res hres).trans h.frameToDecide⟩

lemma vote_votes {root : RootAndSlot} {observed : List RootAndSlot}
    (hrun : (vote root observed).run p = .ok (r, p')) : p.VotesOn r p' := by
  simp only [StateT.run, vote] at hrun
  split at hrun
  · rename_i res election hprocess
    cases hrun
    have hframe := Election.processRoot_frame hprocess
    exact ⟨⟨rfl, hframe.1⟩, hframe.2⟩
  · cases hrun
  · cases hrun

lemma processRoot_votes {root : RootAndSlot} (hrun : (processRoot root).run p = .ok (r, p')) :
    p.VotesOn r p' := by
  unfold processRoot at hrun
  obtain ⟨⟨q, _⟩, ⟨⟩, hrun⟩ := run_bind_eq_ok_iff.mp hrun
  simp only at hrun
  split at hrun
  · obtain ⟨⟨observed, q⟩, hobserved, hvote⟩ := run_bind_eq_ok_iff.mp hrun
    exact .of_quiet (observedRoots_quiet root _ _ _ hobserved) (vote_votes hvote)
  · exact vote_votes hrun

lemma processRoots_votes {l : List RootAndSlot} (hrun : (processRoots l).run p = .ok (r, p')) :
    p.VotesOn r p' := by
  induction l generalizing p with
  | nil =>
    cases hrun
    exact ⟨refl _, by simp⟩
  | cons it rest ih =>
    unfold processRoots at hrun
    obtain ⟨⟨res, q⟩, hprocess, hrun⟩ := run_bind_eq_ok_iff.mp hrun
    have hvotes := processRoot_votes hprocess
    cases res with
    | some decided =>
      cases hrun
      exact hvotes
    | none => exact .of_quiet hvotes.quiet (ih hrun)

lemma processFrames_votes {fuel f : ℕ} (hrun : (processFrames fuel f).run p = .ok (r, p')) :
    p.VotesOn r p' := by
  induction fuel generalizing p f with
  | zero => cases hrun
  | succ fuel ih =>
    unfold processFrames at hrun
    obtain ⟨⟨frameRoots, q⟩, hroots, hrun⟩ := run_bind_eq_ok_iff.mp hrun
    obtain ⟨⟨res, q'⟩, hprocess, hrun⟩ := run_bind_eq_ok_iff.mp hrun
    have hvotes := VotesOn.of_quiet (getFrameRoots_quiet f _ _ _ hroots)
      (processRoots_votes hprocess)
    cases res with
    | some decided =>
      cases hrun
      exact hvotes
    | none =>
      simp only at hrun
      split at hrun
      · cases hrun
        exact hvotes
      · exact .of_quiet hvotes.quiet (ih hrun)

/-! ### Deciding frames -/

/-- A decided frame is the next step of the chain. -/
lemma onFrameDecided_chain (cfg : Config) (decided : Res) :
    Yields False (onFrameDecided (C := C) cfg decided) p fun sealed p' =>
      (∃ fuel highest, p.chain.onFrameDecided cfg fuel highest decided.frame decided.atropos =
        .ok (sealed, p'.chain)) ∧
        p'.election.frameToDecide = bif sealed then 1 else decided.frame + 1 := by
  refine .modify_bind (Yields.bind (Q := fun _ => Quiet _) ⟨index_quiet _ _, False.elim⟩ ?_)
  intro highest q hq
  refine .get_bind ((Yields.lift (Q := fun r a => q = a ∧ _ = Except.ok r) False.elim
    fun r hr => ⟨rfl, hr⟩).bind ?_)
  rintro ⟨sealed, c'⟩ _ ⟨rfl, hdecided⟩
  rw [hq.chain] at hdecided
  refine .modify_bind ?_
  cases sealed with
  | false => exact .pure ⟨⟨_, _, hdecided⟩, hq.frameToDecide⟩
  | true => exact .modify_bind (.pure ⟨⟨_, _, hdecided⟩, rfl⟩)

/-- A relation along the frames that a node decides; a sealed epoch is the last of them. -/
structure AlongFrames (cfg : Config) (R : Poset C → Poset C → Prop) : Prop where
  quiet {p p' : Poset C} : p.Quiet p' → R p p'
  ended {p q p' : Poset C} {decided : Res} : p.VotesOn (some decided) q →
    (onFrameDecided cfg decided).run q = .ok (true, p') → R p p'
  going {p q q' p' : Poset C} {decided : Res} : p.VotesOn (some decided) q →
    (onFrameDecided cfg decided).run q = .ok (false, q') → R q' p' → R p p'

namespace AlongFrames

variable {R : Poset C → Poset C → Prop}

/-- Once the election has a result the frame is decided, and the node goes on unless the epoch is
sealed. -/
lemma votes (hR : AlongFrames cfg R) {u : Unit} {q : Poset C} {rest : PosetM C Unit}
    (h : p.VotesOn r q) (hrest : Steps R rest)
    (hrun : StateT.run (match r with
      | none => (pure () : PosetM C Unit)
      | some decided => do
        if ← onFrameDecided cfg decided then return () else rest) q = .ok (u, p')) : R p p' := by
  cases r with
  | none =>
    cases hrun
    exact hR.quiet h.quiet
  | some decided =>
    simp only [StateT.run_bind] at hrun
    obtain ⟨⟨sealed, q'⟩, hdecided, hrun⟩ := bind_eq_ok_iff.mp hrun
    cases sealed with
    | true =>
      cases hrun
      exact hR.ended h hdecided
    | false => exact hR.going h hdecided (hrest _ _ _ hrun)

lemma electKnownRoots (hR : AlongFrames cfg R) (fuel : ℕ) :
    Steps R (electKnownRoots (C := C) cfg fuel) := by
  induction fuel with
  | zero => exact .throw _
  | succ fuel ih =>
    intro p r p' hrun
    unfold Poset.electKnownRoots at hrun
    obtain ⟨⟨res, q⟩, hknown, hrun⟩ := run_bind_eq_ok_iff.mp hrun
    exact hR.votes (processFrames_votes hknown) ih hrun

lemma reelect (hR : AlongFrames cfg R) : Steps R (reelect (C := C) cfg) :=
  fun _ _ _ hrun => hR.electKnownRoots _ _ _ _ hrun

lemma handleElection (hR : AlongFrames cfg R) (e : Event) :
    Steps R (handleElection (C := C) cfg e) := by
  unfold Poset.handleElection
  split
  · intro p r p' hrun
    cases hrun
    exact hR.quiet (refl _)
  · intro p r p' hrun
    obtain ⟨⟨res, q⟩, hprocess, hrun⟩ := run_bind_eq_ok_iff.mp hrun
    exact hR.votes (processRoot_votes hprocess) hR.reelect hrun

end AlongFrames

/-- The election is over the frame after the last decided one. -/
def Electing (p : Poset C) : Prop :=
  p.election.frameToDecide = p.chain.checkpoint.lastDecidedFrame + 1

/-- From a node whose election is in place, frames are decided one after the other. -/
def Advances (cfg : Config) (p p' : Poset C) : Prop :=
  p.Electing → Chain.Run cfg p.chain p'.chain ∧ p'.Electing

instance : Std.Refl (Advances (C := C) cfg) := ⟨fun _ h => ⟨.start, h⟩⟩

instance : IsTrans (Poset C) (Advances cfg) where
  trans _ _ _ h h' helecting :=
    have hfirst := h helecting
    have hsecond := h' hfirst.2
    ⟨hfirst.1.trans hsecond.1, hsecond.2⟩

lemma Quiet.advances (h : p.Quiet p') : p.Advances cfg p' := by
  intro helecting
  rw [Electing, h.chain, h.frameToDecide]
  exact ⟨.start, helecting⟩

lemma VotesOn.advances {decided : Res} {q : Poset C} {sealed : Bool}
    (h : p.VotesOn (some decided) q)
    (hrun : (onFrameDecided cfg decided).run q = .ok (sealed, p')) : p.Advances cfg p' := by
  intro helecting
  obtain ⟨⟨fuel, highest, hdecided⟩, helection⟩ := (onFrameDecided_chain cfg _).returned _ _ hrun
  have hframe : decided.frame = p.chain.checkpoint.lastDecidedFrame + 1 :=
    (h.frame decided rfl).trans helecting
  have hmoves := Chain.onFrameDecided_moves hdecided
  rw [h.quiet.chain, hframe] at hdecided
  refine ⟨.next .start hdecided, ?_⟩
  rw [Electing, helection]
  cases sealed with
  | false => rw [(hmoves.going rfl).2.2, cond_false]
  | true => rw [(hmoves.ended rfl).2.2, cond_true]

lemma alongFrames_advances (cfg : Config) : AlongFrames cfg (Advances (C := C) cfg) where
  quiet := Quiet.advances
  ended := VotesOn.advances
  going h hrun hlater := IsTrans.trans _ _ _ (h.advances hrun) hlater

lemma processEvent_advances (cfg : Config) (e : Event) :
    Steps (Advances cfg) (processEvent (C := C) cfg e) := by
  refine .bind .get fun _ => ?_
  dsimp only
  split
  · exact .pure _
  · refine .bind (fun p r p' hrun => (checkAndSaveEvent_quiet cfg e p r p' hrun).advances)
      fun err => ?_
    cases err with
    | some err => exact .pure _
    | none => exact .bind ((alongFrames_advances cfg).handleElection e) fun _ => .pure _

/-! ### The epoch -/

/-- The epoch is the same or the next one. -/
def StaysOrSeals (p p' : Poset C) : Prop :=
  p'.epochState.epochN = p.epochState.epochN ∨ p'.epochState.epochN = p.epochState.epochN + 1

lemma Quiet.epochN (h : p.Quiet p') : p'.epochState.epochN = p.epochState.epochN := by
  rw [epochState, h.chain]

lemma alongFrames_staysOrSeals (cfg : Config) : AlongFrames cfg (StaysOrSeals (C := C)) where
  quiet h := .inl h.epochN
  ended h hrun := by
    obtain ⟨⟨fuel, highest, hdecided⟩, -⟩ := (onFrameDecided_chain cfg _).returned _ _ hrun
    rw [h.quiet.chain] at hdecided
    exact .inr ((Chain.onFrameDecided_moves hdecided).ended rfl).1
  going {p q q' p' decided} h hrun hlater := by
    obtain ⟨⟨fuel, highest, hdecided⟩, -⟩ := (onFrameDecided_chain cfg _).returned _ _ hrun
    rw [h.quiet.chain] at hdecided
    have hsame : q'.epochState = p.epochState := ((Chain.onFrameDecided_moves hdecided).going rfl).1
    rwa [StaysOrSeals, hsame] at hlater

/-- Only an event of the current epoch is accepted, and the epoch is left or sealed then. -/
lemma processEvent_epochN {e : Event} {err : Option ProcessErr}
    (hrun : (processEvent cfg e).run p = .ok (err, p')) :
    (err = none → e.epoch = p.epochState.epochN ∧ p.StaysOrSeals p') ∧
      (err.isSome → p'.epochState.epochN = p.epochState.epochN) := by
  unfold processEvent at hrun
  obtain ⟨⟨q, _⟩, ⟨⟩, hrun⟩ := run_bind_eq_ok_iff.mp hrun
  dsimp only at hrun
  split at hrun
  · cases hrun
    exact ⟨by simp, fun _ => rfl⟩
  · rename_i hvalid
    have hepoch : e.epoch = p.epochState.epochN := by
      by_contra hne
      simp [Epochcheck.validate, hne] at hvalid
    obtain ⟨⟨err', q⟩, hcheck, hrun⟩ := run_bind_eq_ok_iff.mp hrun
    have hquiet := checkAndSaveEvent_quiet cfg e _ _ _ hcheck
    cases err' with
    | some err' =>
      cases hrun
      exact ⟨by simp, fun _ => hquiet.epochN⟩
    | none =>
      dsimp only at hrun
      obtain ⟨⟨u, q'⟩, helect, hrun⟩ := run_bind_eq_ok_iff.mp hrun
      cases hrun
      have hstays := (alongFrames_staysOrSeals cfg).handleElection e _ _ _ helect
      rw [StaysOrSeals, hquiet.epochN] at hstays
      exact ⟨fun _ => ⟨hepoch, hstays⟩, by simp⟩

end Poset

/-! ### Reachable nodes -/

/-- The chain of a node over a fresh store, when the application has got `calls` before. -/
def Chain.genesis (V : Validators) (time : Timestamp) (genesisAtropos : EventID) (appHash : Hash)
    (calls : List Call) : Chain where
  main := (Disk.genesis V time genesisAtropos appHash).main
  checkpoint := ⟨0, 0, genesisAtropos, appHash⟩
  epochState := ⟨1, ⟨0, time, genesisAtropos, appHash⟩, V⟩
  calls

/-- The chain is the outcome of a run of decided frames from some genesis. -/
def Chain.FromGenesis (cfg : Config) (c : Chain) : Prop :=
  ∃ V time genesisAtropos appHash calls,
    Chain.Run cfg (.genesis V time genesisAtropos appHash calls) c

lemma Chain.FromGenesis.trans {cfg : Config} {c c' : Chain} (h : c.FromGenesis cfg)
    (h' : Chain.Run cfg c c') : c'.FromGenesis cfg := by
  obtain ⟨V, time, genesisAtropos, appHash, calls, hrun⟩ := h
  exact ⟨V, time, genesisAtropos, appHash, calls, hrun.trans h'⟩

namespace Poset

variable {C : PosetCaches} {cfg : Config} {src : EventSource} {p p' : Poset C}
variable {A : Finset EventID}

lemma bootstrap_advances {disk : Disk} {calls : List Call} {checkpoint : Checkpoint}
    {es : EpochState} (hcheckpoint : disk.main.checkpoint = some checkpoint)
    (hepoch : disk.main.epoch = some es) (hrun : bootstrap (C := C) cfg disk calls = .ok p) :
    Chain.Run cfg ⟨disk.main, checkpoint, es, calls⟩ p.chain ∧ p.Electing := by
  simp only [bootstrap, hcheckpoint, hepoch] at hrun
  obtain ⟨⟨_, p'⟩, hreelect, rfl⟩ := map_eq_ok_iff.mp hrun
  exact (alongFrames_advances cfg).reelect _ _ _ hreelect rfl

/-- The chain of a reachable node is a run of decided frames from the genesis. -/
theorem Reachable.chain_run (h : Reachable src cfg A p) :
    p.chain.FromGenesis (cfg.over src) ∧ p.Electing := by
  induction h with
  | @start V time genesisAtropos appHash calls p hrun =>
    obtain ⟨hchain, helecting⟩ := bootstrap_advances rfl rfl hrun
    exact ⟨⟨V, time, genesisAtropos, appHash, calls, hchain⟩, helecting⟩
  | accept _ _ hrun ih =>
    obtain ⟨hchain, helecting⟩ := processEvent_advances _ _ _ _ _ hrun ih.2
    exact ⟨ih.1.trans hchain, helecting⟩
  | reject _ _ hrun ih =>
    obtain ⟨hchain, helecting⟩ := processEvent_advances _ _ _ _ _ hrun ih.2
    exact ⟨ih.1.trans hchain, helecting⟩
  | prepare _ _ hrun ih =>
    obtain ⟨hchain, helecting⟩ := (prepare_quiet _ _ _ _ _ hrun).advances ih.2
    exact ⟨ih.1.trans hchain, helecting⟩
  | restart hreachable hrun ih =>
    have hrests := hreachable.rests
    obtain ⟨hchain, helecting⟩ := bootstrap_advances hrests.checkpoint hrests.epoch hrun
    exact ⟨ih.1.trans hchain, helecting⟩

open TwoOrders in
theorem Reachable.chain_run_twoOrders : ∃ (p : Poset Solo.caches) (A : Finset EventID),
    Reachable stored config A p ∧ p.atropoi = [first.hash, second.hash] ∧
    p.chain.FromGenesis (config.over stored) ∧ p.Electing := by
  obtain ⟨p, A, hreachable, hatropoi, -⟩ := exists_reachable
  exact ⟨p, A, hreachable, hatropoi, hreachable.chain_run⟩

end Poset

end Lachesis
