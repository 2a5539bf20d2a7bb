import Lachesis.Vector.Calls

/-!
# Branches over whole runs

An index is used call by call, and now and then it is built anew from the tables that were flushed.
Whatever the order in which the sides of forks arrive, the stored events are then divided into
branches, every branch is one chain of self-parents, and on every event the lowest event of each
branch that observes it is noted.
-/

namespace Lachesis

open Lachesis.Core

/-! ### Chains -/

/-- The events of a branch from the greatest one down: each is followed by its self-parent. -/
structure BranchChain (G : EventDag) (S : Set EventID) (br : EventID → Option ℕ)
    (b : ℕ) (chain : List EventID) : Prop where
  mem_iff : ∀ x, x ∈ chain ↔ x ∈ S ∧ br x = some b
  isChain : chain.IsChain fun x p => G.selfParent x = some p ∧ G.seq x = G.seq p + 1

namespace BranchInv

variable {V : Validators} {G : EventDag} {S : Set EventID} {br : EventID → ℕ}
variable {bi : BranchesInfo}

lemma exists_chain_below (h : BranchInv V G S br bi) (hS : G.Valid S) {y : EventID} (hy : y ∈ S) :
    ∃ chain : List EventID,
      (∀ x, x ∈ y :: chain ↔ x ∈ S ∧ br x = br y ∧ G.seq x ≤ G.seq y) ∧
      (y :: chain).IsChain fun x p => G.selfParent x = some p ∧ G.seq x = G.seq p + 1 := by
  induction hn : G.seq y using Nat.strong_induction_on generalizing y with
  | _ n ih =>
    subst hn
    have heq : ∀ x ∈ S, br x = br y → G.seq x = G.seq y → x = y :=
      fun x hx hb hs => h.eq_of_seq x hx y hy hb hs
    by_cases hlow : ∃ x ∈ S, br x = br y ∧ G.seq x < G.seq y
    · obtain ⟨x₀, hx₀, hb₀, hlt⟩ := hlow
      obtain ⟨p, hp, hsp, hbp⟩ := h.chain x₀ hx₀ y hy hb₀ hlt
      have hseq := hS.selfParent_seq y hy p hsp
      obtain ⟨chain, hmem, hchain⟩ := ih (G.seq p) (by omega) hp rfl
      refine ⟨p :: chain, fun x => ?_, List.isChain_cons_cons.mpr ⟨⟨hsp, hseq⟩, hchain⟩⟩
      rw [List.mem_cons, hmem, hbp]
      constructor
      · rintro (rfl | ⟨hx, hb, hle⟩)
        · exact ⟨hy, rfl, le_rfl⟩
        · exact ⟨hx, hb, by omega⟩
      · rintro ⟨hx, hb, hle⟩
        rcases hle.eq_or_lt with hs | hs
        · exact Or.inl (heq x hx hb hs)
        · exact Or.inr ⟨hx, hb, by omega⟩
    · refine ⟨[], fun x => ?_, List.isChain_singleton _⟩
      rw [List.mem_singleton]
      constructor
      · rintro rfl
        exact ⟨hy, rfl, le_rfl⟩
      · rintro ⟨hx, hb, hle⟩
        apply heq x hx hb
        by_contra hne
        exact hlow ⟨x, hx, hb, lt_of_le_of_ne hle hne⟩

/-- A branch is one chain of self-parents, numbered without gaps. -/
lemma exists_chain (h : BranchInv V G S br bi) (hS : G.Valid S) {b : ℕ} (hb : b < bi.count) :
    ∃ chain : List EventID, (∀ x, x ∈ chain ↔ x ∈ S ∧ br x = b) ∧
      chain.IsChain (fun x p => G.selfParent x = some p ∧ G.seq x = G.seq p + 1) ∧
      bi.lastSeq[b]? = some ((chain.head?.map G.seq).getD 0) := by
  have hlast : bi.lastSeq[b]? = some (bi.last b) := by
    rw [← h.length_lastSeq] at hb
    rw [BranchesInfo.last, List.getD_eq_getElem?_getD, List.getElem?_eq_getElem hb]
    rfl
  by_cases hzero : bi.last b = 0
  · refine ⟨[], fun x => ?_, List.isChain_nil, by rw [hlast, hzero]; rfl⟩
    simp only [List.not_mem_nil, false_iff]
    rintro ⟨hx, rfl⟩
    have hle := h.le_last x hx
    have hpos := hS.seq_pos x hx
    omega
  · obtain ⟨y, hy, rfl, hseq⟩ := h.exists_last b hb hzero
    obtain ⟨chain, hmem, hchain⟩ := h.exists_chain_below hS hy
    refine ⟨y :: chain, fun x => ?_, hchain, by rw [hlast, ← hseq]; rfl⟩
    rw [hmem]
    refine ⟨fun hx => ⟨hx.1, hx.2.1⟩, fun hx => ⟨hx.1, hx.2, ?_⟩⟩
    rw [hseq, ← hx.2]
    exact h.le_last x hx.1

end BranchInv

/-! ### The index at one moment -/

/-- How the index divides the events of `S` into branches and what it notes on them. The branches
info is the one that the next call works with. -/
structure Index.Branched {C : VecCaches} (V : Validators) (G : EventDag)
    (S : Set EventID) (vi : Index C) : Prop where
  exists_unique : ∀ x ∈ S, ∃! b, b < vi.loadedBranches.count ∧ vi.eventBranch.get x = some b
  chain : ∀ b < vi.loadedBranches.count, ∃ chain, BranchChain G S vi.eventBranch.get b chain ∧
    vi.loadedBranches.lastSeq[b]? = some ((chain.head?.map G.seq).getD 0)
  creator : ∀ b < vi.loadedBranches.count, ∃ i v, vi.loadedBranches.creatorIdxs[b]? = some i ∧
    V.ids[i]? = some v ∧ ∀ x ∈ S, vi.eventBranch.get x = some b → G.creator x = v
  first : ∀ n < V.len, vi.loadedBranches.creatorIdxs[n]? = some n
  inverse : ∀ i b : ℕ,
    (∃ branches, vi.loadedBranches.byCreators[i]? = some branches ∧ b ∈ branches) ↔
      vi.loadedBranches.creatorIdxs[b]? = some i
  nodup : ∀ branches ∈ vi.loadedBranches.byCreators, branches.Nodup
  lowestAfter : ∀ x ∈ S, Returns (Index.getLowestAfterSeq x) vi fun r _ =>
    ∃ a, r = some a ∧ ∀ b,
      (a.get b = 0 ∧ ∀ y ∈ S, vi.eventBranch.get y = some b → ¬ G.Sees y x) ∨
      IsLeast (Set.image G.seq {y | y ∈ S ∧ vi.eventBranch.get y = some b ∧ G.Sees y x}) (a.get b)

namespace BranchInv

variable {V : Validators} {G : EventDag} {S : Set EventID} {br : EventID → ℕ}
variable {bi : BranchesInfo}

/-- The lists of the branches of each creator say the same as the list of their creators. -/
lemma mem_byCreators_iff (h : BranchInv V G S br bi) {i b : ℕ} :
    (∃ branches, bi.byCreators[i]? = some branches ∧ b ∈ branches) ↔
      bi.creatorIdxs[b]? = some i := by
  constructor
  · rintro ⟨branches, hbranches, hb⟩
    have hi : i < V.len := by
      rw [← h.length_byCreators]
      exact (List.getElem?_eq_some_iff.mp hbranches).1
    obtain rfl := Option.some.inj (hbranches.symm.trans (h.byCreators i hi))
    obtain ⟨hlt, rfl⟩ := BranchesInfo.mem_branchesOf.mp hb
    exact BranchesInfo.creatorIdxs_getElem? hlt
  · intro hb
    have hlt : b < bi.count := (List.getElem?_eq_some_iff.mp hb).1
    obtain rfl := Option.some.inj (hb.symm.trans (BranchesInfo.creatorIdxs_getElem? hlt))
    exact ⟨_, h.byCreators _ (h.creatorOf_lt b hlt), BranchesInfo.mem_branchesOf.mpr ⟨hlt, rfl⟩⟩

lemma nodup_byCreators (h : BranchInv V G S br bi) {branches : List ℕ}
    (hmem : branches ∈ bi.byCreators) : branches.Nodup := by
  obtain ⟨i, hi⟩ := List.getElem?_of_mem hmem
  have hlt : i < V.len := by
    rw [← h.length_byCreators]
    exact (List.getElem?_eq_some_iff.mp hi).1
  obtain rfl := Option.some.inj (hi.symm.trans (h.byCreators i hlt))
  exact List.nodup_range.filter _

end BranchInv

namespace Index

variable {C : VecCaches} {maxParents : ℕ} {V : Validators} {getEvent : GetEvent}
variable {S S₀ : Set EventID} {vi : Index C}

section

variable (h : vi.Inv maxParents V getEvent S S₀)
include h

lemma Inv.eventBranch_eq {x : EventID} (hx : x ∈ S)
    {b : ℕ} : vi.eventBranch.get x = some b ↔ vi.current.br x = b := by
  obtain ⟨b', hb'⟩ := Option.isSome_iff_exists.mp ((h.current.branch_isSome x).mpr hx)
  have hget : vi.eventBranch.get x = some b' := hb'
  rw [hget, Snapshot.br, hb', Option.some.injEq, Option.getD_some]

/-- The vector of an event has the first event of each branch above it. -/
lemma Inv.lowestAfter {x : EventID} (hx : x ∈ S) :
    Returns (getLowestAfterSeq x) vi fun r _ => ∃ a, r = some a ∧ ∀ b,
      (a.get b = 0 ∧ ∀ y ∈ S, vi.eventBranch.get y = some b → ¬ (eventDag getEvent).Sees y x) ∨
      IsLeast (Set.image (eventDag getEvent).seq
        {y | y ∈ S ∧ vi.eventBranch.get y = some b ∧ (eventDag getEvent).Sees y x}) (a.get b) := by
  obtain ⟨a, ha, hafter⟩ := h.current.after x hx
  refine (vi.getLowestAfterSeq_returns x).mono ?_
  rintro _ _ ⟨rfl, -⟩
  refine ⟨a, ha, fun b => ?_⟩
  rcases hafter b with ⟨hzero, hno⟩ | ⟨y, hy, hyb, hyx, hget, hmin⟩
  · exact Or.inl ⟨hzero, fun y hy hyb => hno y hy ((h.eventBranch_eq hy).mp hyb)⟩
  · refine Or.inr ⟨⟨y, ⟨hy, (h.eventBranch_eq hy).mpr hyb, hyx⟩, hget.symm⟩, ?_⟩
    rintro _ ⟨z, ⟨hz, hzb, hzx⟩, rfl⟩
    rw [hget]
    exact hmin z hz ((h.eventBranch_eq hz).mp hzb) hzx

/-- An index with the invariant has its events divided into branches. -/
theorem Inv.branched : vi.Branched V (eventDag getEvent) S := by
  have hbi : BranchInv V (eventDag getEvent) S vi.current.br vi.loadedBranches := h.current.branches
  apply Branched.mk
  case exists_unique =>
    intro x hx
    refine ⟨vi.current.br x, ⟨hbi.br_lt x hx, (h.eventBranch_eq hx).mpr rfl⟩, ?_⟩
    rintro b ⟨-, hb⟩
    exact ((h.eventBranch_eq hx).mp hb).symm
  case chain =>
    intro b hb
    obtain ⟨chain, hmem, hchain, hlast⟩ := hbi.exists_chain h.checked.valid hb
    refine ⟨chain, ⟨fun x => ?_, hchain⟩, hlast⟩
    rw [hmem]
    exact and_congr_right fun hx => (h.eventBranch_eq hx).symm
  case creator =>
    intro b hb
    refine ⟨_, _, BranchesInfo.creatorIdxs_getElem? hb, hbi.ids_creatorOf hb, fun x hx hxb => ?_⟩
    rw [← hbi.owner_br x hx, (h.eventBranch_eq hx).mp hxb]
  case first =>
    intro n hn
    rw [BranchesInfo.creatorIdxs_getElem? (lt_of_lt_of_le hn hbi.len_le), hbi.creatorOf_first n hn]
  case inverse =>
    intro i b
    exact hbi.mem_byCreators_iff
  case nodup =>
    intro branches hmem
    exact hbi.nodup_byCreators hmem
  case lowestAfter =>
    intro x hx
    exact h.lowestAfter hx

/-! ### Runs -/

/-- A new index over the tables that are flushed. -/
def reload : IndexM C Unit := modify fun vi => Index.new vi.validators vi.persisted vi.getEvent

/-- A new index knows the events that were flushed. -/
theorem Inv.reload :
    Returns Index.reload vi fun _ vi' =>
      vi'.Inv maxParents V getEvent S₀ S₀ ∧ vi'.getEvent = vi.getEvent := by
  refine Returns.modify ⟨?_, rfl⟩
  rw [h.validators]
  apply Inv.new h.source h.flushed_checked
  have hflushed := h.flushed
  rwa [Index.flushed, h.validators] at hflushed

end

/-- A step in the life of an index: a call, or a restart. -/
inductive Step
  | call (c : IndexCall)
  | reload

namespace Step

def run : Step → IndexM C Unit
  | call c => c.run
  | reload => Index.reload

/-- The events that are stored and those that are flushed after the step. -/
def events (s : Finset EventID × Finset EventID) : Step → Finset EventID × Finset EventID
  | call c => c.events s
  | reload => (s.2, s.2)

variable (maxParents : ℕ) (V : Validators) (getEvent : GetEvent)

/-- Restarts are always possible. -/
def Legal (stored : Finset EventID) : Step → Prop
  | call c => c.Legal maxParents V getEvent stored
  | reload => True

instance (stored : Finset EventID) : DecidablePred (Legal maxParents V getEvent stored)
  | call c => inferInstanceAs (Decidable (c.Legal maxParents V getEvent stored))
  | reload => inferInstanceAs (Decidable True)

def runAll (steps : List Step) : IndexM C Unit := steps.foldlM (fun _ step => step.run) ()

/-- The events that are stored after the steps, and those that are flushed. -/
def stored (steps : List Step) : Finset EventID × Finset EventID := steps.foldl events (∅, ∅)

/-- Every step is legal where it is made. -/
def AllLegal : Finset EventID × Finset EventID → List Step → Prop
  | _, [] => True
  | s, step :: steps => step.Legal maxParents V getEvent s.1 ∧ AllLegal (step.events s) steps

instance decidableAllLegal : ∀ s steps, Decidable (AllLegal maxParents V getEvent s steps)
  | _, [] => inferInstanceAs (Decidable True)
  | s, step :: steps =>
    have := decidableAllLegal (step.events s) steps
    inferInstanceAs (Decidable (step.Legal maxParents V getEvent s.1 ∧ _))

end Step

variable {s : Finset EventID × Finset EventID} {steps : List Step}

/-- A legal step returns and keeps the invariant. -/
lemma Inv.step (h : vi.Inv maxParents V getEvent s.1 s.2) (hg : vi.getEvent = getEvent)
    {step : Step} (hstep : step.Legal maxParents V getEvent s.1) :
    Returns step.run vi fun _ vi' =>
      vi'.Inv maxParents V getEvent (step.events s).1 (step.events s).2 ∧
        vi'.getEvent = getEvent := by
  cases step with
  | call c => exact h.call hg hstep
  | reload =>
    refine h.reload.mono ?_
    rintro _ vi' ⟨hinv, hget⟩
    exact ⟨hinv, hget.trans hg⟩

lemma Inv.runAll (h : vi.Inv maxParents V getEvent s.1 s.2) (hg : vi.getEvent = getEvent)
    (hsteps : Step.AllLegal maxParents V getEvent s steps) :
    Returns (Step.runAll steps) vi fun _ =>
      Inv maxParents V getEvent (steps.foldl Step.events s).1 (steps.foldl Step.events s).2 := by
  induction steps generalizing s vi with
  | nil => exact Returns.pure h
  | cons step steps ih =>
    rw [Step.runAll, List.foldlM_cons]
    refine (h.step hg hsteps.1).bind ?_
    intro _ vi' h'
    exact ih h'.1 h'.2 hsteps.2

/-- After any steps of a new index the stored events are divided into branches. -/
theorem runAll_branched (hsteps : Step.AllLegal maxParents V getEvent (∅, ∅) steps) :
    Returns (Step.runAll steps) (Index.new V .empty getEvent : Index C) fun _ vi =>
      vi.Branched V (eventDag getEvent) (Step.stored steps).1 := by
  have hnew : (Index.new V .empty getEvent : Index C).Inv maxParents V getEvent
      ((∅ : Finset EventID) : Set EventID) ((∅ : Finset EventID) : Set EventID) := by
    refine Inv.new (fun _ _ => rfl) ⟨by simp, by simp⟩ ?_
    simpa using Inv.describes_empty
  refine (hnew.runAll (s := (∅, ∅)) rfl hsteps).mono ?_
  intro _ vi h
  exact h.branched

namespace Forked

/-- One side of the fork is dropped once and added again after a restart. -/
def restarting : List Step :=
  [.call (.add left), .call .flush, .call (.add right), .call .dropNotFlushed,
    .call (.add aboveLeft), .call .flush, .reload, .call (.add right), .call (.add aboveRight)]

end Forked

theorem runAll_branched_forked :
    Forked.aboveRight.hash ∈ (Step.stored Forked.restarting).1 ∧
    Returns (Step.runAll Forked.restarting)
      (Index.new Forked.equal .empty Forked.events : Index smallCaches) fun _ vi =>
        vi.Branched Forked.equal (eventDag Forked.events) (Step.stored Forked.restarting).1 := by
  have hlegal : Step.AllLegal 3 Forked.equal Forked.events (∅, ∅) Forked.restarting := by
    decide +kernel
  exact ⟨by decide +kernel, runAll_branched hlegal⟩

/-- The dropped side comes back on a branch of its own, behind those of the validators. -/
example : ((Step.runAll Forked.restarting).run
    (Index.new Forked.equal .empty Forked.events : Index smallCaches)).toOption.map
      (fun r => (r.2.eventBranch.get Forked.right.hash, r.2.loadedBranches)) =
    some (some 3, ⟨[1, 1, 1, 1], [0, 1, 2, 2], [[0], [1], [2, 3]]⟩) := by decide +kernel

end Index

end Lachesis
