import Lachesis.Poset.Frames

/-!
# The checks decide the verdict

A node that has accepted some events keeps them in its index and their roots in its table. On such a
node the checks of `ProcessEvent` return the verdict of the graph, whatever is cached and in whatever
order the events came, and an accepted event is added to what the node keeps.
-/

namespace Lachesis

open Lachesis.Core

/-- The roots among the events of `A`. -/
def rootsOf (getEvent : GetEvent) (A : Finset EventID) : Set EventID :=
  {x | x ∈ A ∧ isRootOf getEvent x = true}

/-- What a node is started with that reads its events from `src`. -/
def Config.over (cfg : Config) (src : EventSource) : Config := { cfg with input := src }

@[simp]
lemma Config.genesisHash_over (cfg : Config) (src : EventSource) :
    (cfg.over src).genesisHash = cfg.genesisHash := rfl

namespace Poset

variable {C : PosetCaches} {cfg : Config} {es : EpochState} {D : Set EventID}
variable {A : Finset EventID} {S : Set EventID} {p p' p'' : Poset C} {src : EventSource}

/-- A node in the epoch `es` that has accepted the events of `A` and has those of `S` in its index. -/
structure Keeps (cfg : Config) (es : EpochState) (D : Set EventID) (A : Finset EventID)
    (S : Set EventID) (p : Poset C) : Prop where
  epochState : p.epochState = es
  known : Known cfg es D A
  index : p.vecClock.Inv cfg.maxParents es.validators (cfg.events es) S A
  records : ∀ r, r ∈ p.roots.records ↔
    ∃ x ∈ rootsOf (cfg.events es) A, r = (rootGraph cfg es D).rootAndSlot x
  coherent : p.roots.Coherent

/-- Reading changes nothing but what is cached. -/
structure Same (p p' : Poset C) : Prop where
  chain : p'.chain = p.chain
  epochDbs : p'.epochDbs = p.epochDbs
  records : p'.roots.records = p.roots.records
  election : p'.election = p.election
  source : p'.vecClock.getEvent = p.vecClock.getEvent

lemma Same.refl (p : Poset C) : p.Same p := ⟨rfl, rfl, rfl, rfl, rfl⟩

lemma Same.trans (h : p.Same p') (h' : p'.Same p'') : p.Same p'' :=
  ⟨h'.chain.trans h.chain, h'.epochDbs.trans h.epochDbs, h'.records.trans h.records,
    h'.election.trans h.election, h'.source.trans h.source⟩

/-- Nothing but the index changes. -/
structure Indexes (p p' : Poset C) : Prop where
  chain : p'.chain = p.chain
  epochDbs : p'.epochDbs = p.epochDbs
  roots : p'.roots = p.roots
  election : p'.election = p.election
  source : p'.vecClock.getEvent = p.vecClock.getEvent

lemma Indexes.refl (p : Poset C) : p.Indexes p := ⟨rfl, rfl, rfl, rfl, rfl⟩

lemma Indexes.trans (h : p.Indexes p') (h' : p'.Indexes p'') : p.Indexes p'' :=
  ⟨h'.chain.trans h.chain, h'.epochDbs.trans h.epochDbs, h'.roots.trans h.roots,
    h'.election.trans h.election, h'.source.trans h.source⟩

lemma Indexes.same (h : p.Indexes p') : p.Same p' :=
  ⟨h.chain, h.epochDbs, congrArg RootsTable.records h.roots, h.election, h.source⟩

/-! ### Reads -/

section Reads

variable (h : p.Keeps cfg es D A S)
include h

lemma Keeps.subset : ↑A ⊆ S := h.index.subset

lemma Keeps.index_returns {α : Type} {m : IndexM C.vec α} {Q : α → Prop}
    (hm : Returns m p.vecClock fun r vi =>
      vi.Inv cfg.maxParents es.validators (cfg.events es) S A ∧
        vi.getEvent = p.vecClock.getEvent ∧ Q r) :
    Returns (Poset.index m) p fun r p' => p'.Keeps cfg es D A S ∧ p.Indexes p' ∧ Q r := by
  refine Returns.zoom (hm.mono ?_)
  rintro r vi ⟨hvi, hg, hr⟩
  exact ⟨⟨h.epochState, h.known, hvi, h.records, h.coherent⟩, ⟨rfl, rfl, rfl, rfl, hg⟩, hr⟩

lemma Keeps.getFrameRoots_run (f : ℕ) :
    Returns (Poset.getFrameRoots f) p fun l p' => p'.Keeps cfg es D A S ∧
      l = (p.roots.getFrameRoots f).1 ∧ p' = { p with roots := (p.roots.getFrameRoots f).2 } := by
  have hrecords := p.roots.records_getFrameRoots f
  refine ⟨_, _, rfl, ⟨h.epochState, h.known, h.index, ?_, (h.coherent.getFrameRoots f).2⟩, rfl, rfl⟩
  simp only [hrecords]
  exact h.records

lemma Keeps.mem_getFrameRoots (f : ℕ) : (p.roots.getFrameRoots f).1.Nodup ∧
    ∀ r, r ∈ (p.roots.getFrameRoots f).1 ↔ ∃ x ∈ rootsOf (cfg.events es) A,
      frameOf (cfg.events es) x = f ∧ r = (rootGraph cfg es D).rootAndSlot x := by
  have hperm := (h.coherent.getFrameRoots f).1
  refine ⟨hperm.nodup_iff.mpr (RootRecords.nodup_ofFrame _ f), fun r => ?_⟩
  rw [hperm.mem_iff, RootRecords.mem_ofFrame, h.records]
  constructor
  · rintro ⟨⟨x, hx, rfl⟩, hf⟩
    exact ⟨x, hx, hf, rfl⟩
  · rintro ⟨x, hx, hf, rfl⟩
    exact ⟨⟨x, hx, rfl⟩, hf⟩

lemma Keeps.getFrameRoots_returns (f : ℕ) :
    Returns (Poset.getFrameRoots f) p fun l p' => p'.Keeps cfg es D A S ∧ p.Same p' ∧ l.Nodup ∧
      ∀ r, r ∈ l ↔ ∃ x ∈ rootsOf (cfg.events es) A, frameOf (cfg.events es) x = f ∧
        r = (rootGraph cfg es D).rootAndSlot x := by
  refine (h.getFrameRoots_run f).mono ?_
  rintro _ _ ⟨h', rfl, rfl⟩
  exact ⟨h', ⟨rfl, rfl, p.roots.records_getFrameRoots f, rfl, rfl⟩, h.mem_getFrameRoots f⟩

lemma Keeps.forklessCause_returns {a b : EventID} (ha : a ∈ S) (hb : b ∈ S) :
    Returns (Poset.index (Index.forklessCause a b)) p fun r p' =>
      p'.Keeps cfg es D A S ∧ p.Indexes p' ∧
        (r = true ↔ ForklessCaused es.validators (cfg.dag es) a b) :=
  h.index_returns (h.index.forklessCause ha hb)

end Reads

/-! ### Frames -/

variable {e : Event}

section Frames

/-- The loop of `forklessCausedByQuorumOn`, given which roots the event is forkless caused by. -/
def tallyCaused (caused : EventID → Bool) :
    List RootAndSlot → StakeCounter → Except Fault StakeCounter
  | [], observedCounter => .ok observedCounter
  | it :: rest, observedCounter => do
    let observedCounter ← (if caused it.id then
      (observedCounter.count it.slot.validator).map (·.2) else .ok observedCounter)
    if observedCounter.hasQuorum then return observedCounter
    else tallyCaused caused rest observedCounter

/-- The validators of those roots of a list. -/
def causing (V : Validators) (caused : EventID → Bool) (l : List RootAndSlot) : Finset StakerID :=
  V.members.filter fun v => ∃ r ∈ l, caused r.id = true ∧ r.slot.validator = v

variable {r : RootAndSlot} {V : Validators} {l : List RootAndSlot}

lemma causing_cons_pos {caused : EventID → Bool} (hr : r.slot.validator ∈ V.members)
    (h : caused r.id = true) :
    causing V caused (r :: l) = insert r.slot.validator (causing V caused l) := by
  ext v
  simp only [causing, List.mem_cons, Finset.mem_filter, Finset.mem_insert]
  constructor
  · rintro ⟨hv, x, rfl | hx, hx', rfl⟩
    · exact Or.inl rfl
    · exact Or.inr ⟨hv, x, hx, hx', rfl⟩
  · rintro (rfl | ⟨hv, x, hx, hx', hxv⟩)
    · exact ⟨hr, r, Or.inl rfl, h, rfl⟩
    · exact ⟨hv, x, Or.inr hx, hx', hxv⟩

lemma causing_cons_neg {caused : EventID → Bool} (h : ¬ caused r.id = true) :
    causing V caused (r :: l) = causing V caused l := by
  ext v
  simp only [causing, List.mem_cons, Finset.mem_filter]
  constructor
  · rintro ⟨hv, x, rfl | hx, hx', hxv⟩
    · exact absurd hx' h
    · exact ⟨hv, x, hx, hx', hxv⟩
  · rintro ⟨hv, x, hx, hx', hxv⟩
    exact ⟨hv, x, Or.inr hx, hx', hxv⟩

/-- The answer `r` to a question about a quorum: it is never wrongly yes, and right if the stakes do
not overflow. -/
structure SameQuorum (V : Validators) (r : Bool) (P : Prop) : Prop where
  of_true : r = true → P
  eq_true : V.total < 2 ^ 64 → P → r = true

lemma SameQuorum.refl (V : Validators) (r : Bool) : SameQuorum V r (r = true) := ⟨id, fun _ => id⟩

lemma SameQuorum.iff {r : Bool} {P : Prop} (h : SameQuorum V r P) (hV : V.total < 2 ^ 64) :
    r = true ↔ P := ⟨h.of_true, h.eq_true hV⟩

variable {c : StakeCounter}

lemma tally_ok {T : Finset StakerID} (hc : c.Counted V T) (caused : EventID → Bool)
    (hr : r.slot.validator ∈ V.members) (l : List RootAndSlot) : ∃ c₁ T₁,
      (if caused r.id then (c.count r.slot.validator).map (·.2) else .ok c) = .ok c₁ ∧
      c₁.Counted V T₁ ∧ T ∪ causing V caused (r :: l) = T₁ ∪ causing V caused l := by
  by_cases hyes : caused r.id = true
  · obtain ⟨c₁, hcount, hc₁⟩ := hc.count hr
    refine ⟨c₁, insert r.slot.validator T, by rw [if_pos hyes, hcount]; rfl, hc₁, ?_⟩
    rw [causing_cons_pos hr hyes, Finset.union_insert, Finset.insert_union]
  · exact ⟨c, T, if_neg hyes, hc, by rw [causing_cons_neg hyes]⟩

/-- The loop finds a quorum if there is one, though it may end before it has counted all. -/
lemma tallyCaused_ok (caused : EventID → Bool) (hl : ∀ r ∈ l, r.slot.validator ∈ V.members)
    {T : Finset StakerID} (hc : c.Counted V T) : ∃ c', tallyCaused caused l c = .ok c' ∧
      SameQuorum V c'.hasQuorum (V.quorum.toNat ≤ weight V.stakeOf (T ∪ causing V caused l)) := by
  induction l generalizing T c with
  | nil =>
    rw [show T ∪ causing V caused [] = T by simp [causing]]
    exact ⟨c, rfl, hc.quorum_le_weight, fun hV => (hc.hasQuorum_iff_weight hV).mpr⟩
  | cons r l ih =>
    obtain ⟨c₁, T₁, hcount, hc₁, hT⟩ := tally_ok hc caused (hl r (by simp)) l
    simp only [tallyCaused, hcount, hT, bind, Except.bind]
    split_ifs with hquorum
    · exact ⟨c₁, rfl, fun _ => le_trans (hc₁.quorum_le_weight hquorum)
        (weight_mono _ Finset.subset_union_left), fun _ _ => hquorum⟩
    · exact ih (fun x hx => hl x (by simp [hx])) hc₁

open Classical in
/-- Whether the graph says that an event is forkless caused by a root. -/
noncomputable def causedIn (cfg : Config) (es : EpochState) (id root : EventID) : Bool :=
  decide (ForklessCaused es.validators (cfg.dag es) id root)

lemma causedIn_eq_true {id root : EventID} : causedIn cfg es id root = true ↔
    ForklessCaused es.validators (cfg.dag es) id root := by
  simp [causedIn]

lemma Keeps.countCaused_returns (h : p.Keeps cfg es D A S) {id : EventID} (hid : id ∈ S)
    (hl : ∀ r ∈ l, r.id ∈ S) {c' : StakeCounter}
    (hc : tallyCaused (causedIn cfg es id) l c = .ok c') :
    Returns (countCaused id l c) p fun r p' => p'.Keeps cfg es D A S ∧ p.Indexes p' ∧ r = c' := by
  induction l generalizing p c with
  | nil =>
    cases hc
    exact Returns.pure ⟨h, Indexes.refl p, rfl⟩
  | cons r l ih =>
    refine (h.forklessCause_returns hid (hl r (by simp))).bind ?_
    rintro caused p₁ ⟨h₁, hq₁, hcaused⟩
    obtain rfl : causedIn cfg es id r.id = caused := by
      rw [Bool.eq_iff_iff, causedIn_eq_true, hcaused]
    simp only [tallyCaused, bind, bind_eq_ok_iff] at hc
    obtain ⟨c₁, hcount, hc⟩ := hc
    refine Returns.lift_bind hcount ?_
    split_ifs at hc ⊢
    · cases hc
      exact Returns.pure ⟨h₁, hq₁, rfl⟩
    · refine (ih h₁ (fun x hx => hl x (by simp [hx])) hc).mono ?_
      rintro r' p' ⟨h', hq', rfl⟩
      exact ⟨h', hq₁.trans hq', rfl⟩

/-- The roots that `GetFrameRoots` lists are in the index, and their creators are validators. -/
lemma Keeps.of_mem_getFrameRoots (h : p.Keeps cfg es D A S) {f : ℕ}
    (hr : r ∈ (p.roots.getFrameRoots f).1) :
    r.id ∈ S ∧ r.slot.validator ∈ es.validators.members := by
  obtain ⟨x, hx, -, rfl⟩ := ((h.mem_getFrameRoots f).2 r).mp hr
  obtain ⟨e, he, -, -, haccepted⟩ := exists_of_mem_validEvents (h.known.valid x hx.1)
  refine ⟨h.subset hx.1, ?_⟩
  simp only [RootGraph.rootAndSlot, rootGraph, slotOf, creator_eventDag he]
  exact haccepted.creator_mem

/-- What `forklessCausedByQuorumOn` answers when it is given a list of roots. -/
noncomputable def quorumOn (cfg : Config) (es : EpochState) (id : EventID)
    (frameRoots : List RootAndSlot) : Bool :=
  match tallyCaused (causedIn cfg es id) frameRoots es.validators.newCounter with
  | .ok observedCounter => observedCounter.hasQuorum
  | .error _ => false

lemma Keeps.forklessCausedByQuorumOn_run (h : p.Keeps cfg es D A S) (he : e.hash ∈ S) (f : ℕ) :
    SameQuorum es.validators (quorumOn cfg es e.hash (p.roots.getFrameRoots f).1)
      (es.validators.quorum.toNat ≤ weight es.validators.stakeOf
        (causing es.validators (causedIn cfg es e.hash) (p.roots.getFrameRoots f).1)) ∧
    Returns (forklessCausedByQuorumOn e f) p fun r p' => p'.Keeps cfg es D A S ∧ p.Same p' ∧
      p'.roots = (p.roots.getFrameRoots f).2 ∧
      r = quorumOn cfg es e.hash (p.roots.getFrameRoots f).1 := by
  obtain ⟨c, hc, hquorum⟩ := tallyCaused_ok (causedIn cfg es e.hash)
    (fun r hr => (h.of_mem_getFrameRoots hr).2) (StakeCounter.counted_newCounter es.validators)
  rw [Finset.empty_union] at hquorum
  have hanswer : quorumOn cfg es e.hash (p.roots.getFrameRoots f).1 = c.hasQuorum := by
    rw [quorumOn, hc]
  rw [hanswer]
  refine ⟨hquorum, ?_⟩
  refine Returns.get_bind ?_
  refine (h.getFrameRoots_run f).bind ?_
  rintro _ _ ⟨h₁, rfl, rfl⟩
  rw [h.epochState]
  refine (h₁.countCaused_returns he (fun r hr => (h.of_mem_getFrameRoots hr).1) hc).bind ?_
  rintro _ p₂ ⟨h₂, hi₂, rfl⟩
  have hsame₂ := hi₂.same
  exact Returns.pure ⟨h₂, ⟨hsame₂.chain, hsame₂.epochDbs,
    hsame₂.records.trans (p.roots.records_getFrameRoots f), hsame₂.election, hsame₂.source⟩,
    hi₂.roots, rfl⟩

/-- A new event: it is stored, its parents are accepted and it is in the index. -/
structure Added (cfg : Config) (es : EpochState) (A : Finset EventID) (S : Set EventID)
    (e : Event) : Prop where
  checked : Checked cfg.maxParents (cfg.events es) e
  parents_mem : ∀ q ∈ e.parents, q ∈ A
  mem : e.hash ∈ S

lemma Keeps.forklessCausedByQuorumOn_returns (h : p.Keeps cfg es D A S) (he : Added cfg es A S e)
    {f : ℕ} (hf : e.frame ≠ f) :
    Returns (forklessCausedByQuorumOn e f) p fun r p' => p'.Keeps cfg es D A S ∧ p.Same p' ∧
      SameQuorum es.validators r
        (CausedByQuorumOn es.validators (cfg.events es) e.hash f) := by
  obtain ⟨hquorum, hrun⟩ := h.forklessCausedByQuorumOn_run he.mem f
  refine hrun.mono ?_
  rintro _ p' ⟨h', hsame, -, rfl⟩
  refine ⟨h', hsame, ?_⟩
  have hl := (h.mem_getFrameRoots f).2
  simp only [causing, causedIn_eq_true] at hquorum
  rw [CausedByQuorumOn]
  -- what causes the event is seen by it, so it is the event or among the accepted ones
  suffices hset : ∀ v, (∃ r ∈ (p.roots.getFrameRoots f).1, ForklessCaused es.validators
      (cfg.dag es) e.hash r.id ∧ r.slot.validator = v) ↔
      ∃ b, CausedBy es.validators (cfg.events es) e.hash f b ∧ (cfg.dag es).creator b = v by
    classical
    convert hquorum using 4
    rw [← hset]
    simp only [causedIn_eq_true]
  refine fun v => ⟨?_, ?_⟩
  · rintro ⟨r, hr, hcaused, hrv⟩
    obtain ⟨x, hx, hxf, rfl⟩ := (hl r).mp hr
    exact ⟨x, ⟨hx.2, hxf, hcaused⟩, hrv⟩
  · rintro ⟨b, hb, hbv⟩
    have hbA : b ∈ A := by
      rcases ForkDag.sees_iff.mp (sees_of_quorum_le hb.caused.2) with rfl | ⟨q, hq, hqb⟩
      · exact absurd ((frameOf_eq he.checked.stored).symm.trans hb.frame) hf
      · rw [parents_eventDag he.checked.stored] at hq
        exact h.known.sees_mem (he.parents_mem q hq) hqb
    exact ⟨_, (hl _).mpr ⟨b, ⟨hbA, hb.root⟩, hb.frame, rfl⟩, hb.caused, hbv⟩

lemma selfParentFrame_ok {getEvent : GetEvent} {source : GetEvent}
    (h : ∀ q ∈ e.parents, ∃ d, source q = some d ∧ getEvent q = some d) :
    selfParentFrame source e = .ok (frameBefore getEvent e) := by
  obtain ⟨frame, hrun, hframe⟩ := foldlM_ok (parentFrame source e) e.parents 0
    (fun done frame => frame =
      ((e.selfParent.filter (· ∈ done)).map (frameOf getEvent)).getD 0)
    (by cases e.selfParent <;> simp)
    (by
      rintro done q rest frame hsplit rfl
      obtain ⟨d, hd, hd'⟩ := h q (by simp [hsplit])
      refine ⟨_, by rw [parentFrame, hd], ?_⟩
      simp only [Event.isSelfParent, decide_eq_true_eq]
      cases hself : e.selfParent with
      | none => simp
      | some x =>
        by_cases hx : x = q
        · subst hx
          simp [Option.filter, frameOf, hd']
        · simp [Option.filter, hx])
  have hall : e.selfParent.filter (· ∈ e.parents) = e.selfParent := by
    cases hself : e.selfParent with
    | none => rfl
    | some x => simp [Option.filter, Event.selfParent_mem hself]
  rw [selfParentFrame, hrun, hframe, hall, frameBefore]

variable (h : p.Keeps cfg es D A S) (hsrc : p.vecClock.getEvent = src es.epochN)
include h hsrc

lemma Keeps.source_eq {x : EventID} (hx : x ∈ A) : src es.epochN x = cfg.events es x := by
  rw [← hsrc]
  exact h.index.source x hx

lemma Keeps.selfParentFrame_ok (hp : ∀ q ∈ e.parents, q ∈ A) :
    selfParentFrame (src es.epochN) e = .ok (frameBefore (cfg.events es) e) := by
  refine Poset.selfParentFrame_ok fun q hq => ?_
  obtain ⟨d, hd, -⟩ := exists_of_mem_validEvents (h.known.valid q (hp q hq))
  exact ⟨d, (h.source_eq hsrc (hp q hq)).trans hd, hd⟩

/-- The computed frame is that of the graph. -/
lemma Keeps.calcFrameIdx_returns (he : Added cfg es A S e) :
    Returns (calcFrameIdx (cfg.over src) e true) p fun r p' => p'.Keeps cfg es D A S ∧ p.Same p' ∧
      r.1 = (graphFrame es.validators (cfg.events es) e).1 ∧
      SameQuorum es.validators r.2
        ((graphFrame es.validators (cfg.events es) e).2 = true) ∧
      (e.isRoot = false → r.2 = (graphFrame es.validators (cfg.events es) e).2) := by
  unfold calcFrameIdx graphFrame
  by_cases hparents : e.parents.isEmpty = true
  · rw [if_pos hparents, if_pos hparents]
    exact Returns.pure ⟨h, Same.refl p, rfl, .refl _ _, fun _ => rfl⟩
  rw [if_neg hparents, if_neg hparents]
  refine Returns.get_bind ?_
  have hframe := h.selfParentFrame_ok hsrc he.parents_mem
  rw [h.epochState]
  refine Returns.lift_bind hframe ?_
  rw [if_pos rfl]
  by_cases hroot : (!e.isRoot) = true
  · rw [if_pos hroot, if_pos hroot]
    exact Returns.pure ⟨h, Same.refl p, rfl, .refl _ _, fun _ => rfl⟩
  rw [if_neg hroot, if_neg hroot]
  suffices hcheck : Returns (checkRoot e (frameBefore (cfg.events es) e)) p fun r p' =>
      p'.Keeps cfg es D A S ∧ p.Same p' ∧ SameQuorum es.validators r
        (e.frame = frameBefore (cfg.events es) e + 1 ∧
          (e.frame ≤ 1 ∨ CausedByQuorumOn es.validators (cfg.events es) e.hash
            (e.frame - 1))) by
    refine hcheck.bind ?_
    rintro r p₁ ⟨h₁, hsame₁, hr⟩
    exact Returns.pure ⟨h₁, hsame₁, rfl, by simpa only [decide_eq_true_eq] using hr,
      fun hno => absurd hno (by simpa using hroot)⟩
  unfold checkRoot
  split_ifs with hne hle
  · exact Returns.pure ⟨h, Same.refl p, by simp, fun _ hq => absurd hq.1 hne⟩
  · exact Returns.pure ⟨h, Same.refl p, fun _ => ⟨not_not.mp hne, Or.inl hle⟩, fun _ _ => rfl⟩
  · refine (h.forklessCausedByQuorumOn_returns he (by omega)).mono ?_
    rintro r p₁ ⟨h₁, hsame₁, hr⟩
    exact ⟨h₁, hsame₁, fun hq => ⟨not_not.mp hne, Or.inr (hr.of_true hq)⟩,
      fun hV hq => hr.eq_true hV (hq.2.resolve_left hle)⟩

end Frames

/-! ### Verdicts -/

/-- `MedianTime` of an event of the index; stakes that overflow may stop the node. -/
lemma Keeps.medianTime_yields (h : p.Keeps cfg es D A S) {id : EventID} (hid : id ∈ S)
    (genesisTime : Timestamp) :
    Yields (∃ t, graphMedianTime es.validators (cfg.dag es)
        (claimedTime (cfg.events es)) genesisTime id = .ok t)
      (Poset.index (Index.medianTime id genesisTime)) p fun r p' =>
        p'.Keeps cfg es D A S ∧ p.Indexes p' ∧
          .ok r = graphMedianTime es.validators (cfg.dag es)
            (claimedTime (cfg.events es)) genesisTime id := by
  obtain ⟨vi, hsame, hrun⟩ := Index.medianTime_run h.index hid genesisTime
  refine Yields.zoom ⟨fun r vi' hm => ?_, fun ⟨t, ht⟩ => ⟨(t, vi), by rw [hrun, ht]; rfl⟩⟩
  rw [hrun] at hm
  cases hmedian : graphMedianTime es.validators (cfg.dag es)
      (claimedTime (cfg.events es)) genesisTime id with
  | error => simp [hmedian, Except.map] at hm
  | ok t =>
    rw [hmedian] at hm
    cases hm
    exact ⟨⟨h.epochState, h.known, h.index.same hsame, h.records, h.coherent⟩,
      ⟨rfl, rfl, rfl, rfl, hsame.getEvent⟩, rfl⟩

/-- The checks of an added event: what passes them is what the graph accepts. -/
lemma Keeps.checkAdded_yields (h : p.Keeps cfg es D A S)
    (hsrc : p.vecClock.getEvent = src es.epochN) (he : Added cfg es A S e) :
    Yields (es.validators.total < 2 ^ 64) (checkAdded (cfg.over src) e) p fun r p' =>
      p'.Keeps cfg es D A S ∧ p.Same p' ∧ (r = none → addedVerdict cfg es e = none) ∧
        (es.validators.total < 2 ^ 64 → r = addedVerdict cfg es e) := by
  refine (h.calcFrameIdx_returns hsrc he).yields.bind ?_
  rintro ⟨frame, isRoot⟩ p₁ ⟨h₁, hsame₁, hframe, hroot, hnot⟩
  simp only at hframe hroot hnot ⊢
  simp only [addedVerdict, ← hframe]
  have hexact : es.validators.total < 2 ^ 64 →
      isRoot = (graphFrame es.validators (cfg.events es) e).2 := fun hV =>
    Bool.eq_iff_iff.mpr (hroot.iff hV)
  by_cases hne : e.isRoot ≠ isRoot
  · rw [if_pos hne]
    refine Yields.pure ⟨h₁, hsame₁, by simp, fun hV => ?_⟩
    rw [if_pos (hexact hV ▸ hne)]
  -- a claim that was confirmed is right, whether the stakes overflow or not
  have hclaim : ¬ e.isRoot ≠ (graphFrame es.validators (cfg.events es) e).2 := by
    rw [not_not] at hne ⊢
    cases hyes : e.isRoot with
    | true => exact (hroot.of_true (hne ▸ hyes)).symm
    | false => exact (hne ▸ hyes : isRoot = false) ▸ hnot hyes
  rw [if_neg hne, if_neg hclaim]
  by_cases hwrong : e.frame ≠ frame
  · rw [if_pos hwrong, if_pos hwrong]
    exact Yields.pure ⟨h₁, hsame₁, by simp, fun _ => rfl⟩
  rw [if_neg hwrong, if_neg hwrong]
  refine Yields.get_bind ?_
  rw [h₁.epochState]
  refine ((h₁.medianTime_yields he.mem es.prevEpoch.time).weaken
    (graphMedianTime_ok _ _ _ _ _)).bind ?_
  rintro medianTime p₂ ⟨h₂, hi₂, hmedian⟩
  have hsame₂ := hi₂.same
  have hiff : e.medianTime ≠ medianTime ↔ .ok e.medianTime ≠
      graphMedianTime es.validators (cfg.dag es)
        (claimedTime (cfg.events es)) es.prevEpoch.time e.hash := by
    rw [← hmedian, ne_eq, ne_eq, Except.ok.injEq]
  by_cases htime : e.medianTime ≠ medianTime
  · rw [if_pos htime, if_pos (hiff.mp htime)]
    exact Yields.pure ⟨h₂, hsame₁.trans hsame₂, by simp, fun _ => rfl⟩
  · rw [if_neg htime, if_neg (mt hiff.mpr htime)]
    exact Yields.pure ⟨h₂, hsame₁.trans hsame₂, fun _ => rfl, fun _ => rfl⟩

/-! ### Saving an event -/

/-- The node has accepted the event `e`, and nothing was decided. -/
structure Accepts (cfg : Config) (es : EpochState) (D : Set EventID) (A : Finset EventID) (e : Event)
    (p p' : Poset C) : Prop where
  keeps : p'.Keeps cfg es D (insert e.hash A) ↑(insert e.hash A)
  chain : p'.chain = p.chain
  epochDbs : p'.epochDbs = p.epochDbs
  election : p'.election = p.election
  source : p'.vecClock.getEvent = p.vecClock.getEvent

section Save

variable {e : Event}

lemma Keeps.add_returns (h : p.Keeps cfg es D A A) (he : Checked cfg.maxParents (cfg.events es) e)
    (hcreator : e.creator ∈ es.validators.members) (hp : ∀ q ∈ e.parents, q ∈ A) :
    Returns (Poset.index (Index.add e)) p fun _ p' =>
      p'.Keeps cfg es D A (insert e.hash A) ∧ p.Indexes p' := by
  refine Returns.zoom ((h.index.add h.index.source he hcreator hp).mono ?_)
  rintro _ vi ⟨hvi, hg⟩
  exact ⟨⟨h.epochState, h.known, hvi, h.records, h.coherent⟩, ⟨rfl, rfl, rfl, rfl, hg⟩⟩

lemma Keeps.dropNotFlushed_returns (h : p.Keeps cfg es D A S) :
    Returns (Poset.index Index.dropNotFlushed) p fun _ p' =>
      p'.Keeps cfg es D A A ∧ p.Indexes p' := by
  refine Returns.zoom (h.index.dropNotFlushed.mono ?_)
  rintro _ vi ⟨hvi, hg⟩
  exact ⟨⟨h.epochState, h.known, hvi, h.records, h.coherent⟩, ⟨rfl, rfl, rfl, rfl, hg⟩⟩

lemma mem_rootsOf_insert {getEvent : GetEvent} (he : getEvent e.hash = some e) {x : EventID} :
    x ∈ rootsOf getEvent (insert e.hash A) ↔
      x = e.hash ∧ e.isRoot = true ∨ x ∈ rootsOf getEvent A := by
  simp only [rootsOf, Set.mem_ofPred_eq, Finset.mem_insert]
  constructor
  · rintro ⟨rfl | hx, hroot⟩
    · exact Or.inl ⟨rfl, isRootOf_eq he ▸ hroot⟩
    · exact Or.inr ⟨hx, hroot⟩
  · rintro (⟨rfl, hroot⟩ | ⟨hx, hroot⟩)
    · exact ⟨Or.inl rfl, (isRootOf_eq he).trans hroot⟩
    · exact ⟨Or.inr hx, hroot⟩

lemma rootAndSlot_rootGraph (he : cfg.events es e.hash = some e) :
    (rootGraph cfg es D).rootAndSlot e.hash = rootRecord e := by
  simp only [RootGraph.rootAndSlot, rootGraph, slotOf, rootRecord, frameOf_eq he,
    creator_eventDag he]

/-- A saved root is among the roots of its frame. -/
lemma Keeps.saveEvent_returns (h : p.Keeps cfg es D A ↑(insert e.hash A))
    (hknown : Known cfg es D (insert e.hash A)) (he : cfg.events es e.hash = some e)
    (hstored : p.vecClock.getEvent e.hash = some e) (hnew : e.hash ∉ A) :
    Returns (saveEvent e) p fun _ => Accepts cfg es D A e p := by
  have hsource : ∀ x ∈ (↑(insert e.hash A) : Set EventID),
      p.vecClock.getEvent x = cfg.events es x := by
    intro x hx
    rcases Finset.mem_insert.mp (Finset.mem_coe.mp hx) with rfl | hx
    · rw [hstored, he]
    · exact h.index.source x hx
  have hflush : Returns (Poset.index Index.flush) p fun _ p' => ∃ vi : Index C.vec,
      vi.Inv cfg.maxParents es.validators (cfg.events es) ↑(insert e.hash A)
        ↑(insert e.hash A) ∧ vi.getEvent = p.vecClock.getEvent ∧ p' = { p with vecClock := vi } :=
    Returns.zoom ((h.index.flush hsource).mono fun _ vi hvi => ⟨vi, hvi.1, hvi.2, rfl⟩)
  refine hflush.bind ?_
  rintro _ _ ⟨vi, hvi, hg, rfl⟩
  have hnotRecord : rootRecord e ∉ p.roots.records := by
    intro hmem
    obtain ⟨x, hx, hr⟩ := (h.records _).mp hmem
    have hid : e.hash = x := congrArg RootAndSlot.id hr
    exact hnew (hid ▸ hx.1)
  split_ifs with hroot
  · refine Returns.modify ⟨⟨h.epochState, hknown, hvi, fun r => ?_,
      h.coherent.addRoot hnotRecord⟩, rfl, rfl, rfl, hg⟩
    simp only [RootsTable.records_addRoot, RootRecords.mem_put, h.records, mem_rootsOf_insert he,
      ← rootAndSlot_rootGraph (D := D) he]
    constructor
    · rintro (rfl | ⟨x, hx, rfl⟩)
      · exact ⟨e.hash, Or.inl ⟨rfl, hroot⟩, rfl⟩
      · exact ⟨x, Or.inr hx, rfl⟩
    · rintro ⟨x, ⟨rfl, -⟩ | hx, rfl⟩
      · exact Or.inl rfl
      · exact Or.inr ⟨x, hx, rfl⟩
  · refine Returns.pure ⟨⟨h.epochState, hknown, hvi, fun r => ?_, h.coherent⟩, rfl, rfl, rfl, hg⟩
    simp only [h.records, mem_rootsOf_insert he, hroot, and_false, false_or, Bool.false_eq_true]

variable (h : p.Keeps cfg es D A A) (hp : ∀ q ∈ e.parents, q ∈ A)
include h hp

/-- A parent is left out when the self-parent sees that its creator forked. -/
lemma Keeps.noCheaters_returns :
    Returns (Poset.index (Index.noCheaters e.selfParent e.parents)) p fun r p' =>
      p'.Keeps cfg es D A A ∧ p.Indexes p' ∧
        (r.length ≠ e.parents.length ↔ LinksCheater (cfg.events es) e) := by
  classical
  refine h.index_returns ((Index.noCheaters_returns h.index
    (fun q hq => hp q (Event.selfParent_mem hq)) hp).mono ?_)
  rintro _ vi ⟨hsame, rfl⟩
  refine ⟨h.index.same hsame, hsame.getEvent, ?_⟩
  rw [ne_eq, List.length_filter_eq_length_iff, LinksCheater]
  simp only [decide_eq_true_eq]
  push Not
  constructor
  · rintro ⟨x, hx, q, hq, hfork⟩
    exact ⟨q, hq, x, hx, hfork⟩
  · rintro ⟨q, hq, x, hx, hfork⟩
    exact ⟨x, hx, q, hq, hfork⟩

variable (hsrc : p.vecClock.getEvent = src es.epochN) (hstored : src es.epochN e.hash = some e)
  (he : Checked cfg.maxParents (cfg.events es) e) (hnew : e.hash ∉ A) (hD : e.hash ∈ D)
include hsrc hstored he hnew hD

lemma Keeps.addAndCheck_yields (hcreator : e.creator ∈ es.validators.members)
    (hverdict : addedVerdict cfg es e = none → verdict cfg es e = none) :
    Yields (es.validators.total < 2 ^ 64) (addAndCheck (cfg.over src) e) p fun r p' =>
      (r = none → verdict cfg es e = none ∧ Accepts cfg es D A e p p') ∧
      (r ≠ none → p'.Keeps cfg es D A A ∧ p.Same p') ∧
      (es.validators.total < 2 ^ 64 → r = addedVerdict cfg es e) := by
  refine (h.add_returns he hcreator hp).yields.bind ?_
  rintro _ p₁ ⟨h₁, hi₁⟩
  have hsame₁ := hi₁.same
  have hsrc₁ : p₁.vecClock.getEvent = src es.epochN := hsame₁.source.trans hsrc
  refine (h₁.checkAdded_yields hsrc₁ ⟨he, hp, Set.mem_insert _ _⟩).bind ?_
  rintro err p₂ ⟨h₂, hsame₂, hnone, hexact⟩
  have hsame := hsame₁.trans hsame₂
  cases err with
  | some err =>
    refine h₂.dropNotFlushed_returns.yields.bind ?_
    rintro _ p₃ ⟨h₃, hi₃⟩
    exact Yields.pure ⟨by simp, fun _ => ⟨h₃, hsame.trans hi₃.same⟩, hexact⟩
  | none =>
    have hok := hverdict (hnone rfl)
    rw [← Finset.coe_insert] at h₂
    have hstored₂ : p₂.vecClock.getEvent e.hash = some e := by
      rw [hsame₂.source, hsrc₁, hstored]
    refine (h₂.saveEvent_returns (h.known.insert_event he hok hD hp) he.stored hstored₂
      hnew).yields.bind ?_
    rintro _ p₃ h₃
    refine h₃.keeps.dropNotFlushed_returns.yields.bind ?_
    rintro _ p₄ ⟨h₄, hsame₄⟩
    exact Yields.pure ⟨fun _ => ⟨hok, h₄, hsame₄.chain.trans (h₃.chain.trans hsame.chain),
      hsame₄.epochDbs.trans (h₃.epochDbs.trans hsame.epochDbs),
      hsame₄.election.trans (h₃.election.trans hsame.election),
      hsame₄.source.trans (h₃.source.trans hsame.source)⟩, by simp, hexact⟩

/-- While the stakes fit, the result is the verdict of the graph. -/
lemma Keeps.checkAndSaveEvent_yields
    (hepoch : Epochcheck.validate es.validators es.epochN e = none) :
    Yields (es.validators.total < 2 ^ 64) (checkAndSaveEvent (cfg.over src) e) p fun r p' =>
      (r = none → verdict cfg es e = none ∧ Accepts cfg es D A e p p') ∧
      (r ≠ none → p'.Keeps cfg es D A A ∧ p.Same p') ∧
      (es.validators.total < 2 ^ 64 → r = verdict cfg es e) := by
  have hcreator := (Epochcheck.validate_eq_none.mp hepoch).2
  have hverdict : verdict cfg es e = saveVerdict cfg es e := by
    simp only [verdict, hepoch]
  refine Yields.get_bind ?_
  simp only [h.epochState, Config.genesisHash_over]
  by_cases hgenesis : e.seq ≤ 1 ∧ e.prevEpochHash ≠ cfg.genesisHash es.prevEpoch
  · rw [if_pos hgenesis]
    exact Yields.pure ⟨by simp, fun _ => ⟨h, Same.refl p⟩,
      fun _ => by rw [hverdict, saveVerdict, if_pos hgenesis]⟩
  rw [if_neg hgenesis]
  by_cases hzero : 1 < e.seq ∧ e.prevEpochHash ≠ 0
  · rw [if_pos hzero]
    exact Yields.pure ⟨by simp, fun _ => ⟨h, Same.refl p⟩,
      fun _ => by rw [hverdict, saveVerdict, if_neg hgenesis, if_pos hzero]⟩
  rw [if_neg hzero]
  refine (h.noCheaters_returns hp).yields.bind ?_
  rintro noCheaters p₁ ⟨h₁, hi₁, hlinks⟩
  have hsame₁ := hi₁.same
  by_cases hlength : noCheaters.length ≠ e.parents.length
  · rw [if_pos hlength]
    exact Yields.pure ⟨by simp, fun _ => ⟨h₁, hsame₁⟩, fun _ => by
      rw [hverdict, saveVerdict, if_neg hgenesis, if_neg hzero, if_pos (hlinks.mp hlength)]⟩
  rw [if_neg hlength]
  have hadded : verdict cfg es e = addedVerdict cfg es e := by
    rw [hverdict, saveVerdict, if_neg hgenesis, if_neg hzero, if_neg (mt hlinks.mpr hlength)]
  refine (h₁.addAndCheck_yields hp (hsame₁.source.trans hsrc) hstored he hnew hD hcreator
    fun hnone => hadded.trans hnone).mono ?_
  rintro r p₂ ⟨haccept, hreject, hexact⟩
  refine ⟨fun hr => ?_, fun hr => ?_, fun hV => (hexact hV).trans hadded.symm⟩
  · obtain ⟨hok, hkeeps, hchain, hdbs, helection, hsource⟩ := haccept hr
    exact ⟨hok, hkeeps, hchain.trans hsame₁.chain, hdbs.trans hsame₁.epochDbs,
      helection.trans hsame₁.election, hsource.trans hsame₁.source⟩
  · obtain ⟨h₂, hsame₂⟩ := hreject hr
    exact ⟨h₂, hsame₁.trans hsame₂⟩

end Save

end Poset

end Lachesis
