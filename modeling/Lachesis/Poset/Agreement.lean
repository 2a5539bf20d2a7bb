import Lachesis.Poset.Reachable

/-!
# Agreement

Two nodes begin an epoch with the same store. They are given events of one graph, each in an order of
its own in which parents come first. If the validators that fork in the graph hold less than a quorum
intersection, the nodes never disagree: the blocks of the one that is behind are the first blocks of
the other. Nodes that were given the same events have made the same blocks.
-/

namespace Lachesis

open Lachesis.Core

/-! ### The beginning of an epoch -/

/-- A store at the beginning of the epoch `es`: no frame of the epoch is decided, none of its events
is stored or confirmed. -/
structure Disk.Begins (disk : Disk) (checkpoint : Checkpoint) (es : EpochState) : Prop where
  lastDecidedFrame : checkpoint.lastDecidedFrame = 0
  checkpoint : disk.main.checkpoint = some checkpoint
  epoch : disk.main.epoch = some es
  confirmed : ∀ x, disk.main.confirmedEvent.confirmedOn x ≠ 0 → EventID.epoch x < es.epochN
  epochDb : disk.epochDbs[es.epochN]?.getD .empty = EpochDb.empty
  epochDbs : (disk.epochDbs.erase (es.epochN - 1)).erase es.epochN = ∅

namespace Disk.Begins

variable {disk : Disk} {checkpoint : Checkpoint} {es : EpochState} {cfg : Config} {D : Set EventID}

lemma genesis (V : Validators) (time : Timestamp) (genesisAtropos : EventID) (appHash : Hash) :
    (Disk.genesis V time genesisAtropos appHash).Begins ⟨0, 0, genesisAtropos, appHash⟩
      (Poset.genesisEpoch V time genesisAtropos appHash) where
  lastDecidedFrame := rfl
  checkpoint := rfl
  epoch := rfl
  confirmed x hx := absurd (by simp [Disk.genesis, Marks.confirmedOn]) hx
  epochDb := by simp [Disk.genesis]
  epochDbs := by
    ext n db
    simp [Disk.genesis]

lemma inv (h : disk.Begins checkpoint es) (calls : List Call) :
    Chain.Inv cfg es [] ⟨disk.main, checkpoint, es, calls⟩ where
  epochState := rfl
  lastDecidedFrame := h.lastDecidedFrame
  marks x hx := by
    rw [List.zipIdx_nil, firstFrame_nil]
    by_contra hne
    exact absurd (h.confirmed x hne) (by omega)
  old x hx := (h.confirmed x hx).le
  frameInfo hne := absurd rfl hne

lemma exists_bootstrap {C : PosetCaches} (h : disk.Begins checkpoint es) (hsafe : Safe cfg es D)
    (src : EventSource) (calls : List Call) :
    ∃ p : Poset C, Poset.bootstrap (cfg.over src) disk calls = .ok p ∧
      p.Goes True src cfg es D ∅ ⟨disk.main, checkpoint, es, calls⟩ := by
  have hrests : (Poset.load (cfg.over src) disk calls checkpoint es : Poset C).Rests src cfg es D ∅ :=
    Poset.rests_load h.checkpoint h.epoch calls (by rw [h.epochDb]; exact Poset.holds_empty) (by simp)
      h.epochDbs
  have hgoes := Poset.bootstrap_goes h.checkpoint h.epoch (hrests.reelect_yields
    ⟨disk.main, checkpoint, es, calls⟩ [] fun (_ : True) => ⟨⟨hsafe, h.inv calls⟩, .start, by
      simp only [Poset.load, h.lastDecidedFrame, List.length_nil]⟩)
  obtain ⟨p, hp⟩ := hgoes.2 trivial
  exact ⟨p, hp, hgoes.1 p hp⟩

end Disk.Begins

/-! ### Orders of events -/

/-- An order in which a node may be given events of `D`: an event of the epoch has passed the other
checks, is new and comes after its parents, which were accepted. The node has accepted the events of
the first set before, and those of the second one after it was given the events. -/
inductive Feed (src : EventSource) (cfg : Config) (es : EpochState) (D : Set EventID) :
    Finset EventID → List Event → Finset EventID → Prop
  | nil (A : Finset EventID) : Feed src cfg es D A [] A
  | accept {A A' : Finset EventID} {e : Event} {l : List Event} (ready : Poset.Ready src cfg es A e)
      (epoch : e.epoch = es.epochN) (mem : e.hash ∈ D) (ok : verdict cfg es e = none)
      (rest : Feed src cfg es D (insert e.hash A) l A') : Feed src cfg es D A (e :: l) A'
  | reject {A A' : Finset EventID} {e : Event} {l : List Event} (ready : Poset.Ready src cfg es A e)
      (epoch : e.epoch = es.epochN) (mem : e.hash ∈ D) (failed : verdict cfg es e ≠ none)
      (rest : Feed src cfg es D A l A') : Feed src cfg es D A (e :: l) A'

section Feed

variable {src : EventSource} {cfg : Config} {es : EpochState} {D : Set EventID}
variable {A A' : Finset EventID} {l : List Event}

/-- Exactly the events with a good verdict are accepted. -/
lemma Feed.mem_iff (h : Feed src cfg es D A l A') {x : EventID} :
    x ∈ A' ↔ x ∈ A ∨ ∃ e ∈ l, verdict cfg es e = none ∧ e.hash = x := by
  induction h with
  | nil A => simp
  | accept _ _ _ ok _ ih =>
    rw [ih, Finset.mem_insert]
    constructor
    · rintro ((rfl | hx) | ⟨e, he, hx⟩)
      · exact Or.inr ⟨_, List.mem_cons_self, ok, rfl⟩
      · exact Or.inl hx
      · exact Or.inr ⟨e, List.mem_cons_of_mem _ he, hx⟩
    · rintro (hx | ⟨e, he, hok, rfl⟩)
      · exact Or.inl (Or.inr hx)
      · rcases List.mem_cons.mp he with rfl | he
        · exact Or.inl (Or.inl rfl)
        · exact Or.inr ⟨e, he, hok, rfl⟩
  | reject _ _ _ failed _ ih =>
    rw [ih]
    constructor
    · rintro (hx | ⟨e, he, hx⟩)
      · exact Or.inl hx
      · exact Or.inr ⟨e, List.mem_cons_of_mem _ he, hx⟩
    · rintro (hx | ⟨e, he, hok, rfl⟩)
      · exact Or.inl hx
      · rcases List.mem_cons.mp he with rfl | he
        · exact absurd hok failed
        · exact Or.inr ⟨e, he, hok, rfl⟩

/-- The same events are accepted in every order. -/
lemma Feed.eq_of_mem_iff {src' : EventSource} {l' : List Event} {B B' : Finset EventID}
    (h : Feed src cfg es D A l B) (h' : Feed src' cfg es D A l' B') (hl : ∀ e, e ∈ l ↔ e ∈ l') :
    B = B' := by
  ext x
  rw [h.mem_iff, h'.mem_iff]
  simp only [hl]

end Feed

/-! ### The decisions of a run -/

namespace Poset

variable {C : PosetCaches} {src : EventSource} {cfg : Config} {es : EpochState} {D : Set EventID}
variable {A A' : Finset EventID} {p : Poset C} {c₀ : Chain} {as : List EventID} {e : Event}
variable {l : List Event}

/-- Between two calls nothing is left to decide. -/
lemma Elects.settled (h : p.Elects cfg es D A c₀ as) :
    Settled cfg es D (rootsOf (cfg.events es) A) c₀ as false p.chain := by
  obtain ⟨P, -, hopen, hP⟩ := h.opened
  refine ⟨h.decided, fun _ a ha => hopen.not_elected a (ha.of_above fun r _ hframe hr => ?_)⟩
  change as.length + 1 + 2 ≤ frameOf (cfg.events es) r at hframe
  exact hP r hr (by omega)

lemma Goes.settled (h : p.Goes True src cfg es D A c₀) :
    ∃ as s, Settled cfg es D (rootsOf (cfg.events es) A) c₀ as s p.chain := by
  cases h with
  | on _ helects =>
    obtain ⟨as, helects⟩ := helects trivial
    exact ⟨as, false, helects.settled⟩
  | ended _ hdecided =>
    obtain ⟨as, hdecided⟩ := hdecided trivial
    exact ⟨as, true, hdecided, by simp⟩

/-- An event of an epoch that is over is rejected. -/
lemma Seals.processEvent_returns (h : p.Seals src cfg es) (hepoch : e.epoch = es.epochN) :
    Returns (processEvent (cfg.over src) e) p fun r p' => r ≠ none ∧ p' = p := by
  refine Returns.get_bind ?_
  dsimp only
  cases hvalid : Epochcheck.validate p.epochState.validators p.epochState.epochN e with
  | some err => exact Returns.pure ⟨by simp, rfl⟩
  | none =>
    have hnext := (Epochcheck.validate_eq_none.mp hvalid).1
    rw [h.epochN] at hnext
    omega

lemma Goes.processEvent_returns (hfair : Fair cfg es D c₀) (h : p.Goes True src cfg es D A c₀)
    (hready : Ready src cfg es A e) (hepoch : e.epoch = es.epochN) (hD : e.hash ∈ D) :
    Returns (processEvent (cfg.over src) e) p fun _ p' =>
      (verdict cfg es e = none → p'.Goes True src cfg es D (insert e.hash A) c₀) ∧
      (verdict cfg es e ≠ none → p'.Goes True src cfg es D A c₀) := by
  cases h with
  | on hrests helects =>
    have hyields := hrests.processEvent_yields c₀ (fun _ => ⟨hready, hD⟩) fun _ : True =>
      ⟨hfair, helects trivial⟩
    obtain ⟨⟨r, p'⟩, hrun⟩ := hyields.returns trivial
    obtain ⟨haccept, hreject, hverdict⟩ := hyields.returned r p' hrun
    rw [hverdict (hfair.safe.total_lt.trans (by decide))] at haccept hreject
    refine ⟨r, p', hrun, fun hok => (haccept hok).2, fun hfailed => ?_⟩
    obtain ⟨hkeeps, hsame⟩ := hreject hfailed
    refine .on (hsame.rests hrests hkeeps) fun _ => ?_
    obtain ⟨as, helects⟩ := helects trivial
    exact ⟨as, hsame.elects helects⟩
  | ended hseals hdecided =>
    refine (hseals.processEvent_returns hepoch).mono ?_
    rintro _ _ ⟨-, rfl⟩
    refine ⟨fun _ => .ended hseals fun _ => ?_, fun _ => .ended hseals hdecided⟩
    obtain ⟨as, hdecided⟩ := hdecided trivial
    exact ⟨as, hdecided.mono fun x hx => ⟨Finset.mem_insert_of_mem hx.1, hx.2⟩⟩

/-- No event of a feed stops the node. -/
lemma Goes.processEvents_returns (hfair : Fair cfg es D c₀) (h : p.Goes True src cfg es D A c₀)
    (hfeed : Feed src cfg es D A l A') :
    Returns (processEvents (cfg.over src) l) p fun _ p' => p'.Goes True src cfg es D A' c₀ := by
  induction hfeed generalizing p with
  | nil A => exact Returns.pure h
  | accept hready hepoch hD hok _ ih =>
    rw [processEvents, List.mapM_cons]
    refine (h.processEvent_returns hfair hready hepoch hD).bind ?_
    rintro r p₁ ⟨hgoes, -⟩
    refine (ih (hgoes hok)).bind ?_
    rintro rs p₂ hgoes₂
    exact Returns.pure hgoes₂
  | reject hready hepoch hD hfailed _ ih =>
    rw [processEvents, List.mapM_cons]
    refine (h.processEvent_returns hfair hready hepoch hD).bind ?_
    rintro r p₁ ⟨-, hgoes⟩
    refine (ih (hgoes hfailed)).bind ?_
    rintro rs p₂ hgoes₂
    exact Returns.pure hgoes₂

lemma exists_run {disk : Disk} {checkpoint : Checkpoint} (hbegins : disk.Begins checkpoint es)
    (hsafe : Safe cfg es D) (calls : List Call) (hfeed : Feed src cfg es D ∅ l A) :
    ∃ (r : List (Option ProcessErr)) (p : Poset C), run (cfg.over src) disk calls l = .ok (r, p) ∧
      p.Goes True src cfg es D A ⟨disk.main, checkpoint, es, calls⟩ := by
  obtain ⟨p₀, hp₀, hgoes₀⟩ := hbegins.exists_bootstrap (C := C) hsafe src calls
  obtain ⟨r, p, hrun, hgoes⟩ :=
    hgoes₀.processEvents_returns ⟨hsafe, hbegins.inv calls⟩ hfeed
  exact ⟨r, p, by rw [run, hp₀]; exact hrun, hgoes⟩

/-- Of two nodes of an epoch, one has made the first calls of the other. -/
lemma Goes.calls_comparable {C' : PosetCaches} {src' : EventSource} {p' : Poset C'}
    (hsafe : Safe cfg es D) (h : p.Goes True src cfg es D A c₀)
    (h' : p'.Goes True src' cfg es D A' c₀) :
    p.chain.calls <+: p'.chain.calls ∨ p'.chain.calls <+: p.chain.calls := by
  obtain ⟨as, s, hsettled⟩ := h.settled
  obtain ⟨as', s', hsettled'⟩ := h'.settled
  rcases lt_trichotomy as.length as'.length with hlt | heq | hgt
  · exact Or.inl (hsettled.1.comparable hsafe hsettled'.1 hlt).2.1
  · obtain ⟨-, -, hchain⟩ := hsettled.1.unique hsafe hsettled'.1 heq
    rw [hchain]
    exact Or.inl List.prefix_rfl
  · exact Or.inr (hsettled'.1.comparable hsafe hsettled.1 hgt).2.1

lemma Goes.chain_eq {C' : PosetCaches} {src' : EventSource} {p' : Poset C'}
    (hsafe : Safe cfg es D) (h : p.Goes True src cfg es D A c₀)
    (h' : p'.Goes True src' cfg es D A c₀) : p.chain = p'.chain := by
  obtain ⟨as, s, hsettled⟩ := h.settled
  obtain ⟨as', s', hsettled'⟩ := h'.settled
  exact (hsettled.unique hsafe hsettled').2.2

/-- Two nodes that begin an epoch with the same store and are given events of one graph, each in an
order of its own, pass comparable sequences of blocks to `ApplyBlock`. If they are given the same
events, the blocks and the checkpoints are the same. -/
theorem run_agree (C₁ C₂ : PosetCaches) {src₁ src₂ : EventSource} {disk : Disk}
    {checkpoint : Checkpoint} (hbegins : disk.Begins checkpoint es) (hsafe : Safe cfg es D)
    (calls : List Call) {l₁ l₂ : List Event} {A₁ A₂ : Finset EventID}
    (h₁ : Feed src₁ cfg es D ∅ l₁ A₁) (h₂ : Feed src₂ cfg es D ∅ l₂ A₂) :
    ∃ (r₁ r₂ : List (Option ProcessErr)) (p₁ : Poset C₁) (p₂ : Poset C₂),
      run (cfg.over src₁) disk calls l₁ = .ok (r₁, p₁) ∧
      run (cfg.over src₂) disk calls l₂ = .ok (r₂, p₂) ∧
      (appliedBlocks p₁.chain.calls <+: appliedBlocks p₂.chain.calls ∨
        appliedBlocks p₂.chain.calls <+: appliedBlocks p₁.chain.calls) ∧
      ((∀ e, e ∈ l₁ ↔ e ∈ l₂) → appliedBlocks p₁.chain.calls = appliedBlocks p₂.chain.calls ∧
        p₁.chain.checkpoint = p₂.chain.checkpoint) := by
  obtain ⟨r₁, p₁, hrun₁, hgoes₁⟩ := exists_run (C := C₁) hbegins hsafe calls h₁
  obtain ⟨r₂, p₂, hrun₂, hgoes₂⟩ := exists_run (C := C₂) hbegins hsafe calls h₂
  refine ⟨r₁, r₂, p₁, p₂, hrun₁, hrun₂, ?_, fun hl => ?_⟩
  · exact (hgoes₁.calls_comparable hsafe hgoes₂).imp (·.filterMap _) (·.filterMap _)
  · obtain rfl := h₁.eq_of_mem_iff h₂ hl
    rw [hgoes₁.chain_eq hsafe hgoes₂]
    exact ⟨rfl, rfl⟩

/-! ### A validator that forks -/

/-- Each event of the list comes after its parents. -/
def ParentsFirst : Finset EventID → List Event → Prop
  | _, [] => True
  | A, e :: l => (∀ q ∈ e.parents, q ∈ A) ∧ e.hash ∉ A ∧ ParentsFirst (insert e.hash A) l

instance : ∀ A l, Decidable (ParentsFirst A l)
  | _, [] => inferInstanceAs (Decidable True)
  | A, e :: l =>
    have := instDecidableParentsFirst (insert e.hash A) l
    inferInstanceAs (Decidable (_ ∧ _ ∧ _))

lemma processEvents_cons_eq_ok_iff {l : List Event} {r : Option ProcessErr}
    {rs : List (Option ProcessErr)} {p' : Poset C} :
    (processEvents cfg (e :: l)).run p = .ok (r :: rs, p') ↔
      ∃ p₁, (processEvent cfg e).run p = .ok (r, p₁) ∧
        (processEvents cfg l).run p₁ = .ok (rs, p') := by
  rw [processEvents, List.mapM_cons, StateT.run_bind]
  constructor
  · intro hrun
    obtain ⟨⟨r, p₁⟩, hfirst, hrun⟩ := bind_eq_ok_iff.mp hrun
    obtain ⟨⟨rs, p₂⟩, hrest, hrun⟩ := run_bind_eq_ok_iff.mp hrun
    cases hrun
    exact ⟨p₁, hfirst, hrest⟩
  · rintro ⟨p₁, hfirst, hrest⟩
    refine bind_eq_ok_iff.mpr ⟨_, hfirst, ?_⟩
    rw [StateT.run_bind]
    exact bind_eq_ok_iff.mpr ⟨_, hrest, rfl⟩

/-- An event of the epoch is accepted before its end only. -/
lemma Goes.accepted (hfair : Fair cfg es D c₀) (h : p.Goes True src cfg es D A c₀)
    (hready : Ready src cfg es A e) (hepoch : e.epoch = es.epochN) (hD : e.hash ∈ D) {p' : Poset C}
    (hrun : (processEvent (cfg.over src) e).run p = .ok (none, p')) :
    p.epochState = es ∧ verdict cfg es e = none ∧
      p'.Goes True src cfg es D (insert e.hash A) c₀ := by
  have hboth : p.epochState = es ∧ verdict cfg es e = none := by
    cases h with
    | on hrests helects =>
      exact ⟨hrests.epochState, (((hrests.processEvent_yields c₀ (fun _ => ⟨hready, hD⟩)
        False.elim).returned _ _ hrun).1 rfl).1⟩
    | ended hseals => exact absurd rfl ((hseals.processEvent_returns hepoch).of_run hrun).1
  exact ⟨hboth.1, hboth.2,
    ((h.processEvent_returns hfair hready hepoch hD).of_run hrun).1 hboth.2⟩

lemma Goes.feed (hfair : Fair cfg es D c₀) (h : p.Goes True src cfg es D A c₀)
    (hparents : ParentsFirst A l) (hl : ∀ e ∈ l, src es.epochN e.hash = some e ∧
      Checked cfg.maxParents (cfg.events es) e ∧ e.epoch = es.epochN ∧ e.hash ∈ D)
    {p' : Poset C} (hrun : (processEvents (cfg.over src) l).run p = .ok (l.map fun _ => none, p')) :
    ∃ A', Feed src cfg es D A l A' := by
  induction l generalizing A p with
  | nil => exact ⟨A, .nil A⟩
  | cons e l ih =>
    obtain ⟨hp, hnew, hparents⟩ := hparents
    obtain ⟨⟨hstored, hchecked, hepoch, hD⟩, hl⟩ := List.forall_mem_cons.mp hl
    obtain ⟨p₁, hfirst, hrest⟩ := processEvents_cons_eq_ok_iff.mp hrun
    have hready : Ready src cfg es A e := ⟨hstored, hchecked, hp, hnew⟩
    obtain ⟨-, hok, hgoes⟩ := h.accepted hfair hready hepoch hD hfirst
    obtain ⟨A', hfeed⟩ := ih hgoes hparents hl hrest
    exact ⟨A', .accept hready hepoch hD hok hfeed⟩

/-- The atropoi of the blocks that the application got. -/
def atropoi (p : Poset C) : List EventID := (appliedBlocks p.chain.calls).map (·.1.atropos)

namespace TwoOrders

/-- The stake of the second validator is less than a quorum intersection. -/
def validators : Validators := ⟨[⟨1, 3⟩, ⟨2, 1⟩], by decide, by decide, by decide⟩

/-- The events of the first validator. -/
def first : Event := ⟨1, 1, 1, true, 1, 7, [], 1, 10, 10, 1⟩

@[inherit_doc first]
def second : Event := ⟨1, 2, 2, true, 1, 0, [first.hash], 2, 20, 20, 2⟩

@[inherit_doc first]
def third : Event := ⟨1, 3, 3, true, 1, 0, [second.hash], 3, 30, 30, 3⟩

@[inherit_doc first]
def fourth : Event := ⟨1, 4, 4, true, 1, 0, [third.hash], 4, 40, 40, 6⟩

/-- The second validator forks. -/
def fork : Event := ⟨1, 1, 1, true, 2, 7, [], 1, 10, 1, 4⟩

@[inherit_doc fork]
def fork' : Event := ⟨1, 1, 1, true, 2, 7, [], 1, 20, 1, 5⟩

/-- Events that decide a frame, -/
def earlier : List Event := [fork, first, fork', second, third]

/-- one more, which decides the next frame, -/
def events : List Event := earlier ++ [fourth]

/-- and the order in which another node gets them. -/
def reordered : List Event := [first, second, fork', third, fourth, fork]

def graph : Set EventID := {x | x ∈ events.map Event.hash}

def stored : EventSource := fun _ => lookup events

/-- An application that takes blocks. -/
def config : Config where
  maxParents := 3
  input := stored
  callback := ⟨some fun _ _ _ _ => (5, false), none, false, none⟩
  genesisHash _ := 7
  hashOf _ _ := 0

def epoch : EpochState := genesisEpoch validators 1 0 0

/-- A node given the events in some order. -/
def ran (l : List Event) : Except Fault (List (Option ProcessErr) × Poset Solo.caches) :=
  run (config.over stored) (Disk.genesis validators 1 0 0) [] l

lemma safe : Safe config epoch graph where
  total_lt := by decide +kernel
  forks_lt := by
    classical
    have hfirst : ∀ x ∈ events.map Event.hash, ∀ y ∈ events.map Event.hash,
        (config.dag epoch).creator x = 1 → x ≠ y →
        (config.dag epoch).creator x =
          (config.dag epoch).creator y →
        (config.dag epoch).seq x ≠
          (config.dag epoch).seq y := by decide +kernel
    have hsub : epoch.validators.members.filter
        ((config.dag epoch).Forks graph) ⊆ {2} := by
      intro v hv
      obtain ⟨hv, x, hx, y, hy, hxv, hfork⟩ := Finset.mem_filter.mp hv
      have hmem : v = 1 ∨ v = 2 := by
        simpa [epoch, genesisEpoch, validators, Validators.members, Validators.ids] using hv
      rcases hmem with rfl | rfl
      · exact absurd hfork.2.2 (hfirst x hx y hy hxv hfork.1 hfork.2.1)
      · exact Finset.mem_singleton_self _
    refine lt_of_le_of_lt (Nat.add_le_add_right (weight_mono _ hsub) _) ?_
    decide +kernel

lemma checked : ∀ e ∈ events, stored epoch.epochN e.hash = some e ∧
    Checked config.maxParents (config.events epoch) e ∧ e.epoch = epoch.epochN ∧
    e.hash ∈ graph := by
  simp only [graph, Set.mem_ofPred_eq]
  decide +kernel

lemma feed {l : List Event} (hl : ∀ e ∈ l, e ∈ events)
    (hparents : ParentsFirst ∅ l) (hrun : (ran l).map (·.1) = .ok (l.map fun _ => none)) :
    ∃ A, Feed stored config epoch graph ∅ l A := by
  have hbegins := Disk.Begins.genesis validators 1 0 0
  obtain ⟨p, hp, hgoes⟩ := hbegins.exists_bootstrap (C := Solo.caches) safe stored []
  obtain ⟨⟨r, p'⟩, hrun, rfl⟩ := map_eq_ok_iff.mp hrun
  rw [ran, run, hp] at hrun
  exact hgoes.feed ⟨safe, hbegins.inv []⟩ hparents (fun e he => checked e (hl e he)) hrun

end TwoOrders

open TwoOrders in
theorem run_agree_twoOrders : ∃ (r₁ r₂ : List (Option ProcessErr)) (p₁ p₂ : Poset Solo.caches),
    ran events = .ok (r₁, p₁) ∧ ran reordered = .ok (r₂, p₂) ∧
    p₁.atropoi = [first.hash, second.hash] ∧
    appliedBlocks p₁.chain.calls = appliedBlocks p₂.chain.calls ∧
    p₁.chain.checkpoint = p₂.chain.checkpoint := by
  obtain ⟨A₁, h₁⟩ := feed (l := events) (by decide +kernel) (by decide +kernel) (by decide +kernel)
  obtain ⟨A₂, h₂⟩ := feed (l := reordered) (by decide +kernel) (by decide +kernel)
    (by decide +kernel)
  obtain ⟨r₁, r₂, p₁, p₂, hrun₁, hrun₂, -, hagree⟩ := run_agree Solo.caches
    Solo.caches (Disk.Begins.genesis validators 1 0 0) safe [] h₁ h₂
  obtain ⟨⟨r, p⟩, hrun, hatropos⟩ := map_eq_ok_iff.mp (by decide +kernel :
    (ran events).map (·.2.atropoi) = .ok [first.hash, second.hash])
  rw [ran, hrun₁] at hrun
  cases hrun
  have hperm : events.Perm reordered := by decide +kernel
  exact ⟨r₁, r₂, p₁, p₂, hrun₁, hrun₂, hatropos, hagree fun e => hperm.mem_iff⟩

end Poset

end Lachesis
