import Lachesis.Poset.Agreement

/-!
# Restarts

A node that is started over the store of another one finds the events of its epoch there, but builds
the election and the caches anew, with the roots in the order of the store. Between two calls all is
decided that the accepted events allow. So the new node has nothing to decide, and from then on the
two nodes go in step: they return the same results and have the same chain after every call, over any
number of epochs.
-/

namespace Lachesis

open Lachesis.Core

namespace Poset

variable {C C' : PosetCaches} {src : EventSource} {cfg : Config} {es : EpochState}
variable {A : Finset EventID} {p p' : Poset C} {q q' : Poset C'} {c₀ : Chain} {e : Event}

/-! ### Two nodes in step -/

section Deciding

variable {D : Set EventID}

/-- A node between two calls that has begun the epoch `es` with the chain `c₀` and has accepted the
events of `A` since; it has decided all that they allow. -/
structure Deciding (src : EventSource) (cfg : Config) (es : EpochState) (D : Set EventID)
    (A : Finset EventID) (c₀ : Chain) (p : Poset C) : Prop where
  fair : Fair cfg es D c₀
  rests : p.Rests src cfg es D A
  elects : ∃ as, p.Elects cfg es D A c₀ as

lemma Deciding.goes (h : p.Deciding src cfg es D A c₀) : p.Goes True src cfg es D A c₀ :=
  .on h.rests fun _ => h.elects

lemma Deciding.epochState (h : p.Deciding src cfg es D A c₀) : p.epochState = es :=
  h.rests.epochState

lemma Deciding.same (h : p.Deciding src cfg es D A c₀) (hkeeps : p'.Keeps cfg es D A A)
    (hsame : p.Same p') : p'.Deciding src cfg es D A c₀ := by
  obtain ⟨as, helects⟩ := h.elects
  exact ⟨h.fair, hsame.rests h.rests hkeeps, as, hsame.elects helects⟩

lemma Goes.deciding (hfair : Fair cfg es D c₀) (h : p.Goes True src cfg es D A c₀)
    (hn : p.epochState.epochN = es.epochN) : p.Deciding src cfg es D A c₀ := by
  cases h with
  | on hrests helects => exact ⟨hfair, hrests, helects trivial⟩
  | ended hseals =>
    have hnext := hseals.epochN
    omega

lemma Goes.deciding_next (hfair : Fair cfg es D c₀) (h : p.Goes True src cfg es D A c₀)
    (hn : p.epochState.epochN ≠ es.epochN) {D' : Set EventID} (hsafe : Safe cfg p.epochState D') :
    p.Deciding src cfg p.epochState D' ∅ p.chain := by
  cases h with
  | on hrests => exact absurd (congrArg EpochState.epochN hrests.epochState) hn
  | ended hseals hdecided =>
    obtain ⟨as, hdecided⟩ := hdecided trivial
    have hfair' : Fair cfg p.epochState D' p.chain :=
      ⟨hsafe, ((hdecided.inv hfair.start).2 rfl).1⟩
    refine ⟨hfair', hseals.rests D', [], .start, ∅, Set.empty_subset _, ?_, ?_⟩
    · rw [hseals.election]
      exact hfair'.open_new 0
    · rintro x ⟨hx, -⟩
      exact absurd hx (Finset.notMem_empty x)

lemma Deciding.chain_eq (h : p.Deciding src cfg es D A c₀) (h' : q.Deciding src cfg es D A c₀) :
    p.chain = q.chain :=
  h.goes.chain_eq h.fair.safe h'.goes

lemma Deciding.processEvent_returns (h : p.Deciding src cfg es D A c₀)
    (he : Epochcheck.validate es.validators es.epochN e = none →
      Ready src cfg es A e ∧ e.hash ∈ D) :
    Returns (processEvent (cfg.over src) e) p fun r p' => r = verdict cfg es e ∧
      (r = none → p'.Goes True src cfg es D (insert e.hash A) c₀) ∧
      (r ≠ none → p'.Deciding src cfg es D A c₀) := by
  refine ((h.rests.processEvent_yields c₀ he fun _ : True => ⟨h.fair, h.elects⟩).toReturns
    trivial).mono ?_
  rintro r p' ⟨haccept, hreject, hverdict⟩
  refine ⟨hverdict (h.fair.safe.total_lt.trans (by decide)), fun hr => (haccept hr).2, fun hr => ?_⟩
  obtain ⟨hkeeps, hsame⟩ := hreject hr
  exact h.same hkeeps hsame

/-- A node that is started over what another one has left behind decides nothing. -/
lemma Deciding.exists_bootstrap (C' : PosetCaches) (h : p.Deciding src cfg es D A c₀) :
    ∃ q : Poset C', bootstrap (cfg.over src) p.disk p.chain.calls = .ok q ∧
      q.Deciding src cfg es D A c₀ := by
  obtain ⟨as, helects⟩ := h.elects
  have hlast := ((helects.decided.inv h.fair.start).1 rfl).lastDecidedFrame
  have hload : (load (cfg.over src) p.disk p.chain.calls p.chain.checkpoint es : Poset C').Rests src
      cfg es D A :=
    rests_load h.rests.checkpoint h.rests.epoch _ h.rests.holds_disk.1
      (fun _ hx => h.rests.toKeeps.source_eq h.rests.source hx) h.rests.holds_disk.2
  have hchain : (load (cfg.over src) p.disk p.chain.calls p.chain.checkpoint es : Poset C').chain =
      p.chain := by
    rw [← h.epochState]
    rfl
  have hgoes := bootstrap_goes h.rests.checkpoint h.rests.epoch
    (hload.reelect_yields c₀ as fun _ : True => ⟨h.fair, hchain ▸ helects.decided, by
      rw [← hlast]
      rfl⟩)
  obtain ⟨q, hq⟩ := hgoes.2 trivial
  have hgoes := hgoes.1 q hq
  have heq := h.goes.chain_eq h.fair.safe hgoes
  refine ⟨q, hq, hgoes.deciding h.fair ?_⟩
  rw [Poset.epochState, ← heq]
  exact congrArg EpochState.epochN h.epochState

end Deciding

/-! ### Runs over several epochs -/

variable {D : ℕ → Set EventID}

/-- The events accepted in the epoch of the node `p'`, after `p` has returned `r` for the event `e`. -/
def acceptedAfter (p : Poset C) (A : Finset EventID) (e : Event) (r : Option ProcessErr)
    (p' : Poset C) : Finset EventID :=
  if r = none then p'.remaining p.epochState.epochN (insert e.hash A) else A

/-- The node `p`, which has accepted the events of `A` in its epoch, takes events and returns results,
one for each. An event of the epoch has passed the other checks, is new and comes after its parents;
`D` has the events of each epoch, and the validators that fork among them hold less than a quorum
intersection. -/
inductive Takes (src : EventSource) (cfg : Config) (D : ℕ → Set EventID) :
    Finset EventID → Poset C → List Event → List (Option ProcessErr) → Finset EventID → Poset C → Prop
  | nil (A : Finset EventID) (p : Poset C) : Takes src cfg D A p [] [] A p
  | cons {A A' : Finset EventID} {p p₁ p' : Poset C} {e : Event} {events : List Event}
      {r : Option ProcessErr} {results : List (Option ProcessErr)}
      (ready : Epochcheck.validate p.epochState.validators p.epochState.epochN e = none →
        Ready src cfg p.epochState A e ∧ e.hash ∈ D p.epochState.epochN)
      (run : (processEvent (cfg.over src) e).run p = .ok (r, p₁))
      (safe : Safe cfg p₁.epochState (D p₁.epochState.epochN))
      (rest : Takes src cfg D (p.acceptedAfter A e r p₁) p₁ events results A' p') :
      Takes src cfg D A p (e :: events) (r :: results) A' p'

/-- Two nodes in step: they have begun the epoch with one chain, have accepted the same events and
decided all that these allow. -/
def InStep (src : EventSource) (cfg : Config) (D : ℕ → Set EventID) (A : Finset EventID)
    (p : Poset C) (q : Poset C') : Prop :=
  ∃ c₀, p.Deciding src cfg p.epochState (D p.epochState.epochN) A c₀ ∧
    q.Deciding src cfg p.epochState (D p.epochState.epochN) A c₀

lemma InStep.chain_eq (h : InStep src cfg D A p q) : q.chain = p.chain := by
  obtain ⟨c₀, hp, hq⟩ := h
  exact hq.chain_eq hp

/-- Both nodes return the same and stay in step. -/
lemma InStep.processEvent_run (h : InStep src cfg D A p q)
    (he : Epochcheck.validate p.epochState.validators p.epochState.epochN e = none →
      Ready src cfg p.epochState A e ∧ e.hash ∈ D p.epochState.epochN)
    {r : Option ProcessErr} (hrun : (processEvent (cfg.over src) e).run p = .ok (r, p'))
    (hsafe : Safe cfg p'.epochState (D p'.epochState.epochN)) :
    ∃ q', (processEvent (cfg.over src) e).run q = .ok (r, q') ∧
      InStep src cfg D (p.acceptedAfter A e r p') p' q' := by
  obtain ⟨c₀, hp, hq⟩ := h
  obtain ⟨hr, haccept, hreject⟩ := (hp.processEvent_returns he).of_run hrun
  obtain ⟨r', q', hrun', hr', haccept', hreject'⟩ := hq.processEvent_returns he
  obtain rfl : r = r' := hr.trans hr'.symm
  refine ⟨q', hrun', ?_⟩
  rw [acceptedAfter]
  split_ifs with hnone
  · have hgoes := haccept hnone
    have hgoes' := haccept' hnone
    have hchain := hgoes.chain_eq hp.fair.safe hgoes'
    rw [remaining]
    split_ifs with hn
    · have hdeciding := hgoes.deciding hp.fair hn
      refine ⟨c₀, ?_⟩
      rw [hdeciding.epochState]
      exact ⟨hdeciding, hgoes'.deciding hp.fair (by rwa [epochState, ← hchain])⟩
    · have hdeciding := hgoes.deciding_next hp.fair hn hsafe
      rw [epochState, hchain] at hn hsafe
      have hdeciding' := hgoes'.deciding_next hp.fair hn hsafe
      rw [epochState, ← hchain] at hdeciding'
      exact ⟨p'.chain, hdeciding, hdeciding'⟩
  · have hdeciding := hreject hnone
    refine ⟨c₀, ?_⟩
    rw [hdeciding.epochState]
    exact ⟨hdeciding, hreject' hnone⟩

lemma InStep.processEvents_run {A' : Finset EventID} {events : List Event}
    {results : List (Option ProcessErr)} (hrun : Takes src cfg D A p events results A' p')
    (h : InStep src cfg D A p q) :
    ∃ q', (processEvents (cfg.over src) events).run q = .ok (results, q') ∧
      InStep src cfg D A' p' q' := by
  induction hrun generalizing q with
  | nil A p => exact ⟨q, rfl, h⟩
  | cons ready run safe _ ih =>
    obtain ⟨q₁, hrun₁, h₁⟩ := h.processEvent_run ready run safe
    obtain ⟨q', hrun', h'⟩ := ih h₁
    exact ⟨q', processEvents_cons_eq_ok_iff.mpr ⟨q₁, hrun₁, hrun'⟩, h'⟩

lemma InStep.exists_bootstrap (C' : PosetCaches) (h : InStep src cfg D A p p) :
    ∃ q : Poset C', bootstrap (cfg.over src) p.disk p.chain.calls = .ok q ∧
      InStep src cfg D A p q := by
  obtain ⟨c₀, hp, -⟩ := h
  obtain ⟨q, hq, hdeciding⟩ := hp.exists_bootstrap C'
  exact ⟨q, hq, c₀, hp, hdeciding⟩

lemma inStep_genesis {V : Validators} {time : Timestamp} {genesisAtropos : EventID} {appHash : Hash}
    {calls : List Call} (hsafe : Safe cfg (genesisEpoch V time genesisAtropos appHash) (D 1))
    (hstart : bootstrap (cfg.over src) (Disk.genesis V time genesisAtropos appHash) calls = .ok p) :
    InStep src cfg D ∅ p p := by
  have hbegins := Disk.Begins.genesis V time genesisAtropos appHash
  obtain ⟨p', hp', hgoes⟩ := hbegins.exists_bootstrap (C := C) hsafe src calls
  rw [hstart] at hp'
  cases hp'
  have hn : p.epochState.epochN = 1 := by
    cases hgoes with
    | on hrests => exact congrArg EpochState.epochN hrests.epochState
    | ended _ hdecided =>
      -- without roots nothing is elected
      obtain ⟨as, hdecided⟩ := hdecided trivial
      cases hdecided with
      | next _ elected =>
        obtain ⟨_, _, _, -, -, ⟨r, hr, -⟩, -⟩ := elected
        exact absurd hr.1 (Finset.notMem_empty r)
  have hdeciding := hgoes.deciding ⟨hsafe, hbegins.inv calls⟩ hn
  rw [InStep, hdeciding.epochState]
  exact ⟨_, hdeciding, hdeciding⟩

/-- Restarts are transparent: a node that is started over what another one leaves behind between two
calls does not call the application while it starts, and from then on both return the same results
and have the same chain. -/
theorem bootstrap_transparent (C' : PosetCaches) {V : Validators} {time : Timestamp}
    {genesisAtropos : EventID} {appHash : Hash} {calls : List Call}
    (hsafe : Safe cfg (genesisEpoch V time genesisAtropos appHash) (D 1)) {p₀ : Poset C}
    (hstart : bootstrap (cfg.over src) (Disk.genesis V time genesisAtropos appHash) calls = .ok p₀)
    {events : List Event} {results : List (Option ProcessErr)}
    (hrun : Takes src cfg D ∅ p₀ events results A p) :
    ∃ q : Poset C', bootstrap (cfg.over src) p.disk p.chain.calls = .ok q ∧ q.chain = p.chain ∧
      ∀ (events' : List Event) (results' : List (Option ProcessErr)) (A' : Finset EventID)
        (p' : Poset C), Takes src cfg D A p events' results' A' p' →
        (∃ q' : Poset C', (processEvents (cfg.over src) events').run q = .ok (results', q') ∧
          q'.chain = p'.chain) ∧
        ∀ e, (Epochcheck.validate p'.epochState.validators p'.epochState.epochN e = none →
            Ready src cfg p'.epochState A' e ∧ e.hash ∈ D p'.epochState.epochN) →
          ∃ r, (processEvent (cfg.over src) e).run p' = .ok r := by
  obtain ⟨p', -, hself⟩ := (inStep_genesis hsafe hstart).processEvents_run hrun
  have hstep : InStep src cfg D A p p := ⟨_, hself.choose_spec.1, hself.choose_spec.1⟩
  obtain ⟨q, hq, hstep⟩ := hstep.exists_bootstrap C'
  refine ⟨q, hq, hstep.chain_eq, fun events' results' A' p' hrun' => ?_⟩
  obtain ⟨q', hrunq, hstep'⟩ := hstep.processEvents_run hrun'
  refine ⟨⟨q', hrunq, hstep'.chain_eq⟩, fun e he => ?_⟩
  obtain ⟨c₀, hp', -⟩ := hstep'
  obtain ⟨r, p₁, hprocess, -⟩ := hp'.processEvent_returns he
  exact ⟨(r, p₁), hprocess⟩

/-! ### A restart between two blocks -/

/-- Events of an epoch that are all accepted and do not end it. -/
lemma Goes.takes {l : List Event} (hfair : Fair cfg es (D es.epochN) c₀)
    (h : p.Goes True src cfg es (D es.epochN) A c₀) (hparents : ParentsFirst A l)
    (hl : ∀ e ∈ l, src es.epochN e.hash = some e ∧ Checked cfg.maxParents (cfg.events es) e ∧
      e.epoch = es.epochN ∧ e.hash ∈ D es.epochN)
    (hrun : (processEvents (cfg.over src) l).run p = .ok (l.map fun _ => none, p'))
    (hn : p'.epochState.epochN = es.epochN) :
    p.epochState = es ∧ Takes src cfg D A p l (l.map fun _ => none)
      (l.foldl (fun A e => insert e.hash A) A) p' ∧
      p'.Goes True src cfg es (D es.epochN) (l.foldl (fun A e => insert e.hash A) A) c₀ := by
  induction l generalizing A p with
  | nil =>
    cases hrun
    exact ⟨(h.deciding hfair hn).epochState, .nil A _, h⟩
  | cons e l ih =>
    obtain ⟨hp, hnew, hparents⟩ := hparents
    obtain ⟨⟨hstored, hchecked, hepoch, hD⟩, hl⟩ := List.forall_mem_cons.mp hl
    obtain ⟨p₁, hfirst, hrest⟩ := processEvents_cons_eq_ok_iff.mp hrun
    have hready : Ready src cfg es A e := ⟨hstored, hchecked, hp, hnew⟩
    obtain ⟨hes, -, hgoes⟩ := h.accepted hfair hready hepoch hD hfirst
    obtain ⟨hes₁, htakes, hgoes'⟩ := ih hgoes hparents hl hrest
    have haccepted : p.acceptedAfter A e none p₁ = insert e.hash A := by
      rw [acceptedAfter, if_pos rfl, remaining, if_pos (by rw [hes, hes₁])]
    refine ⟨hes, .cons ?_ hfirst (hes₁.symm ▸ hfair.safe) (haccepted ▸ htakes), hgoes'⟩
    rw [hes]
    exact fun _ => ⟨hready, hD⟩

/-- What a node takes leads to reachable states. -/
lemma Takes.reachable {A' : Finset EventID} {events : List Event}
    {results : List (Option ProcessErr)} (hrun : Takes src cfg D A p events results A' p')
    (h : Reachable src cfg A p) : Reachable src cfg A' p' := by
  induction hrun with
  | nil A p => exact h
  | @cons A A' p p₁ p' e events r results ready run safe _ ih =>
    apply ih
    cases r with
    | none => exact h.accept (fun hvalid => (ready hvalid).1) run
    | some err => exact h.reject (fun hvalid => (ready hvalid).1) run

namespace TwoOrders

set_option synthInstance.maxSize 256 in
/-- A node decides a frame, and the next one after the last event. -/
lemma exists_takes : ∃ (p₀ p p' : Poset Solo.caches) (A A' : Finset EventID),
    bootstrap (config.over stored) (Disk.genesis validators 1 0 0) [] = .ok p₀ ∧
    Takes stored config (fun _ => graph) ∅ p₀ earlier (earlier.map fun _ => none) A p ∧
    Takes stored config (fun _ => graph) A p [fourth] [none] A' p' ∧
    p.atropoi = [first.hash] ∧ p'.atropoi = [first.hash, second.hash] ∧
    (p'.roots.getFrameRoots 4).1.map RootAndSlot.id = [fourth.hash] := by
  have hbegins := Disk.Begins.genesis validators 1 0 0
  have hfair : Fair config epoch graph _ := ⟨safe, hbegins.inv []⟩
  obtain ⟨p₀, h₀, hgoes⟩ := hbegins.exists_bootstrap (C := Solo.caches) safe stored []
  have houtcome : (ran earlier >>= fun r =>
      ((processEvents (config.over stored) [fourth]).run r.2).map fun s =>
      ((r.1, s.1), (r.2.epochState.epochN, s.2.epochState.epochN),
        r.2.atropoi, s.2.atropoi, (s.2.roots.getFrameRoots 4).1.map RootAndSlot.id)) =
      .ok ((earlier.map fun _ => none, [none]), (1, 1),
        [first.hash], [first.hash, second.hash], [fourth.hash]) := by
    decide +kernel
  obtain ⟨⟨r, p⟩, hrun, houtcome⟩ := bind_eq_ok_iff.mp houtcome
  obtain ⟨⟨s, p'⟩, hrun', houtcome⟩ := map_eq_ok_iff.mp houtcome
  simp only [Prod.mk.injEq] at houtcome
  obtain ⟨⟨rfl, rfl⟩, ⟨hn, hn'⟩, houtcome⟩ := houtcome
  rw [ran, run, h₀] at hrun
  obtain ⟨-, htakes, hgoes⟩ := Goes.takes (D := fun _ => graph) hfair hgoes (by decide +kernel)
    (fun e he => checked e (List.mem_append_left _ he)) hrun hn
  obtain ⟨-, htakes', -⟩ := Goes.takes (D := fun _ => graph) hfair hgoes (by decide +kernel)
    (fun e he => checked e (List.mem_append_right _ he)) hrun' hn'
  exact ⟨p₀, p, p', _, _, h₀, htakes, htakes', houtcome⟩

/-- The node after all events. -/
lemma exists_reachable : ∃ (p : Poset Solo.caches) (A : Finset EventID),
    Reachable stored config A p ∧ p.atropoi = [first.hash, second.hash] ∧
    (p.roots.getFrameRoots 4).1.map RootAndSlot.id = [fourth.hash] := by
  obtain ⟨p₀, p, p', A, A', h₀, htakes, htakes', -, hfacts⟩ := exists_takes
  exact ⟨p', A', htakes'.reachable (htakes.reachable (.start h₀)), hfacts⟩

end TwoOrders

open TwoOrders in
theorem bootstrap_transparent_twoOrders : ∃ p p' q q' : Poset Solo.caches,
    bootstrap (config.over stored) p.disk p.chain.calls = .ok q ∧ q.chain = p.chain ∧
    (processEvents (config.over stored) [fourth]).run q = .ok ([none], q') ∧ q'.chain = p'.chain ∧
    q.atropoi = [first.hash] ∧ q'.atropoi = [first.hash, second.hash] := by
  obtain ⟨p₀, p, p', A, A', h₀, htakes, htakes', hone, htwo, -⟩ := exists_takes
  obtain ⟨q, hq, hchain, hsame⟩ :=
    bootstrap_transparent (D := fun _ => graph) Solo.caches safe h₀ htakes
  obtain ⟨⟨q', hrun, hchain'⟩, -⟩ := hsame _ _ _ _ htakes'
  refine ⟨p, p', q, q', hq, hchain, hrun, hchain', ?_, ?_⟩
  · rw [atropoi, hchain]
    exact hone
  · rw [atropoi, hchain']
    exact htwo

/-! ### Validators that fork -/

namespace TwoSides

/-- Three of the four validators are going to fork. -/
def validators : Validators :=
  ⟨[⟨(1 : ℕ), 1⟩, ⟨2, 1⟩, ⟨3, 1⟩, ⟨4, 1⟩], by decide, by decide, by decide⟩

/-- An event of the first epoch; every third one is of the same validator. -/
def event (creator : StakerID) (seq frame : ℕ) (isRoot : Bool) (lamport digest : ℕ)
    (parents : List EventID) : Event :=
  ⟨1, seq, frame, isRoot, creator, if seq = 1 then 7 else 0, parents, lamport, UInt64.ofNat seq,
    UInt64.ofNat (max 1 (lamport / 3)), BitVec.ofNat 192 digest⟩

/-- The identifier of an event of the first epoch. -/
def ident (lamport digest : ℕ) : EventID := 2 ^ 224 + lamport * 2 ^ 192 + digest

/-- The only event of the first validator, and events of two others before they fork. -/
def common : List Event :=
  [event 1 1 1 true 1 1 [], event 3 1 1 true 1 2 [], event 4 1 1 true 2 3 [ident 1 2]]

/-- The events of one side of the forks. Its roots of the second frame are split over the first
validator, so they decide the others in the third frame, and the first validator in the fourth. -/
def side (d : ℕ) : List Event :=
  [event 2 1 1 true 3 (d + 3) [ident 2 3],
    event 3 2 1 false 4 (d + 4) [ident 1 2, ident 3 (d + 3)],
    event 4 2 2 true 5 (d + 5) [ident 2 3, ident 4 (d + 4)],
    event 2 2 2 true 6 (d + 6) [ident 3 (d + 3), ident 5 (d + 5), ident 1 1],
    event 3 3 2 true 7 (d + 7) [ident 4 (d + 4), ident 6 (d + 6)],
    event 4 3 2 false 8 (d + 8) [ident 5 (d + 5), ident 7 (d + 7)],
    event 2 3 3 true 9 (d + 9) [ident 6 (d + 6), ident 8 (d + 8)],
    event 3 4 3 true 10 (d + 10) [ident 7 (d + 7), ident 9 (d + 9)],
    event 4 4 3 true 11 (d + 11) [ident 8 (d + 8), ident 10 (d + 10)],
    event 2 4 3 false 12 (d + 12) [ident 9 (d + 9), ident 11 (d + 11)],
    event 3 5 4 true 13 (d + 13) [ident 10 (d + 10), ident 12 (d + 12)]]

/-- The events up to the restart: the greater side comes first, up to its root of the third frame. -/
def before : List Event := common ++ (side 50).take 7 ++ (side 20).take 10

/-- The event that decides the first frame. -/
def after : List Event := (side 20).drop 10

def stored : EventSource := fun _ => lookup (before ++ after)

/-- An application that takes blocks. -/
def config : Config where
  maxParents := 3
  input := stored
  callback := ⟨some fun _ _ _ _ => (5, false), none, false, none⟩
  genesisHash _ := 7
  hashOf _ _ := 0

/-- The node when it is stopped. -/
def stopped : Except Fault (List (Option ProcessErr) × Poset Solo.caches) :=
  run (config.over stored) (Disk.genesis validators 1 0 0) [] before

/-- The node if it goes on, -/
def goesOn (p : Poset Solo.caches) : Except Fault (List (Option ProcessErr) × Poset Solo.caches) :=
  (processEvents (config.over stored) after).run p

/-- and if it is started again before. -/
def startsAgain (p : Poset Solo.caches) :
    Except Fault (List (Option ProcessErr) × Poset Solo.caches) :=
  run (config.over stored) p.disk p.chain.calls after

/-- The results and the atropoi of both. -/
def outcome : Except Fault (List (Option ProcessErr) × (List (Option ProcessErr) × List EventID) ×
    (List (Option ProcessErr) × List EventID)) :=
  stopped >>= fun r => goesOn r.2 >>= fun s => startsAgain r.2 >>= fun t =>
    .ok (r.1, (s.1, s.2.atropoi), (t.1, t.2.atropoi))

/-- The first block has another atropos after a restart: with too many forks, what an election
decides depends on the order of the roots. -/
theorem startsAgain_differs : ParentsFirst ∅ (before ++ after) ∧
    (∀ e ∈ before ++ after, Checked config.maxParents (config.input 1) e) ∧
    ∃ p p' q' : Poset Solo.caches, stopped = .ok (before.map fun _ => none, p) ∧
      goesOn p = .ok ([none], p') ∧ startsAgain p = .ok ([none], q') ∧
      p'.atropoi = [ident 3 53, ident 6 26] ∧ q'.atropoi = [ident 3 23, ident 6 26] := by
  refine ⟨by decide +kernel, by decide +kernel, ?_⟩
  have houtcome : outcome = .ok (before.map fun _ => none, ([none], [ident 3 53, ident 6 26]),
      ([none], [ident 3 23, ident 6 26])) := by decide +kernel
  rw [outcome] at houtcome
  obtain ⟨⟨results, p⟩, hp, houtcome⟩ := bind_eq_ok_iff.mp houtcome
  obtain ⟨⟨r, p'⟩, hp', houtcome⟩ := bind_eq_ok_iff.mp houtcome
  obtain ⟨⟨r', q'⟩, hq', houtcome⟩ := bind_eq_ok_iff.mp houtcome
  have heq := Except.ok.inj houtcome
  obtain ⟨hresults, heq⟩ := Prod.mk.inj heq
  obtain ⟨hgoes, hstarts⟩ := Prod.mk.inj heq
  obtain ⟨hr, hatropoi⟩ := Prod.mk.inj hgoes
  obtain ⟨hr', hatropoi'⟩ := Prod.mk.inj hstarts
  exact ⟨p, p', q', hresults ▸ hp, hr ▸ hp', hr' ▸ hq', hatropoi, hatropoi'⟩

end TwoSides

end Poset

end Lachesis
