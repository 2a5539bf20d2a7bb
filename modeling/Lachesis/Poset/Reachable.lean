import Lachesis.Poset.Prepare

/-!
# Reachable states

A node begins with a fresh store. It processes events whose parents it has accepted, prepares
events, and may be stopped and started again at any time between two calls. The accepted events of
the epoch are carried along: they are forgotten when the epoch is sealed.
-/

namespace Lachesis

open Lachesis.Core

namespace Poset

variable {C : PosetCaches} {cfg : Config} {src : EventSource} {es : EpochState}
variable {A : Finset EventID} {p p' : Poset C}

/-- What is left of the events accepted in the epoch `n`. -/
def remaining (p : Poset C) (n : ℕ) (A : Finset EventID) : Finset EventID :=
  if p.epochState.epochN = n then A else ∅

/-- A node and the accepted events of its epoch, between two calls. -/
inductive Reachable (src : EventSource) (cfg : Config) : Finset EventID → Poset C → Prop
  | start {V : Validators} {time : Timestamp} {genesisAtropos : EventID} {appHash : Hash}
      {calls : List Call} {p : Poset C}
      (hrun : bootstrap (cfg.over src) (Disk.genesis V time genesisAtropos appHash) calls = .ok p) :
      Reachable src cfg ∅ p
  | accept {A : Finset EventID} {p : Poset C} (h : Reachable src cfg A p) {e : Event}
      {p' : Poset C}
      (he : Epochcheck.validate p.epochState.validators p.epochState.epochN e = none →
        Ready src cfg p.epochState A e)
      (hrun : (processEvent (cfg.over src) e).run p = .ok (none, p')) :
      Reachable src cfg (p'.remaining p.epochState.epochN (insert e.hash A)) p'
  | reject {A : Finset EventID} {p : Poset C} (h : Reachable src cfg A p) {e : Event}
      {err : ProcessErr} {p' : Poset C}
      (he : Epochcheck.validate p.epochState.validators p.epochState.epochN e = none →
        Ready src cfg p.epochState A e)
      (hrun : (processEvent (cfg.over src) e).run p = .ok (some err, p')) :
      Reachable src cfg A p'
  | prepare {A : Finset EventID} {p : Poset C} (h : Reachable src cfg A p) {e : Event}
      {r : Option Event} {p' : Poset C}
      (he : Epochcheck.validate p.epochState.validators p.epochState.epochN e = none →
        Drafted cfg p.epochState A e)
      (hrun : (Poset.prepare (cfg.over src) e).run p = .ok (r, p')) :
      Reachable src cfg A p'
  | restart {A : Finset EventID} {p : Poset C} (h : Reachable src cfg A p) {p' : Poset C}
      (hrun : bootstrap (cfg.over src) p.disk p.chain.calls = .ok p') :
      Reachable src cfg (p'.remaining p.epochState.epochN A) p'

lemma Goes.rests {T : Prop} {c₀ : Chain} (h : p.Goes T src cfg es Set.univ A c₀) :
    p.Rests src cfg p.epochState Set.univ (p.remaining es.epochN A) := by
  cases h with
  | on hrests =>
    have hes := hrests.epochState
    rw [remaining, hes, if_pos rfl]
    exact hrests
  | ended hseals =>
    rw [remaining, if_neg (by rw [hseals.epochN]; omega)]
    exact hseals.rests Set.univ

/-- A reachable node keeps the invariant between two calls. -/
theorem Reachable.rests (h : Reachable src cfg A p) : p.Rests src cfg p.epochState Set.univ A := by
  induction h with
  | @start V time genesisAtropos appHash calls p hrun =>
    have hgoes := (bootstrap_goes (D := Set.univ) rfl rfl ((rests_genesis V time genesisAtropos
      appHash calls).reelect_yields p.chain [] False.elim)).1 p hrun
    have hrests := hgoes.rests
    rwa [remaining, ite_self] at hrests
  | @accept A p _ e p' he hrun ih =>
    have hprocess := (ih.processEvent_yields p.chain (fun hepoch => ⟨he hepoch, Set.mem_univ _⟩)
      False.elim).returned _ _ hrun
    exact (hprocess.1 rfl).2.rests
  | @reject A p _ e err p' he hrun ih =>
    have hprocess := (ih.processEvent_yields p.chain (fun hepoch => ⟨he hepoch, Set.mem_univ _⟩)
      False.elim).returned _ _ hrun
    obtain ⟨hkeeps, hsame⟩ := hprocess.2.1 (by simp)
    rw [epochState, hsame.chain]
    exact hsame.rests ih hkeeps
  | prepare _ he hrun ih =>
    obtain ⟨hrests, hsame, -⟩ := (ih.prepare_yields he).returned _ _ hrun
    rw [epochState, hsame.chain]
    exact hrests
  | restart _ hrun ih => exact (ih.bootstrap_goes _ _ hrun).rests

/-! ### A validator alone -/

namespace Solo

/-- Caches of two entries. -/
def caches : PosetCaches := ⟨⟨.lru 2, .lru 2, .lru 2, .lru 2⟩, .lru 2⟩

/-- The only validator. -/
def validators : Validators := ⟨[⟨1, (1 : UInt64)⟩], by decide, by decide, by decide⟩

/-- Its first event. -/
def first : Event := ⟨1, 1, 1, true, 1, 7, [], 1, 10, 10, 1⟩

/-- Its second event before it is prepared. -/
def draft : Event := ⟨1, 2, 0, false, 1, 0, [first.hash], 2, 20, 0, 2⟩

/-- Its second event. -/
def second : Event := ⟨1, 2, 2, true, 1, 0, [first.hash], 2, 20, 20, 3⟩

def stored : EventSource := fun _ => lookup [first, second]

/-- All events, the draft as it passes the other checks. -/
def config : Config where
  maxParents := 3
  input _ := lookup [first, second, { draft with frame := 1 }]
  callback := ⟨none, none, false, none⟩
  genesisHash _ := 7
  hashOf _ _ := 0

/-- The node over a fresh store. -/
def started : Except Fault (Poset caches) :=
  bootstrap (config.over stored) (Disk.genesis validators 1 0 0) []

/-- The node after the first event. -/
def processed : Except Fault (Option ProcessErr × Poset caches) :=
  started >>= fun p => (processEvent (config.over stored) first).run p

/-- The node after the second event was prepared. -/
def prepared : Except Fault (Option Event × Poset caches) :=
  processed >>= fun r => (prepare (config.over stored) draft).run r.2

lemma reachable_processed : ∃ p : Poset caches, processed = .ok (none, p) ∧
    p.epochState = genesisEpoch validators 1 0 0 ∧
    Reachable stored config {first.hash} p := by
  obtain ⟨p₀, h₀, hes₀⟩ : ∃ p₀, started = .ok p₀ ∧ p₀.epochState = genesisEpoch validators 1 0 0 :=
    map_eq_ok_iff.mp (by decide +kernel : started.map (·.epochState) = .ok _)
  obtain ⟨⟨r, p⟩, h, hr⟩ := map_eq_ok_iff.mp (by decide +kernel :
    processed.map (fun r => (r.1, r.2.epochState)) = .ok (none, genesisEpoch validators 1 0 0))
  obtain ⟨rfl, hes⟩ := Prod.mk.inj hr
  have hrun : (processEvent (config.over stored) first).run p₀ = .ok (none, p) := by
    rw [← h, processed, h₀]
    rfl
  have hready : Ready stored config p₀.epochState ∅ first := by
    rw [hes₀]
    exact ⟨by decide +kernel, by decide +kernel, by decide, by decide⟩
  have hreachable := (Reachable.start h₀).accept (fun _ => hready) hrun
  rw [remaining, if_pos (by rw [hes, hes₀])] at hreachable
  exact ⟨p, h, hes, hreachable⟩

end Solo

/-! ### Prepared events -/

/-- What `Prepare` fills in is accepted: `checkAndSaveEvent` returns no error for an event that was
prepared in the same state, whatever hash it has then. -/
theorem Reachable.checkAndSaveEvent_prepared (hC : C.frameRoots.Steady)
    (h : Reachable src cfg A p) {e e' : Event} (he : Drafted cfg p.epochState A e)
    {noCheaters : List EventID} {p₀ : Poset C}
    (hcheaters : (index (Index.noCheaters e.selfParent e.parents)).run p = .ok (noCheaters, p₀))
    (hlength : noCheaters.length = e.parents.length)
    (hprepare : (Poset.prepare (cfg.over src) e).run p = .ok (some e', p')) {d : BitVec 192}
    (hready : Ready src cfg p.epochState A (e'.recacheHash d)) :
    ∃ p'', (checkAndSaveEvent (cfg.over src) (e'.recacheHash d)).run p' = .ok (none, p'') := by
  obtain ⟨hrests, -, hprepared⟩ := (h.rests.prepare_yields fun _ => he).returned _ _ hprepare
  obtain ⟨hepoch, hprepares⟩ := hprepared e' rfl
  obtain ⟨_, _, hrun, -, -, hlinks⟩ := h.rests.toKeeps.noCheaters_returns he.parents_mem
  rw [hcheaters] at hrun
  cases hrun
  obtain ⟨_, p'', hsave, rfl⟩ := hprepares.checkAndSaveEvent_returns he hready hC h.rests.toKeeps
    hrests (Epochcheck.validate_eq_none.mp hepoch).2 (mt hlinks.mpr (not_not.mpr hlength))
  exact ⟨p'', hsave⟩

theorem Reachable.checkAndSaveEvent_prepared_solo : ∃ p p' p'' : Poset Solo.caches,
    Reachable Solo.stored Solo.config {Solo.first.hash} p ∧
    (Poset.prepare (Solo.config.over Solo.stored) Solo.draft).run p =
      .ok (some (Solo.second.recacheHash 2), p') ∧
    (checkAndSaveEvent (Solo.config.over Solo.stored) Solo.second).run p' = .ok (none, p'') := by
  obtain ⟨p, hp, hes, hreachable⟩ := Solo.reachable_processed
  obtain ⟨⟨e', p'⟩, hprepared, he'⟩ := map_eq_ok_iff.mp (by decide +kernel :
    Solo.prepared.map (·.1) = .ok (some (Solo.second.recacheHash 2)))
  have hprepare : (Poset.prepare (Solo.config.over Solo.stored) Solo.draft).run p =
      .ok (some (Solo.second.recacheHash 2), p') := by
    rw [← (show e' = _ from he'), ← hprepared, Solo.prepared, hp]
    rfl
  have hdraft : Drafted Solo.config p.epochState {Solo.first.hash} Solo.draft := by
    rw [hes]
    exact ⟨⟨1, false, 0, 0, by decide +kernel⟩, by decide, by decide⟩
  have hready : Ready Solo.stored Solo.config p.epochState {Solo.first.hash}
      ((Solo.second.recacheHash 2).recacheHash 3) := by
    rw [hes]
    exact ⟨by decide +kernel, by decide +kernel, by decide, by decide⟩
  obtain ⟨⟨noCheaters, p₀⟩, hcheaters, hlength⟩ := map_eq_ok_iff.mp (by decide +kernel :
    (Solo.processed >>= fun r => (index (Index.noCheaters Solo.draft.selfParent
      Solo.draft.parents)).run r.2).map (·.1.length) = .ok Solo.draft.parents.length)
  rw [hp] at hcheaters
  obtain ⟨p'', hsave⟩ := hreachable.checkAndSaveEvent_prepared (Cache.steady_lru 2) hdraft
    hcheaters hlength hprepare hready
  exact ⟨p, p', p'', hreachable, hprepare, hsave⟩

end Poset

end Lachesis
