import Lachesis.Poset.Checks
import Lachesis.Poset.Decisions

/-!
# The elections of a node

A node gives the election a new root with the roots that it observes, and after a decision all known
roots from the next frame on, frame by frame. There are no roots above an empty frame, so the election
gets to know all roots that can count. What it decides is what the graph of roots elects.
-/

namespace Lachesis

open Lachesis.Core

variable {cfg : Config} {es : EpochState} {D : Set EventID} {A : Finset EventID} {x : EventID}

lemma frameOf_pos (hx : x ∈ validEvents cfg es D) : 0 < frameOf (cfg.events es) x := by
  obtain ⟨e, he, -, hchecked, -⟩ := exists_of_mem_validEvents hx
  rw [frameOf_eq he]
  exact (Basiccheck.checkInited_eq_none.mp hchecked.inited).2.2.1

lemma Known.rootsOf_subset (h : Known cfg es D A) :
    rootsOf (cfg.events es) A ⊆ (rootGraph cfg es D).roots :=
  fun x hx => ⟨h.valid x hx.1, hx.2⟩

lemma Known.mem_rootsOf (h : Known cfg es D A) {b : EventID} (hx : x ∈ A)
    (hb : b ∈ (rootGraph cfg es D).roots) (hobs : (rootGraph cfg es D).observe x b = true) :
    b ∈ rootsOf (cfg.events es) A :=
  ⟨h.sees_mem hx (sees_of_quorum_le (observe_iff.mp hobs).2), hb.2⟩

open Classical in
lemma Known.quorum_le_weight (h : Known cfg es D A) (hx : x ∈ rootsOf (cfg.events es) A)
    (hlt : 1 < frameOf (cfg.events es) x) :
    es.validators.quorum.toNat ≤ weight es.validators.stakeOf (es.validators.members.filter fun v =>
      ∃ b ∈ rootsOf (cfg.events es) A,
        frameOf (cfg.events es) b + 1 = frameOf (cfg.events es) x ∧
        (rootGraph cfg es D).observe x b = true ∧ (cfg.dag es).creator b = v) := by
  obtain ⟨e, he, rfl, -, haccepted⟩ := exists_of_mem_validEvents (h.valid x hx.1)
  rw [frameOf_eq he] at hlt ⊢
  refine le_trans (haccepted.quorum (isRootOf_eq he ▸ hx.2) hlt) (weight_mono _ fun v hv => ?_)
  obtain ⟨hv, b, hb, hbv⟩ := Finset.mem_filter.mp hv
  have hbf := hb.frame
  exact Finset.mem_filter.mpr ⟨hv, b, ⟨h.sees_mem hx.1 (sees_of_quorum_le hb.caused.2), hb.root⟩,
    by omega, observe_iff.mpr hb.caused, hbv⟩

open Classical in
lemma Known.exists_root (h : Known cfg es D A) {g n : ℕ} (hg : 0 < g)
    (hx : x ∈ rootsOf (cfg.events es) A) (hn : frameOf (cfg.events es) x = g + n) :
    ∃ y ∈ rootsOf (cfg.events es) A, frameOf (cfg.events es) y = g := by
  induction n generalizing x with
  | zero => exact ⟨x, hx, hn⟩
  | succ n ih =>
    have hpos := es.validators.quorum_pos.trans_le (h.quorum_le_weight hx (by omega))
    obtain ⟨v, hv, -⟩ := Finset.exists_ne_zero_of_sum_ne_zero hpos.ne'
    obtain ⟨-, b, hb, hframe, -⟩ := Finset.mem_filter.mp hv
    exact ih hb (by omega)

/-! ### Polls -/

namespace Election

variable {R : RootGraph} {V : Validators} {f : ℕ} {P : Set EventID} {el el' : Election}
variable {res : Option Res} {observed : List RootAndSlot}

/-- `ProcessRoot` of the root `x` with the roots that it observes. -/
def Polls (R : RootGraph) (x : EventID) (el : Election) (res : Option Res) (el' : Election) : Prop :=
  ∃ observed, R.Observes x observed ∧ el.processRoot (R.rootAndSlot x) observed = .ok (res, el')

/-- `ProcessRoot` of one root of a list after the other, up to a decision. -/
inductive Polled (R : RootGraph) : Election → List EventID → Option Res → Election → Prop
  | nil (el : Election) : Polled R el [] none el
  | decided {x : EventID} {el : Election} {d : Res} {el' : Election} (h : Polls R x el (some d) el') :
      Polled R el [x] (some d) el'
  | next {x : EventID} {el el₁ : Election} {xs : List EventID} {res : Option Res} {el' : Election}
      (h : Polls R x el none el₁) (rest : Polled R el₁ xs res el') : Polled R el (x :: xs) res el'

lemma Polled.append {el₁ : Election} {xs ys : List EventID} (h : Polled R el xs none el₁)
    (h' : Polled R el₁ ys res el') : Polled R el (xs ++ ys) res el' := by
  generalize hnone : (none : Option Res) = r at h
  induction h with
  | nil => exact h'
  | decided => cases hnone
  | next hpolls _ ih => exact .next hpolls (ih h' hnone)

lemma processRoot_of_not_asks {root : RootAndSlot} (h : ¬ el.asks root = true)
    (observed observed' : List RootAndSlot) :
    el.processRoot root observed = el.processRoot root observed' := by
  unfold processRoot
  cases hres : el.chooseAtropos with
  | error => rfl
  | ok res =>
    cases res with
    | some res => rfl
    | none =>
      simp only [asks, hres, decide_true, Bool.true_and, decide_eq_true_eq, not_lt] at h
      simp only [bind, Except.bind, if_pos h]

/-- The election over the frame `f` was given the roots of `P` and has not decided. -/
structure Open (R : RootGraph) (V : Validators) (f : ℕ) (P : Set EventID) (el : Election) :
    Prop where
  electable : R.Electable V f
  given : el.Given R V f P
  not_elected : ∀ a, ¬ R.Elected V f P a

/-- What a poll of the roots of `P` leads to. -/
structure Turnout (R : RootGraph) (V : Validators) (f : ℕ) (P : Set EventID) (res : Option Res)
    (el : Election) : Prop where
  opened : res = none → el.Open R V f P
  elected : ∀ d, res = some d → d.frame = f ∧ R.Elected V f P d.atropos

namespace Open

lemma turnout (h : el.Open R V f P) : Turnout R V f P none el := ⟨fun _ => h, by simp⟩

variable (h : el.Open R V f P) (hx : x ∈ R.roots) (hbelow : ∀ b ∈ R.roots, R.observe x b = true →
  (R.slot b).frame + 1 = (R.slot x).frame → f ≤ (R.slot b).frame → b ∈ P)
include h hx hbelow

lemma processRoot_ok (hO : R.Observes x observed) :
    ∃ res el', el.processRoot (R.rootAndSlot x) observed = .ok (res, el') ∧
      el'.Given R V f (insert x P) ∧ Outcome R V f (insert x P) res := by
  refine Election.processRoot_ok h.electable h.given hx fun hlt => ⟨hO, fun y hy => ?_⟩
  obtain ⟨b, hb, rfl, hframe, hobs⟩ := (hO.mem_iff y).mp hy
  exact hbelow b hb hobs hframe (by omega)

lemma exists_processRoot (hO : R.Observes x observed) :
    ∃ r, el.processRoot (R.rootAndSlot x) observed = .ok r := by
  obtain ⟨res, el', hrun, -⟩ := h.processRoot_ok hx hbelow hO
  exact ⟨(res, el'), hrun⟩

lemma polls (hpolls : Polls R x el res el') : Turnout R V f (insert x P) res el' := by
  obtain ⟨observed, hO, hrun⟩ := hpolls
  obtain ⟨res', el'', hrun', hgiven, hout⟩ := h.processRoot_ok hx hbelow hO
  rw [hrun] at hrun'
  cases hrun'
  refine ⟨?_, ?_⟩
  · rintro rfl
    rcases hout with ⟨a, heq, -⟩ | ⟨-, hno⟩
    · cases heq
    · exact ⟨h.electable, hgiven, hno⟩
  · rintro d rfl
    exact hout.elected

end Open

end Election

namespace Poset

variable {C : PosetCaches} {S : Set EventID} {p p' : Poset C}

/-! ### Observed roots -/

lemma Keeps.observing_returns (h : p.Keeps cfg es D A S) {root : EventID} (hroot : root ∈ S)
    {l : List RootAndSlot} (hl : ∀ r ∈ l, r.id ∈ S) :
    Returns (observing root l) p fun r p' => p'.Keeps cfg es D A S ∧ p.Same p' ∧
      r = Election.observedRoots (rootGraph cfg es D).observe l root := by
  induction l generalizing p with
  | nil => exact Returns.pure ⟨h, Same.refl p, rfl⟩
  | cons it l ih =>
    refine (h.forklessCause_returns hroot (hl it (by simp))).bind ?_
    rintro caused p₁ ⟨h₁, hi₁, hcaused⟩
    refine (ih h₁ fun r hr => hl r (by simp [hr])).bind ?_
    rintro observed p₂ ⟨h₂, hsame₂, rfl⟩
    refine Returns.pure ⟨h₂, hi₁.same.trans hsame₂, ?_⟩
    have hobs : (rootGraph cfg es D).observe root it.id = caused := by
      rw [Bool.eq_iff_iff, observe_iff, hcaused]
    rw [Election.observedRoots, Election.observedRoots, List.filter_cons, hobs]

/-- A root observes the roots of the frame before that cause it. -/
lemma Keeps.observedRoots_returns (h : p.Keeps cfg es D A S) (hx : x ∈ A) :
    Returns (observedRoots ((rootGraph cfg es D).rootAndSlot x)) p fun r p' =>
      p'.Keeps cfg es D A S ∧ p.Same p' ∧ (rootGraph cfg es D).Observes x r ∧
      ∀ it ∈ r, it.id ∈ rootsOf (cfg.events es) A := by
  refine (h.getFrameRoots_returns _).bind ?_
  rintro l p₁ ⟨h₁, hsame₁, hnodup, hl⟩
  have hmem : ∀ r ∈ l, r.id ∈ S := by
    intro r hr
    obtain ⟨b, hb, -, rfl⟩ := (hl r).mp hr
    exact h.subset hb.1
  refine (h₁.observing_returns (h.subset hx) hmem).mono ?_
  rintro _ p₂ ⟨h₂, hsame₂, rfl⟩
  have hpos := frameOf_pos (h.known.valid x hx)
  refine ⟨h₂, hsame₁.trans hsame₂, ⟨hnodup.filter _, fun it => ?_⟩, fun it hit => ?_⟩
  · rw [Election.observedRoots, List.mem_filter, hl]
    constructor
    · rintro ⟨⟨b, hb, hframe, rfl⟩, hobs⟩
      refine ⟨b, h.known.rootsOf_subset hb, rfl, ?_, hobs⟩
      change frameOf _ b + 1 = frameOf _ x
      change frameOf _ b = frameOf _ x - 1 at hframe
      omega
    · rintro ⟨b, hb, rfl, hframe, hobs⟩
      refine ⟨⟨b, h.known.mem_rootsOf hx hb hobs, ?_, rfl⟩, hobs⟩
      change frameOf _ b + 1 = frameOf _ x at hframe
      change frameOf _ b = frameOf _ x - 1
      omega
  · obtain ⟨b, hb, -, rfl⟩ := (hl it).mp (List.mem_filter.mp hit).1
    exact hb

/-! ### A root -/

/-- Voting changes nothing but the election and what is cached. -/
structure Votes (p p' : Poset C) : Prop where
  chain : p'.chain = p.chain
  epochDbs : p'.epochDbs = p.epochDbs
  records : p'.roots.records = p.roots.records
  source : p'.vecClock.getEvent = p.vecClock.getEvent

lemma Same.votes (h : p.Same p') : p.Votes p' := ⟨h.chain, h.epochDbs, h.records, h.source⟩

lemma Votes.refl (p : Poset C) : p.Votes p := ⟨rfl, rfl, rfl, rfl⟩

lemma Votes.trans {p'' : Poset C} (h : p.Votes p') (h' : p'.Votes p'') : p.Votes p'' :=
  ⟨h'.chain.trans h.chain, h'.epochDbs.trans h.epochDbs, h'.records.trans h.records,
    h'.source.trans h.source⟩

lemma vote_eq_ok_iff {root : RootAndSlot} {res : Option Res} :
    (vote root observed).run p = .ok (res, p') ↔
      ∃ el, p.election.processRoot root observed = .ok (res, el) ∧ p' = { p with election := el } := by
  simp only [StateT.run, vote]
  cases p.election.processRoot root observed with
  | ok r =>
    obtain ⟨res', el⟩ := r
    simp only [Except.ok.injEq, Prod.mk.injEq]
    constructor
    · rintro ⟨rfl, rfl⟩
      exact ⟨el, ⟨rfl, rfl⟩, rfl⟩
    · rintro ⟨_, ⟨rfl, rfl⟩, rfl⟩
      exact ⟨rfl, rfl⟩
  | error halt => cases halt <;> simp

lemma Keeps.election (h : p.Keeps cfg es D A S) (el : Election) :
    Keeps cfg es D A S { p with election := el } :=
  ⟨h.epochState, h.known, h.index, h.records, h.coherent⟩

variable {T : Prop}

/-- A root of the node is given to the election with the roots that it observes; the node stops if
the election fails. -/
lemma Keeps.processRoot_yields (h : p.Keeps cfg es D A S) (hx : x ∈ A)
    (hT : T → ∀ observed, (rootGraph cfg es D).Observes x observed →
      ∃ r, p.election.processRoot ((rootGraph cfg es D).rootAndSlot x) observed = .ok r) :
    Yields T (processRoot ((rootGraph cfg es D).rootAndSlot x)) p fun res p' =>
      p'.Keeps cfg es D A S ∧ p.Votes p' ∧
        Election.Polls (rootGraph cfg es D) x p.election res p'.election := by
  -- what the election makes of observed roots that stand for those the root observes
  have hvote : ∀ (p' : Poset C) (observed observed' : List RootAndSlot), p'.Keeps cfg es D A S →
      p.Same p' → (rootGraph cfg es D).Observes x observed' →
      p.election.processRoot ((rootGraph cfg es D).rootAndSlot x) observed =
        p.election.processRoot ((rootGraph cfg es D).rootAndSlot x) observed' →
      Yields T (vote ((rootGraph cfg es D).rootAndSlot x) observed) p' fun res p'' =>
        p''.Keeps cfg es D A S ∧ p.Votes p'' ∧
          Election.Polls (rootGraph cfg es D) x p.election res p''.election := by
    intro p' observed observed' h' hsame hO heq
    refine ⟨fun res p'' hrun => ?_, fun hyes => ?_⟩
    · obtain ⟨el, hel, rfl⟩ := vote_eq_ok_iff.mp hrun
      rw [hsame.election, heq] at hel
      exact ⟨h'.election el, ⟨hsame.chain, hsame.epochDbs, hsame.records, hsame.source⟩, observed',
        hO, hel⟩
    · obtain ⟨⟨res, el⟩, hel⟩ := hT hyes observed' hO
      exact ⟨(res, _), vote_eq_ok_iff.mpr ⟨el, by rw [hsame.election, heq, hel], rfl⟩⟩
  refine Yields.get_bind ?_
  split_ifs with hasks
  · refine (h.observedRoots_returns hx).yields.bind ?_
    rintro observed p₁ ⟨h₁, hsame₁, hO, -⟩
    exact hvote p₁ observed observed h₁ hsame₁ hO rfl
  · obtain ⟨observed, _, -, -, -, hO, -⟩ := h.observedRoots_returns hx
    exact hvote p [] observed h (Same.refl p) hO (Election.processRoot_of_not_asks hasks ..)

/-! ### All roots of a frame -/

lemma Keeps.frameRoots_returns (h : p.Keeps cfg es D A S) (g : ℕ) :
    Returns (getFrameRoots g) p fun l p' => p'.Keeps cfg es D A S ∧ p.Same p' ∧
      ∃ xs : List EventID, l = xs.map (rootGraph cfg es D).rootAndSlot ∧
        ∀ x, x ∈ xs ↔ x ∈ rootsOf (cfg.events es) A ∧
          frameOf (cfg.events es) x = g := by
  refine (h.getFrameRoots_returns g).mono ?_
  rintro l p' ⟨h', hsame, -, hl⟩
  refine ⟨h', hsame, l.map (·.id), ?_, fun x => ?_⟩
  · rw [List.map_map]
    refine ((List.map_congr_left fun r hr => ?_).trans (List.map_id l)).symm
    obtain ⟨x, -, -, rfl⟩ := (hl r).mp hr
    rfl
  · rw [List.mem_map]
    constructor
    · rintro ⟨r, hr, rfl⟩
      obtain ⟨x, hx, hframe, rfl⟩ := (hl r).mp hr
      exact ⟨hx, hframe⟩
    · rintro ⟨hx, hframe⟩
      exact ⟨_, (hl _).mpr ⟨x, hx, hframe, rfl⟩, rfl⟩

lemma Keeps.processRoots_yields (h : p.Keeps cfg es D A S) {f g : ℕ} {P : Set EventID}
    (hT : T → p.election.Open (rootGraph cfg es D) es.validators f P)
    (hbelow : ∀ b ∈ rootsOf (cfg.events es) A, f ≤ frameOf (cfg.events es) b →
      frameOf (cfg.events es) b < g → b ∈ P)
    {xs : List EventID} (hxs : ∀ x ∈ xs, x ∈ rootsOf (cfg.events es) A ∧
      frameOf (cfg.events es) x = g) :
    Yields T (processRoots (xs.map (rootGraph cfg es D).rootAndSlot)) p fun res p' =>
      p'.Keeps cfg es D A S ∧ p.Votes p' ∧ ∃ done, done <+: xs ∧ (res = none → done = xs) ∧
        Election.Polled (rootGraph cfg es D) p.election done res p'.election ∧
        (T → Election.Turnout (rootGraph cfg es D) es.validators f (P ∪ {x | x ∈ done}) res
          p'.election) := by
  induction xs generalizing p P with
  | nil =>
    refine Yields.pure ⟨h, Votes.refl p, [], List.prefix_rfl, fun _ => rfl, .nil _, fun hyes => ?_⟩
    simpa using (hT hyes).turnout
  | cons x xs ih =>
    obtain ⟨hx, hframe⟩ := hxs x (by simp)
    have hroot := h.known.rootsOf_subset hx
    have hobserved : ∀ b ∈ (rootGraph cfg es D).roots, (rootGraph cfg es D).observe x b = true →
        ((rootGraph cfg es D).slot b).frame + 1 = ((rootGraph cfg es D).slot x).frame →
        f ≤ ((rootGraph cfg es D).slot b).frame → b ∈ P := by
      intro b hb hobs hbf hf
      change frameOf _ b + 1 = frameOf _ x at hbf
      exact hbelow b (h.known.mem_rootsOf hx.1 hb hobs) hf (by omega)
    refine (h.processRoot_yields hx.1 fun hyes observed hO =>
      (hT hyes).exists_processRoot hroot hobserved hO).bind ?_
    rintro res p₁ ⟨h₁, hvotes₁, hpolls⟩
    have hturnout : T → Election.Turnout (rootGraph cfg es D) es.validators f (insert x P) res
        p₁.election := fun hyes => (hT hyes).polls hroot hobserved hpolls
    cases res with
    | some d =>
      refine Yields.pure ⟨h₁, hvotes₁, [x], ⟨xs, rfl⟩, by simp, .decided hpolls, fun hyes => ?_⟩
      rw [show P ∪ {y | y ∈ [x]} = insert x P by ext; simp [or_comm]]
      exact hturnout hyes
    | none =>
      refine (ih h₁ (fun hyes => (hturnout hyes).opened rfl) (fun b hb hf hg =>
        Set.mem_insert_of_mem x (hbelow b hb hf hg)) fun y hy => hxs y (by simp [hy])).mono ?_
      rintro res p₂ ⟨h₂, hvotes₂, done, ⟨rest, rfl⟩, hall, hpolled, hturnout₂⟩
      refine ⟨h₂, hvotes₁.trans hvotes₂, x :: done, ⟨rest, rfl⟩,
        fun hnone => congrArg (x :: ·) (hall hnone), .next hpolls hpolled, fun hyes => ?_⟩
      rw [show P ∪ {y | y ∈ x :: done} = insert x P ∪ {y | y ∈ done} by ext; simp; tauto]
      exact hturnout₂ hyes

/-! ### All known roots -/

/-- The number of roots from the frame `g` on. -/
def rootsFrom (records : RootRecords) (g : ℕ) : ℕ :=
  (records.keys.toFinset.filter fun r => g ≤ r.slot.frame).card

lemma rootsFrom_le (records : RootRecords) (g : ℕ) : rootsFrom records g ≤ records.size :=
  calc rootsFrom records g ≤ records.keys.toFinset.card := Finset.card_filter_le _ _
    _ ≤ records.keys.length := List.toFinset_card_le _
    _ = records.size := Std.ExtTreeMap.length_keys

lemma rootsFrom_lt {records : RootRecords} {g : ℕ} {r : RootAndSlot} (hr : r ∈ records)
    (hg : r.slot.frame = g) : rootsFrom records (g + 1) < rootsFrom records g := by
  refine Finset.card_lt_card ⟨fun x hx => ?_, fun hsub => ?_⟩
  · simp only [Finset.mem_filter] at hx ⊢
    exact ⟨hx.1, by omega⟩
  · have hmem : r ∈ records.keys.toFinset := List.mem_toFinset.mpr (Std.ExtTreeMap.mem_keys.mpr hr)
    have := (Finset.mem_filter.mp (hsub (Finset.mem_filter.mpr ⟨hmem, hg.ge⟩))).2
    omega

/-- The loop over the frames from `g` on meets all roots there, as it ends at a frame without
roots. -/
lemma Keeps.processFrames_yields (h : p.Keeps cfg es D A S) {f g : ℕ} (hg : 0 < g)
    {P : Set EventID} (hT : T → p.election.Open (rootGraph cfg es D) es.validators f P)
    (hbelow : ∀ b ∈ rootsOf (cfg.events es) A, f ≤ frameOf (cfg.events es) b →
      frameOf (cfg.events es) b < g → b ∈ P)
    {fuel : ℕ} (hfuel : rootsFrom p.roots.records g < fuel) :
    Yields T (processFrames fuel g) p fun res p' =>
      p'.Keeps cfg es D A S ∧ p.Votes p' ∧ ∃ done,
        (∀ x ∈ done, x ∈ rootsOf (cfg.events es) A ∧ g ≤ frameOf (cfg.events es) x) ∧
        (res = none → ∀ x ∈ rootsOf (cfg.events es) A, g ≤ frameOf (cfg.events es) x →
          x ∈ done) ∧
        Election.Polled (rootGraph cfg es D) p.election done res p'.election ∧
        (T → Election.Turnout (rootGraph cfg es D) es.validators f (P ∪ {x | x ∈ done}) res
          p'.election) := by
  induction fuel generalizing p g P with
  | zero => omega
  | succ fuel ih =>
    refine (h.frameRoots_returns g).yields.bind ?_
    rintro _ p₁ ⟨h₁, hsame₁, xs, rfl, hxs⟩
    have hrecords : p₁.roots.records = p.roots.records := hsame₁.records
    refine (h₁.processRoots_yields (hsame₁.election ▸ hT) hbelow fun x hx => (hxs x).mp hx).bind ?_
    rintro res p₂ ⟨h₂, hvotes₂, done, hsub, hall, hpolled, hturnout⟩
    rw [hsame₁.election] at hpolled
    have hvotes := hsame₁.votes.trans hvotes₂
    have hdone : ∀ x ∈ done, x ∈ rootsOf (cfg.events es) A ∧
        frameOf (cfg.events es) x = g := fun x hx => (hxs x).mp (hsub.subset hx)
    cases res with
    | some d =>
      exact Yields.pure ⟨h₂, hvotes, done, fun x hx => ⟨(hdone x hx).1, (hdone x hx).2.ge⟩,
        by simp, hpolled, hturnout⟩
    | none =>
      obtain rfl := hall rfl
      dsimp only
      split_ifs with hempty
      · refine Yields.pure ⟨h₂, hvotes, done, fun x hx => ⟨(hdone x hx).1, (hdone x hx).2.ge⟩,
          fun _ x hx hle => ?_, hpolled, hturnout⟩
        -- a root further up would have one of this frame below it
        obtain ⟨n, hn⟩ := Nat.exists_eq_add_of_le hle
        obtain ⟨y, hy⟩ := h.known.exists_root hg hx hn
        have hmem : y ∈ done := (hxs y).mpr hy
        have hnil : done = [] := by simpa using hempty
        simp [hnil] at hmem
      · obtain ⟨y, hy⟩ := List.exists_mem_of_ne_nil done (by simpa using hempty)
        have hmem : (rootGraph cfg es D).rootAndSlot y ∈ p.roots.records :=
          (h.records _).mpr ⟨y, (hdone y hy).1, rfl⟩
        have hlt := rootsFrom_lt hmem (hdone y hy).2
        have hrecords₂ : p₂.roots.records = p.roots.records := hvotes.records
        have hfuel₂ : rootsFrom p₂.roots.records (g + 1) < fuel := by
          rw [hrecords₂]
          omega
        refine (ih h₂ (Nat.succ_pos g) (fun hyes => (hturnout hyes).opened rfl)
          (fun b hb hf hle => ?_) hfuel₂).mono ?_
        · rcases Nat.lt_succ_iff_lt_or_eq.mp hle with hlt | heq
          · exact Or.inl (hbelow b hb hf hlt)
          · exact Or.inr ((hxs b).mpr ⟨hb, heq⟩)
        · rintro res p₃ ⟨h₃, hvotes₃, done', hdone', hall', hpolled', hturnout'⟩
          refine ⟨h₃, hvotes.trans hvotes₃, done ++ done', fun x hx => ?_, fun hnone x hx hle => ?_,
            hpolled.append hpolled', fun hyes => ?_⟩
          · rcases List.mem_append.mp hx with hx | hx
            · exact ⟨(hdone x hx).1, (hdone x hx).2.ge⟩
            · exact ⟨(hdone' x hx).1, by have := (hdone' x hx).2; omega⟩
          · rcases Nat.eq_or_lt_of_le hle with heq | hlt
            · exact List.mem_append_left _ ((hxs x).mpr ⟨hx, heq.symm⟩)
            · exact List.mem_append_right _ (hall' hnone x hx hlt)
          · rw [show P ∪ {x | x ∈ done ++ done'} = P ∪ {x | x ∈ done} ∪ {x | x ∈ done'} by
              ext; simp [or_assoc]]
            exact hturnout' hyes

/-- `processKnownRoots` gives all roots above the last decided frame to the election, or decides. -/
theorem Keeps.processKnownRoots_yields (h : p.Keeps cfg es D A S) {P : Set EventID}
    (hT : T → p.election.Open (rootGraph cfg es D) es.validators
      (p.chain.checkpoint.lastDecidedFrame + 1) P) :
    Yields T processKnownRoots p fun res p' =>
      p'.Keeps cfg es D A S ∧ p.Votes p' ∧ ∃ done,
        (∀ x ∈ done, x ∈ rootsOf (cfg.events es) A ∧
          p.chain.checkpoint.lastDecidedFrame < frameOf (cfg.events es) x) ∧
        (res = none → ∀ x ∈ rootsOf (cfg.events es) A,
          p.chain.checkpoint.lastDecidedFrame < frameOf (cfg.events es) x → x ∈ done) ∧
        Election.Polled (rootGraph cfg es D) p.election done res p'.election ∧
        (T → Election.Turnout (rootGraph cfg es D) es.validators
          (p.chain.checkpoint.lastDecidedFrame + 1) (P ∪ {x | x ∈ done}) res p'.election) := by
  refine Yields.get_bind ?_
  exact h.processFrames_yields (Nat.succ_pos _) hT (fun b _ hle hlt => by omega)
    (Nat.lt_succ_of_le (rootsFrom_le _ _))

end Poset

end Lachesis
