import Lachesis.Vector.Calls
import Mathlib.Data.Finset.Sort

/-!
# Choosing parents

An emitter links a new event with its self-parent and with some of the known heads. Which ones is up
to a search strategy. `CasualityStrategy` counts, for each option, the validators that the option
observes higher than a template, sorts the options by this score and takes the first one; the vector
of the chosen option is the next template.

The scores are sorted in ascending order, so the strategy takes an option that observes least.
-/

namespace Lachesis

open Lachesis.Core

namespace Ancestor

/-! ### Searching -/

/-- `ancestor.SearchStrategy`, over a state. -/
structure SearchStrategy (σ : Type) where
  init : (selfParent : Option EventID) → StateT σ (Except Fault) PUnit
  find : (options : List EventID) → StateT σ (Except Fault) EventID

section FindBestParents

variable {σ : Type} (strategy : SearchStrategy σ) (slice : ℕ → Finset EventID → List EventID)

/-- The loop of `FindBestParents`, with at most `n` rounds left. `slice k` is the order in which the
set of options is listed when there are `k` parents. -/
def findParents : (n : ℕ) → (optionsSet : Finset EventID) → (parents : List EventID) →
    StateT σ (Except Fault) (List EventID)
  | 0, _, parents => pure parents
  | n + 1, optionsSet, parents =>
    if 0 < optionsSet.card then do
      let best ← strategy.find (slice parents.length optionsSet)
      findParents n (optionsSet.erase best) (parents ++ [best])
    else pure parents

def findBestParents (max : ℕ) (options : List EventID) (selfParent : Option EventID) :
    StateT σ (Except Fault) (Option EventID × List EventID) := do
  let optionsSet := options.toFinset
  let (parents, optionsSet) :=
    match selfParent with
    | some id => ([id], optionsSet.erase id)
    | none => ([], optionsSet)
  strategy.init selfParent
  let parents ← findParents strategy slice (max - parents.length) optionsSet parents
  return (selfParent, parents)

end FindBestParents

/-! ### The causality strategy -/

/-- `eventScore` -/
structure EventScore where
  event : EventID
  score : ℕ
  vec : Option HighestBeforeSeq

/-- `ancestor.CasualityStrategy` -/
structure CasualityStrategy (C : VecCaches) where
  vecClock : Index C
  template : Option HighestBeforeSeq
  validators : Validators

/-- What one validator adds to the score of an option. -/
def creatorScore (my his : BranchSeq) (score : ℕ) : ℕ :=
  -- observes higher
  let score := if my.seq < his.seq && !my.isForkDetected then score + 1 else score
  -- observes a fork
  if his.isForkDetected && !my.isForkDetected then score + 1 else score

/-- The loop over the validators in `CasualityStrategy.Find`. A missing vector reads as zeros. -/
def vecScore (validators : Validators) (template vec : Option HighestBeforeSeq) : ℕ :=
  (List.range validators.len).foldl (fun score creatorIdx =>
    creatorScore ((template.getD (.new 0)).get creatorIdx) ((vec.getD (.new 0)).get creatorIdx)
      score) 0

namespace CasualityStrategy

variable {C : VecCaches}

/-- `CasualityStrategy.vecClock.GetHighestBeforeMerged` -/
def getHighestBeforeMerged (id : EventID) :
    StateT (CasualityStrategy C) (Except Fault) (Option HighestBeforeSeq) :=
  zoom vecClock (fun vecClock st => { st with vecClock }) (Index.getHighestBeforeMerged id)

def init (selfParent : Option EventID) : StateT (CasualityStrategy C) (Except Fault) PUnit :=
  match selfParent with
  | some id => do
    let template ← getHighestBeforeMerged id
    modify fun st => { st with template }
  | none => pure ⟨⟩

/-- The score of one option in `CasualityStrategy.Find`. -/
def eventScore (id : EventID) : StateT (CasualityStrategy C) (Except Fault) EventScore := do
  let vec ← getHighestBeforeMerged id
  modify fun st => { st with template := some (st.template.getD (.new st.validators.len)) }
  let st ← get
  return ⟨id, vecScore st.validators st.template vec, vec⟩

/-- `CasualityStrategy.Find`, with the function that sorts the scores. -/
def find (sort : List EventScore → List EventScore) (options : List EventID) :
    StateT (CasualityStrategy C) (Except Fault) EventID := do
  let scores ← options.mapM eventScore
  match sort scores with
  | [] => throw .indexOutOfRange
  | best :: _ =>
    modify fun st => { st with template := best.vec }
    return best.event

/-- The strategy as it is used by `FindBestParents`. -/
def strategy (sort : List EventScore → List EventScore) : SearchStrategy (CasualityStrategy C) :=
  ⟨init, find sort⟩

end CasualityStrategy

/-- What `sort.Slice` promises for the comparison of `Find`: it is not stable. -/
structure SortsScores (sort : List EventScore → List EventScore) : Prop where
  perm : ∀ l, (sort l).Perm l
  sorted : ∀ l, (sort l).Pairwise fun a b => ¬ b.score < a.score

/-- What `EventsSet.Slice` promises: the elements of the set, in any order. -/
structure ListsSet (slice : ℕ → Finset EventID → List EventID) : Prop where
  nodup : ∀ k s, (slice k s).Nodup
  mem : ∀ k s id, id ∈ slice k s ↔ id ∈ s

end Ancestor

/-! ### What the index answers -/

namespace Index

variable {C : VecCaches}

/-- The merged vector of an event as the index has it, without a look at the caches. -/
def mergedSeq (vi : Index C) (id : EventID) : Option HighestBeforeSeq :=
  if vi.current.bi.atLeastOneFork vi.validators then
    some (mergeCreators vi.current.bi vi.validators ((vi.current.seqs id).getD (.new 0))
      ((vi.current.times id).getD (.new 0))).1
  else vi.current.seqs id

lemma Same.mergedSeq {vi vi' : Index C} (h : vi.Same vi') (id : EventID) :
    vi'.mergedSeq id = vi.mergedSeq id := by
  rw [Index.mergedSeq, h.current, h.validators]
  rfl

/-- In every state of the index the query returns. -/
lemma getHighestBeforeMerged_mergedSeq (vi : Index C) (id : EventID) :
    Returns (getHighestBeforeMerged id) vi fun r vi' => r = vi.mergedSeq id ∧ vi.Same vi' := by
  refine Returns.map ?_
  refine vi.initBranchesInfo_returns.bind ?_
  rintro _ vi₁ ⟨hload, h₁⟩
  refine (vi₁.branches_returns hload).bind ?_
  rintro _ vi₁ ⟨rfl, rfl⟩
  refine (vi₁.getHighestBeforeSeq_returns id).bind ?_
  rintro _ vi₂ ⟨rfl, h₂⟩
  refine (vi₂.getHighestBeforeTime_returns id).bind ?_
  rintro _ vi₃ ⟨rfl, h₃⟩
  refine Returns.get_bind ?_
  have hsame := (h₁.trans h₂).trans h₃
  rw [(h₁.trans h₂).current, h₁.current, hsame.validators]
  dsimp only
  split_ifs with hfork
  · exact Returns.pure ⟨by rw [mergedSeq, if_pos hfork], hsame⟩
  · exact Returns.pure ⟨by rw [mergedSeq, if_neg hfork], hsame⟩

end Index

namespace Ancestor

/-! ### One choice -/

namespace CasualityStrategy

variable {C : VecCaches} {st st' st'' : CasualityStrategy C}

/-- The score of an option against a template. -/
def score (st : CasualityStrategy C) (template : Option HighestBeforeSeq) (id : EventID) : ℕ :=
  vecScore st.validators (some (template.getD (.new st.validators.len))) (st.vecClock.mergedSeq id)

/-- `st'` differs from `st` at most in the template and in what the index has cached. -/
structure Keeps (st st' : CasualityStrategy C) : Prop where
  vecClock : st.vecClock.Same st'.vecClock
  validators : st'.validators = st.validators

lemma Keeps.refl (st : CasualityStrategy C) : st.Keeps st := ⟨.refl _, rfl⟩

lemma Keeps.trans (h : st.Keeps st') (h' : st'.Keeps st'') : st.Keeps st'' :=
  ⟨h.vecClock.trans h'.vecClock, h'.validators.trans h.validators⟩

lemma Keeps.score (h : st.Keeps st') (template : Option HighestBeforeSeq) (id : EventID) :
    st'.score template id = st.score template id := by
  rw [CasualityStrategy.score, h.validators, h.vecClock.mergedSeq]
  rfl

lemma getHighestBeforeMerged_returns (st : CasualityStrategy C) (id : EventID) :
    Returns (getHighestBeforeMerged id) st fun vec st' =>
      vec = st.vecClock.mergedSeq id ∧ st.Keeps st' ∧ st'.template = st.template := by
  refine Returns.zoom ((st.vecClock.getHighestBeforeMerged_mergedSeq id).mono ?_)
  rintro vec vi ⟨rfl, hsame⟩
  exact ⟨rfl, ⟨hsame, rfl⟩, rfl⟩

lemma init_returns (st : CasualityStrategy C) (selfParent : Option EventID) :
    Returns (init selfParent) st fun _ st' => st.Keeps st' ∧
      st'.template = (match selfParent with
        | some id => st.vecClock.mergedSeq id
        | none => st.template) := by
  cases selfParent with
  | none => exact Returns.pure ⟨.refl st, rfl⟩
  | some id =>
    refine (st.getHighestBeforeMerged_returns id).bind ?_
    rintro _ st' ⟨rfl, hkeeps, -⟩
    exact Returns.modify ⟨⟨hkeeps.vecClock, hkeeps.validators⟩, rfl⟩

/-- The score of an option does not depend on whether the template has been made already. -/
lemma eventScore_returns (template : Option HighestBeforeSeq)
    (htemplate : st.template.getD (.new st.validators.len) =
      template.getD (.new st.validators.len)) (id : EventID) :
    Returns (eventScore id) st fun r st' =>
      r = ⟨id, st.score template id, st.vecClock.mergedSeq id⟩ ∧ st.Keeps st' ∧
        st'.template.getD (.new st.validators.len) = template.getD (.new st.validators.len) := by
  refine (st.getHighestBeforeMerged_returns id).bind ?_
  rintro _ st₁ ⟨rfl, hkeeps, htemp⟩
  refine Returns.modify_bind ?_
  refine Returns.get_bind ?_
  rw [htemp, hkeeps.validators, htemplate]
  exact Returns.pure ⟨rfl, ⟨hkeeps.vecClock, rfl⟩, rfl⟩

lemma mapM_eventScore_returns (st : CasualityStrategy C) (options : List EventID) :
    Returns (options.mapM eventScore) st fun scores st' =>
      scores = options.map (fun id =>
        ⟨id, st.score st.template id, st.vecClock.mergedSeq id⟩) ∧ st.Keeps st' := by
  refine (Returns.mapM (fun id => ⟨id, st.score st.template id, st.vecClock.mergedSeq id⟩)
    (fun t => st.Keeps t ∧ t.template.getD (.new st.validators.len) =
      st.template.getD (.new st.validators.len)) ⟨.refl st, rfl⟩ fun id _ t ht => ?_).mono
    fun _ _ h => ⟨h.1, h.2.1⟩
  obtain ⟨hkeeps, htemp⟩ := ht
  refine (eventScore_returns st.template (by rw [hkeeps.validators, htemp]) id).mono ?_
  rintro _ t' ⟨rfl, hkeeps', htemp'⟩
  rw [hkeeps.validators] at htemp'
  rw [hkeeps.score, hkeeps.vecClock.mergedSeq]
  exact ⟨rfl, hkeeps.trans hkeeps', htemp'⟩

/-- `Find` takes an option of the least score. -/
lemma find_returns {sort : List EventScore → List EventScore} (hsort : SortsScores sort)
    (st : CasualityStrategy C) {options : List EventID} (hne : options ≠ []) :
    Returns (find sort options) st fun best st' => best ∈ options ∧
      (∀ o ∈ options, st.score st.template best ≤ st.score st.template o) ∧
      st'.template = st.vecClock.mergedSeq best ∧ st.Keeps st' := by
  refine (st.mapM_eventScore_returns options).bind ?_
  rintro _ st₁ ⟨rfl, hkeeps⟩
  set scores := options.map fun id =>
    (⟨id, st.score st.template id, st.vecClock.mergedSeq id⟩ : EventScore) with hscores
  have hperm := hsort.perm scores
  have hsorted := hsort.sorted scores
  cases hsorts : sort scores with
  | nil =>
    rw [hsorts] at hperm
    exact absurd (List.map_eq_nil_iff.mp (List.nil_perm.mp hperm)) hne
  | cons best rest =>
    rw [hsorts] at hperm hsorted
    obtain ⟨id, hid, rfl⟩ := List.mem_map.mp (hperm.subset List.mem_cons_self)
    refine Returns.modify_bind ?_
    refine Returns.pure ⟨hid, fun o ho => ?_, rfl, hkeeps.vecClock, hkeeps.validators⟩
    have hmem := hperm.symm.subset (List.mem_map_of_mem ho)
    rcases List.mem_cons.mp hmem with heq | hrest
    · cases heq
      exact le_rfl
    · exact Nat.not_lt.mp (List.rel_of_pairwise_cons hsorted hrest)

end CasualityStrategy

/-! ### All choices -/

section Along

variable {vec : EventID → Option HighestBeforeSeq}

/-- `P` holds of each choice: of the template and the options before it, and of the chosen option,
whose vector is the next template. -/
def Along (vec : EventID → Option HighestBeforeSeq)
    (P : Option HighestBeforeSeq → Finset EventID → EventID → Prop) :
    Option HighestBeforeSeq → Finset EventID → List EventID → Prop
  | _, _, [] => True
  | template, optionsSet, best :: chosen =>
    P template optionsSet best ∧ Along vec P (vec best) (optionsSet.erase best) chosen

variable {template : Option HighestBeforeSeq} {optionsSet : Finset EventID}

lemma Along.congr {P Q R : Option HighestBeforeSeq → Finset EventID → EventID → Prop}
    (hQR : ∀ t s b, P t s b → (Q t s b ↔ R t s b)) {chosen : List EventID}
    (h : Along vec P template optionsSet chosen) :
    Along vec Q template optionsSet chosen ↔ Along vec R template optionsSet chosen := by
  induction chosen generalizing template optionsSet with
  | nil => exact Iff.rfl
  | cons best chosen ih => exact and_congr (hQR _ _ _ h.1) (ih h.2)

variable {score : Option HighestBeforeSeq → EventID → ℕ}

/-- The choice is an option that no other one exceeds. -/
def Greatest (score : Option HighestBeforeSeq → EventID → ℕ) (template : Option HighestBeforeSeq)
    (optionsSet : Finset EventID) (best : EventID) : Prop :=
  best ∈ optionsSet ∧ ∀ o ∈ optionsSet, score template o ≤ score template best

/-- The choice is an option that exceeds no other one. -/
def Least (score : Option HighestBeforeSeq → EventID → ℕ) (template : Option HighestBeforeSeq)
    (optionsSet : Finset EventID) (best : EventID) : Prop :=
  best ∈ optionsSet ∧ ∀ o ∈ optionsSet, score template best ≤ score template o

/-- All options have the same score. -/
def Level (score : Option HighestBeforeSeq → EventID → ℕ) (template : Option HighestBeforeSeq)
    (optionsSet : Finset EventID) (_best : EventID) : Prop :=
  ∀ o ∈ optionsSet, ∀ o' ∈ optionsSet, score template o = score template o'

lemma Least.greatest_iff_level {best : EventID} (h : Least score template optionsSet best) :
    Greatest score template optionsSet best ↔ Level score template optionsSet best := by
  constructor
  · rintro ⟨-, hgreatest⟩ o ho o' ho'
    have heq : ∀ x ∈ optionsSet, score template x = score template best := fun x hx =>
      le_antisymm (hgreatest x hx) (h.2 x hx)
    rw [heq o ho, heq o' ho']
  · exact fun hlevel => ⟨h.1, fun o ho => (hlevel o ho best h.1).le⟩

lemma nodup_of_along {chosen : List EventID}
    (h : Along vec (Least score) template optionsSet chosen) :
    chosen.Nodup ∧ ∀ id ∈ chosen, id ∈ optionsSet := by
  induction chosen generalizing template optionsSet with
  | nil => exact ⟨List.nodup_nil, by simp⟩
  | cons best chosen ih =>
    obtain ⟨hnodup, hmem⟩ := ih h.2
    refine ⟨List.nodup_cons.mpr ⟨fun hbest => ?_, hnodup⟩, fun id hid => ?_⟩
    · exact Finset.notMem_erase best optionsSet (hmem best hbest)
    · rcases List.mem_cons.mp hid with rfl | hid
      · exact h.1.1
      · exact Finset.mem_of_mem_erase (hmem id hid)

end Along

namespace CasualityStrategy

variable {C : VecCaches} {sort : List EventScore → List EventScore}
variable {slice : ℕ → Finset EventID → List EventID}

/-- Each round takes a best option from what is left. -/
lemma findParents_returns (hsort : SortsScores sort) (hslice : ListsSet slice) (n : ℕ)
    (st₀ : CasualityStrategy C) {st : CasualityStrategy C} (hst : st₀.Keeps st)
    (optionsSet : Finset EventID) (parents : List EventID) :
    Returns (findParents (strategy sort) slice n optionsSet parents) st fun r st' =>
      st₀.Keeps st' ∧ ∃ chosen, r = parents ++ chosen ∧
        chosen.length = min n optionsSet.card ∧
        Along st₀.vecClock.mergedSeq (Least st₀.score) st.template optionsSet chosen := by
  induction n generalizing st optionsSet parents with
  | zero => exact Returns.pure ⟨hst, [], by simp, by simp, trivial⟩
  | succ n ih =>
    rw [findParents]
    split_ifs with hcard
    · have hne : slice parents.length optionsSet ≠ [] := by
        obtain ⟨id, hid⟩ := Finset.card_pos.mp hcard
        exact List.ne_nil_of_mem ((hslice.mem _ _ id).mpr hid)
      refine (find_returns hsort st hne).bind ?_
      rintro best st' ⟨hbest, hleast, htemplate, hkeeps⟩
      rw [hslice.mem] at hbest
      refine (ih (hst.trans hkeeps) (optionsSet.erase best) (parents ++ [best])).mono ?_
      rintro _ st'' ⟨hkeeps', chosen, rfl, hlen, halong⟩
      refine ⟨hkeeps', best :: chosen, by simp, ?_, ⟨hbest, fun o ho => ?_⟩, ?_⟩
      · rw [List.length_cons, hlen, Finset.card_erase_of_mem hbest]
        omega
      · have := hleast o ((hslice.mem _ _ o).mpr ho)
        rwa [hst.score, hst.score] at this
      · rwa [htemplate, hst.vecClock.mergedSeq] at halong
    · refine Returns.pure ⟨hst, [], by simp, ?_, trivial⟩
      rw [Nat.eq_zero_of_not_pos hcard, Nat.min_zero]
      rfl

/-- The options apart from the self-parent. -/
def others (options : List EventID) (selfParent : Option EventID) : Finset EventID :=
  options.toFinset \ selfParent.toFinset

/-- The template with which the search begins. -/
def start (st : CasualityStrategy C) (selfParent : Option EventID) : Option HighestBeforeSeq :=
  match selfParent with
  | some id => st.vecClock.mergedSeq id
  | none => st.template

lemma findBestParents_returns (hsort : SortsScores sort) (hslice : ListsSet slice) (max : ℕ)
    (options : List EventID) (selfParent : Option EventID) (st : CasualityStrategy C) :
    Returns (findBestParents (strategy sort) slice max options selfParent) st fun r _ =>
      ∃ chosen, r = (selfParent, selfParent.toList ++ chosen) ∧
        chosen.length = min (max - selfParent.toList.length) (others options selfParent).card ∧
        Along st.vecClock.mergedSeq (Least st.score) (st.start selfParent)
          (others options selfParent) chosen := by
  cases selfParent with
  | none =>
    refine (st.init_returns none).bind ?_
    rintro _ st' ⟨hkeeps, htemplate⟩
    refine (findParents_returns hsort hslice (max - 0) st hkeeps options.toFinset []).bind ?_
    rintro parents st'' ⟨-, chosen, hparents, hlen, halong⟩
    rw [htemplate] at halong
    refine Returns.pure ⟨chosen, by rw [hparents]; rfl, ?_⟩
    simp only [others, Option.toFinset_none, Finset.sdiff_empty]
    exact ⟨hlen, halong⟩
  | some id =>
    refine (st.init_returns (some id)).bind ?_
    rintro _ st' ⟨hkeeps, htemplate⟩
    refine (findParents_returns hsort hslice (max - 1) st hkeeps (options.toFinset.erase id)
      [id]).bind ?_
    rintro _ st'' ⟨-, chosen, rfl, hlen, halong⟩
    rw [htemplate] at halong
    refine Returns.pure ⟨chosen, rfl, ?_⟩
    simp only [others, Option.toFinset_some, Finset.sdiff_singleton_eq_erase]
    exact ⟨hlen, halong⟩

/-! ### Whether the best parents are chosen -/

/-- `Find` returns an option of the greatest score and takes its vector as the next template. -/
def FindsBest (sort : List EventScore → List EventScore) (st : CasualityStrategy C)
    (options : List EventID) : Prop :=
  ∃ best st', (find sort options).run st = .ok (best, st') ∧
    Greatest st.score st.template options.toFinset best ∧
    st'.template = st.vecClock.mergedSeq best

/-- `FindBestParents` returns these parents after the self-parent. -/
def Chooses (sort : List EventScore → List EventScore) (slice : ℕ → Finset EventID → List EventID)
    (st : CasualityStrategy C) (max : ℕ) (options : List EventID) (selfParent : Option EventID)
    (chosen : List EventID) : Prop :=
  ∃ st', (findBestParents (strategy sort) slice max options selfParent).run st =
    .ok ((selfParent, selfParent.toList ++ chosen), st')

/-- The parents are as many as there can be, and after the self-parent they are distinct options
with the greatest score in each round. -/
structure BestParents (st : CasualityStrategy C) (max : ℕ) (options : List EventID)
    (selfParent : Option EventID) (chosen : List EventID) : Prop where
  nodup : chosen.Nodup
  mem : ∀ id ∈ chosen, id ∈ others options selfParent
  greatest : Along st.vecClock.mergedSeq (Greatest st.score) (st.start selfParent)
    (others options selfParent) chosen
  length : (selfParent.toList ++ chosen).length =
    min max (selfParent.toList ++ options).toFinset.card

lemma card_candidates (options : List EventID) (selfParent : Option EventID) :
    (selfParent.toList ++ options).toFinset.card =
      selfParent.toList.length + (others options selfParent).card := by
  cases selfParent with
  | none => simp [others]
  | some id =>
    simp only [Option.toList_some, List.singleton_append, List.toFinset_cons, others,
      Option.toFinset_some, Finset.sdiff_singleton_eq_erase, List.length_singleton]
    have hinsert : insert id options.toFinset = insert id (options.toFinset.erase id) := by
      ext x
      by_cases hx : x = id <;> simp [hx]
    rw [hinsert, Finset.card_insert_of_notMem (Finset.notMem_erase _ _), Nat.add_comm]

/-- `Find` returns an option of the greatest score if and only if all options have the same score.
`FindBestParents` chooses the best parents if and only if this is so in each of its rounds, and the
self-parent is not already too much. -/
theorem findBestParents_best_iff (hsort : SortsScores sort) (hslice : ListsSet slice)
    (st : CasualityStrategy C) :
    (∀ options ≠ [], FindsBest sort st options ↔
      ∀ o ∈ options, ∀ o' ∈ options, st.score st.template o = st.score st.template o') ∧
    ∀ max options selfParent, ∃ chosen, Chooses sort slice st max options selfParent chosen ∧
      (BestParents st max options selfParent chosen ↔
        Along st.vecClock.mergedSeq (Level st.score) (st.start selfParent)
          (others options selfParent) chosen ∧ (selfParent = none ∨ 0 < max)) := by
  refine ⟨fun options hne => ?_, fun max options selfParent => ?_⟩
  · obtain ⟨best, st', hrun, hbest, hleast, htemplate, -⟩ := find_returns hsort st hne
    have hmem : Least st.score st.template options.toFinset best := by
      refine ⟨List.mem_toFinset.mpr hbest, fun o ho => hleast o (List.mem_toFinset.mp ho)⟩
    have hlevel : Level st.score st.template options.toFinset best ↔
        ∀ o ∈ options, ∀ o' ∈ options, st.score st.template o = st.score st.template o' := by
      simp only [Level, List.mem_toFinset]
    rw [← hlevel, ← hmem.greatest_iff_level]
    constructor
    · rintro ⟨best', st'', hrun', hgreatest, -⟩
      cases Except.ok.inj (hrun.symm.trans hrun')
      exact hgreatest
    · exact fun hgreatest => ⟨best, st', hrun, hgreatest, htemplate⟩
  · obtain ⟨_, st', hrun, chosen, rfl, hlen, hleast⟩ :=
      findBestParents_returns hsort hslice max options selfParent st
    obtain ⟨hnodup, hmem⟩ := nodup_of_along hleast
    refine ⟨chosen, ⟨st', hrun⟩, ?_⟩
    have hlength : (selfParent.toList ++ chosen).length =
        min max (selfParent.toList ++ options).toFinset.card ↔ selfParent = none ∨ 0 < max := by
      rw [List.length_append, hlen, card_candidates]
      cases selfParent with
      | none => simp
      | some id =>
        simp only [Option.toList_some, List.length_singleton, reduceCtorEq, false_or]
        omega
    rw [← hlength, ← hleast.congr fun _ _ _ h => h.greatest_iff_level]
    exact ⟨fun h => ⟨h.greatest, h.length⟩, fun h => ⟨hnodup, hmem, h.1, h.2⟩⟩

end CasualityStrategy

/-! ### Two heads -/

namespace TwoHeads

open CasualityStrategy Index

/-- The first event of the validator 1, without parents. -/
def low : Event := ⟨1, 1, 1, true, 1, 0, [], 1, 1, 1, 1⟩

/-- The first events of the validators 2 and 3. -/
def second : Event := ⟨1, 1, 1, true, 2, 0, [], 1, 1, 1, 2⟩

@[inherit_doc second]
def third : Event := ⟨1, 1, 1, true, 3, 0, [], 1, 1, 1, 3⟩

/-- An event of the validator 3 that sees both. -/
def high : Event := ⟨1, 2, 1, false, 3, 0, [third.hash, second.hash], 2, 2, 2, 4⟩

def events : GetEvent := lookup [low, second, third, high]

/-- The events are added to the index. -/
def calls : List IndexCall := [.add low, .add second, .add third, .add high]

/-- Short slices are sorted by insertion. -/
def sortScores (l : List EventScore) : List EventScore :=
  l.insertionSort fun a b => a.score ≤ b.score

lemma sortsScores : SortsScores sortScores where
  perm l := List.perm_insertionSort _ l
  sorted l := by
    have : Std.Total fun a b : EventScore => a.score ≤ b.score := ⟨fun a b => le_total _ _⟩
    have : IsTrans EventScore fun a b => a.score ≤ b.score := ⟨fun _ _ _ => le_trans⟩
    exact (List.pairwise_insertionSort _ l).imp fun h => Nat.not_lt.mpr h

/-- The elements of a set in ascending order. -/
def ascending (_ : ℕ) (s : Finset EventID) : List EventID := s.sort (· ≤ ·)

lemma listsSet_ascending : ListsSet ascending :=
  ⟨fun _ s => s.sort_nodup _, fun _ s _ => s.mem_sort _⟩

/-- The strategy over the index after the calls, without a template. -/
def strategyOf (vi : Index smallCaches) : CasualityStrategy smallCaches := ⟨vi, none, Forked.equal⟩

/-- The head that is found, and the scores of both heads. -/
def outcome : Except Fault (EventID × ℕ × ℕ) :=
  (run calls).run (Index.new Forked.equal .empty events : Index smallCaches) >>= fun r =>
    (find sortScores [high.hash, low.hash]).run (strategyOf r.2) >>= fun b =>
      .ok (b.1, (strategyOf r.2).score none high.hash, (strategyOf r.2).score none low.hash)

lemma outcome_eq : outcome = .ok (low.hash, 2, 1) := by decide +kernel

lemma exists_run : ∃ vi, (run calls).run
    (Index.new Forked.equal .empty events : Index smallCaches) = .ok ((), vi) := by
  have houtcome := outcome_eq
  rw [outcome] at houtcome
  obtain ⟨⟨_, vi⟩, hrun, -⟩ := bind_eq_ok_iff.mp houtcome
  exact ⟨vi, hrun⟩

theorem findBestParents_best_iff_twoHeads : ∃ vi, (run calls).run
      (Index.new Forked.equal .empty events : Index smallCaches) = .ok ((), vi) ∧
    (∀ options ≠ [], FindsBest sortScores (strategyOf vi) options ↔ ∀ o ∈ options, ∀ o' ∈ options,
      (strategyOf vi).score none o = (strategyOf vi).score none o') ∧
    ∀ max options selfParent, ∃ chosen,
      Chooses sortScores ascending (strategyOf vi) max options selfParent chosen ∧
      (BestParents (strategyOf vi) max options selfParent chosen ↔
        Along (strategyOf vi).vecClock.mergedSeq (Level (strategyOf vi).score)
          ((strategyOf vi).start selfParent) (others options selfParent) chosen ∧
        (selfParent = none ∨ 0 < max)) := by
  obtain ⟨vi, hrun⟩ := exists_run
  exact ⟨vi, hrun, findBestParents_best_iff sortsScores listsSet_ascending (strategyOf vi)⟩

/-- The head with the lower score is found. -/
theorem not_findsBest : ∃ vi, (run calls).run
      (Index.new Forked.equal .empty events : Index smallCaches) = .ok ((), vi) ∧
    ¬ FindsBest sortScores (strategyOf vi) [high.hash, low.hash] := by
  have houtcome := outcome_eq
  rw [outcome] at houtcome
  obtain ⟨⟨_, vi⟩, hrun, houtcome⟩ := bind_eq_ok_iff.mp houtcome
  obtain ⟨⟨best, st⟩, hfind, hscores⟩ := bind_eq_ok_iff.mp houtcome
  obtain ⟨hbest, hscores⟩ := Prod.mk.inj (Except.ok.inj hscores)
  obtain ⟨hhigh, hlow⟩ := Prod.mk.inj hscores
  refine ⟨vi, hrun, ?_⟩
  rintro ⟨best', st', hfind', hgreatest, -⟩
  cases Except.ok.inj (hfind.symm.trans hfind')
  have hle := hgreatest.2 high.hash (by simp)
  have hle' : (strategyOf vi).score none high.hash ≤ (strategyOf vi).score none best := hle
  rw [hhigh, show best = low.hash from hbest, hlow] at hle'
  exact absurd hle' (by decide)

end TwoHeads

end Ancestor

end Lachesis
