import Lachesis.Poset.ElectionSafety

/-!
# Runs of the election

Roots are given to an election in any order in which the roots that a root observes come before it.
No such run ends with an error or a fault, and any two of them agree.
-/

namespace Lachesis

open Lachesis.Core

namespace Election

variable {R : RootGraph} {V : Validators} {f : ℕ} {el : Election} {P : Set EventID}

/-- A call of `ProcessRoot` and what `GetFrameRoots` answers during it. -/
structure Feed where
  root : EventID
  frameRoots : ℕ → List RootAndSlot

/-- Process the roots one after another, collecting the results. -/
def processRoots (observe : EventID → EventID → Bool) (slot : EventID → Slot) :
    List Feed → Election → Except Halt (List (Option Res) × Election)
  | [], el => .ok ([], el)
  | x :: feeds, el => do
    let (res, el) ← el.processRoot ⟨x.root, slot x.root⟩
      (observedRoots observe (x.frameRoots ((slot x.root).frame - 1)) x.root)
    let (results, el) ← processRoots observe slot feeds el
    return (res :: results, el)

/-- The call is about a root; `GetFrameRoots` lists roots of the previous frame without repetition,
and those the new root observes are listed and were given before. -/
structure Feed.Legal (R : RootGraph) (P : Set EventID) (x : Feed) : Prop where
  root_mem : x.root ∈ R.roots
  nodup : (x.frameRoots ((R.slot x.root).frame - 1)).Nodup
  mem_roots : ∀ y ∈ x.frameRoots ((R.slot x.root).frame - 1), ∃ b ∈ R.roots,
    y = R.rootAndSlot b ∧ (R.slot b).frame = (R.slot x.root).frame - 1
  observed : ∀ b ∈ R.roots, (R.slot b).frame + 1 = (R.slot x.root).frame →
    R.observe x.root b = true →
    b ∈ P ∧ R.rootAndSlot b ∈ x.frameRoots ((R.slot x.root).frame - 1)

/-- Every call is legal where it is made. -/
def LegalFeeds (R : RootGraph) : Set EventID → List Feed → Prop
  | _, [] => True
  | P, x :: feeds => x.Legal R P ∧ LegalFeeds R (insert x.root P) feeds

lemma Feed.Legal.observes {x : Feed} (h : x.Legal R P) (hframe : 0 < (R.slot x.root).frame) :
    R.Observes x.root
        (observedRoots R.observe (x.frameRoots ((R.slot x.root).frame - 1)) x.root) ∧
      ∀ y ∈ observedRoots R.observe (x.frameRoots ((R.slot x.root).frame - 1)) x.root, y.id ∈ P := by
  have hmem : ∀ y, y ∈ observedRoots R.observe (x.frameRoots ((R.slot x.root).frame - 1)) x.root ↔
      ∃ b ∈ R.roots, y = R.rootAndSlot b ∧ (R.slot b).frame + 1 = (R.slot x.root).frame ∧
        R.observe x.root b = true := by
    intro y
    rw [observedRoots, List.mem_filter]
    constructor
    · rintro ⟨hy, hobs⟩
      obtain ⟨b, hb, rfl, hbf⟩ := h.mem_roots y hy
      exact ⟨b, hb, rfl, by omega, hobs⟩
    · rintro ⟨b, hb, rfl, hbf, hobs⟩
      exact ⟨(h.observed b hb hbf hobs).2, hobs⟩
  refine ⟨⟨h.nodup.filter _, hmem⟩, fun y hy => ?_⟩
  obtain ⟨b, hb, rfl, hbf, hobs⟩ := (hmem y).mp hy
  exact (h.observed b hb hbf hobs).1

/-- The roots given after some calls. -/
def given (P : Set EventID) (feeds : List Feed) : Set EventID := P ∪ {r | ∃ x ∈ feeds, x.root = r}

lemma given_cons (P : Set EventID) (x : Feed) (feeds : List Feed) :
    given P (x :: feeds) = given (insert x.root P) feeds := by
  ext r
  simp only [given, Set.mem_union, Set.mem_insert_iff, Set.mem_ofPred_eq, List.exists_mem_cons_iff,
    eq_comm (a := x.root)]
  tauto

/-- A legal run has no error and no fault; each result is the outcome of roots that were given, and
the last one that of all of them. -/
theorem processRoots_ok (hE : R.Electable V f) {feeds : List Feed} (h : el.Given R V f P)
    (hfeeds : LegalFeeds R P feeds) :
    ∃ results el', processRoots R.observe R.slot feeds el = .ok (results, el') ∧
      el'.Given R V f (given P feeds) ∧
      (∀ res ∈ results, ∃ Q ⊆ given P feeds, Outcome R V f Q res) ∧
      (feeds ≠ [] → ∃ res, results.getLast? = some res ∧ Outcome R V f (given P feeds) res) := by
  induction feeds generalizing P el with
  | nil => exact ⟨[], el, rfl, by simpa [given] using h, by simp, by simp⟩
  | cons x feeds ih =>
    obtain ⟨hx, hfeeds⟩ := hfeeds
    obtain ⟨res, el₁, hrun, hgiven, hout⟩ :=
      processRoot_ok hE h hx.root_mem fun hlt => hx.observes (by omega)
    obtain ⟨results, el₂, hruns, hgiven₂, hall, hlast⟩ := ih hgiven hfeeds
    rw [← given_cons] at hgiven₂ hall hlast
    refine ⟨res :: results, el₂, ?_, hgiven₂, ?_, fun _ => ?_⟩
    · have hrun' : el.processRoot ⟨x.root, R.slot x.root⟩ (observedRoots R.observe
          (x.frameRoots ((R.slot x.root).frame - 1)) x.root) = .ok (res, el₁) := hrun
      simp only [processRoots, hrun', bind, Except.bind, hruns]
      rfl
    · intro res' hres'
      rcases List.mem_cons.mp hres' with rfl | hres'
      · refine ⟨insert x.root P, ?_, hout⟩
        rw [given_cons]
        exact Set.subset_union_left
      · exact hall res' hres'
    · cases feeds with
      | nil =>
        cases hruns
        exact ⟨res, rfl, by rw [given_cons]; simpa [given] using hout⟩
      | cons y feeds =>
        obtain ⟨last, hlast, hout'⟩ := hlast (by simp)
        exact ⟨last, by rw [List.getLast?_cons, hlast]; rfl, hout'⟩

/-! ### Roots in a list -/

/-- The graph of the roots of a list; the root `10 * frame + validator` is of that slot. -/
def listed (roots : List EventID) (observe : EventID → EventID → Bool) : RootGraph where
  roots := {r | r ∈ roots}
  slot r := ⟨r / 10, r % 10⟩
  observe

/-- The call about a root, with all roots known. -/
def listedFeed (roots : List EventID) (r : EventID) : Feed where
  root := r
  frameRoots frame := (roots.filter fun b => b / 10 = frame).map fun b => ⟨b, ⟨b / 10, b % 10⟩⟩

/-- The roots of the previous frame that a root observes. -/
def observedOf (roots : List EventID) (observe : EventID → EventID → Bool) (r : EventID) :
    List EventID :=
  roots.filter fun b => b / 10 + 1 = r / 10 && observe r b

/-- The roots of `rs` are given after those that they observe. -/
def InOrder (roots : List EventID) (observe : EventID → EventID → Bool) :
    (given rs : List EventID) → Bool
  | _, [] => true
  | given, r :: rs => r ∈ roots && (observedOf roots observe r).all (· ∈ given) &&
      InOrder roots observe (r :: given) rs

section Listed

variable {roots : List EventID} {observe : EventID → EventID → Bool}

lemma mem_observedOf {r b : EventID} : b ∈ observedOf roots observe r ↔
    b ∈ roots ∧ b / 10 + 1 = r / 10 ∧ observe r b = true := by
  simp [observedOf]

lemma legalFeeds_listed (hnodup : roots.Nodup) {given rs : List EventID}
    (h : InOrder roots observe given rs = true) (hP : ∀ b ∈ given, b ∈ P) :
    LegalFeeds (listed roots observe) P (rs.map (listedFeed roots)) := by
  induction rs generalizing given P with
  | nil => trivial
  | cons r rs ih =>
    simp only [InOrder, Bool.and_eq_true, decide_eq_true_eq, List.all_eq_true] at h
    obtain ⟨⟨hr, hobserved⟩, hrest⟩ := h
    refine ⟨⟨hr, ?_, ?_, ?_⟩, ?_⟩
    · exact (hnodup.filter _).map fun _ _ heq => congrArg RootAndSlot.id heq
    · intro y hy
      obtain ⟨b, hb, rfl⟩ := List.mem_map.mp hy
      obtain ⟨hb, hframe⟩ := List.mem_filter.mp hb
      exact ⟨b, hb, rfl, of_decide_eq_true hframe⟩
    · intro b hb hframe hobs
      refine ⟨hP b (hobserved b (mem_observedOf.mpr ⟨hb, hframe, hobs⟩)), ?_⟩
      exact List.mem_map.mpr ⟨b, List.mem_filter.mpr
        ⟨hb, decide_eq_true (Nat.eq_sub_of_add_eq hframe)⟩, rfl⟩
    · refine ih hrest (List.forall_mem_cons.mpr ⟨Set.mem_insert _ _, fun b hb => ?_⟩)
      exact Set.mem_insert_of_mem _ (hP b hb)

open Classical in
lemma quorum_listed {V : Validators} (hV : ∀ r ∈ roots, r % 10 ∈ V.members) {r : EventID}
    (h : V.quorum.toNat ≤ weight V.stakeOf ((observedOf roots observe r).map (· % 10)).toFinset) :
    V.quorum.toNat ≤
      weight V.stakeOf (V.members.filter ((listed roots observe).observedBy V r)) := by
  refine h.trans (weight_mono _ fun v hv => ?_)
  obtain ⟨b, hb, rfl⟩ := List.mem_map.mp (List.mem_toFinset.mp hv)
  obtain ⟨hb, hframe, hobs⟩ := mem_observedOf.mp hb
  exact Finset.mem_filter.mpr ⟨hV b hb, hV b hb, b, hb, hframe, rfl, hobs⟩

lemma slot_listed {b b' : EventID}
    (h : (listed roots observe).slot b = (listed roots observe).slot b') : b = b' := by
  obtain ⟨hframe, hvalidator⟩ : b / 10 = b' / 10 ∧ b % 10 = b' % 10 := Slot.mk.inj h
  rw [← Nat.div_add_mod b 10, hframe, hvalidator, Nat.div_add_mod]

end Listed

/-- Four validators of one stake. -/
def fourValidators : Validators :=
  ⟨[⟨1, 1⟩, ⟨2, 1⟩, ⟨3, 1⟩, ⟨4, 1⟩], by decide, by decide, by decide⟩

def fourRoots : List EventID := [11, 12, 13, 14, 21, 22, 23, 24, 33, 34]

/-- Each root observes those of the frame before, but not that of one validator. -/
def crossing : RootGraph := listed fourRoots fun r b => b % 10 ≠ r % 10 % 4 + 1

/-- A run of the election with the roots in this order. -/
def runCrossing (rs : List EventID) : Except Halt (List (Option Res) × Election) :=
  processRoots crossing.observe crossing.slot (rs.map (listedFeed fourRoots)) (new fourValidators 1)

/-- The roots up to the one that decides, frame by frame, -/
def frameByFrame : List EventID := [11, 12, 13, 14, 21, 22, 23, 24, 33]

/-- and all roots in another order. -/
def otherOrder : List EventID := [14, 13, 12, 24, 11, 23, 22, 21, 34, 33]

lemma electable_crossing : crossing.Electable fourValidators 1 where
  total_lt := by decide +kernel
  validator_mem := by
    simp only [crossing, listed, Set.mem_ofPred_eq]
    decide +kernel
  unique _ _ _ _ _ _ _ _ _ _ h := slot_listed h
  quorum r hr hlt := by
    refine quorum_listed (by decide +kernel) ?_
    revert r
    simp only [crossing, listed, Set.mem_ofPred_eq]
    decide +kernel

lemma legal_crossing (rs : List EventID) (h : InOrder fourRoots crossing.observe [] rs = true) :
    LegalFeeds crossing ∅ (rs.map (listedFeed fourRoots)) :=
  legalFeeds_listed (by decide) h (by simp)

/-! ### Agreement -/

/-- Two runs over roots of one graph agree, and a run that is given all roots of a decided one is
decided. -/
theorem processRoots_agree (hE : R.Electable V f) (feeds₁ feeds₂ : List Feed)
    (h₁ : LegalFeeds R ∅ feeds₁) (h₂ : LegalFeeds R ∅ feeds₂) :
    ∃ results₁ el₁ results₂ el₂,
      processRoots R.observe R.slot feeds₁ (new V f) = .ok (results₁, el₁) ∧
      processRoots R.observe R.slot feeds₂ (new V f) = .ok (results₂, el₂) ∧
      (∀ res₁ res₂, some res₁ ∈ results₁ → some res₂ ∈ results₂ → res₁ = res₂) ∧
      (∀ res, some res ∈ results₁ → res.frame = f ∧ res.atropos ∈ R.roots ∧
        (R.slot res.atropos).frame = f ∧
        ∃ r ∈ R.roots, (R.slot r).frame = f + 1 ∧ R.observe r res.atropos = true) ∧
      (∀ res, some res ∈ results₁ → (∀ x ∈ feeds₁, ∃ y ∈ feeds₂, y.root = x.root) →
        results₂.getLast? = some (some res) ∧ el₂.chooseAtropos = .ok (some res)) := by
  obtain ⟨results₁, el₁, hrun₁, hgiven₁, hall₁, -⟩ := processRoots_ok hE (given_new R V f) h₁
  obtain ⟨results₂, el₂, hrun₂, hgiven₂, hall₂, hlast₂⟩ := processRoots_ok hE (given_new R V f) h₂
  refine ⟨results₁, el₁, results₂, el₂, hrun₁, hrun₂, ?_, ?_, ?_⟩
  · intro res₁ res₂ hres₁ hres₂
    obtain ⟨Q₁, -, hout₁⟩ := hall₁ _ hres₁
    obtain ⟨Q₂, -, hout₂⟩ := hall₂ _ hres₂
    exact hout₁.unique hE hout₂
  · intro res hres
    obtain ⟨Q, -, hout⟩ := hall₁ _ hres
    obtain ⟨hf, -, s, -, -, -, -, har, hslot, hobs⟩ := hout.elected
    exact ⟨hf, har, by rw [hslot], hobs⟩
  · intro res hres hsub
    obtain ⟨Q, hQ, hout⟩ := hall₁ _ hres
    have hQ₂ : Q ⊆ given ∅ feeds₂ := by
      refine hQ.trans ?_
      rintro r (hr | ⟨x, hx, rfl⟩)
      · exact absurd hr (Set.notMem_empty r)
      · exact Or.inr (hsub x hx)
    -- a root that decides shows that the second run is not empty
    obtain ⟨-, -, s, -, -, -, ⟨r, hr, hroot, -⟩, -⟩ := hout.elected
    have hne : feeds₂ ≠ [] := by
      rintro rfl
      simpa [given] using hQ₂ hr
    obtain ⟨last, hlast, hout_last⟩ := hlast₂ hne
    obtain ⟨chosen, hchosen, hout_chosen⟩ :=
      hgiven₂.chooseAtropos hE ⟨_, hE.validator_mem r hroot⟩
    rw [hlast, hchosen, hout.of_elected hE hQ₂ hout_last, hout.of_elected hE hQ₂ hout_chosen]
    exact ⟨rfl, rfl⟩

theorem processRoots_agree_crossing :
    (runCrossing frameByFrame).map Prod.fst = .ok (List.replicate 8 none ++ [some ⟨1, 11⟩]) ∧
    ∃ results el, runCrossing otherOrder = .ok (results, el) ∧
      results.getLast? = some (some ⟨1, 11⟩) ∧ el.chooseAtropos = .ok (some ⟨1, 11⟩) := by
  have heval : (runCrossing frameByFrame).map Prod.fst =
      .ok (List.replicate 8 none ++ [some ⟨1, 11⟩]) := by decide +kernel
  refine ⟨heval, ?_⟩
  obtain ⟨results, el, results', el', hrun, hrun', -, -, hlast⟩ :=
    processRoots_agree electable_crossing _ _ (legal_crossing frameByFrame (by decide))
      (legal_crossing otherOrder (by decide))
  rw [runCrossing, hrun] at heval
  obtain rfl : results = _ := Except.ok.inj heval
  have hsub : ∀ r ∈ frameByFrame, r ∈ otherOrder := by decide
  refine ⟨results', el', hrun', hlast ⟨1, 11⟩ (by simp) fun x hx => ?_⟩
  obtain ⟨r, hr, rfl⟩ := List.mem_map.mp hx
  exact ⟨_, List.mem_map_of_mem (hsub r hr), rfl⟩

/-- A validator alone, -/
def soloValidators : Validators := ⟨[⟨1, 1⟩], by decide, by decide, by decide⟩

/-- with a root of the second and of the third frame. -/
def late : RootGraph := listed [21, 31] fun _ _ => true

open Classical in
/-- A root of the frame after the one to decide that observes nothing makes the election fail, even
if all later roots observe a quorum. -/
theorem processRoots_allNo :
    soloValidators.total < 2 ^ 63 ∧
    (∀ r ∈ late.roots, (late.slot r).validator ∈ soloValidators.members) ∧
    (∀ r ∈ late.roots, ∀ r' ∈ late.roots, ∀ b ∈ late.roots, ∀ b' ∈ late.roots,
      late.observe r b = true → late.observe r' b' = true → late.slot b = late.slot b' → b = b') ∧
    (∀ r ∈ late.roots, 1 + 1 < (late.slot r).frame →
      soloValidators.quorum.toNat ≤ weight soloValidators.stakeOf
        (soloValidators.members.filter (late.observedBy soloValidators r))) ∧
    LegalFeeds late ∅ ([21, 31].map (listedFeed [21, 31])) ∧
    (processRoots late.observe late.slot ([21, 31].map (listedFeed [21, 31]))
      (new soloValidators 1)).map Prod.fst = .error (.error .allNo) := by
  have hmem : ∀ r ∈ [21, 31], r % 10 ∈ soloValidators.members := by decide +kernel
  refine ⟨by decide +kernel, hmem, fun _ _ _ _ b _ b' _ _ _ h => slot_listed h, fun r hr hlt => ?_,
    ?_, by decide +kernel⟩
  · refine quorum_listed hmem ?_
    revert r
    simp only [late, listed, Set.mem_ofPred_eq]
    decide +kernel
  · have horder : InOrder [21, 31] (fun _ _ => true) [] [21, 31] = true := by decide
    exact legalFeeds_listed (by decide) horder (by simp)

/-- Some validator is never decided with no, so there is no election without a candidate. -/
theorem exists_never_decided_no (hE : R.Electable V f) (hne : V.members.Nonempty) :
    ∃ s ∈ V.members, ∀ feeds, LegalFeeds R ∅ feeds → ∃ results el,
      processRoots R.observe R.slot feeds (new V f) = .ok (results, el) ∧
      (∀ vote, el.decidedRoots[s]? = some vote → vote.yes = true) ∧
      el.chooseAtropos ≠ .error (.error .allNo) := by
  obtain ⟨s, hs, hnot⟩ := hE.exists_not_decidedNo hne
  refine ⟨s, hs, fun feeds hfeeds => ?_⟩
  obtain ⟨results, el, hrun, hgiven, -, -⟩ := processRoots_ok hE (given_new R V f) hfeeds
  refine ⟨results, el, hrun, fun vote hvote => ?_, ?_⟩
  · obtain ⟨P, -, hinv, -⟩ := hgiven
    by_contra hno
    exact hnot P (hinv.decided_no s vote hvote (by simpa using hno))
  · obtain ⟨res, hres, -⟩ := hgiven.chooseAtropos hE hne
    simp [hres]

theorem exists_never_decided_no_crossing : ∃ s ∈ fourValidators.members,
    ∀ rs ∈ [frameByFrame, otherOrder], ∃ results el, runCrossing rs = .ok (results, el) ∧
      (∀ vote, el.decidedRoots[s]? = some vote → vote.yes = true) ∧
      el.chooseAtropos ≠ .error (.error .allNo) := by
  obtain ⟨s, hs, h⟩ := exists_never_decided_no electable_crossing ⟨1, by decide⟩
  refine ⟨s, hs, fun rs hrs => h _ (legal_crossing rs ?_)⟩
  revert rs
  decide

end Election

end Lachesis
